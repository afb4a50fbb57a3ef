import Mathlib.Data.List.TakeWhile
import Xv6.Fs.Block

/-!
# Names and paths

A string is the list of its bytes before the NUL, and `*p` at its end is the NUL. A buffer
`char name[DIRSIZ]` is a list of bytes of which those behind the first NUL do not count: a
name of `DIRSIZ` bytes has no NUL at all. `skipelem` leaves in the buffer what stood behind
the NUL before.
-/

namespace Xv6.Data

open Fs (DIRSIZ)

def strncmp : ℕ → List UInt8 → List UInt8 → ℤ
  | 0, _, _ => 0
  | n + 1, p, q =>
    if p.headD 0 ≠ 0 ∧ p.headD 0 = q.headD 0 then strncmp n p.tail q.tail
    else (p.headD 0).toNat - (q.headD 0).toNat

def namecmp (s t : List UInt8) : ℤ := strncmp DIRSIZ s t

/-- The name in a buffer: the bytes before the first NUL, `DIRSIZ` at most. -/
def key (b : List UInt8) : List UInt8 := (b.take DIRSIZ).takeWhile (· ≠ 0)

/-- The `n` bytes that `strncpy` writes. -/
def strncpy : ℕ → List UInt8 → List UInt8
  | 0, _ => []
  | n + 1, t => if t.headD 0 ≠ 0 then t.headD 0 :: strncpy n t.tail else List.replicate (n + 1) 0

/-- `len` bytes of `s` are copied into the buffer, with a NUL if there is room for it. -/
def copyElem (s : List UInt8) (len : ℕ) (name : List UInt8) : List UInt8 :=
  if DIRSIZ ≤ len then s.take DIRSIZ ++ name.drop DIRSIZ
  else s.take len ++ 0 :: name.drop (len + 1)

/-- Copy the next element of `path` into the buffer `name`, and return the rest of the path. -/
def skipelem (path name : List UInt8) : Option (List UInt8 × List UInt8) :=
  let path := path.dropWhile (· = 47)
  if path.headD 0 = 0 then none
  else
    let s := path
    let path := path.dropWhile fun c => c ≠ 47 ∧ c ≠ 0
    let len := s.length - path.length
    some (path.dropWhile (· = 47), copyElem s len name)

/-! ### Comparing and copying -/

section Strings

variable {n : ℕ} {p q t : List UInt8}

/-- `strncmp` compares what stands before the NULs. -/
theorem strncmp_eq_zero_iff :
    strncmp n p q = 0 ↔ (p.take n).takeWhile (· ≠ 0) = (q.take n).takeWhile (· ≠ 0) := by
  induction n generalizing p q with
  | zero => simp [strncmp]
  | succ n ih =>
    have hpos : ∀ c : UInt8, c ≠ 0 → c.toNat ≠ 0 := fun c hc h0 => hc (UInt8.toNat_inj.mp h0)
    cases p with
    | nil =>
      cases q with
      | nil => simp [strncmp]
      | cons b q =>
        by_cases hb : b = 0
        · simp [strncmp, hb]
        · simp [strncmp, hb, hpos b hb]
    | cons a p =>
      cases q with
      | nil =>
        by_cases ha : a = 0
        · simp [strncmp, ha]
        · simp [strncmp, ha, hpos a ha]
      | cons b q =>
        by_cases ha : a = 0
        · by_cases hb : b = 0
          · simp [strncmp, ha, hb]
          · simp [strncmp, ha, hb, hpos b hb]
        by_cases hab : a = b
        · subst hab
          simpa [strncmp, ha] using ih
        · have hne : a.toNat ≠ b.toNat := fun he => hab (UInt8.toNat_inj.mp he)
          have hsub : (a.toNat : ℤ) - b.toNat ≠ 0 := by omega
          by_cases hb : b = 0
          · simp [strncmp, ha, hb, hpos a ha]
          · simp [strncmp, ha, hb, hab, hsub]

theorem namecmp_eq_zero : namecmp p q = 0 ↔ key p = key q := strncmp_eq_zero_iff

/-- `strncpy` copies what stands before the NUL and fills up with NULs. -/
theorem strncpy_eq_append : strncpy n t = (t.take n).takeWhile (· ≠ 0) ++
    List.replicate (n - ((t.take n).takeWhile (· ≠ 0)).length) 0 := by
  induction n generalizing t with
  | zero => simp [strncpy]
  | succ n ih =>
    cases t with
    | nil => simp [strncpy]
    | cons c t =>
      by_cases hc : c = 0
      · simp [strncpy, hc]
      · simp [strncpy, hc, ih]

theorem strncpy_eq : strncpy DIRSIZ t = key t ++ List.replicate (DIRSIZ - (key t).length) 0 :=
  strncpy_eq_append

theorem length_key_le (b : List UInt8) : (key b).length ≤ DIRSIZ :=
  (List.takeWhile_sublist _).length_le.trans (List.length_take_le _ _)

theorem zero_notMem_key (b : List UInt8) : 0 ∉ key b := fun h => by
  have hne := List.mem_takeWhile_imp h
  simp at hne

@[simp] theorem length_strncpy (t : List UInt8) : (strncpy DIRSIZ t).length = DIRSIZ := by
  rw [strncpy_eq, List.length_append, List.length_replicate]
  have hle := length_key_le t
  omega

theorem key_of_notMem (h : 0 ∉ p) (hlen : p.length ≤ DIRSIZ) : key p = p := by
  rw [key, List.take_of_length_le hlen, List.takeWhile_eq_self_iff]
  intro c hc
  rw [decide_eq_true_eq]
  exact fun h0 => h (h0 ▸ hc)

/-- What follows the NUL does not count. -/
theorem key_append_zero (h : 0 ∉ p) (hlen : p.length ≤ DIRSIZ) : key (p ++ 0 :: q) = p := by
  have hall : ∀ c ∈ p, decide (c ≠ 0) = true := fun c hc => by
    rw [decide_eq_true_eq]
    exact fun h0 => h (h0 ▸ hc)
  by_cases hlt : p.length < DIRSIZ
  · obtain ⟨k, hk⟩ := Nat.exists_eq_add_of_lt hlt
    rw [key, hk, Nat.add_assoc, List.take_length_add_append, List.take_succ_cons,
      List.takeWhile_append_of_pos hall]
    simp
  · rw [key, List.take_left' (by omega), List.takeWhile_eq_self_iff.mpr hall]

theorem key_pad (h : 0 ∉ p) (hlen : p.length ≤ DIRSIZ) :
    key (p ++ List.replicate (DIRSIZ - p.length) 0) = p := by
  cases DIRSIZ - p.length with
  | zero => rw [List.replicate_zero, List.append_nil, key_of_notMem h hlen]
  | succ k => rw [List.replicate_succ, key_append_zero h hlen]

theorem key_strncpy (t : List UInt8) : key (strncpy DIRSIZ t) = key t := by
  rw [strncpy_eq, key_pad (zero_notMem_key t) (length_key_le t)]

/-- A buffer that begins with `DIRSIZ` bytes. -/
theorem key_append (h : 0 ∉ p) (hlen : p.length = DIRSIZ) : key (p ++ q) = p := by
  rw [key, List.take_left' hlen]
  have hself := key_of_notMem h hlen.le
  rwa [key, List.take_of_length_le hlen.le] at hself

theorem key_copyElem (h : 0 ∉ p) : key (copyElem (p ++ q) p.length t) = p.take DIRSIZ := by
  rw [copyElem]
  split
  · next hle =>
    rw [List.take_append_of_le_length hle]
    exact key_append (fun hmem => h (List.mem_of_mem_take hmem)) (List.length_take_of_le hle)
  · next hlt =>
    rw [List.take_left, List.take_of_length_le (Nat.le_of_not_le hlt)]
    exact key_append_zero h (Nat.le_of_not_le hlt)

end Strings

/-! ### The elements of a path -/

/-- The elements of a path: what stands between the slashes, where something does. -/
def components (path : List UInt8) : List (List UInt8) :=
  (path.splitOnP (· = 47)).filter (· ≠ [])

section Components

variable {e path path' name name' : List UInt8}

theorem components_append (path path' : List UInt8) :
    components (path ++ 47 :: path') = components path ++ components path' := by
  rw [components, List.splitOnP_append_cons _ _ (by simp), List.filter_append]
  rfl

@[simp] theorem components_nil : components [] = [] := rfl

@[simp] theorem components_cons_slash (path : List UInt8) :
    components (47 :: path) = components path := components_append [] path

theorem components_single (he : e ≠ []) (hslash : 47 ∉ e) : components e = [e] := by
  rw [components, List.splitOnP_eq_singleton fun c hc => ?_]
  · simp [he]
  · rw [decide_eq_false_iff_not]
    exact fun h => hslash (h ▸ hc)

theorem components_dropWhile (path : List UInt8) :
    components (path.dropWhile (· = 47)) = components path := by
  induction path with
  | nil => rfl
  | cons c path ih =>
    by_cases hc : c = 47
    · simp [hc, ih]
    · simp [hc]

/-- Behind the leading slashes there is nothing, or an element that ends at a slash or at the
end of the path. -/
theorem components_cases (path : List UInt8) :
    path.dropWhile (· = 47) = [] ∧ components path = [] ∨
    ∃ e r, path.dropWhile (· = 47) = e ++ r ∧ e ≠ [] ∧ 47 ∉ e ∧ (r = [] ∨ ∃ r', r = 47 :: r') ∧
      components path = e :: components (r.dropWhile (· = 47)) := by
  rw [← components_dropWhile path]
  by_cases h : path.dropWhile (· = 47) = []
  · exact .inl ⟨h, by rw [h, components_nil]⟩
  have hhead := List.head_dropWhile_not (p := (· = 47)) (l := path) h
  generalize path.dropWhile (· = 47) = p at *
  have hne : p.takeWhile (· ≠ 47) ≠ [] := by
    intro hnil
    cases p with
    | nil => exact h rfl
    | cons c p =>
      have hc : c ≠ 47 := of_decide_eq_false hhead
      rw [List.takeWhile_cons_of_pos (by simpa using hc)] at hnil
      cases hnil
  have hslash : 47 ∉ p.takeWhile (· ≠ 47) := by
    intro hmem
    have hne := List.mem_takeWhile_imp hmem
    simp at hne
  have hr : p.dropWhile (· ≠ 47) = [] ∨ ∃ r', p.dropWhile (· ≠ 47) = 47 :: r' := by
    cases hr : p.dropWhile (· ≠ 47) with
    | nil => exact .inl rfl
    | cons c r =>
      have hne : p.dropWhile (· ≠ 47) ≠ [] := hr ▸ List.cons_ne_nil c r
      have hc := List.head_dropWhile_not (p := (· ≠ 47)) (l := p) hne
      simp only [hr, List.head_cons] at hc
      exact .inr ⟨r, by simpa using hc⟩
  have hp : p = p.takeWhile (· ≠ 47) ++ p.dropWhile (· ≠ 47) :=
    List.takeWhile_append_dropWhile.symm
  generalize p.takeWhile (· ≠ 47) = e at *
  generalize p.dropWhile (· ≠ 47) = r at *
  subst hp
  refine .inr ⟨e, r, rfl, hne, hslash, hr, ?_⟩
  rw [components_dropWhile]
  rcases hr with rfl | ⟨r', rfl⟩
  · rw [List.append_nil, components_single hne hslash, components_nil]
  · rw [components_append, components_single hne hslash, components_cons_slash]
    rfl

/-- The rest of a path begins with an element, if it has one. -/
theorem components_eq_nil_iff (path : List UInt8) :
    components (path.dropWhile (· = 47)) = [] ↔ path.dropWhile (· = 47) = [] := by
  rw [components_dropWhile]
  rcases components_cases path with ⟨hnil, hcomp⟩ | ⟨e, r, he, hne, -, -, hcomp⟩
  · simp [hnil, hcomp]
  · simp [he, hne, hcomp]

/-- `skipelem` returns 0 if the path has no element. Otherwise the buffer gets the first one,
cut to `DIRSIZ` bytes, and the rest of the path has the others. -/
theorem skipelem_cases (hpath : 0 ∉ path) (name : List UInt8) :
    (components path = [] ∧ skipelem path name = none) ∨
    ∃ e rest name', components path = e :: components rest ∧
      skipelem path name = some (rest, name') ∧ key name' = e.take DIRSIZ ∧
      (rest = [] ↔ components rest = []) ∧ rest.length < path.length ∧ 0 ∉ rest := by
  have hsub := (List.dropWhile_sublist (l := path) (· = 47))
  have hlen := hsub.length_le
  have h0 : 0 ∉ path.dropWhile (· = 47) := fun h => hpath (hsub.subset h)
  rw [skipelem]
  rcases components_cases path with ⟨hnil, hcomp⟩ | ⟨e, r, he, hne, hslash, hr, hcomp⟩
  · refine .inl ⟨hcomp, ?_⟩
    simp only [hnil, List.headD_nil, if_true]
  · rw [he] at h0 hlen
    rw [List.mem_append, not_or] at h0
    obtain ⟨c, e', rfl⟩ := List.exists_cons_of_ne_nil hne
    have hhead : ((c :: e') ++ r).headD 0 ≠ 0 := fun h => h0.1 (h ▸ List.mem_cons_self)
    -- the second loop of `skipelem` stops at the slash, or at the NUL
    have hdrop : ((c :: e') ++ r).dropWhile (fun c => c ≠ 47 ∧ c ≠ 0) = r := by
      rw [List.dropWhile_append_of_pos fun x hx => ?_]
      · rcases hr with rfl | ⟨r', rfl⟩
        · rfl
        · rw [List.dropWhile_cons_of_neg (by simp)]
      · rw [decide_eq_true_eq]
        exact ⟨fun h => hslash (h ▸ hx), fun h => h0.1 (h ▸ hx)⟩
    generalize c :: e' = e at *
    have hrest := (List.dropWhile_sublist (l := r) (· = 47))
    refine .inr ⟨e, r.dropWhile (· = 47), copyElem (e ++ r) e.length name, hcomp, ?_,
      key_copyElem h0.1, (components_eq_nil_iff r).symm, ?_, fun h => h0.2 (hrest.subset h)⟩
    · simp only [he, if_neg hhead, hdrop, List.length_append, Nat.add_sub_cancel]
    · have hpos := List.length_pos_iff.mpr hne
      have hle := hrest.length_le
      rw [List.length_append] at hlen
      omega

end Components

end Xv6.Data
