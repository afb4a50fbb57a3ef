import Mathlib.Algebra.BigOperators.Group.Finset.Basic
import Mathlib.Algebra.Order.BigOperators.Group.Finset
import Xv6.Fs.Inode
import Xv6.Lib.Sum

/-!
# Directories and link counts

What the dinodes of a consistent image look like. A directory is *live* if it has
a link; the entries of live directories other than "." are what `nlink` counts.
While a call is under way a count may be ahead of the entries: `pend i` is the
number of entries of `i` that the call still owes.
-/

namespace Xv6.Fs

open Finset Function

/-- A directory whose `nlink` is at least 1. -/
def Dinode.Live (d : Dinode) : Prop := d.type = .dir ∧ 1 ≤ d.nlink

instance (d : Dinode) : Decidable d.Live := inferInstanceAs (Decidable (_ ∧ _))

/-- The inode that ".." names, in a directory whose second entry is "..". -/
def Dinode.up (d : Dinode) : ℕ := (d.entries.getD 1 .empty).inum

/-- The inodes differ at most in fields that do not matter here. -/
def Dinode.Alike (d d' : Dinode) : Prop :=
  d'.type = d.type ∧ d'.nlink = d.nlink ∧ d'.entries = d.entries

theorem Dinode.Alike.live {d d' : Dinode} (h : d.Alike d') : d'.Live ↔ d.Live := by
  rw [Dinode.Live, h.1, h.2.1, Dinode.Live]

theorem Dinode.Alike.up {d d' : Dinode} (h : d.Alike d') : d'.up = d.up := by
  rw [Dinode.up, h.2.2, Dinode.up]

/-- The entries of a live directory with the property `q`. -/
def Dinode.count (d : Dinode) (q : Dirent → Bool) : ℕ := if d.Live then d.entries.countP q else 0

/-- The entries of live directories with the property `q`. -/
def total (dn : ℕ → Dinode) (n : ℕ) (q : Dirent → Bool) : ℕ := ∑ d ∈ range n, (dn d).count q

/-- The entry names inode `i`, and is not "." or "..". -/
def Dirent.names (i : ℕ) (e : Dirent) : Bool := e.inum = i ∧ e.name ≠ dot ∧ e.name ≠ dotdot

/-- The entry is ".." and names inode `i`. -/
def Dirent.ups (i : ℕ) (e : Dirent) : Bool := e.inum = i ∧ e.name = dotdot

/-- The entries other than "." that name inode `i`. -/
def links (dn : ℕ → Dinode) (n i : ℕ) : ℕ := total dn n fun e => e.inum = i ∧ e.name ≠ dot

theorem dot_ne_dotdot : dot ≠ dotdot := by decide

@[simp] theorem Dirent.names_iff {i : ℕ} {e : Dirent} :
    e.names i = true ↔ e.inum = i ∧ e.name ≠ dot ∧ e.name ≠ dotdot := by
  simp [Dirent.names]

@[simp] theorem Dirent.ups_iff {i : ℕ} {e : Dirent} :
    e.ups i = true ↔ e.inum = i ∧ e.name = dotdot := by
  simp [Dirent.ups]

/-- An entry that counts is a name or a "..". -/
theorem links_eq (dn : ℕ → Dinode) (n i : ℕ) :
    links dn n i = total dn n (Dirent.names i) + total dn n (Dirent.ups i) := by
  unfold links total
  rw [← Finset.sum_add_distrib]
  refine Finset.sum_congr rfl fun d _ => ?_
  unfold Dinode.count
  split_ifs
  · induction (dn d).entries with
    | nil => rfl
    | cons e es ih =>
      simp only [List.countP_cons, ih, Dirent.names_iff, Dirent.ups_iff, decide_eq_true_eq]
      by_cases hi : e.inum = i
      · by_cases h1 : e.name = dot
        · simp [h1, dot_ne_dotdot]
        · by_cases h2 : e.name = dotdot
          · simp [hi, h2, dot_ne_dotdot.symm]
            omega
          · simp [hi, h1, h2]
            omega
      · simp [hi]
  · rfl

/-- The entries in use have names of their own, not "." or "..". -/
def Plain (es : List Dirent) : Prop :=
  ∀ e ∈ es, e.inum ≠ 0 → e.name ≠ dot ∧ e.name ≠ dotdot

/-- The entries of directory `d`, which calls `up` "..". -/
def Shape (d up : ℕ) (es : List Dirent) : Prop :=
  ∃ rest, es = ⟨d, dot⟩ :: ⟨up, dotdot⟩ :: rest ∧ Plain rest

/-- The directories are consistent, with `pend i` entries of `i` still to be written. -/
structure Tree (dn : ℕ → Dinode) (n : ℕ) (pend : ℕ → ℕ) : Prop where
  inums : n ≤ 65536
  bound : ∀ i, (dn i).type ≠ .free → 0 < i ∧ i < n
  root : (dn ROOTINO).Live ∧ (dn ROOTINO).up = ROOTINO
  shape : ∀ d, (dn d).type = .dir → Shape d (dn d).up (dn d).entries
  up : ∀ d, (dn d).Live → (dn (dn d).up).Live
  /-- Entries name inodes in use, and directories in the directory they call "..". -/
  child : ∀ d, (dn d).Live → ∀ e ∈ (dn d).entries, e.inum ≠ 0 → e.name ≠ dot → e.name ≠ dotdot →
    (dn e.inum).type ≠ .free ∧ ((dn e.inum).type = .dir → (dn e.inum).up = d)
  nlink : ∀ i, (dn i).type ≠ .free →
    (dn i).nlink = total dn n (Dirent.names i) + total dn n (Dirent.ups i) + pend i
  /-- A directory has one name, and the root none. -/
  once : ∀ d, (dn d).Live → total dn n (Dirent.names d) + pend d = if d = ROOTINO then 0 else 1
  /-- A directory without links is empty. -/
  dead : ∀ d, (dn d).type = .dir → ¬ (dn d).Live → ∀ e ∈ (dn d).entries, e.inum ≠ 0 →
    e.name = dot ∨ e.name = dotdot

/-! ### Counting -/

section Counting

variable {dn : ℕ → Dinode} {n i : ℕ} {v : Dinode} {q : Dirent → Bool}

/-- One inode changes: the counts change by what its own entries count for. -/
theorem total_update (dn : ℕ → Dinode) {a : ℕ} (ha : a < n) (v : Dinode) (q : Dirent → Bool) :
    total (update dn a v) n q + (dn a).count q = total dn n q + v.count q :=
  Finset.sum_update_add_self (mem_range.mpr ha) v (·.count q)

theorem total_update_of_eq {a : ℕ} (h : v.count q = (dn a).count q) :
    total (update dn a v) n q = total dn n q :=
  Finset.sum_update_of_eq (f := fun d : Dinode => d.count q) h

theorem count_le_total (dn : ℕ → Dinode) {d : ℕ} (hd : d < n) (q : Dirent → Bool) :
    (dn d).count q ≤ total dn n q :=
  Finset.single_le_sum (f := fun d => (dn d).count q) (fun _ _ => Nat.zero_le _)
    (mem_range.mpr hd)

theorem count_of_not_live (h : ¬ v.Live) : v.count q = 0 := if_neg h

theorem exists_of_total_pos (h : 0 < total dn n q) :
    ∃ d, (dn d).Live ∧ ∃ e ∈ (dn d).entries, q e = true := by
  obtain ⟨d, -, hd⟩ := Finset.exists_ne_zero_of_sum_ne_zero h.ne'
  by_cases hl : (dn d).Live
  · rw [Dinode.count, if_pos hl] at hd
    exact ⟨d, hl, List.countP_pos_iff.mp (Nat.pos_of_ne_zero hd)⟩
  · exact absurd (count_of_not_live hl) hd

/-- The entries of a live directory after the first two are names. -/
theorem count_names {d up : ℕ} (hl : v.Live) (hs : Shape d up v.entries) (hi : i ≠ 0) :
    v.count (Dirent.names i) = (v.entries.drop 2).countP (·.inum = i) := by
  obtain ⟨rest, hes, hplain⟩ := hs
  have hrest : rest.countP (Dirent.names i) = rest.countP (·.inum = i) := by
    refine List.countP_congr fun e he => ?_
    rw [Dirent.names_iff, decide_eq_true_eq]
    exact ⟨fun h => h.1, fun h => ⟨h, hplain e he (h ▸ hi)⟩⟩
  rw [Dinode.count, if_pos hl, hes]
  simp [hrest, Dirent.names]

/-- A live directory counts for the directory above it. -/
theorem count_ups {d up : ℕ} (hl : v.Live) (hs : Shape d up v.entries) (hi : i ≠ 0) :
    v.count (Dirent.ups i) = if up = i then 1 else 0 := by
  obtain ⟨rest, hes, hplain⟩ := hs
  have hrest : rest.countP (Dirent.ups i) = 0 := by
    refine List.countP_eq_zero.mpr fun e he h => ?_
    obtain ⟨rfl, hdd⟩ := Dirent.ups_iff.mp h
    exact (hplain e he hi).2 hdd
  rw [Dinode.count, if_pos hl, hes]
  simp [List.countP_cons, hrest, Dirent.ups, dot_ne_dotdot]

theorem Shape.up_eq {d up : ℕ} (hs : Shape d up v.entries) : v.up = up := by
  obtain ⟨rest, hes, -⟩ := hs
  simp [Dinode.up, hes]

end Counting

/-! ### Slots -/

section Slots

variable {name : Name} {de : Dirent} {es es' : List Dirent} {k k' c : ℕ}

/-- The entry goes into the first empty slot. -/
def insertEntry (de : Dirent) : List Dirent → List Dirent
  | [] => [de]
  | e :: es => if e.inum = 0 then de :: es else e :: insertEntry de es

theorem insertEntry_eq (de : Dirent) (es : List Dirent) : insertEntry de es =
    if emptySlot es = es.length then es ++ [de] else es.set (emptySlot es) de := by
  induction es with
  | nil => rfl
  | cons e es ih =>
    by_cases he : e.inum = 0
    · simp [insertEntry, emptySlot, he]
    · simp only [insertEntry, emptySlot, he, if_false, ih, List.length_cons,
        Nat.add_right_cancel_iff]
      split_ifs <;> rfl

theorem eq_insertEntry (h : putEntry es (emptySlot es) de = some es') :
    es' = insertEntry de es := by
  unfold putEntry at h
  rw [insertEntry_eq]
  split_ifs at h ⊢
  · exact (Option.some.inj h).symm
  · exact (Option.some.inj h).symm

theorem mem_insertEntry {e : Dirent} (h : e ∈ insertEntry de es) : e ∈ es ∨ e = de := by
  induction es with
  | nil => exact Or.inr (List.mem_singleton.mp h)
  | cons x es ih =>
    unfold insertEntry at h
    split_ifs at h
    · exact (List.mem_cons.mp h).symm.imp (List.mem_cons_of_mem x) id
    · rcases List.mem_cons.mp h with rfl | h
      · exact Or.inl List.mem_cons_self
      · exact (ih h).imp (List.mem_cons_of_mem x) id

theorem countP_insertEntry {q : Dirent → Bool} (hq : ∀ e, e.inum = 0 → q e = false) :
    (insertEntry de es).countP q = es.countP q + if q de then 1 else 0 := by
  induction es with
  | nil => simp [insertEntry, List.countP_cons]
  | cons x es ih =>
    by_cases hx : x.inum = 0
    · rw [insertEntry, if_pos hx]
      simp [List.countP_cons, hq x hx]
    · rw [insertEntry, if_neg hx, List.countP_cons, List.countP_cons, ih]
      omega

/-- What `dirlookup` finds is in the slot it reports. -/
theorem lookupFrom_some (h : lookupFrom name k es = some (k', c)) :
    ∃ j, k' = k + j ∧ es[j]? = some ⟨c, name⟩ ∧ c ≠ 0 := by
  induction es generalizing k with
  | nil => simp [lookupFrom] at h
  | cons e es ih =>
    unfold lookupFrom at h
    split_ifs at h with he
    · obtain ⟨rfl, rfl⟩ := Prod.mk.inj (Option.some.inj h)
      exact ⟨0, rfl, by rw [← he.2]; rfl, he.1⟩
    · obtain ⟨j, rfl, hj, hc⟩ := ih h
      exact ⟨j + 1, by omega, by simpa using hj, hc⟩

theorem lookupFrom_none (h : lookupFrom name k es = none) {e : Dirent} (he : e ∈ es)
    (h0 : e.inum ≠ 0) : e.name ≠ name := by
  induction es generalizing k with
  | nil => simp at he
  | cons x es ih =>
    unfold lookupFrom at h
    split_ifs at h with hx
    rcases List.mem_cons.mp he with rfl | he
    · exact fun hn => hx ⟨h0, hn⟩
    · exact ih h he

theorem Dinode.lookup_some {d : Dinode} (h : d.lookup name = some (k, c)) :
    d.entries[k]? = some ⟨c, name⟩ ∧ c ≠ 0 := by
  obtain ⟨j, rfl, hj, hc⟩ := lookupFrom_some h
  exact ⟨by simpa using hj, hc⟩

end Slots

namespace Tree

variable {dn : ℕ → Dinode} {n i d : ℕ} {pend pend' : ℕ → ℕ} {name : Name} {v : Dinode}
  {es : List Dirent}

theorem not_free_of_live {d : Dinode} (h : d.Live) : d.type ≠ .free := by
  rw [h.1]
  decide

section

variable (ht : Tree dn n pend)
include ht

theorem lt_of_live (hd : (dn d).Live) : d < n :=
  (ht.bound d (not_free_of_live hd)).2

theorem ne_zero_of_live (hd : (dn d).Live) : d ≠ 0 :=
  (ht.bound d (not_free_of_live hd)).1.ne'

theorem nlink_nonneg (hi : (dn i).type ≠ .free) : 0 ≤ (dn i).nlink := by
  rw [ht.nlink i hi]
  omega

theorem nlink_eq_zero (hd : (dn d).type = .dir) (hl : ¬ (dn d).Live) : (dn d).nlink = 0 := by
  have h0 := ht.nlink_nonneg (i := d) (by rw [hd]; decide)
  have h1 : ¬ 1 ≤ (dn d).nlink := fun h => hl ⟨hd, h⟩
  omega

theorem names_pos (hd : (dn d).Live) {e : Dirent} (he : e ∈ (dn d).entries) (h1 : e.name ≠ dot)
    (h2 : e.name ≠ dotdot) : 0 < total dn n (Dirent.names e.inum) := by
  refine lt_of_lt_of_le ?_ (count_le_total dn (ht.lt_of_live hd) _)
  rw [Dinode.count, if_pos hd]
  exact List.countP_pos_iff.mpr ⟨e, he, by simp [h1, h2]⟩

theorem exists_of_ups_pos (h0 : i ≠ 0) (h : 0 < total dn n (Dirent.ups i)) :
    ∃ d, (dn d).Live ∧ (dn d).up = i := by
  obtain ⟨d, -, hd⟩ := Finset.exists_ne_zero_of_sum_ne_zero h.ne'
  by_cases hl : (dn d).Live
  · rw [count_ups hl (ht.shape d hl.1) h0] at hd
    exact ⟨d, hl, by simpa using hd⟩
  · exact absurd (count_of_not_live hl) hd

/-- No counted entry names a free inode. -/
theorem names_of_free (h0 : i ≠ 0) (hi : (dn i).type = .free) :
    total dn n (Dirent.names i) = 0 := by
  by_contra hne
  obtain ⟨d, hd, e, he, hq⟩ := exists_of_total_pos (Nat.pos_of_ne_zero hne)
  obtain ⟨rfl, h1, h2⟩ := Dirent.names_iff.mp hq
  exact (ht.child d hd e he h0 h1 h2).1 hi

theorem ups_of_not_live (h0 : i ≠ 0) (hi : ¬ (dn i).Live) : total dn n (Dirent.ups i) = 0 := by
  by_contra hne
  obtain ⟨d, hd, rfl⟩ := ht.exists_of_ups_pos h0 (Nat.pos_of_ne_zero hne)
  exact hi (ht.up d hd)

/-- What an entry of a live directory names has a link. -/
theorem nlink_pos (hd : (dn d).Live) {e : Dirent} (he : e ∈ (dn d).entries) (h0 : e.inum ≠ 0)
    (h1 : e.name ≠ dot) (h2 : e.name ≠ dotdot) : 1 ≤ (dn e.inum).nlink := by
  have hpos := ht.names_pos hd he h1 h2
  rw [ht.nlink _ (ht.child d hd e he h0 h1 h2).1]
  omega

/-! ### Changes -/

/-- The entries after "." and ".." of a live directory change. -/
theorem edit (hd : (dn d).Live) (hs : Shape d (dn d).up es) (hchild : ∀ e ∈ es.drop 2, e.inum ≠ 0 →
      (dn e.inum).type ≠ .free ∧ ((dn e.inum).type = .dir → (dn e.inum).up = d))
    (hcount : ∀ i ≠ 0, (es.drop 2).countP (·.inum = i) + pend' i =
      ((dn d).entries.drop 2).countP (·.inum = i) + pend i) :
    Tree (update dn d { dn d with entries := es }) n pend' ∧
      Dinode.up { dn d with entries := es } = (dn d).up := by
  set v : Dinode := { dn d with entries := es }
  have hvup : v.up = (dn d).up := Shape.up_eq (v := v) hs
  have hvlive : v.Live := hd
  have htype : ∀ x, (update dn d v x).type = (dn x).type := fun x => by
    by_cases hx : x = d
    · rw [hx, update_self]
    · rw [update_of_ne hx]
  have hlink : ∀ x, (update dn d v x).nlink = (dn x).nlink := fun x => by
    by_cases hx : x = d
    · rw [hx, update_self]
    · rw [update_of_ne hx]
  have hup : ∀ x, (update dn d v x).up = (dn x).up := fun x => by
    by_cases hx : x = d
    · rw [hx, update_self, hvup]
    · rw [update_of_ne hx]
  have hlive : ∀ x, (update dn d v x).Live ↔ (dn x).Live := fun x => by
    unfold Dinode.Live
    rw [htype, hlink]
  have hups : ∀ i ≠ 0, total (update dn d v) n (Dirent.ups i) = total dn n (Dirent.ups i) :=
    fun i hi => total_update_of_eq (by
      rw [count_ups hd (ht.shape d hd.1) hi, count_ups hvlive hs hi])
  have hnames : ∀ i ≠ 0, total (update dn d v) n (Dirent.names i) + pend' i =
      total dn n (Dirent.names i) + pend i := fun i hi => by
    have htot := total_update dn (ht.lt_of_live hd) v (Dirent.names i)
    rw [count_names hd (ht.shape d hd.1) hi, count_names hvlive hs hi] at htot
    have := hcount i hi
    change total (update dn d v) n _ + _ = total dn n _ + (es.drop 2).countP _ at htot
    omega
  refine ⟨?_, hvup⟩
  constructor
  · exact ht.inums
  · intro i hi
    exact ht.bound i (htype i ▸ hi)
  · rw [hlive, hup]
    exact ht.root
  · intro x hx
    rw [hup]
    by_cases hxd : x = d
    · rw [hxd, update_self]
      exact hs
    · rw [update_of_ne hxd]
      exact ht.shape x (htype x ▸ hx)
  · intro x hx
    rw [hlive, hup]
    exact ht.up x ((hlive x).mp hx)
  · intro x hx e he h0 h1 h2
    rw [htype, hup]
    by_cases hxd : x = d
    · subst hxd
      rw [update_self] at he
      refine hchild e ?_ h0
      obtain ⟨rest, hes, -⟩ := hs
      change e ∈ es at he
      rw [hes] at he ⊢
      simp only [List.mem_cons] at he
      obtain rfl | rfl | he := he
      · exact absurd rfl h1
      · exact absurd rfl h2
      · exact he
    · rw [update_of_ne hxd] at he
      exact ht.child x ((hlive x).mp hx) e he h0 h1 h2
  · intro i hi
    rw [htype] at hi
    have h0 := (ht.bound i hi).1.ne'
    rw [hlink, ht.nlink i hi, hups i h0]
    have := hnames i h0
    omega
  · intro x hx
    have hx' := (hlive x).mp hx
    rw [hnames x (ht.ne_zero_of_live hx'), ht.once x hx']
  · intro x hx hdead e he h0
    rw [hlive] at hdead
    have hxd : x ≠ d := fun h => hdead (h ▸ hd)
    rw [update_of_ne hxd] at he
    exact ht.dead x (htype x ▸ hx) hdead e he h0

/-- A name that is not in a live directory is not "." or "..". -/
theorem name_ne_dots (hd : (dn d).Live) (hk : (dn d).lookup name = none) :
    name ≠ dot ∧ name ≠ dotdot := by
  obtain ⟨rest, hes, -⟩ := ht.shape d hd.1
  have h1 := lookupFrom_none hk (e := ⟨d, dot⟩) (by rw [hes]; simp) (ht.ne_zero_of_live hd)
  have h2 := lookupFrom_none hk (e := ⟨(dn d).up, dotdot⟩) (by rw [hes]; simp)
    (ht.ne_zero_of_live (ht.up d hd))
  exact ⟨h1.symm, h2.symm⟩

/-- A directory with an entry other than "." and ".." is live. -/
theorem live_of_lookup {k c : ℕ} (hd : (dn d).type = .dir) (hk : (dn d).lookup name = some (k, c))
    (h1 : name ≠ dot) (h2 : name ≠ dotdot) : (dn d).Live := by
  by_contra hl
  obtain ⟨hget, hc⟩ := Dinode.lookup_some hk
  exact (ht.dead d hd hl _ (List.mem_of_getElem? hget) hc).elim h1 h2

/-- An inode that is not a live directory becomes one that is not a directory. -/
theorem put (hold : ¬ (dn i).Live) (hdir : v.type ≠ .dir) (hi : 0 < i ∧ i < n)
    (hfree : v.type = .free → total dn n (Dirent.names i) = 0)
    (hlink : v.type ≠ .free → v.nlink = total dn n (Dirent.names i) + total dn n (Dirent.ups i) +
      pend' i)
    (hpend : ∀ x ≠ i, pend' x = pend x) : Tree (update dn i v) n pend' := by
  have hv : ¬ v.Live := fun h => hdir h.1
  have htot : ∀ q, total (update dn i v) n q = total dn n q := fun q =>
    total_update_of_eq (by rw [count_of_not_live hv, count_of_not_live hold])
  have hne : ∀ x, (dn x).Live → x ≠ i := fun x hx h => hold (h ▸ hx)
  have hlive : ∀ x, (update dn i v x).Live → (dn x).Live ∧ x ≠ i := fun x hx => by
    by_cases hxi : x = i
    · rw [hxi, update_self] at hx
      exact absurd hx hv
    · rw [update_of_ne hxi] at hx
      exact ⟨hx, hxi⟩
  constructor
  · exact ht.inums
  · intro x hx
    by_cases hxi : x = i
    · exact hxi ▸ hi
    · rw [update_of_ne hxi] at hx
      exact ht.bound x hx
  · rw [update_of_ne (hne _ ht.root.1)]
    exact ht.root
  · intro x hx
    by_cases hxi : x = i
    · rw [hxi, update_self] at hx
      exact absurd hx hdir
    · rw [update_of_ne hxi] at hx ⊢
      exact ht.shape x hx
  · intro x hx
    obtain ⟨hl, hxi⟩ := hlive x hx
    rw [update_of_ne hxi, update_of_ne (hne _ (ht.up x hl))]
    exact ht.up x hl
  · intro x hx e he h0 h1 h2
    obtain ⟨hl, hxi⟩ := hlive x hx
    rw [update_of_ne hxi] at he
    by_cases hei : e.inum = i
    · rw [hei, update_self]
      refine ⟨fun hf => ?_, fun hd => absurd hd hdir⟩
      have := ht.names_pos hl he h1 h2
      rw [hei, hfree hf] at this
      omega
    · rw [update_of_ne hei]
      exact ht.child x hl e he h0 h1 h2
  · intro x hx
    rw [htot, htot]
    by_cases hxi : x = i
    · rw [hxi, update_self] at hx ⊢
      exact hlink hx
    · rw [update_of_ne hxi] at hx ⊢
      rw [hpend x hxi]
      exact ht.nlink x hx
  · intro x hx
    obtain ⟨hl, hxi⟩ := hlive x hx
    rw [htot, hpend x hxi]
    exact ht.once x hl
  · intro x hx hdead e he h0
    by_cases hxi : x = i
    · rw [hxi, update_self] at hx
      exact absurd hx hdir
    · rw [update_of_ne hxi] at hx hdead he
      exact ht.dead x hx hdead e he h0

/-- The link count of an inode other than a directory changes with the entries owed. -/
theorem relink {k : ℤ} (hfree : (dn i).type ≠ .free) (hdir : (dn i).type ≠ .dir)
    (hk : k + pend i = (dn i).nlink + pend' i) (hpend : ∀ x ≠ i, pend' x = pend x) :
    Tree (update dn i { dn i with nlink := k }) n pend' :=
  ht.put (fun h => hdir h.1) hdir (ht.bound i hfree) (fun h => absurd h hfree)
    (fun _ => by have := ht.nlink i hfree; simp only; omega) hpend

/-- A free inode becomes a file or device whose entry is still to be written. -/
theorem allocFile (hi : 0 < i ∧ i < n) (hold : (dn i).type = .free) (hfree : v.type ≠ .free)
    (hdir : v.type ≠ .dir) (hlink : v.nlink = 1) : Tree (update dn i v) n (update pend i 1) := by
  have hnl : ¬ (dn i).Live := fun h => not_free_of_live h hold
  refine ht.put hnl hdir hi (fun h => absurd h hfree) (fun _ => ?_) fun x hx => update_of_ne hx _ _
  rw [ht.names_of_free hi.1.ne' hold, ht.ups_of_not_live hi.1.ne' hnl, update_self, hlink]
  rfl

/-- An inode without links is freed. -/
theorem free (hold : (dn i).type ≠ .free) (hlink : (dn i).nlink = 0) (hv : v.type = .free) :
    Tree (update dn i v) n pend := by
  have hl : ¬ (dn i).Live := fun h => by have := h.2; omega
  have hn := ht.nlink i hold
  exact ht.put hl (by rw [hv]; decide) (ht.bound i hold) (fun _ => by omega)
    (fun h => absurd hv h) fun _ _ => rfl

/-- Only fields that do not matter here change. -/
theorem congr {dn' : ℕ → Dinode} (h : ∀ x, (dn x).Alike (dn' x)) : Tree dn' n pend := by
  have htype : ∀ x, (dn' x).type = (dn x).type := fun x => (h x).1
  have hes : ∀ x, (dn' x).entries = (dn x).entries := fun x => (h x).2.2
  have hlink : ∀ x, (dn' x).nlink = (dn x).nlink := fun x => (h x).2.1
  have hlive : ∀ x, (dn' x).Live ↔ (dn x).Live := fun x => (h x).live
  have hup : ∀ x, (dn' x).up = (dn x).up := fun x => (h x).up
  have htot : ∀ q, total dn' n q = total dn n q := fun q =>
    Finset.sum_congr rfl fun x _ => by simp only [Dinode.count, hlive, hes]
  constructor
  · exact ht.inums
  · simpa only [htype] using ht.bound
  · simpa only [hlive, hup] using ht.root
  · simpa only [htype, hup, hes] using ht.shape
  · simpa only [hlive, hup] using ht.up
  · simpa only [hlive, htype, hup, hes] using ht.child
  · simpa only [htype, hlink, htot] using ht.nlink
  · simpa only [hlive, htot] using ht.once
  · simpa only [htype, hlive, hes] using ht.dead

/-- An entry that was owed is written. -/
theorem insert (hd : (dn d).Live) (h1 : name ≠ dot) (h2 : name ≠ dotdot)
    (hfree : (dn i).type ≠ .free) (hdir : (dn i).type = .dir → (dn i).up = d)
    (hes : putEntry (dn d).entries (emptySlot (dn d).entries) ⟨i, name⟩ = some es)
    (hpend : pend' i + 1 = pend i) (hrest : ∀ x ≠ i, pend' x = pend x) :
    Tree (update dn d { dn d with entries := es }) n pend' ∧
      Dinode.up { dn d with entries := es } = (dn d).up := by
  obtain ⟨rest, hd', hplain⟩ := ht.shape d hd.1
  have hup : (dn d).up ≠ 0 := ht.ne_zero_of_live (ht.up d hd)
  have hes' : es = ⟨d, dot⟩ :: ⟨(dn d).up, dotdot⟩ :: insertEntry ⟨i, name⟩ rest := by
    rw [eq_insertEntry hes, hd']
    simp [insertEntry, ht.ne_zero_of_live hd, hup]
  have hdrop : es.drop 2 = insertEntry ⟨i, name⟩ rest := by rw [hes']; rfl
  refine ht.edit hd ⟨_, hes', fun e he h0 => ?_⟩ (fun e he h0 => ?_) fun x hx => ?_
  · rcases mem_insertEntry he with he | rfl
    · exact hplain e he h0
    · exact ⟨h1, h2⟩
  · rw [hdrop] at he
    rcases mem_insertEntry he with he | rfl
    · obtain ⟨hn1, hn2⟩ := hplain e he h0
      exact ht.child d hd e (by rw [hd']; simp [he]) h0 hn1 hn2
    · exact ⟨hfree, hdir⟩
  · rw [hdrop, hd', countP_insertEntry (by rintro e h0; simp [h0, hx.symm])]
    by_cases hxi : x = i
    · subst hxi
      simp
      omega
    · simp [hrest x hxi, Ne.symm hxi]

/-- The entry that a lookup found is cleared. -/
theorem erase {k c : ℕ} (hd : (dn d).Live) (h1 : name ≠ dot) (h2 : name ≠ dotdot)
    (hk : (dn d).lookup name = some (k, c)) (hes : putEntry (dn d).entries k .empty = some es)
    (hpend : pend' c = pend c + 1) (hrest : ∀ x ≠ c, pend' x = pend x) :
    Tree (update dn d { dn d with entries := es }) n pend' ∧
      Dinode.up { dn d with entries := es } = (dn d).up := by
  obtain ⟨rest, hd', hplain⟩ := ht.shape d hd.1
  obtain ⟨hget, hc⟩ := Dinode.lookup_some hk
  rw [hd'] at hget
  -- the slot is not one of the first two
  obtain ⟨j, rfl⟩ : ∃ j, k = j + 2 := by
    match k, hget with
    | 0, hget => simp at hget; exact absurd hget.2.symm h1
    | 1, hget => simp at hget; exact absurd hget.2.symm h2
    | j + 2, _ => exact ⟨j, rfl⟩
  simp only [List.getElem?_cons_succ] at hget
  obtain ⟨hj, hgetj⟩ := List.getElem?_eq_some_iff.mp hget
  have hes' : es = ⟨d, dot⟩ :: ⟨(dn d).up, dotdot⟩ :: rest.set j .empty := by
    unfold putEntry at hes
    rw [hd'] at hes
    have hlen : j + 2 ≠ rest.length + 1 + 1 := by omega
    simp only [List.length_cons, hlen, if_false, List.set_cons_succ] at hes
    split_ifs at hes
    exact (Option.some.inj hes).symm
  have hdrop : es.drop 2 = rest.set j .empty := by rw [hes']; rfl
  have hmem : ∀ e ∈ rest.set j .empty, e.inum ≠ 0 → e ∈ rest := fun e he h0 => by
    rcases List.mem_or_eq_of_mem_set he with he | rfl
    · exact he
    · exact absurd rfl h0
  refine ht.edit hd ⟨_, hes', fun e he h0 => hplain e (hmem e he h0) h0⟩ (fun e he h0 => ?_)
    fun x hx => ?_
  · rw [hdrop] at he
    have he' := hmem e he h0
    obtain ⟨hn1, hn2⟩ := hplain e he' h0
    exact ht.child d hd e (by rw [hd']; simp [he']) h0 hn1 hn2
  · rw [hdrop, hd', List.countP_set hj, hgetj]
    have hempty : decide ((Dirent.empty).inum = x) = false := decide_eq_false hx.symm
    rw [hempty]
    by_cases hxc : x = c
    · subst hxc
      have hpos : 0 < rest.countP (·.inum = x) :=
        List.countP_pos_iff.mpr ⟨_, List.mem_of_getElem? hget, by simp⟩
      simp only [decide_true, if_true, List.drop_succ_cons, List.drop_zero]
      simp
      omega
    · simp [hrest x hxc, Ne.symm hxc]

/-- A free inode becomes a directory in `dp` whose entry is still to be written. -/
theorem allocDir {dp : ℕ} (hi : 0 < i ∧ i < n) (hold : (dn i).type = .free) (hdp : (dn dp).Live)
    (htype : v.type = .dir) (hlink : v.nlink = 1) (hes : v.entries = [⟨i, dot⟩, ⟨dp, dotdot⟩]) :
    Tree (update (update dn dp { dn dp with nlink := (dn dp).nlink + 1 }) i v) n
      (update pend i 1) := by
  set w : Dinode := { dn dp with nlink := (dn dp).nlink + 1 }
  set dn' := update (update dn dp w) i v
  have h0 := hi.1.ne'
  have hnl : ¬ (dn i).Live := fun h => not_free_of_live h hold
  have hne : ∀ x, (dn x).Live → x ≠ i := fun x hx h => hnl (h ▸ hx)
  have hdpi : dp ≠ i := hne dp hdp
  have hvs : Shape i dp v.entries := ⟨[], hes, by simp [Plain]⟩
  have hvlive : v.Live := ⟨htype, hlink.ge⟩
  have hwlive : w.Live := ⟨hdp.1, by have := hdp.2; simp only [w]; omega⟩
  have hsame : ∀ x ≠ i, (dn' x).type = (dn x).type ∧ (dn' x).entries = (dn x).entries ∧
      (dn' x).up = (dn x).up ∧ ((dn' x).Live ↔ (dn x).Live) := fun x hx => by
    rw [show dn' x = update dn dp w x from update_of_ne hx _ _]
    by_cases hxd : x = dp
    · subst hxd
      rw [update_self]
      exact ⟨rfl, rfl, rfl, iff_of_true hwlive hdp⟩
    · rw [update_of_ne hxd]
      exact ⟨rfl, rfl, rfl, Iff.rfl⟩
  have hself : dn' i = v := update_self _ _ _
  have htot : ∀ q, total dn' n q = total dn n q + v.count q := fun q => by
    have hw : w.count q = (dn dp).count q := by
      rw [Dinode.count, Dinode.count, if_pos hwlive, if_pos hdp]
    have h1 := total_update (update dn dp w) hi.2 v q
    rw [update_of_ne hdpi.symm, count_of_not_live hnl, total_update_of_eq hw] at h1
    exact h1
  have hnames : ∀ j ≠ 0, total dn' n (Dirent.names j) = total dn n (Dirent.names j) :=
    fun j hj => by
      rw [htot, count_names hvlive hvs hj, hes]
      rfl
  have hups : ∀ j ≠ 0,
      total dn' n (Dirent.ups j) = total dn n (Dirent.ups j) + if dp = j then 1 else 0 :=
    fun j hj => by rw [htot, count_ups hvlive hvs hj]
  constructor
  · exact ht.inums
  · intro x hx
    by_cases hxi : x = i
    · exact hxi ▸ hi
    · rw [(hsame x hxi).1] at hx
      exact ht.bound x hx
  · obtain ⟨-, -, hu, hl⟩ := hsame _ (hne _ ht.root.1)
    rw [hu, hl]
    exact ht.root
  · intro x hx
    by_cases hxi : x = i
    · rw [hxi, hself, Shape.up_eq hvs]
      exact hvs
    · obtain ⟨hty, hen, hu, -⟩ := hsame x hxi
      rw [hu, hen]
      exact ht.shape x (hty ▸ hx)
  · intro x hx
    by_cases hxi : x = i
    · rw [hxi, hself, Shape.up_eq hvs]
      exact (hsame dp hdpi).2.2.2.mpr hdp
    · obtain ⟨-, -, hu, hl⟩ := hsame x hxi
      have hupl := ht.up x (hl.mp hx)
      rw [hu]
      exact (hsame _ (hne _ hupl)).2.2.2.mpr hupl
  · intro x hx e he he0 h1 h2
    by_cases hxi : x = i
    · rw [hxi, hself, hes] at he
      simp only [List.mem_cons, List.not_mem_nil, or_false] at he
      rcases he with rfl | rfl
      · exact absurd rfl h1
      · exact absurd rfl h2
    · obtain ⟨-, hen, -, hl⟩ := hsame x hxi
      rw [hen] at he
      have hch := ht.child x (hl.mp hx) e he he0 h1 h2
      have hei : e.inum ≠ i := fun h => hch.1 (h ▸ hold)
      obtain ⟨hty, -, hu, -⟩ := hsame _ hei
      rw [hty, hu]
      exact hch
  · intro x hx
    by_cases hxi : x = i
    · subst hxi
      rw [hself, hlink, hnames x h0, hups x h0, ht.names_of_free h0 hold,
        ht.ups_of_not_live h0 hnl, update_self, if_neg hdpi]
      rfl
    · rw [(hsame x hxi).1] at hx
      have hx0 := (ht.bound x hx).1.ne'
      have hn := ht.nlink x hx
      rw [hnames x hx0, hups x hx0, update_of_ne hxi]
      rw [show dn' x = update dn dp w x from update_of_ne hxi _ _]
      by_cases hxd : x = dp
      · subst hxd
        rw [update_self, if_pos rfl]
        simp only [w]
        omega
      · rw [update_of_ne hxd, if_neg (Ne.symm hxd)]
        omega
  · intro x hx
    by_cases hxi : x = i
    · subst hxi
      have hroot : x ≠ ROOTINO := fun h => hnl (h ▸ ht.root.1)
      rw [hnames x h0, ht.names_of_free h0 hold, update_self, if_neg hroot]
    · have hl := (hsame x hxi).2.2.2.mp hx
      rw [hnames x (ht.ne_zero_of_live hl), update_of_ne hxi]
      exact ht.once x hl
  · intro x hx hdead e he he0
    by_cases hxi : x = i
    · rw [hxi, hself] at hdead
      exact absurd hvlive hdead
    · obtain ⟨hty, hen, -, hl⟩ := hsame x hxi
      rw [hen] at he
      exact ht.dead x (hty ▸ hx) (fun h => hdead (hl.mpr h)) e he he0

/-- Nothing calls an empty directory "..". -/
theorem ups_of_isEmpty {c : ℕ} (hc : (dn c).Live) (hroot : c ≠ ROOTINO)
    (hempty : ∀ e ∈ (dn c).entries.drop 2, e.inum = 0) (hup : (dn c).up ≠ c)
    (hpend : ∀ x ≠ c, pend x = 0) : total dn n (Dirent.ups c) = 0 := by
  by_contra hne
  obtain ⟨x, hx, rfl⟩ := ht.exists_of_ups_pos (ht.ne_zero_of_live hc) (Nat.pos_of_ne_zero hne)
  have hxr : x ≠ ROOTINO := by
    rintro rfl
    exact hroot ht.root.2
  have hxc : x ≠ (dn x).up := fun h => hup (by rw [← h]; exact h.symm)
  have honce := ht.once x hx
  rw [if_neg hxr, hpend x hxc] at honce
  -- the one name of `x` is in the directory it calls ".."
  have hpos : 0 < total dn n (Dirent.names x) := by omega
  obtain ⟨d, hd, e, he, hq⟩ := exists_of_total_pos hpos
  obtain ⟨rfl, h1, h2⟩ := Dirent.names_iff.mp hq
  have h0 := ht.ne_zero_of_live hx
  have hdx := (ht.child d hd e he h0 h1 h2).2 hx.1
  obtain ⟨rest, hes, -⟩ := ht.shape d hd.1
  rw [hdx, hes] at hempty
  rw [hes] at he
  simp only [List.mem_cons] at he
  obtain rfl | rfl | he := he
  · exact h1 rfl
  · exact h2 rfl
  · exact h0 (hempty e he)

/-- An empty directory whose entry is gone loses its last link, and `dp` the one of its "..". -/
theorem kill {c dp : ℕ} (hc : (dn c).Live) (hdp : (dn dp).Live) (hup : (dn c).up = dp)
    (hne : c ≠ dp) (hroot : c ≠ ROOTINO) (hempty : ∀ e ∈ (dn c).entries.drop 2, e.inum = 0)
    (hpend : ∀ x, pend x = if x = c then 1 else 0) :
    Tree (update (update dn dp { dn dp with nlink := (dn dp).nlink - 1 }) c
      { dn c with nlink := (dn c).nlink - 1 }) n (fun _ => 0) ∧ (dn c).nlink = 1 ∧
      2 ≤ (dn dp).nlink := by
  have hc0 := ht.ne_zero_of_live hc
  have hdp0 := ht.ne_zero_of_live hdp
  have hnoups := ht.ups_of_isEmpty hc hroot hempty (by rw [hup]; exact hne.symm)
    fun x hx => by rw [hpend, if_neg hx]
  have hnonames : total dn n (Dirent.names c) = 0 := by
    have := ht.once c hc
    rw [hpend, if_pos rfl, if_neg hroot] at this
    omega
  have hclink : (dn c).nlink = 1 := by
    rw [ht.nlink c (not_free_of_live hc), hnoups, hnonames, hpend, if_pos rfl]
    rfl
  set v : Dinode := { dn c with nlink := (dn c).nlink - 1 }
  set w : Dinode := { dn dp with nlink := (dn dp).nlink - 1 }
  have hv : ¬ v.Live := fun h => by have := h.2; simp only [v] at this; omega
  -- without `c`, the directory above still has a link
  have hcount : ∀ q, total (update dn c v) n q + (dn c).count q = total dn n q := fun q => by
    have := total_update dn (ht.lt_of_live hc) v q
    rwa [count_of_not_live hv, add_zero] at this
  have hcups : ∀ j ≠ 0, (dn c).count (Dirent.ups j) = if dp = j then 1 else 0 := fun j hj => by
    rw [count_ups hc (ht.shape c hc.1) hj, hup]
  have hcnames : ∀ j ≠ 0, (dn c).count (Dirent.names j) = 0 := fun j hj => by
    rw [count_names hc (ht.shape c hc.1) hj]
    refine List.countP_eq_zero.mpr fun e he => ?_
    rw [hempty e he]
    simpa using hj.symm
  have hdplink : 2 ≤ (dn dp).nlink := by
    have hn := ht.nlink dp (not_free_of_live hdp)
    have hu := hcount (Dirent.ups dp)
    rw [hcups dp hdp0, if_pos rfl] at hu
    by_cases hr : dp = ROOTINO
    · have hle := count_le_total (update dn c v) (ht.lt_of_live hdp) (Dirent.ups dp)
      rw [update_of_ne hne.symm, count_ups hdp (ht.shape dp hdp.1) hdp0,
        if_pos (by rw [hr, ht.root.2])] at hle
      omega
    · have := ht.once dp hdp
      rw [if_neg hr] at this
      omega
  refine ⟨?_, hclink, hdplink⟩
  set dn' := update (update dn dp w) c v
  have hwlive : w.Live := ⟨hdp.1, by simp only [w]; omega⟩
  have hself : dn' c = v := update_self _ _ _
  have hsame : ∀ x, (dn' x).type = (dn x).type ∧ (dn' x).entries = (dn x).entries ∧
      (dn' x).up = (dn x).up ∧ ((dn' x).Live ↔ (dn x).Live ∧ x ≠ c) := fun x => by
    by_cases hxc : x = c
    · rw [hxc, hself]
      exact ⟨rfl, rfl, rfl, iff_of_false hv fun h => h.2 rfl⟩
    · rw [show dn' x = update dn dp w x from update_of_ne hxc _ _]
      by_cases hxd : x = dp
      · rw [hxd, update_self]
        exact ⟨rfl, rfl, rfl, iff_of_true hwlive ⟨hdp, hne.symm⟩⟩
      · rw [update_of_ne hxd]
        exact ⟨rfl, rfl, rfl, (and_iff_left hxc).symm⟩
  have htot : ∀ q, total dn' n q + (dn c).count q = total dn n q := fun q => by
    have hw : w.count q = (update dn c v dp).count q := by
      rw [update_of_ne hne.symm, Dinode.count, Dinode.count, if_pos hwlive, if_pos hdp]
    rw [← hcount q, show dn' = update (update dn c v) dp w from update_comm hne.symm _ _ _,
      total_update_of_eq hw]
  have hnames : ∀ j ≠ 0, total dn' n (Dirent.names j) = total dn n (Dirent.names j) :=
    fun j hj => by
      have := htot (Dirent.names j)
      rwa [hcnames j hj, add_zero] at this
  have hups : ∀ j ≠ 0,
      total dn' n (Dirent.ups j) + (if dp = j then 1 else 0) = total dn n (Dirent.ups j) :=
    fun j hj => by
      rw [← hcups j hj]
      exact htot _
  constructor
  · exact ht.inums
  · simpa only [hsame] using ht.bound
  · rw [(hsame _).2.2.2, (hsame _).2.2.1]
    exact ⟨⟨ht.root.1, hroot.symm⟩, ht.root.2⟩
  · simpa only [hsame] using ht.shape
  · intro x hx
    obtain ⟨-, -, hu, hl⟩ := hsame x
    rw [hl] at hx
    rw [hu, (hsame _).2.2.2]
    refine ⟨ht.up x hx.1, fun hxc => ?_⟩
    have hle := count_le_total dn (ht.lt_of_live hx.1) (Dirent.ups c)
    rw [count_ups hx.1 (ht.shape x hx.1.1) hc0, if_pos hxc] at hle
    omega
  · intro x hx e he h0 h1 h2
    rw [(hsame x).2.2.2] at hx
    rw [(hsame x).2.1] at he
    rw [(hsame _).1, (hsame _).2.2.1]
    exact ht.child x hx.1 e he h0 h1 h2
  · intro x hx
    rw [(hsame x).1] at hx
    have hx0 := (ht.bound x hx).1.ne'
    have hn := ht.nlink x hx
    have hu := hups x hx0
    rw [hnames x hx0]
    by_cases hxc : x = c
    · subst hxc
      rw [hself]
      simp only [v]
      omega
    · rw [hpend, if_neg hxc] at hn
      rw [show dn' x = update dn dp w x from update_of_ne hxc _ _]
      by_cases hxd : x = dp
      · subst hxd
        rw [if_pos rfl] at hu
        rw [update_self]
        simp only [w]
        omega
      · rw [if_neg (Ne.symm hxd)] at hu
        rw [update_of_ne hxd]
        omega
  · intro x hx
    rw [(hsame x).2.2.2] at hx
    have := ht.once x hx.1
    rw [hpend, if_neg hx.2] at this
    rw [hnames x (ht.ne_zero_of_live hx.1)]
    exact this
  · intro x hx hdead e he h0
    rw [(hsame x).2.2.2] at hdead
    rw [(hsame x).1] at hx
    rw [(hsame x).2.1] at he
    by_cases hxc : x = c
    · subst hxc
      obtain ⟨rest, hes, -⟩ := ht.shape x hx
      rw [hes] at he hempty
      simp only [List.mem_cons] at he
      obtain rfl | rfl | he := he
      · exact Or.inl rfl
      · exact Or.inr rfl
      · exact absurd (hempty e he) h0
    · exact ht.dead x hx (fun h => hdead ⟨h, hxc⟩) e he h0

end

end Tree

end Xv6.Fs
