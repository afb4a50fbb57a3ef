import Mathlib.Data.List.Basic
import Xv6.Sync.Console

/-!
# The line discipline of the console

`Tty` is what the console is for: characters are typed into a line, which can be
edited until it is committed, and what has been committed is taken by readers in
order. `consoleintr` and `consoleread` do this with three free-running indices into
one ring. The indices count, modulo `2^32`, the bytes that have been taken, that have
been committed, and that have been committed or are in the line; so the history tells
what is in the ring (`Holds`).
-/

namespace Xv6.Sync.Input

/-- The bytes that have been committed, the line being edited, and the bytes that readers
have taken so far. -/
structure Tty where
  committed : List UInt8
  line : List UInt8
  taken : List UInt8

namespace Tty

def empty : Tty := ⟨[], [], []⟩

/-- How many bytes wait to be read or committed. -/
def pending (t : Tty) : ℕ := t.committed.length + t.line.length - t.taken.length

/-- The line with one more byte, committed if it ends there or the buffer is full. -/
def append (t : Tty) (c : UInt8) : Tty :=
  if c = newline ∨ c = ctrlD ∨ t.pending + 1 = INPUT_BUF then
    { t with committed := t.committed ++ (t.line ++ [c]), line := [] }
  else { t with line := t.line ++ [c] }

/-- A character is typed. -/
def type (t : Tty) (c : UInt8) : Tty :=
  if c = ctrlP then t
  else if c = ctrlU then { t with line := [] }
  else if c = ctrlH ∨ c = 127 then { t with line := t.line.dropLast }
  else if c = 0 ∨ INPUT_BUF ≤ t.pending then t
  else t.append (if c = 13 then newline else c)

/-- A reader takes a byte. -/
def take (t : Tty) (c : UInt8) : Tty := { t with taken := t.taken ++ [c] }

end Tty

/-- What happens to the console: a character is typed, a reader gets a byte, or a reader
takes a `^D`, of which it gets nothing. -/
inductive Event (P : Type) where
  | typed (c : UInt8)
  | got (p : P) (c : UInt8)
  | eof (p : P)

variable {P : Type}

def Tty.after (t : Tty) : Event P → Tty
  | .typed c => t.type c
  | .got _ c => t.take c
  | .eof _ => t.take ctrlD

/-- The console after the events. -/
def Tty.of (l : List (Event P)) : Tty := l.foldl Tty.after .empty

/-- The event that a step is, if any. -/
def event (s : State P Unit Unit Input Loc) : Action P (Call P) → Option (Event P)
  | .step p _ =>
    match s.pc p with
    | .run (.intrLoop (c :: _)) => some (.typed c)
    | .run (.readLoop n target _) =>
      if n = 0 ∨ s.data.r = s.data.w then none
      else if s.data.buf (slot s.data.r) = ctrlD then if n < target then none else some (.eof p)
      else some (.got p (s.data.buf (slot s.data.r)))
    | _ => none
  | _ => none

def events (s : State P Unit Unit Input Loc) (a : Action P (Call P)) :
    State P Unit Unit Input Loc → List (Event P) :=
  fun _ => (event s a).toList

/-- The bytes in the ring from one index to another. -/
def between (i : Input) (a b : UInt32) : List UInt8 :=
  (List.range (b - a).toNat).map fun n => i.buf (slot (a + UInt32.ofNat n))

/-! ### Indices -/

theorem slot_ofNat (n : ℕ) : slot (UInt32.ofNat n) = ⟨n % INPUT_BUF, Nat.mod_lt _ (by decide)⟩ := by
  rw [slot, Fin.mk.injEq, UInt32.toNat_ofNat', INPUT_BUF]
  omega

theorem toNat_ofNat_sub {a b : ℕ} (hab : a ≤ b) (hb : b ≤ a + INPUT_BUF) :
    (UInt32.ofNat b - UInt32.ofNat a).toNat = b - a := by
  rw [UInt32.toNat_sub, UInt32.toNat_ofNat', UInt32.toNat_ofNat']
  rw [INPUT_BUF] at hb
  omega

theorem ofNat_inj_of_le {a b : ℕ} (hab : a ≤ b) (hb : b ≤ a + INPUT_BUF) :
    UInt32.ofNat b = UInt32.ofNat a ↔ b = a := by
  refine ⟨fun h => ?_, fun h => by rw [h]⟩
  have hsub := toNat_ofNat_sub hab hb
  rw [h, UInt32.sub_self] at hsub
  have : (0 : UInt32).toNat = 0 := rfl
  omega

/-- Two positions that are less than the size of the ring apart have different slots. -/
theorem slot_ne {a b : ℕ} (hab : a < b) (hb : b < a + INPUT_BUF) :
    slot (UInt32.ofNat a) ≠ slot (UInt32.ofNat b) := by
  rw [slot_ofNat, slot_ofNat, ne_eq, Fin.mk.injEq]
  rw [INPUT_BUF] at *
  omega

/-! ### The ring -/

/-- The ring holds what the history says: the indices count the bytes, and what has not been
taken is where they point. A line has neither a newline nor a `^D` in it. -/
structure Holds (t : Tty) (i : Input) : Prop where
  r : i.r = UInt32.ofNat t.taken.length
  w : i.w = UInt32.ofNat t.committed.length
  e : i.e = UInt32.ofNat (t.committed.length + t.line.length)
  taken : t.taken <+: t.committed
  size : t.committed.length + t.line.length ≤ t.taken.length + INPUT_BUF
  buf : ∀ n, t.taken.length ≤ n → n < t.committed.length + t.line.length →
    (t.committed ++ t.line)[n]? = some (i.buf (slot (UInt32.ofNat n)))
  line : newline ∉ t.line

theorem holds_empty : Holds .empty Input.empty where
  r := rfl
  w := rfl
  e := rfl
  taken := List.prefix_rfl
  size := by simp [Tty.empty]
  buf n _ hn := by simp [Tty.empty] at hn
  line := by simp [Tty.empty]

namespace Holds

variable {t : Tty} {i : Input} {c : UInt8}

section

variable (h : Holds t i)
include h

theorem taken_le : t.taken.length ≤ t.committed.length := h.taken.length_le

theorem pending_eq : t.taken.length + t.pending = t.committed.length + t.line.length := by
  have := h.taken_le
  rw [Tty.pending]
  omega

theorem toNat_sub_r : (i.e - i.r).toNat = t.pending := by
  have := h.taken_le
  have := h.size
  rw [h.e, h.r, toNat_ofNat_sub (by omega) (by omega), Tty.pending]

theorem toNat_sub_w : (i.e - i.w).toNat = t.line.length := by
  have := h.taken_le
  have := h.size
  rw [h.e, h.w, toNat_ofNat_sub (by omega) (by omega)]
  omega

theorem e_eq_w : i.e = i.w ↔ t.line = [] := by
  have := h.taken_le
  have := h.size
  rw [h.e, h.w, ofNat_inj_of_le (by omega) (by omega), ← List.length_eq_zero_iff]
  omega

theorem r_eq_w : i.r = i.w ↔ t.taken.length = t.committed.length := by
  have := h.taken_le
  have := h.size
  rw [eq_comm, h.r, h.w, ofNat_inj_of_le (by omega) (by omega), eq_comm]

/-- Characters at the end of the line are erased. -/
theorem erase {l : List UInt8} (hl : l <+: t.line) : Holds { t with line := l }
      { i with e := UInt32.ofNat (t.committed.length + l.length) } where
  r := h.r
  w := h.w
  e := rfl
  taken := h.taken
  size := by
    have := h.size
    have := hl.length_le
    simp only
    omega
  buf n hn hlt := by
    obtain ⟨l', hl'⟩ := hl
    have hlt : n < (t.committed ++ l).length := by simpa using hlt
    rw [← h.buf n hn (by rw [← hl']; simp at hlt ⊢; omega), ← hl', ← List.append_assoc]
    exact (List.getElem?_append_left hlt).symm
  line hmem := h.line (hl.subset hmem)

end

end Holds

/-- `^U` erases back to the last committed position if there is no newline before. -/
theorem killLine_eq {i : Input} {n : ℕ} (hn : n ≤ INPUT_BUF) (he : i.e = i.w + UInt32.ofNat n)
    (hbuf : ∀ m < n, i.buf (slot (i.w + UInt32.ofNat m)) ≠ newline) :
    killLine n i = { i with e := i.w } := by
  induction n generalizing i with
  | zero =>
    have he : i.e = i.w := he.trans (UInt32.add_zero _)
    rw [killLine]
    cases i
    simp only at he ⊢
    rw [he]
  | succ n ih =>
    have hlast : i.e - 1 = i.w + UInt32.ofNat n := by
      rw [he, UInt32.ofNat_add, ← UInt32.add_assoc]
      exact UInt32.add_sub_cancel _ _
    have hne : i.e ≠ i.w := by
      intro h
      have hzero : UInt32.ofNat (n + 1) = UInt32.ofNat 0 := by
        have := he.symm.trans h
        exact UInt32.add_eq_left.mp this
      rw [ofNat_inj_of_le (by omega) (by omega)] at hzero
      omega
    rw [killLine, if_pos ⟨hne, hlast ▸ hbuf n (by omega)⟩]
    exact ih (by omega) hlast fun m hm => hbuf m (by omega)

namespace Holds

variable {t : Tty} {i : Input} {c : UInt8}

section

variable (h : Holds t i)
include h

/-- A byte is stored behind the line. -/
theorem store (hp : t.pending < INPUT_BUF) {n : ℕ} (hn : t.taken.length ≤ n)
    (hlt : n < t.committed.length + t.line.length + 1) : (t.committed ++ (t.line ++ [c]))[n]? =
      some (Function.update i.buf (slot i.e) c (slot (UInt32.ofNat n))) := by
  have hpend := h.pending_eq
  rw [← List.append_assoc, h.e]
  by_cases hlast : n = t.committed.length + t.line.length
  · subst hlast
    rw [Function.update_self, ← List.length_append, List.getElem?_concat_length]
  · have hslot := slot_ne (a := n) (b := t.committed.length + t.line.length) (by omega) (by omega)
    rw [Function.update_of_ne hslot, List.getElem?_append_left (by simp; omega),
      h.buf n hn (by omega)]

theorem append (hp : t.pending < INPUT_BUF) : Holds (t.append c)
      { i with
        buf := Function.update i.buf (slot i.e) c
        e := i.e + 1
        w := if c = newline ∨ c = ctrlD ∨ i.e + 1 = i.r + UInt32.ofNat INPUT_BUF then i.e + 1
          else i.w } := by
  have hpend := h.pending_eq
  have he : i.e + 1 = UInt32.ofNat (t.committed.length + t.line.length + 1) := by
    rw [h.e, UInt32.ofNat_add (_ + _) 1]
    rfl
  have hfull : i.e + 1 = i.r + UInt32.ofNat INPUT_BUF ↔ t.pending + 1 = INPUT_BUF := by
    rw [he, h.r, ← UInt32.ofNat_add, eq_comm, ofNat_inj_of_le (by omega) (by omega)]
    omega
  by_cases hc : c = newline ∨ c = ctrlD ∨ t.pending + 1 = INPUT_BUF
  · have hlen : (t.committed ++ (t.line ++ [c])).length =
        t.committed.length + t.line.length + 1 := by simp; omega
    rw [Tty.append, if_pos hc, if_pos (by rwa [hfull])]
    refine ⟨h.r, ?_, ?_, h.taken.trans (List.prefix_append _ _), ?_, fun n hn hlt => ?_, by simp⟩
    · rw [hlen, he]
    · rw [hlen, he]
      rfl
    · simp only [hlen, List.length_nil]
      omega
    · rw [List.append_nil]
      exact h.store hp hn (by simpa [hlen] using hlt)
  · rw [Tty.append, if_neg hc, if_neg (by rwa [hfull])]
    have hlen : t.committed.length + (t.line ++ [c]).length =
        t.committed.length + t.line.length + 1 := by simp; omega
    refine ⟨h.r, h.w, ?_, h.taken, ?_, fun n hn hlt => ?_, ?_⟩
    · rw [hlen, he]
    · simp only [hlen]
      omega
    · exact h.store hp hn (lt_of_lt_of_eq hlt hlen)
    · simp only [List.mem_append, List.mem_singleton, not_or]
      exact ⟨h.line, fun hcn => hc (.inl hcn.symm)⟩

theorem killLine : Holds { t with line := [] } (Input.killLine (i.e - i.w).toNat i) := by
  have htaken := h.taken_le
  have hsize := h.size
  have hkill : Input.killLine (i.e - i.w).toNat i = { i with e := i.w } := by
    rw [h.toNat_sub_w]
    refine killLine_eq (by omega) (by rw [h.e, h.w, UInt32.ofNat_add]) fun m hm hnl => h.line ?_
    have hbuf := h.buf (t.committed.length + m) (by omega) (by omega)
    rw [UInt32.ofNat_add, ← h.w, hnl, List.getElem?_append_right (by omega),
      Nat.add_sub_cancel_left] at hbuf
    exact List.mem_of_getElem? hbuf
  have herase := h.erase (List.nil_prefix (l := t.line))
  rw [List.length_nil, Nat.add_zero, ← h.w] at herase
  rwa [hkill]

theorem backspace :
    Holds { t with line := t.line.dropLast }
      (if i.e ≠ i.w then { i with e := i.e - 1 } else i) := by
  by_cases hl : t.line = []
  · have hsame : ({ t with line := t.line.dropLast } : Tty) = t := by
      cases t
      simp_all
    rw [if_neg (by simpa using h.e_eq_w.mpr hl), hsame]
    exact h
  · have hpos : t.line.length ≠ 0 := by simpa using hl
    have hlast : i.e - 1 = UInt32.ofNat (t.committed.length + t.line.dropLast.length) := by
      have hlen : t.committed.length + t.line.length =
          t.committed.length + t.line.dropLast.length + 1 := by
        rw [List.length_dropLast]
        omega
      rw [h.e, hlen, UInt32.ofNat_add _ 1]
      exact UInt32.add_sub_cancel _ _
    rw [if_pos fun he => hl (h.e_eq_w.mp he), hlast]
    exact h.erase (List.dropLast_prefix _)

/-- The handler follows the line discipline. -/
theorem consume (c : UInt8) : Holds (t.type c) (Input.consume c i).1 := by
  by_cases hP : c = ctrlP
  · rw [Tty.type, Input.consume, if_pos hP, if_pos hP]
    exact h
  rw [Tty.type, Input.consume, if_neg hP, if_neg hP]
  by_cases hU : c = ctrlU
  · rw [if_pos hU, if_pos hU]
    exact h.killLine
  rw [if_neg hU, if_neg hU]
  by_cases hH : c = ctrlH ∨ c = 127
  · rw [if_pos hH, if_pos hH]
    exact h.backspace
  rw [if_neg hH, if_neg hH]
  have hspace : i.e - i.r < UInt32.ofNat INPUT_BUF ↔ t.pending < INPUT_BUF := by
    rw [UInt32.lt_iff_toNat_lt, h.toNat_sub_r]
    rfl
  by_cases hdrop : c = 0 ∨ INPUT_BUF ≤ t.pending
  · have hfull : ¬ (c ≠ 0 ∧ i.e - i.r < UInt32.ofNat INPUT_BUF) := by
      rw [hspace]
      rintro ⟨h0, hp⟩
      exact hdrop.elim h0 (Nat.not_le.mpr hp)
    rw [if_pos hdrop, if_neg hfull]
    exact h
  · obtain ⟨h0, hp⟩ := not_or.mp hdrop
    have hroom : c ≠ 0 ∧ i.e - i.r < UInt32.ofNat INPUT_BUF := ⟨h0, hspace.mpr (by omega)⟩
    rw [if_neg hdrop, if_pos hroom]
    have happ := h.append (c := if c = 13 then newline else c) (by omega)
    generalize (if c = 13 then newline else c) = c' at happ ⊢
    simp only
    split
    · next hcommit => rwa [if_pos hcommit] at happ
    · next hcommit => rwa [if_neg hcommit] at happ

/-- A reader takes the byte that the ring has for it. -/
theorem take (hne : i.r ≠ i.w) : Holds (t.take (i.buf (slot i.r))) { i with r := i.r + 1 } := by
  have hlt : t.taken.length < t.committed.length :=
    lt_of_le_of_ne h.taken_le fun hr => hne (h.r_eq_w.mpr hr)
  have hsize := h.size
  have hbyte : t.committed[t.taken.length]? = some (i.buf (slot i.r)) := by
    rw [h.r, ← h.buf _ le_rfl (by omega), List.getElem?_append_left hlt]
  refine ⟨?_, h.w, h.e, ?_, ?_, fun n hn => h.buf n ?_, h.line⟩
  · rw [h.r, Tty.take, List.length_append, UInt32.ofNat_add]
    rfl
  · obtain ⟨rest, hrest⟩ := h.taken
    rw [← hrest, List.getElem?_append_right le_rfl, Nat.sub_self] at hbyte
    cases rest with
    | nil => simp at hbyte
    | cons b rest =>
      obtain rfl : b = i.buf (slot i.r) := by simpa using hbyte
      exact ⟨rest, by simp [Tty.take, ← hrest]⟩
  · simp only [Tty.take, List.length_append, List.length_singleton]
    omega
  · simp only [Tty.take, List.length_append] at hn
    omega

end

end Holds

/-! ### Runs -/

section Runs

variable [DecidableEq P] {s s' : State P Unit Unit Input Loc} {a : Action P (Call P)} {t : Tty}
  {x : Call P} {p : P} {dst : List UInt8} {i : Input} {f : Input → Input × Loc}

/-- What a reader has got so far: `target - n` bytes, none of them a `^D`. -/
def Loc.Reading : Loc → Prop
  | .readLoop n target dst | .readKilled n target dst | .readSleep n target dst
  | .readDone n target dst => dst.length + n = target ∧ ctrlD ∉ dst
  | _ => True

omit [DecidableEq P] in
/-- A round of `consoleread` takes the event that it counts as. -/
theorem Holds.readStep {n target : ℕ} (h : Holds t s.data)
    (hpc : s.pc p = .run (.readLoop n target dst)) :
    Holds ((event s (.step p x)).elim t t.after) (readStep n target dst s.data).1 := by
  simp only [event, hpc, Input.readStep]
  by_cases hn : n = 0
  · rw [if_pos (.inl hn), if_pos hn]
    exact h
  by_cases hr : s.data.r = s.data.w
  · rw [if_pos (.inr hr), if_neg hn, if_pos hr]
    exact h
  have htake := h.take hr
  rw [if_neg (not_or.mpr ⟨hn, hr⟩), if_neg hn, if_neg hr]
  by_cases hD : s.data.buf (slot s.data.r) = ctrlD
  · rw [if_pos hD, if_pos hD]
    by_cases hlt : n < target
    · rw [if_pos hlt, if_pos hlt]
      exact h
    · rw [if_neg hlt, if_neg hlt]
      rw [hD] at htake
      exact htake
  · rw [if_neg hD, if_neg hD]
    split <;> exact htake

omit [DecidableEq P] in
/-- An access to the ring is the event that it counts as, or leaves the ring alone. -/
theorem Holds.access (h : Holds t s.data) (hpc : s.pc p = .run (s.locs p))
    (hop : code p (s.locs p) x = some (.access f)) :
    Holds ((event s (.step p x)).elim t t.after) (f s.data).1 := by
  generalize s.locs p = l at hpc hop
  cases l with
  | idle => cases x <;> simp [code] at hop
  | readLoop n target dst =>
    obtain rfl := Op.access.inj (Option.some.inj hop)
    exact h.readStep hpc
  | intrLoop input =>
    obtain rfl := Op.access.inj (Option.some.inj hop)
    cases input with
    | nil => simpa [event, hpc, intrStep] using h
    | cons c rest => simpa [event, hpc, intrStep, Tty.after] using h.consume c
  | readKilled | readSleep | readDone | release | intrWakeup => simp [code] at hop

omit [DecidableEq P] in
/-- A step that is an event is an access to the ring. -/
theorem access_of_event {v : Event P} (h : event s a = some v) :
    ∃ p x f, a = .step p x ∧ s.pc p = .run (s.locs p) ∧ code p (s.locs p) x = some (.access f) := by
  cases a with
  | step p x =>
    simp only [event] at h
    split at h
    · next c rest hpc =>
      have hloc : s.locs p = .intrLoop (c :: rest) := by simp [State.locs, hpc, Pc.loc]
      exact ⟨p, x, _, rfl, by rw [hpc, hloc], by rw [hloc]; rfl⟩
    · next n target dst hpc =>
      have hloc : s.locs p = .readLoop n target dst := by simp [State.locs, hpc, Pc.loc]
      exact ⟨p, x, _, rfl, by rw [hpc, hloc], by rw [hloc]; rfl⟩
    · simp at h
  | acquire | release | dispatch => simp [event] at h

theorem Holds.step (h : Holds t s.data) (hs : Sync.step code s a = some s') :
    Holds ((event s a).elim t t.after) s'.data := by
  by_cases hacc : ∃ p x f, a = .step p x ∧ s.pc p = .run (s.locs p) ∧
      code p (s.locs p) x = some (.access f)
  · obtain ⟨p, x, f, rfl, hpc, hop⟩ := hacc
    obtain rfl := Option.some.inj ((step_of_access hpc hop).symm.trans hs)
    exact h.access hpc hop
  · have hevent : event s a = none := by
      cases hv : event s a with
      | none => rfl
      | some v => exact absurd (access_of_event hv) hacc
    have hdata : s'.data = s.data := by
      cases step_client hs with
      | access hpc hop hdata hlocs => exact absurd ⟨_, _, _, rfl, hpc, hop⟩ hacc
      | next hpc hop hl' hdata hlocs => exact hdata
      | quiet hdata hlocs => exact hdata
    rw [hevent, hdata]
    exact h

omit [DecidableEq P] in
theorem Tty.of_append (l : List (Event P)) (v : Option (Event P)) :
    Tty.of (l ++ v.toList) = v.elim (Tty.of l) (Tty.of l).after := by
  cases v <;> simp [Tty.of]

/-! ### Readers -/

omit [DecidableEq P] in
theorem Loc.Reading.access {l : Loc} (h : l.Reading) (hop : code p l x = some (.access f)) :
    (f i).2.Reading := by
  cases l with
  | idle => cases x <;> simp [code] at hop
  | readLoop n target dst =>
    obtain rfl := Op.access.inj (Option.some.inj hop)
    obtain ⟨hlen, hD⟩ := h
    unfold Input.readStep
    dsimp only
    split_ifs with hn hr hc hlt hnl
    · exact ⟨hlen, hD⟩
    · exact ⟨hlen, hD⟩
    · exact ⟨hlen, hD⟩
    · exact ⟨hlen, hD⟩
    · refine ⟨by simp; omega, by simp [hD, Ne.symm hc]⟩
    · refine ⟨by simp; omega, by simp [hD, Ne.symm hc]⟩
  | intrLoop input =>
    obtain rfl := Op.access.inj (Option.some.inj hop)
    cases input with
    | nil => trivial
    | cons c rest =>
      simp only [intrStep]
      split <;> trivial
  | readKilled | readSleep | readDone | release | intrWakeup => simp [code] at hop

omit [DecidableEq P] in
theorem Loc.Reading.next {l l' : Loc} {op : Op P Unit Unit Input Loc} (h : l.Reading)
    (hop : code p l x = some op) (hl' : op.Next l') : l'.Reading := by
  cases l with
  | idle =>
    cases x with
    | consoleread n =>
      cases hop
      obtain rfl := hl'
      exact ⟨by simp, by simp⟩
    | consoleintr | kill =>
      cases hop
      obtain rfl := hl'
      trivial
  | readKilled n target dst =>
    cases hop
    obtain rfl | rfl := hl'
    · trivial
    · exact h
  | readSleep n target dst =>
    cases hop
    obtain rfl := hl'
    exact h
  | readLoop | intrLoop =>
    cases hop
    exact absurd hl' id
  | readDone | release | intrWakeup =>
    cases hop
    obtain rfl := hl'
    trivial

/-- Every reader has got as many bytes as its call says. -/
theorem reading_step (h : ∀ p, (s.locs p).Reading) (hs : Sync.step code s a = some s') (p : P) :
    (s'.locs p).Reading := by
  cases step_client hs with
  | @access q x f _ hpc hop hdata hlocs =>
    rw [hlocs]
    by_cases hq : p = q
    · subst hq
      rw [Function.update_self]
      exact (h p).access hop
    · rw [Function.update_of_ne hq]
      exact h p
  | @next q x op l' _ hpc hop hl' hdata hlocs =>
    rw [hlocs]
    by_cases hq : p = q
    · subst hq
      rw [Function.update_self]
      exact (h p).next hop hl'
    · rw [Function.update_of_ne hq]
      exact h p
  | quiet hdata hlocs =>
    rw [hlocs]
    exact h p

theorem between_eq {t : Tty} (h : Holds t i) {a b : ℕ} (ha : t.taken.length ≤ a) (hab : a ≤ b)
    (hb : b ≤ t.committed.length + t.line.length) : between i (UInt32.ofNat a) (UInt32.ofNat b) =
      ((t.committed ++ t.line).drop a).take (b - a) := by
  have hsize := h.size
  rw [between, toNat_ofNat_sub hab (by omega)]
  refine List.ext_getElem? fun n => ?_
  by_cases hn : n < b - a
  · rw [List.getElem?_map, List.getElem?_range hn, List.getElem?_take_of_lt hn, List.getElem?_drop,
      h.buf (a + n) (by omega) (by omega), UInt32.ofNat_add]
    rfl
  · rw [List.getElem?_eq_none (by simpa using hn), List.getElem?_eq_none (by simp; omega)]

theorem Holds.between_r_w (h : Holds t i) : t.taken ++ between i i.r i.w = t.committed := by
  have hle := h.taken_le
  rw [h.r, h.w, between_eq h le_rfl hle (by omega), List.drop_append_of_le_length hle,
    List.take_left' (by simp)]
  exact List.prefix_iff_eq_append.mp h.taken

theorem Holds.between_w_e (h : Holds t i) : between i i.w i.e = t.line := by
  have hle := h.taken_le
  rw [h.w, h.e, between_eq h hle (by omega) le_rfl, List.drop_left, Nat.add_sub_cancel_left,
    List.take_length]

/-- A step of a reader in its loop. -/
theorem step_readLoop {n target : ℕ} (hpc : s.pc p = .run (.readLoop n target dst))
    (hs : Sync.step code s (.step p x) = some s') : s'.data = (readStep n target dst s.data).1 ∧
      s'.pc p = .run (readStep n target dst s.data).2 := by
  have hop : code p (.readLoop n target dst) x = some (.access (readStep n target dst)) := rfl
  have hstep := step_of_access hpc hop
  obtain rfl := Option.some.inj (hstep.symm.trans hs)
  exact ⟨rfl, by simp [State.setPc]⟩

omit [DecidableEq P] in
/-- A reader gets a byte, or takes a `^D`, in its loop. -/
theorem event_readLoop {v : Event P} (hv : event s a = some v)
    (hp : v = .eof p ∨ ∃ c, v = .got p c) : ∃ x n target dst, a = .step p x ∧
      s.pc p = .run (.readLoop n target dst) ∧ n ≠ 0 ∧ s.data.r ≠ s.data.w ∧
      ((v = .eof p ∧ s.data.buf (slot s.data.r) = ctrlD ∧ ¬ n < target) ∨
        (v = .got p (s.data.buf (slot s.data.r)) ∧ s.data.buf (slot s.data.r) ≠ ctrlD)) := by
  cases a with
  | step q x =>
    simp only [event] at hv
    split at hv
    · cases hv
      simp at hp
    · next n target dst hpc =>
      split_ifs at hv with hn hD hlt
      · cases hv
        obtain rfl : q = p := by simpa using hp
        exact ⟨x, n, target, dst, rfl, hpc, (not_or.mp hn).1, (not_or.mp hn).2,
          .inl ⟨rfl, hD, hlt⟩⟩
      · cases hv
        obtain rfl : q = p := by simpa using hp
        exact ⟨x, n, target, dst, rfl, hpc, (not_or.mp hn).1, (not_or.mp hn).2,
          .inr ⟨rfl, hD⟩⟩
    · simp at hv
  | acquire | release | dispatch => simp [event] at hv

/-- A byte that a reader gets goes to the end of its buffer. -/
theorem step_got {c : UInt8} (hs : Sync.step code s a = some s')
    (hv : event s a = some (.got p c)) : c ≠ ctrlD ∧
      ∃ n target dst, s.pc p = .run (.readLoop (n + 1) target dst) ∧
        (s'.pc p = .run (.readLoop n target (dst ++ [c])) ∨
          s'.pc p = .run (.readDone n target (dst ++ [c]))) := by
  obtain ⟨x, n, target, dst, rfl, hpc, hn, hr, ⟨h, -⟩ | ⟨h, hD⟩⟩ :=
    event_readLoop (p := p) hv (.inr ⟨c, rfl⟩)
  · simp at h
  · obtain rfl : c = _ := (Event.got.inj h).2
    obtain ⟨m, rfl⟩ := Nat.exists_eq_succ_of_ne_zero hn
    refine ⟨hD, m, target, dst, hpc, ?_⟩
    rw [(step_readLoop hpc hs).2, readStep, if_neg hn, if_neg hr, if_neg hD]
    split
    · exact .inr rfl
    · exact .inl rfl

/-- A reader that takes a `^D` has got nothing. -/
theorem step_eof (hread : (s.locs p).Reading) (hs : Sync.step code s a = some s')
    (hv : event s a = some (.eof p)) : ∃ n, s.pc p = .run (.readLoop n n []) ∧
      s'.pc p = .run (.readDone n n []) := by
  obtain ⟨x, n, target, dst, rfl, hpc, hn, hr, ⟨-, hD, hlt⟩ | ⟨h, -⟩⟩ :=
    event_readLoop (p := p) hv (.inl rfl)
  · rw [State.locs, hpc] at hread
    obtain ⟨hlen, -⟩ : dst.length + n = target ∧ ctrlD ∉ dst := hread
    obtain rfl : dst = [] := List.length_eq_zero_iff.mp (by omega)
    obtain rfl : n = target := by simpa using hlen
    refine ⟨n, hpc, ?_⟩
    rw [(step_readLoop hpc hs).2, readStep, if_neg hn, if_neg hr, if_pos hD]
  · simp at h

/-- A reader that has got something leaves a `^D` where it is. -/
theorem step_before_ctrlD {n target : ℕ} (hread : (s.locs p).Reading)
    (hs : Sync.step code s (.step p x) = some s') (hpc : s.pc p = .run (.readLoop n target dst))
    (hn : n ≠ 0) (hdst : dst ≠ []) (hr : s.data.r ≠ s.data.w)
    (hD : s.data.buf (slot s.data.r) = ctrlD) :
    s'.data = s.data ∧ s'.pc p = .run (.readDone n target dst) := by
  rw [State.locs, hpc] at hread
  obtain ⟨hlen, -⟩ : dst.length + n = target ∧ ctrlD ∉ dst := hread
  have hpos := List.length_pos_iff.mpr hdst
  obtain ⟨hdata, hpc'⟩ := step_readLoop hpc hs
  rw [readStep, if_neg hn, if_neg hr, if_pos hD, if_pos (by omega)] at hdata
  rw [readStep, if_neg hn, if_neg hr, if_pos hD] at hpc'
  exact ⟨hdata, hpc'⟩

variable (r : Run (Sync.step (code (P := P)))) (h0 : r.state 0 = State.init .idle Input.empty)
include h0

theorem Holds.of_run {k : ℕ} (hk : k ≤ r.length) :
    Holds (Tty.of (r.trace events k)) (r.state k).data := by
  induction k with
  | zero =>
    rw [Run.trace_zero, h0]
    exact holds_empty
  | succ k ih =>
    rw [Run.trace_succ, events, Tty.of_append]
    exact (ih (by omega)).step (r.next k hk)

theorem reading_of_run {k : ℕ} (hk : k ≤ r.length) (p : P) :
    ((r.state k).locs p).Reading :=
  r.invariant (I := fun s => ∀ p, (s.locs p).Reading) (fun p => by rw [h0]; trivial)
    (fun _ _ _ h hs p => reading_step h hs p) hk p

/-- In every run of readers and handlers:

- `r ≤ w ≤ e ≤ r + INPUT_BUF`, as distances from `r`;
- the history of the characters typed and the bytes taken, under the line discipline, tells
  what is in the ring: the bytes taken and those from `r` to `w` are what has been committed, and
  those from `w` to `e` are the line that can still be edited;
- a byte that a reader gets is put into its buffer and is not a `^D`; a reader that takes a `^D`
  has got nothing and returns 0; and a reader that has got something and finds a `^D` leaves it
  and returns what it has got. -/
theorem line_discipline :
    (∀ k ≤ r.length,
      ((r.state k).data.w - (r.state k).data.r).toNat ≤
        ((r.state k).data.e - (r.state k).data.r).toNat ∧
      ((r.state k).data.e - (r.state k).data.r).toNat ≤ INPUT_BUF ∧
      (Tty.of (r.trace events k)).taken ++
          between (r.state k).data (r.state k).data.r (r.state k).data.w =
        (Tty.of (r.trace events k)).committed ∧
      between (r.state k).data (r.state k).data.w (r.state k).data.e =
        (Tty.of (r.trace events k)).line) ∧
    (∀ k p n target dst, k ≤ r.length → (r.state k).pc p = .run (.readDone n target dst) →
      target - n = dst.length) ∧
    ∀ k < r.length, ∀ p,
      (∀ c, event (r.state k) (r.action k) = some (.got p c) → c ≠ ctrlD ∧
        ∃ n target dst, (r.state k).pc p = .run (.readLoop (n + 1) target dst) ∧
          ((r.state (k + 1)).pc p = .run (.readLoop n target (dst ++ [c])) ∨
            (r.state (k + 1)).pc p = .run (.readDone n target (dst ++ [c])))) ∧
      (event (r.state k) (r.action k) = some (.eof p) →
        ∃ n, (r.state k).pc p = .run (.readLoop n n []) ∧
          (r.state (k + 1)).pc p = .run (.readDone n n [])) ∧
      ∀ x n target dst, r.action k = .step p x →
        (r.state k).pc p = .run (.readLoop n target dst) → n ≠ 0 → dst ≠ [] →
        (r.state k).data.r ≠ (r.state k).data.w →
        (r.state k).data.buf (slot (r.state k).data.r) = ctrlD →
        (r.state (k + 1)).data = (r.state k).data ∧
          (r.state (k + 1)).pc p = .run (.readDone n target dst) := by
  refine ⟨fun k hk => ?_, fun k p n target dst hk hpc => ?_, fun k hk p => ⟨fun c hc => ?_,
    fun hc => ?_, fun x n target dst hx hpc hn hdst hr hD => ?_⟩⟩
  · have h := Holds.of_run r h0 hk
    have hle := h.taken_le
    have hsize := h.size
    refine ⟨?_, ?_, h.between_r_w, h.between_w_e⟩
    · rw [h.toNat_sub_r, h.w, h.r, toNat_ofNat_sub hle (by omega), Tty.pending]
      omega
    · rw [h.toNat_sub_r, Tty.pending]
      omega
  · have h := reading_of_run r h0 hk p
    rw [State.locs, hpc] at h
    have := h.1
    omega
  · exact step_got (r.next k hk) hc
  · exact step_eof (reading_of_run r h0 hk.le p) (r.next k hk) hc
  · have hs := r.next k hk
    rw [hx] at hs
    exact step_before_ctrlD (reading_of_run r h0 hk.le p) hs hpc hn hdst hr hD

end Runs

/-- `a`, a backspace, `b` and `^D` are typed, and then read by two calls. Thread `true` takes the
interrupt, thread `false` reads. -/
def typedActions : List (Action Bool (Call Bool)) :=
  List.replicate 10 (.step true (.consoleintr [97, ctrlH, 98, ctrlD])) ++
    List.replicate 7 (.step false (.consoleread 2))

def typedRun : Run (Sync.step (code (P := Bool))) :=
  Run.ofActions (State.init .idle Input.empty) typedActions (by decide +kernel)

theorem line_discipline_typedRun :
    (Tty.of (typedRun.trace events 10)).committed = [98, ctrlD] ∧
    between (typedRun.state 10).data (typedRun.state 10).data.r (typedRun.state 10).data.w =
      [98, ctrlD] ∧
    (typedRun.state 13).pc false = .run (.readDone 1 2 [98]) ∧
    ∃ n, (typedRun.state 16).pc false = .run (.readDone n n []) := by
  obtain ⟨hring, -, hstep⟩ := line_discipline typedRun rfl
  have hcommitted : (Tty.of (typedRun.trace events 10)).committed = [98, ctrlD] := by decide +kernel
  have htaken : (Tty.of (typedRun.trace events 10)).taken = [] := by decide +kernel
  have hpending := (hring 10 (by decide)).2.2.1
  rw [htaken, hcommitted] at hpending
  have hstop := (hstep 12 (by decide) false).2.2 (.consoleread 2) 1 2 [98] rfl (by rfl)
    (by decide) (by decide) (by decide +kernel) (by decide +kernel)
  obtain ⟨n, -, hdone⟩ := (hstep 15 (by decide) false).2.1 (by rfl)
  exact ⟨hcommitted, hpending, hstop.2, n, hdone⟩

end Xv6.Sync.Input
