import Mathlib.Algebra.Order.Ring.Int
import Mathlib.Logic.Function.Iterate
import Mathlib.Tactic.Common
import Xv6.Vm.Paging

/-!
# Finding the processors

`mp.c`: the kernel looks for the tables that the firmware has left in memory and walks through
the entries of one of them. Memory is a function from the kernel's addresses to bytes. The walk
has a number of rounds as fuel; `none` means that it did not suffice.
-/

namespace Xv6.Mp

open Function

open Vm (KERNBASE)

abbrev Memory := ℕ → UInt8

def NCPU : ℕ := 8

/-- `P2V` -/
def P2V (a : ℕ) : ℕ := a + KERNBASE

section Code

variable (mem : Memory)

def bytes (a n : ℕ) : List UInt8 := (List.range n).map fun i => mem (a + i)

/-- A little-endian number of `n` bytes. -/
def number (a n : ℕ) : ℕ := (bytes mem a n).foldr (fun b x => b.toNat + 256 * x) 0

def sum (a len : ℕ) : UInt8 := (bytes mem a len).foldl (· + ·) 0

/-- `sizeof(struct mp)`, `sizeof(struct mpconf)` -/
def MP : ℕ := 16
def MPCONF : ℕ := 44

/-- `"_MP_"`, `"PCMP"` -/
def mpSignature : List UInt8 := [0x5F, 0x4D, 0x50, 0x5F]
def confSignature : List UInt8 := [0x50, 0x43, 0x4D, 0x50]

/-- Look for a structure in the `len` bytes at `a`. -/
def mpsearch1 (a len : ℕ) : Option ℕ :=
  ((List.range (len / MP)).map fun i => P2V a + MP * i).find? fun p =>
    bytes mem p 4 = mpSignature ∧ sum mem p MP = 0

def mpsearch : Option ℕ :=
  let bda := P2V 0x400
  let p := number mem (bda + 0x0E) 2 * 16
  let found :=
    if p ≠ 0 then mpsearch1 mem p 1024
    else mpsearch1 mem ((number mem (bda + 0x13) 2 * 1024 + (2 ^ 32 - 1024)) % 2 ^ 32) 1024
  found <|> mpsearch1 mem 0xF0000 0x10000

/-- The fields of a `struct mp` and of a `struct mpconf` that are read. -/
def physaddr (mp : ℕ) : ℕ := number mem (mp + 4) 4
def imcrp (mp : ℕ) : UInt8 := mem (mp + 12)
def length (conf : ℕ) : ℕ := number mem (conf + 4) 2
def version (conf : ℕ) : UInt8 := mem (conf + 6)
def lapicaddr (conf : ℕ) : ℕ := number mem (conf + 36) 4

def mpconfig : Option (ℕ × ℕ) :=
  match mpsearch mem with
  | none => none
  | some mp =>
    if physaddr mem mp = 0 then none
    else
      let conf := P2V (physaddr mem mp)
      if bytes mem conf 4 ≠ confSignature then none
      else if version mem conf ≠ 1 ∧ version mem conf ≠ 4 then none
      else if sum mem conf (length mem conf) ≠ 0 then none
      else some (mp, conf)

end Code

/-- What `mpinit` sets. -/
structure State where
  ncpu : ℕ
  /-- `cpus[i].apicid` -/
  apicid : ℕ → UInt8
  ioapicid : UInt8
  lapic : ℕ
  /-- what has been written to ports -/
  outb : List (ℕ × UInt8)

/-- The types of entries. -/
def MPPROC : UInt8 := 0
def MPBUS : UInt8 := 1
def MPIOAPIC : UInt8 := 2
def MPIOINTR : UInt8 := 3
def MPLINTR : UInt8 := 4

/-- The variables of the loop. -/
structure Walk where
  p : ℕ
  ismp : Bool
  s : State

def State.register (s : State) (id : UInt8) : State :=
  if s.ncpu < NCPU then { s with apicid := update s.apicid s.ncpu id, ncpu := s.ncpu + 1 } else s

/-- One turn of the loop. In the last branch the `break` leaves the `switch` alone. -/
def turn (mem : Memory) (w : Walk) : Walk :=
  if mem w.p = MPPROC then
    { w with s := w.s.register (mem (w.p + 1)), p := w.p + 20 }
  else if mem w.p = MPIOAPIC then
    { w with s := { w.s with ioapicid := mem (w.p + 1) }, p := w.p + 8 }
  else if mem w.p = MPBUS ∨ mem w.p = MPIOINTR ∨ mem w.p = MPLINTR then
    { w with p := w.p + 8 }
  else { w with ismp := false }

def walk (mem : Memory) (e : ℕ) : ℕ → Walk → Option Walk
  | 0, _ => none
  | fuel + 1, w => if w.p < e then walk mem e fuel (turn mem w) else some w

inductive Outcome
  | done (s : State)
  | panic (msg : String)

/-- Where the walk through the table at `conf` begins and ends. -/
def first (conf : ℕ) : ℕ := conf + MPCONF
def last (mem : Memory) (conf : ℕ) : ℕ := conf + length mem conf

def Walk.start (mem : Memory) (conf : ℕ) (s : State) : Walk :=
  ⟨Mp.first conf, true, { s with lapic := lapicaddr mem conf }⟩

/-- `inb` is what the port 0x23 gives. -/
def mpinit (mem : Memory) (inb : UInt8) (fuel : ℕ) (s : State) : Option Outcome :=
  match mpconfig mem with
  | none => some (.panic "Expect to run on an SMP")
  | some (mp, conf) =>
    match walk mem (last mem conf) fuel (.start mem conf s) with
    | none => none
    | some w =>
      if w.ismp = false then some (.panic "Didn't find a suitable machine")
      else if imcrp mem mp ≠ 0 then
        some (.done { w.s with outb := w.s.outb ++ [(0x22, 0x70), (0x23, inb ||| 1)] })
      else some (.done w.s)

/-! ### Entries -/

def Known (t : UInt8) : Prop :=
  t = MPPROC ∨ t = MPBUS ∨ t = MPIOAPIC ∨ t = MPIOINTR ∨ t = MPLINTR

/-- The size of an entry of a type that is known. -/
def size (t : UInt8) : ℕ := if t = MPPROC then 20 else 8

/-- The entries stand one behind the other; behind one of a type that is not known there is no
telling where the next begins. -/
inductive EntryAt (mem : Memory) (conf : ℕ) : ℕ → Prop
  | first (h : first conf < last mem conf) : EntryAt mem conf (first conf)
  | next {p : ℕ} (hp : EntryAt mem conf p) (hk : Known (mem p))
      (h : p + size (mem p) < last mem conf) : EntryAt mem conf (p + size (mem p))

/-- `mpinit` ends, does not register more than `NCPU` processors on the way, and panics if
there is an entry of another type. -/
def Discovers (mem : Memory) (conf : ℕ) (inb : UInt8) (s : State) : Prop :=
  (∃ fuel r, mpinit mem inb fuel s = some r) ∧
  (∀ k, ((turn mem)^[k] (.start mem conf s)).s.ncpu ≤ NCPU) ∧
  ((∃ p, EntryAt mem conf p ∧ ¬Known (mem p)) →
    ∃ fuel, mpinit mem inb fuel s = some (.panic "Didn't find a suitable machine"))

variable {mem : Memory} {w : Walk}

theorem turn_of_known (h : Known (mem w.p)) : (turn mem w).p = w.p + size (mem w.p) := by
  rw [turn, size]
  by_cases hproc : mem w.p = MPPROC
  · simp only [if_pos hproc]
  by_cases hapic : mem w.p = MPIOAPIC
  · simp only [if_neg hproc, if_pos hapic]
  have hrest : mem w.p = MPBUS ∨ mem w.p = MPIOINTR ∨ mem w.p = MPLINTR := by
    simpa [Known, hproc, hapic] using h
  simp only [if_neg hproc, if_neg hapic, if_pos hrest]

/-- An entry of another type is looked at again. -/
theorem turn_of_not_known (h : ¬Known (mem w.p)) : (turn mem w).p = w.p := by
  simp only [Known, not_or] at h
  obtain ⟨hproc, hbus, hapic, hint, hlint⟩ := h
  rw [turn, if_neg hproc, if_neg hapic, if_neg (by simp [hbus, hint, hlint])]

theorem turn_ncpu (h : w.s.ncpu ≤ NCPU) : (turn mem w).s.ncpu ≤ NCPU := by
  rw [turn]
  split
  · rw [State.register]
    split
    · assumption
    · exact h
  · split
    · exact h
    · split
      · exact h
      · exact h

theorem iterate_turn_ncpu (h : w.s.ncpu ≤ NCPU) (k : ℕ) : ((turn mem)^[k] w).s.ncpu ≤ NCPU := by
  induction k with
  | zero => exact h
  | succ k ih =>
    rw [iterate_succ_apply']
    exact turn_ncpu ih

theorem size_pos (t : UInt8) : 0 < size t := by
  rw [size]
  split <;> decide

theorem EntryAt.lt_last {conf p : ℕ} (h : EntryAt mem conf p) : p < last mem conf := by
  cases h with
  | first h => exact h
  | next _ _ h => exact h

variable {mem : Memory}

/-- Where all the entries are known, the walk goes from entry to entry until it is past the
end. -/
theorem walk_ends {conf : ℕ} (hk : ∀ p, EntryAt mem conf p → Known (mem p)) {fuel : ℕ} {w : Walk}
    (hw : w.p < last mem conf → EntryAt mem conf w.p) (hfuel : last mem conf - w.p < fuel) :
    ∃ w', walk mem (last mem conf) fuel w = some w' := by
  induction fuel generalizing w with
  | zero => omega
  | succ fuel ih =>
    rw [walk]
    by_cases hlt : w.p < last mem conf
    · rw [if_pos hlt]
      have hat := hw hlt
      have hp := turn_of_known (hk _ hat)
      have hpos := size_pos (mem w.p)
      exact ih (fun h => by rw [hp] at h ⊢; exact hat.next (hk _ hat) h) (by omega)
    · rw [if_neg hlt]
      exact ⟨w, rfl⟩

/-- A walk that comes to an entry of another type stays there. -/
theorem walk_stays {conf q : ℕ} (hq : EntryAt mem conf q) (hk : ¬Known (mem q)) (fuel : ℕ)
    {w : Walk} (hw : w.p = q) : walk mem (last mem conf) fuel w = none := by
  induction fuel generalizing w with
  | zero => rfl
  | succ fuel ih =>
    subst hw
    rw [walk, if_pos hq.lt_last]
    exact ih (turn_of_not_known hk)

/-- Every walk comes to each entry: if none ends from there, none ends at all. -/
theorem walk_reaches {conf q : ℕ} (hq : EntryAt mem conf q)
    (hstay : ∀ fuel w, w.p = q → walk mem (last mem conf) fuel w = none) (fuel : ℕ) {w : Walk}
    (hw : w.p = first conf) : walk mem (last mem conf) fuel w = none := by
  induction hq generalizing fuel w with
  | first _ => exact hstay fuel w hw
  | @next p hp hk h ih =>
    refine ih (fun fuel w hwp => ?_) fuel hw
    cases fuel with
    | zero => rfl
    | succ fuel =>
      subst hwp
      rw [walk, if_pos hp.lt_last]
      exact hstay fuel _ (turn_of_known hk)

/-- **`mpinit` does what it should on a table that it accepts if and only if every entry of the
table is of a type that it knows.** -/
theorem discovers_iff {mem : Memory} {mp conf : ℕ} (hconf : mpconfig mem = some (mp, conf))
    (inb : UInt8) {s : State} (hs : s.ncpu ≤ NCPU) :
    Discovers mem conf inb s ↔ ∀ p, EntryAt mem conf p → Known (mem p) := by
  constructor
  · rintro ⟨⟨fuel, r, hrun⟩, -, -⟩ p hp
    by_contra hk
    have hnone := walk_reaches hp (fun fuel w => walk_stays hp hk fuel) fuel
      (w := .start mem conf s) rfl
    rw [mpinit, hconf] at hrun
    simp only [hnone, reduceCtorEq] at hrun
  · intro hk
    refine ⟨?_, iterate_turn_ncpu hs, fun ⟨p, hp, hn⟩ => absurd (hk p hp) hn⟩
    obtain ⟨w, hw⟩ : ∃ w, walk mem (last mem conf) (last mem conf - first conf + 1)
        (.start mem conf s) = some w :=
      walk_ends hk (fun h => .first h) (Nat.lt_succ_self _)
    refine ⟨last mem conf - first conf + 1, ?_⟩
    rw [mpinit, hconf]
    simp only [hw]
    split
    · exact ⟨_, rfl⟩
    · split
      · exact ⟨_, rfl⟩
      · exact ⟨_, rfl⟩

/-- A firmware that leaves a table with these entries. -/
def firmware (checksum : UInt8) (entries : List UInt8) : Memory := fun a =>
  let mp : List UInt8 := mpSignature ++ [0, 0xFD, 9, 0, 1, 4, 154, 0, 0, 0, 0, 0]
  let conf : List UInt8 := confSignature ++ [44 + .ofNat entries.length, 0, 4, checksum] ++
    List.replicate 28 0 ++ [0, 0, 0xE0, 0xFE, 0, 0, 0, 0] ++ entries
  if a = P2V 0x40E then 0xC0
  else if a = P2V 0x40F then 0x9F
  else if a < P2V 0x9FD00 then mp.getD (a - P2V 0x9FC00) 0
  else conf.getD (a - P2V 0x9FD00) 0

def boot : State := ⟨0, fun _ => 0, 0, 0, []⟩

/-- One processor, with the id 3. -/
def oneProcessor : Memory := firmware 171 (0 :: 3 :: List.replicate 18 0)

theorem discovers_one :
    mpconfig oneProcessor = some (P2V 0x9FC00, P2V 0x9FD00) ∧
      Discovers oneProcessor (P2V 0x9FD00) 0 boot := by
  have hconf : mpconfig oneProcessor = some (P2V 0x9FC00, P2V 0x9FD00) := by decide +kernel
  refine ⟨hconf, (discovers_iff hconf 0 (by decide)).mpr fun p hp => ?_⟩
  have hp : p = first (P2V 0x9FD00) := by
    induction hp with
    | first _ => rfl
    | next _ _ h ih =>
      subst ih
      exact absurd h (by decide +kernel)
  rw [hp]
  exact .inl (by decide +kernel)

/-- An entry of type 5. -/
def otherEntry : Memory := firmware 181 (5 :: List.replicate 7 0)

/-- The table is accepted, its one entry is of another type, and `mpinit` does not end. -/
theorem other_entry_hangs :
    mpconfig otherEntry = some (P2V 0x9FC00, P2V 0x9FD00) ∧
      EntryAt otherEntry (P2V 0x9FD00) (first (P2V 0x9FD00)) ∧
      ¬Known (otherEntry (first (P2V 0x9FD00))) ∧
      ∀ fuel, mpinit otherEntry 0 fuel boot = none := by
  have hconf : mpconfig otherEntry = some (P2V 0x9FC00, P2V 0x9FD00) := by decide +kernel
  have hat : EntryAt otherEntry (P2V 0x9FD00) (first (P2V 0x9FD00)) :=
    .first (by decide +kernel)
  have hk : ¬Known (otherEntry (first (P2V 0x9FD00))) := by
    rw [Known]
    decide +kernel
  refine ⟨hconf, hat, hk, fun fuel => ?_⟩
  rw [mpinit, hconf]
  simp only [walk_stays hat hk fuel (w := .start otherEntry (P2V 0x9FD00) boot) rfl]

end Xv6.Mp
