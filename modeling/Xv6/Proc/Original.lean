import Mathlib.Logic.Function.Iterate
import Xv6.Proc.RoundRobin

/-!
# The scheduler and `scheduler_original`

Both are the same loop around a choice of the next process, the writes before
`swtch` and the work after it. The loop is modelled once, over a `Scheduler`,
and run against a behaviour: what the dispatched process, and between two
passes the rest of the kernel, does to the table. The two schedulers keep
different accounts, so a behaviour is the same for both when it does the same to
the fields that `scheduler_original` shares.
-/

namespace Xv6

/-- What distinguishes the two schedulers. -/
structure Scheduler where
  /-- the slot to run, found from an index on -/
  choose : Ptable → ℕ → Option Slot
  /-- the writes before `swtch` -/
  switch : Proc → Proc
  /-- the work after `swtch` came back -/
  back : Ptable → Slot → Ptable

/-- `scheduler`. -/
def scheduler : Scheduler where
  choose := select
  switch := Proc.dispatch
  back := Ptable.account

/-- `scheduler_original`. -/
def schedulerOriginal : Scheduler where
  choose := firstRunnable
  switch q := { q with state := .running }
  back t _ := t

inductive Event where
  | dispatch (p : Slot)
  /-- `switchuvm` panics -/
  | panic
  /-- `ptable.lock` is released at the end of a pass -/
  | passEnd
  deriving DecidableEq, Repr

/-- A scheduler about to look at slot `next`. -/
structure Config where
  table : Ptable
  next : ℕ
  trace : List Event
  halted : Bool

/-- What happens to the table after an event, given the events so far. -/
abbrev Behaviour := List Event → Ptable → Ptable

/-- From one selection to the next: a dispatched process runs until it switches
back, and after a pass the lock is free until the next one. -/
def Scheduler.pass (S : Scheduler) (b : Behaviour) (x : Config) : Config :=
  if x.halted then x
  else match S.choose x.table x.next with
    | none => ⟨b (.passEnd :: x.trace) x.table, 0, .passEnd :: x.trace, false⟩
    | some p =>
      if (x.table p).kstack = 0 ∨ (x.table p).pgdir = 0 then
        ⟨x.table, x.next, .panic :: x.trace, true⟩
      else
        ⟨S.back (b (.dispatch p :: x.trace) (x.table.modify p S.switch)) p, p.val + 1,
          .dispatch p :: x.trace, false⟩

/-- The scheduler on the table `t` after `n` selections. -/
def Scheduler.run (S : Scheduler) (b : Behaviour) (t : Ptable) (n : ℕ) : Config :=
  (S.pass b)^[n] ⟨t, 0, [], false⟩

section

variable {ncpu : ℕ} {s s' : State ncpu} {c : Fin ncpu} {i : ℕ}

/-- A selection of the kernel is a choice of `scheduler`. -/
theorem select_step_pass (h : Inv s) (hs : step s (.select c i) = some s') :
    match scheduler.choose s.proc i with
    | none => s'.proc = s.proc ∧ (s'.cpu c).pc = .idle ∧ s'.lock = none
    | some p => s'.proc = s.proc.modify p scheduler.switch ∧ (s'.cpu c).pc = .swtch p := by
  cases hsel : scheduler.choose s.proc i with
  | none =>
    obtain ⟨-, rfl⟩ := step_eq_some_iff.mp hs
    have hsel : select s.proc i = none := hsel
    simp only [apply, State.select, hsel]
    exact ⟨rfl, by simp, rfl⟩
  | some p =>
    have hd : dispatched s (.select c i) = some (c, p) := dispatched_eq_some_iff.mpr ⟨i, rfl, hsel⟩
    obtain ⟨-, -, rfl⟩ := dispatch_step h hs hd
    exact ⟨rfl, by simp⟩

/-- Its accounting is the work of `scheduler` after `swtch`. -/
theorem account_step_pass {p : Slot} (hs : step s (.account c p) = some s') :
    s'.proc = scheduler.back s.proc p ∧ (s'.cpu c).pc = .scan (p.val + 1) := by
  obtain ⟨-, rfl⟩ := step_eq_some_iff.mp hs
  exact ⟨rfl, by simp [apply, State.account]⟩

end

/-- The fields of a process without those that only `scheduler` keeps. -/
def Proc.shared (q : Proc) : Proc :=
  { q with
    priority := 0
    ctime := 0
    stime := 0
    retime := 0
    rutime := 0
    time_slice := 0
    queue_time := 0 }

/-- The tables agree on what both schedulers keep. -/
def Agree (t t' : Ptable) : Prop := ∀ i, (t i).shared = (t' i).shared

/-- The behaviours do the same to what both schedulers keep. -/
def SameBehaviour (b b' : Behaviour) : Prop :=
  ∀ h t t', Agree t t' → Agree (b h t) (b' h t')

/-- All `RUNNABLE` slots have one priority. -/
def OnePriority (t : Ptable) : Prop :=
  ∀ p q, (t p).state = .runnable → (t q).state = .runnable → (t p).priority = (t q).priority

instance (t : Ptable) : Decidable (OnePriority t) :=
  inferInstanceAs (Decidable (∀ p q, (t p).state = .runnable → (t q).state = .runnable →
    (t p).priority = (t q).priority))

section

variable {t t' : Ptable} {i : ℕ} {p : Slot}

theorem OnePriority.select_eq (h : OnePriority t) : select t i = firstRunnable t i := by
  apply FirstHighest.select_eq
  intro p hp q hq
  rw [h q p hq (firstRunnable_eq_some_iff.mp hp).1.2]
  exact Int32.le_refl _

theorem Agree.state (h : Agree t t') (p : Slot) : (t p).state = (t' p).state := by
  have hp := congrArg Proc.state (h p)
  exact hp

theorem Agree.firstRunnable_eq (h : Agree t t') : firstRunnable t i = firstRunnable t' i := by
  unfold firstRunnable
  congr 1
  funext p
  rw [h.state p]

theorem Agree.no_memory_iff (h : Agree t t') :
    ((t p).kstack = 0 ∨ (t p).pgdir = 0) ↔ ((t' p).kstack = 0 ∨ (t' p).pgdir = 0) := by
  have hk := congrArg Proc.kstack (h p)
  have hd := congrArg Proc.pgdir (h p)
  change (t p).kstack = (t' p).kstack at hk
  change (t p).pgdir = (t' p).pgdir at hd
  rw [hk, hd]

theorem Agree.modify {f g : Proc → Proc} (h : Agree t t')
    (hfg : ∀ q q' : Proc, q.shared = q'.shared → (f q).shared = (g q').shared) :
    Agree (t.modify p f) (t'.modify p g) := by
  intro j
  by_cases hj : j = p
  · subst hj
    rw [Ptable.modify_self, Ptable.modify_self]
    exact hfg _ _ (h j)
  · rw [Ptable.modify_of_ne _ _ hj, Ptable.modify_of_ne _ _ hj]
    exact h j

theorem shared_setState {q q' : Proc} (h : q.shared = q'.shared) (x : ProcState) :
    { q with state := x }.shared = { q' with state := x }.shared :=
  congrArg (fun q : Proc => { q with state := x }) h

theorem Agree.switch (h : Agree t t') :
    Agree (t.modify p scheduler.switch) (t'.modify p schedulerOriginal.switch) :=
  h.modify fun _ _ hq => shared_setState hq .running

theorem Agree.back (h : Agree t t') : Agree (scheduler.back t p) (schedulerOriginal.back t' p) :=
  fun j => h j

end

/-- The two schedulers have done the same so far. -/
structure Config.Agree (x y : Config) : Prop where
  table : Xv6.Agree x.table y.table
  next : x.next = y.next
  trace : x.trace = y.trace
  halted : x.halted = y.halted

theorem Config.Agree.pass {x y : Config} {b b' : Behaviour} (hb : SameBehaviour b b')
    (h : x.Agree y) (hone : OnePriority x.table) :
    (scheduler.pass b x).Agree (schedulerOriginal.pass b' y) := by
  unfold Scheduler.pass
  rw [← h.halted]
  by_cases hh : x.halted = true
  · rw [if_pos hh, if_pos hh]
    exact h
  have hchoose : scheduler.choose x.table x.next = schedulerOriginal.choose y.table x.next :=
    hone.select_eq.trans h.table.firstRunnable_eq
  rw [if_neg hh, if_neg hh, hchoose, ← h.trace, ← h.next]
  cases schedulerOriginal.choose y.table x.next with
  | none => exact ⟨hb _ _ _ h.table, rfl, rfl, rfl⟩
  | some p =>
    simp only [h.table.no_memory_iff]
    split
    · exact ⟨h.table, rfl, rfl, rfl⟩
    · exact ⟨(hb _ _ _ h.table.switch).back, rfl, rfl, rfl⟩

/-- The new scheduler extends the old one: as long as all `RUNNABLE` slots have
one priority at every selection, the two dispatch the same slots and end their
passes at the same points. -/
theorem scheduler_extends_original {b b' : Behaviour} (hb : SameBehaviour b b') (t : Ptable)
    (n : ℕ) (hone : ∀ m < n, OnePriority (scheduler.run b t m).table) :
    (scheduler.run b t n).trace = (schedulerOriginal.run b' t n).trace := by
  have hagree : ∀ m ≤ n, (scheduler.run b t m).Agree (schedulerOriginal.run b' t m) := by
    intro m hm
    induction m with
    | zero => exact ⟨fun _ => rfl, rfl, rfl, rfl⟩
    | succ m ih =>
      unfold Scheduler.run
      rw [Function.iterate_succ_apply', Function.iterate_succ_apply']
      exact (ih (by omega)).pass hb (hone m (by omega))
  exact (hagree n le_rfl).trace

/-- Every dispatched process yields at once. -/
def yielding : Behaviour
  | .dispatch p :: _, t => t.modify p fun q => { q with state := .runnable }
  | _, t => t

theorem sameBehaviour_yielding : SameBehaviour yielding yielding := by
  intro h t t' hA
  cases h with
  | nil => exact hA
  | cons e h =>
    cases e with
    | dispatch p => exact hA.modify fun _ _ hq => shared_setState hq .runnable
    | panic | passEnd => exact hA

/-- Slots 3 and 7 are `RUNNABLE`. -/
def pairTable : Ptable := fun i =>
  if i = 3 ∨ i = 7 then { Proc.zero with state := .runnable, kstack := 4096, pgdir := 8192 }
  else Proc.zero

theorem scheduler_extends_original_pairTable :
    (scheduler.run yielding pairTable 4).trace =
      [.dispatch 3, .passEnd, .dispatch 7, .dispatch 3] := by
  rw [scheduler_extends_original sameBehaviour_yielding pairTable 4 (by decide +kernel)]
  decide +kernel

end Xv6
