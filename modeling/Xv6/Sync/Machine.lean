import Mathlib.Data.Set.Insert
import Mathlib.Logic.Function.Basic
import Mathlib.Tactic.Simps.Basic
import Xv6.Lib.Run
import Xv6.Proc.Defs

/-!
# Spin locks, sleep, wakeup and kill

`Xv6.Proc` takes a critical section under `ptable.lock` as one step. Here the
steps are those of the code around it: each `acquire` and each `release` is a
step, and `sleep` and `wakeup` are cut where they take and give back
`ptable.lock`. Any number of threads run the code of a client (a pipe, the log,
a sleep lock), each on a CPU of its own; the accesses to shared data that a
client makes between two lock operations are one step. A preempted thread is
one that takes no step. What `sched` does with the lock is as in the source: it
is handed to the scheduler, which dispatches `RUNNABLE` threads with the lock
held or gives it back.
-/

namespace Xv6.Sync

open Function

/-- A spin lock: `ptable.lock` or one of the client's. -/
inductive Lock (Λ : Type) where
  | ptable
  | spin (l : Λ)
  deriving DecidableEq

/-- Who holds a spin lock. The scheduler, on whichever CPU, only holds `ptable.lock`. -/
inductive Holder (P : Type) where
  | proc (p : P)
  | scheduler
  deriving DecidableEq

/-- The fields of `struct proc` that `sleep`, `wakeup` and `kill` use. -/
@[ext]
structure Entry (C : Type) where
  state : ProcState
  chan : Option C
  killed : Bool
  deriving DecidableEq

/-- What runs under `ptable.lock` in `wakeup` and in `kill`. -/
inductive Update (P C : Type) where
  | wakeup1 (chan : C)
  | kill (q : P)
  deriving DecidableEq

section

variable {P C : Type} [DecidableEq P] [DecidableEq C]

def wakeup1 (t : P → Entry C) (chan : C) (p : P) : Entry C :=
  if (t p).state = .sleeping ∧ (t p).chan = some chan then { t p with state := .runnable } else t p

def kill (t : P → Entry C) (q : P) : P → Entry C :=
  update t q
    { t q with
      killed := true
      state := if (t q).state = .sleeping then .runnable else (t q).state }

def Update.apply (t : P → Entry C) : Update P C → P → Entry C
  | .wakeup1 chan => Sync.wakeup1 t chan
  | .kill q => Sync.kill t q

end

/-- One step of a client's code at a local state. `access` reads and writes the
shared data, `killed` reads `myproc()->killed`. -/
inductive Op (P Λ C σ L : Type) where
  | acquire (lk : Lock Λ) (next : L)
  | release (lk : Lock Λ) (next : L)
  | access (f : σ → σ × L)
  | killed (yes no : L)
  | update (u : Update P C) (next : L)
  | sleep (chan : C) (lk : Lock Λ) (next : L)

variable {P Λ C σ L ι : Type}

/-- `wakeup(chan)` -/
@[match_pattern] abbrev Op.wakeup (chan : C) (next : L) : Op P Λ C σ L :=
  .update (.wakeup1 chan) next

/-- `kill(q->pid)` -/
@[match_pattern] abbrev Op.kill (q : P) (next : L) : Op P Λ C σ L := .update (.kill q) next

/-- Where a thread stands: in its own code; in `sleep`, before `release(lk)`,
before it sets `chan` and `state`, inside `sched`, before it gives back
`ptable.lock` and before it takes `lk` again; or in `wakeup` and `kill`, before
the scan of the table and before the release. -/
inductive Pc (P Λ C L : Type) where
  | run (l : L)
  | sleepRelease (chan : C) (l : Λ) (next : L)
  | sleepSet (chan : C) (lk : Lock Λ) (next : L)
  | sched (chan : C) (lk : Lock Λ) (next : L)
  | sleepUnlock (l : Λ) (next : L)
  | sleepReacquire (l : Λ) (next : L)
  | update (u : Update P C) (next : L)
  | unlock (next : L)

/-- The local state a thread is at, or gets to when it returns from `sleep`,
`wakeup` or `kill`. -/
def Pc.loc : Pc P Λ C L → L
  | .run l => l
  | .sleepRelease _ _ next | .sleepSet _ _ next | .sched _ _ next | .sleepUnlock _ next
  | .sleepReacquire _ next | .update _ next | .unlock next => next

structure State (P Λ C σ L : Type) where
  lock : Lock Λ → Option (Holder P)
  proc : P → Entry C
  pc : P → Pc P Λ C L
  data : σ

/-- Everybody runs, at the local state `l`. -/
def State.init (l : L) (d : σ) : State P Λ C σ L where
  lock _ := none
  proc _ := ⟨.running, none, false⟩
  pc _ := .run l
  data := d

/-- A step of a thread (`x` is what comes from outside: the next call it makes, an
argument), or of the scheduler. -/
inductive Action (P ι : Type) where
  | step (p : P) (x : ι)
  | acquire
  | release
  | dispatch (p : P)
  deriving DecidableEq

instance : Inhabited (Action P ι) := ⟨.acquire⟩

section Step

variable [DecidableEq P] [DecidableEq Λ] [DecidableEq C]

namespace State

@[simps -fullyApplied]
def setPc (s : State P Λ C σ L) (p : P) (c : Pc P Λ C L) : State P Λ C σ L :=
  { s with pc := update s.pc p c }

@[simps -fullyApplied]
def setLock (s : State P Λ C σ L) (lk : Lock Λ) (h : Option (Holder P)) : State P Λ C σ L :=
  { s with lock := update s.lock lk h }

@[simps -fullyApplied]
def setProc (s : State P Λ C σ L) (p : P) (e : Entry C) : State P Λ C σ L :=
  { s with proc := update s.proc p e }

/-- `acquire(lk)`: spins until the lock is free. -/
def acquire (s : State P Λ C σ L) (p : P) (lk : Lock Λ) (c : Pc P Λ C L) :
    Option (State P Λ C σ L) :=
  if s.lock lk = none then some ((s.setLock lk (some (.proc p))).setPc p c) else none

/-- `release(lk)`: panics unless the caller holds the lock. -/
def release (s : State P Λ C σ L) (p : P) (lk : Lock Λ) (c : Pc P Λ C L) :
    Option (State P Λ C σ L) :=
  if s.lock lk = some (.proc p) then some ((s.setLock lk none).setPc p c) else none

def exec (s : State P Λ C σ L) (p : P) : Op P Λ C σ L → Option (State P Λ C σ L)
  | .acquire lk next => s.acquire p lk (.run next)
  | .release lk next => s.release p lk (.run next)
  | .access f => some { s.setPc p (.run (f s.data).2) with data := (f s.data).1 }
  | .killed yes no => some (s.setPc p (.run (if (s.proc p).killed then yes else no)))
  | .update u next => s.acquire p .ptable (.update u next)
  | .sleep chan (.spin l) next => s.acquire p .ptable (.sleepRelease chan l next)
  | .sleep chan .ptable next =>
    if s.lock .ptable = some (.proc p) then some (s.setPc p (.sleepSet chan .ptable next)) else none

/-- One step of thread `p`, whose own code is `code p`. -/
def stepProc (code : P → L → ι → Option (Op P Λ C σ L)) (s : State P Λ C σ L) (p : P) (x : ι) :
    Option (State P Λ C σ L) :=
  match s.pc p with
  | .run l => (code p l x).bind (s.exec p)
  | .sleepRelease chan l next => s.release p (.spin l) (.sleepSet chan (.spin l) next)
  | .sleepSet chan lk next =>
    -- `sched` switches to the scheduler, which goes on with the lock held
    some (((s.setProc p { s.proc p with chan := some chan, state := .sleeping }).setLock .ptable
      (some .scheduler)).setPc p (.sched chan lk next))
  | .sched _ lk next =>
    if s.lock .ptable = some (.proc p) then
      some ((s.setProc p { s.proc p with chan := none }).setPc p
        (match lk with
        | .ptable => .run next
        | .spin l => .sleepUnlock l next))
    else none
  | .sleepUnlock l next => s.release p .ptable (.sleepReacquire l next)
  | .sleepReacquire l next => s.acquire p (.spin l) (.run next)
  | .update u next => some ({ s with proc := u.apply s.proc }.setPc p (.unlock next))
  | .unlock next => s.release p .ptable (.run next)

/-- `swtch` to `p`: the lock goes with it. -/
def dispatch (s : State P Λ C σ L) (p : P) : State P Λ C σ L :=
  (s.setProc p { s.proc p with state := .running }).setLock .ptable (some (.proc p))

end State

def step (code : P → L → ι → Option (Op P Λ C σ L)) (s : State P Λ C σ L) :
    Action P ι → Option (State P Λ C σ L)
  | .step p x => s.stepProc code p x
  | .acquire => if s.lock .ptable = none then some (s.setLock .ptable (some .scheduler)) else none
  | .release => if s.lock .ptable = some .scheduler then some (s.setLock .ptable none) else none
  | .dispatch p =>
    if s.lock .ptable = some .scheduler ∧ (s.proc p).state = .runnable then some (s.dispatch p)
    else none

/-- The states that threads with the given code reach from local state `l` and data `d`. -/
inductive Reachable (code : P → L → ι → Option (Op P Λ C σ L)) (l : L) (d : σ) :
    State P Λ C σ L → Prop where
  | init : Reachable code l d (State.init l d)
  | step {s s' a} (h : Reachable code l d s) (hs : step code s a = some s') : Reachable code l d s'

/-- The steps, one constructor for each branch of `step`. -/
inductive StepCase (code : P → L → ι → Option (Op P Λ C σ L)) (s : State P Λ C σ L) :
    Action P ι → State P Λ C σ L → Prop where
  | acquire {p x l lk next} (hpc : s.pc p = .run l) (hop : code p l x = some (.acquire lk next))
      (hlk : s.lock lk = none) :
      StepCase code s (.step p x) ((s.setLock lk (some (.proc p))).setPc p (.run next))
  | release {p x l lk next} (hpc : s.pc p = .run l) (hop : code p l x = some (.release lk next))
      (hlk : s.lock lk = some (.proc p)) :
      StepCase code s (.step p x) ((s.setLock lk none).setPc p (.run next))
  | access {p x l f} (hpc : s.pc p = .run l) (hop : code p l x = some (.access f)) :
      StepCase code s (.step p x) { s.setPc p (.run (f s.data).2) with data := (f s.data).1 }
  | killed {p x l yes no} (hpc : s.pc p = .run l) (hop : code p l x = some (.killed yes no)) :
      StepCase code s (.step p x) (s.setPc p (.run (if (s.proc p).killed then yes else no)))
  | enterUpdate {p x l u next} (hpc : s.pc p = .run l) (hop : code p l x = some (.update u next))
      (hlk : s.lock .ptable = none) :
      StepCase code s (.step p x)
        ((s.setLock .ptable (some (.proc p))).setPc p (.update u next))
  | enterSleep {p x l chan l' next} (hpc : s.pc p = .run l)
      (hop : code p l x = some (.sleep chan (.spin l') next)) (hlk : s.lock .ptable = none) :
      StepCase code s (.step p x)
        ((s.setLock .ptable (some (.proc p))).setPc p (.sleepRelease chan l' next))
  | enterSleepHeld {p x l chan next} (hpc : s.pc p = .run l)
      (hop : code p l x = some (.sleep chan .ptable next))
      (hlk : s.lock .ptable = some (.proc p)) :
      StepCase code s (.step p x) (s.setPc p (.sleepSet chan .ptable next))
  | sleepRelease {p x chan l next} (hpc : s.pc p = .sleepRelease chan l next)
      (hlk : s.lock (.spin l) = some (.proc p)) :
      StepCase code s (.step p x)
        ((s.setLock (.spin l) none).setPc p (.sleepSet chan (.spin l) next))
  | sleepSet {p x chan lk next} (hpc : s.pc p = .sleepSet chan lk next) :
      StepCase code s (.step p x)
        (((s.setProc p { s.proc p with chan := some chan, state := .sleeping }).setLock .ptable
          (some .scheduler)).setPc p (.sched chan lk next))
  | wakeHeld {p x chan next} (hpc : s.pc p = .sched chan .ptable next)
      (hlk : s.lock .ptable = some (.proc p)) :
      StepCase code s (.step p x)
        ((s.setProc p { s.proc p with chan := none }).setPc p (.run next))
  | wake {p x chan l next} (hpc : s.pc p = .sched chan (.spin l) next)
      (hlk : s.lock .ptable = some (.proc p)) :
      StepCase code s (.step p x)
        ((s.setProc p { s.proc p with chan := none }).setPc p (.sleepUnlock l next))
  | sleepUnlock {p x l next} (hpc : s.pc p = .sleepUnlock l next)
      (hlk : s.lock .ptable = some (.proc p)) :
      StepCase code s (.step p x) ((s.setLock .ptable none).setPc p (.sleepReacquire l next))
  | sleepReacquire {p x l next} (hpc : s.pc p = .sleepReacquire l next)
      (hlk : s.lock (.spin l) = none) :
      StepCase code s (.step p x) ((s.setLock (.spin l) (some (.proc p))).setPc p (.run next))
  | update {p x u next} (hpc : s.pc p = .update u next) :
      StepCase code s (.step p x) ({ s with proc := u.apply s.proc }.setPc p (.unlock next))
  | unlock {p x next} (hpc : s.pc p = .unlock next) (hlk : s.lock .ptable = some (.proc p)) :
      StepCase code s (.step p x) ((s.setLock .ptable none).setPc p (.run next))
  | schedAcquire (hlk : s.lock .ptable = none) :
      StepCase code s .acquire (s.setLock .ptable (some .scheduler))
  | schedRelease (hlk : s.lock .ptable = some .scheduler) :
      StepCase code s .release (s.setLock .ptable none)
  | dispatch {p} (hlk : s.lock .ptable = some .scheduler) (hp : (s.proc p).state = .runnable) :
      StepCase code s (.dispatch p) (s.dispatch p)

variable {code : P → L → ι → Option (Op P Λ C σ L)} {s s' : State P Λ C σ L} {a : Action P ι}
  {p q : P}

omit [DecidableEq C] in
theorem State.acquire_eq_some {lk : Lock Λ} {c : Pc P Λ C L} (h : s.acquire p lk c = some s') :
    s.lock lk = none ∧ s' = (s.setLock lk (some (.proc p))).setPc p c := by
  unfold State.acquire at h
  split at h
  · next hlk => exact ⟨hlk, (Option.some.inj h).symm⟩
  · simp at h

omit [DecidableEq C] in
theorem State.release_eq_some {lk : Lock Λ} {c : Pc P Λ C L} (h : s.release p lk c = some s') :
    s.lock lk = some (.proc p) ∧ s' = (s.setLock lk none).setPc p c := by
  unfold State.release at h
  split at h
  · next hlk => exact ⟨hlk, (Option.some.inj h).symm⟩
  · simp at h

theorem StepCase.of_exec {x : ι} {l : L} {op : Op P Λ C σ L} (hpc : s.pc p = .run l)
    (hop : code p l x = some op) (h : s.exec p op = some s') : StepCase code s (.step p x) s' := by
  cases op with
  | acquire lk next =>
    obtain ⟨hlk, rfl⟩ := State.acquire_eq_some h
    exact .acquire hpc hop hlk
  | release lk next =>
    obtain ⟨hlk, rfl⟩ := State.release_eq_some h
    exact .release hpc hop hlk
  | access f =>
    cases h
    exact .access hpc hop
  | killed yes no =>
    cases h
    exact .killed hpc hop
  | update u next =>
    obtain ⟨hlk, rfl⟩ := State.acquire_eq_some h
    exact .enterUpdate hpc hop hlk
  | sleep chan lk next =>
    cases lk with
    | spin l' =>
      obtain ⟨hlk, rfl⟩ := State.acquire_eq_some h
      exact .enterSleep hpc hop hlk
    | ptable =>
      simp only [State.exec, Option.ite_none_right_eq_some, Option.some.injEq] at h
      obtain ⟨hlk, rfl⟩ := h
      exact .enterSleepHeld hpc hop hlk

theorem step_cases (h : step code s a = some s') : StepCase code s a s' := by
  cases a with
  | step p x =>
    simp only [step, State.stepProc] at h
    cases hpc : s.pc p with
    | run l =>
      simp only [hpc] at h
      obtain ⟨op, hop, hex⟩ := Option.bind_eq_some_iff.mp h
      exact .of_exec hpc hop hex
    | sleepRelease chan l next =>
      simp only [hpc] at h
      obtain ⟨hlk, rfl⟩ := State.release_eq_some h
      exact .sleepRelease hpc hlk
    | sleepSet chan lk next =>
      simp only [hpc, Option.some.injEq] at h
      subst h
      exact .sleepSet hpc
    | sched chan lk next =>
      simp only [hpc, Option.ite_none_right_eq_some, Option.some.injEq] at h
      obtain ⟨hlk, rfl⟩ := h
      cases lk with
      | ptable => exact .wakeHeld hpc hlk
      | spin l => exact .wake hpc hlk
    | sleepUnlock l next =>
      simp only [hpc] at h
      obtain ⟨hlk, rfl⟩ := State.release_eq_some h
      exact .sleepUnlock hpc hlk
    | sleepReacquire l next =>
      simp only [hpc] at h
      obtain ⟨hlk, rfl⟩ := State.acquire_eq_some h
      exact .sleepReacquire hpc hlk
    | update u next =>
      simp only [hpc, Option.some.injEq] at h
      subst h
      exact .update hpc
    | unlock next =>
      simp only [hpc] at h
      obtain ⟨hlk, rfl⟩ := State.release_eq_some h
      exact .unlock hpc hlk
  | acquire =>
    simp only [step, Option.ite_none_right_eq_some, Option.some.injEq] at h
    obtain ⟨hlk, rfl⟩ := h
    exact .schedAcquire hlk
  | release =>
    simp only [step, Option.ite_none_right_eq_some, Option.some.injEq] at h
    obtain ⟨hlk, rfl⟩ := h
    exact .schedRelease hlk
  | dispatch p =>
    simp only [step, Option.ite_none_right_eq_some, Option.some.injEq] at h
    obtain ⟨⟨hlk, hp⟩, rfl⟩ := h
    exact .dispatch hlk hp

end Step

/-! ### Which thread holds which lock -/

/-- What an operation does to the locks that, by `holds`, the code has taken. -/
def Op.Guards (holds : L → Set (Lock Λ)) (l : L) : Op P Λ C σ L → Prop
  | .acquire lk next => holds next = insert lk (holds l)
  | .release lk next => lk ∈ holds l ∧ holds next = holds l \ {lk}
  | .access f => ∀ d, holds (f d).2 = holds l
  | .killed yes no => holds yes = holds l ∧ holds no = holds l
  | .update _ next => holds next = holds l
  | .sleep _ lk next => lk ∈ holds l ∧ holds next = holds l

/-- `holds` says at every local state which locks the code has taken there. -/
def Guarded (code : P → L → ι → Option (Op P Λ C σ L)) (holds : L → Set (Lock Λ)) : Prop :=
  ∀ p l x op, code p l x = some op → op.Guards holds l

/-- The locks of a thread, inside `sleep`, `wakeup` and `kill` as well. Inside `sched`
it has `ptable.lock` once it has been dispatched. -/
def Pc.held (holds : L → Set (Lock Λ)) (st : ProcState) : Pc P Λ C L → Set (Lock Λ)
  | .run l => holds l
  | .sleepRelease _ _ next | .update _ next | .unlock next => insert .ptable (holds next)
  | .sleepSet _ lk next => insert .ptable (holds next \ {lk})
  | .sched _ lk next =>
    {k | k = .ptable ∧ st = .running ∨ k ≠ .ptable ∧ k ∈ holds next \ {lk}}
  | .sleepUnlock l next => insert .ptable (holds next \ {.spin l})
  | .sleepReacquire l next => holds next \ {.spin l}

/-- `sleep` gets back the lock it was called with, and `ptable.lock` is not taken twice. -/
def Pc.Ok (holds : L → Set (Lock Λ)) : Pc P Λ C L → Prop
  | .run _ => True
  | .sleepRelease _ l next | .sleepUnlock l next | .sleepReacquire l next =>
    .spin l ∈ holds next ∧ .ptable ∉ holds next
  | .sleepSet _ lk next | .sched _ lk next => lk ∈ holds next ∧
      (.ptable ∈ holds next → lk = .ptable)
  | .update _ next | .unlock next => .ptable ∉ holds next

structure ThreadInv (holds : L → Set (Lock Λ)) (s : State P Λ C σ L) (p : P) : Prop where
  lock : ∀ k, s.lock k = some (.proc p) ↔ k ∈ (s.pc p).held holds (s.proc p).state
  ok : (s.pc p).Ok holds
  running : (∀ chan lk next, s.pc p ≠ .sched chan lk next) → (s.proc p).state = .running
  sched : ∀ chan lk next, s.pc p = .sched chan lk next → (s.proc p).chan = some chan

def Inv (holds : L → Set (Lock Λ)) (s : State P Λ C σ L) : Prop := ∀ p, ThreadInv holds s p

section Invariant

variable {holds : L → Set (Lock Λ)} {s s' : State P Λ C σ L} {p q : P} {c : Pc P Λ C L}

theorem Inv.eq_of_held (h : Inv holds s) {k : Lock Λ}
    (hp : k ∈ (s.pc p).held holds (s.proc p).state)
    (hq : k ∈ (s.pc q).held holds (s.proc q).state) : p = q := by
  have hlk := ((h p).lock k).mpr hp
  rw [((h q).lock k).mpr hq] at hlk
  exact (Holder.proc.inj (Option.some.inj hlk)).symm

/-- A thread that is not running is inside `sched`. -/
theorem Inv.sched_of_ne_running (h : Inv holds s) (hp : (s.proc p).state ≠ .running) :
    ∃ chan lk next, s.pc p = .sched chan lk next ∧ (s.proc p).chan = some chan := by
  by_contra hno
  refine hp ((h p).running fun chan lk next hpc => hno ?_)
  exact ⟨chan, lk, next, hpc, (h p).sched chan lk next hpc⟩

/-- Only the invariant of `p` needs a proof when the step is one of `p`. -/
theorem Inv.of_thread (h : Inv holds s) (hpc : ∀ q ≠ p, s'.pc q = s.pc q)
    (hproc : ∀ q ≠ p, ((s'.proc q).state = .running ↔ (s.proc q).state = .running) ∧
      (s'.proc q).chan = (s.proc q).chan)
    (hlock : ∀ k, s'.lock k = s.lock k ∨
      ∀ q ≠ p, s.lock k ≠ some (.proc q) ∧ s'.lock k ≠ some (.proc q))
    (hp : ThreadInv holds s' p) : Inv holds s' := by
  intro q
  by_cases hq : q = p
  · rwa [hq]
  obtain ⟨hlk, hok, hrun, hsched⟩ := h q
  obtain ⟨hst, hch⟩ := hproc q hq
  have hheld : (s'.pc q).held holds (s'.proc q).state = (s.pc q).held holds (s.proc q).state := by
    rw [hpc q hq]
    cases s.pc q <;> simp [Pc.held, hst]
  refine ⟨fun k => ?_, hpc q hq ▸ hok, ?_, ?_⟩
  · rw [hheld, ← hlk k]
    obtain heq | hne := hlock k
    · rw [heq]
    · exact iff_of_false (hne q hq).2 (hne q hq).1
  · intro hno
    exact hst.mpr (hrun (hpc q hq ▸ hno))
  · intro chan lk next hs
    rw [hch]
    exact hsched chan lk next (hpc q hq ▸ hs)

theorem Inv.init {l : L} {d : σ} (hl : holds l = ∅) :
    Inv holds (State.init l d : State P Λ C σ L) := by
  intro p
  refine ⟨fun k => ?_, trivial, fun _ => rfl, fun chan lk next h => ?_⟩
  · simp [State.init, Pc.held, hl]
  · simp [State.init] at h

/-- A running thread outside `sched`. -/
theorem ThreadInv.of_running (hpc : s.pc p = c) (hc : ∀ chan lk next, c ≠ .sched chan lk next)
    (hst : (s.proc p).state = .running)
    (hlock : ∀ k, s.lock k = some (.proc p) ↔ k ∈ c.held holds .running) (hok : c.Ok holds) :
    ThreadInv holds s p := by
  subst hpc
  refine ⟨fun k => ?_, hok, fun _ => hst, fun chan lk next h => absurd h (hc chan lk next)⟩
  rw [hst]
  exact hlock k

section Locks

variable [DecidableEq Λ] {A : Set (Lock Λ)} {j k : Lock Λ} {o : Option (Holder P)}

theorem lock_insert (h : ∀ k, s.lock k = some (.proc p) ↔ k ∈ A) :
    update s.lock k (some (.proc p)) j = some (.proc p) ↔ j ∈ insert k A := by
  by_cases hk : j = k <;> simp [hk, h]

theorem lock_erase (h : ∀ k, s.lock k = some (.proc p) ↔ k ∈ A) (ho : o ≠ some (.proc p)) :
    update s.lock k o j = some (.proc p) ↔ j ∈ A \ {k} := by
  by_cases hk : j = k <;> simp [hk, h, ho]

/-- A step of `p` that changes a lock is not seen by the others. -/
theorem lock_frame (hs : s.lock k = none ∨ s.lock k = some (.proc p) ∨ s.lock k = some .scheduler)
    (ho : o = none ∨ o = some (.proc p) ∨ o = some .scheduler) (k' : Lock Λ) :
    update s.lock k o k' = s.lock k' ∨
      ∀ q ≠ p, s.lock k' ≠ some (.proc q) ∧ update s.lock k o k' ≠ some (.proc q) := by
  by_cases hk : k' = k
  · subst hk
    refine Or.inr fun q hq => ⟨?_, ?_⟩
    · rcases hs with hs | hs | hs <;> simp [hs, Ne.symm hq]
    · rcases ho with ho | ho | ho <;> simp [ho, Ne.symm hq]
  · exact Or.inl (by simp [hk])

end Locks

variable [DecidableEq P] [DecidableEq Λ] {code : P → L → ι → Option (Op P Λ C σ L)}

omit [DecidableEq Λ] in
/-- A step of a running `p` outside `sched`. -/
theorem Inv.of_running {lock : Lock Λ → Option (Holder P)} {d : σ} (h : Inv holds s)
    (hst : (s.proc p).state = .running) (hframe : ∀ k, lock k = s.lock k ∨
      ∀ q ≠ p, s.lock k ≠ some (.proc q) ∧ lock k ≠ some (.proc q))
    (hc : ∀ chan lk next, c ≠ .sched chan lk next)
    (hlock : ∀ k, lock k = some (.proc p) ↔ k ∈ c.held holds .running) (hok : c.Ok holds) :
    Inv holds ⟨lock, s.proc, update s.pc p c, d⟩ := by
  refine h.of_thread (p := p) (fun q hq => by simp [hq]) (fun q _ => ⟨Iff.rfl, rfl⟩) hframe ?_
  exact .of_running (by simp) hc hst hlock hok

omit [DecidableEq P] in
/-- A step of the scheduler that takes or gives back `ptable.lock`. -/
theorem Inv.of_scheduler {o : Option (Holder P)} (h : Inv holds s)
    (hs : ∀ q, s.lock .ptable ≠ some (.proc q)) (ho : ∀ q, o ≠ some (.proc q)) :
    Inv holds (s.setLock .ptable o) := by
  intro q
  obtain ⟨hlk, hok, hrun, hsched⟩ := h q
  refine ⟨fun k => ?_, hok, hrun, hsched⟩
  rw [State.setLock_pc, State.setLock_proc, ← hlk k, State.setLock_lock]
  by_cases hk : k = .ptable
  · subst hk
    simp [hs q, ho q]
  · simp [hk]

omit [DecidableEq Λ] in
/-- A thread that has been dispatched goes on inside `sleep`. -/
theorem Inv.wakes {chan : C} {lk : Lock Λ} {next : L} (h : Inv holds s)
    (hpc : s.pc p = .sched chan lk next) (hlk : s.lock .ptable = some (.proc p))
    (hc : ∀ chan lk next, c ≠ .sched chan lk next)
    (hheld : (lk ∈ holds next ∧ (.ptable ∈ holds next → lk = .ptable)) → ∀ k,
      k ∈ (Pc.sched chan lk next : Pc P Λ C L).held holds .running ↔ k ∈ c.held holds .running)
    (hok : (lk ∈ holds next ∧ (.ptable ∈ holds next → lk = .ptable)) → c.Ok holds) :
    Inv holds ((s.setProc p { s.proc p with chan := none }).setPc p c) := by
  have hmem := ((h p).lock .ptable).mp hlk
  have hsched := (h p).ok
  simp only [hpc, Pc.held, Pc.Ok] at hmem hsched
  have hst : (s.proc p).state = .running := by simpa using hmem
  refine h.of_thread (p := p) (fun q hq => by simp [hq]) (fun q hq => by simp [hq])
    (fun k => Or.inl rfl) (.of_running (c := c) (by simp) hc (by simpa using hst) (fun k => ?_)
      (hok hsched))
  rw [← hheld hsched k, ← hst, ← hpc]
  exact (h p).lock k

theorem Update.apply_state [DecidableEq C] (u : Update P C) (t : P → Entry C) (q : P) :
    (((u.apply t q).state = .running ↔ (t q).state = .running)) ∧
    (u.apply t q).chan = (t q).chan := by
  cases u with
  | wakeup1 chan =>
    simp only [Update.apply, Sync.wakeup1]
    split
    · next h => simp [h.1]
    · simp
  | kill q' =>
    simp only [Update.apply, Sync.kill]
    by_cases hq : q = q'
    · subst hq
      by_cases hs : (t q).state = .sleeping <;> simp [hs]
    · simp [hq]

/-- Nobody falls asleep in `wakeup1` or `kill`. -/
theorem Update.sleeping_of_apply [DecidableEq C] {u : Update P C} {t : P → Entry C}
    (h : (u.apply t q).state = .sleeping) : (t q).state = .sleeping := by
  cases u with
  | wakeup1 chan =>
    simp only [Update.apply, Sync.wakeup1] at h
    split at h
    · simp at h
    · exact h
  | kill q' =>
    simp only [Update.apply, Sync.kill] at h
    by_cases hq : q = q'
    · subst hq
      by_contra hs
      simp [hs] at h
    · simpa [hq] using h

theorem Inv.step [DecidableEq C] {a : Action P ι} (hg : Guarded code holds) (h : Inv holds s)
    (hs : Sync.step code s a = some s') : Inv holds s' := by
  -- a thread that is not inside `sched` is running and its locks are those of its place
  have hrun : ∀ {p c}, s.pc p = c → (∀ chan lk next, c ≠ .sched chan lk next) →
      (s.proc p).state = .running ∧
      (∀ k, s.lock k = some (.proc p) ↔ k ∈ c.held holds .running) ∧ c.Ok holds := by
    rintro p c rfl hc
    have hst := (h p).running hc
    exact ⟨hst, fun k => hst ▸ (h p).lock k, (h p).ok⟩
  cases step_cases hs with
  | @acquire p x l lk next hpc hop hlk =>
    obtain ⟨hst, hheld, -⟩ := hrun hpc (by simp)
    have hnext : holds next = insert lk (holds l) := hg p l x _ hop
    refine h.of_running hst (lock_frame (Or.inl hlk) (by simp)) (by simp) (fun k => ?_) trivial
    simpa [Pc.held, hnext] using lock_insert hheld
  | @release p x l lk next hpc hop hlk =>
    obtain ⟨hst, hheld, -⟩ := hrun hpc (by simp)
    obtain ⟨-, hnext⟩ : lk ∈ holds l ∧ holds next = holds l \ {lk} := hg p l x _ hop
    refine h.of_running hst (lock_frame (by simp [hlk]) (by simp)) (by simp) (fun k => ?_) trivial
    simpa [Pc.held, hnext] using lock_erase hheld (by simp)
  | @access p x l f hpc hop =>
    obtain ⟨hst, hheld, -⟩ := hrun hpc (by simp)
    have hnext : ∀ d, holds (f d).2 = holds l := hg p l x _ hop
    refine h.of_running hst (fun k => Or.inl rfl) (by simp) (fun k => ?_) trivial
    simpa [Pc.held, hnext] using hheld k
  | @killed p x l yes no hpc hop =>
    obtain ⟨hst, hheld, -⟩ := hrun hpc (by simp)
    obtain ⟨hyes, hno⟩ : holds yes = holds l ∧ holds no = holds l := hg p l x _ hop
    refine h.of_running hst (fun k => Or.inl rfl) (by simp) (fun k => ?_) trivial
    cases (s.proc p).killed <;> simpa [Pc.held, hyes, hno] using hheld k
  | @enterUpdate p x l u next hpc hop hlk =>
    obtain ⟨hst, hheld, -⟩ := hrun hpc (by simp)
    have hnext : holds next = holds l := hg p l x _ hop
    refine h.of_running hst (lock_frame (Or.inl hlk) (by simp)) (by simp) (fun k => ?_) ?_
    · simpa [Pc.held, hnext] using lock_insert hheld
    · have := hheld .ptable
      simpa [Pc.Ok, hnext, hlk, Pc.held] using this
  | @enterSleep p x l chan l' next hpc hop hlk =>
    obtain ⟨hst, hheld, -⟩ := hrun hpc (by simp)
    obtain ⟨hmem, hnext⟩ : _ ∈ holds l ∧ holds next = holds l := hg p l x _ hop
    refine h.of_running hst (lock_frame (Or.inl hlk) (by simp)) (by simp) (fun k => ?_) ?_
    · simpa [Pc.held, hnext] using lock_insert hheld
    · have := hheld .ptable
      exact ⟨hnext ▸ hmem, by simpa [hnext, hlk, Pc.held] using this⟩
  | @enterSleepHeld p x l chan next hpc hop hlk =>
    obtain ⟨hst, hheld, -⟩ := hrun hpc (by simp)
    obtain ⟨hmem, hnext⟩ : _ ∈ holds l ∧ holds next = holds l := hg p l x _ hop
    refine h.of_running hst (fun k => Or.inl rfl) (by simp) (fun k => ?_) ?_
    · have := hheld k
      simpa [Pc.held, hnext, Set.insert_sdiff_self_of_mem hmem] using this
    · exact ⟨hnext ▸ hmem, fun _ => rfl⟩
  | @sleepRelease p x chan l next hpc hlk =>
    obtain ⟨hst, hheld, hok⟩ := hrun hpc (by simp)
    refine h.of_running hst (lock_frame (by simp [hlk]) (by simp)) (by simp) (fun k => ?_) ?_
    · have := lock_erase (k := .spin l) (j := k) (o := none) hheld (by simp)
      simpa [Pc.held, Set.insert_sdiff_singleton_comm] using this
    · exact ⟨hok.1, fun hp => absurd hp hok.2⟩
  | @sleepSet p x chan lk next hpc =>
    obtain ⟨hst, hheld, hok⟩ := hrun hpc (by simp)
    have hlk : s.lock .ptable = some (.proc p) := (hheld .ptable).mpr (by simp [Pc.held])
    refine h.of_thread (p := p) (fun q hq => by simp [hq]) (fun q hq => by simp [hq])
      (lock_frame (by simp [hlk]) (by simp)) ⟨fun k => ?_, ?_, ?_, ?_⟩
    · have := lock_erase (k := .ptable) (j := k) (o := some .scheduler) hheld (by simp)
      simpa [Pc.held, and_comm] using this
    · simpa [Pc.Ok] using hok
    · intro hno
      exact absurd (by simp) (hno chan lk next)
    · rintro chan' lk' next' heq
      simp only [State.setPc_pc, update_self, Pc.sched.injEq] at heq
      simp [heq.1]
  | wakeHeld hpc hlk =>
    refine h.wakes hpc hlk (by simp) (fun hok k => ?_) fun _ => trivial
    by_cases hk : k = .ptable <;> simp [Pc.held, hk, hok.1]
  | wake hpc hlk =>
    refine h.wakes hpc hlk (by simp) (fun hok k => ?_) fun hok =>
      ⟨hok.1, fun hp => by simpa using hok.2 hp⟩
    by_cases hk : k = .ptable <;> simp [Pc.held, hk]
  | @sleepUnlock p x l next hpc hlk =>
    obtain ⟨hst, hheld, hok⟩ := hrun hpc (by simp)
    refine h.of_running hst (lock_frame (by simp [hlk]) (by simp)) (by simp) (fun k => ?_) hok
    have := lock_erase (k := .ptable) (j := k) (o := none) hheld (by simp)
    simp only [Pc.held, State.setLock_lock] at this ⊢
    rw [this]
    by_cases hk : k = .ptable <;> simp [hk, hok.2]
  | @sleepReacquire p x l next hpc hlk =>
    obtain ⟨hst, hheld, hok⟩ := hrun hpc (by simp)
    refine h.of_running hst (lock_frame (Or.inl hlk) (by simp)) (by simp) (fun k => ?_) trivial
    have := lock_insert (k := .spin l) (j := k) hheld
    simpa [Pc.held, Set.insert_sdiff_self_of_mem hok.1] using this
  | @update p x u next hpc =>
    obtain ⟨hst, hheld, hok⟩ := hrun hpc (by simp)
    refine h.of_thread (p := p) (fun q hq => by simp [hq]) (fun q hq => u.apply_state s.proc q)
      (fun k => Or.inl rfl) (.of_running (c := .unlock next) (by simp) (by simp) ?_ hheld hok)
    exact (u.apply_state s.proc p).1.mpr hst
  | @unlock p x next hpc hlk =>
    obtain ⟨hst, hheld, hok⟩ := hrun hpc (by simp)
    refine h.of_running hst (lock_frame (by simp [hlk]) (by simp)) (by simp) (fun k => ?_) trivial
    have := lock_erase (k := .ptable) (j := k) (o := none) hheld (by simp)
    simpa [Pc.held, Set.insert_sdiff_self_of_notMem hok] using this
  | schedAcquire hlk | schedRelease hlk => exact h.of_scheduler (by simp [hlk]) (by simp)
  | @dispatch p hlk hp =>
    obtain ⟨chan, lk, next, hpc, hchan⟩ := h.sched_of_ne_running (p := p) (by simp [hp])
    refine h.of_thread (p := p) (fun q hq => rfl) (fun q hq => by simp [State.dispatch, hq])
      (lock_frame (by simp [hlk]) (by simp)) ⟨fun k => ?_, (h p).ok, ?_, ?_⟩
    · have := (h p).lock k
      simp only [hpc, Pc.held] at this
      by_cases hk : k = .ptable
      · simp [State.dispatch, hpc, Pc.held, hk]
      · simpa [State.dispatch, hpc, Pc.held, hk] using this
    · intro _
      simp [State.dispatch]
    · intro chan' lk' next' heq
      simpa [State.dispatch] using (h p).sched chan' lk' next' heq

theorem Reachable.inv [DecidableEq C] {l : L} {d : σ} (hg : Guarded code holds) (hl : holds l = ∅)
    (h : Reachable code l d s) : Inv holds s := by
  induction h with
  | init => exact .init hl
  | step _ hs ih => exact ih.step hg hs

end Invariant

/-! ### The client's view -/

/-- The local states that an operation without an access leads to. -/
def Op.Next (l' : L) : Op P Λ C σ L → Prop
  | .acquire _ next | .release _ next | .update _ next | .sleep _ _ next => l' = next
  | .killed yes no => l' = yes ∨ l' = no
  | .access _ => False

def State.locs (s : State P Λ C σ L) (p : P) : L := (s.pc p).loc

section Client

variable [DecidableEq P] [DecidableEq Λ] [DecidableEq C]

/-- A step changes the shared data by an access of one thread, moves one thread to
its next local state, or does neither. -/
inductive ClientStep (code : P → L → ι → Option (Op P Λ C σ L)) (s : State P Λ C σ L) :
    Action P ι → State P Λ C σ L → Prop where
  | access {p x f s'} (hpc : s.pc p = .run (s.locs p))
      (hop : code p (s.locs p) x = some (.access f))
      (hdata : s'.data = (f s.data).1) (hlocs : s'.locs = update s.locs p (f s.data).2) :
      ClientStep code s (.step p x) s'
  | next {p x op l' s'} (hpc : s.pc p = .run (s.locs p)) (hop : code p (s.locs p) x = some op)
      (hl' : op.Next l') (hdata : s'.data = s.data) (hlocs : s'.locs = update s.locs p l') :
      ClientStep code s (.step p x) s'
  | quiet {a s'} (hdata : s'.data = s.data) (hlocs : s'.locs = s.locs) : ClientStep code s a s'

variable {code : P → L → ι → Option (Op P Λ C σ L)} {s s' : State P Λ C σ L}
  {a : Action P ι} {p : P}
  {l : L} {d : σ}

omit [DecidableEq Λ] [DecidableEq C] in
theorem locs_of_update {c : Pc P Λ C L} (hs' : s'.pc = update s.pc p c) (hc : c.loc = l) :
    s'.locs = update s.locs p l := by
  subst hc
  funext q
  by_cases hq : q = p
  · subst hq
    simp [State.locs, hs']
  · simp [State.locs, hs', hq]

theorem step_client (hs : step code s a = some s') : ClientStep code s a s' := by
  have hloc : ∀ {p l}, s.pc p = .run l → s.locs p = l := fun h => by simp [State.locs, h, Pc.loc]
  -- inside `sleep`, `wakeup` and `kill` the local state stays what it is
  have hquiet : ∀ {s' : State P Λ C σ L} {a : Action P ι} {p : P} {c : Pc P Λ C L},
      s'.data = s.data → s'.pc = update s.pc p c → c.loc = s.locs p →
      ClientStep code s a s' := by
    intro s' a p c hd hpc hc
    refine .quiet hd ?_
    rw [locs_of_update hpc hc, update_eq_self]
  cases step_cases hs with
  | acquire hpc hop | release hpc hop | enterUpdate hpc hop | enterSleep hpc hop
  | enterSleepHeld hpc hop =>
    obtain rfl := hloc hpc
    exact .next hpc hop rfl rfl (locs_of_update rfl rfl)
  | access hpc hop =>
    obtain rfl := hloc hpc
    exact .access hpc hop rfl (locs_of_update rfl rfl)
  | @killed p x l yes no hpc hop =>
    obtain rfl := hloc hpc
    have hnext : (Op.killed yes no : Op P Λ C σ L).Next
        (if (s.proc p).killed then yes else no) := by
      cases (s.proc p).killed <;> simp [Op.Next]
    exact .next hpc hop hnext rfl (locs_of_update rfl rfl)
  | sleepRelease hpc | sleepSet hpc | wakeHeld hpc | wake hpc | sleepUnlock hpc | sleepReacquire hpc
  | update hpc | unlock hpc => exact hquiet rfl rfl (by simp [State.locs, hpc, Pc.loc])
  | schedAcquire | schedRelease | dispatch => exact .quiet rfl rfl

theorem step_of_access {x : ι} {f : σ → σ × L} (hpc : s.pc p = .run l)
    (hop : code p l x = some (.access f)) : step code s (.step p x) =
      some { s.setPc p (.run (f s.data).2) with data := (f s.data).1 } := by
  simp [step, State.stepProc, hpc, hop, State.exec]

theorem Reachable.of_execute {as : List (Action P ι)}
    (h : Run.execute (Sync.step code) (State.init l d) as = some s) : Reachable code l d s := by
  have hall : ∀ {s₀ : State P Λ C σ L} {as : List (Action P ι)}, Reachable code l d s₀ →
      Run.execute (Sync.step code) s₀ as = some s → Reachable code l d s := by
    intro s₀ as
    induction as generalizing s₀ with
    | nil =>
      intro h₀ he
      cases he
      exact h₀
    | cons a as ih =>
      intro h₀ he
      obtain ⟨s₁, hs₁, hrest⟩ := Option.bind_eq_some_iff.mp he
      exact ih (h₀.step hs₁) hrest
  exact hall .init h

/-- A state with a property that the execution of some actions ends in. -/
theorem Reachable.exists_of_execute (code : P → L → ι → Option (Op P Λ C σ L)) (l : L) (d : σ)
    (as : List (Action P ι)) {T : State P Λ C σ L → Bool}
    (h : (Run.execute (Sync.step code) (State.init l d) as).any T = true) :
    ∃ s, Reachable code l d s ∧ T s = true := by
  cases hs : Run.execute (Sync.step code) (State.init l d) as with
  | none => simp [hs] at h
  | some s => exact ⟨s, .of_execute hs, by simpa [hs] using h⟩

theorem Reachable.of_run (r : Run (Sync.step code)) (h0 : r.state 0 = State.init l d) {k : ℕ}
    (hk : k ≤ r.length) : Reachable code l d (r.state k) :=
  r.invariant (I := Reachable code l d) (h0 ▸ .init) (fun _ _ _ h hs => h.step hs) hk

/-- Inside `sleep`, `wakeup` and `kill` a thread is where its own code has called them. -/
def Pc.Origin (code : P → L → ι → Option (Op P Λ C σ L)) (p : P) : Pc P Λ C L → Prop
  | .run _ => True
  | .sleepRelease chan l next => ∃ l₀ x, code p l₀ x = some (.sleep chan (.spin l) next)
  | .sleepSet chan lk next | .sched chan lk next => ∃ l₀ x, code p l₀ x = some (.sleep chan lk next)
  | .sleepUnlock l next | .sleepReacquire l next =>
    ∃ chan l₀ x, code p l₀ x = some (.sleep chan (.spin l) next)
  | .update u next => ∃ l₀ x, code p l₀ x = some (.update u next)
  | .unlock next => ∃ u l₀ x, code p l₀ x = some (.update u next)

theorem Reachable.origin (h : Reachable code l d s) (q : P) : (s.pc q).Origin code q := by
  induction h generalizing q with
  | init => trivial
  | @step s s' a _ hs ih =>
    have hmove : ∀ {p : P} {c : Pc P Λ C L}, s'.pc = update s.pc p c → c.Origin code p →
        (s'.pc q).Origin code q := by
      intro p c hpc hc
      rw [hpc]
      by_cases hq : q = p
      · subst hq
        simpa using hc
      · simpa [hq] using ih q
    have hold : ∀ {p : P} {c : Pc P Λ C L}, s.pc p = c → c.Origin code p := by
      rintro p c rfl
      exact ih p
    cases step_cases hs with
    | acquire | release | access | killed | wakeHeld | sleepReacquire | unlock =>
      exact hmove rfl trivial
    | enterUpdate _ hop | enterSleep _ hop | enterSleepHeld _ hop => exact hmove rfl ⟨_, _, hop⟩
    | sleepRelease hpc | sleepSet hpc | sleepUnlock hpc =>
      have hc := hold hpc
      exact hmove rfl hc
    | wake hpc | update hpc => exact hmove rfl ⟨_, hold hpc⟩
    | schedAcquire | schedRelease | dispatch => exact ih q

/-- An invariant of the shared data and the local states. -/
structure ClientInv (code : P → L → ι → Option (Op P Λ C σ L)) (J : σ → (P → L) → Prop) : Prop where
  access : ∀ {d ls p x f}, J d ls → code p (ls p) x = some (.access f) →
    J (f d).1 (update ls p (f d).2)
  next : ∀ {d ls p x op l'}, J d ls → code p (ls p) x = some op → op.Next l' →
    J d (update ls p l')

variable {J : σ → (P → L) → Prop}

theorem ClientInv.step (hJ : ClientInv code J) (h : J s.data s.locs)
    (hs : Sync.step code s a = some s') : J s'.data s'.locs := by
  cases step_client hs with
  | access hpc hop hdata hlocs =>
    rw [hdata, hlocs]
    exact hJ.access h hop
  | next hpc hop hl' hdata hlocs =>
    rw [hdata, hlocs]
    exact hJ.next h hop hl'
  | quiet hdata hlocs => rwa [hdata, hlocs]

theorem Reachable.client (hJ : ClientInv code J) (h0 : J d fun _ => l) (h : Reachable code l d s) :
    J s.data s.locs := by
  induction h with
  | init => exact h0
  | step _ hs ih => exact hJ.step ih hs

end Client

end Xv6.Sync
