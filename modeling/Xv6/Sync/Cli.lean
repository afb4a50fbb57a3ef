import Mathlib.Data.List.Duplicate
import Mathlib.Data.Set.Insert
import Xv6.Sync.Machine

/-!
# Interrupts and spin locks

`Xv6.Sync.Machine` takes `acquire` and `release` as single steps. Here they are
run as the instructions of `spinlock.c` and `proc.c` on CPUs that can be
interrupted: `pushcli` reads the flags, turns interrupts off and only then writes
the `ncli` and `intena` of its CPU, and an interrupt may come between any two
instructions while the flag is on. A thread keeps its instructions to come and its
local variables when `sched` switches away from it, and goes on with them on
whichever CPU dispatches it next, while `ncli` and `intena` stay with the CPU.

What the kernel does between two calls of these functions is left open: it is the
instruction `kernel`, where the code may make any call that keeps the use of the
functions balanced.
-/

namespace Xv6.Cli

open Sync (Lock)

inductive Panic where
  | mycpu
  | popcliInterruptible
  | popcli
  | acquire
  | release
  | schedPtable
  | schedLocks
  | schedRunning
  | schedInterruptible
  | zombieExit
  deriving DecidableEq

/-- What a piece of kernel code has to undo: a `pushcli` or an `acquire`. -/
inductive Hold (Λ : Type) where
  | cli
  | lock (lk : Lock Λ)
  deriving DecidableEq

/-- The local variables of `pushcli`, `holding` and `sched`. -/
@[ext]
structure Regs where
  eflags : Bool
  r : Bool
  intena : Bool
  deriving DecidableEq

/-- What happens to the process table under `ptable.lock`. -/
inductive Update (P : Type) where
  | wakeup1 (q : P)
  | reap (q : P)
  | fork (q : P)
  deriving DecidableEq

inductive Instr (P Λ : Type) where
  /-- `eflags = readeflags()` -/
  | readeflags
  | cli
  | sti
  /-- `if(mycpu()->ncli == 0) mycpu()->intena = eflags & FL_IF` -/
  | setIntena
  /-- `mycpu()->ncli += 1` -/
  | incNcli
  /-- `if(readeflags()&FL_IF) panic(m)` -/
  | panicIfOn (m : Panic)
  /-- `if(--mycpu()->ncli < 0) panic("popcli")` -/
  | decNcli
  /-- `if(mycpu()->ncli == 0 && mycpu()->intena) sti()` -/
  | stiIfIntena
  /-- `r = lock->locked && lock->cpu == mycpu()` -/
  | testLock (lk : Lock Λ)
  | panicIfHolding (m : Panic)
  | panicUnlessHolding (m : Panic)
  /-- one round of `while(xchg(&lk->locked, 1) != 0)` -/
  | xchg (lk : Lock Λ)
  | setCpu (lk : Lock Λ)
  | clearCpu (lk : Lock Λ)
  | clearLocked (lk : Lock Λ)
  /-- `p->state = st` -/
  | setState (st : ProcState)
  | update (u : Update P)
  /-- the entry of `sched` -/
  | sched
  /-- `if(mycpu()->ncli != 1) panic("sched locks")` -/
  | panicUnlessOne
  /-- `if(p->state == RUNNING) panic("sched running")` -/
  | panicIfRunning
  /-- `intena = mycpu()->intena` -/
  | saveIntena
  | swtch
  /-- `mycpu()->intena = intena` -/
  | restoreIntena
  | zombieExit
  /-- the return from an interrupt, with what the trap frame holds -/
  | iret (ifl : Bool) (regs : Regs)
  /-- the entry of kernel code that is left open -/
  | enter
  /-- kernel code that has still to undo `held`; `outer` is the interrupt flag as it was
  when the code took the first of these, or at the entry -/
  | kernel (outer : Bool) (held : List (Hold Λ))
  /-- the top of the loop of `scheduler` -/
  | loop
  /-- the pass of `scheduler` over the table -/
  | pass
  deriving DecidableEq

section Code

variable {P Λ : Type}

def pushcli : List (Instr P Λ) := [.readeflags, .cli, .setIntena, .incNcli]

def popcli : List (Instr P Λ) := [.panicIfOn .popcliInterruptible, .decNcli, .stiIfIntena]

def myproc : List (Instr P Λ) := pushcli ++ popcli

def holding (lk : Lock Λ) : List (Instr P Λ) := pushcli ++ .testLock lk :: popcli

def acquire (lk : Lock Λ) : List (Instr P Λ) :=
  pushcli ++ holding lk ++ [.panicIfHolding .acquire, .xchg lk, .setCpu lk]

def release (lk : Lock Λ) : List (Instr P Λ) :=
  holding lk ++ [.panicUnlessHolding .release, .clearCpu lk, .clearLocked lk] ++ popcli

def sched : List (Instr P Λ) :=
  .sched :: myproc ++ holding .ptable ++
    [.panicUnlessHolding .schedPtable, .panicUnlessOne, .panicIfRunning,
      .panicIfOn .schedInterruptible, .saveIntena, .swtch, .restoreIntena]

def yield : List (Instr P Λ) :=
  acquire .ptable ++ myproc ++ [.setState .runnable] ++ sched ++ release .ptable

def sleep : Lock Λ → List (Instr P Λ)
  | .ptable => myproc ++ [.setState .sleeping] ++ sched
  | .spin l =>
    myproc ++ acquire .ptable ++ release (.spin l) ++ [.setState .sleeping] ++ sched ++
      release .ptable ++ acquire (.spin l)

/-- The end of `exit`. -/
def exit : List (Instr P Λ) :=
  acquire .ptable ++ [.setState .zombie] ++ sched ++ [.zombieExit]

/-- Where the context of a new process starts: `forkret`, then the return to user space,
where interrupts are on. -/
def forkret : List (Instr P Λ) :=
  release .ptable ++ [.enter, .iret true ⟨false, false, false⟩, .enter]

/-- The body of the loop of `scheduler`. -/
def scheduler : List (Instr P Λ) :=
  .sti :: acquire .ptable ++ .pass :: release .ptable ++ [.loop]

/-- What kernel code calls. -/
inductive Call (P Λ : Type) where
  | pushcli
  | popcli
  | acquire (lk : Lock Λ)
  | release (lk : Lock Λ)
  | sleep (lk : Lock Λ)
  | yield
  | exit
  | update (u : Update P)
  deriving DecidableEq

def Call.code : Call P Λ → List (Instr P Λ)
  | .pushcli => Cli.pushcli
  | .popcli => Cli.popcli
  | .acquire lk => Cli.acquire lk
  | .release lk => Cli.release lk
  | .sleep lk => Cli.sleep lk
  | .yield => Cli.yield
  | .exit => Cli.exit
  | .update u => [.update u]

section

variable [DecidableEq Λ]

/-- What is left to undo after the call. -/
def Call.held (held : List (Hold Λ)) : Call P Λ → List (Hold Λ)
  | .pushcli => .cli :: held
  | .popcli => held.erase .cli
  | .acquire lk => .lock lk :: held
  | .release lk => held.erase (.lock lk)
  | .sleep _ | .yield | .exit | .update _ => held

/-- Balanced use: code undoes what it has done and nothing else, it takes no lock that
it holds, it sleeps with the lock that it gives to `sleep` and no other, gives up
the CPU with none, and touches the process table with `ptable.lock`. Only a process
(`proc`) sleeps or gives up the CPU. -/
def Call.Balanced (proc : Bool) (held : List (Hold Λ)) : Call P Λ → Prop
  | .pushcli => True
  | .popcli => .cli ∈ held
  | .acquire lk => .lock lk ∉ held
  | .release lk => .lock lk ∈ held
  | .sleep lk => held = [.lock lk] ∧ proc = true
  | .yield | .exit => held = [] ∧ proc = true
  | .update _ => .lock .ptable ∈ held

instance (proc : Bool) (held : List (Hold Λ)) (x : Call P Λ) :
    Decidable (x.Balanced proc held) := by
  cases x <;> unfold Call.Balanced <;> infer_instance

end

end Code

/-! ### The machine -/

/-- A stack that can be switched to. -/
structure Context (P Λ : Type) where
  code : List (Instr P Λ)
  regs : Regs
  deriving DecidableEq

@[ext]
structure Cpu (P : Type) where
  /-- the flag `FL_IF` -/
  ifl : Bool
  ncli : ℤ
  intena : Bool
  proc : Option P
  deriving DecidableEq

structure State (P Λ C : Type) where
  cpus : C → Cpu P
  /-- where the `scheduler` of a CPU is -/
  scheduler : C → Context P Λ
  context : P → Context P Λ
  state : P → ProcState
  /-- `lk->locked`, with the CPU whose `xchg` set it -/
  locked : Lock Λ → Option C
  /-- `lk->cpu` -/
  cpu : Lock Λ → Option C
  panicked : Option Panic

/-- What happens next: an instruction on a CPU, a call that its kernel code makes, an
interrupt, or a dispatch by its scheduler. -/
inductive Action (P Λ C : Type) where
  | exec (c : C)
  | call (c : C) (x : Call P Λ)
  | interrupt (c : C)
  | dispatch (c : C) (p : P)
  deriving DecidableEq

variable {P Λ C : Type}

instance [Inhabited C] : Inhabited (Action P Λ C) := ⟨.exec default⟩

namespace State

/-- The context that runs on the CPU. -/
def running (s : State P Λ C) (c : C) : Context P Λ :=
  (s.cpus c).proc.elim (s.scheduler c) s.context

/-- All CPUs enter `scheduler`, and `init` can be dispatched. -/
def boot (init : P) [DecidableEq P] : State P Λ C where
  cpus _ := ⟨false, 0, false, none⟩
  scheduler _ := ⟨[.loop], ⟨false, false, false⟩⟩
  context _ := ⟨forkret, ⟨false, false, false⟩⟩
  state p := if p = init then .runnable else .unused
  locked _ := none
  cpu _ := none
  panicked := none

def panic (s : State P Λ C) (m : Panic) : Option (State P Λ C) := some { s with panicked := some m }

/-- `mycpu()`, which panics with interrupts on, and then the rest. -/
def mycpu (s : State P Λ C) (c : C) (rest : Option (State P Λ C)) : Option (State P Λ C) :=
  if (s.cpus c).ifl then s.panic .mycpu else rest

variable [DecidableEq P] [DecidableEq Λ] [DecidableEq C]

/-- The context that runs on the CPU becomes `x`. -/
def put (s : State P Λ C) (c : C) (x : Context P Λ) : State P Λ C :=
  (s.cpus c).proc.elim { s with scheduler := Function.update s.scheduler c x }
    fun p => { s with context := Function.update s.context p x }

def setCpu (s : State P Λ C) (c : C) (u : Cpu P) : State P Λ C :=
  { s with cpus := Function.update s.cpus c u }

/-- What is done under `ptable.lock` to the entry of another process. -/
def update (s : State P Λ C) : Update P → State P Λ C
  | .wakeup1 q =>
    if s.state q = .sleeping then { s with state := Function.update s.state q .runnable } else s
  | .reap q =>
    if s.state q = .zombie then { s with state := Function.update s.state q .unused } else s
  | .fork q =>
    if s.state q = .unused then
      { s with
        state := Function.update s.state q .runnable
        context := Function.update s.context q ⟨forkret, ⟨false, false, false⟩⟩ }
    else s

/-- The instruction `i` on CPU `c`, after which the code is `k`. -/
def exec (s : State P Λ C) (c : C) (i : Instr P Λ) (k : List (Instr P Λ)) :
    Option (State P Λ C) :=
  let u := s.cpus c
  let x := (s.running c).regs
  match i with
  | .readeflags => some (s.put c ⟨k, { x with eflags := u.ifl }⟩)
  | .cli => some ((s.put c ⟨k, x⟩).setCpu c { u with ifl := false })
  | .sti => some ((s.put c ⟨k, x⟩).setCpu c { u with ifl := true })
  | .setIntena =>
    s.mycpu c <| some ((s.put c ⟨k, x⟩).setCpu c
      { u with intena := if u.ncli = 0 then x.eflags else u.intena })
  | .incNcli => s.mycpu c <| some ((s.put c ⟨k, x⟩).setCpu c { u with ncli := u.ncli + 1 })
  | .panicIfOn m => if u.ifl then s.panic m else some (s.put c ⟨k, x⟩)
  | .decNcli =>
    s.mycpu c <|
      if u.ncli - 1 < 0 then s.panic .popcli
      else some ((s.put c ⟨k, x⟩).setCpu c { u with ncli := u.ncli - 1 })
  | .stiIfIntena =>
    s.mycpu c <| some ((s.put c ⟨k, x⟩).setCpu c { u with ifl := u.ncli == 0 && u.intena })
  | .testLock lk =>
    if (s.locked lk).isSome then
      s.mycpu c <| some (s.put c ⟨k, { x with r := s.cpu lk == some c }⟩)
    else some (s.put c ⟨k, { x with r := false }⟩)
  | .panicIfHolding m => if x.r then s.panic m else some (s.put c ⟨k, x⟩)
  | .panicUnlessHolding m => if x.r then some (s.put c ⟨k, x⟩) else s.panic m
  | .xchg lk =>
    if s.locked lk = none then
      some { s.put c ⟨k, x⟩ with locked := Function.update s.locked lk (some c) }
    else some s
  | .setCpu lk =>
    s.mycpu c <| some { s.put c ⟨k, x⟩ with cpu := Function.update s.cpu lk (some c) }
  | .clearCpu lk => some { s.put c ⟨k, x⟩ with cpu := Function.update s.cpu lk none }
  | .clearLocked lk => some { s.put c ⟨k, x⟩ with locked := Function.update s.locked lk none }
  | .setState st =>
    u.proc.map fun p => { s.put c ⟨k, x⟩ with state := Function.update s.state p st }
  | .update y => some ((s.put c ⟨k, x⟩).update y)
  | .sched => some (s.put c ⟨k, x⟩)
  | .panicUnlessOne =>
    s.mycpu c <| if u.ncli = 1 then some (s.put c ⟨k, x⟩) else s.panic .schedLocks
  | .panicIfRunning =>
    u.proc.bind fun p =>
      if s.state p = .running then s.panic .schedRunning else some (s.put c ⟨k, x⟩)
  | .saveIntena => s.mycpu c <| some (s.put c ⟨k, { x with intena := u.intena }⟩)
  | .swtch => u.proc.map fun _ => (s.put c ⟨k, x⟩).setCpu c { u with proc := none }
  | .restoreIntena => s.mycpu c <| some ((s.put c ⟨k, x⟩).setCpu c { u with intena := x.intena })
  | .zombieExit => s.panic .zombieExit
  | .iret ifl regs => some ((s.put c ⟨k, regs⟩).setCpu c { u with ifl := ifl })
  | .enter => some (s.put c ⟨.kernel u.ifl [] :: k, x⟩)
  | .kernel _ held => if held = [] ∧ k ≠ [] then some (s.put c ⟨k, x⟩) else none
  | .loop => some (s.put c ⟨Cli.scheduler, x⟩)
  | .pass => some (s.put c ⟨k, x⟩)

/-- A call made by kernel code that has still to undo `held`. -/
def call (s : State P Λ C) (c : C) (x : Call P Λ) (outer : Bool) (held : List (Hold Λ))
    (k : List (Instr P Λ)) : State P Λ C :=
  let outer := if held = [] then (s.cpus c).ifl else outer
  s.put c ⟨x.code ++ .kernel outer (x.held held) :: k, (s.running c).regs⟩

/-- An interrupt: the handler runs with interrupts off and returns to the code that
was interrupted. -/
def interrupt (s : State P Λ C) (c : C) : State P Λ C :=
  let x := s.running c
  (s.put c ⟨.enter :: .iret true x.regs :: x.code, x.regs⟩).setCpu c { s.cpus c with ifl := false }

/-- `scheduler` runs `p`. `switchuvm` is left out: it calls `pushcli` and `popcli`, one after the
other, with `ptable.lock` held. -/
def dispatch (s : State P Λ C) (c : C) (p : P) : State P Λ C :=
  { s.setCpu c { s.cpus c with proc := some p } with
    state := Function.update s.state p .running }

end State

section Step

variable [DecidableEq P] [DecidableEq Λ] [DecidableEq C]

def step (s : State P Λ C) (a : Action P Λ C) : Option (State P Λ C) :=
  if s.panicked ≠ none then none
  else
    match a with
    | .exec c =>
      match (s.running c).code with
      | [] => none
      | i :: k => s.exec c i k
    | .call c x =>
      match (s.running c).code with
      | .kernel outer held :: k =>
        if x.Balanced (s.cpus c).proc.isSome held then some (s.call c x outer held k) else none
      | _ => none
    | .interrupt c => if (s.cpus c).ifl then some (s.interrupt c) else none
    | .dispatch c p =>
      match (s.cpus c).proc, (s.running c).code with
      | none, .pass :: _ => if s.state p = .runnable then some (s.dispatch c p) else none
      | _, _ => none

end Step

/-! ### What code does to its CPU -/

/-- What the code that runs on a CPU can see: the CPU, its own variables and state, and
the locks that the CPU has. -/
@[ext]
structure View (Λ : Type) where
  ifl : Bool
  ncli : ℤ
  intena : Bool
  regs : Regs
  state : ProcState
  locked : Set (Lock Λ)
  cpu : Set (Lock Λ)

def State.view (s : State P Λ C) (c : C) : View Λ where
  ifl := (s.cpus c).ifl
  ncli := (s.cpus c).ncli
  intena := (s.cpus c).intena
  regs := (s.running c).regs
  state := (s.cpus c).proc.elim .running s.state
  locked := { l | s.locked l = some c }
  cpu := { l | s.cpu l = some c }

namespace View

/-- With interrupts on nothing is held; a process that is no longer `RUNNING` has
`ptable.lock`. -/
structure Wf (v : View Λ) : Prop where
  off : v.ifl = true → v.ncli = 0 ∧ v.locked = ∅
  cpu : v.cpu ⊆ v.locked
  state : v.state ≠ .running → .ptable ∈ v.locked

/-- The CPU as it is at every `swtch`. -/
structure Switched (v : View Λ) : Prop where
  ifl : v.ifl = false
  ncli : v.ncli = 1
  locked : v.locked = {.ptable}
  cpu : v.cpu = {.ptable}

/-- What may have become of `v` when an interrupt has returned, maybe on another CPU. -/
def Rely (v v' : View Λ) : Prop := v' = v ∨ v.ifl = true ∧ ∃ b, v' = { v with intena := b }

/-- Inside `n` calls of `pushcli`, the first of them made with the flag at `b`. -/
structure Level (b : Bool) (n : ℕ) (L O : Set (Lock Λ)) (st : ProcState) (v : View Λ) : Prop where
  ncli : v.ncli = n
  outside : n = 0 → v.ifl = b
  inside : n ≠ 0 → v.ifl = false ∧ v.intena = b
  locked : v.locked = L
  cpu : v.cpu = O
  state : v.state = st

/-- The locks among what is to be undone. -/
def locks (held : List (Hold Λ)) : Set (Lock Λ) := { l | .lock l ∈ held }

/-- Where kernel code that has to undo `held` stands. -/
structure Kernel (b : Bool) (held : List (Hold Λ)) (v : View Λ) : Prop where
  level : v.Level b held.length (locks held) (locks held) .running
  nodup : ∀ l, ¬ List.Duplicate (.lock l) held

end View

open View

/-- What an instruction needs, so as not to panic. -/
def Instr.Ok (v : View Λ) : Instr P Λ → Prop
  | .readeflags | .cli => True
  | .sched => v.ncli = 1
  | .sti => v.ncli = 0 ∧ v.locked = ∅
  | .setIntena | .incNcli | .panicIfOn _ | .testLock _ | .xchg _ | .saveIntena
  | .restoreIntena => v.ifl = false
  | .decNcli => v.ifl = false ∧ 1 ≤ v.ncli
  | .stiIfIntena => v.ifl = false ∧ (v.ncli = 0 → v.intena = true → v.locked = ∅)
  | .panicIfHolding _ => v.regs.r = false
  | .panicUnlessHolding _ => v.regs.r = true
  | .setCpu lk => v.ifl = false ∧ lk ∈ v.locked
  | .clearCpu lk => lk ∈ v.cpu
  | .clearLocked lk => lk ∈ v.locked ∧ lk ∉ v.cpu ∧ (lk = .ptable → v.state = .running)
  | .setState _ => .ptable ∈ v.locked
  | .panicUnlessOne => v.ifl = false ∧ v.ncli = 1
  | .panicIfRunning => v.state ≠ .running
  | .update _ => .ptable ∈ v.locked ∧ v.state = .running
  | .iret ifl _ => ifl = true → v.ncli = 0 ∧ v.locked = ∅
  | .zombieExit | .swtch | .enter | .kernel _ _ | .loop | .pass => False

open Classical in
/-- What the CPU looks like after an instruction. -/
noncomputable def Instr.post (v : View Λ) : Instr P Λ → View Λ
  | .readeflags => { v with regs := { v.regs with eflags := v.ifl } }
  | .cli => { v with ifl := false }
  | .sti => { v with ifl := true }
  | .setIntena => { v with intena := if v.ncli = 0 then v.regs.eflags else v.intena }
  | .incNcli => { v with ncli := v.ncli + 1 }
  | .decNcli => { v with ncli := v.ncli - 1 }
  | .stiIfIntena => { v with ifl := v.ncli == 0 && v.intena }
  | .testLock lk => { v with regs := { v.regs with r := decide (lk ∈ v.cpu) } }
  | .xchg lk => { v with locked := insert lk v.locked }
  | .setCpu lk => { v with cpu := insert lk v.cpu }
  | .clearCpu lk => { v with cpu := v.cpu \ {lk} }
  | .clearLocked lk => { v with locked := v.locked \ {lk} }
  | .setState st => { v with state := st }
  | .saveIntena => { v with regs := { v.regs with intena := v.intena } }
  | .restoreIntena => { v with intena := v.regs.intena }
  | .iret ifl regs => { v with ifl := ifl, regs := regs }
  | _ => v

/-- The code can go on from `v`, whatever its kernel code calls and however often it is
interrupted or switched away from. -/
def Safe : List (Instr P Λ) → View Λ → Prop
  | [], _ => True
  | i :: k, v => ∀ v', v.Rely v' →
    match i with
    | .swtch => v'.Switched ∧ (v'.state = .runnable ∨ v'.state = .sleeping →
        ∀ w : View Λ, w.Switched → w.state = .running → w.regs = v'.regs → Safe k w)
    | .enter => (∃ b, v'.Kernel b []) ∧ ∀ (w : View Λ) b, w.Kernel b [] → Safe k w
    | .kernel b held => v'.Kernel b held ∧ ∀ w : View Λ, w.Kernel b [] → Safe k w
    | .loop => v'.ncli = 0 ∧ v'.locked = ∅ ∧ v'.cpu = ∅ ∧ v'.state = .running
    | .pass => v'.Switched ∧ v'.state = .running ∧
        ∀ w : View Λ, w.Switched → w.state = .running → Safe k w
    | i => i.Ok v' ∧ Safe k (i.post v')

/-! ### The functions -/

section Functions

variable {v v' w : View Λ} {b : Bool} {n : ℕ} {L O : Set (Lock Λ)} {st : ProcState}
  {k k' : List (Instr P Λ)} {lk : Lock Λ}

theorem View.Rely.trans (h : v.Rely v') (h' : v'.Rely w) : v.Rely w := by
  obtain rfl | ⟨hon, b, rfl⟩ := h
  · exact h'
  · obtain rfl | ⟨-, b', rfl⟩ := h'
    · exact .inr ⟨hon, b, rfl⟩
    · exact .inr ⟨hon, b', rfl⟩

theorem View.Rely.eq_of_off (h : v.Rely v') (hoff : v.ifl = false) : v' = v := by
  obtain rfl | ⟨hon, -⟩ := h
  · rfl
  · simp [hoff] at hon

/-- What is safe stays so when an interrupt has come and gone. -/
theorem Safe.rely (h : Safe k v) (hr : v.Rely v') : Safe k v' := by
  cases k with
  | nil => trivial
  | cons i k => exact fun w hw => h w (hr.trans hw)

theorem View.Level.rely (h : v.Level b n L O st) (hr : v.Rely v') : v'.Level b n L O st := by
  obtain rfl | ⟨hon, b', rfl⟩ := hr
  · exact h
  · have hn : n = 0 := by
      by_contra hn
      simp [(h.inside hn).1] at hon
    exact { h with inside := fun h0 => absurd hn h0 }

theorem View.Kernel.rely {held : List (Hold Λ)} (h : v.Kernel b held) (hr : v.Rely v') :
    v'.Kernel b held := ⟨h.level.rely hr, h.nodup⟩

theorem View.Level.off (h : v.Level b (n + 1) L O st) : v.ifl = false := (h.inside (by simp)).1

/-- From `A` the code gets to `B`. -/
def Goes (A : View Λ → Prop) (code : List (Instr P Λ)) (B : View Λ → Prop) : Prop :=
  ∀ k v, A v → (∀ w, B w → Safe k w) → Safe (code ++ k) v

variable {A B D : View Λ → Prop} {i : Instr P Λ}

theorem Goes.append (h : Goes A k B) (h' : Goes B k' D) : Goes A (k ++ k') D := by
  intro l v hv hD
  rw [List.append_assoc]
  exact h _ v hv fun w hw => h' l w hw hD

theorem Goes.cons (h : Goes A [i] B) (h' : Goes B k D) : Goes A (i :: k) D :=
  h.append h'

theorem Goes.post (h : Goes A k B) (hB : ∀ v, B v → D v) : Goes A k D :=
  fun l v hv hD => h l v hv fun w hw => hD w (hB w hw)

/-- The instructions that are all done on the CPU they run on. -/
def Instr.IsLocal : Instr P Λ → Prop
  | .swtch | .enter | .kernel _ _ | .loop | .pass => False
  | _ => True

theorem safe_cons (hi : i.IsLocal) :
    Safe (i :: k) v ↔ ∀ v', v.Rely v' → i.Ok v' ∧ Safe k (i.post v') := by
  cases i <;> first | exact Iff.rfl | exact hi.elim

theorem goes_instr (hi : i.IsLocal) (hr : ∀ v v', A v → v.Rely v' → A v')
    (h : ∀ v, A v → i.Ok v ∧ B (i.post v)) : Goes A [i] B := by
  intro k v hv hB
  refine (safe_cons hi).mpr fun v' hv' => ?_
  obtain ⟨hok, hpost⟩ := h v' (hr v v' hv hv')
  exact ⟨hok, hB _ hpost⟩

/-- An instruction that runs with interrupts off. -/
theorem goes_off (hi : i.IsLocal) (hoff : ∀ v, A v → v.ifl = false)
    (h : ∀ v, A v → i.Ok v ∧ B (i.post v)) : Goes A [i] B :=
  goes_instr hi (fun v _ hv hr => (hr.eq_of_off (hoff v hv)).symm ▸ hv) h

/-- Inside `pushcli` and `popcli`, with interrupts off already. -/
structure View.Off (b : Bool) (n : ℕ) (L O : Set (Lock Λ)) (st : ProcState) (v : View Λ) :
    Prop where
  ifl : v.ifl = false
  ncli : v.ncli = n
  intena : v.intena = b
  locked : v.locked = L
  cpu : v.cpu = O
  state : v.state = st

theorem View.Off.level (h : v.Off b (n + 1) L O st) : v.Level b (n + 1) L O st :=
  ⟨h.ncli, fun h0 => by simp at h0, fun _ => ⟨h.ifl, h.intena⟩, h.locked, h.cpu, h.state⟩

theorem View.Level.toOff (h : v.Level b (n + 1) L O st) : v.Off b (n + 1) L O st :=
  ⟨h.off, h.ncli, (h.inside (by simp)).2, h.locked, h.cpu, h.state⟩

/-- `pushcli` goes one level in: at the first level `intena` gets the flag that
`readeflags` saw, which an interrupt before the `cli` cannot change. -/
theorem goes_pushcli (r : Bool) :
    Goes (P := P) (fun v => v.Level b n L O st ∧ v.regs.r = r) pushcli
      (fun v => v.Level b (n + 1) L O st ∧ v.regs.r = r) := by
  let read (v : View Λ) : Prop :=
    (v.Level b n L O st ∧ v.regs.r = r) ∧ (n = 0 → v.regs.eflags = b)
  let disabled (v : View Λ) : Prop :=
    (v.Off v.intena n L O st ∧ v.regs.r = r) ∧
      (if n = 0 then v.regs.eflags else v.intena) = b
  have hread : Goes (P := P) (fun v => v.Level b n L O st ∧ v.regs.r = r) [.readeflags] read := by
    refine goes_instr trivial (fun v v' hv hr => ⟨hv.1.rely hr, ?_⟩) fun v hv => ⟨trivial, ?_⟩
    · obtain rfl | ⟨-, -, rfl⟩ := hr <;> exact hv.2
    · obtain ⟨⟨hn, hout, hin, hL, hO, hst⟩, hr⟩ := hv
      exact ⟨⟨⟨hn, hout, hin, hL, hO, hst⟩, hr⟩, hout⟩
  have hcli : Goes (P := P) read [.cli] disabled := by
    refine goes_instr trivial (fun v v' hv hr => ⟨⟨hv.1.1.rely hr, ?_⟩, ?_⟩)
      fun v hv => ⟨trivial, ?_⟩
    · obtain rfl | ⟨-, -, rfl⟩ := hr <;> exact hv.1.2
    · obtain rfl | ⟨-, -, rfl⟩ := hr <;> exact hv.2
    · obtain ⟨⟨hl, hr⟩, he⟩ := hv
      refine ⟨⟨⟨rfl, hl.ncli, rfl, hl.locked, hl.cpu, hl.state⟩, hr⟩, ?_⟩
      split
      · next h0 => exact he h0
      · next h0 => exact (hl.inside h0).2
  have hset : Goes (P := P) disabled [.setIntena] (fun v => v.Off b n L O st ∧ v.regs.r = r) := by
    refine goes_off trivial (fun v hv => hv.1.1.ifl) fun v hv => ⟨hv.1.1.ifl, ?_⟩
    obtain ⟨⟨ho, hr⟩, hb⟩ := hv
    have hn : v.ncli = 0 ↔ n = 0 := by rw [ho.ncli]; omega
    refine ⟨⟨ho.ifl, ho.ncli, ?_, ho.locked, ho.cpu, ho.state⟩, hr⟩
    simpa only [Instr.post, hn] using hb
  have hinc : Goes (P := P) (fun v => v.Off b n L O st ∧ v.regs.r = r) [.incNcli]
      (fun v => v.Level b (n + 1) L O st ∧ v.regs.r = r) := by
    refine goes_off trivial (fun v hv => hv.1.ifl) fun v hv => ⟨hv.1.ifl, ?_, hv.2⟩
    obtain ⟨ho, -⟩ := hv
    refine View.Off.level ⟨ho.ifl, ?_, ho.intena, ho.locked, ho.cpu, ho.state⟩
    simp only [Instr.post, ho.ncli]
    omega
  exact hread.cons (hcli.cons (hset.cons hinc))

/-- `popcli` goes one level out, and turns interrupts on if they were on outside. -/
theorem goes_popcli (r : Bool) (hL : n = 0 → b = true → L = ∅) :
    Goes (P := P) (fun v => v.Level b (n + 1) L O st ∧ v.regs.r = r) popcli
      (fun v => v.Level b n L O st ∧ v.regs.r = r) := by
  have hcheck : Goes (P := P) (fun v => v.Level b (n + 1) L O st ∧ v.regs.r = r)
      [.panicIfOn .popcliInterruptible] (fun v => v.Level b (n + 1) L O st ∧ v.regs.r = r) :=
    goes_off trivial (fun v hv => hv.1.off) fun v hv => ⟨hv.1.off, hv⟩
  have hdec : Goes (P := P) (fun v => v.Level b (n + 1) L O st ∧ v.regs.r = r) [.decNcli]
      (fun v => v.Off b n L O st ∧ v.regs.r = r) := by
    refine goes_off trivial (fun v hv => hv.1.off) fun v hv => ?_
    obtain ⟨hl, hr⟩ := hv
    have hn : v.ncli = n + 1 := by simpa using hl.ncli
    refine ⟨⟨hl.off, by omega⟩, ⟨hl.off, ?_, hl.toOff.intena, hl.locked, hl.cpu, hl.state⟩, hr⟩
    simp only [Instr.post, hn]
    omega
  have hsti : Goes (P := P) (fun v => v.Off b n L O st ∧ v.regs.r = r) [.stiIfIntena]
      (fun v => v.Level b n L O st ∧ v.regs.r = r) := by
    refine goes_off trivial (fun v hv => hv.1.ifl) fun v hv => ?_
    obtain ⟨ho, hr⟩ := hv
    refine ⟨⟨ho.ifl, fun h0 hb => ?_⟩, ⟨ho.ncli, fun h0 => ?_, fun h0 => ?_, ho.locked, ho.cpu,
      ho.state⟩, hr⟩
    · rw [ho.locked]
      exact hL (by simpa [ho.ncli] using h0) (ho.intena.symm.trans hb)
    · simp [Instr.post, ho.ncli, ho.intena, h0]
    · have hn : v.ncli ≠ 0 := by simpa [ho.ncli] using h0
      simp [Instr.post, hn, ho.intena]
  exact hcheck.cons (hdec.cons hsti)

theorem Goes.forget {r : Bool → Prop} (h : ∀ r', Goes (fun v => A v ∧ v.regs.r = r') k
    fun v => B v ∧ r v.regs.r) : Goes A k B :=
  fun l v hv hB => h v.regs.r l v ⟨hv, rfl⟩ fun w hw => hB w hw.1

theorem goes_myproc (hL : n = 0 → b = true → L = ∅) :
    Goes (P := P) (Level b n L O st) myproc (Level b n L O st) :=
  Goes.forget (r := fun _ => True) fun r =>
    ((goes_pushcli r).append (goes_popcli r hL)).post fun _ hv => ⟨hv.1, trivial⟩

open Classical in
/-- `holding` finds out whether this CPU has taken the lock. -/
theorem goes_holding (lk : Lock Λ) :
    Goes (P := P) (Level b (n + 1) L O st) (holding lk)
      (fun v => v.Level b (n + 1) L O st ∧ v.regs.r = decide (lk ∈ O)) := by
  have htest : ∀ r, Goes (P := P) (fun v => v.Level b (n + 2) L O st ∧ v.regs.r = r) [.testLock lk]
      (fun v => v.Level b (n + 2) L O st ∧ v.regs.r = decide (lk ∈ O)) := by
    refine fun r => goes_off trivial (fun v hv => hv.1.off) fun v hv => ?_
    obtain ⟨hl, -⟩ := hv
    refine ⟨hl.off, ⟨hl.ncli, hl.outside, hl.inside, hl.locked, hl.cpu, hl.state⟩, ?_⟩
    simp [Instr.post, hl.cpu]
  intro k v hv hB
  exact ((goes_pushcli v.regs.r).append ((htest _).cons (goes_popcli _ (by simp)))) k v ⟨hv, rfl⟩ hB

theorem goes_acquire (hL : lk ∉ O) :
    Goes (P := P) (Level b n L O st) (acquire lk)
      (Level b (n + 1) (insert lk L) (insert lk O) st) := by
  have hcheck : Goes (P := P) (fun v => v.Level b (n + 1) L O st ∧ v.regs.r = false)
      [.panicIfHolding .acquire] (Level b (n + 1) L O st) :=
    goes_off trivial (fun v hv => hv.1.off) fun v hv => ⟨hv.2, hv.1⟩
  have hxchg : Goes (P := P) (Level b (n + 1) L O st) [.xchg lk]
      (Level b (n + 1) (insert lk L) O st) :=
    goes_off trivial (fun v hv => hv.off) fun v hl => ⟨hl.off, hl.ncli, hl.outside, hl.inside,
      by simp [Instr.post, hl.locked], hl.cpu, hl.state⟩
  have hcpu : Goes (P := P) (Level b (n + 1) (insert lk L) O st) [.setCpu lk]
      (Level b (n + 1) (insert lk L) (insert lk O) st) :=
    goes_off trivial (fun v hv => hv.off) fun v hl => ⟨⟨hl.off, by simp [hl.locked]⟩,
      hl.ncli, hl.outside, hl.inside, hl.locked, by simp [Instr.post, hl.cpu], hl.state⟩
  have hpush : Goes (P := P) (Level b n L O st) pushcli (Level b (n + 1) L O st) :=
    Goes.forget (r := fun _ => True) fun r => (goes_pushcli r).post fun _ hv => ⟨hv.1, trivial⟩
  have hhold : Goes (P := P) (Level b (n + 1) L O st) (holding lk)
      (fun v => v.Level b (n + 1) L O st ∧ v.regs.r = false) :=
    (goes_holding lk).post fun v hv => ⟨hv.1, by simpa [hL] using hv.2⟩
  exact (hpush.append hhold).append (hcheck.cons (hxchg.cons hcpu))

theorem goes_release (hlk : lk ∈ L) (hO : lk ∈ O) (hst : lk = .ptable → st = .running)
    (hL : n = 0 → b = true → L ⊆ {lk}) :
    Goes (P := P) (Level b (n + 1) L O st) (release lk) (Level b n (L \ {lk}) (O \ {lk}) st) := by
  have hcheck : Goes (P := P) (fun v => v.Level b (n + 1) L O st ∧ v.regs.r = true)
      [.panicUnlessHolding .release] (Level b (n + 1) L O st) :=
    goes_off trivial (fun v hv => hv.1.off) fun v hv => ⟨hv.2, hv.1⟩
  have hcpu : Goes (P := P) (Level b (n + 1) L O st) [.clearCpu lk]
      (Level b (n + 1) L (O \ {lk}) st) :=
    goes_off trivial (fun v hv => hv.off) fun v hl => ⟨by simpa [Instr.Ok, hl.cpu] using hO,
      hl.ncli, hl.outside, hl.inside, hl.locked, by simp [Instr.post, hl.cpu], hl.state⟩
  have hclear : Goes (P := P) (Level b (n + 1) L (O \ {lk}) st) [.clearLocked lk]
      (Level b (n + 1) (L \ {lk}) (O \ {lk}) st) :=
    goes_off trivial (fun v hv => hv.off) fun v hl =>
      ⟨⟨by rwa [hl.locked], by simp [hl.cpu], by rwa [hl.state]⟩,
        hl.ncli, hl.outside, hl.inside, by simp [Instr.post, hl.locked], hl.cpu, hl.state⟩
  have hpop : Goes (P := P) (Level b (n + 1) (L \ {lk}) (O \ {lk}) st) popcli
      (Level b n (L \ {lk}) (O \ {lk}) st) :=
    Goes.forget (r := fun _ => True) fun r =>
      (goes_popcli r fun h0 hb => Set.sdiff_eq_empty.mpr (hL h0 hb)).post
      fun _ hv => ⟨hv.1, trivial⟩
  have hhold : Goes (P := P) (Level b (n + 1) L O st) (holding lk)
      (fun v => v.Level b (n + 1) L O st ∧ v.regs.r = true) :=
    (goes_holding lk).post fun v hv => ⟨hv.1, by simpa [hO] using hv.2⟩
  exact (hhold.append (hcheck.cons (hcpu.cons hclear))).append hpop

theorem View.Level.switched (h : v.Level b 1 {.ptable} {.ptable} st) : v.Switched :=
  ⟨h.off, by simpa using h.ncli, h.locked, h.cpu⟩

/-- `sched` comes back, on whichever CPU, with the `intena` it was entered with. -/
theorem goes_sched (st : ProcState) (hst : st ≠ .running) :
    Goes (P := P) (Λ := Λ) (Level b 1 {.ptable} {.ptable} st) Cli.sched
      (fun v => (st = .runnable ∨ st = .sleeping) ∧
        v.Level b 1 {.ptable} {.ptable} .running) := by
  let entered : View Λ → Prop := Level b 1 {.ptable} {.ptable} st
  have hoff : ∀ v, entered v → v.ifl = false := fun v hv => hv.off
  have hentry : Goes (P := P) entered [.sched] entered :=
    goes_off trivial hoff fun v hv => ⟨by simpa [Instr.Ok] using hv.ncli, hv⟩
  have hheld : Goes (P := P) (fun v => entered v ∧ v.regs.r = true)
      [.panicUnlessHolding .schedPtable] entered :=
    goes_off trivial (fun v hv => hoff v hv.1) fun v hv => ⟨hv.2, hv.1⟩
  have hone : Goes (P := P) entered [.panicUnlessOne] entered :=
    goes_off trivial hoff fun v hv => ⟨⟨hoff v hv, by simpa using hv.ncli⟩, hv⟩
  have hrunning : Goes (P := P) entered [.panicIfRunning] entered :=
    goes_off trivial hoff fun v hv => ⟨fun h => hst (hv.state.symm.trans h), hv⟩
  have hon : Goes (P := P) entered [.panicIfOn .schedInterruptible] entered :=
    goes_off trivial hoff fun v hv => ⟨hoff v hv, hv⟩
  have hsave : Goes (P := P) entered [.saveIntena] (fun v => entered v ∧ v.regs.intena = b) := by
    refine goes_off trivial hoff fun v hv => ⟨hoff v hv, ?_, hv.toOff.intena⟩
    exact ⟨hv.ncli, hv.outside, hv.inside, hv.locked, hv.cpu, hv.state⟩
  have hswtch : Goes (P := P) (fun v => entered v ∧ v.regs.intena = b) [.swtch]
      (fun v => ((st = .runnable ∨ st = .sleeping) ∧ v.Switched ∧ v.state = .running) ∧
        v.regs.intena = b) := by
    intro k v hv hB v' hr
    obtain rfl := hr.eq_of_off (hoff v hv.1)
    refine ⟨hv.1.switched, fun hst' w hw hrun hregs => hB w ⟨⟨?_, hw, hrun⟩, hregs ▸ hv.2⟩⟩
    rwa [hv.1.state] at hst'
  have hrestore : Goes (P := P) (Λ := Λ)
      (fun v => ((st = .runnable ∨ st = .sleeping) ∧ v.Switched ∧ v.state = .running) ∧
        v.regs.intena = b) [.restoreIntena]
      (fun v => (st = .runnable ∨ st = .sleeping) ∧
        v.Level b 1 {.ptable} {.ptable} .running) := by
    refine goes_off trivial (fun v hv => hv.1.2.1.ifl) fun v hv => ?_
    obtain ⟨⟨hst', hs, hrun⟩, hb⟩ := hv
    exact ⟨hs.ifl, hst', View.Off.level
      ⟨hs.ifl, by simpa [Instr.post] using hs.ncli, hb, hs.locked, hs.cpu,
      hrun⟩⟩
  have hhold : Goes (P := P) entered (holding .ptable) (fun v => entered v ∧ v.regs.r = true) :=
    (goes_holding .ptable).post fun v hv => ⟨hv.1, by simpa using hv.2⟩
  exact ((hentry.cons (goes_myproc (by simp))).append hhold).append
    (hheld.cons (hone.cons (hrunning.cons (hon.cons (hsave.cons (hswtch.cons hrestore))))))

theorem goes_setState (st' : ProcState) (hL : .ptable ∈ L) :
    Goes (P := P) (Level b (n + 1) L O st) [.setState st'] (Level b (n + 1) L O st') :=
  goes_off trivial (fun v hv => hv.off) fun v hl =>
    ⟨by simpa [Instr.Ok, hl.locked] using hL, hl.ncli, hl.outside, hl.inside, hl.locked, hl.cpu,
      rfl⟩

/-- The outermost `acquire`. -/
theorem goes_acquireFirst (lk : Lock Λ) :
    Goes (P := P) (Level b 0 ∅ ∅ .running) (acquire lk) (Level b 1 {lk} {lk} .running) :=
  (goes_acquire (by simp)).post fun v hv => by simpa using hv

theorem goes_releasePtable :
    Goes (P := P) (Λ := Λ) (Level b 1 {.ptable} {.ptable} .running) (release .ptable)
      (Level b 0 ∅ ∅ .running) :=
  (goes_release (by simp) (by simp) (fun _ => rfl) (fun _ _ => subset_rfl)).post
    fun v hv => by simpa using hv

theorem goes_yield :
    Goes (P := P) (Λ := Λ) (Level b 0 ∅ ∅ .running) yield (Level b 0 ∅ ∅ .running) := by
  have hsched := (goes_sched (P := P) (Λ := Λ) (b := b) .runnable (by simp)).post
    fun v hv => hv.2
  exact (((((goes_acquireFirst _).append (goes_myproc (by simp))).append
    (goes_setState _ (by simp))).append hsched).append goes_releasePtable)

theorem goes_exit :
    Goes (P := P) (Λ := Λ) (Level b 0 ∅ ∅ .running) exit fun _ => False := by
  have hsched : Goes (P := P) (Λ := Λ) (Level b 1 {.ptable} {.ptable} .zombie) Cli.sched
      fun (_ : View Λ) => False :=
    (goes_sched _ (by simp)).post fun v hv => by simp at hv
  refine (((goes_acquireFirst _).append (goes_setState _ (by simp))).append hsched).append ?_
  exact fun _ _ hv => hv.elim

theorem goes_sleep (lk : Lock Λ) :
    Goes (P := P) (Λ := Λ) (Level b 1 {lk} {lk} .running) (sleep lk)
    (Level b 1 {lk} {lk} .running) := by
  have hsched := (goes_sched (P := P) (Λ := Λ) (b := b) .sleeping (by simp)).post
    fun v hv => hv.2
  cases lk with
  | ptable =>
    exact ((goes_myproc (by simp)).append (goes_setState _ (by simp))).append hsched
  | spin l =>
    have hptable : Goes (P := P) (Λ := Λ) (Level b 1 {.spin l} {.spin l} .running) (acquire .ptable)
        (Level b 2 {.ptable, .spin l} {.ptable, .spin l} .running) := goes_acquire (by simp)
    have hsub : ({.ptable, .spin l} : Set (Lock Λ)) \ {.spin l} = {.ptable} := by
      ext lk
      cases lk <;> simp
    have hrelease :
        Goes (P := P) (Λ := Λ) (Level b 2 {.ptable, .spin l} {.ptable, .spin l} .running)
        (release (.spin l)) (Level b 1 {.ptable} {.ptable} .running) :=
      (goes_release (by simp) (by simp) (by simp) (by simp)).post fun v hv => by
        rwa [hsub] at hv
    exact ((((((goes_myproc (by simp)).append hptable).append hrelease).append
      (goes_setState _ (by simp))).append hsched).append goes_releasePtable).append
      (goes_acquireFirst _)

theorem goes_update (u : Update P) (hL : .ptable ∈ L) :
    Goes (Level b (n + 1) L O .running) [.update u] (Level b (n + 1) L O .running) :=
  goes_off trivial (fun v hv => hv.off) fun v hv =>
    ⟨⟨by simpa [hv.locked] using hL, hv.state⟩, hv⟩

theorem safe_kernel {held : List (Hold Λ)} (hv : v.Kernel b held)
    (hk : ∀ w : View Λ, w.Kernel b [] → Safe k w) : Safe (.kernel b held :: k) v :=
  fun _ hr => ⟨hv.rely hr, hk⟩

theorem View.kernel_nil : v.Kernel b [] ↔ v.Level b 0 ∅ ∅ .running := by
  have h : locks ([] : List (Hold Λ)) = ∅ := by simp [locks]
  refine ⟨fun hv => ?_, fun hv => ⟨?_, by simp⟩⟩
  · simpa [h] using hv.level
  · simpa [h] using hv

theorem safe_enter (hv : ∃ b, v.Kernel b []) (hk : ∀ (w : View Λ) b, w.Kernel b [] → Safe k w) :
    Safe (.enter :: k) v :=
  fun _ hr => ⟨hv.imp fun _ h => h.rely hr, hk⟩

/-- The loop of `scheduler`, whatever `intena` the processes have left on its CPU. -/
theorem safe_scheduler (hn : v.ncli = 0) (hL : v.locked = ∅) (hO : v.cpu = ∅)
    (hst : v.state = .running) : Safe (P := P) scheduler v := by
  have hloop : ∀ (w : View Λ) b, w.Level b 0 ∅ ∅ .running → Safe (P := P) [.loop] w :=
    fun w b hw w' hr => by
      have h := hw.rely hr
      exact ⟨by simpa using h.ncli, h.locked, h.cpu, h.state⟩
  rw [scheduler, List.append_assoc]
  refine (safe_cons (i := .sti) trivial).mpr fun v' hr => ?_
  have hv' : v'.ncli = 0 ∧ v'.locked = ∅ ∧ v'.cpu = ∅ ∧ v'.state = .running := by
    obtain rfl | ⟨-, -, rfl⟩ := hr <;> exact ⟨hn, hL, hO, hst⟩
  obtain ⟨hn, hL, hO, hst⟩ := hv'
  refine ⟨⟨hn, hL⟩, ?_⟩
  refine goes_acquireFirst _ (b := true) _ _ ⟨hn, fun _ => rfl, by simp, hL, hO, hst⟩
    fun w hw w' hr => ?_
  obtain rfl := hr.eq_of_off hw.off
  refine ⟨hw.switched, hw.state, fun u hu hrun => ?_⟩
  exact goes_releasePtable (b := u.intena) _ _
    ⟨by simpa using hu.ncli, by simp, fun _ => ⟨hu.ifl, rfl⟩, hu.locked, hu.cpu, hrun⟩
    fun w hw => hloop w _ hw

/-- A new process starts, whatever `intena` it finds on its CPU. -/
theorem safe_forkret (hv : v.Switched) (hst : v.state = .running) : Safe (P := P) forkret v := by
  refine goes_releasePtable (b := v.intena) _ _
    ⟨by simpa using hv.ncli, by simp, fun _ => ⟨hv.ifl, rfl⟩, hv.locked, hv.cpu, hst⟩ fun w hw => ?_
  refine safe_enter ⟨_, View.kernel_nil.mpr hw⟩ fun u b hu =>
    (safe_cons (i := .iret _ _) trivial).mpr fun u' hr => ?_
  have h := View.kernel_nil.mp (hu.rely hr)
  refine ⟨fun _ => ⟨by simpa using h.ncli, h.locked⟩, safe_enter ⟨true, ?_⟩ fun _ _ _ => trivial⟩
  exact View.kernel_nil.mpr ⟨h.ncli, fun _ => rfl, by simp, h.locked, h.cpu, h.state⟩

section Calls

variable [DecidableEq Λ] {held : List (Hold Λ)}

theorem View.locks_erase_lock (hnd : ∀ l, ¬ List.Duplicate (Hold.lock l) held) :
    locks (held.erase (.lock lk)) = locks held \ {lk} := by
  ext l
  by_cases hl : l = lk
  · subst hl
    have hone : held.count (.lock l) ≤ 1 := by
      by_contra hc
      exact hnd l (List.duplicate_iff_two_le_count.mpr (by omega))
    have hzero : (held.erase (.lock l)).count (.lock l) = 0 := by
      rw [List.count_erase_self]
      omega
    simpa [locks] using List.count_eq_zero.mp hzero
  · simp [locks, List.mem_erase_of_ne, hl]

theorem View.locks_erase_cli : locks (held.erase .cli) = locks held := by
  ext l
  simp [locks, List.mem_erase_of_ne]

omit [DecidableEq Λ] in
theorem View.locks_cons (lk : Lock Λ) : locks (.lock lk :: held) = insert lk (locks held) := by
  ext l
  simp [locks]

omit [DecidableEq Λ] in
theorem View.locks_cons_cli : locks (.cli :: held) = locks held := by
  ext l
  simp [locks]

/-- A balanced call leads from kernel code to kernel code. -/
theorem goes_call {x : Call P Λ} {proc : Bool} (hx : x.Balanced proc held) :
    Goes (Kernel b held) x.code (Kernel b (x.held held)) := by
  intro k v hv hB
  have hlen {h : Hold Λ} (hh : h ∈ held) : held.length = (held.erase h).length + 1 := by
    rw [List.length_erase_of_mem hh]
    have := List.length_pos_of_mem hh
    omega
  have hlevel := hv.level
  cases x with
  | pushcli =>
    refine goes_pushcli _ k v ⟨hlevel, rfl⟩ fun w hw => hB w ⟨?_, ?_⟩
    · rw [Call.held, locks_cons_cli]
      exact hw.1
    · exact fun l hl => hv.nodup l (by simpa [Call.held, List.duplicate_cons_iff] using hl)
  | popcli =>
    rw [hlen hx] at hlevel
    refine goes_popcli _ (fun h0 _ => ?_) k v ⟨hlevel, rfl⟩ fun w hw => hB w ⟨?_, ?_⟩
    · rw [← View.locks_erase_cli, List.length_eq_zero_iff.mp h0]
      simp [locks]
    · rw [Call.held, locks_erase_cli]
      exact hw.1
    · exact fun l hl => hv.nodup l (hl.mono_sublist List.erase_sublist)
  | acquire lk =>
    refine goes_acquire (O := locks held) hx k v hlevel fun w hw => hB w ⟨?_, ?_⟩
    · rw [Call.held, locks_cons]
      exact hw
    · intro l hl
      rw [Call.held, List.duplicate_cons_iff] at hl
      obtain ⟨heq, hmem⟩ | hl := hl
      · exact hx (by simpa [heq] using hmem)
      · exact hv.nodup l hl
  | release lk =>
    rw [hlen hx] at hlevel
    refine goes_release hx hx (fun _ => rfl) (fun h0 _ => ?_) k v hlevel fun w hw => hB w ⟨?_, ?_⟩
    · rw [← Set.sdiff_eq_empty, ← locks_erase_lock hv.nodup, List.length_eq_zero_iff.mp h0]
      simp [locks]
    · rw [Call.held, locks_erase_lock hv.nodup]
      exact hw
    · exact fun l hl => hv.nodup l (hl.mono_sublist List.erase_sublist)
  | sleep lk =>
    obtain ⟨rfl, -⟩ := hx
    have hlocks : locks [Hold.lock lk] = {lk} := by ext l; simp [locks]
    rw [hlocks] at hlevel
    refine goes_sleep lk k v hlevel fun w hw => hB w ⟨?_, hv.nodup⟩
    rw [Call.held, hlocks]
    exact hw
  | yield =>
    obtain ⟨rfl, -⟩ := hx
    exact goes_yield k v (View.kernel_nil.mp hv) fun w hw => hB w (View.kernel_nil.mpr hw)
  | exit =>
    obtain ⟨rfl, -⟩ := hx
    exact goes_exit k v (View.kernel_nil.mp hv) fun w hw => hw.elim
  | update u =>
    rw [hlen hx] at hlevel
    refine goes_update u hx k v hlevel fun w hw => hB w ⟨?_, hv.nodup⟩
    rw [Call.held, hlen hx]
    exact hw

end Calls

end Functions

/-! ### Runs -/

/-- A context that can be switched to. -/
def Context.Parked (x : Context P Λ) : Prop :=
  ∀ v : View Λ, v.Switched → v.state = .running → v.regs = x.regs → Safe x.code v

/-- Every CPU runs code that is safe where it stands, and what does not run can be
switched to. -/
structure Inv (s : State P Λ C) : Prop where
  panicked : s.panicked = none
  unique : ∀ c d p, (s.cpus c).proc = some p → (s.cpus d).proc = some p → c = d
  wf : ∀ c, (s.view c).Wf
  safe : ∀ c, Safe (s.running c).code (s.view c)
  scheduler : ∀ c p, (s.cpus c).proc = some p → (s.scheduler c).Parked
  context : ∀ p, (∀ c, (s.cpus c).proc ≠ some p) → (s.state p = .runnable ∨ s.state p = .sleeping) →
    (s.context p).Parked

/-- An instruction on `c` that leaves the other CPUs and what does not run alone, and
after which the CPU looks like `v`. -/
structure Effect [DecidableEq P] [DecidableEq C] (s : State P Λ C) (c : C) (k : List (Instr P Λ))
    (v : View Λ) (s' : State P Λ C) : Prop where
  panicked : s'.panicked = s.panicked
  context : s'.context = (s.put c ⟨k, v.regs⟩).context
  scheduler : s'.scheduler = (s.put c ⟨k, v.regs⟩).scheduler
  proc : (s'.cpus c).proc = (s.cpus c).proc
  cpus : ∀ d ≠ c, s'.cpus d = s.cpus d
  state : ∀ p, (s.cpus c).proc ≠ some p → s'.state p = s.state p
  locked : ∀ d ≠ c, ∀ l, s'.locked l = some d ↔ s.locked l = some d
  cpu : ∀ d ≠ c, ∀ l, s'.cpu l = some d ↔ s.cpu l = some d
  ifl : (s'.cpus c).ifl = v.ifl
  ncli : (s'.cpus c).ncli = v.ncli
  intena : (s'.cpus c).intena = v.intena
  running : (s.cpus c).proc.elim .running s'.state = v.state
  lockedBy : ∀ l, s'.locked l = some c ↔ l ∈ v.locked
  cpuOf : ∀ l, s'.cpu l = some c ↔ l ∈ v.cpu

section Runs

variable [DecidableEq P] [DecidableEq C] {s s' : State P Λ C} {c d : C} {v : View Λ}
  {k : List (Instr P Λ)} {x : Context P Λ} {i : Instr P Λ}

namespace State

@[simp] theorem put_cpus : (s.put c x).cpus = s.cpus := by
  unfold put; cases (s.cpus c).proc <;> rfl

@[simp] theorem put_state : (s.put c x).state = s.state := by
  unfold put; cases (s.cpus c).proc <;> rfl

@[simp] theorem put_locked : (s.put c x).locked = s.locked := by
  unfold put; cases (s.cpus c).proc <;> rfl

@[simp] theorem put_cpu : (s.put c x).cpu = s.cpu := by
  unfold put; cases (s.cpus c).proc <;> rfl

@[simp] theorem put_panicked : (s.put c x).panicked = s.panicked := by
  unfold put; cases (s.cpus c).proc <;> rfl

theorem running_put : (s.put c x).running c = x := by
  unfold running put
  cases hp : (s.cpus c).proc <;> simp [hp]

theorem put_context_of_ne {p : P} (hp : (s.cpus c).proc ≠ some p) :
    (s.put c x).context p = s.context p := by
  unfold put
  cases hq : (s.cpus c).proc with
  | none => rfl
  | some q =>
    have hne : p ≠ q := fun h => hp (by rw [hq, h])
    simp [hne]

theorem put_scheduler_of_ne (hd : d ≠ c) : (s.put c x).scheduler d = s.scheduler d := by
  unfold put
  cases (s.cpus c).proc <;> simp [hd]

theorem put_scheduler_of_proc {p : P} (hp : (s.cpus c).proc = some p) :
    (s.put c x).scheduler = s.scheduler := by
  simp [put, hp]

/-- Another CPU runs another context. -/
theorem running_put_of_ne (hI : Inv s) (hd : d ≠ c) : (s.put c x).running d = s.running d := by
  unfold running
  rw [put_cpus]
  cases hp : (s.cpus d).proc with
  | none => exact put_scheduler_of_ne hd
  | some p => exact put_context_of_ne fun hc => hd (hI.unique d c p hp hc)

end State

omit [DecidableEq P] [DecidableEq C] in
theorem State.view_congr (hcpu : s'.cpus d = s.cpus d) (hr : s'.running d = s.running d)
    (hst : ∀ q, (s.cpus d).proc = some q → s'.state q = s.state q)
    (hL : ∀ l, s'.locked l = some d ↔ s.locked l = some d)
    (hC : ∀ l, s'.cpu l = some d ↔ s.cpu l = some d) : s'.view d = s.view d := by
  apply View.ext
  · exact congrArg Cpu.ifl hcpu
  · exact congrArg Cpu.ncli hcpu
  · exact congrArg Cpu.intena hcpu
  · exact congrArg Context.regs hr
  · simp only [State.view, hcpu]
    cases hp : (s.cpus d).proc with
    | none => rfl
    | some p => exact hst p hp
  · exact Set.ext hL
  · exact Set.ext hC

namespace Effect

section

variable (he : Effect s c k v s')
include he

theorem running_self : s'.running c = ⟨k, v.regs⟩ := by
  have h := State.running_put (s := s) (c := c) (x := ⟨k, v.regs⟩)
  rw [State.running, State.put_cpus] at h
  rwa [State.running, he.proc, he.context, he.scheduler]

theorem view_self : s'.view c = v := by
  apply View.ext
  · exact he.ifl
  · exact he.ncli
  · exact he.intena
  · exact congrArg Context.regs he.running_self
  · exact (congrArg (fun p => p.elim .running s'.state) he.proc).trans he.running
  · exact Set.ext he.lockedBy
  · exact Set.ext he.cpuOf

theorem running_of_ne (hI : Inv s) (hd : d ≠ c) : s'.running d = s.running d := by
  rw [← State.running_put_of_ne (x := ⟨k, v.regs⟩) hI hd, State.running, State.running,
    he.cpus d hd, he.context, he.scheduler, State.put_cpus]

theorem view_of_ne (hI : Inv s) (hd : d ≠ c) : s'.view d = s.view d :=
  State.view_congr (he.cpus d hd) (he.running_of_ne hI hd)
    (fun p hp => he.state p fun hc => hd (hI.unique d c p hp hc)) (he.locked d hd) (he.cpu d hd)

/-- Such an instruction keeps the invariant if the rest of the code is safe. -/
theorem inv (hI : Inv s) (hwf : v.Wf) (hsafe : Safe k v) : Inv s' := by
  have hproc (d : C) : (s'.cpus d).proc = (s.cpus d).proc := by
    by_cases hd : d = c
    · exact hd ▸ he.proc
    · rw [he.cpus d hd]
  refine ⟨he.panicked.trans hI.panicked, fun d d' p => ?_, fun d => ?_, fun d => ?_,
    fun d p hp => ?_, fun p hp hst => ?_⟩
  · rw [hproc, hproc]
    exact hI.unique d d' p
  · by_cases hd : d = c
    · subst hd
      rwa [he.view_self]
    · rw [he.view_of_ne hI hd]
      exact hI.wf d
  · by_cases hd : d = c
    · subst hd
      rwa [he.view_self, he.running_self]
    · rw [he.view_of_ne hI hd, he.running_of_ne hI hd]
      exact hI.safe d
  · rw [hproc] at hp
    rw [he.scheduler]
    by_cases hd : d = c
    · subst hd
      rw [State.put_scheduler_of_proc hp]
      exact hI.scheduler d p hp
    · rw [State.put_scheduler_of_ne hd]
      exact hI.scheduler d p hp
  · have hc : (s.cpus c).proc ≠ some p := fun h => hp c (he.proc.trans h)
    rw [he.context, State.put_context_of_ne hc]
    rw [he.state p hc] at hst
    exact hI.context p (fun d => hproc d ▸ hp d) hst

end

end Effect

omit [DecidableEq P] [DecidableEq C] in
theorem View.Wf.post (hv : v.Wf) (hok : i.Ok v) : (i.post v).Wf := by
  cases i with
  | readeflags | panicIfOn | panicIfHolding | panicUnlessHolding | sched | panicUnlessOne
  | panicIfRunning | saveIntena | testLock | setIntena | restoreIntena | update =>
    exact ⟨hv.off, hv.cpu, hv.state⟩
  | cli => exact ⟨by simp [Instr.post], hv.cpu, hv.state⟩
  | sti => exact ⟨fun _ => hok, hv.cpu, hv.state⟩
  | incNcli =>
    exact ⟨fun h => absurd (hok.symm.trans h) (by simp), hv.cpu, hv.state⟩
  | decNcli => exact ⟨fun h => absurd (hok.1.symm.trans h) (by simp), hv.cpu, hv.state⟩
  | stiIfIntena =>
    refine ⟨fun h => ?_, hv.cpu, hv.state⟩
    obtain ⟨hn, hi⟩ : v.ncli = 0 ∧ v.intena = true := by simpa [Instr.post] using h
    exact ⟨hn, hok.2 hn hi⟩
  | xchg lk =>
    exact ⟨fun h => absurd (hok.symm.trans h) (by simp), hv.cpu.trans (Set.subset_insert _ _),
      fun h => Set.mem_insert_of_mem _ (hv.state h)⟩
  | setCpu lk => exact ⟨hv.off, Set.insert_subset hok.2 hv.cpu, hv.state⟩
  | clearCpu lk => exact ⟨hv.off, Set.sdiff_subset.trans hv.cpu, hv.state⟩
  | clearLocked lk =>
    refine ⟨fun h => ⟨(hv.off h).1, ?_⟩, fun l hl => ⟨hv.cpu hl, ?_⟩, fun h => ⟨hv.state h, ?_⟩⟩
    · simp [Instr.post, (hv.off h).2]
    · rintro rfl
      exact hok.2.1 hl
    · intro hl
      exact h (hok.2.2 hl.symm)
  | setState st => exact ⟨hv.off, hv.cpu, fun _ => hok⟩
  | iret ifl regs => exact ⟨hok, hv.cpu, hv.state⟩
  | zombieExit | swtch | enter | kernel | loop | pass => exact hok.elim

namespace Effect

theorem cast {v' : View Λ} (he : Effect s c k v s') (hv : v = v') : Effect s c k v' s' := hv ▸ he

theorem put (r : Regs) : Effect s c k { s.view c with regs := r } (s.put c ⟨k, r⟩) where
  panicked := State.put_panicked
  context := rfl
  scheduler := rfl
  proc := by rw [State.put_cpus]
  cpus d _ := by rw [State.put_cpus]
  state p _ := by rw [State.put_state]
  locked d _ l := by rw [State.put_locked]
  cpu d _ l := by rw [State.put_cpu]
  ifl := by rw [State.put_cpus]; rfl
  ncli := by rw [State.put_cpus]; rfl
  intena := by rw [State.put_cpus]; rfl
  running := by rw [State.put_state]; rfl
  lockedBy l := by rw [State.put_locked]; rfl
  cpuOf l := by rw [State.put_cpu]; rfl

theorem setCpu (he : Effect s c k v s') {u : Cpu P} (hu : u.proc = (s.cpus c).proc) :
    Effect s c k { v with ifl := u.ifl, ncli := u.ncli, intena := u.intena } (s'.setCpu c u) :=
  { he with
    proc := by simpa [State.setCpu] using hu
    cpus := fun d hd => by simpa [State.setCpu, hd] using he.cpus d hd
    ifl := by simp [State.setCpu]
    ncli := by simp [State.setCpu]
    intena := by simp [State.setCpu] }

theorem setState {p : P} (he : Effect s c k v s') (hp : (s.cpus c).proc = some p)
    (st : ProcState) :
    Effect s c k { v with state := st } { s' with state := Function.update s'.state p st } :=
  { he with
    state := fun q hq => by
      have hne : q ≠ p := fun h => hq (h ▸ hp)
      simpa [hne] using he.state q hq
    running := by simp [hp] }

end Effect

variable [DecidableEq Λ]

namespace Effect

/-- The lock changes from or to this CPU. -/
theorem setLocked (he : Effect s c k v s') (lk : Lock Λ) (o : Option C)
    (hbefore : ∀ d ≠ c, s.locked lk ≠ some d) (hafter : ∀ d ≠ c, o ≠ some d) :
    Effect s c k { v with locked := { l | if l = lk then o = some c else l ∈ v.locked } }
      { s' with locked := Function.update s'.locked lk o } :=
  { he with
    locked := fun d hd l => by
      by_cases hl : l = lk
      · subst hl
        simp [hbefore d hd, hafter d hd]
      · simpa [hl] using he.locked d hd l
    lockedBy := fun l => by
      by_cases hl : l = lk
      · subst hl
        simp
      · simpa [hl] using he.lockedBy l }

theorem setCpuOf (he : Effect s c k v s') (lk : Lock Λ) (o : Option C)
    (hbefore : ∀ d ≠ c, s.cpu lk ≠ some d) (hafter : ∀ d ≠ c, o ≠ some d) :
    Effect s c k { v with cpu := { l | if l = lk then o = some c else l ∈ v.cpu } }
      { s' with cpu := Function.update s'.cpu lk o } :=
  { he with
    cpu := fun d hd l => by
      by_cases hl : l = lk
      · subst hl
        simp [hbefore d hd, hafter d hd]
      · simpa [hl] using he.cpu d hd l
    cpuOf := fun l => by
      by_cases hl : l = lk
      · subst hl
        simp
      · simpa [hl] using he.cpuOf l }

end Effect

omit [DecidableEq P] [DecidableEq Λ] [DecidableEq C] in
theorem Inv.locked_of_cpu (hI : Inv s) {lk : Lock Λ} (h : s.cpu lk = some d) :
    s.locked lk = some d := (hI.wf d).cpu h

omit [DecidableEq P] [DecidableEq Λ] [DecidableEq C] in
theorem State.mycpu_of_off {rest : Option (State P Λ C)} (h : (s.view c).ifl = false) :
    s.mycpu c rest = rest := if_neg (by simpa [State.view] using h)

/-- A local instruction that does not panic spins or does what its postcondition says. -/
theorem Effect.of_exec (hI : Inv s) (hi : i.IsLocal) (hu : ∀ u, i ≠ .update u)
    (hok : i.Ok (s.view c)) (he : s.exec c i k = some s') :
    s' = s ∨ Effect s c k (i.post (s.view c)) s' := by
  have hput := Effect.put (s := s) (c := c) (k := k) (s.running c).regs
  cases i with
  | readeflags =>
    cases he
    exact .inr (Effect.put _)
  | cli | sti =>
    cases he
    exact .inr (((Effect.put _).setCpu (by rfl)).cast (by rfl))
  | setIntena | incNcli | restoreIntena =>
    simp only [State.exec, State.mycpu_of_off hok, Option.some.injEq] at he
    subst he
    exact .inr (((Effect.put _).setCpu (by rfl)).cast (by rfl))
  | panicIfOn m =>
    rw [State.exec, if_neg (by simpa [Instr.Ok, State.view] using hok)] at he
    cases he
    exact .inr (Effect.put _)
  | decNcli =>
    have hn : ¬ (s.cpus c).ncli - 1 < 0 := by
      have h : 1 ≤ (s.cpus c).ncli := hok.2
      omega
    simp only [State.exec, State.mycpu_of_off hok.1, if_neg hn, Option.some.injEq] at he
    subst he
    exact .inr (((Effect.put _).setCpu (by rfl)).cast (by rfl))
  | stiIfIntena =>
    simp only [State.exec, State.mycpu_of_off hok.1, Option.some.injEq] at he
    subst he
    exact .inr (((Effect.put _).setCpu (by rfl)).cast (by rfl))
  | testLock lk =>
    have hr : s' = s.put c ⟨k, { (s.running c).regs with r := s.cpu lk == some c }⟩ := by
      simp only [State.exec, State.mycpu_of_off hok] at he
      split at he
      · exact (Option.some.inj he).symm
      · next hnone =>
        have hcpu : s.cpu lk ≠ some c := fun h => hnone (by rw [hI.locked_of_cpu h]; rfl)
        rw [← Option.some.inj he, beq_eq_false_iff_ne.mpr hcpu]
    subst hr
    refine .inr ((Effect.put _).cast ?_)
    by_cases h : s.cpu lk = some c <;> simp [Instr.post, State.view, h]
  | panicIfHolding m =>
    have h : (s.running c).regs.r = false := hok
    simp only [State.exec, h, Bool.false_eq_true, if_false, Option.some.injEq] at he
    subst he
    exact .inr (Effect.put _)
  | panicUnlessHolding m =>
    have h : (s.running c).regs.r = true := hok
    simp only [State.exec, h, if_true, Option.some.injEq] at he
    subst he
    exact .inr (Effect.put _)
  | xchg lk =>
    by_cases hfree : s.locked lk = none
    · simp only [State.exec, if_pos hfree, Option.some.injEq] at he
      subst he
      have h := hput.setLocked lk (some c) (fun d _ => by simp [hfree])
        fun d hd h => hd (Option.some.inj h).symm
      rw [State.put_locked] at h
      refine .inr (h.cast (View.ext rfl rfl rfl rfl rfl (Set.ext fun l => ?_) rfl))
      by_cases hl : l = lk <;> simp [Instr.post, State.view, hl]
    · simp only [State.exec, if_neg hfree, Option.some.injEq] at he
      exact .inl he.symm
  | setCpu lk =>
    have hlk : s.locked lk = some c := hok.2
    simp only [State.exec, State.mycpu_of_off hok.1, Option.some.injEq] at he
    subst he
    have h := hput.setCpuOf lk (some c)
      (fun d hd hd' => hd (Option.some.inj ((hI.locked_of_cpu hd').symm.trans hlk)))
      fun d hd h => hd (Option.some.inj h).symm
    rw [State.put_cpu] at h
    refine .inr (h.cast (View.ext rfl rfl rfl rfl rfl rfl (Set.ext fun l => ?_)))
    by_cases hl : l = lk <;> simp [Instr.post, State.view, hl]
  | clearCpu lk =>
    have hlk : s.cpu lk = some c := hok
    cases he
    have h := hput.setCpuOf lk none
      (fun d hd hd' => hd (Option.some.inj (hd'.symm.trans hlk))) (by simp)
    rw [State.put_cpu] at h
    refine .inr (h.cast (View.ext rfl rfl rfl rfl rfl rfl (Set.ext fun l => ?_)))
    by_cases hl : l = lk <;> simp [Instr.post, State.view, hl]
  | clearLocked lk =>
    have hlk : s.locked lk = some c := hok.1
    cases he
    have h := hput.setLocked lk none
      (fun d hd hd' => hd (Option.some.inj (hd'.symm.trans hlk))) (by simp)
    rw [State.put_locked] at h
    refine .inr (h.cast (View.ext rfl rfl rfl rfl rfl (Set.ext fun l => ?_) rfl))
    by_cases hl : l = lk <;> simp [Instr.post, State.view, hl]
  | setState st =>
    obtain ⟨p, hp, rfl⟩ := Option.map_eq_some_iff.mp he
    have h := hput.setState hp st
    rw [State.put_state] at h
    exact .inr h
  | update u => exact absurd rfl (hu u)
  | sched =>
    cases he
    exact .inr (Effect.put _)
  | panicUnlessOne =>
    have h : (s.cpus c).ncli = 1 := hok.2
    simp only [State.exec, State.mycpu_of_off hok.1, if_pos h, Option.some.injEq] at he
    subst he
    exact .inr (Effect.put _)
  | panicIfRunning =>
    obtain ⟨p, hp, he⟩ := Option.bind_eq_some_iff.mp he
    have hst : s.state p ≠ .running := by simpa [Instr.Ok, State.view, hp] using hok
    rw [if_neg hst] at he
    cases he
    exact .inr (Effect.put _)
  | saveIntena =>
    simp only [State.exec, State.mycpu_of_off hok, Option.some.injEq] at he
    subst he
    exact .inr (Effect.put _)
  | iret ifl regs =>
    cases he
    exact .inr (((Effect.put _).setCpu (by rfl)).cast (by rfl))
  | zombieExit => exact hok.elim
  | swtch | enter | kernel | loop | pass => exact hi.elim

omit [DecidableEq P] [DecidableEq Λ] [DecidableEq C] in
/-- A process that is not `RUNNING` and yet on a CPU has `ptable.lock` there. -/
theorem Inv.locked_ptable (hI : Inv s) {p : P} (hp : (s.cpus c).proc = some p)
    (hst : s.state p ≠ .running) : s.locked .ptable = some c :=
  (hI.wf c).state (by simpa [State.view, hp] using hst)

omit [DecidableEq Λ] [DecidableEq C] in
/-- The entry of a process that is on no CPU may change. -/
theorem Inv.setEntry (hI : Inv s) {q : P} (st : ProcState)
    (hq : ∀ c, (s.cpus c).proc ≠ some q) (hx : st = .runnable ∨ st = .sleeping → x.Parked) :
    Inv { s with state := Function.update s.state q st
                 context := Function.update s.context q x } := by
  have hne {d : C} {p : P} (hp : (s.cpus d).proc = some p) : p ≠ q := fun h => hq d (h ▸ hp)
  have hrun (d : C) : (s.cpus d).proc.elim (s.scheduler d) (Function.update s.context q x) =
      s.running d := by
    unfold State.running
    cases hp : (s.cpus d).proc with
    | none => rfl
    | some p => simp [hne hp]
  have hview (d : C) : State.view { s with state := Function.update s.state q st
                                           context := Function.update s.context q x } d =
      s.view d := by
    refine State.view_congr rfl (hrun d) (fun p hp => ?_) (fun _ => Iff.rfl) fun _ => Iff.rfl
    simp [hne hp]
  refine ⟨hI.panicked, hI.unique, fun d => ?_, fun d => ?_, hI.scheduler, fun p hp hst => ?_⟩
  · rw [hview]
    exact hI.wf d
  · rw [hview]
    exact (congrArg (fun y => Safe y.code (s.view d)) (hrun d)).mpr (hI.safe d)
  · by_cases h : p = q
    · subst h
      simpa using hx (by simpa using hst)
    · simpa [h] using hI.context p hp (by simpa [h] using hst)

omit [DecidableEq Λ] [DecidableEq C] in
theorem Inv.update (hI : Inv s) (hlk : s.locked .ptable = some c)
    (hrun : (s.view c).state = .running)
    (u : Update P) : Inv (s.update u) := by
  -- a process whose state is tested for here is not `RUNNING`, so it is on no CPU
  have hoff {q : P} (hq : s.state q ≠ .running) (d : C) : (s.cpus d).proc ≠ some q := by
    intro hd
    obtain rfl := Option.some.inj ((hI.locked_ptable hd hq).symm.trans hlk)
    exact hq (by simpa [State.view, hd] using hrun)
  cases u with
  | wakeup1 q =>
    rw [State.update]
    split
    · next hq =>
      have h := hI.setEntry .runnable (hoff (q := q) (by simp [hq]))
        fun _ => hI.context q (hoff (by simp [hq])) (.inr hq)
      rwa [Function.update_eq_self] at h
    · exact hI
  | reap q =>
    rw [State.update]
    split
    · next hq =>
      have h := hI.setEntry .unused (x := s.context q) (hoff (q := q) (by simp [hq]))
        fun h => by simp at h
      rwa [Function.update_eq_self] at h
    · exact hI
  | fork q =>
    rw [State.update]
    split
    · next hq =>
      exact hI.setEntry _ (hoff (by simp [hq])) fun _ v hv hst _ => safe_forkret hv hst
    · exact hI

omit [DecidableEq Λ] in
theorem Inv.put (hI : Inv s) (hk : Safe k (s.view c)) : Inv (s.put c ⟨k, (s.running c).regs⟩) :=
  (Effect.put (s.running c).regs).inv hI (hI.wf c) hk

omit [DecidableEq Λ] in
/-- `sched` hands the CPU over to its scheduler. -/
theorem Inv.swtch (hI : Inv s) {p : P} (hp : (s.cpus c).proc = some p)
    (hcode : (s.running c).code = .swtch :: k) :
    Inv ((s.put c ⟨k, (s.running c).regs⟩).setCpu c { s.cpus c with proc := none }) := by
  obtain ⟨hsw, hback⟩ : (s.view c).Switched ∧ ((s.view c).state = .runnable ∨
      (s.view c).state = .sleeping → ∀ w : View Λ, w.Switched → w.state = .running →
      w.regs = (s.view c).regs → Safe k w) := by
    have h := hI.safe c
    rw [hcode] at h
    exact h _ (.inl rfl)
  let s' := (s.put c ⟨k, (s.running c).regs⟩).setCpu c { s.cpus c with proc := none }
  have hcpu : s'.cpus c = { s.cpus c with proc := none } := by simp [s', State.setCpu]
  have hcpus {d : C} (hd : d ≠ c) : s'.cpus d = s.cpus d := by simp [s', State.setCpu, hd]
  have hsched : s'.scheduler = s.scheduler := State.put_scheduler_of_proc hp
  have hrun : s'.running c = s.scheduler c := by rw [State.running, hcpu, hsched]; rfl
  have hview : s'.view c = { s.view c with regs := (s.scheduler c).regs, state := .running } := by
    refine View.ext ?_ ?_ ?_ (congrArg Context.regs hrun) ?_ ?_ ?_ <;>
      simp [State.view, s', State.setCpu]
  have hother {d : C} (hd : d ≠ c) : s'.running d = s.running d ∧ s'.view d = s.view d := by
    have hr : s'.running d = s.running d := by
      rw [← State.running_put_of_ne (x := ⟨k, (s.running c).regs⟩) hI hd, State.running,
        State.running, hcpus hd, State.put_cpus]
      rfl
    exact ⟨hr, State.view_congr (hcpus hd) hr (by simp [s', State.setCpu])
      (by simp [s', State.setCpu]) (by simp [s', State.setCpu])⟩
  have hproc {d : C} {q : P} (hq : (s'.cpus d).proc = some q) :
      d ≠ c ∧ (s.cpus d).proc = some q := by
    have hd : d ≠ c := by
      rintro rfl
      simp [hcpu] at hq
    exact ⟨hd, hcpus hd ▸ hq⟩
  refine ⟨State.put_panicked.trans hI.panicked,
    fun d d' q hd hd' => hI.unique d d' q (hproc hd).2 (hproc hd').2, fun d => ?_, fun d => ?_,
    fun d q hq => hsched ▸ hI.scheduler d q (hproc hq).2, fun q hq hst => ?_⟩
  · by_cases hd : d = c
    · subst hd
      rw [hview]
      exact ⟨(hI.wf d).off, (hI.wf d).cpu, fun h => absurd rfl h⟩
    · rw [(hother hd).2]
      exact hI.wf d
  · by_cases hd : d = c
    · subst hd
      rw [hview, hrun]
      exact hI.scheduler d p hp _ ⟨hsw.ifl, hsw.ncli, hsw.locked, hsw.cpu⟩ rfl rfl
    · rw [(hother hd).1, (hother hd).2]
      exact hI.safe d
  · have hst : s.state q = .runnable ∨ s.state q = .sleeping := by
      simpa [s', State.setCpu] using hst
    by_cases h : q = p
    · -- the process that has just left is parked in the middle of `sched`
      subst h
      have hctx : s'.context q = ⟨k, (s.running c).regs⟩ := by
        simp [s', State.setCpu, State.put, hp]
      rw [hctx]
      exact hback (by simpa [State.view, hp] using hst)
    · have hctx : s'.context q = s.context q :=
        State.put_context_of_ne fun hq' => h (Option.some.inj (hq'.symm.trans hp))
      rw [hctx]
      refine hI.context q (fun d hd => ?_) hst
      by_cases hdc : d = c
      · subst hdc
        exact h (Option.some.inj (hd.symm.trans hp))
      · exact hq d (hcpus hdc ▸ hd)

omit [DecidableEq Λ] in
/-- The scheduler hands the CPU over to a process. -/
theorem Inv.dispatch (hI : Inv s) {p : P} (hc : (s.cpus c).proc = none)
    (hcode : (s.running c).code = .pass :: k) (hp : s.state p = .runnable) :
    Inv (s.dispatch c p) := by
  obtain ⟨hsw, -, hk⟩ : (s.view c).Switched ∧ (s.view c).state = .running ∧
      ∀ w : View Λ, w.Switched → w.state = .running → Safe k w := by
    have h := hI.safe c
    rw [hcode] at h
    exact h _ (.inl rfl)
  have hlk : s.locked .ptable = some c := by
    have h : Lock.ptable ∈ (s.view c).locked := by simp [hsw.locked]
    exact h
  -- a `RUNNABLE` process on a CPU would have `ptable.lock` there
  have hoff (d : C) : (s.cpus d).proc ≠ some p := by
    intro hd
    obtain rfl := Option.some.inj ((hI.locked_ptable hd (by simp [hp])).symm.trans hlk)
    simp [hc] at hd
  have hcpu : (s.dispatch c p).cpus c = { s.cpus c with proc := some p } := by
    simp [State.dispatch, State.setCpu]
  have hcpus {d : C} (hd : d ≠ c) : (s.dispatch c p).cpus d = s.cpus d := by
    simp [State.dispatch, State.setCpu, hd]
  have hrun : (s.dispatch c p).running c = s.context p := by rw [State.running, hcpu]; rfl
  have hview : (s.dispatch c p).view c =
      { s.view c with regs := (s.context p).regs, state := .running } := by
    refine View.ext ?_ ?_ ?_ (congrArg Context.regs hrun) ?_ rfl rfl <;>
      simp [State.view, State.dispatch, State.setCpu]
  have hother {d : C} (hd : d ≠ c) : (s.dispatch c p).running d = s.running d ∧
      (s.dispatch c p).view d = s.view d := by
    have hr : (s.dispatch c p).running d = s.running d := by
      rw [State.running, hcpus hd]
      rfl
    refine ⟨hr, State.view_congr (hcpus hd) hr (fun q hq => ?_) (fun _ => Iff.rfl) fun _ => Iff.rfl⟩
    have hne : q ≠ p := fun h => hoff d (h ▸ hq)
    simp [State.dispatch, hne]
  have hsched : (s.scheduler c).Parked := by
    have h : s.running c = s.scheduler c := by rw [State.running, hc]; rfl
    rw [← h]
    intro v hv hst _
    rw [hcode]
    intro v' hr
    obtain rfl := hr.eq_of_off hv.ifl
    exact ⟨hv, hst, hk⟩
  refine ⟨hI.panicked, fun d d' q hd hd' => ?_, fun d => ?_, fun d => ?_, fun d q hq => ?_,
    fun q hq hst => ?_⟩
  · by_cases hdc : d = c <;> by_cases hdc' : d' = c
    · rw [hdc, hdc']
    · subst hdc
      rw [hcpu] at hd
      exact absurd (hcpus hdc' ▸ hd') (Option.some.inj hd ▸ hoff d')
    · subst hdc'
      rw [hcpu] at hd'
      exact absurd (hcpus hdc ▸ hd) (Option.some.inj hd' ▸ hoff d)
    · exact hI.unique d d' q (hcpus hdc ▸ hd) (hcpus hdc' ▸ hd')
  · by_cases hd : d = c
    · subst hd
      rw [hview]
      exact ⟨(hI.wf d).off, (hI.wf d).cpu, fun h => absurd rfl h⟩
    · rw [(hother hd).2]
      exact hI.wf d
  · by_cases hd : d = c
    · subst hd
      rw [hview, hrun]
      exact hI.context p hoff (.inl hp) _ ⟨hsw.ifl, hsw.ncli, hsw.locked, hsw.cpu⟩ rfl rfl
    · rw [(hother hd).1, (hother hd).2]
      exact hI.safe d
  · by_cases hd : d = c
    · exact hd ▸ hsched
    · exact hI.scheduler d q (hcpus hd ▸ hq)
  · have h : q ≠ p := by
      rintro rfl
      exact hq c (by rw [hcpu])
    refine hI.context q (fun d hd => ?_) (by simpa [State.dispatch, h] using hst)
    by_cases hdc : d = c
    · subst hdc
      simp [hc] at hd
    · exact hq d (hcpus hdc ▸ hd)

omit [DecidableEq Λ] in
theorem Inv.interrupt (hI : Inv s) (hon : (s.cpus c).ifl = true) : Inv (s.interrupt c) := by
  obtain ⟨hn, hL⟩ := (hI.wf c).off hon
  have hO : (s.view c).cpu = ∅ := Set.subset_eq_empty (hI.wf c).cpu hL
  have hst : (s.view c).state = .running := by
    by_contra hst
    have := (hI.wf c).state hst
    simp [hL] at this
  refine (((Effect.put (s := s) (s.running c).regs).setCpu (by rfl)).inv hI ?_ ?_)
  · exact ⟨by simp, (hI.wf c).cpu, (hI.wf c).state⟩
  · refine safe_enter ⟨false, View.kernel_nil.mpr ⟨hn, fun _ => rfl, by simp, hL, hO, hst⟩⟩ ?_
    intro w b hw
    refine (safe_cons (i := .iret _ _) trivial).mpr fun w' hr => ?_
    have h := View.kernel_nil.mp (hw.rely hr)
    refine ⟨fun _ => ⟨by simpa using h.ncli, h.locked⟩,
      (hI.safe c).rely (.inr ⟨hon, w'.intena, ?_⟩)⟩
    refine View.ext hon.symm ?_ rfl rfl ?_ ?_ ?_
    · exact (by simpa using h.ncli : w'.ncli = 0).trans hn.symm
    · exact h.state.trans hst.symm
    · exact h.locked.trans hL.symm
    · exact h.cpu.trans hO.symm

theorem Inv.exec (hI : Inv s) (hcode : (s.running c).code = i :: k) (he : s.exec c i k = some s') :
    Inv s' := by
  have hsafe := hI.safe c
  rw [hcode] at hsafe
  by_cases hi : i.IsLocal
  · obtain ⟨hok, hk⟩ := (safe_cons hi).mp hsafe _ (.inl rfl)
    by_cases hu : ∃ u, i = .update u
    · obtain ⟨u, rfl⟩ := hu
      cases he
      refine (hI.put (c := c) hk).update (c := c) ?_ ?_ u
      · rw [State.put_locked]
        exact hok.1
      · have h := (Effect.put (s := s) (c := c) (k := k) (s.running c).regs).view_self
        rw [h]
        exact hok.2
    · obtain rfl | heff := Effect.of_exec hI hi (fun u h => hu ⟨u, h⟩) hok he
      · exact hI
      · exact heff.inv hI ((hI.wf c).post hok) hk
  · cases i with
    | swtch =>
      obtain ⟨p, hp, rfl⟩ := Option.map_eq_some_iff.mp he
      exact hI.swtch hp hcode
    | enter =>
      obtain ⟨⟨b, hb⟩, hk⟩ := hsafe _ (.inl rfl)
      cases he
      have hif : (s.cpus c).ifl = b := hb.level.outside rfl
      exact hI.put (safe_kernel (hif ▸ hb) fun w => hk w _)
    | kernel b held =>
      obtain ⟨hv, hk⟩ := hsafe _ (.inl rfl)
      simp only [State.exec, Option.ite_none_right_eq_some, Option.some.injEq] at he
      obtain ⟨⟨rfl, -⟩, rfl⟩ := he
      exact hI.put (hk _ hv)
    | loop =>
      obtain ⟨hn, hL, hO, hst⟩ := hsafe _ (.inl rfl)
      cases he
      exact hI.put (safe_scheduler hn hL hO hst)
    | pass =>
      obtain ⟨hsw, hst, hk⟩ := hsafe _ (.inl rfl)
      cases he
      exact hI.put (hk _ hsw hst)
    | _ => exact absurd trivial hi

theorem Inv.step {a : Action P Λ C} (hI : Inv s) (hs : step s a = some s') : Inv s' := by
  unfold Cli.step at hs
  rw [if_neg (by simp [hI.panicked])] at hs
  cases a with
  | exec c =>
    cases hcode : (s.running c).code with
    | nil => simp [hcode] at hs
    | cons i k =>
      simp only [hcode] at hs
      exact hI.exec hcode hs
  | call c x =>
    simp only at hs
    split at hs
    · next outer held k hcode =>
      simp only [Option.ite_none_right_eq_some, Option.some.injEq] at hs
      obtain ⟨hx, rfl⟩ := hs
      have hsafe := hI.safe c
      rw [hcode] at hsafe
      obtain ⟨hv, hk⟩ := hsafe _ (.inl rfl)
      -- what is recorded is what was recorded before
      have hout : (if held = [] then (s.cpus c).ifl else outer) = outer := by
        split
        · next h => exact hv.level.outside (by simp [h])
        · rfl
      rw [State.call, hout]
      exact hI.put (goes_call hx _ _ hv fun w hw => safe_kernel hw hk)
    · simp at hs
  | interrupt c =>
    simp only [Option.ite_none_right_eq_some, Option.some.injEq] at hs
    obtain ⟨hon, rfl⟩ := hs
    exact hI.interrupt hon
  | dispatch c p =>
    simp only at hs
    split at hs
    · next k hc hcode =>
      simp only [Option.ite_none_right_eq_some, Option.some.injEq] at hs
      obtain ⟨hp, rfl⟩ := hs
      exact hI.dispatch hc hcode hp
    · simp at hs

omit [DecidableEq C] [DecidableEq Λ] in
theorem inv_boot (init : P) : Inv (State.boot init : State P Λ C) where
  panicked := rfl
  unique c d p hp := by simp [State.boot] at hp
  wf c := ⟨by simp [State.view, State.boot], by simp [State.view, State.boot],
    fun h => absurd rfl h⟩
  safe c v hr := by
    obtain rfl := hr.eq_of_off rfl
    simp [State.view, State.boot]
  scheduler c p hp := by simp [State.boot] at hp
  context p _ _ v hv hst _ := safe_forkret hv hst

/-- In every state of every run: nothing has panicked; a CPU with interrupts on has an `ncli`
of 0, and a CPU that has a lock has interrupts off; `sched` is entered with an `ncli` of 1;
and kernel code that has nothing left to undo finds the interrupt flag as it was when the
code took its outermost lock, on whichever CPU it runs by now. -/
theorem interrupts_off_while_locked (init : P) (r : Run (step (P := P) (Λ := Λ) (C := C)))
    (h0 : r.state 0 = .boot init) {n : ℕ} (hn : n ≤ r.length) :
    (r.state n).panicked = none ∧
      (∀ c, ((r.state n).cpus c).ifl = true → ((r.state n).cpus c).ncli = 0) ∧
      (∀ c lk, (r.state n).locked lk = some c → ((r.state n).cpus c).ifl = false) ∧
      (∀ c k, ((r.state n).running c).code = .sched :: k → ((r.state n).cpus c).ncli = 1) ∧
      ∀ c outer k, ((r.state n).running c).code = .kernel outer [] :: k →
        ((r.state n).cpus c).ifl = outer := by
  have hI : Inv (r.state n) := r.invariant (h0 ▸ inv_boot init) (fun _ _ _ h hs => h.step hs) hn
  refine ⟨hI.panicked, fun c hon => ((hI.wf c).off hon).1, fun c lk hlk => ?_, fun c k hcode => ?_,
    fun c outer k hcode => ?_⟩
  · by_contra hon
    have hmem : lk ∈ ((r.state n).view c).locked := hlk
    rw [((hI.wf c).off (by simpa [State.view] using hon)).2] at hmem
    exact hmem
  · have hsafe := hI.safe c
    rw [hcode] at hsafe
    exact ((safe_cons (i := .sched) trivial).mp hsafe _ (.inl rfl)).1
  · have hsafe := hI.safe c
    rw [hcode] at hsafe
    exact (hsafe _ (.inl rfl)).1.level.outside rfl

/-- In every state of every run: kernel code has the locks that it has still to give back and no
others, each once, its CPU is marked in them, and `ncli` is the number of calls to undo; no other
CPU has code with one of these locks; and `swtch` is reached with `ptable.lock` alone. -/
theorem locks_held_exactly (init : P) (r : Run (step (P := P) (Λ := Λ) (C := C)))
    (h0 : r.state 0 = .boot init) {n : ℕ} (hn : n ≤ r.length) (c : C) :
    (∀ outer held k, ((r.state n).running c).code = .kernel outer held :: k →
      ((r.state n).cpus c).ncli = held.length ∧ ∀ lk, ¬ List.Duplicate (.lock lk) held ∧
        ((r.state n).locked lk = some c ↔ .lock lk ∈ held) ∧
        ((r.state n).cpu lk = some c ↔ .lock lk ∈ held) ∧
        ∀ d outer' held' k', ((r.state n).running d).code = .kernel outer' held' :: k' →
          .lock lk ∈ held → .lock lk ∈ held' → d = c) ∧
      ∀ k, ((r.state n).running c).code = .swtch :: k → ((r.state n).cpus c).ncli = 1 ∧
        ∀ lk, (r.state n).locked lk = some c ↔ lk = .ptable := by
  have hI : Inv (r.state n) := r.invariant (h0 ▸ inv_boot init) (fun _ _ _ h hs => h.step hs) hn
  have hkernel : ∀ c outer held k, ((r.state n).running c).code = .kernel outer held :: k →
      ((r.state n).view c).Kernel outer held := fun c outer held k hcode => by
    have hsafe := hI.safe c
    rw [hcode] at hsafe
    exact (hsafe _ (.inl rfl)).1
  refine ⟨fun outer held k hcode => ?_, fun k hcode => ?_⟩
  · have hc := hkernel c outer held k hcode
    refine ⟨hc.level.ncli, fun lk => ⟨hc.nodup lk, Set.ext_iff.mp hc.level.locked lk,
      Set.ext_iff.mp hc.level.cpu lk, fun d outer' held' k' hcode' hin hin' => ?_⟩⟩
    have hlc : (r.state n).locked lk = some c := (Set.ext_iff.mp hc.level.locked lk).mpr hin
    have hld : (r.state n).locked lk = some d :=
      (Set.ext_iff.mp (hkernel d outer' held' k' hcode').level.locked lk).mpr hin'
    exact Option.some.inj (hld.symm.trans hlc)
  · have hsafe := hI.safe c
    rw [hcode] at hsafe
    have hsw := (hsafe _ (.inl rfl)).1
    exact ⟨hsw.ncli, fun lk => Set.ext_iff.mp hsw.locked lk⟩

end Runs

/-- A process on CPU 0 takes a lock with interrupts on and sleeps with it; CPU 1 is interrupted
by a handler that wakes the process up, and dispatches it. -/
def moved : List (Action Unit Unit Bool) :=
  List.flatten [
    -- the scheduler of CPU 0 takes `ptable.lock` and dispatches the process
    List.replicate 17 (.exec false), [.dispatch false ()],
    -- `forkret`, the return to user space, and the lock
    List.replicate 18 (.exec false),
    [.call false (.acquire (.spin ()))], List.replicate 15 (.exec false),
    -- to the `swtch` in `sched`; the scheduler gives `ptable.lock` back
    [.call false (.sleep (.spin ()))], List.replicate 59 (.exec false),
    List.replicate 15 (.exec false),
    -- CPU 1 turns interrupts on and gets one, which wakes the process up
    List.replicate 2 (.exec true), [.interrupt true, .exec true],
    [.call true (.acquire .ptable)], List.replicate 15 (.exec true),
    [.call true (.update (.wakeup1 ())), .exec true],
    [.call true (.release .ptable)], List.replicate 16 (.exec true),
    List.replicate 15 (.exec true), [.dispatch true ()],
    -- out of `sched`; the lock is taken again and given back
    List.replicate 30 (.exec true),
    [.call true (.release (.spin ()))], List.replicate 14 (.exec true)]

theorem moved_isSome : (Run.execute step (State.boot ()) moved).isSome := by decide +kernel

/-- The process has slept on CPU 0 and released its lock on CPU 1: it has interrupts on. -/
theorem interrupts_off_while_locked_moved :
    (((Run.ofActions (State.boot ()) moved moved_isSome).state 227).cpus true).proc = some () ∧
      (((Run.ofActions (State.boot ()) moved moved_isSome).state 227).cpus true).ifl = true := by
  refine ⟨by decide +kernel, ?_⟩
  exact (interrupts_off_while_locked () (Run.ofActions (State.boot ()) moved moved_isSome) rfl
    (n := 227) (by decide +kernel)).2.2.2.2 true true [] (by decide +kernel)

/-- After step 51 the process has its lock. -/
theorem locks_held_exactly_moved :
    ((Run.ofActions (State.boot ()) moved moved_isSome).state 52).locked (.spin ()) = some false :=
  (((locks_held_exactly () (Run.ofActions (State.boot ()) moved moved_isSome) rfl (n := 52)
    (by decide +kernel) false).1 true [.lock (.spin ())] [] (by decide +kernel)).2
    (.spin ())).2.1.mpr
    (by decide)

end Xv6.Cli
