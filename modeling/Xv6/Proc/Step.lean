import Mathlib.Tactic.Simps.Basic
import Xv6.Proc.Defs
import Xv6.Lib.Run

/-!
# The kernel as a transition system

Every CPU runs either its own `scheduler` thread or the kernel thread of the
process it was switched to. One step is one critical section under
`ptable.lock`, or one write that the code makes without the lock (the failure
paths of `allocproc`, `fork` and `set_prio`, the filling of an `EMBRYO` slot,
`exec`, a fatal trap). The lock travels through `swtch`: a step that ends in
`sched` leaves it held by its CPU, the scheduler goes on with it, and the
process switched to next releases it. What a step decides by itself is a
function of the state; what comes from outside (the result of `kalloc`, a
channel, a system call argument) is part of the action.
-/

namespace Xv6

open TableScan

/-- Where the thread that belongs to a CPU stands. On the boot CPU that is `main`
before `userinit` takes a slot, then `userinit` before `kalloc`, `setupkvm` and
its critical section; after that, and on every other CPU, `scheduler` before
`acquire`, in the outer loop at an index, inside `swtch` to a process, or back
from it before the accounting loop. -/
inductive CpuPc where
  | main
  | userinitKalloc (p : Slot)
  | userinitSetupkvm (p : Slot)
  | userinitReady (p : Slot)
  | idle
  | scan (i : ℕ)
  | swtch (p : Slot)
  | back (p : Slot)
  deriving DecidableEq, Repr

/-- `struct cpu`, with the program counter of the CPU's own thread. -/
structure Cpu where
  proc : Option Slot
  pc : CpuPc
  deriving DecidableEq, Repr

/-- Where the kernel thread of a process stands between two of its steps: inside
`fork` or `set_prio`, before `kalloc`, `copyuvm` or the last critical section,
or in user space and code that is not modelled here. -/
inductive Loc where
  | free
  | kalloc (k : ForkKind) (np : Slot)
  | copyuvm (k : ForkKind) (np : Slot)
  | ready (k : ForkKind) (np : Slot)
  deriving DecidableEq, Repr

/-- What a process does first when `scheduler` switches to it. -/
inductive Resume where
  | forkret
  | yield
  | sleep
  | wait (k : WaitKind)
  deriving DecidableEq, Repr

structure Thread where
  loc : Loc
  resume : Resume
  deriving DecidableEq, Repr

/-- The calls of `panic` the steps can reach. -/
inductive Panic where
  | userinitNoProc
  | userinitOutOfMemory
  | initExiting
  | switchuvmNoKstack
  | switchuvmNoPgdir
  deriving DecidableEq, Repr

/-- The kernel state: `ptable`, `nextpid`, `initproc`, `cpus`, and the control
state of all threads. `lock` is the CPU that holds `ptable.lock`. -/
structure State (ncpu : ℕ) where
  proc : Ptable
  lock : Option (Fin ncpu)
  nextpid : Int32
  initproc : Option Slot
  cpu : Fin ncpu → Cpu
  thread : Slot → Thread
  panic : Option Panic

/-- The state in which `bsp` is about to call `userinit` and the other CPUs
have entered `scheduler`. -/
def State.boot {ncpu : ℕ} (bsp : Fin ncpu) : State ncpu where
  proc _ := Proc.zero
  lock := none
  nextpid := 1
  initproc := none
  cpu c := { proc := none, pc := if c = bsp then .main else .idle }
  thread _ := { loc := .free, resume := .forkret }
  panic := none

/-- What the process running on a CPU does next. `fork` and `set_prio` are cut into
the part up to the release in `allocproc`, the rest of `allocproc` with the
result of `kalloc`, `copyuvm` with its result, and the last critical section;
`exec` is its commit to a new image, `yield` is also `sys_yield2`, and `timer`
and `fault` are what `trap` does on a timer interrupt and to a process that
misbehaves. -/
inductive Call where
  | fork (k : ForkKind)
  | kalloc (k : ForkKind) (np : Slot) (a : Addr)
  | copyuvm (k : ForkKind) (np : Slot) (a : Addr)
  | ready (k : ForkKind) (np : Slot)
  | exit
  | wait (k : WaitKind)
  | yield
  | timer
  | sleep (chan : Addr)
  | kill (pid : Int32)
  | changePrio (priority : Int32)
  | exec (pgdir : Addr) (sz : UInt32)
  | fault
  deriving DecidableEq, Repr

/-- The steps, each with the CPU and the process that take it. `select` is
`scheduler` from index `i` to the next `swtch` or to its `release`, `account` is
`scheduler` after `swtch` came back, `resume` is the process switched to up to
its release of the lock or its next `sched`, and `wakeup` comes from a process
or an interrupt handler. -/
inductive Action (ncpu : ℕ) where
  | userinit (c : Fin ncpu)
  | userinitKalloc (c : Fin ncpu) (p : Slot) (a : Addr)
  | userinitSetupkvm (c : Fin ncpu) (p : Slot) (a : Addr)
  | userinitReady (c : Fin ncpu) (p : Slot)
  | acquire (c : Fin ncpu)
  | select (c : Fin ncpu) (i : ℕ)
  | account (c : Fin ncpu) (p : Slot)
  | resume (c : Fin ncpu) (p : Slot)
  | call (c : Fin ncpu) (p : Slot) (x : Call)
  | wakeup (chan : Addr)
  deriving DecidableEq, Repr

instance {ncpu : ℕ} : Inhabited (Action ncpu) := ⟨.wakeup 0⟩

namespace State

variable {ncpu : ℕ}

@[simps] def modify (s : State ncpu) (p : Slot) (f : Proc → Proc) : State ncpu :=
  { s with proc := s.proc.modify p f }

@[simps] def setCpu (s : State ncpu) (c : Fin ncpu) (v : Cpu) : State ncpu :=
  { s with cpu := Function.update s.cpu c v }

@[simps] def setLoc (s : State ncpu) (p : Slot) (loc : Loc) : State ncpu :=
  { s with thread := Function.update s.thread p ⟨loc, (s.thread p).resume⟩ }

@[simps] def setResume (s : State ncpu) (p : Slot) (r : Resume) : State ncpu :=
  { s with thread := Function.update s.thread p ⟨(s.thread p).loc, r⟩ }

@[simps] def setLock (s : State ncpu) (l : Option (Fin ncpu)) : State ncpu := { s with lock := l }

@[simps] def fail (s : State ncpu) (m : Panic) : State ncpu := { s with panic := some m }

/-- `sched`: leave `p` at the place `r` and switch to the scheduler of `c`,
which goes on with `ptable.lock` held. -/
def sched (s : State ncpu) (c : Fin ncpu) (p : Slot) (r : Resume) : State ncpu :=
  ((s.setCpu c ⟨(s.cpu c).proc, .back p⟩).setResume p r).setLock (some c)

/-- `allocproc` up to its `release`; `none` when every slot is in use. -/
def allocproc (s : State ncpu) : Option (Slot × State ncpu) :=
  (firstUnused s.proc).map fun np =>
    (np, { s.modify np (Proc.alloc · s.nextpid) with nextpid := s.nextpid + 1 })

/-- The rest of `allocproc`: `kalloc` returns `a` and the new context will
start at `forkret`. -/
def allocKstack (s : State ncpu) (np : Slot) (a : Addr) : State ncpu :=
  if a = 0 then s.modify np fun q => { q with kstack := 0, state := .unused }
  else (s.modify np fun q => { q with kstack := a }).setResume np .forkret

/-- `userinit` up to the release in `allocproc`. With no free slot the null
result is dereferenced. -/
def userinit (s : State ncpu) (c : Fin ncpu) : State ncpu :=
  match s.allocproc with
  | none => s.fail .userinitNoProc
  | some (np, s') => s'.setCpu c ⟨(s.cpu c).proc, .userinitKalloc np⟩

def userinitKalloc (s : State ncpu) (c : Fin ncpu) (p : Slot) (a : Addr) : State ncpu :=
  if a = 0 then ((s.allocKstack p a).setCpu c ⟨(s.cpu c).proc, .main⟩).fail .userinitNoProc
  else { (s.allocKstack p a).setCpu c ⟨(s.cpu c).proc, .userinitSetupkvm p⟩ with
    initproc := some p }

def userinitSetupkvm (s : State ncpu) (c : Fin ncpu) (p : Slot) (a : Addr) : State ncpu :=
  if a = 0 then (s.modify p fun q => { q with pgdir := 0 }).fail .userinitOutOfMemory
  else (s.modify p fun q => { q with pgdir := a, sz := PGSIZE }).setCpu c
    ⟨(s.cpu c).proc, .userinitReady p⟩

/-- The end of `userinit`; the boot CPU then enters `scheduler`. -/
def userinitReady (s : State ncpu) (c : Fin ncpu) (p : Slot) : State ncpu :=
  (s.modify p fun q => { q with state := .runnable }).setCpu c ⟨none, .idle⟩

/-- `scheduler` takes `ptable.lock` and starts its outer loop. -/
def acquire (s : State ncpu) (c : Fin ncpu) : State ncpu :=
  (s.setCpu c ⟨(s.cpu c).proc, .scan 0⟩).setLock (some c)

/-- `c->proc = p`, `switchuvm(p)` with its panics, and the writes before `swtch`. -/
def dispatch (s : State ncpu) (c : Fin ncpu) (p : Slot) : State ncpu :=
  if (s.proc p).kstack = 0 then (s.setCpu c ⟨some p, (s.cpu c).pc⟩).fail .switchuvmNoKstack
  else if (s.proc p).pgdir = 0 then (s.setCpu c ⟨some p, (s.cpu c).pc⟩).fail .switchuvmNoPgdir
  else (s.modify p Proc.dispatch).setCpu c ⟨some p, .swtch p⟩

/-- The outer loop from index `i` to the next `swtch`, or to the end of the pass. -/
def select (s : State ncpu) (c : Fin ncpu) (i : ℕ) : State ncpu :=
  match Xv6.select s.proc i with
  | none => (s.setCpu c ⟨(s.cpu c).proc, .idle⟩).setLock none
  | some p => s.dispatch c p

/-- `c->proc = 0`, the accounting loop, and `p++`. -/
def account (s : State ncpu) (c : Fin ncpu) (p : Slot) : State ncpu :=
  { s with proc := s.proc.account p }.setCpu c ⟨none, .scan (p.val + 1)⟩

/-- `fork` or `set_prio` up to the release in `allocproc`; `-1` without a slot. -/
def fork (s : State ncpu) (p : Slot) (k : ForkKind) : State ncpu :=
  match s.allocproc with
  | none => s
  | some (np, s') => s'.setLoc p (.kalloc k np)

def forkKalloc (s : State ncpu) (p : Slot) (k : ForkKind) (np : Slot) (a : Addr) : State ncpu :=
  (s.allocKstack np a).setLoc p (if a = 0 then .free else .copyuvm k np)

/-- `copyuvm` returns `a`: undo the allocation, or copy the parent's fields. -/
def forkCopyuvm (s : State ncpu) (p : Slot) (k : ForkKind) (np : Slot) (a : Addr) : State ncpu :=
  if a = 0 then
    (s.modify np fun q => { q with pgdir := 0, kstack := 0, state := .unused }).setLoc p .free
  else
    (s.modify np fun q => { q with pgdir := a, sz := (s.proc p).sz, parent := some p }).setLoc p
      (.ready k np)

def forkReady (s : State ncpu) (p : Slot) (k : ForkKind) (np : Slot) : State ncpu :=
  (s.modify np fun q => { q with state := .runnable, priority := k.priority q.pid }).setLoc p .free

def exit (s : State ncpu) (c : Fin ncpu) (p : Slot) : State ncpu :=
  if s.initproc = some p then s.fail .initExiting
  else
    let t := wakeup1 s.proc ((s.proc p).parent.map .proc)
    let t := reparent t p s.initproc
    { s with proc := t.modify p fun q => { q with state := .zombie } }.sched c p .yield

def sleepOn (s : State ncpu) (c : Fin ncpu) (p : Slot) (chan : Chan) (r : Resume) : State ncpu :=
  (s.modify p fun q => { q with chan := some chan, state := .sleeping }).sched c p r

/-- One round of the `for (;;)` of the `wait` family, `ptable.lock` held. -/
def wait (s : State ncpu) (c : Fin ncpu) (p : Slot) (k : WaitKind) : State ncpu :=
  match firstZombieChild s.proc p with
  | some z => (s.modify z (Proc.reap · k)).setLock none
  | none =>
    if ¬ haveKids s.proc p ∨ (s.proc p).killed then s.setLock none
    else s.sleepOn c p (.proc p) (.wait k)

/-- What `p` does when it is switched to: `forkret` and `yield` release the
lock, `sleep` clears `chan` first, and `wait` goes round its loop again. -/
def resume (s : State ncpu) (c : Fin ncpu) (p : Slot) : State ncpu :=
  match (s.thread p).resume with
  | .forkret => s.setLock none
  | .yield => s.setLock none
  | .sleep => (s.modify p fun q => { q with chan := none }).setLock none
  | .wait k => (s.modify p fun q => { q with chan := none }).wait c p k

def yield (s : State ncpu) (c : Fin ncpu) (p : Slot) : State ncpu :=
  (s.modify p fun q => { q with state := .runnable }).sched c p .yield

/-- `trap` on a timer interrupt, for the process it interrupted. -/
def timer (s : State ncpu) (c : Fin ncpu) (p : Slot) : State ncpu :=
  if (s.proc p).time_slice ≠ 0 then
    s.modify p fun q => { q with time_slice := q.time_slice - 1 }
  else s.yield c p

/-- `exec`: it fails when `setupkvm` does, else it ends in the commit to the
new image. -/
def exec (s : State ncpu) (p : Slot) (pgdir : Addr) (sz : UInt32) : State ncpu :=
  if pgdir = 0 then s else s.modify p fun q => { q with pgdir := pgdir, sz := sz }

end State

variable {ncpu : ℕ}

/-- The call begins with `acquire(&ptable.lock)`. -/
def Call.locks (s : State ncpu) (p : Slot) : Call → Bool
  | .kalloc .. | .copyuvm .. | .exec .. | .fault => false
  | .timer => decide ((s.proc p).time_slice = 0)
  | _ => true

/-- Where the thread of the process stands when it makes the call; a timer
interrupt can come anywhere. -/
def Call.loc : Call → Option Loc
  | .kalloc k np _ => some (.kalloc k np)
  | .copyuvm k np _ => some (.copyuvm k np)
  | .ready k np => some (.ready k np)
  | .timer => none
  | _ => some .free

def Enabled (s : State ncpu) : Action ncpu → Prop
  | .userinit c => (s.cpu c).pc = .main ∧ s.lock = none
  | .userinitKalloc c p _ => (s.cpu c).pc = .userinitKalloc p
  | .userinitSetupkvm c p _ => (s.cpu c).pc = .userinitSetupkvm p
  | .userinitReady c p => (s.cpu c).pc = .userinitReady p ∧ s.lock = none
  | .acquire c => (s.cpu c).pc = .idle ∧ s.lock = none
  | .select c i => (s.cpu c).pc = .scan i
  | .account c p => (s.cpu c).pc = .back p
  | .resume c p => (s.cpu c).pc = .swtch p ∧ s.lock = some c
  | .call c p x => (s.cpu c).pc = .swtch p ∧ s.lock ≠ some c ∧
      (x.locks s p = true → s.lock = none) ∧
      (x.loc = none ∨ x.loc = some (s.thread p).loc)
  | .wakeup _ => s.lock = none

theorem loc_of_call {s : State ncpu} {p : Slot} {x : Call} {loc : Loc} (hx : x.loc = some loc)
    (h : x.loc = none ∨ x.loc = some (s.thread p).loc) : (s.thread p).loc = loc := by
  simpa [hx, eq_comm] using h

instance (s : State ncpu) (a : Action ncpu) : Decidable (Enabled s a) :=
  match a with
  | .userinit _ | .userinitReady .. | .acquire _ | .resume .. =>
    inferInstanceAs (Decidable (_ ∧ _))
  | .call .. => inferInstanceAs (Decidable (_ ∧ _ ∧ (_ → _) ∧ (_ ∨ _)))
  | .userinitKalloc .. | .userinitSetupkvm .. | .select .. | .account .. | .wakeup _ =>
    inferInstanceAs (Decidable (_ = _))

def applyCall (s : State ncpu) (c : Fin ncpu) (p : Slot) : Call → State ncpu
  | .fork k => s.fork p k
  | .kalloc k np a => s.forkKalloc p k np a
  | .copyuvm k np a => s.forkCopyuvm p k np a
  | .ready k np => s.forkReady p k np
  | .exit => s.exit c p
  | .wait k => s.wait c p k
  | .yield => s.yield c p
  | .timer => s.timer c p
  | .sleep chan => s.sleepOn c p (.addr chan) .sleep
  | .kill pid => { s with proc := (kill s.proc pid).1 }
  | .changePrio priority => { s with proc := (sysChangePrio s.proc p priority).1 }
  | .exec pgdir sz => s.exec p pgdir sz
  | .fault => s.modify p fun q => { q with killed := true }

def apply (s : State ncpu) : Action ncpu → State ncpu
  | .userinit c => s.userinit c
  | .userinitKalloc c p a => s.userinitKalloc c p a
  | .userinitSetupkvm c p a => s.userinitSetupkvm c p a
  | .userinitReady c p => s.userinitReady c p
  | .acquire c => s.acquire c
  | .select c i => s.select c i
  | .account c p => s.account c p
  | .resume c p => s.resume c p
  | .call c p x => applyCall s c p x
  | .wakeup chan => { s with proc := wakeup1 s.proc (some (.addr chan)) }

/-- One step of the kernel; a panic stops it for good. -/
def step (s : State ncpu) (a : Action ncpu) : Option (State ncpu) :=
  if s.panic = none ∧ Enabled s a then some (apply s a) else none

theorem step_eq_some_iff {s s' : State ncpu} {a : Action ncpu} :
    step s a = some s' ↔ (s.panic = none ∧ Enabled s a) ∧ s' = apply s a := by
  unfold step
  split
  · next h => simp [h, eq_comm]
  · next h => simp [h]

/-- The slot that the action dispatches, with the CPU that does it. -/
def dispatched (s : State ncpu) : Action ncpu → Option (Fin ncpu × Slot)
  | .select c i => (select s.proc i).map (c, ·)
  | _ => none

/-- The action takes a pid, by `nextpid++` in `allocproc`. -/
def allocates (s : State ncpu) : Action ncpu → Bool
  | .userinit _ | .call _ _ (.fork _) => (firstUnused s.proc).isSome
  | _ => false

/-- `s` is reached from boot in a run that takes `n` pids. -/
inductive Reachable (bsp : Fin ncpu) : ℕ → State ncpu → Prop where
  | boot : Reachable bsp 0 (State.boot bsp)
  | step {n : ℕ} {s s' : State ncpu} {a : Action ncpu} (hr : Reachable bsp n s)
      (hs : step s a = some s') : Reachable bsp (n + (allocates s a).toNat) s'

end Xv6
