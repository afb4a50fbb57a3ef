import Mathlib.Algebra.GroupWithZero.Nat
import Mathlib.Logic.Function.Basic
import Mathlib.Data.Fin.Basic
import Xv6.Lib.Scan

/-!
# Process table and its operations

The data of `proc.h` and the functions of `proc.c` that only read and write
`ptable.proc`. `int` fields are `Int32` and `uint` fields `UInt32`, so every
counter wraps as the machine's does; a pointer into `ptable.proc` is a `Slot`
and a kernel address an `Addr` whose null pointer is `0`. The fields `tf`,
`context`, `ofile`, `cwd` and `name` are left out: no function below decides
anything by them.
-/

namespace Xv6

open TableScan

abbrev NPROC : ℕ := 64

def INTERV : Int32 := 5

/-- The queue time that promotes a process from queue 1 to queue 2. -/
def P1TO2 : Int32 := 200

def P2TO3 : Int32 := 100

def PGSIZE : UInt32 := 4096

/-- A pointer into `ptable.proc`. -/
abbrev Slot := Fin NPROC

instance : NeZero NPROC := ⟨Nat.succ_ne_zero 63⟩

/-- A kernel address; `0` is the null pointer. -/
abbrev Addr := UInt32

inductive ProcState where
  | unused
  | embryo
  | sleeping
  | runnable
  | running
  | zombie
  deriving DecidableEq, Repr

/-- What a process sleeps on: its own `struct proc` in the `wait` family, some
other kernel address everywhere else. -/
inductive Chan where
  | proc (p : Slot)
  | addr (a : Addr)
  deriving DecidableEq, Repr

structure Proc where
  sz : UInt32
  pgdir : Addr
  kstack : Addr
  state : ProcState
  pid : Int32
  parent : Option Slot
  chan : Option Chan
  killed : Bool
  priority : Int32
  ctime : UInt32
  stime : Int32
  retime : Int32
  rutime : Int32
  time_slice : Int32
  queue_time : Int32
  deriving DecidableEq, Repr

/-- A zeroed slot, as the kernel finds it at boot. -/
def Proc.zero : Proc where
  sz := 0
  pgdir := 0
  kstack := 0
  state := .unused
  pid := 0
  parent := none
  chan := none
  killed := false
  priority := 0
  ctime := 0
  stime := 0
  retime := 0
  rutime := 0
  time_slice := 0
  queue_time := 0

abbrev Ptable := Slot → Proc

/-- Apply `f` to slot `p` and leave the rest of the table alone. -/
def Ptable.modify (t : Ptable) (p : Slot) (f : Proc → Proc) : Ptable :=
  Function.update t p (f (t p))

@[simp] theorem Ptable.modify_self (t : Ptable) (p : Slot) (f : Proc → Proc) :
    t.modify p f p = f (t p) := Function.update_self ..

theorem Ptable.modify_of_ne (t : Ptable) {p i : Slot} (f : Proc → Proc) (h : i ≠ p) :
    t.modify p f i = t i := Function.update_of_ne h ..

/-! ### Allocation -/

def firstUnused (t : Ptable) : Option Slot :=
  firstFrom (fun p => (t p).state = .unused) 0

/-- What `allocproc` writes while it holds `ptable.lock`. It leaves `killed`,
`parent`, `chan` and `time_slice` as the slot had them. -/
def Proc.alloc (q : Proc) (pid : Int32) : Proc :=
  { q with
    state := .embryo
    pid := pid
    priority := 2
    retime := 0
    rutime := 0
    stime := 0
    ctime := 0
    queue_time := 0 }

/-- The two copies of the process creation code, `fork` and `set_prio`. -/
inductive ForkKind where
  | fork
  | setPrio
  deriving DecidableEq, Repr

/-- The priority that the last critical section of `fork` or `set_prio` gives
to the child. -/
def ForkKind.priority : ForkKind → Int32 → Int32
  | .fork, _ => 2
  | .setPrio, pid => pid % 3 + 1

/-! ### Scheduling -/

/-- The outer loop of `scheduler`: the first `RUNNABLE` slot from index `i` on. -/
def firstRunnable (t : Ptable) (i : ℕ) : Option Slot :=
  firstFrom (fun p => (t p).state = .runnable) i

/-- The inner loop of `scheduler`: from the slot `p` that the outer loop found,
every `RUNNABLE` slot of a strictly larger priority takes the place of
`highest_priority_p`. -/
def highestPriority (t : Ptable) (p : Slot) : Slot :=
  champion (fun q => (t q).state = .runnable) (fun q => (t q).priority)
    (List.finRange NPROC) p

/-- One selection of `scheduler`, resumed at slot `i`. The test of
`highest_priority_p` against null never fires: it was just set to `p`. -/
def select (t : Ptable) (i : ℕ) : Option Slot :=
  (firstRunnable t i).map (highestPriority t)

/-- What `scheduler` writes to the process it is about to run. -/
def Proc.dispatch (q : Proc) : Proc :=
  { q with
    state := .running
    time_slice := INTERV
    queue_time := q.queue_time + 1
    rutime := q.rutime + 1 }

/-- `q` has waited long enough in queue 2 for the aging test. -/
def Proc.Due2 (q : Proc) : Prop := q.priority = 2 ∧ P2TO3 ≤ q.queue_time

/-- `q` has waited long enough in queue 1 for the aging test. -/
def Proc.Due1 (q : Proc) : Prop := q.priority = 1 ∧ P1TO2 ≤ q.queue_time

instance (q : Proc) : Decidable q.Due2 := inferInstanceAs (Decidable (_ ∧ _))

instance (q : Proc) : Decidable q.Due1 := inferInstanceAs (Decidable (_ ∧ _))

/-- One round of the loop after `swtch` came back from the process with pid
`pid`, at the slot `q`: the times, then the aging test. Every state but
`SLEEPING` falls into the `else` branch and is charged to `retime`. -/
def Proc.account (q : Proc) (pid : Int32) : Proc :=
  { q with
    ctime := q.ctime + 1
    stime := if q.pid ≠ pid ∧ q.state = .sleeping then q.stime + 1 else q.stime
    retime := if q.pid ≠ pid ∧ q.state ≠ .sleeping then q.retime + 1 else q.retime
    queue_time := if q.Due2 then 0 else if q.Due1 then 0 else q.queue_time
    priority := if q.Due2 then 3 else if q.Due1 then 2 else q.priority }

def Ptable.account (t : Ptable) (p : Slot) : Ptable :=
  fun i => (t i).account (t p).pid

/-! ### Sleeping, killing and reaping -/

def wakeup1 (t : Ptable) (chan : Option Chan) : Ptable := fun i =>
  if (t i).state = .sleeping ∧ (t i).chan = chan then { t i with state := .runnable } else t i

/-- What `kill` writes to the slot it found. -/
def Proc.kill (q : Proc) : Proc :=
  { q with killed := true, state := if q.state = .sleeping then .runnable else q.state }

/-- The first slot that carries `pid`, whatever its state. -/
def findPid (t : Ptable) (pid : Int32) : Option Slot :=
  firstFrom (fun p => (t p).pid = pid) 0

/-- `kill`: the new table and the returned value. -/
def kill (t : Ptable) (pid : Int32) : Ptable × Int32 :=
  match findPid t pid with
  | some p => (t.modify p Proc.kill, 0)
  | none => (t, -1)

/-- `change_prio` called by the process in slot `p`. -/
def changePrio (t : Ptable) (p : Slot) (priority : Int32) : Ptable × Int32 :=
  match findPid t (t p).pid with
  | some q => (t.modify q fun x => { x with priority := priority }, 0)
  | none => (t, -1)

/-- `sys_change_prio`: only 1, 2 and 3 reach `change_prio`. -/
def sysChangePrio (t : Ptable) (p : Slot) (priority : Int32) : Ptable × Int32 :=
  if priority ≠ 1 ∧ priority ≠ 2 ∧ priority ≠ 3 then (t, -1) else changePrio t p priority

/-- One round of the loop of `exit` that passes abandoned children to init. -/
def reparentSlot (cur : Slot) (initproc : Option Slot) (t : Ptable) (i : Slot) : Ptable :=
  if (t i).parent = some cur then
    let t' := t.modify i fun x => { x with parent := initproc }
    if (t i).state = .zombie then wakeup1 t' (initproc.map .proc) else t'
  else t

/-- The loop of `exit` over the children of `cur`. -/
def reparent (t : Ptable) (cur : Slot) (initproc : Option Slot) : Ptable :=
  (List.finRange NPROC).foldl (reparentSlot cur initproc) t

/-- The three copies of `wait`. -/
inductive WaitKind where
  | wait
  | wait2
  | wait3
  deriving DecidableEq, Repr

/-- What the `wait` family writes to the child it collects. `pgdir` is freed
but keeps its value; `wait` leaves the times and the priority as they are. -/
def Proc.reap (q : Proc) : WaitKind → Proc
  | .wait => { q with kstack := 0, pid := 0, parent := none, killed := false, state := .unused }
  | .wait2 | .wait3 =>
    { q with
      kstack := 0
      pid := 0
      parent := none
      killed := false
      state := .unused
      priority := 1
      retime := 0
      rutime := 0
      stime := 0 }

/-- What a call of the `wait` family stores through its pointer arguments. -/
inductive Stored where
  | nothing
  | times (retime rutime stime : Int32)
  | prio (priority : Int32)
  deriving DecidableEq, Repr

/-- The values stored when the child `q` is collected. -/
def Proc.stored (q : Proc) : WaitKind → Stored
  | .wait => .nothing
  | .wait2 => .times q.retime q.rutime q.stime
  | .wait3 => .prio q.priority

/-- The first exited child of `cur`. -/
def firstZombieChild (t : Ptable) (cur : Slot) : Option Slot :=
  firstFrom (fun p => (t p).parent = some cur ∧ (t p).state = .zombie) 0

def haveKids (t : Ptable) (cur : Slot) : Prop := ∃ p, (t p).parent = some cur

instance (t : Ptable) (cur : Slot) : Decidable (haveKids t cur) :=
  inferInstanceAs (Decidable (∃ p, (t p).parent = some cur))

end Xv6
