import Mathlib.Data.Fintype.Card
import Mathlib.Logic.Function.Basic
import Mathlib.Tactic.Simps.Basic
import Xv6.Lib.Run

/-!
# The IDE driver and the memory disk

`ide.c` keeps the buffers whose requests wait in a list that runs through their
`qnext` fields; the disk works on the first of them, and its interrupt takes that
one off and starts the next. `memide.c` does a request at once. The machine below
runs `ide.c`: what is done with `idelock` held is one step, and so is what the disk
does by itself, which may come at any time after a command. Processes lock buffers,
do with those they have locked what they like, and call `iderw`.

The state of the memory disk can be read off a state of the machine (`State.memory`):
the request that the disk has carried out counts as done although the interrupt has
not come yet.
-/

namespace Xv6.Ide

open Function

def FSSIZE : UInt32 := 1000

/-- The fields of `struct buf` that tell what is to be done. -/
@[ext]
structure Buf (D : Type) where
  valid : Bool
  dirty : Bool
  dev : UInt32
  blockno : UInt32
  data : D
  deriving DecidableEq

/-- `(b->flags & (B_VALID|B_DIRTY)) == B_VALID` -/
def Buf.done {D : Type} (b : Buf D) : Bool := b.valid && !b.dirty

inductive Panic where
  | notLocked
  | nothingToDo
  | idestart
  | incorrectBlockno
  | notForDisk1
  | outOfRange
  deriving DecidableEq

/-! ### The memory disk -/

namespace Memide

variable {P B D : Type}

/-- `iderw` of `memide.c`, for a buffer whose lock is held if `locked`. -/
def iderw (disksize : UInt32) (locked : Bool) (disk : ℕ → D) (b : Buf D) :
    Except Panic ((ℕ → D) × Buf D) :=
  if !locked then .error .notLocked
  else if b.done then .error .nothingToDo
  else if b.dev ≠ 1 then .error .notForDisk1
  else if disksize ≤ b.blockno then .error .outOfRange
  else if b.dirty then
    .ok (update disk b.blockno.toNat b.data, { b with dirty := false, valid := true })
  else .ok (disk, { b with data := disk b.blockno.toNat, valid := true })

/-- Where a process is: not in `iderw`, or in a call that has or has not been done. -/
inductive Pc (B : Type) where
  | run
  | called (b : B)
  | served (b : B)
  deriving DecidableEq

@[ext]
structure State (P B D : Type) where
  disk : ℕ → D
  lock : B → Option P
  buf : B → Buf D
  pc : P → Pc B

inductive Action (P B D : Type) where
  | acquiresleep (p : P) (b : B)
  | releasesleep (p : P) (b : B)
  | write (p : P) (b : B) (x : Buf D)
  | call (p : P) (b : B)
  | serve (p : P)
  | ret (p : P)

variable [DecidableEq P] [DecidableEq B]

/-- Processes that call `iderw`, which is done at one moment between call and return. -/
def step (s : State P B D) : Action P B D → Option (State P B D)
  | .acquiresleep p b =>
    if s.pc p = .run ∧ s.lock b = none then
      some { s with lock := update s.lock b (some p) }
    else none
  | .releasesleep p b =>
    if s.pc p = .run ∧ s.lock b = some p then some { s with lock := update s.lock b none } else none
  | .write p b x =>
    if s.pc p = .run ∧ s.lock b = some p then some { s with buf := update s.buf b x } else none
  | .call p b => if s.pc p = .run then some { s with pc := update s.pc p (.called b) } else none
  | .serve p =>
    match s.pc p with
    | .called b =>
      match iderw FSSIZE (s.lock b == some p) s.disk (s.buf b) with
      | .ok (disk, x) =>
        some { s with disk := disk, buf := update s.buf b x, pc := update s.pc p (.served b) }
      | .error _ => none
    | _ => none
  | .ret p =>
    match s.pc p with
    | .served _ => some { s with pc := update s.pc p .run }
    | _ => none

end Memide

/-! ### The disk -/

/-- The registers that `idestart` writes before the command. -/
structure Regs where
  lba0 : UInt8
  lba1 : UInt8
  lba2 : UInt8
  device : UInt8
  deriving DecidableEq

/-- The sector that the registers name. -/
def Regs.sector (r : Regs) : ℕ :=
  r.lba0.toNat + 2 ^ 8 * r.lba1.toNat + 2 ^ 16 * r.lba2.toNat + 2 ^ 24 * (r.device.toNat % 2 ^ 4)

/-- Whether they name disk 1. -/
def Regs.disk1 (r : Regs) : Bool := r.device.toNat / 2 ^ 4 % 2 == 1

inductive Command (D : Type) where
  | read (r : Regs)
  | write (r : Regs) (data : D)

structure Controller (D : Type) where
  /-- disk 1 -/
  blocks : ℕ → D
  busy : Option (Command D)
  /-- what `insl` reads -/
  data : D
  irq : Bool

/-- The command is carried out, and the interrupt raised. -/
def Controller.execute {D : Type} (c : Controller D) : Option (Controller D) :=
  c.busy.bind fun cmd =>
    match cmd with
    | .read r =>
      if r.disk1 then some { c with data := c.blocks r.sector, busy := none, irq := true } else none
    | .write r data =>
      if r.disk1 then
        some { c with blocks := update c.blocks r.sector data, busy := none, irq := true }
      else none

/-! ### The driver -/

/-- Where a process is: not in `iderw`; in `iderw` before it takes `idelock`; asleep on the
buffer; or awake again and about to take `idelock`. -/
inductive Pc (B : Type) where
  | run
  | entered (b : B)
  | asleep (b : B)
  | awake (b : B)
  deriving DecidableEq

def Pc.buf {B : Type} : Pc B → Option B
  | .run => none
  | .entered b | .asleep b | .awake b => some b

/-- Where the process is on the memory disk. -/
def Pc.memory {B : Type} (done : B → Bool) : Pc B → Memide.Pc B
  | .run => .run
  | .entered b | .asleep b | .awake b => if done b then .served b else .called b

structure State (P B D : Type) where
  disk : Controller D
  lock : B → Option P
  buf : B → Buf D
  qnext : B → Option B
  idequeue : Option B
  pc : P → Pc B
  panicked : Option Panic

inductive Action (P B D : Type) where
  | acquiresleep (p : P) (b : B)
  | releasesleep (p : P) (b : B)
  | write (p : P) (b : B) (x : Buf D)
  | call (p : P) (b : B)
  | enter (p : P)
  | resume (p : P)
  | execute
  | ideintr
  deriving Inhabited

variable {P B D : Type}

/-- The registers for a request for `b`, of one sector. -/
def Buf.regs (b : Buf D) : Regs where
  lba0 := (b.blockno &&& 0xff).toUInt8
  lba1 := (b.blockno >>> 8 &&& 0xff).toUInt8
  lba2 := (b.blockno >>> 16 &&& 0xff).toUInt8
  device := ((0xe0 : UInt32) ||| (b.dev &&& 1) <<< 4 ||| (b.blockno >>> 24 &&& 0x0f)).toUInt8

/-- A block is one sector, so the number of the block is that of the sector. -/
def Buf.command (b : Buf D) : Command D :=
  if b.dirty then .write b.regs b.data else .read b.regs

/-- What `ideintr` makes of the buffer, with `data` from the disk. -/
def Buf.finish (b : Buf D) (data : D) : Buf D :=
  { b with data := if b.dirty then b.data else data, valid := true, dirty := false }

namespace State

def panic (s : State P B D) (m : Panic) : State P B D := { s with panicked := some m }

/-- `idestart`; spins while the disk is busy. -/
def idestart (s : State P B D) : Option B → Option (State P B D)
  | none => some (s.panic .idestart)
  | some b =>
    if FSSIZE ≤ (s.buf b).blockno then some (s.panic .incorrectBlockno)
    else if s.disk.busy.isSome then none
    else some { s with disk := { s.disk with busy := some (s.buf b).command } }

/-- `*pp`, where `none` stands for `&idequeue` and `some b` for `&b->qnext`. -/
def deref (s : State P B D) (pp : Option B) : Option B := pp.elim s.idequeue s.qnext

/-- `for(; *pp; pp=&(*pp)->qnext);`, for as many rounds as given. -/
def findEnd (s : State P B D) : ℕ → Option B → Option (Option B)
  | 0, _ => none
  | n + 1, pp => (s.deref pp).elim (some pp) fun b => s.findEnd n (some b)

variable [DecidableEq P] [DecidableEq B]

/-- `*pp = b` -/
def assign (s : State P B D) (b : B) : Option B → State P B D
  | none => { s with idequeue := some b }
  | some c => { s with qnext := update s.qnext c (some b) }

/-- The loop of `iderw` that waits for the request, with `idelock` held. -/
def wait (s : State P B D) (p : P) (b : B) : State P B D :=
  { s with pc := update s.pc p (if (s.buf b).done then .run else .asleep b) }

/-- `wakeup(b)` -/
def wakeup (s : State P B D) (b : B) : State P B D :=
  { s with pc := fun p => if s.pc p = .asleep b then .awake b else s.pc p }

/-- `iderw` up to where it takes `idelock`. -/
def iderw (s : State P B D) (p : P) (b : B) : State P B D :=
  if s.lock b ≠ some p then s.panic .notLocked
  else if (s.buf b).done then s.panic .nothingToDo
  else { s with pc := update s.pc p (.entered b) }

/-- `iderw` from where it takes `idelock`. -/
def enqueue [Fintype B] (s : State P B D) (p : P) (b : B) : Option (State P B D) :=
  let s := { s with qnext := update s.qnext b none }
  (s.findEnd (Fintype.card B + 1) none).bind fun pp =>
    let s := s.assign b pp
    (if s.idequeue = some b then s.idestart (some b) else some s).map fun s => s.wait p b

/-- `ideintr` -/
def ideintr (s : State P B D) : Option (State P B D) :=
  match s.idequeue with
  | none => some s
  | some b =>
    let s := { s with
      idequeue := s.qnext b
      buf := update s.buf b ((s.buf b).finish s.disk.data) }
    let s := s.wakeup b
    if s.idequeue ≠ none then s.idestart s.idequeue else some s

end State

section Step

variable [DecidableEq P] [DecidableEq B] [Fintype B]

/-- Calls are made for buffers of disk 1 with a block number of the file system. -/
def step (s : State P B D) (a : Action P B D) : Option (State P B D) :=
  if s.panicked ≠ none then none
  else
    match a with
    | .acquiresleep p b =>
      if s.pc p = .run ∧ s.lock b = none then some { s with lock := update s.lock b (some p) }
      else none
    | .releasesleep p b =>
      if s.pc p = .run ∧ s.lock b = some p then some { s with lock := update s.lock b none }
      else none
    | .write p b x =>
      if s.pc p = .run ∧ s.lock b = some p then some { s with buf := update s.buf b x } else none
    | .call p b =>
      if s.pc p = .run ∧ s.lock b = some p ∧ !(s.buf b).done ∧ (s.buf b).dev = 1 ∧
          (s.buf b).blockno < FSSIZE then
        some (s.iderw p b)
      else none
    | .enter p =>
      match s.pc p with
      | .entered b => s.enqueue p b
      | _ => none
    | .resume p =>
      match s.pc p with
      | .awake b => some (s.wait p b)
      | _ => none
    | .execute => s.disk.execute.map fun d => { s with disk := d }
    | .ideintr =>
      if s.disk.irq then { s with disk := { s.disk with irq := false } }.ideintr else none

end Step

/-! ### The state of the memory disk -/

section Memory

variable [DecidableEq B]

namespace State

/-- The buffer, with the request done if the disk has carried it out. -/
def memoryBuf (s : State P B D) (b : B) : Buf D :=
  if s.idequeue = some b ∧ s.disk.busy = none then (s.buf b).finish s.disk.data else s.buf b

def memory (s : State P B D) : Memide.State P B D where
  disk := s.disk.blocks
  lock := s.lock
  buf := s.memoryBuf
  pc p := (s.pc p).memory fun b => (s.memoryBuf b).done

/-- What a step is on the memory disk: the request is served when the disk carries it out. -/
def label (s : State P B D) : Action P B D → Option (Memide.Action P B D)
  | .acquiresleep p b => some (.acquiresleep p b)
  | .releasesleep p b => some (.releasesleep p b)
  | .write p b x => some (.write p b x)
  | .call p b => some (.call p b)
  | .enter _ | .ideintr => none
  | .resume p => (s.pc p).buf.bind fun b => if (s.buf b).done then some (.ret p) else none
  | .execute => (s.idequeue.bind s.lock).map .serve

end State

end Memory

/-- The list in the `qnext` fields, from a pointer on. -/
def IsList (qnext : B → Option B) : Option B → List B → Prop
  | o, [] => o = none
  | o, b :: l => o = some b ∧ IsList qnext (qnext b) l

/-- A process is in a call for a buffer that it has locked, and waits while the buffer is in
the queue `l`. -/
def Pc.Ok (s : State P B D) (l : List B) (p : P) (x : Pc B) : Prop :=
  (∀ b, x.buf = some b → s.lock b = some p ∧ (s.buf b).dev = 1 ∧ (s.buf b).blockno < FSSIZE) ∧
    match x with
    | .run => True
    | .entered b => b ∉ l ∧ (s.buf b).done = false
    | .asleep b => b ∈ l ∧ (s.buf b).done = false
    | .awake b => b ∈ l ↔ (s.buf b).done = false

/-- The queue `l`, the processes and the disk agree. -/
structure Inv (s : State P B D) (l : List B) : Prop where
  panicked : s.panicked = none
  list : IsList s.qnext s.idequeue l
  nodup : l.Nodup
  proc : ∀ p, (s.pc p).Ok s l p
  queued : ∀ b ∈ l, ∃ p, (s.pc p).buf = some b
  idle : l = [] → s.disk.busy = none ∧ s.disk.irq = false
  head : ∀ b, l.head? = some b →
    s.disk.busy = some (s.buf b).command ∧ s.disk.irq = false ∨
      s.disk.busy = none ∧ s.disk.irq = true

section Lemmas

variable {s s' : State P B D} {l : List B} {b c : B} {p q : P} {x : Buf D}

theorem Buf.done_finish (x : Buf D) (d : D) : (x.finish d).done = true := rfl

theorem toNat_byte (y : UInt32) : (y &&& 0xff).toUInt8.toNat = y.toNat % 2 ^ 8 := by
  rw [UInt32.toNat_toUInt8, UInt32.toNat_and]
  exact (Nat.mod_eq_of_lt (Nat.and_lt_two_pow _ (by decide))).trans
    (Nat.and_two_pow_sub_one_eq_mod _ 8)

theorem Buf.toNat_blockno_lt (h : x.blockno < FSSIZE) : x.blockno.toNat < 1000 := by
  simpa [FSSIZE, UInt32.lt_iff_toNat_lt] using h

theorem Buf.device_regs (hdev : x.dev = 1) (h : x.blockno < FSSIZE) : x.regs.device = 0xf0 := by
  have hzero : x.blockno >>> 24 = 0 := by
    apply UInt32.toNat_inj.mp
    rw [UInt32.toNat_shiftRight, Nat.shiftRight_eq_div_pow]
    exact Nat.div_eq_of_lt (lt_trans (toNat_blockno_lt h) (by decide))
  rw [Buf.regs, hdev, hzero]
  rfl

theorem Buf.disk1_regs (hdev : x.dev = 1) (h : x.blockno < FSSIZE) : x.regs.disk1 = true := by
  rw [Regs.disk1, device_regs hdev h]
  rfl

/-- The disk finds the block that the driver has named. -/
theorem Buf.sector_regs (hdev : x.dev = 1) (h : x.blockno < FSSIZE) :
    x.regs.sector = x.blockno.toNat := by
  have h0 : x.regs.lba0.toNat = x.blockno.toNat % 2 ^ 8 := toNat_byte _
  have h1 : x.regs.lba1.toNat = x.blockno.toNat / 2 ^ 8 % 2 ^ 8 := by
    rw [Buf.regs, toNat_byte, UInt32.toNat_shiftRight, Nat.shiftRight_eq_div_pow]
    rfl
  have h2 : x.regs.lba2.toNat = x.blockno.toNat / 2 ^ 16 % 2 ^ 8 := by
    rw [Buf.regs, toNat_byte, UInt32.toNat_shiftRight, Nat.shiftRight_eq_div_pow]
    rfl
  have h3 : (240 : UInt8).toNat % 2 ^ 4 = 0 := rfl
  have hn := toNat_blockno_lt h
  rw [Regs.sector, h0, h1, h2, device_regs hdev h, h3]
  omega

/-! ### The list -/

variable {qnext qnext' : B → Option B} {o : Option B}

theorem IsList.congr (h : ∀ b ∈ l, qnext' b = qnext b) (hl : IsList qnext o l) :
    IsList qnext' o l := by
  induction l generalizing o with
  | nil => exact hl
  | cons b l ih =>
    refine ⟨hl.1, ?_⟩
    rw [h b (by simp)]
    exact ih (fun c hc => h c (by simp [hc])) hl.2

theorem IsList.head? (hl : IsList qnext o l) : o = l.head? := by
  cases l with
  | nil => exact hl
  | cons b l => exact hl.1

/-- The search for the end of the list ends at its last buffer. -/
theorem State.findEnd_eq {n : ℕ} {pp : Option B} (hl : IsList s.qnext (s.deref pp) l)
    (hn : l.length < n) : s.findEnd n pp = some (l.getLast?.or pp) := by
  induction n generalizing l pp with
  | zero => omega
  | succ n ih =>
    cases l with
    | nil =>
      rw [findEnd, show s.deref pp = none from hl]
      rfl
    | cons b l =>
      have hrest : IsList s.qnext (s.deref (some b)) l := hl.2
      rw [findEnd, hl.1, Option.elim_some, ih hrest (by simpa using hn)]
      cases l with
      | nil => rfl
      | cons c l => simp [List.getLast?_cons]

theorem IsList.concat [DecidableEq B] (hb : qnext b = none) (hnd : (l ++ [b]).Nodup)
    (hc : l.getLast? = some c) (hl : IsList qnext o l) :
    IsList (update qnext c (some b)) o (l ++ [b]) := by
  induction l generalizing o with
  | nil => simp at hc
  | cons d l ih =>
    refine ⟨hl.1, ?_⟩
    cases l with
    | nil =>
      obtain rfl : d = c := by simpa using hc
      have hne : b ≠ d := by
        rintro rfl
        simp at hnd
      simp [IsList, hne, hb]
    | cons e l =>
      have hne : d ≠ c := by
        rintro rfl
        have hmem : d ∈ e :: l := List.mem_of_getLast? (by simpa using hc)
        exact (List.nodup_cons.mp hnd).1 (List.mem_append_left _ hmem)
      rw [update_of_ne hne]
      exact ih (List.nodup_cons.mp hnd).2 (by simpa using hc) hl.2

/-- A buffer assigned to the end of the list is its new last one. -/
theorem State.isList_assign [DecidableEq B] (hb : s.qnext b = none) (hnd : (l ++ [b]).Nodup)
    (hl : IsList s.qnext s.idequeue l) :
    IsList (s.assign b l.getLast?).qnext (s.assign b l.getLast?).idequeue (l ++ [b]) := by
  cases hc : l.getLast? with
  | none =>
    obtain rfl := List.getLast?_eq_none_iff.mp hc
    exact ⟨rfl, hb⟩
  | some c => exact hl.concat hb hnd hc

/-! ### The invariant -/

/-- What a process waits for depends on its buffer only. -/
theorem Pc.Ok.congr {y : Pc B} {l' : List B} (h : y.Ok s l p)
    (hlock : ∀ b, y.buf = some b → s'.lock b = s.lock b)
    (hbuf : ∀ b, y.buf = some b → s'.buf b = s.buf b)
    (hl : ∀ b, y.buf = some b → (b ∈ l' ↔ b ∈ l)) : y.Ok s' l' p := by
  refine ⟨fun b hb => ?_, ?_⟩
  · rw [hlock b hb, hbuf b hb]
    exact h.1 b hb
  · cases y with
    | run => trivial
    | entered b | asleep b | awake b =>
      simp only [hbuf b rfl, hl b rfl]
      exact h.2

theorem Pc.memory_of_buf {y : Pc B} {done : B → Bool} (hy : y.buf = some b) :
    y.memory done = if done b then .served b else .called b := by
  cases y with
  | run => simp [Pc.buf] at hy
  | entered c | asleep c | awake c =>
    cases hy
    rfl

theorem Pc.memory_congr {y y' : Pc B} {done done' : B → Bool} (hy : y'.buf = y.buf)
    (hdone : ∀ b, y.buf = some b → done' b = done b) : y'.memory done' = y.memory done := by
  cases hb : y.buf with
  | none =>
    have hrun {z : Pc B} (hz : z.buf = none) : z = .run := by cases z <;> simp_all [Pc.buf]
    rw [hrun hb, hrun (hy.trans hb)]
    rfl
  | some b => rw [memory_of_buf hb, memory_of_buf (hy.trans hb), hdone b hb]

namespace Inv

section

variable (hI : Inv s l)
include hI

theorem idequeue : s.idequeue = l.head? := hI.list.head?

theorem mem_of_idequeue (hb : s.idequeue = some b) : b ∈ l :=
  List.mem_of_mem_head? (hI.idequeue ▸ hb)

theorem call (hp : (s.pc p).buf = some b) :
    s.lock b = some p ∧ (s.buf b).dev = 1 ∧ (s.buf b).blockno < FSSIZE := (hI.proc p).1 b hp

theorem unique (hp : (s.pc p).buf = some b) (hq : (s.pc q).buf = some b) : q = p :=
  Option.some.inj ((hI.call hq).1.symm.trans (hI.call hp).1)

theorem ne_of_run (hp : s.pc p = .run) (hb : s.lock b = some p) (hq : (s.pc q).buf = some c) :
    c ≠ b := by
  rintro rfl
  obtain rfl := Option.some.inj ((hI.call hq).1.symm.trans hb)
  simp [hp, Pc.buf] at hq

/-- The buffers of a process that is not in `iderw` are not queued. -/
theorem notMem_of_run (hp : s.pc p = .run) (hb : s.lock b = some p) : b ∉ l := by
  intro hmem
  obtain ⟨q, hq⟩ := hI.queued b hmem
  exact hI.ne_of_run hp hb hq rfl

/-- What is queued is not done. -/
theorem done_of_mem (hb : b ∈ l) : (s.buf b).done = false := by
  obtain ⟨p, hp⟩ := hI.queued b hb
  have hok := (hI.proc p).2
  cases hpc : s.pc p with
  | run => simp [hpc, Pc.buf] at hp
  | entered c | asleep c | awake c =>
    obtain rfl : c = b := by simpa [hpc, Pc.buf] using hp
    simp only [hpc] at hok
    tauto

/-- A disk at work works on the first buffer. -/
theorem of_busy {cmd : Command D} (hbusy : s.disk.busy = some cmd) :
    ∃ b l', l = b :: l' ∧ cmd = (s.buf b).command ∧ s.disk.irq = false := by
  cases l with
  | nil => exact absurd (hI.idle rfl).1 (by simp [hbusy])
  | cons b l' =>
    obtain ⟨h, hirq⟩ | ⟨h, -⟩ := hI.head b rfl
    · exact ⟨b, l', rfl, Option.some.inj (hbusy.symm.trans h), hirq⟩
    · simp [hbusy] at h

/-- An interrupt tells that the first request is done. -/
theorem of_irq (hirq : s.disk.irq = true) : ∃ b l', l = b :: l' ∧ s.disk.busy = none := by
  cases l with
  | nil => simp [(hI.idle rfl).2] at hirq
  | cons b l' =>
    obtain ⟨-, h⟩ | ⟨h, -⟩ := hI.head b rfl
    · simp [h] at hirq
    · exact ⟨b, l', rfl, h⟩

theorem memoryBuf_of_notMem [DecidableEq B] (hb : b ∉ l) : s.memoryBuf b = s.buf b :=
  if_neg fun h => hb (hI.mem_of_idequeue h.1)

end

end Inv

/-! ### Steps -/

section Steps

variable [DecidableEq P] [DecidableEq B]

/-- The step `a` from `s` keeps the invariant and is a step on the memory disk, or none. -/
def Simulated (s : State P B D) (a : Action P B D) (s' : State P B D) : Prop :=
  (∃ l, Inv s' l) ∧
    (s.label a).elim (s'.memory = s.memory) fun x => Memide.step s.memory x = some s'.memory

omit [DecidableEq P] in
theorem State.memory_pc_run (hp : s.pc p = .run) : s.memory.pc p = .run := by
  simp [memory, hp, Pc.memory]

omit [DecidableEq B] in
theorem Inv.setPc (hI : Inv s l) {y : Pc B} (hy : y.Ok s l p)
    (hkeep : ∀ b ∈ l, (s.pc p).buf = some b → y.buf = some b) :
    Inv { s with pc := update s.pc p y } l := by
  refine { hI with proc := fun q => ?_, queued := fun b hb => ?_ }
  · by_cases h : q = p
    · subst h
      simp only [update_self]
      exact hy.congr (fun _ _ => rfl) (fun _ _ => rfl) fun _ _ => Iff.rfl
    · simp only [update_of_ne h]
      exact (hI.proc q).congr (fun _ _ => rfl) (fun _ _ => rfl) fun _ _ => Iff.rfl
  · obtain ⟨q, hq⟩ := hI.queued b hb
    by_cases h : q = p
    · subst h
      exact ⟨q, by simpa only [update_self] using hkeep b hb hq⟩
    · exact ⟨q, by simpa only [update_of_ne h] using hq⟩

theorem State.memory_setPc (y : Pc B) :
    State.memory { s with pc := update s.pc p y } =
      { s.memory with pc := update s.memory.pc p (y.memory fun b => (s.memoryBuf b).done) } := by
  refine Memide.State.ext rfl rfl rfl (funext fun q => ?_)
  by_cases h : q = p
  · subst h
    simp only [State.memory, update_self]
    rfl
  · simp only [State.memory, update_of_ne h]
    rfl

section

variable (hI : Inv s l) (hp : s.pc p = .run)
include hI hp

theorem simulated_acquiresleep (hb : s.lock b = none) :
    Simulated s (.acquiresleep p b) { s with lock := update s.lock b (some p) } := by
  refine ⟨⟨l, { hI with proc := fun q => ?_ }⟩, if_pos ⟨State.memory_pc_run hp, hb⟩⟩
  refine (hI.proc q).congr (fun c hq => update_of_ne ?_ _ _) (fun _ _ => rfl) fun _ _ => Iff.rfl
  rintro rfl
  exact absurd (hI.call hq).1 (by simp [hb])

variable (hb : s.lock b = some p)
include hb

theorem simulated_releasesleep :
    Simulated s (.releasesleep p b) { s with lock := update s.lock b none } := by
  refine ⟨⟨l, { hI with proc := fun q => ?_ }⟩, if_pos ⟨State.memory_pc_run hp, hb⟩⟩
  exact (hI.proc q).congr (fun c hq => update_of_ne (hI.ne_of_run hp hb hq) _ _)
    (fun _ _ => rfl) fun _ _ => Iff.rfl

theorem simulated_write :
    Simulated s (.write p b x) { s with buf := update s.buf b x } := by
  have hnot := hI.notMem_of_run hp hb
  have hne : s.idequeue ≠ some b := fun h => hnot (hI.mem_of_idequeue h)
  have hmemory : State.memoryBuf { s with buf := update s.buf b x } = update s.memoryBuf b x := by
    funext c
    by_cases hc : c = b
    · subst hc
      simp [State.memoryBuf, hne]
    · simp [State.memoryBuf, hc]
  refine ⟨⟨l, { hI with proc := fun q => ?_, head := fun c hc => ?_ }⟩, ?_⟩
  · exact (hI.proc q).congr (fun _ _ => rfl)
      (fun c hq => update_of_ne (hI.ne_of_run hp hb hq) _ _) fun _ _ => Iff.rfl
  · have hcb : c ≠ b := fun h => hnot (h ▸ List.mem_of_mem_head? hc)
    simpa only [update_of_ne hcb] using hI.head c hc
  · refine (if_pos ⟨State.memory_pc_run hp, hb⟩).trans (congrArg some ?_)
    refine Memide.State.ext rfl rfl hmemory.symm (funext fun q => ?_)
    refine Pc.memory_congr rfl fun c hq => ?_
    rw [hmemory, update_of_ne (hI.ne_of_run hp hb hq)]

theorem simulated_call (hdone : (s.buf b).done = false) (hdev : (s.buf b).dev = 1)
    (hblockno : (s.buf b).blockno < FSSIZE) : Simulated s (.call p b) (s.iderw p b) := by
  have hnot := hI.notMem_of_run hp hb
  have hs' : s.iderw p b = { s with pc := update s.pc p (.entered b) } := by
    simp [State.iderw, hb, hdone]
  rw [hs']
  refine ⟨⟨l, hI.setPc ⟨fun c hc => ?_, hnot, hdone⟩ fun c _ hc => ?_⟩, ?_⟩
  · obtain rfl : b = c := by simpa [Pc.buf] using hc
    exact ⟨hb, hdev, hblockno⟩
  · simp [hp, Pc.buf] at hc
  · refine (if_pos (State.memory_pc_run hp)).trans (congrArg some ?_)
    rw [State.memory_setPc, Pc.memory, hI.memoryBuf_of_notMem hnot, hdone]
    rfl

end

theorem simulated_resume (hI : Inv s l) (hp : s.pc p = .awake b) :
    Simulated s (.resume p) (s.wait p b) := by
  have hbuf : (s.pc p).buf = some b := by rw [hp]; rfl
  have hiff : b ∈ l ↔ (s.buf b).done = false := by
    have h := (hI.proc p).2
    rwa [hp] at h
  cases hdone : (s.buf b).done with
  | true =>
    have hnot : b ∉ l := fun h => by simp [hiff.mp h] at hdone
    have hs' : s.wait p b = { s with pc := update s.pc p .run } := by simp [State.wait, hdone]
    have hserved : s.memory.pc p = .served b := by
      simp [State.memory, hp, Pc.memory, hI.memoryBuf_of_notMem hnot, hdone]
    rw [hs']
    refine ⟨⟨l, hI.setPc ⟨fun c hc => by simp [Pc.buf] at hc, trivial⟩ fun c hc hp' => ?_⟩, ?_⟩
    · obtain rfl : b = c := Option.some.inj (hbuf.symm.trans hp')
      exact absurd hc hnot
    · simp only [State.label, hbuf, Option.bind_some, hdone, if_true, Option.elim_some, Memide.step,
        hserved]
      rw [State.memory_setPc]
      rfl
  | false =>
    have hs' : s.wait p b = { s with pc := update s.pc p (.asleep b) } := by
      simp [State.wait, hdone]
    have hcalled : s.memory.pc p = Pc.memory (fun b => (s.memoryBuf b).done) (.asleep b) := by
      simp [State.memory, hp, Pc.memory]
    rw [hs']
    refine ⟨⟨l, hI.setPc ⟨fun c hc => hI.call (hbuf.trans hc), hiff.mpr hdone, hdone⟩
      fun c _ hp' => hbuf.symm.trans hp'⟩, ?_⟩
    simp only [State.label, hbuf, Option.bind_some, hdone, Bool.false_eq_true, if_false,
      Option.elim_none]
    rw [State.memory_setPc, ← hcalled, update_eq_self]

omit [DecidableEq P] [DecidableEq B] in
/-- What `iderw` of `memide.c` does, for the calls that are made. -/
theorem Memide.iderw_eq {disk : ℕ → D} (hdone : x.done = false) (hdev : x.dev = 1)
    (hblockno : x.blockno < FSSIZE) :
    Memide.iderw FSSIZE true disk x =
      .ok (if x.dirty then update disk x.blockno.toNat x.data else disk,
        x.finish (disk x.blockno.toNat)) := by
  have h : ¬ FSSIZE ≤ x.blockno := UInt32.not_le.mpr hblockno
  cases hdirty : x.dirty <;> simp [Memide.iderw, Buf.finish, hdone, hdev, h, hdirty]

omit [DecidableEq P] [DecidableEq B] in
/-- What the disk does, for the requests that are started. -/
theorem Controller.execute_eq {d : Controller D} (hbusy : d.busy = some x.command)
    (hdev : x.dev = 1) (hblockno : x.blockno < FSSIZE) :
    d.execute = some
      { blocks := if x.dirty then update d.blocks x.blockno.toNat x.data else d.blocks
        busy := none
        data := if x.dirty then d.data else d.blocks x.blockno.toNat
        irq := true } := by
  cases hdirty : x.dirty <;>
    simp [Controller.execute, hbusy, Buf.command, hdirty, Buf.disk1_regs hdev hblockno,
      Buf.sector_regs hdev hblockno]

theorem Memide.step_serve {m : Memide.State P B D} {disk : ℕ → D} (hpc : m.pc p = .called b)
    (h : Memide.iderw FSSIZE (m.lock b == some p) m.disk (m.buf b) = .ok (disk, x)) :
    Memide.step m (.serve p) = some
      { m with disk := disk, buf := update m.buf b x, pc := update m.pc p (.served b) } := by
  simp only [Memide.step, hpc, h]

theorem simulated_execute {d : Controller D} (hI : Inv s l) (hd : s.disk.execute = some d) :
    Simulated s .execute { s with disk := d } := by
  obtain ⟨cmd, hbusy, -⟩ := Option.bind_eq_some_iff.mp hd
  obtain ⟨b, l', rfl, rfl, -⟩ := hI.of_busy hbusy
  obtain ⟨p, hp⟩ := hI.queued b (by simp)
  obtain ⟨hlock, hdev, hblockno⟩ := hI.call hp
  have hdone := hI.done_of_mem (b := b) (by simp)
  have hhead : s.idequeue = some b := hI.idequeue
  have hlabel : s.label .execute = some (.serve p) := by simp [State.label, hhead, hlock]
  have hd' := Option.some.inj (hd.symm.trans (Controller.execute_eq hbusy hdev hblockno))
  have hidle : d.busy = none := by rw [hd']
  have hirq : d.irq = true := by rw [hd']
  have hbefore : s.memoryBuf = s.buf := funext fun c => if_neg fun h => by simp [hbusy] at h
  have hcalled : s.memory.pc p = .called b := by
    simp [State.memory, Pc.memory_of_buf hp, hbefore, hdone]
  -- afterwards the buffer counts as done
  have hafter : State.memoryBuf { s with disk := d } =
      update s.memoryBuf b ((s.buf b).finish (s.disk.blocks (s.buf b).blockno.toNat)) := by
    funext c
    rw [hbefore]
    by_cases hc : c = b
    · subst hc
      cases hdirty : (s.buf c).dirty <;> simp [State.memoryBuf, hhead, Buf.finish, hdirty, hd']
    · simp [State.memoryBuf, hhead, hc, Ne.symm hc]
  refine ⟨⟨b :: l', { hI with
    proc := fun q => (hI.proc q).congr (fun _ _ => rfl) (fun _ _ => rfl) fun _ _ => Iff.rfl
    idle := fun h => by simp at h
    head := fun c _ => .inr ⟨hidle, hirq⟩ }⟩, ?_⟩
  rw [hlabel, Option.elim_some, Memide.step_serve (b := b) hcalled]
  · refine congrArg some (Memide.State.ext ?_ rfl hafter.symm (funext fun q => ?_))
    · exact (congrArg Controller.blocks hd').symm
    · by_cases hq : q = p
      · subst hq
        refine (update_self _ _ _).trans ?_
        simp [State.memory, Pc.memory_of_buf hp, hafter, Buf.done_finish]
      · refine (update_of_ne hq _ _).trans (Pc.memory_congr rfl fun c hc => ?_)
        have hcb : c ≠ b := fun h => hq (hI.unique hp (h ▸ hc))
        rw [hafter, update_of_ne hcb]
  · have hbuf : s.memory.buf b = s.buf b := congrFun hbefore b
    have hlocked : (s.memory.lock b == some p) = true := by simp [State.memory, hlock]
    rw [hlocked, hbuf]
    exact Memide.iderw_eq hdone hdev hblockno

/-- The buffer of the process becomes the last one of the queue, and its request is started if
there is no other. -/
theorem simulated_enqueue (hI : Inv s l) (hp : s.pc p = .entered b)
    (hlist : IsList s'.qnext s'.idequeue (l ++ [b]))
    (hdisk : s'.disk = if l = [] then { s.disk with busy := some (s.buf b).command } else s.disk)
    (hpc : s'.pc = update s.pc p (.asleep b)) (hlock : s'.lock = s.lock) (hbuf : s'.buf = s.buf)
    (hpanicked : s'.panicked = s.panicked) : Simulated s (.enter p) s' := by
  have hcall : (s.pc p).buf = some b := by rw [hp]; rfl
  obtain ⟨hnot, hdone⟩ : b ∉ l ∧ (s.buf b).done = false := by
    have h := (hI.proc p).2
    rwa [hp] at h
  have hbufs (q : P) : (s'.pc q).buf = (s.pc q).buf := by
    by_cases hq : q = p
    · subst hq
      rw [hpc, update_self, hcall]
      rfl
    · rw [hpc, update_of_ne hq]
  have hmemory : s'.memoryBuf = s.memoryBuf := by
    funext c
    cases hl : l with
    | nil =>
      -- the request has just been started
      have hnone : s.idequeue = none := by rw [hI.idequeue, hl]; rfl
      simp [State.memoryBuf, hbuf, hdisk, hl, hnone]
    | cons d l' =>
      have hhead : s'.idequeue = s.idequeue := by
        rw [hlist.head?, hI.idequeue, hl]
        rfl
      simp [State.memoryBuf, hbuf, hdisk, hl, hhead]
  refine ⟨⟨l ++ [b], hpanicked.trans hI.panicked, hlist, ?_, fun q => ?_, fun c hc => ?_,
    fun h => by simp at h, fun c hc => ?_⟩, Memide.State.ext ?_ hlock hmemory (funext fun q => ?_)⟩
  · exact List.concat_eq_append ▸ hI.nodup.concat hnot
  · by_cases hq : q = p
    · subst hq
      rw [hpc, update_self]
      refine Pc.Ok.congr (s := s) (l := l ++ [b]) ?_ (fun _ _ => by rw [hlock])
        (fun _ _ => by rw [hbuf]) fun _ _ => Iff.rfl
      exact ⟨fun c hc => hI.call (hcall.trans hc), by simp, hdone⟩
    · rw [hpc, update_of_ne hq]
      refine (hI.proc q).congr (fun _ _ => by rw [hlock]) (fun _ _ => by rw [hbuf]) fun c hc => ?_
      have hcb : c ≠ b := fun h => hq (hI.unique hcall (h ▸ hc))
      simp [hcb]
  · obtain hc | hc := List.mem_append.mp hc
    · obtain ⟨q, hq⟩ := hI.queued c hc
      exact ⟨q, (hbufs q).trans hq⟩
    · exact ⟨p, by rw [hbufs, hcall, List.mem_singleton.mp hc]⟩
  · cases hl : l with
    | nil =>
      obtain rfl : b = c := by simpa [hl] using hc
      exact .inl ⟨by simp [hdisk, hl, hbuf], by simp [hdisk, hl, (hI.idle hl).2]⟩
    | cons d l' =>
      rw [hdisk, hbuf, if_neg (by simp [hl])]
      exact hI.head c (by simpa [hl] using hc)
  · cases hl : l <;> simp [State.memory, hdisk, hl]
  · exact Pc.memory_congr (hbufs q) fun c _ => by rw [hmemory]

theorem simulated_enter [Fintype B] (hI : Inv s l) (hp : s.pc p = .entered b)
    (hs : s.enqueue p b = some s') : Simulated s (.enter p) s' := by
  obtain ⟨hnot, hdone⟩ : b ∉ l ∧ (s.buf b).done = false := by
    have h := (hI.proc p).2
    rwa [hp] at h
  have hblockno : ¬ FSSIZE ≤ (s.buf b).blockno :=
    UInt32.not_le.mpr (hI.call (b := b) (p := p) (by rw [hp]; rfl)).2.2
  have hnd : (l ++ [b]).Nodup := List.concat_eq_append ▸ hI.nodup.concat hnot
  let s₁ : State P B D := { s with qnext := update s.qnext b none }
  have hlist₁ : IsList s₁.qnext s₁.idequeue l :=
    hI.list.congr fun c hc => update_of_ne (fun h : c = b => hnot (h ▸ hc)) none s.qnext
  -- the list is not longer than there are buffers
  have hend : s₁.findEnd (Fintype.card B + 1) none = some l.getLast? := by
    rw [State.findEnd_eq (l := l) hlist₁ (Nat.lt_succ_of_le hI.nodup.length_le_card),
      Option.or_none]
  have hlist := State.isList_assign (s := s₁) (update_self b none s.qnext) hnd hlist₁
  have hs : ((if (s₁.assign b l.getLast?).idequeue = some b then
      (s₁.assign b l.getLast?).idestart (some b) else some (s₁.assign b l.getLast?)).map
        fun s => s.wait p b) = some s' := by
    rw [← hs, State.enqueue]
    simp only [s₁] at hend ⊢
    rw [hend]
    rfl
  cases hl : l with
  | nil =>
    have hidle := hI.idle hl
    subst hl
    simp only [List.getLast?_nil, State.assign, if_true, State.idestart, s₁, if_neg hblockno,
      hidle.1, Option.isSome_none, Bool.false_eq_true, if_false, Option.map_some, State.wait,
      hdone, Option.some.injEq] at hs
    subst hs
    exact simulated_enqueue hI hp hlist (by simp) rfl rfl rfl rfl
  | cons c l' =>
    obtain ⟨d, hd⟩ : ∃ d, l.getLast? = some d := by
      rw [hl, List.getLast?_cons]
      exact ⟨_, rfl⟩
    have hhead : s.idequeue ≠ some b := fun h => hnot (hI.mem_of_idequeue h)
    rw [hd] at hs hlist
    simp only [State.assign, s₁, hhead, if_false, Option.map_some, State.wait, hdone,
      Bool.false_eq_true, Option.some.injEq] at hs
    subst hs
    exact simulated_enqueue hI hp hlist (by simp [hl]) rfl rfl rfl rfl

/-- The interrupt takes the first buffer off the queue, which shows on the memory disk as
done already, and starts the next one. -/
theorem simulated_ideintr (hI : Inv s l) (hirq : s.disk.irq = true)
    (hs : State.ideintr { s with disk := { s.disk with irq := false } } = some s') :
    Simulated s .ideintr s' := by
  obtain ⟨b, l', rfl, hbusy⟩ := hI.of_irq hirq
  have hhead : s.idequeue = some b := hI.idequeue
  obtain ⟨hnot, hnd⟩ := List.nodup_cons.mp hI.nodup
  have hnext : s.qnext b = l'.head? := hI.list.2.head?
  obtain ⟨p, hp⟩ := hI.queued b (by simp)
  have hfields : s'.buf = update s.buf b ((s.buf b).finish s.disk.data) ∧ s'.lock = s.lock ∧
      s'.qnext = s.qnext ∧ s'.idequeue = l'.head? ∧ s'.panicked = s.panicked ∧
      (∀ q, s'.pc q = if s.pc q = .asleep b then .awake b else s.pc q) ∧
      s'.disk = { s.disk with irq := false, busy := l'.head?.map fun c => (s.buf c).command } := by
    simp only [State.ideintr, hhead, State.wakeup, hnext] at hs
    cases hl : l' with
    | nil =>
      simp only [hl, List.head?_nil, ne_eq, not_true_eq_false, if_false, Option.some.injEq] at hs
      subst hs
      simp [hbusy]
    | cons c l'' =>
      obtain ⟨q, hq⟩ := hI.queued c (by simp [hl])
      have hcb : c ≠ b := by
        rintro rfl
        simp [hl] at hnot
      have hblockno : ¬ FSSIZE ≤ (s.buf c).blockno := UInt32.not_le.mpr (hI.call hq).2.2
      simp only [hl, List.head?_cons, ne_eq, reduceCtorEq, not_false_eq_true, if_true,
        State.idestart, update_of_ne hcb, hblockno, if_false, hbusy, Option.isSome_none,
        Bool.false_eq_true, Option.some.injEq] at hs
      subst hs
      simp
  obtain ⟨hbuf, hlock, hqnext, hidequeue, hpanicked, hpc, hdisk⟩ := hfields
  have hbufs (q : P) : (s'.pc q).buf = (s.pc q).buf := by
    rw [hpc]
    split
    · next h => rw [h]; rfl
    · rfl
  have hmemory : s'.memoryBuf = s.memoryBuf := by
    funext c
    have hstarted : ¬ (s'.idequeue = some c ∧ s'.disk.busy = none) := by
      rintro ⟨hc, hnone⟩
      rw [hidequeue] at hc
      simp [hdisk, hc] at hnone
    by_cases hc : c = b
    · subst hc
      simp [State.memoryBuf, hstarted, hbuf, hhead, hbusy]
    · simp [State.memoryBuf, hstarted, hbuf, hhead, hc, Ne.symm hc]
  refine ⟨⟨l', hpanicked.trans hI.panicked, ?_, hnd, fun q => ?_, fun c hc => ?_, fun h => ?_,
    fun c hc => .inl ⟨?_, ?_⟩⟩, Memide.State.ext ?_ hlock hmemory (funext fun q => ?_)⟩
  · rw [hqnext, hidequeue, ← hnext]
    exact hI.list.2
  · by_cases hq : (s.pc q).buf = some b
    · have hawake : s'.pc q = .awake b := by
        have hok := (hI.proc q).2
        rw [hpc]
        cases hpcq : s.pc q with
        | run => simp [hpcq, Pc.buf] at hq
        | entered c => simp_all [Pc.buf]
        | asleep c | awake c => simp_all [Pc.buf]
      rw [hawake]
      refine ⟨fun c hc => ?_, iff_of_false hnot ?_⟩
      · obtain rfl : b = c := by simpa [Pc.buf] using hc
        rw [hlock, hbuf, update_self]
        exact hI.call hq
      · simp [hbuf, Buf.done_finish]
    · have hsame : s'.pc q = s.pc q := by
        rw [hpc, if_neg fun h => hq (by rw [h]; rfl)]
      have hcb {c : B} (hc : (s.pc q).buf = some c) : c ≠ b := fun h => hq (h ▸ hc)
      rw [hsame]
      exact (hI.proc q).congr (fun _ _ => by rw [hlock])
        (fun c hc => by rw [hbuf, update_of_ne (hcb hc)]) fun c hc => by simp [hcb hc]
  · obtain ⟨q, hq⟩ := hI.queued c (by simp [hc])
    exact ⟨q, (hbufs q).trans hq⟩
  · simp [hdisk, h]
  · have hcb : c ≠ b := fun h => hnot (h ▸ List.mem_of_mem_head? hc)
    rw [hdisk, hbuf, update_of_ne hcb, hc]
    rfl
  · rw [hdisk]
  · rw [State.memory, hdisk]
    rfl
  · exact Pc.memory_congr (hbufs q) fun c _ => by rw [hmemory]

theorem Inv.step [Fintype B] {a : Action P B D} (hI : Inv s l) (hs : Ide.step s a = some s') :
    Simulated s a s' := by
  unfold Ide.step at hs
  rw [if_neg (by simp [hI.panicked])] at hs
  cases a with
  | acquiresleep p b =>
    simp only [Option.ite_none_right_eq_some, Option.some.injEq] at hs
    obtain ⟨⟨hp, hb⟩, rfl⟩ := hs
    exact simulated_acquiresleep hI hp hb
  | releasesleep p b =>
    simp only [Option.ite_none_right_eq_some, Option.some.injEq] at hs
    obtain ⟨⟨hp, hb⟩, rfl⟩ := hs
    exact simulated_releasesleep hI hp hb
  | write p b x =>
    simp only [Option.ite_none_right_eq_some, Option.some.injEq] at hs
    obtain ⟨⟨hp, hb⟩, rfl⟩ := hs
    exact simulated_write hI hp hb
  | call p b =>
    simp only [Option.ite_none_right_eq_some, Option.some.injEq] at hs
    obtain ⟨⟨hp, hb, hdone, hdev, hblockno⟩, rfl⟩ := hs
    exact simulated_call hI hp hb (by simpa using hdone) hdev hblockno
  | enter p =>
    simp only at hs
    split at hs
    · next b hp => exact simulated_enter hI hp hs
    · simp at hs
  | resume p =>
    simp only at hs
    split at hs
    · next b hp =>
      cases hs
      exact simulated_resume hI hp
    · simp at hs
  | execute =>
    obtain ⟨d, hd, rfl⟩ := Option.map_eq_some_iff.mp hs
    exact simulated_execute hI hd
  | ideintr =>
    simp only [Option.ite_none_right_eq_some] at hs
    exact simulated_ideintr hI hs.1 hs.2

end Steps

end Lemmas

section Runs

variable [DecidableEq P] [DecidableEq B] [Fintype B] {s : State P B D}

/-- No process is in `iderw`, and the disk has nothing to do. -/
def State.Idle (s : State P B D) : Prop :=
  s.panicked = none ∧ s.idequeue = none ∧ (∀ p, s.pc p = .run) ∧ s.disk.busy = none ∧
    s.disk.irq = false

omit [DecidableEq P] [DecidableEq B] [Fintype B] in
theorem State.Idle.inv (h : s.Idle) : Inv s [] := by
  obtain ⟨hpanicked, hqueue, hpc, hbusy, hirq⟩ := h
  refine ⟨hpanicked, hqueue, by simp, fun p => ?_, by simp, fun _ => ⟨hbusy, hirq⟩, by simp⟩
  rw [hpc p]
  exact ⟨fun b hb => by simp [Pc.buf] at hb, trivial⟩

omit [Fintype B] in
/-- On the memory disk, a call ends by returning. -/
theorem Memide.ret_of_step {m m' : Memide.State P B D} {x : Memide.Action P B D} {p : P}
    (h : Memide.step m x = some m') (hp : m.pc p ≠ .run) (hp' : m'.pc p = .run) :
    x = .ret p ∧ (∃ b, m.pc p = .served b) ∧ m'.buf = m.buf ∧ m'.lock = m.lock := by
  cases x with
  | acquiresleep q b | releasesleep q b | write q b x =>
    simp only [Memide.step, Option.ite_none_right_eq_some, Option.some.injEq] at h
    obtain ⟨-, rfl⟩ := h
    exact absurd hp' hp
  | call q b =>
    simp only [Memide.step, Option.ite_none_right_eq_some, Option.some.injEq] at h
    obtain ⟨hq, rfl⟩ := h
    have hne : p ≠ q := fun h => hp (h ▸ hq)
    exact absurd (by simpa [hne] using hp') hp
  | serve q =>
    simp only [Memide.step] at h
    split at h
    · split at h
      · cases h
        by_cases hne : p = q
        · simp [hne] at hp'
        · exact absurd (by simpa [hne] using hp') hp
      · simp at h
    · simp at h
  | ret q =>
    simp only [Memide.step] at h
    split at h
    · next b hq =>
      cases h
      by_cases hne : p = q
      · subst hne
        exact ⟨rfl, ⟨b, hq⟩, rfl, rfl⟩
      · exact absurd (by simpa [hne] using hp') hp
    · simp at h

omit [DecidableEq P] [Fintype B] in
theorem State.memory_pc_eq_run {p : P} : s.memory.pc p = .run ↔ s.pc p = .run := by
  cases hp : s.pc p <;> simp [State.memory, Pc.memory, hp] <;> split <;> simp

omit [DecidableEq P] [Fintype B] in
theorem Inv.memory_buf {l : List B} {b : B} (hI : Inv s l) (hb : ∀ p, (s.pc p).buf ≠ some b) :
    s.memory.buf b = s.buf b :=
  hI.memoryBuf_of_notMem fun h => (hI.queued b h).elim hb

omit [Fintype B] in
/-- A call returns when its buffer is done. -/
theorem Simulated.ret {s' : State P B D} {a : Action P B D} {p : P} {b : B} (h : Simulated s a s')
    (hp : (s.pc p).buf = some b) (hp' : s'.pc p = .run) (hlock : s.lock b = some p) :
    s.label a = some (.ret p) ∧ (s'.buf b).valid = true ∧ (s'.buf b).dirty = false := by
  obtain ⟨⟨l', hI'⟩, hsim⟩ := h
  have hcall : s.memory.pc p ≠ .run := fun h => by
    simp [State.memory_pc_eq_run.mp h, Pc.buf] at hp
  have hrun : s'.memory.pc p = .run := State.memory_pc_eq_run.mpr hp'
  cases hx : s.label a with
  | none =>
    rw [hx, Option.elim_none] at hsim
    exact absurd (hsim ▸ hrun) hcall
  | some x =>
    rw [hx, Option.elim_some] at hsim
    obtain ⟨rfl, ⟨c, hc⟩, hbuf, hlock'⟩ := Memide.ret_of_step hsim hcall hrun
    have hdone : (s.memoryBuf b).done = true := by
      by_contra hnot
      simp [State.memory, Pc.memory_of_buf hp, hnot] at hc
    have hsame : s'.buf b = s.memoryBuf b := by
      rw [← hI'.memory_buf fun q hq => hI'.ne_of_run hp' ((congrFun hlock' b).trans hlock) hq rfl]
      exact congrFun hbuf b
    rw [hsame]
    exact ⟨rfl, by simpa [Buf.done] using hdone⟩

/-- Every run is a run on the memory disk, with the same locks, the same accesses to locked
buffers, the same calls and the same returns: there is a memory disk `m` that at each step
does what the step's label says, in particular serves a call once between its beginning and
its end; it has the blocks that the disk has, and the buffers that are in no call are the
same. Nothing panics, a call that returns has its buffer valid and clean, and the queue is a
list of different buffers whose first one is the request that the disk has been given. -/
theorem ide_refines_memide (r : Run (step (P := P) (B := B) (D := D))) (h0 : (r.state 0).Idle) :
    (∃ m : ℕ → Memide.State P B D,
      (∀ k < r.length, ((r.state k).label (r.action k)).elim (m (k + 1) = m k) fun x =>
        Memide.step (m k) x = some (m (k + 1))) ∧
      ∀ k ≤ r.length, (m k).disk = (r.state k).disk.blocks ∧ (m k).lock = (r.state k).lock ∧
        (∀ b, (∀ p, ((r.state k).pc p).buf ≠ some b) → (m k).buf b = (r.state k).buf b) ∧
        ∀ p, (r.state k).pc p = .run ↔ (m k).pc p = .run) ∧
    (∀ k < r.length, ∀ p b, ((r.state k).pc p).buf = some b → (r.state (k + 1)).pc p = .run →
      (r.state k).label (r.action k) = some (.ret p) ∧
        ((r.state (k + 1)).buf b).valid = true ∧ ((r.state (k + 1)).buf b).dirty = false) ∧
    ∀ k ≤ r.length, (r.state k).panicked = none ∧
      ∃ l, IsList (r.state k).qnext (r.state k).idequeue l ∧ l.Nodup ∧
        (l = [] → (r.state k).disk.busy = none ∧ (r.state k).disk.irq = false) ∧
        ∀ b, l.head? = some b →
          (r.state k).disk.busy = some ((r.state k).buf b).command ∧ (r.state k).disk.irq = false ∨
            (r.state k).disk.busy = none ∧ (r.state k).disk.irq = true := by
  have hI (k : ℕ) (hk : k ≤ r.length) : ∃ l, Inv (r.state k) l :=
    r.invariant (I := fun s => ∃ l, Inv s l) ⟨[], h0.inv⟩
    (fun _ _ _ h hs => (h.choose_spec.step hs).1) hk
  have hsim (k : ℕ) (hk : k < r.length) : Simulated (r.state k) (r.action k) (r.state (k + 1)) :=
    (hI k hk.le).choose_spec.step (r.next k hk)
  refine ⟨⟨fun k => (r.state k).memory, fun k hk => (hsim k hk).2, fun k hk => ?_⟩,
    fun k hk p b hp hp' => ?_, fun k hk => ?_⟩
  · obtain ⟨l, hl⟩ := hI k hk
    exact ⟨rfl, rfl, fun b hb => hl.memory_buf hb, fun p => State.memory_pc_eq_run.symm⟩
  · obtain ⟨l, hl⟩ := hI k hk.le
    exact (hsim k hk).ret hp hp' (hl.call hp).1
  · obtain ⟨l, hl⟩ := hI k hk
    exact ⟨hl.panicked, l, hl.list, hl.nodup, hl.idle, hl.head⟩

end Runs

/-- A disk of zeros. -/
def zeros : State Bool Bool ℕ where
  disk := { blocks := fun _ => 0, busy := none, data := 0, irq := false }
  lock _ := none
  buf _ := { valid := false, dirty := false, dev := 1, blockno := 5, data := 0 }
  qnext _ := none
  idequeue := none
  pc _ := .run
  panicked := none

/-- One process writes a block, and another one reads it: its request waits in the queue. -/
def writeRead : List (Action Bool Bool ℕ) :=
  [.acquiresleep false false, .write false false ⟨true, true, 1, 5, 7⟩, .acquiresleep true true,
    .call false false, .call true true, .enter false, .enter true, .execute, .ideintr, .execute,
    .ideintr, .resume false, .resume true]

theorem writeRead_isSome : (Run.execute step zeros writeRead).isSome := by decide +kernel

theorem ide_refines_memide_writeRead :
    (((Run.ofActions zeros writeRead writeRead_isSome).state 13).buf true).valid = true ∧
      (((Run.ofActions zeros writeRead writeRead_isSome).state 13).buf true).data = 7 := by
  have h := (ide_refines_memide (Run.ofActions zeros writeRead writeRead_isSome)
    ⟨rfl, rfl, fun _ => rfl, rfl, rfl⟩).2.1 12 (by decide +kernel) true true
    (by decide +kernel) (by decide +kernel)
  exact ⟨h.2.1, by decide +kernel⟩

end Xv6.Ide
