import Xv6.Sync.Wakeup

/-!
# The console

`consoleread` and `consoleintr` as the code of threads that share the input
buffer; an interrupt handler runs on the thread it interrupts. What the
handlers print is left out, and so is the inode lock that `consoleread` gives
back while it waits.
-/

namespace Xv6.Sync

def INPUT_BUF : ℕ := 128

/-- The input buffer with its read, write and edit index. -/
structure Input where
  buf : Fin INPUT_BUF → UInt8
  r : UInt32
  w : UInt32
  e : UInt32

namespace Input

inductive Call (P : Type) where
  | consoleread (n : ℕ)
  | consoleintr (input : List UInt8)
  | kill (q : P)

/-- `readLoop n target dst`: `n` of `target` bytes to go. `readDone` returns `target - n`
and `release` is the way out of a killed reader and of `consoleintr`. -/
inductive Loc where
  | idle
  | readLoop (n target : ℕ) (dst : List UInt8)
  | readKilled (n target : ℕ) (dst : List UInt8)
  | readSleep (n target : ℕ) (dst : List UInt8)
  | readDone (n target : ℕ) (dst : List UInt8)
  | release
  | intrLoop (input : List UInt8)
  | intrWakeup (input : List UInt8)
  deriving DecidableEq

def slot (i : UInt32) : Fin INPUT_BUF :=
  ⟨i.toNat % INPUT_BUF, Nat.mod_lt _ (by decide)⟩

def empty : Input := ⟨fun _ => 0, 0, 0, 0⟩

/-- `C('D')`, `C('P')`, `C('U')`, `C('H')` -/
def ctrlD : UInt8 := 4
def ctrlP : UInt8 := 16
def ctrlU : UInt8 := 21
def ctrlH : UInt8 := 8

def newline : UInt8 := 10

/-- The `while` of `C('U')`; it has at most `e - w` rounds. -/
def killLine : ℕ → Input → Input
  | 0, i => i
  | n + 1, i =>
    if i.e ≠ i.w ∧ i.buf (slot (i.e - 1)) ≠ newline then killLine n { i with e := i.e - 1 } else i

/-- The `switch` of `consoleintr`: the new buffer, and whether it calls `wakeup`. -/
def consume (c : UInt8) (i : Input) : Input × Bool :=
  if c = ctrlP then (i, false)
  else if c = ctrlU then (killLine (i.e - i.w).toNat i, false)
  else if c = ctrlH ∨ c = 127 then (if i.e ≠ i.w then { i with e := i.e - 1 } else i, false)
  else if c ≠ 0 ∧ i.e - i.r < UInt32.ofNat INPUT_BUF then
    let c := if c = 13 then newline else c
    let i := { i with buf := Function.update i.buf (slot i.e) c, e := i.e + 1 }
    if c = newline ∨ c = ctrlD ∨ i.e = i.r + UInt32.ofNat INPUT_BUF then ({ i with w := i.e }, true)
    else (i, false)
  else (i, false)

def intrStep (input : List UInt8) (i : Input) : Input × Loc :=
  match input with
  | [] => (i, .release)
  | c :: rest =>
    let (i, wakes) := consume c i
    (i, if wakes then .intrWakeup rest else .intrLoop rest)

/-- One round of the outer `while` of `consoleread`, with the test of the inner one. -/
def readStep (n target : ℕ) (dst : List UInt8) (i : Input) : Input × Loc :=
  if n = 0 then (i, .readDone n target dst)
  else if i.r = i.w then (i, .readKilled n target dst)
  else
    let c := i.buf (slot i.r)
    let i' := { i with r := i.r + 1 }
    -- `^D` ends the read, and stays for the next one if this one has got something
    if c = ctrlD then (if n < target then i else i', .readDone n target dst)
    else if c = newline then (i', .readDone (n - 1) target (dst ++ [c]))
    else (i', .readLoop (n - 1) target (dst ++ [c]))

variable {P : Type}

def code (_ : P) : Loc → Call P → Option (Op P Unit Unit Input Loc)
  | .idle, .consoleread n => some (.acquire (.spin ()) (.readLoop n n []))
  | .idle, .consoleintr input => some (.acquire (.spin ()) (.intrLoop input))
  | .idle, .kill q => some (.kill q .idle)
  | .readLoop n target dst, _ => some (.access (readStep n target dst))
  | .readKilled n target dst, _ => some (.killed .release (.readSleep n target dst))
  | .readSleep n target dst, _ => some (.sleep () (.spin ()) (.readLoop n target dst))
  | .readDone _ _ _, _ | .release, _ => some (.release (.spin ()) .idle)
  | .intrLoop input, _ => some (.access (intrStep input))
  | .intrWakeup input, _ => some (.wakeup () (.intrLoop input))

def Loc.holds : Loc → Set (Lock Unit)
  | .idle => ∅
  | _ => {.spin ()}

/-- Between the test of `killed` and `sleep`. -/
def Loc.tested : Loc → Bool
  | .readSleep _ _ _ => true
  | _ => false

theorem readStep_holds (n target : ℕ) (dst : List UInt8) (i : Input) :
    (readStep n target dst i).2.holds = {.spin ()} ∧
    (readStep n target dst i).2.tested = false := by
  unfold readStep
  dsimp only
  split_ifs <;> exact ⟨rfl, rfl⟩

theorem intrStep_holds (input : List UInt8) (i : Input) :
    (intrStep input i).2.holds = {.spin ()} ∧ (intrStep input i).2.tested = false := by
  unfold intrStep
  cases input with
  | nil => exact ⟨rfl, rfl⟩
  | cons c rest =>
    dsimp only
    split <;> exact ⟨rfl, rfl⟩

theorem guarded : Guarded (code (P := P)) Loc.holds := by
  intro p l x op hop
  cases l with
  | idle => cases x <;> cases hop <;> simp [Op.Guards, Loc.holds]
  | readLoop n target dst =>
    cases hop
    exact fun d => (readStep_holds n target dst d).1
  | intrLoop input =>
    cases hop
    exact fun d => (intrStep_holds input d).1
  | _ =>
    cases hop
    simp [Op.Guards, Loc.holds]

theorem interruptible : Interruptible (code (P := P)) (Loc.tested · = true) := by
  intro p l x op hop
  cases l with
  | idle => cases x <;> cases hop <;> simp [Op.Interruptible, Loc.tested]
  | readLoop n target dst =>
    cases hop
    exact fun d => by simp [(readStep_holds n target dst d).2]
  | intrLoop input =>
    cases hop
    exact fun d => by simp [(intrStep_holds input d).2]
  | _ =>
    cases hop
    simp [Op.Interruptible, Loc.tested]

end Input

end Xv6.Sync
