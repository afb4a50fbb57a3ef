import Xv6.Sync.Wakeup

/-!
# Pipes

`pipewrite`, `piperead` and `pipeclose` as the code of threads that share one
pipe. One step stores or copies one byte, tests `killed`, or is one operation
on a lock or a channel. The threads also kill each other.
-/

namespace Xv6.Sync

def PIPESIZE : ℕ := 512

/-- `struct pipe`; `freed` once `pipeclose` has given the page back. -/
structure Pipe where
  data : Fin PIPESIZE → UInt8
  nread : UInt32
  nwrite : UInt32
  readopen : Bool
  writeopen : Bool
  freed : Bool

namespace Pipe

/-- The channels `&p->nread` and `&p->nwrite`. -/
inductive Chan where
  | nread
  | nwrite
  deriving DecidableEq

inductive Call (P : Type) where
  | pipewrite (src : List UInt8)
  | piperead (n : ℕ)
  | pipeclose (writable : Bool)
  | kill (q : P)

inductive Loc where
  | idle
  | writeLoop (src : List UInt8)
  | writeKilled (src : List UInt8)
  | writeWakeup (src : List UInt8)
  | writeSleep (src : List UInt8)
  | writeDone
  | readLoop (n : ℕ)
  | readKilled (n : ℕ)
  | readSleep (n : ℕ)
  | readCopy (n : ℕ) (dst : List UInt8)
  | readDone (dst : List UInt8)
  | release
  | close (writable : Bool)
  | closeWakeup (writable : Bool)
  | closeTest
  | closeLast
  | closeFree
  deriving DecidableEq

def slot (i : UInt32) : Fin PIPESIZE :=
  ⟨i.toNat % PIPESIZE, Nat.mod_lt _ (by decide)⟩

/-- What `pipealloc` sets up. -/
def alloc : Pipe := ⟨fun _ => 0, 0, 0, true, true, false⟩

def full (p : Pipe) : Bool := p.nwrite = p.nread + UInt32.ofNat PIPESIZE

/-- `p->data[p->nwrite++ % PIPESIZE] = b` -/
def store (p : Pipe) (b : UInt8) : Pipe :=
  { p with data := Function.update p.data (slot p.nwrite) b, nwrite := p.nwrite + 1 }

/-- One round of the `for` of `pipewrite` at the bytes `src`, with the test of its `while`. -/
def writeStep (src : List UInt8) (p : Pipe) : Pipe × Loc :=
  match src with
  | [] => (p, .writeDone)
  | b :: rest =>
    if p.full then (p, if p.readopen then .writeKilled src else .release)
    else (p.store b, .writeLoop rest)

/-- One round of the copy loop of `piperead`, `n` bytes to go. -/
def copyStep (n : ℕ) (dst : List UInt8) (p : Pipe) : Pipe × Loc :=
  match n with
  | 0 => (p, .readDone dst)
  | n + 1 =>
    if p.nread = p.nwrite then (p, .readDone dst)
    else ({ p with nread := p.nread + 1 }, .readCopy n (dst ++ [p.data (slot p.nread)]))

variable {P : Type}

def code (_ : P) : Loc → Call P → Option (Op P Unit Chan Pipe Loc)
  | .idle, .pipewrite src => some (.acquire (.spin ()) (.writeLoop src))
  | .idle, .piperead n => some (.acquire (.spin ()) (.readLoop n))
  | .idle, .pipeclose writable => some (.acquire (.spin ()) (.close writable))
  | .idle, .kill q => some (.kill q .idle)
  | .writeLoop src, _ => some (.access (writeStep src))
  | .writeKilled src, _ => some (.killed .release (.writeWakeup src))
  | .writeWakeup src, _ => some (.wakeup .nread (.writeSleep src))
  | .writeSleep src, _ => some (.sleep .nwrite (.spin ()) (.writeLoop src))
  | .writeDone, _ => some (.wakeup .nread .release)
  | .readLoop n, _ => some <| .access fun p =>
    (p, if p.nread = p.nwrite ∧ p.writeopen then .readKilled n else .readCopy n [])
  | .readKilled n, _ => some (.killed .release (.readSleep n))
  | .readSleep n, _ => some (.sleep .nread (.spin ()) (.readLoop n))
  | .readCopy n dst, _ => some (.access (copyStep n dst))
  | .readDone _, _ => some (.wakeup .nwrite .release)
  | .release, _ => some (.release (.spin ()) .idle)
  | .close writable, _ => some <| .access fun p =>
    (if writable then { p with writeopen := false } else { p with readopen := false },
      .closeWakeup writable)
  | .closeWakeup writable, _ => some (.wakeup (if writable then .nread else .nwrite) .closeTest)
  | .closeTest, _ => some <| .access fun p =>
    (p, if ¬ p.readopen ∧ ¬ p.writeopen then .closeLast else .release)
  | .closeLast, _ => some (.release (.spin ()) .closeFree)
  | .closeFree, _ => some <| .access fun p => ({ p with freed := true }, .idle)

def Loc.holds : Loc → Set (Lock Unit)
  | .idle | .closeFree => ∅
  | _ => {.spin ()}

/-- Between the test of `killed` and `sleep`; `pipewrite` wakes the readers there. -/
def Loc.tested : Loc → Bool
  | .writeWakeup _ | .writeSleep _ | .readSleep _ => true
  | _ => false

theorem writeStep_holds (src : List UInt8) (p : Pipe) :
    (writeStep src p).2.holds = {.spin ()} ∧ (writeStep src p).2.tested = false := by
  unfold writeStep
  cases src with
  | nil => exact ⟨rfl, rfl⟩
  | cons b rest =>
    dsimp only
    split
    · split <;> exact ⟨rfl, rfl⟩
    · exact ⟨rfl, rfl⟩

theorem copyStep_holds (n : ℕ) (dst : List UInt8) (p : Pipe) :
    (copyStep n dst p).2.holds = {.spin ()} ∧ (copyStep n dst p).2.tested = false := by
  unfold copyStep
  cases n with
  | zero => exact ⟨rfl, rfl⟩
  | succ n =>
    dsimp only
    split <;> exact ⟨rfl, rfl⟩

theorem guarded : Guarded (code (P := P)) Loc.holds := by
  intro p l x op hop
  cases l with
  | idle => cases x <;> cases hop <;> simp [Op.Guards, Loc.holds]
  | writeLoop src =>
    cases hop
    exact fun d => (writeStep_holds src d).1
  | readCopy n dst =>
    cases hop
    exact fun d => (copyStep_holds n dst d).1
  | readLoop | closeTest =>
    cases hop
    intro d
    dsimp only
    split <;> rfl
  | _ =>
    cases hop
    simp [Op.Guards, Loc.holds]

theorem interruptible : Interruptible (code (P := P)) (Loc.tested · = true) := by
  intro p l x op hop
  cases l with
  | idle => cases x <;> cases hop <;> simp [Op.Interruptible, Loc.tested]
  | writeLoop src =>
    cases hop
    exact fun d => by simp [(writeStep_holds src d).2]
  | readCopy n dst =>
    cases hop
    exact fun d => by simp [(copyStep_holds n dst d).2]
  | readLoop | closeTest =>
    cases hop
    intro d
    dsimp only
    split <;> simp [Loc.tested]
  | _ =>
    cases hop
    simp [Op.Interruptible, Loc.tested]

/-- Where `sleep` returns to. -/
def Loc.resumes : Loc → Bool
  | .writeLoop _ | .readLoop _ => true
  | _ => false

theorem resumes_of_sleep {p : P} {l next : Loc} {x : Call P} {chan : Chan} {lk : Lock Unit}
    (hop : code p l x = some (.sleep chan lk next)) : next.resumes = true := by
  cases l with
  | idle => cases x <;> simp [code] at hop
  | writeSleep | readSleep =>
    simp only [code, Option.some.injEq, Op.sleep.injEq] at hop
    exact hop.2.2 ▸ rfl
  | _ => simp [code] at hop

/-- Away from the places where `sleep` returns to, the code has the lock that `holds` says. -/
theorem spin_mem_held [DecidableEq P] {d : Pipe} {s : State P Unit Chan Pipe Loc} {p : P}
    (h : Reachable code .idle d s) (hl : .spin () ∈ (s.locs p).holds)
    (hno : (s.locs p).resumes = false) : .spin () ∈ (s.pc p).held Loc.holds (s.proc p).state := by
  refine Pc.subset_held (fun hin => ?_) _ hl
  have ho := h.origin p
  have hsleep : ∀ {l₀ x chan lk}, code p l₀ x = some (.sleep chan lk (s.locs p)) → False := by
    intro l₀ x chan lk hop
    rw [resumes_of_sleep hop] at hno
    exact Bool.false_ne_true hno.symm
  unfold State.locs at hsleep
  cases hc : s.pc p <;> rw [hc] at ho hin hsleep
  case run | update | unlock => exact hin
  case sleepRelease | sleepSet | sched =>
    obtain ⟨l₀, x, hop⟩ := ho
    exact hsleep hop
  case sleepUnlock | sleepReacquire =>
    obtain ⟨_, l₀, x, hop⟩ := ho
    exact hsleep hop

end Pipe

end Xv6.Sync
