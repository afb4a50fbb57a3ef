import Xv6.Proc.Step
import Xv6.Proc.Table

/-!
# Slots and their owners

How the slots, the CPUs, `ptable.lock` and the threads that create processes
fit together. An agent is a CPU or the kernel thread of a process. At each
point of the code an agent has at most one slot to itself, in a role that fixes
the slot's state: the slot it is filling, or the process that runs on it. No
two agents share a slot.
-/

namespace Xv6

open TableScan

variable {ncpu : ℕ} {pc : CpuPc}

/-- A process that `fork` has published and nobody has collected. -/
def ProcState.Live (x : ProcState) : Prop := x ≠ .unused ∧ x ≠ .embryo

instance (x : ProcState) : Decidable x.Live := inferInstanceAs (Decidable (_ ∧ _))

inductive Agent (ncpu : ℕ) where
  | cpu (c : Fin ncpu)
  | thread (p : Slot)
  deriving DecidableEq

/-- What an agent does with the slot it has to itself: it has allocated it, has
given it a stack, has filled it, runs it, or has just run it. -/
inductive Role where
  | fresh
  | stack
  | ready
  | run
  | back
  deriving DecidableEq

def Role.Ok : Role → Proc → Prop
  | .fresh, q => q.state = .embryo
  | .stack, q => q.state = .embryo ∧ q.kstack ≠ 0
  | .ready, q => q.state = .embryo ∧ q.kstack ≠ 0 ∧ q.pgdir ≠ 0
  | .run, q => q.state = .running
  | .back, q => q.state.Live ∧ q.state ≠ .running

theorem Role.Ok.of_claim {np : Slot} {role : Role} {x : Proc} (h : role.Ok x) (q : Slot)
    (role' : Role) (hq : some (np, role) = some (q, role')) : q = np ∧ role'.Ok x := by
  obtain ⟨rfl, rfl⟩ := Prod.mk.inj (Option.some.inj hq)
  exact ⟨rfl, h⟩

def CpuPc.claim : CpuPc → Option (Slot × Role)
  | .userinitKalloc p => some (p, .fresh)
  | .userinitSetupkvm p => some (p, .stack)
  | .userinitReady p => some (p, .ready)
  | .swtch p => some (p, .run)
  | .back p => some (p, .back)
  | .main | .idle | .scan _ => none

theorem CpuPc.claim_eq_run {p : Slot} : pc.claim = some (p, .run) ↔ pc = .swtch p := by
  cases pc <;> simp [CpuPc.claim]

theorem CpuPc.claim_eq_back {p : Slot} : pc.claim = some (p, .back) ↔ pc = .back p := by
  cases pc <;> simp [CpuPc.claim]

def Loc.claim : Loc → Option (Slot × Role)
  | .kalloc _ np => some (np, .fresh)
  | .copyuvm _ np => some (np, .stack)
  | .ready _ np => some (np, .ready)
  | .free => none

theorem Loc.claim_ne_back (loc : Loc) (p : Slot) : loc.claim ≠ some (p, .back) := by
  cases loc <;> simp [Loc.claim]

/-- The slot that an agent has to itself, and its role. -/
def State.claim (s : State ncpu) : Agent ncpu → Option (Slot × Role)
  | .cpu c => (s.cpu c).pc.claim
  | .thread p => (s.thread p).loc.claim

/-- The scheduler thread holds `ptable.lock` at this point. -/
def CpuPc.Holds : CpuPc → Prop
  | .scan _ | .back _ => True
  | _ => False

/-- The value of `c->proc` at a point of the CPU's own thread. -/
def CpuPc.proc : CpuPc → Option Slot
  | .swtch p | .back p => some p
  | _ => none

theorem CpuPc.proc_eq_some {p : Slot} : pc.proc = some p ↔ pc = .swtch p ∨ pc = .back p := by
  cases pc <;> simp [CpuPc.proc]

structure Inv (s : State ncpu) : Prop where
  holds : ∀ c, (s.cpu c).pc.Holds → s.lock = some c
  cpu_proc : ∀ c, (s.cpu c).proc = (s.cpu c).pc.proc
  claim_ok : ∀ b p role, s.claim b = some (p, role) → role.Ok (s.proc p)
  claim_unique : ∀ b b' p role role', s.claim b = some (p, role) →
    s.claim b' = some (p, role') → b = b'
  running : ∀ p, (s.proc p).state = .running → ∃ c, (s.cpu c).pc = .swtch p
  memory : ∀ p, (s.proc p).state.Live → (s.proc p).kstack ≠ 0 ∧ (s.proc p).pgdir ≠ 0

theorem Inv.boot (bsp : Fin ncpu) : Inv (State.boot bsp) := by
  have hpc : ∀ c, ((State.boot bsp).cpu c).pc = .main ∨ ((State.boot bsp).cpu c).pc = .idle := by
    intro c
    by_cases hc : c = bsp
    · exact Or.inl (by simp [State.boot, hc])
    · exact Or.inr (by simp [State.boot, hc])
  have hb : ∀ b, (State.boot bsp).claim b = none := by
    intro b
    cases b with
    | cpu c => rcases hpc c with h | h <;> simp [State.claim, h, CpuPc.claim]
    | thread p => rfl
  constructor
  · intro c h
    rcases hpc c with h' | h' <;> simp [h', CpuPc.Holds] at h
  · intro c
    rcases hpc c with h' | h' <;> rw [h'] <;> rfl
  · intro b p role h
    simp [hb] at h
  · intro b b' p role role' h
    simp [hb] at h
  · intro p h
    simp [State.boot, Proc.zero] at h
  · intro p h
    simp [State.boot, Proc.zero, ProcState.Live] at h

section Claims

variable {s : State ncpu}

/-- A slot in no agent's hands. -/
def State.Free (s : State ncpu) (p : Slot) : Prop := ∀ b role, s.claim b ≠ some (p, role)

theorem Inv.free_of_unused (h : Inv s) {p : Slot} (hp : (s.proc p).state = .unused) :
    s.Free p := by
  intro b role hb
  have := h.claim_ok b p role hb
  cases role <;> simp [Role.Ok, hp, ProcState.Live] at this

/-- A slot that waits for a CPU or for its parent is in nobody's hands, unless
a scheduler that holds the lock has just run it. -/
theorem Inv.free_of_parked (h : Inv s) {p : Slot} (hl : (s.proc p).state.Live)
    (hr : (s.proc p).state ≠ .running) (hb : ∀ c, (s.cpu c).pc ≠ .back p) : s.Free p := by
  intro b role hc
  have hok := h.claim_ok b p role hc
  cases role with
  | fresh => exact hl.2 hok
  | stack => exact hl.2 hok.1
  | ready => exact hl.2 hok.1
  | run => exact hr hok
  | back =>
    cases b with
    | cpu c => exact hb c (CpuPc.claim_eq_back.mp hc)
    | thread q => exact Loc.claim_ne_back _ p hc

theorem Inv.not_back_of_unlocked (h : Inv s) (hl : s.lock = none) (c : Fin ncpu) (p : Slot) :
    (s.cpu c).pc ≠ .back p := by
  intro hpc
  have := h.holds c (by simp [hpc, CpuPc.Holds])
  simp [hl] at this

/-- While `c` holds the lock elsewhere, no scheduler is back from `swtch`. -/
theorem Inv.not_back_of_locked (h : Inv s) {c : Fin ncpu} (hl : s.lock = some c)
    (hc : ∀ q, (s.cpu c).pc ≠ .back q) (c' : Fin ncpu) (p : Slot) : (s.cpu c').pc ≠ .back p := by
  intro hpc
  have := h.holds c' (by simp [hpc, CpuPc.Holds])
  rw [hl, Option.some.injEq] at this
  subst this
  exact hc p hpc

end Claims

/-- A change of a slot that the invariant does not see, except for a wakeup. -/
structure Quiet (q q' : Proc) : Prop where
  kstack : q.kstack ≠ 0 → q'.kstack ≠ 0
  pgdir : q.pgdir ≠ 0 → q'.pgdir ≠ 0
  state : q'.state = q.state ∨ q.state = .sleeping ∧ q'.state = .runnable

namespace Quiet

theorem refl (q : Proc) : Quiet q q := ⟨id, id, Or.inl rfl⟩

variable {q q' q'' : Proc}

theorem trans (h : Quiet q q') (h' : Quiet q' q'') : Quiet q q'' := by
  refine ⟨h'.kstack ∘ h.kstack, h'.pgdir ∘ h.pgdir, ?_⟩
  rcases h.state with hs | ⟨hs, hs'⟩ <;> rcases h'.state with ht | ⟨ht, ht'⟩
  · exact Or.inl (ht.trans hs)
  · exact Or.inr ⟨hs ▸ ht, ht'⟩
  · exact Or.inr ⟨hs, ht.trans hs'⟩
  · simp [hs'] at ht

theorem live (h : Quiet q q') (hl : q'.state.Live) : q.state.Live := by
  obtain hs | ⟨hs, -⟩ := h.state
  · exact hs ▸ hl
  · simp [hs, ProcState.Live]

theorem ok (h : Quiet q q') {role : Role} (ho : role.Ok q) : role.Ok q' := by
  obtain hs | ⟨hs, hs'⟩ := h.state
  · cases role with
    | fresh => exact hs.trans ho
    | stack => exact ⟨hs.trans ho.1, h.kstack ho.2⟩
    | ready => exact ⟨hs.trans ho.1, h.kstack ho.2.1, h.pgdir ho.2.2⟩
    | run => exact hs.trans ho
    | back => simpa only [Role.Ok, hs] using ho
  · cases role <;> simp [Role.Ok, hs, hs', ProcState.Live] at ho ⊢

theorem running (h : Quiet q q') (hr : q'.state = .running) : q.state = .running := by
  obtain hs | ⟨-, hs⟩ := h.state
  · exact hs ▸ hr
  · simp [hs] at hr

theorem memory (h : Quiet q q') (hm : q.state.Live → q.kstack ≠ 0 ∧ q.pgdir ≠ 0)
    (hl : q'.state.Live) : q'.kstack ≠ 0 ∧ q'.pgdir ≠ 0 :=
  ⟨h.kstack (hm (h.live hl)).1, h.pgdir (hm (h.live hl)).2⟩

end Quiet

/-- A step in which no agent gets a slot or stops running one, and slots that
somebody has change only quietly. -/
theorem Inv.of_slots {s s' : State ncpu} (h : Inv s)
    (hclaim : ∀ b q role, s'.claim b = some (q, role) → s.claim b = some (q, role))
    (hrun : ∀ c q, (s.cpu c).pc = .swtch q → (s'.cpu c).pc = .swtch q)
    (hholds : ∀ c, (s'.cpu c).pc.Holds → s'.lock = some c)
    (hcpu : ∀ c, (s'.cpu c).proc = (s'.cpu c).pc.proc)
    (hproc : ∀ q, Quiet (s.proc q) (s'.proc q) ∨ s.Free q ∧ (s'.proc q).state = .unused) :
    Inv s' := by
  constructor
  · exact hholds
  · exact hcpu
  · intro b q role hb
    obtain hq | ⟨hq, -⟩ := hproc q
    · exact hq.ok (h.claim_ok b q role (hclaim b q role hb))
    · exact absurd (hclaim b q role hb) (hq b role)
  · intro b b' q role role' h₁ h₂
    exact h.claim_unique b b' q role role' (hclaim b q role h₁) (hclaim b' q role' h₂)
  · intro q hr
    obtain hq | ⟨-, hq⟩ := hproc q
    · obtain ⟨c, hc⟩ := h.running q (hq.running hr)
      exact ⟨c, hrun c q hc⟩
    · simp [hq] at hr
  · intro q hl
    obtain hq | ⟨-, hq⟩ := hproc q
    · exact hq.memory (h.memory q) hl
    · simp [hq, ProcState.Live] at hl

theorem Inv.of_quiet {s s' : State ncpu} (h : Inv s) (hlock : s'.lock = s.lock)
    (hcpu : s'.cpu = s.cpu) (hclaim : ∀ b, s'.claim b = s.claim b)
    (hproc : ∀ q, Quiet (s.proc q) (s'.proc q)) : Inv s' := by
  apply h.of_slots
  · intro b q role hb
    rwa [hclaim] at hb
  · intro c q hc
    rwa [hcpu]
  · intro c hc
    rw [hlock]
    exact h.holds c (hcpu ▸ hc)
  · intro c
    rw [hcpu]
    exact h.cpu_proc c
  · exact fun q => Or.inl (hproc q)

/-- A step of the agent `b` that changes at most one slot `p`, which no other
agent has, beyond what is quiet. Afterwards `b` has `p` or nothing. -/
theorem Inv.of_claim {s s' : State ncpu} (h : Inv s) (b : Agent ncpu) (p : Slot)
    (hown : ∀ b' role, s.claim b' = some (p, role) → b' = b)
    (hclaim : ∀ b' ≠ b, s'.claim b' = s.claim b')
    (hold : ∀ q role, s.claim b = some (q, role) → q = p)
    (hnew : ∀ q role, s'.claim b = some (q, role) → q = p ∧ role.Ok (s'.proc p))
    (hproc : ∀ q ≠ p, Quiet (s.proc q) (s'.proc q))
    (hholds : ∀ c, (s'.cpu c).pc.Holds → s'.lock = some c)
    (hcpu : ∀ c, (s'.cpu c).proc = (s'.cpu c).pc.proc)
    (hrun : (s'.proc p).state = .running → ∃ c, (s'.cpu c).pc = .swtch p)
    (hmem : (s'.proc p).state.Live → (s'.proc p).kstack ≠ 0 ∧ (s'.proc p).pgdir ≠ 0) :
    Inv s' := by
  constructor
  · exact hholds
  · exact hcpu
  · intro b' q role hb
    by_cases hbb : b' = b
    · subst hbb
      obtain ⟨rfl, hok⟩ := hnew q role hb
      exact hok
    · rw [hclaim b' hbb] at hb
      have hq : q ≠ p := by
        rintro rfl
        exact hbb (hown b' role hb)
      exact (hproc q hq).ok (h.claim_ok b' q role hb)
  · intro b₁ b₂ q role role' h₁ h₂
    by_cases hb₁ : b₁ = b <;> by_cases hb₂ : b₂ = b
    · rw [hb₁, hb₂]
    · subst hb₁
      obtain ⟨rfl, -⟩ := hnew q role h₁
      rw [hclaim b₂ hb₂] at h₂
      exact absurd (hown b₂ role' h₂) hb₂
    · subst hb₂
      obtain ⟨rfl, -⟩ := hnew q role' h₂
      rw [hclaim b₁ hb₁] at h₁
      exact absurd (hown b₁ role h₁) hb₁
    · rw [hclaim b₁ hb₁] at h₁
      rw [hclaim b₂ hb₂] at h₂
      exact h.claim_unique b₁ b₂ q role role' h₁ h₂
  · intro q hq
    by_cases hne : q = p
    · subst hne
      exact hrun hq
    · obtain ⟨c, hc⟩ := h.running q ((hproc q hne).running hq)
      have hcl : s.claim (.cpu c) = some (q, .run) := CpuPc.claim_eq_run.mpr hc
      have hcb : Agent.cpu c ≠ b := by
        rintro rfl
        exact hne (hold q .run hcl)
      exact ⟨c, CpuPc.claim_eq_run.mp ((hclaim _ hcb).trans hcl)⟩
  · intro q hq
    by_cases hne : q = p
    · subst hne
      exact hmem hq
    · exact (hproc q hne).memory (h.memory q) hq

namespace State

variable (s : State ncpu)

@[simp] theorem claim_modify (p : Slot) (f : Proc → Proc) (b : Agent ncpu) :
    (s.modify p f).claim b = s.claim b := by cases b <;> rfl

@[simp] theorem claim_setLock (l : Option (Fin ncpu)) (b : Agent ncpu) :
    (s.setLock l).claim b = s.claim b := by cases b <;> rfl

@[simp] theorem claim_fail (m : Panic) (b : Agent ncpu) :
    (s.fail m).claim b = s.claim b := by cases b <;> rfl

@[simp] theorem claim_setResume (p : Slot) (r : Resume) (b : Agent ncpu) :
    (s.setResume p r).claim b = s.claim b := by
  cases b with
  | cpu c => rfl
  | thread q =>
    by_cases hq : q = p
    · subst hq
      simp [claim]
    · simp [claim, hq]

@[simp] theorem claim_setCpu_self (c : Fin ncpu) (v : Cpu) :
    (s.setCpu c v).claim (.cpu c) = v.pc.claim := by
  simp [claim]

theorem claim_setCpu_of_ne (c : Fin ncpu) (v : Cpu) {b : Agent ncpu} (hb : b ≠ .cpu c) :
    (s.setCpu c v).claim b = s.claim b := by
  cases b with
  | cpu c' =>
    have hc : c' ≠ c := fun h => hb (h ▸ rfl)
    simp [claim, hc]
  | thread q => rfl

@[simp] theorem claim_setLoc_self (p : Slot) (loc : Loc) :
    (s.setLoc p loc).claim (.thread p) = loc.claim := by
  simp [claim]

theorem claim_setLoc_of_ne (p : Slot) (loc : Loc) {b : Agent ncpu} (hb : b ≠ .thread p) :
    (s.setLoc p loc).claim b = s.claim b := by
  cases b with
  | cpu c => rfl
  | thread q =>
    have hq : q ≠ p := fun h => hb (h ▸ rfl)
    simp [claim, hq]

end State

end Xv6
