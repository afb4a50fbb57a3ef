import Xv6.Proc.Invariant

/-!
# What one step can do to one slot

`step_effect` says once, for every step from a state that satisfies the control
invariant, how the record of a slot can change and under which guard. The
invariants of the later modules are case analyses over it. `step_pcStep` does
the same for the place where a CPU stands.
-/

namespace Xv6

variable {ncpu : ℕ}

/-- An allocation for the process under construction in slot `i` fails. -/
def Action.fails (i : Slot) : Action ncpu → Bool
  | .userinitKalloc _ p x => decide (p = i ∧ x = 0)
  | .call _ _ (.kalloc _ np x) => decide (np = i ∧ x = 0)
  | .call _ _ (.copyuvm _ np x) => decide (np = i ∧ x = 0)
  | _ => false

/-- The possible new records of slot `i` when `s` takes the step `a`. -/
inductive Effect (s : State ncpu) (a : Action ncpu) (i : Slot) : Proc → Prop where
  /-- the slot is not written -/
  | keep : Effect s a i (s.proc i)
  /-- `allocproc` takes it -/
  | alloc (hu : firstUnused s.proc = some i) (ha : allocates s a = true) :
      Effect s a i ((s.proc i).alloc s.nextpid)
  /-- the process under construction is given memory and a parent -/
  | fill (hi : (s.proc i).state = .embryo) (kstack pgdir : Addr) (sz : UInt32)
      (parent : Option Slot) :
      Effect s a i { s.proc i with kstack := kstack, pgdir := pgdir, sz := sz, parent := parent }
  /-- its construction fails -/
  | drop (hi : (s.proc i).state = .embryo) (ha : a.fails i = true) (pgdir : Addr) :
      Effect s a i { s.proc i with kstack := 0, pgdir := pgdir, state := .unused }
  /-- it becomes `RUNNABLE` -/
  | publish (hi : (s.proc i).state = .embryo) (priority : Int32)
      (hp : priority = (s.proc i).priority ∨ ∃ k : ForkKind, priority = k.priority (s.proc i).pid) :
      Effect s a i { s.proc i with state := .runnable, priority := priority }
  /-- a scheduler runs it -/
  | dispatch (c : Fin ncpu) (hi : (s.proc i).state = .runnable)
      (hd : dispatched s a = some (c, i)) : Effect s a i (s.proc i).dispatch
  /-- the accounting loop after `p` came back -/
  | account (c : Fin ncpu) (p : Slot) (ha : a = .account c p) (hpc : (s.cpu c).pc = .back p) :
      Effect s a i ((s.proc i).account (s.proc p).pid)
  /-- it gives up the CPU -/
  | leave (c : Fin ncpu) (hi : (s.proc i).state = .running) (state : ProcState)
      (hl : state.Live) (hr : state ≠ .running) (chan : Option Chan) (parent : Option Slot) :
      Effect s a i { s.proc i with state := state, chan := chan, parent := parent }
  /-- a `wakeup`, or the exit of another process -/
  | wake (state : ProcState) (hs : state = (s.proc i).state ∨
      (s.proc i).state = .sleeping ∧ state = .runnable) (parent : Option Slot) :
      Effect s a i { s.proc i with state := state, parent := parent }
  /-- the running process writes its own fields -/
  | own (hi : (s.proc i).state = .running) (chan : Option Chan) (time_slice : Int32)
      (pgdir : Addr) (sz : UInt32) :
      Effect s a i
        { s.proc i with chan := chan, time_slice := time_slice, pgdir := pgdir, sz := sz }
  /-- it takes a fatal trap -/
  | fault (c : Fin ncpu) (hi : (s.proc i).state = .running) (ha : a = .call c i .fault) :
      Effect s a i { s.proc i with killed := true }
  | kill (c : Fin ncpu) (p : Slot) (pid : Int32) (ha : a = .call c p (.kill pid))
      (hf : findPid s.proc pid = some i) : Effect s a i (s.proc i).kill
  | changePrio (c : Fin ncpu) (p : Slot) (priority : Int32)
      (ha : a = .call c p (.changePrio priority)) (hpc : (s.cpu c).pc = .swtch p)
      (hp : priority = 1 ∨ priority = 2 ∨ priority = 3)
      (hf : findPid s.proc (s.proc p).pid = some i) :
      Effect s a i { s.proc i with priority := priority }
  /-- its parent collects it -/
  | reap (hi : (s.proc i).state = .zombie) (k : WaitKind) : Effect s a i ((s.proc i).reap k)

section

variable {s s' s₁ : State ncpu} {a : Action ncpu} {c : Fin ncpu} {p np i : Slot}

theorem Effect.of_update {q : Proc} (h : Effect s a p q) (i : Slot) :
    Effect s a i (Function.update s.proc p q i) := by
  by_cases hi : i = p
  · subst hi
    rwa [Function.update_self]
  · rw [Function.update_of_ne hi]
    exact .keep

theorem running_of_swtch (h : Inv s) (hpc : (s.cpu c).pc = .swtch p) :
    (s.proc p).state = .running :=
  h.claim_ok (.cpu c) p .run (CpuPc.claim_eq_run.mpr hpc)

/-- A round of `wait` of the process `p` running in `s`; `s₁` is `s` with `chan`
cleared when the round follows a sleep. -/
theorem wait_effect (chan : Option Chan) (hr : (s.proc p).state = .running)
    (h₁ : ∀ i ≠ p, s₁.proc i = s.proc i) (h₂ : s₁.proc p = { s.proc p with chan := chan })
    (k : WaitKind) (i : Slot) : Effect s a i ((s₁.wait c p k).proc i) := by
  have hown : Effect s a i (s₁.proc i) := by
    by_cases hi : i = p
    · subst hi
      rw [h₂]
      exact .own hr chan _ _ _
    · rw [h₁ i hi]
      exact .keep
  unfold State.wait
  cases hz : firstZombieChild s₁.proc p with
  | some z =>
    have hzs := (firstZombieChild_eq_some hz).2
    have hzp : z ≠ p := by
      rintro rfl
      simp [h₂, hr] at hzs
    by_cases hi : i = z
    · subst hi
      rw [h₁ i hzp] at hzs
      simpa [h₁ i hzp] using Effect.reap hzs k
    · simpa [Ptable.modify_of_ne _ _ hi] using hown
  | none =>
    dsimp only
    split
    · exact hown
    · by_cases hi : i = p
      · subst hi
        simpa [State.sleepOn, State.sched, h₂] using
          Effect.leave (a := a) c hr .sleeping (by simp [ProcState.Live]) (by simp)
            (some (.proc i)) (s.proc i).parent
      · simpa [State.sleepOn, State.sched, Ptable.modify_of_ne _ _ hi] using hown

theorem resume_effect (hr : (s.proc p).state = .running) (i : Slot) :
    Effect s a i ((s.resume c p).proc i) := by
  unfold State.resume
  cases (s.thread p).resume with
  | forkret => exact .keep
  | yield => exact .keep
  | sleep =>
    refine Effect.of_update ?_ i
    exact .own hr none _ _ _
  | wait k =>
    refine wait_effect none hr (fun j hj => ?_) ?_ k i
    · simp [Ptable.modify_of_ne _ _ hj]
    · simp

theorem yield_effect (hr : (s.proc p).state = .running) (i : Slot) :
    Effect s a i ((s.yield c p).proc i) := by
  refine Effect.of_update ?_ i
  exact .leave c hr .runnable (by simp [ProcState.Live]) (by simp) _ _

theorem exit_effect (hr : (s.proc p).state = .running) (i : Slot) :
    Effect s a i ((s.exit c p).proc i) := by
  unfold State.exit
  split
  · exact .keep
  · by_cases hi : i = p
    · subst hi
      simpa [State.sched, reparent_apply, wakeup1_apply] using
        Effect.leave (a := a) c hr .zombie (by simp [ProcState.Live]) (by simp) (s.proc i).chan
          (if (s.proc i).parent = some i then s.initproc else (s.proc i).parent)
    · have hq := ((wakeup1_quiet s.proc ((s.proc p).parent.map .proc) i).trans
        (reparent_quiet _ p s.initproc i)).state
      simp only [State.sched, State.setLock_proc, State.setResume_proc, State.setCpu_proc,
        Ptable.modify_of_ne _ _ hi]
      simp only [reparent_apply, wakeup1_apply] at hq ⊢
      exact .wake _ hq _

theorem dispatch_effect (hi : (s.proc p).state = .runnable)
    (hd : dispatched s a = some (c, p)) (i : Slot) : Effect s a i ((s.dispatch c p).proc i) := by
  unfold State.dispatch
  split
  · exact .keep
  · split
    · exact .keep
    · refine Effect.of_update ?_ i
      exact .dispatch c hi hd

theorem allocKstack_effect (hi : (s.proc np).state = .embryo) (x : Addr)
    (ha : x = 0 → a.fails np = true) (i : Slot) : Effect s a i ((s.allocKstack np x).proc i) := by
  unfold State.allocKstack
  split
  · next hx =>
    refine Effect.of_update ?_ i
    exact .drop hi (ha hx) _
  · refine Effect.of_update ?_ i
    exact .fill hi x _ _ _

theorem call_effect (h : Inv s) {x : Call} (ha : a = .call c p x) (he : Enabled s a) (i : Slot) :
    Effect s a i ((applyCall s c p x).proc i) := by
  subst ha
  obtain ⟨hpc, -, -, hloc⟩ := he
  have hr := running_of_swtch h hpc
  cases x with
  | fork k =>
    simp only [applyCall, State.fork, State.allocproc]
    cases hu : firstUnused s.proc with
    | none => exact .keep
    | some np =>
      refine Effect.of_update ?_ i
      exact .alloc hu (by simp [allocates, hu])
  | kalloc k np x =>
    have hl := loc_of_call rfl hloc
    have hemb : (s.proc np).state = .embryo :=
      h.claim_ok (.thread p) np .fresh (by simp [State.claim, hl, Loc.claim])
    exact allocKstack_effect hemb x (by simp [Action.fails]) i
  | copyuvm k np x =>
    have hl := loc_of_call rfl hloc
    have hemb := (h.claim_ok (.thread p) np .stack (by simp [State.claim, hl, Loc.claim])).1
    simp only [applyCall, State.forkCopyuvm]
    split
    · next hx =>
      refine Effect.of_update ?_ i
      exact .drop hemb (by simp [Action.fails, hx]) _
    · refine Effect.of_update ?_ i
      exact .fill hemb _ x _ _
  | ready k np =>
    have hl := loc_of_call rfl hloc
    have hemb := (h.claim_ok (.thread p) np .ready (by simp [State.claim, hl, Loc.claim])).1
    refine Effect.of_update ?_ i
    exact .publish hemb _ (Or.inr ⟨k, rfl⟩)
  | exit => exact exit_effect hr i
  | wait k => exact wait_effect (s.proc p).chan hr (fun j _ => rfl) rfl k i
  | yield => exact yield_effect hr i
  | timer =>
    simp only [applyCall, State.timer]
    split
    · refine Effect.of_update ?_ i
      exact .own hr _ _ _ _
    · exact yield_effect hr i
  | sleep chan =>
    refine Effect.of_update ?_ i
    exact .leave c hr .sleeping (by simp [ProcState.Live]) (by simp) _ _
  | kill pid =>
    simp only [applyCall, Xv6.kill]
    cases hf : findPid s.proc pid with
    | none => exact .keep
    | some q =>
      refine Effect.of_update ?_ i
      exact .kill c p pid rfl hf
  | changePrio priority =>
    simp only [applyCall, sysChangePrio, Xv6.changePrio]
    split
    · exact .keep
    · next hp =>
      cases hf : findPid s.proc (s.proc p).pid with
      | none => exact .keep
      | some q =>
        have hp' : priority = 1 ∨ priority = 2 ∨ priority = 3 := by tauto
        refine Effect.of_update ?_ i
        exact .changePrio c p priority rfl hpc hp' hf
  | exec pgdir sz =>
    simp only [applyCall, State.exec]
    split
    · exact .keep
    · refine Effect.of_update ?_ i
      exact .own hr _ _ pgdir sz
  | fault =>
    refine Effect.of_update ?_ i
    exact .fault c hr rfl

/-- What a step does to the record of a slot. -/
theorem step_effect (h : Inv s) (hs : step s a = some s') (i : Slot) :
    Effect s a i (s'.proc i) := by
  obtain ⟨⟨-, he⟩, rfl⟩ := step_eq_some_iff.mp hs
  cases a with
  | userinit c =>
    simp only [apply, State.userinit, State.allocproc]
    cases hu : firstUnused s.proc with
    | none => exact .keep
    | some np =>
      refine Effect.of_update ?_ i
      exact .alloc hu (by simp [allocates, hu])
  | userinitKalloc c p x =>
    have hemb := h.claim_ok (.cpu c) p .fresh
      (by simp only [State.claim, show (s.cpu c).pc = _ from he, CpuPc.claim])
    simp only [apply, State.userinitKalloc]
    split
    · exact allocKstack_effect hemb x (by simp [Action.fails]) i
    · exact allocKstack_effect hemb x (by simp [Action.fails]) i
  | userinitSetupkvm c p x =>
    have hemb := (h.claim_ok (.cpu c) p .stack
      (by simp only [State.claim, show (s.cpu c).pc = _ from he, CpuPc.claim])).1
    simp only [apply, State.userinitSetupkvm]
    split
    · refine Effect.of_update ?_ i
      exact .fill hemb _ 0 _ _
    · refine Effect.of_update ?_ i
      exact .fill hemb _ x PGSIZE _
  | userinitReady c p =>
    have hemb := (h.claim_ok (.cpu c) p .ready
      (by simp only [State.claim, he.1, CpuPc.claim])).1
    refine Effect.of_update ?_ i
    exact .publish hemb _ (Or.inl rfl)
  | acquire c => exact .keep
  | select c j =>
    simp only [apply, State.select]
    cases hsel : select s.proc j with
    | none => exact .keep
    | some p => exact dispatch_effect (select_spec hsel).1 (by simp [dispatched, hsel]) i
  | account c p => exact .account c p rfl he
  | resume c p => exact resume_effect (running_of_swtch h he.1) i
  | call c p x => exact call_effect h rfl he i
  | wakeup chan =>
    simp only [apply, wakeup1_apply]
    refine .wake _ ?_ (s.proc i).parent
    split
    · next hw => exact Or.inr ⟨hw.1, rfl⟩
    · exact Or.inl rfl

/-- The CPU has not entered `scheduler` yet. -/
def CpuPc.Booting : CpuPc → Prop
  | .main | .userinitKalloc _ | .userinitSetupkvm _ | .userinitReady _ => True
  | _ => False

/-- The slot that `userinit` has made init, while it is still at work. -/
def CpuPc.initSlot : CpuPc → Option Slot
  | .userinitSetupkvm p | .userinitReady p => some p
  | _ => none

/-- How the action `a` moves CPU `c`. -/
inductive PcStep (s : State ncpu) (a : Action ncpu) (c : Fin ncpu) : CpuPc → Prop where
  | keep : PcStep s a c (s.cpu c).pc
  | boot {pc : CpuPc} (h : (s.cpu c).pc.Booting) (h' : pc.Booting ∨ pc = .idle)
      (hi : pc.initSlot = none ∨ pc.initSlot = (s.cpu c).pc.initSlot ∨
        ∃ p x, a = .userinitKalloc c p x ∧ x ≠ 0 ∧ pc = .userinitSetupkvm p) : PcStep s a c pc
  | acquire (ha : a = .acquire c) (hpc : (s.cpu c).pc = .idle) : PcStep s a c (.scan 0)
  | finish {i : ℕ} (ha : a = .select c i) (hpc : (s.cpu c).pc = .scan i)
      (hsel : select s.proc i = none) : PcStep s a c .idle
  | dispatch {i : ℕ} {p : Slot} (ha : a = .select c i) (hpc : (s.cpu c).pc = .scan i)
      (hsel : select s.proc i = some p) : PcStep s a c (.swtch p)
  | leave {p : Slot} (hpc : (s.cpu c).pc = .swtch p) : PcStep s a c (.back p)
  | account {p : Slot} (ha : a = .account c p) (hpc : (s.cpu c).pc = .back p) :
      PcStep s a c (.scan (p.val + 1))

theorem PcStep.of_update {c₀ : Fin ncpu} {v : Cpu} (h : PcStep s a c₀ v.pc) (c : Fin ncpu) :
    PcStep s a c (Function.update s.cpu c₀ v c).pc := by
  by_cases hc : c = c₀
  · subst hc
    rwa [Function.update_self]
  · rw [Function.update_of_ne hc]
    exact .keep

theorem wait_pcStep (hcpu : s₁.cpu = s.cpu) (hpc : (s.cpu c).pc = .swtch p) (k : WaitKind)
    (c' : Fin ncpu) : PcStep s a c' ((s₁.wait c p k).cpu c').pc := by
  unfold State.wait
  split
  · simp only [State.setLock_cpu, State.modify_cpu, hcpu]
    exact .keep
  · split
    · simp only [State.setLock_cpu, hcpu]
      exact .keep
    · change PcStep s a c' (Function.update s₁.cpu c ⟨(s₁.cpu c).proc, .back p⟩ c').pc
      rw [hcpu]
      refine PcStep.of_update ?_ c'
      exact .leave hpc

theorem call_pcStep {x : Call} (hpc : (s.cpu c).pc = .swtch p) (c' : Fin ncpu) :
    PcStep s a c' ((applyCall s c p x).cpu c').pc := by
  have hleave : PcStep s a c' (Function.update s.cpu c ⟨(s.cpu c).proc, .back p⟩ c').pc := by
    refine PcStep.of_update ?_ c'
    exact .leave hpc
  cases x with
  | fork k =>
    simp only [applyCall, State.fork, State.allocproc]
    cases firstUnused s.proc <;> exact .keep
  | kalloc k np x =>
    simp only [applyCall, State.forkKalloc, State.allocKstack]
    split <;> exact .keep
  | copyuvm k np x =>
    simp only [applyCall, State.forkCopyuvm]
    split <;> exact .keep
  | exit =>
    simp only [applyCall, State.exit]
    split
    · exact .keep
    · exact hleave
  | wait k => exact wait_pcStep rfl hpc k c'
  | yield => exact hleave
  | timer =>
    simp only [applyCall, State.timer]
    split
    · exact .keep
    · exact hleave
  | sleep chan => exact hleave
  | exec pgdir sz =>
    simp only [applyCall, State.exec]
    split <;> exact .keep
  | ready | kill | changePrio | fault => exact .keep

/-- What a step does to a CPU. -/
theorem step_pcStep (hs : step s a = some s') (c : Fin ncpu) : PcStep s a c (s'.cpu c).pc := by
  obtain ⟨⟨-, he⟩, rfl⟩ := step_eq_some_iff.mp hs
  cases a with
  | userinit c₀ =>
    simp only [apply, State.userinit, State.allocproc]
    cases firstUnused s.proc with
    | none => exact .keep
    | some np =>
      exact PcStep.of_update (.boot (by simp [he.1, CpuPc.Booting]) (by simp [CpuPc.Booting])
        (.inl rfl)) c
  | userinitKalloc c₀ p x =>
    have hb : (s.cpu c₀).pc.Booting := by simp [show (s.cpu c₀).pc = _ from he, CpuPc.Booting]
    simp only [apply, State.userinitKalloc, State.allocKstack]
    split
    · exact PcStep.of_update (.boot hb (by simp [CpuPc.Booting]) (.inl rfl)) c
    · next hx =>
      exact PcStep.of_update (.boot hb (by simp [CpuPc.Booting])
        (.inr (.inr ⟨p, x, rfl, hx, rfl⟩))) c
  | userinitSetupkvm c₀ p x =>
    have hb : (s.cpu c₀).pc.Booting := by simp [show (s.cpu c₀).pc = _ from he, CpuPc.Booting]
    simp only [apply, State.userinitSetupkvm]
    split
    · exact .keep
    · refine PcStep.of_update (.boot hb (by simp [CpuPc.Booting]) (.inr (.inl ?_))) c
      rw [show (s.cpu c₀).pc = _ from he]
      rfl
  | userinitReady c₀ p =>
    exact PcStep.of_update (.boot (by simp [he.1, CpuPc.Booting]) (by simp) (.inl rfl)) c
  | acquire c₀ => exact PcStep.of_update (.acquire rfl he.1) c
  | select c₀ i =>
    simp only [apply, State.select]
    cases hsel : select s.proc i with
    | none => exact PcStep.of_update (.finish rfl he hsel) c
    | some p =>
      simp only [State.dispatch]
      split
      · refine PcStep.of_update ?_ c
        exact .keep
      · split
        · refine PcStep.of_update ?_ c
          exact .keep
        · exact PcStep.of_update (.dispatch rfl he hsel) c
  | account c₀ p => exact PcStep.of_update (.account rfl he) c
  | resume c₀ p =>
    simp only [apply, State.resume]
    cases (s.thread p).resume with
    | wait k => 
      refine wait_pcStep ?_ he.1 k c
      rfl
    | forkret | yield | sleep => exact .keep
  | call c₀ p x => exact call_pcStep he.1 c
  | wakeup chan => exact .keep

/-- The memory of a `RUNNABLE` process is there, so `switchuvm` does not panic. -/
theorem Inv.dispatch_eq (h : Inv s) (hp : (s.proc p).state = .runnable) :
    s.dispatch c p = (s.modify p Proc.dispatch).setCpu c ⟨some p, .swtch p⟩ := by
  obtain ⟨hk, hd⟩ := h.memory p (by simp [hp, ProcState.Live])
  simp [State.dispatch, hk, hd]

/-- What a step does to `nextpid` and `initproc`, and that its panics are none of `switchuvm`'s. -/
structure Frame (s : State ncpu) (a : Action ncpu) (s' : State ncpu) : Prop where
  nextpid : s'.nextpid = if allocates s a then s.nextpid + 1 else s.nextpid
  panic : s'.panic = s.panic ∨ s'.panic = some .userinitNoProc ∨
    s'.panic = some .userinitOutOfMemory ∨ s'.panic = some .initExiting
  initproc : s'.initproc = s.initproc ∨ ∃ c p, (s.cpu c).pc = .userinitKalloc p ∧
    s'.initproc = some p ∧ (s'.cpu c).pc = .userinitSetupkvm p

theorem Frame.of_eq (ha : allocates s a = false) (hn : s'.nextpid = s.nextpid)
    (hp : s'.panic = s.panic) (hi : s'.initproc = s.initproc) : Frame s a s' :=
  ⟨by simp [ha, hn], Or.inl hp, Or.inl hi⟩

theorem wait_frame (ha : allocates s a = false) (hn : s₁.nextpid = s.nextpid)
    (hp : s₁.panic = s.panic) (hi : s₁.initproc = s.initproc) (k : WaitKind) :
    Frame s a (s₁.wait c p k) := by
  unfold State.wait
  split
  · exact .of_eq ha hn hp hi
  · split
    · exact .of_eq ha hn hp hi
    · exact .of_eq ha hn hp hi

theorem call_frame (x : Call) : Frame s (.call c p x) (applyCall s c p x) := by
  cases x with
  | fork k =>
    cases hu : firstUnused s.proc <;>
      exact ⟨by simp [applyCall, State.fork, State.allocproc, allocates, hu],
        by simp [applyCall, State.fork, State.allocproc, hu],
        .inl (by simp [applyCall, State.fork, State.allocproc, hu])⟩
  | kalloc k np x =>
    simp only [applyCall, State.forkKalloc, State.allocKstack]
    split <;> exact .of_eq rfl rfl rfl rfl
  | copyuvm k np x =>
    simp only [applyCall, State.forkCopyuvm]
    split <;> exact .of_eq rfl rfl rfl rfl
  | exit =>
    simp only [applyCall, State.exit]
    split
    · exact ⟨rfl, by simp, .inl rfl⟩
    · exact .of_eq rfl rfl rfl rfl
  | wait k => exact wait_frame rfl rfl rfl rfl k
  | timer =>
    simp only [applyCall, State.timer]
    split <;> exact .of_eq rfl rfl rfl rfl
  | exec pgdir sz =>
    simp only [applyCall, State.exec]
    split <;> exact .of_eq rfl rfl rfl rfl
  | ready | kill | changePrio | fault | yield | sleep => exact .of_eq rfl rfl rfl rfl

theorem step_frame (h : Inv s) (hs : step s a = some s') : Frame s a s' := by
  obtain ⟨⟨-, he⟩, rfl⟩ := step_eq_some_iff.mp hs
  cases a with
  | userinit c₀ =>
    cases hu : firstUnused s.proc <;>
      exact ⟨by simp [apply, State.userinit, State.allocproc, allocates, hu],
        by simp [apply, State.userinit, State.allocproc, hu],
        .inl (by simp [apply, State.userinit, State.allocproc, hu])⟩
  | userinitKalloc c₀ p x =>
    simp only [apply, State.userinitKalloc, State.allocKstack]
    split
    · exact ⟨rfl, by simp, .inl rfl⟩
    · exact ⟨rfl, .inl rfl, .inr ⟨c₀, p, he, rfl, by simp⟩⟩
  | userinitSetupkvm c₀ p x =>
    simp only [apply, State.userinitSetupkvm]
    split
    · exact ⟨rfl, by simp, .inl rfl⟩
    · exact .of_eq rfl rfl rfl rfl
  | select c₀ i =>
    simp only [apply, State.select]
    cases hsel : select s.proc i with
    | none => exact .of_eq rfl rfl rfl rfl
    | some p =>
      simp only [h.dispatch_eq (select_spec hsel).1]
      exact .of_eq rfl rfl rfl rfl
  | resume c₀ p =>
    simp only [apply, State.resume]
    cases (s.thread p).resume with
    | wait k =>
      refine wait_frame rfl ?_ ?_ ?_ k <;> rfl
    | forkret | yield | sleep => exact .of_eq rfl rfl rfl rfl
  | call c₀ p x => exact call_frame x
  | userinitReady | acquire | account | wakeup => exact .of_eq rfl rfl rfl rfl

end

end Xv6
