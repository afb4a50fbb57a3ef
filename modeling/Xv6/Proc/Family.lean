import Xv6.Proc.Pid

/-!
# Parents and children

`exit` hands the children of the caller to init and wakes whoever may be
waiting for it, and the `wait` family collects `ZOMBIE` children and sleeps on
the caller's own `struct proc`. `step_family` says once what a step can do to
the fields these two read: `parent`, `chan`, and whether a slot is alive or a
zombie.
-/

namespace Xv6

variable {ncpu : ℕ}

/-- The process that goes round the loop of the `wait` family in this step: a new
call, or one that a `wakeup` has resumed. -/
def waiter (s : State ncpu) : Action ncpu → Option Slot
  | .call _ p (.wait _) => some p
  | .resume _ p =>
    match (s.thread p).resume with
    | .wait _ => some p
    | _ => none
  | _ => none

/-- The caller of the `wait` family that returns in this step and the child whose
pid it returns. -/
def collected (s : State ncpu) (a : Action ncpu) : Option (Slot × Slot) :=
  (waiter s a).bind fun p => (firstZombieChild s.proc p).map (p, ·)

/-- A change of slot `i` that parents and children do not see: `q` is what it becomes. Who falls
asleep in the `wait` family has found no zombie, and has not been killed. -/
structure Kin (t : Ptable) (i : Slot) (q : Proc) : Prop where
  parent : q.parent = (t i).parent
  live : q.state.Live ↔ (t i).state.Live
  zombie : q.state = .zombie ↔ (t i).state = .zombie
  asleep : q.state = .sleeping → q.chan = some (.proc i) →
    (t i).state = .sleeping ∧ (t i).chan = some (.proc i) ∨
      (t i).killed = false ∧ ∀ z, (t z).parent = some i → (t z).state ≠ .zombie

namespace Kin

variable {t : Ptable} {i p : Slot} {q : Proc}

theorem of_eq (h : q = t i) : Kin t i q := by
  rw [h]
  exact ⟨rfl, Iff.rfl, Iff.rfl, fun hs hc => .inl ⟨hs, hc⟩⟩

theorem of_update (h : Kin t p q) (i : Slot) : Kin t i (Function.update t p q i) := by
  by_cases hi : i = p
  · subst hi
    rwa [Function.update_self]
  · exact of_eq (Function.update_of_ne hi _ _)

theorem of_state (hp : q.parent = (t i).parent) (hs : q.state = (t i).state)
    (hc : q.chan = (t i).chan ∨ q.chan = none) : Kin t i q := by
  refine ⟨hp, by rw [hs], by rw [hs], fun hsl hch => ?_⟩
  obtain hc | hc := hc
  · exact .inl ⟨hs ▸ hsl, hc ▸ hch⟩
  · simp [hc] at hch

/-- A live process that stays alive. -/
theorem of_live (hp : q.parent = (t i).parent) (hl : (t i).state.Live) (hz : (t i).state ≠ .zombie)
    (hl' : q.state.Live) (hz' : q.state ≠ .zombie)
    (ha : q.state = .sleeping → q.chan = some (.proc i) →
      (t i).killed = false ∧ ∀ z, (t z).parent = some i → (t z).state ≠ .zombie) : Kin t i q :=
  ⟨hp, iff_of_true hl' hl, iff_of_false hz' hz, fun hs hc => .inr (ha hs hc)⟩

/-- A slot that is not in use yet, before and after. -/
theorem of_not_live (hp : q.parent = (t i).parent) (hl : ¬ (t i).state.Live)
    (hl' : ¬ q.state.Live) : Kin t i q := by
  refine ⟨hp, iff_of_false hl' hl, iff_of_false ?_ ?_, fun hs => absurd ?_ hl'⟩
  · rintro hz
    exact hl' (by simp [hz, ProcState.Live])
  · rintro hz
    exact hl (by simp [hz, ProcState.Live])
  · simp [hs, ProcState.Live]

theorem wakeup1 (t : Ptable) (chan : Option Chan) (i : Slot) :
    Kin t i (Xv6.wakeup1 t chan i) := by
  rw [wakeup1_apply]
  by_cases hw : (t i).state = .sleeping ∧ (t i).chan = chan
  · rw [if_pos hw]
    exact of_live rfl (by simp [hw.1, ProcState.Live]) (by simp [hw.1])
      (by simp [ProcState.Live]) (by simp) (by simp)
  · rw [if_neg hw]
    exact of_eq rfl

theorem kill (t : Ptable) (i : Slot) : Kin t i (t i).kill := by
  by_cases hs : (t i).state = .sleeping
  · exact of_live rfl (by simp [hs, ProcState.Live]) (by simp [hs])
      (by simp [Proc.kill, hs, ProcState.Live]) (by simp [Proc.kill, hs]) (by simp [Proc.kill, hs])
  · exact of_state rfl (by simp [Proc.kill, hs]) (Or.inl rfl)

end Kin

/-- What a step does to parents and children. -/
inductive FamilyStep (s : State ncpu) (a : Action ncpu) (s' : State ncpu) : Prop where
  /-- nothing; a running process may be somewhere else in `fork` -/
  | quiet (hproc : ∀ i, Kin s.proc i (s'.proc i))
      (hloc : ∀ i, (s'.thread i).loc = (s.thread i).loc ∨
        (s.proc i).state = .running ∧ ∀ k np, (s'.thread i).loc ≠ .ready k np)
  /-- the process `p` becomes the parent of the one it makes -/
  | adopt (c : Fin ncpu) (p np : Slot) (k : ForkKind) (hpc : (s.cpu c).pc = .swtch p)
      (hnp : (s.proc np).state = .embryo) (hcopy : (s.thread p).loc = .copyuvm k np)
      (hnp' : (s'.proc np).state = .embryo) (hpar : (s'.proc np).parent = some p)
      (hproc : ∀ i ≠ np, Kin s.proc i (s'.proc i))
      (hloc : (s'.thread p).loc = .ready k np)
      (hloc' : ∀ i ≠ p, (s'.thread i).loc = (s.thread i).loc)
  /-- and publishes it -/
  | publish (c : Fin ncpu) (p np : Slot) (k : ForkKind) (hpc : (s.cpu c).pc = .swtch p)
      (hnp : (s.proc np).state = .embryo) (hloc : (s.thread p).loc = .ready k np)
      (hnp' : (s'.proc np).state = .runnable) (hpar : (s'.proc np).parent = (s.proc np).parent)
      (hproc : ∀ i ≠ np, Kin s.proc i (s'.proc i)) (hfree : (s'.thread p).loc = .free)
      (hloc' : ∀ i ≠ p, (s'.thread i).loc = (s.thread i).loc)
  /-- `userinit` publishes init -/
  | publishInit (c : Fin ncpu) (p : Slot) (hpc : (s.cpu c).pc = .userinitReady p)
      (hp' : (s'.proc p).state = .runnable) (hpar : (s'.proc p).parent = (s.proc p).parent)
      (hproc : ∀ i ≠ p, Kin s.proc i (s'.proc i))
      (hloc : ∀ i, (s'.thread i).loc = (s.thread i).loc) (hidle : (s'.cpu c).pc = .idle)
  | exit (c : Fin ncpu) (p : Slot) (ha : a = .call c p .exit) (hpc : (s.cpu c).pc = .swtch p)
      (hinit : s.initproc ≠ some p) (hfree : (s.thread p).loc = .free)
      (hproc : s'.proc = (reparent (wakeup1 s.proc ((s.proc p).parent.map .proc)) p
        s.initproc).modify p fun q => { q with state := .zombie })
      (hloc : ∀ i, (s'.thread i).loc = (s.thread i).loc)
  | collect (p z : Slot) (hc : collected s a = some (p, z)) (hz : (s.proc z).state = .zombie)
      (hpar : (s.proc z).parent = some p) (hz' : (s'.proc z).state = .unused)
      (hpar' : (s'.proc z).parent = none)
      (hproc : ∀ i ≠ z, Kin s.proc i (s'.proc i))
      (hloc : ∀ i, (s'.thread i).loc = (s.thread i).loc)

section

variable {s s' : State ncpu} {a : Action ncpu} {c : Fin ncpu} {p : Slot}

theorem firstZombieChild_congr {t t' : Ptable} (hp : ∀ i, (t' i).parent = (t i).parent)
    (hs : ∀ i, (t' i).state = (t i).state) (cur : Slot) :
    firstZombieChild t' cur = firstZombieChild t cur := by
  unfold firstZombieChild
  congr 1
  funext i
  rw [hp i, hs i]

theorem firstZombieChild_eq_none {t : Ptable} {cur : Slot} (h : firstZombieChild t cur = none)
    (z : Slot) (hz : (t z).parent = some cur) : (t z).state ≠ .zombie := by
  have := TableScan.firstFrom_eq_none_iff.mp h z (Nat.zero_le _)
  simpa [hz] using this

/-- A running process that leaves the CPU, other than by `exit`. -/
theorem Kin.of_running {q : Proc} (hr : (s.proc p).state = .running)
    (hp : q.parent = (s.proc p).parent) (hl : q.state.Live) (hz : q.state ≠ .zombie)
    (ha : q.state = .sleeping → q.chan = some (.proc p) → (s.proc p).killed = false ∧
      ∀ z, (s.proc z).parent = some p → (s.proc z).state ≠ .zombie) : Kin s.proc p q :=
  .of_live hp (by simp [hr, ProcState.Live]) (by simp [hr]) hl hz ha

theorem sched_loc (r : Resume) (i : Slot) : ((s.sched c p r).thread i).loc = (s.thread i).loc := by
  by_cases hi : i = p
  · subst hi
    simp [State.sched]
  · simp [State.sched, hi]

/-- A round of the `wait` family; `s₁` is `s` with `chan` cleared when the round
follows a sleep. -/
theorem wait_family {s₁ : State ncpu} {chan : Option Chan} (hr : (s.proc p).state = .running)
    (hw : waiter s a = some p) (hchan : chan = (s.proc p).chan ∨ chan = none)
    (h₁ : ∀ i ≠ p, s₁.proc i = s.proc i) (h₂ : s₁.proc p = { s.proc p with chan := chan })
    (hth : s₁.thread = s.thread) (k : WaitKind) : FamilyStep s a (s₁.wait c p k) := by
  have hkin : ∀ i, Kin s.proc i (s₁.proc i) := by
    intro i
    by_cases hi : i = p
    · subst hi
      rw [h₂]
      exact .of_state rfl rfl hchan
    · exact .of_eq (h₁ i hi)
  have hstate : ∀ i, (s₁.proc i).state = (s.proc i).state := by
    intro i
    by_cases hi : i = p
    · rw [hi, h₂]
    · rw [h₁ i hi]
  have hfirst := firstZombieChild_congr (fun i => (hkin i).parent) hstate p
  unfold State.wait
  cases hz : firstZombieChild s₁.proc p with
  | some z =>
    obtain ⟨hzp, hzs⟩ := firstZombieChild_eq_some (hfirst ▸ hz)
    refine .collect p z (by simp [collected, hw, ← hfirst, hz]) hzs hzp ?_ ?_ ?_ ?_
    · cases k <;> simp [Proc.reap]
    · cases k <;> simp [Proc.reap]
    · intro i hi
      simpa [Ptable.modify_of_ne _ _ hi] using hkin i
    · simp [hth]
  | none =>
    dsimp only
    split
    · exact .quiet hkin (by simp [hth])
    · next hno =>
      have hkilled : (s.proc p).killed = false := by simpa [h₂] using (not_or.mp hno).2
      refine .quiet (fun i => ?_) fun i =>
        .inl ((sched_loc _ i).trans (congrArg (fun t => (t i).loc) hth))
      by_cases hi : i = p
      · subst hi
        refine .of_running hr ?_ ?_ ?_ fun _ _ =>
          ⟨hkilled, firstZombieChild_eq_none (hfirst ▸ hz)⟩ <;>
            simp [State.sleepOn, State.sched, h₂, ProcState.Live]
      · exact .of_eq (by simp [State.sleepOn, State.sched, Ptable.modify_of_ne _ _ hi, h₁ i hi])

/-- A step that writes one slot quietly and leaves the threads where they are. -/
theorem FamilyStep.of_update {q : Proc} (hs' : s'.proc = Function.update s.proc p q)
    (hq : Kin s.proc p q) (hloc : ∀ i, (s'.thread i).loc = (s.thread i).loc) :
    FamilyStep s a s' := by
  refine .quiet (fun i => ?_) (fun i => Or.inl (hloc i))
  rw [hs']
  exact hq.of_update i

theorem FamilyStep.same (hp : s'.proc = s.proc) (ht : s'.thread = s.thread) : FamilyStep s a s' :=
  .quiet (fun i => .of_eq (congrFun hp i)) fun i => Or.inl (by rw [ht])

theorem yield_family (hr : (s.proc p).state = .running) : FamilyStep s a (s.yield c p) := by
  refine .of_update rfl ?_ fun i => sched_loc .yield i
  exact .of_running hr rfl (by simp [ProcState.Live]) (by simp) (by simp)

theorem allocproc_family {np : Slot} (hu : firstUnused s.proc = some np)
    (hs' : s'.proc = s.proc.modify np (Proc.alloc · s.nextpid))
    (hloc : ∀ i, (s'.thread i).loc = (s.thread i).loc ∨
        (s.proc i).state = .running ∧ ∀ k np, (s'.thread i).loc ≠ .ready k np) :
    FamilyStep s a s' := by
  refine .quiet (fun i => ?_) hloc
  rw [hs']
  refine Kin.of_update ?_ i
  exact .of_not_live rfl (by simp [firstUnused_eq_some hu, ProcState.Live])
    (by simp [Proc.alloc, ProcState.Live])

theorem allocKstack_kin {np : Slot} (hnp : (s.proc np).state = .embryo) (x : Addr) (i : Slot) :
    Kin s.proc i ((s.allocKstack np x).proc i) := by
  unfold State.allocKstack
  split
  · refine Kin.of_update ?_ i
    exact .of_not_live rfl (by simp [hnp, ProcState.Live]) (by simp [ProcState.Live])
  · refine Kin.of_update ?_ i
    exact .of_state rfl rfl (Or.inl rfl)

theorem allocKstack_loc (np : Slot) (x : Addr) (i : Slot) :
    ((s.allocKstack np x).thread i).loc = (s.thread i).loc := by
  unfold State.allocKstack
  split
  · rfl
  · by_cases hi : i = np
    · subst hi
      simp
    · simp [hi]

theorem setLoc_loc (loc : Loc) {i : Slot} (hi : i ≠ p) :
    ((s.setLoc p loc).thread i).loc = (s.thread i).loc := by
  simp [hi]

theorem call_family (h : Inv s) {x : Call} (ha : a = .call c p x) (he : Enabled s a) :
    FamilyStep s a (applyCall s c p x) := by
  subst ha
  obtain ⟨hpc, -, -, hloc⟩ := he
  have hr := running_of_swtch h hpc
  cases x with
  | fork k =>
    simp only [applyCall, State.fork, State.allocproc]
    cases hu : firstUnused s.proc with
    | none => exact .same rfl rfl
    | some np =>
      refine allocproc_family hu rfl fun i => ?_
      by_cases hi : i = p
      · subst hi
        exact Or.inr ⟨hr, by simp⟩
      · exact Or.inl (by simp [hi])
  | kalloc k np x =>
    have hl := loc_of_call rfl hloc
    have hemb : (s.proc np).state = .embryo :=
      h.claim_ok (.thread p) np .fresh (by simp [State.claim, hl, Loc.claim])
    refine .quiet (allocKstack_kin hemb x) fun i => ?_
    by_cases hi : i = p
    · subst hi
      refine Or.inr ⟨hr, ?_⟩
      by_cases hx : x = 0 <;> simp [applyCall, State.forkKalloc, hx]
    · exact Or.inl ((setLoc_loc _ hi).trans (allocKstack_loc np x i))
  | copyuvm k np x =>
    have hl := loc_of_call rfl hloc
    have hemb := (h.claim_ok (.thread p) np .stack (by simp [State.claim, hl, Loc.claim])).1
    simp only [applyCall, State.forkCopyuvm]
    split
    · refine .quiet (fun i => ?_) fun i => ?_
      · refine Kin.of_update ?_ i
        exact .of_not_live rfl (by simp [hemb, ProcState.Live]) (by simp [ProcState.Live])
      · by_cases hi : i = p
        · subst hi
          exact Or.inr ⟨hr, by simp⟩
        · exact Or.inl (setLoc_loc _ hi)
    · refine .adopt c p np k hpc hemb hl ?_ ?_ ?_ ?_ ?_
      · simpa using hemb
      · simp
      · exact fun i hi => .of_eq (by simp [Ptable.modify_of_ne _ _ hi])
      · simp
      · exact fun i hi => setLoc_loc _ hi
  | ready k np =>
    have hl := loc_of_call rfl hloc
    have hemb := (h.claim_ok (.thread p) np .ready (by simp [State.claim, hl, Loc.claim])).1
    refine .publish c p np k hpc hemb hl ?_ ?_ ?_ ?_ ?_
    · simp [applyCall, State.forkReady]
    · simp [applyCall, State.forkReady]
    · exact fun i hi => .of_eq (by simp [applyCall, State.forkReady, Ptable.modify_of_ne _ _ hi])
    · simp [applyCall, State.forkReady]
    · exact fun i hi => setLoc_loc _ hi
  | exit =>
    have hl := loc_of_call rfl hloc
    simp only [applyCall, State.exit]
    split
    · exact .same rfl rfl
    · next hinit => exact .exit c p rfl hpc hinit hl rfl fun i => sched_loc .yield i
  | wait k => exact wait_family hr rfl (Or.inl rfl) (fun _ _ => rfl) rfl rfl k
  | yield => exact yield_family hr
  | timer =>
    simp only [applyCall, State.timer]
    split
    · refine .of_update rfl ?_ fun i => rfl
      exact .of_state rfl rfl (Or.inl rfl)
    · exact yield_family hr
  | sleep chan =>
    refine .of_update rfl ?_ fun i => sched_loc .sleep i
    exact .of_running hr rfl (by simp [ProcState.Live]) (by simp) (by simp)
  | kill pid =>
    simp only [applyCall, Xv6.kill]
    cases hf : findPid s.proc pid with
    | none => exact .same rfl rfl
    | some q => exact .of_update rfl (.kill _ q) fun i => rfl
  | changePrio priority =>
    simp only [applyCall, sysChangePrio, Xv6.changePrio]
    split
    · exact .same rfl rfl
    · cases hf : findPid s.proc (s.proc p).pid with
      | none => exact .same rfl rfl
      | some q =>
        refine .of_update rfl ?_ fun i => rfl
        exact .of_state rfl rfl (Or.inl rfl)
  | exec pgdir sz =>
    simp only [applyCall, State.exec]
    split
    · exact .same rfl rfl
    · refine .of_update rfl ?_ fun i => rfl
      exact .of_state rfl rfl (Or.inl rfl)
  | fault =>
    refine .of_update rfl ?_ fun i => rfl
    exact .of_state rfl rfl (Or.inl rfl)

theorem step_family (h : Inv s) (hs : step s a = some s') : FamilyStep s a s' := by
  obtain ⟨⟨-, he⟩, rfl⟩ := step_eq_some_iff.mp hs
  cases a with
  | userinit c =>
    simp only [apply, State.userinit, State.allocproc]
    cases hu : firstUnused s.proc with
    | none => exact .same rfl rfl
    | some np => exact allocproc_family hu rfl fun i => Or.inl rfl
  | userinitKalloc c p x =>
    have hemb := h.claim_ok (.cpu c) p .fresh
      (by simp only [State.claim, show (s.cpu c).pc = _ from he, CpuPc.claim])
    simp only [apply, State.userinitKalloc]
    split <;> exact .quiet (allocKstack_kin hemb x) fun i => Or.inl (allocKstack_loc p x i)
  | userinitSetupkvm c p x =>
    simp only [apply, State.userinitSetupkvm]
    split
    · refine .of_update rfl ?_ fun i => rfl
      exact .of_state rfl rfl (Or.inl rfl)
    · refine .of_update rfl ?_ fun i => rfl
      exact .of_state rfl rfl (Or.inl rfl)
  | userinitReady c p =>
    refine .publishInit c p he.1 ?_ ?_ ?_ (fun i => rfl) ?_
    · simp [apply, State.userinitReady]
    · simp [apply, State.userinitReady]
    · exact fun i hi => .of_eq (by simp [apply, State.userinitReady, Ptable.modify_of_ne _ _ hi])
    · simp [apply, State.userinitReady]
  | acquire c => exact .same rfl rfl
  | select c j =>
    simp only [apply, State.select]
    cases hsel : select s.proc j with
    | none => exact .same rfl rfl
    | some p =>
      have hp := (select_spec hsel).1
      dsimp only
      rw [h.dispatch_eq hp]
      refine .of_update rfl ?_ fun i => rfl
      exact .of_live rfl (by simp [hp, ProcState.Live]) (by simp [hp])
        (by simp [Proc.dispatch, ProcState.Live]) (by simp [Proc.dispatch])
        (by simp [Proc.dispatch])
  | account c p => exact .quiet (fun i => .of_state rfl rfl (Or.inl rfl)) fun i => Or.inl rfl
  | resume c p =>
    have hr := running_of_swtch h he.1
    simp only [apply, State.resume]
    cases hres : (s.thread p).resume with
    | forkret => exact .same rfl rfl
    | yield => exact .same rfl rfl
    | sleep =>
      refine .of_update rfl ?_ fun i => rfl
      exact .of_state rfl rfl (Or.inr rfl)
    | wait k =>
      have hw : waiter s (.resume c p) = some p := by simp [waiter, hres]
      refine wait_family hr hw (Or.inr rfl) (fun i hi => ?_) ?_ ?_ k
      · simp [Ptable.modify_of_ne _ _ hi]
      · simp
      · rfl
  | call c p x => exact call_family h rfl he
  | wakeup chan => exact .quiet (fun i => .wakeup1 s.proc _ i) fun i => Or.inl rfl

theorem booting_of_step (hs : step s a = some s') (hb : (s'.cpu c).pc.Booting) :
    (s.cpu c).pc.Booting := by
  have hpc := step_pcStep hs c
  generalize (s'.cpu c).pc = pc at hpc hb
  cases hpc with
  | keep => exact hb
  | boot h => exact h
  | acquire | finish | dispatch | leave | account => simp [CpuPc.Booting] at hb

theorem booting_of_initSlot {pc : CpuPc} (h : pc.initSlot = some p) : pc.Booting := by
  cases pc <;> simp [CpuPc.initSlot, CpuPc.Booting] at h ⊢

end

/-- Published and not exited. -/
def ProcState.Alive (x : ProcState) : Prop := x.Live ∧ x ≠ .zombie

theorem ProcState.alive_of_running {x : ProcState} (h : x = .running) : x.Alive := by
  simp [h, ProcState.Alive, ProcState.Live]

theorem Kin.alive {t : Ptable} {i : Slot} {q : Proc} (h : Kin t i q) :
    q.state.Alive ↔ (t i).state.Alive := by
  unfold ProcState.Alive
  rw [h.live, ne_eq, ne_eq, h.zombie]

/-- Every live process but init has a living parent, init lives as soon as anybody
does, and nobody sleeps in the `wait` family with a zombie to collect. -/
structure Family (s : State ncpu) : Prop where
  parent : ∀ i, (s.proc i).state.Live → s.initproc ≠ some i →
    ∃ q, (s.proc i).parent = some q ∧ (s.proc q).state.Alive
  init : ∀ i, (s.proc i).state.Live → ∃ j, s.initproc = some j ∧ (s.proc j).state.Live
  init_ne_zombie : ∀ j, s.initproc = some j → (s.proc j).state ≠ .zombie
  init_parent : ∀ j, s.initproc = some j → (s.proc j).parent = none
  own : ∀ i, (s.proc i).parent ≠ some i
  forking : ∀ p, (s.thread p).loc ≠ .free → (s.proc p).state.Alive
  ready : ∀ p k np, (s.thread p).loc = .ready k np → (s.proc np).parent = some p
  asleep : ∀ i z, (s.proc i).state = .sleeping → (s.proc i).chan = some (.proc i) →
    (s.proc z).parent = some i → (s.proc z).state ≠ .zombie

namespace Family

variable {s s' : State ncpu} {a : Action ncpu} {c : Fin ncpu} {p np z : Slot} {k : ForkKind}

/-- What `exit` does to the other slots. -/
structure Orphans (s s' : State ncpu) (p : Slot) : Prop where
  self : (s'.proc p).state = .zombie
  parent : ∀ i, (s'.proc i).parent =
    if (s.proc i).parent = some p then s.initproc else (s.proc i).parent
  live : ∀ i ≠ p, ((s'.proc i).state.Live ↔ (s.proc i).state.Live)
  zombie : ∀ i ≠ p, ((s'.proc i).state = .zombie ↔ (s.proc i).state = .zombie)
  asleep : ∀ i, (s'.proc i).state = .sleeping → (s'.proc i).chan = some (.proc i) →
    i ≠ p ∧ (s.proc i).state = .sleeping ∧ (s.proc i).chan = some (.proc i) ∧
      (s.proc p).parent ≠ some i ∧
      (s.initproc = some i →
        ∀ z, (s.proc z).parent = some p → (s.proc z).state ≠ .zombie)

theorem orphans (hproc : s'.proc = (reparent (wakeup1 s.proc ((s.proc p).parent.map .proc)) p
    s.initproc).modify p fun q => { q with state := .zombie }) : Orphans s s' p := by
  have hself : s'.proc p = { reparent (wakeup1 s.proc ((s.proc p).parent.map .proc)) p
      s.initproc p with state := .zombie } := by rw [hproc, Ptable.modify_self]
  have hother : ∀ i ≠ p, s'.proc i =
      reparent (wakeup1 s.proc ((s.proc p).parent.map .proc)) p s.initproc i := by
    intro i hi
    rw [hproc, Ptable.modify_of_ne _ _ hi]
  have hquiet : ∀ i ≠ p, Quiet (s.proc i) (s'.proc i) := by
    intro i hi
    rw [hother i hi]
    exact (wakeup1_quiet _ _ i).trans (reparent_quiet _ _ _ i)
  constructor
  · rw [hself]
  · intro i
    by_cases hi : i = p
    · rw [hi, hself, reparent_apply, wakeup1_apply]
    · rw [hother i hi, reparent_apply, wakeup1_apply]
  · intro i hi
    obtain hs | ⟨hs, hs'⟩ := (hquiet i hi).state
    · rw [hs]
    · simp [hs, hs', ProcState.Live]
  · intro i hi
    obtain hs | ⟨hs, hs'⟩ := (hquiet i hi).state
    · rw [hs]
    · simp [hs, hs']
  · intro i hs hc
    have hi : i ≠ p := by
      rintro rfl
      simp [hself] at hs
    have hs0 : (s.proc i).state = .sleeping := by
      obtain h | ⟨-, h⟩ := (hquiet i hi).state
      · exact h ▸ hs
      · simp [h] at hs
    rw [hother i hi, reparent_apply, wakeup1_apply] at hs hc
    refine ⟨hi, hs0, hc, fun hp => ?_, fun hini z hz hzom => ?_⟩
    · simp [hs0, hp, show (s.proc i).chan = _ from hc] at hs
    · have hex : ∃ z, (wakeup1 s.proc ((s.proc p).parent.map .proc) z).parent = some p ∧
          (wakeup1 s.proc ((s.proc p).parent.map .proc) z).state = .zombie :=
        ⟨z, by simp [wakeup1_apply, hz], by simp [wakeup1_apply, hzom]⟩
      by_cases hw : (s.proc p).parent.map Chan.proc = some (.proc i)
      · simp [hs0, hw, show (s.proc i).chan = _ from hc] at hs
      · simp [hs0, hini, show (s.proc i).chan = _ from hc, Ne.symm hw, hex] at hs

section

variable (h : Family s) (hinit : s'.initproc = s.initproc)
include h hinit

/-- A step in which nobody dies, and who is born has a living parent. -/
theorem keep (hlive : ∀ i, (s'.proc i).state.Live →
      (s.proc i).state.Live ∧ (s'.proc i).parent = (s.proc i).parent ∨
        ∃ q, (s'.proc i).parent = some q ∧ (s.proc q).state.Alive)
    (halive : ∀ i, (s.proc i).state.Alive → (s'.proc i).state.Alive)
    (hzombie : ∀ i, (s'.proc i).state = .zombie →
      (s.proc i).state = .zombie ∧ (s'.proc i).parent = (s.proc i).parent)
    (hpar : ∀ i, (s'.proc i).parent = (s.proc i).parent ∨ (s'.proc i).parent = none ∨
      ¬ (s.proc i).state.Live ∧ ∃ q, (s'.proc i).parent = some q ∧ (s.proc q).state.Alive)
    (hloc : ∀ i, (s'.thread i).loc ≠ .free → (s.thread i).loc ≠ .free ∨ (s.proc i).state.Alive)
    (hready : ∀ i k np, (s'.thread i).loc = .ready k np → (s'.proc np).parent = some i)
    (hasleep : ∀ i, (s'.proc i).state = .sleeping → (s'.proc i).chan = some (.proc i) →
      (s.proc i).state = .sleeping ∧ (s.proc i).chan = some (.proc i) ∨
        ∀ z, (s.proc z).parent = some i → (s.proc z).state ≠ .zombie) : Family s' := by
  constructor
  · intro i hi hne
    obtain ⟨hl, hp⟩ | ⟨q, hq, hqa⟩ := hlive i hi
    · obtain ⟨q, hq, hqa⟩ := h.parent i hl (hinit ▸ hne)
      exact ⟨q, hp.trans hq, halive q hqa⟩
    · exact ⟨q, hq, halive q hqa⟩
  · intro i hi
    obtain ⟨j, hj, hjl⟩ : ∃ j, s.initproc = some j ∧ (s.proc j).state.Live := by
      obtain ⟨hl, -⟩ | ⟨q, -, hqa⟩ := hlive i hi
      · exact h.init i hl
      · exact h.init q hqa.1
    exact ⟨j, hinit.trans hj, (halive j ⟨hjl, h.init_ne_zombie j hj⟩).1⟩
  · exact fun j hj hz => h.init_ne_zombie j (hinit ▸ hj) (hzombie j hz).1
  · intro j hj
    obtain hp | hp | ⟨hl, q, -, hqa⟩ := hpar j
    · exact hp.trans (h.init_parent j (hinit ▸ hj))
    · exact hp
    · obtain ⟨j', hj', hjl⟩ := h.init q hqa.1
      obtain rfl := Option.some.inj (hj'.symm.trans (hinit ▸ hj))
      exact absurd hjl hl
  · intro i hi
    obtain hp | hp | ⟨hl, q, hq, hqa⟩ := hpar i
    · exact h.own i (hp ▸ hi)
    · simp [hp] at hi
    · obtain rfl := Option.some.inj (hq.symm.trans hi)
      exact hl hqa.1
  · exact fun i hi => halive i ((hloc i hi).elim (h.forking i) id)
  · exact hready
  · intro i z hi hc hz hzom
    obtain ⟨hz0, hzp⟩ := hzombie z hzom
    rw [hzp] at hz
    obtain ⟨hi', hc'⟩ | hno := hasleep i hi hc
    · exact h.asleep i z hi' hc' hz hz0
    · exact hno z hz hz0

theorem quiet (hproc : ∀ i, Kin s.proc i (s'.proc i))
    (hloc : ∀ i, (s'.thread i).loc = (s.thread i).loc ∨
      (s.proc i).state = .running ∧ ∀ k np, (s'.thread i).loc ≠ .ready k np) : Family s' := by
  refine h.keep hinit (fun i hi => .inl ⟨(hproc i).live.mp hi, (hproc i).parent⟩)
    (fun i => (hproc i).alive.mpr) (fun i hz => ⟨(hproc i).zombie.mp hz, (hproc i).parent⟩)
    (fun i => .inl (hproc i).parent) (fun i hi => ?_) (fun i k np hi => ?_)
    fun i hi hc => ((hproc i).asleep hi hc).imp_right And.right
  · obtain hl | ⟨hr, -⟩ := hloc i
    · exact .inl (hl ▸ hi)
    · exact .inr (ProcState.alive_of_running hr)
  · obtain hl | ⟨-, hne⟩ := hloc i
    · exact (hproc np).parent.trans (h.ready i k np (hl ▸ hi))
    · exact absurd hi (hne k np)

/-- A step that changes slot `j`, which is nobody's home before. -/
theorem except {j : Slot} (hproc : ∀ i ≠ j, Kin s.proc i (s'.proc i))
    (hj : ¬ (s.proc j).state.Alive) (hz : (s'.proc j).state ≠ .zombie)
    (hsl : (s'.proc j).state ≠ .sleeping)
    (hlive : (s'.proc j).state.Live → ∃ q, (s'.proc j).parent = some q ∧ (s.proc q).state.Alive)
    (hpar : (s'.proc j).parent = (s.proc j).parent ∨ (s'.proc j).parent = none ∨
      ¬ (s.proc j).state.Live ∧ ∃ q, (s'.proc j).parent = some q ∧ (s.proc q).state.Alive)
    (hloc : ∀ i, (s'.thread i).loc ≠ .free → (s.thread i).loc ≠ .free ∨ (s.proc i).state.Alive)
    (hready : ∀ i k np, (s'.thread i).loc = .ready k np → (s'.proc np).parent = some i) :
    Family s' := by
  refine h.keep hinit (fun i hi => ?_) (fun i hi => ?_) (fun i hi => ?_) (fun i => ?_) hloc hready
    fun i hi hc => ?_
  all_goals by_cases hij : i = j
  · subst hij
    exact .inr (hlive hi)
  · exact .inl ⟨(hproc i hij).live.mp hi, (hproc i hij).parent⟩
  · exact absurd (hij ▸ hi) hj
  · exact (hproc i hij).alive.mpr hi
  · exact absurd (hij ▸ hi) hz
  · exact ⟨(hproc i hij).zombie.mp hi, (hproc i hij).parent⟩
  · subst hij
    exact hpar
  · exact .inl (hproc i hij).parent
  · exact absurd (hij ▸ hi) hsl
  · exact ((hproc i hij).asleep hi hc).imp_right And.right

theorem adopt (hI : Inv s) (hpc : (s.cpu c).pc = .swtch p) (hnp : (s.proc np).state = .embryo)
    (hcopy : (s.thread p).loc = .copyuvm k np) (hnp' : (s'.proc np).state = .embryo)
    (hpar : (s'.proc np).parent = some p) (hproc : ∀ i ≠ np, Kin s.proc i (s'.proc i))
    (hloc : (s'.thread p).loc = .ready k np)
    (hloc' : ∀ i ≠ p, (s'.thread i).loc = (s.thread i).loc) : Family s' := by
  have hp := ProcState.alive_of_running (running_of_swtch hI hpc)
  refine h.except hinit hproc (fun ha => ha.1.2 hnp) (by simp [hnp']) (by simp [hnp'])
    (fun hl => absurd hnp' hl.2) (.inr (.inr ⟨fun hl => hl.2 hnp, p, hpar, hp⟩)) (fun i hi => ?_)
    fun i k' np' hi => ?_
  · by_cases hip : i = p
    · exact .inr (hip ▸ hp)
    · exact .inl (hloc' i hip ▸ hi)
  · by_cases hip : i = p
    · rw [hip, hloc] at hi
      obtain ⟨rfl, rfl⟩ := Loc.ready.inj hi
      rw [hip, hpar]
    · rw [hloc' i hip] at hi
      have hnn : np' ≠ np := by
        -- both threads would be at work on the same slot
        rintro rfl
        have := hI.claim_unique (.thread i) (.thread p) np' .ready .stack
          (by simp [State.claim, hi, Loc.claim]) (by simp [State.claim, hcopy, Loc.claim])
        exact hip (Agent.thread.inj this)
      exact (hproc np' hnn).parent.trans (h.ready i k' np' hi)

theorem publish (hI : Inv s) (hpc : (s.cpu c).pc = .swtch p) (hnp : (s.proc np).state = .embryo)
    (hl : (s.thread p).loc = .ready k np) (hnp' : (s'.proc np).state = .runnable)
    (hpar : (s'.proc np).parent = (s.proc np).parent)
    (hproc : ∀ i ≠ np, Kin s.proc i (s'.proc i)) (hfree : (s'.thread p).loc = .free)
    (hloc' : ∀ i ≠ p, (s'.thread i).loc = (s.thread i).loc) : Family s' := by
  have hp := ProcState.alive_of_running (running_of_swtch hI hpc)
  have hloc : ∀ i, (s'.thread i).loc ≠ .free → (s'.thread i).loc = (s.thread i).loc := fun i hi =>
    hloc' i fun hip => hi (hip ▸ hfree)
  refine h.except hinit hproc (fun ha => ha.1.2 hnp) (by simp [hnp']) (by simp [hnp'])
    (fun _ => ⟨p, hpar.trans (h.ready p k np hl), hp⟩) (.inl hpar)
    (fun i hi => .inl (hloc i hi ▸ hi)) fun i k' np' hi => ?_
  have hold := h.ready i k' np' ((hloc i (by simp [hi])).symm.trans hi)
  by_cases hnn : np' = np
  · rw [hnn] at hold ⊢
    exact hpar.trans hold
  · exact (hproc np' hnn).parent.trans hold

theorem collect (hI : Inv s) (hz : (s.proc z).state = .zombie) (hz' : (s'.proc z).state = .unused)
    (hpar' : (s'.proc z).parent = none) (hproc : ∀ i ≠ z, Kin s.proc i (s'.proc i))
    (hloc : ∀ i, (s'.thread i).loc = (s.thread i).loc) : Family s' := by
  refine h.except hinit hproc (fun ha => ha.2 hz) (by simp [hz']) (by simp [hz'])
    (fun hl => absurd hz' hl.1) (.inr (.inl hpar')) (fun i hi => .inl (hloc i ▸ hi))
    fun i k np hi => ?_
  rw [hloc i] at hi
  have hemb := hI.claim_ok (.thread i) np .ready (by simp [State.claim, hi, Loc.claim])
  have hnz : np ≠ z := by
    rintro rfl
    simp [Role.Ok, hz] at hemb
  exact (hproc np hnz).parent.trans (h.ready i k np hi)

theorem publishInit (hp : s.initproc = some p) (hlive : ∀ i, ¬ (s.proc i).state.Live)
    (hp' : (s'.proc p).state = .runnable) (hpar : (s'.proc p).parent = (s.proc p).parent)
    (hproc : ∀ i ≠ p, Kin s.proc i (s'.proc i))
    (hloc : ∀ i, (s'.thread i).loc = (s.thread i).loc) : Family s' := by
  have heq : ∀ i, (s'.proc i).state.Live → i = p := by
    intro i hi
    by_contra hip
    exact hlive i ((hproc i hip).live.mp hi)
  have hparent : ∀ i, (s'.proc i).parent = (s.proc i).parent := by
    intro i
    by_cases hi : i = p
    · rw [hi, hpar]
    · exact (hproc i hi).parent
  have hnofork : ∀ i, (s'.thread i).loc = .free := by
    intro i
    by_contra hi
    exact hlive i (h.forking i (hloc i ▸ hi)).1
  constructor
  · intro i hi hne
    rw [heq i hi] at hne
    exact absurd (hinit.trans hp) hne
  · exact fun _ _ => ⟨p, hinit.trans hp, by simp [hp', ProcState.Live]⟩
  · intro j hj
    obtain rfl := Option.some.inj (hp.symm.trans (hinit.symm.trans hj))
    simp [hp']
  · exact fun j hj => (hparent j).trans (h.init_parent j (hinit ▸ hj))
  · exact fun i => hparent i ▸ h.own i
  · exact fun i hi => absurd (hnofork i) hi
  · intro i k np hi
    simp [hnofork i] at hi
  · intro i z hi
    have hip := heq i (by simp [hi, ProcState.Live])
    simp [hip, hp'] at hi

theorem exit (hI : Inv s) (hpc : (s.cpu c).pc = .swtch p) (hne : s.initproc ≠ some p)
    (hfree : (s.thread p).loc = .free) (ho : Orphans s s' p)
    (hloc : ∀ i, (s'.thread i).loc = (s.thread i).loc) : Family s' := by
  have hp := ProcState.alive_of_running (running_of_swtch hI hpc)
  have halive : ∀ i ≠ p, (s.proc i).state.Alive → (s'.proc i).state.Alive := by
    intro i hi ha
    exact ⟨(ho.live i hi).mpr ha.1, fun hz => ha.2 ((ho.zombie i hi).mp hz)⟩
  -- init is there to take the orphans
  obtain ⟨j, hj, hjl⟩ := h.init p hp.1
  have hjp : j ≠ p := by
    rintro rfl
    exact hne hj
  have hja := halive j hjp ⟨hjl, h.init_ne_zombie j hj⟩
  have hlive : ∀ i, (s'.proc i).state.Live → (s.proc i).state.Live := by
    intro i hi
    by_cases hip : i = p
    · rw [hip]
      exact hp.1
    · exact (ho.live i hip).mp hi
  constructor
  · intro i hi hini
    obtain ⟨q, hq, hqa⟩ := h.parent i (hlive i hi) (hinit ▸ hini)
    rw [ho.parent i]
    by_cases hqp : q = p
    · rw [if_pos (hqp ▸ hq)]
      exact ⟨j, hj, hja⟩
    · rw [if_neg fun hc => hqp (Option.some.inj (hq.symm.trans hc))]
      exact ⟨q, hq, halive q hqp hqa⟩
  · exact fun _ _ => ⟨j, hinit.trans hj, hja.1⟩
  · intro i hi
    obtain rfl := Option.some.inj (hj.symm.trans (hinit.symm.trans hi))
    exact hja.2
  · intro i hi
    rw [ho.parent i, h.init_parent i (hinit ▸ hi), if_neg (by simp)]
  · intro i
    rw [ho.parent i]
    split
    · next hip =>
      intro hini
      simp [h.init_parent i hini] at hip
    · exact h.own i
  · intro i hi
    have hip : i ≠ p := by
      rintro rfl
      exact hi ((hloc i).trans hfree)
    exact halive i hip (h.forking i (hloc i ▸ hi))
  · intro i k np hi
    rw [hloc i] at hi
    have hip : i ≠ p := by
      rintro rfl
      simp [hfree] at hi
    have hpar := h.ready i k np hi
    rw [ho.parent np, if_neg fun hc => hip (Option.some.inj (hpar.symm.trans hc))]
    exact hpar
  · intro i z hi hc hz hzom
    obtain ⟨hip, hi', hc', hpar, hini⟩ := ho.asleep i hi hc
    rw [ho.parent z] at hz
    by_cases hzp : (s.proc z).parent = some p
    · -- the child of `p` would be init's now
      rw [if_pos hzp] at hz
      have hze : z ≠ p := by
        rintro rfl
        exact h.own z hzp
      exact hini hz z hzp ((ho.zombie z hze).mp hzom)
    · rw [if_neg hzp] at hz
      by_cases hze : z = p
      · exact hpar (hze ▸ hz)
      · exact h.asleep i z hi' hc' hz ((ho.zombie z hze).mp hzom)

end

theorem of_fresh (hlive : ∀ i, ¬ (s.proc i).state.Live) (hpar : ∀ i, (s.proc i).parent = none)
    (hloc : ∀ i, (s.thread i).loc = .free) : Family s where
  parent i hi := absurd hi (hlive i)
  init i hi := absurd hi (hlive i)
  init_ne_zombie j _ hz := hlive j (by simp [hz, ProcState.Live])
  init_parent j _ := hpar j
  own i := by simp [hpar i]
  forking i hi := absurd (hloc i) hi
  ready i k np hi := by simp [hloc i] at hi
  asleep i _ hi := absurd (show (s.proc i).state.Live by simp [hi, ProcState.Live]) (hlive i)

end Family

/-- `userinit` runs on the boot CPU alone, before there is any process. -/
structure BootInv (bsp : Fin ncpu) (s : State ncpu) : Prop where
  booting : ∀ c, (s.cpu c).pc.Booting → c = bsp
  fresh : ∀ c, (s.cpu c).pc.Booting →
    ∀ i, ¬ (s.proc i).state.Live ∧ (s.proc i).parent = none
  initSlot : ∀ c p, (s.cpu c).pc.initSlot = some p → s.initproc = some p

section

variable {bsp : Fin ncpu} {s s' : State ncpu} {a : Action ncpu} {c : Fin ncpu}

/-- As long as `userinit` is at work, steps change no family. -/
theorem BootInv.quiet (hI : Inv s) (hb : BootInv bsp s) (hs : step s a = some s')
    (hc : (s'.cpu c).pc.Booting) :
    (∀ i, Kin s.proc i (s'.proc i)) ∧ ∀ i, (s'.thread i).loc = (s.thread i).loc := by
  have hc0 := booting_of_step hs hc
  have hfresh := hb.fresh c hc0
  have hrun : ∀ {c' q}, (s.cpu c').pc ≠ .swtch q := fun {c' q} hpc =>
    (hfresh q).1 (ProcState.alive_of_running (running_of_swtch hI hpc)).1
  cases step_family hI hs with
  | quiet hproc hloc =>
    refine ⟨hproc, fun i => (hloc i).resolve_right fun hr => ?_⟩
    exact (hfresh i).1 (ProcState.alive_of_running hr.1).1
  | adopt _ _ _ _ hpc => exact absurd hpc hrun
  | publish _ _ _ _ hpc => exact absurd hpc hrun
  | publishInit c' p hpc _ _ _ _ hidle =>
    have hcc : c = c' := by
      rw [hb.booting c hc0, hb.booting c' (by simp [hpc, CpuPc.Booting])]
    simp [hcc, hidle, CpuPc.Booting] at hc
  | exit _ _ _ hpc => exact absurd hpc hrun
  | collect p z _ hz => exact absurd (by simp [hz, ProcState.Live]) (hfresh z).1

theorem BootInv.step (hI : Inv s) (hb : BootInv bsp s) (hs : Xv6.step s a = some s') :
    BootInv bsp s' := by
  refine ⟨fun c hc => hb.booting c (booting_of_step hs hc), fun c hc i => ?_, fun c p hp => ?_⟩
  · have hk := (hb.quiet hI hs hc).1 i
    obtain ⟨hl, hp⟩ := hb.fresh c (booting_of_step hs hc) i
    exact ⟨fun h => hl (hk.live.mp h), hk.parent.trans hp⟩
  · -- a slot that was init already is not replaced while `userinit` is at work
    have hkeep : (s.cpu c).pc.initSlot = some p → s'.initproc = some p := by
      intro hp
      obtain hini | ⟨c', p', hpc, -⟩ := (step_frame hI hs).initproc
      · exact hini.trans (hb.initSlot c p hp)
      · have hcc : c = c' := by
          rw [hb.booting c (booting_of_initSlot hp), hb.booting c' (by simp [hpc, CpuPc.Booting])]
        simp [hcc, hpc, CpuPc.initSlot] at hp
    have hpc := step_pcStep hs c
    generalize (s'.cpu c).pc = pc at hpc hp
    cases hpc with
    | keep => exact hkeep hp
    | boot _ _ hi =>
      obtain hi | hi | ⟨q, x, rfl, hx, rfl⟩ := hi
      · simp [hi] at hp
      · exact hkeep (hi ▸ hp)
      · obtain ⟨-, rfl⟩ := step_eq_some_iff.mp hs
        simpa [apply, State.userinitKalloc, hx, CpuPc.initSlot] using hp
    | acquire | finish | dispatch | leave | account => cases hp

theorem Family.step (hI : Inv s) (hb : BootInv bsp s) (h : Family s)
    (hs : Xv6.step s a = some s') : Family s' := by
  obtain hini | ⟨c, p, hpc, -, hpc'⟩ := (step_frame hI hs).initproc
  · cases step_family hI hs with
    | quiet hproc hloc => exact h.quiet hini hproc hloc
    | adopt c p np k hpc hnp hcopy hnp' hpar hproc hloc hloc' =>
      exact h.adopt hini hI hpc hnp hcopy hnp' hpar hproc hloc hloc'
    | publish c p np k hpc hnp hl hnp' hpar hproc hfree hloc' =>
      exact h.publish hini hI hpc hnp hl hnp' hpar hproc hfree hloc'
    | publishInit c p hpc hp' hpar hproc hloc =>
      have hc : (s.cpu c).pc.Booting := by simp [hpc, CpuPc.Booting]
      exact h.publishInit hini (hb.initSlot c p (by simp [hpc, CpuPc.initSlot]))
        (fun i => (hb.fresh c hc i).1) hp' hpar hproc hloc
    | exit c p _ hpc hne hfree hproc hloc =>
      exact h.exit hini hI hpc hne hfree (orphans hproc) hloc
    | collect p z _ hz _ hz' hpar' hproc hloc => exact h.collect hini hI hz hz' hpar' hproc hloc
  · have hc : (s'.cpu c).pc.Booting := by simp [hpc', CpuPc.Booting]
    have hfresh := (hb.step hI hs).fresh c hc
    refine .of_fresh (fun i => (hfresh i).1) (fun i => (hfresh i).2) fun i => ?_
    rw [(hb.quiet hI hs hc).2 i]
    by_contra hi
    exact (hb.fresh c (booting_of_step hs hc) i).1 (h.forking i hi).1

theorem Reachable.bootInv {n : ℕ} (hr : Reachable bsp n s) : BootInv bsp s := by
  induction hr with
  | boot =>
    have hpc : ∀ c, ((State.boot bsp).cpu c).pc = if c = bsp then .main else .idle := fun _ => rfl
    refine ⟨fun c hc => ?_, fun c _ i => ⟨by simp [State.boot, Proc.zero, ProcState.Live], rfl⟩,
      fun c p hp => ?_⟩
    · by_contra hne
      simp [hpc, hne, CpuPc.Booting] at hc
    · by_cases hc : c = bsp <;> simp [hpc, hc, CpuPc.initSlot] at hp
  | step hr hs ih => exact ih.step hr.inv hs

theorem Reachable.family {n : ℕ} (hr : Reachable bsp n s) : Family s := by
  induction hr with
  | boot =>
    exact .of_fresh (fun i => by simp [State.boot, Proc.zero, ProcState.Live]) (fun _ => rfl)
      fun _ => rfl
  | step hr hs ih => exact ih.step hr.inv hr.bootInv hs

/-- Parents and children see nothing of a step but an exit and one slot that is neither a zombie
nor asleep after it. -/
theorem step_kin (hI : Inv s) (hs : Xv6.step s a = some s') :
    (∀ i, Kin s.proc i (s'.proc i)) ∨
    (∃ j, (s'.proc j).state ≠ .zombie ∧ (s'.proc j).state ≠ .sleeping ∧
      ∀ i ≠ j, Kin s.proc i (s'.proc i)) ∨
    ∃ c p, a = .call c p .exit ∧ Family.Orphans s s' p := by
  cases step_family hI hs with
  | quiet hproc => exact .inl hproc
  | adopt c p j k _ _ _ hj _ hproc | publish c p j k _ _ _ hj _ hproc
  | publishInit c j _ hj _ hproc | collect p j _ _ _ hj _ hproc =>
    exact .inr (.inl ⟨j, by simp [hj], by simp [hj], hproc⟩)
  | exit c p ha _ _ _ hproc => exact .inr (.inr ⟨c, p, ha, Family.orphans hproc⟩)

/-- Only `exit` makes a zombie. -/
theorem zombie_step (hI : Inv s) (hs : Xv6.step s a = some s') {z : Slot}
    (hz : (s'.proc z).state = .zombie) :
    (s.proc z).state = .zombie ∨ ∃ c, a = .call c z .exit := by
  obtain hproc | ⟨j, hj, -, hproc⟩ | ⟨c, p, ha, ho⟩ := step_kin hI hs
  · exact .inl ((hproc z).zombie.mp hz)
  · exact .inl ((hproc z fun hzj => hj (hzj ▸ hz)).zombie.mp hz)
  · by_cases hzp : z = p
    · exact .inr ⟨c, hzp ▸ ha⟩
    · exact .inl ((ho.zombie z hzp).mp hz)

theorem pid_eq_of_used (hI : Inv s) (hs : Xv6.step s a = some s') {i : Slot}
    (hi : (s.proc i).state ≠ .unused) (hi' : (s'.proc i).state ≠ .unused) :
    (s'.proc i).pid = (s.proc i).pid := by
  obtain ⟨h, -⟩ | ⟨-, h⟩ | ⟨-, h, -⟩ := pid_step hI hs i
  · exact h
  · exact absurd h hi'
  · exact absurd (firstUnused_eq_some h) hi

theorem collected_eq_some {p z : Slot} (h : collected s a = some (p, z)) :
    (s.proc z).parent = some p ∧ (s.proc z).state = .zombie := by
  obtain ⟨q, -, hq⟩ := Option.bind_eq_some_iff.mp h
  obtain ⟨z', hz', heq⟩ := Option.map_eq_some_iff.mp hq
  obtain ⟨rfl, rfl⟩ := Prod.mk.inj heq
  exact firstZombieChild_eq_some hz'

theorem wait_unused {k : WaitKind} {z : Slot} (h : firstZombieChild s.proc p = some z) :
    ((s.wait c p k).proc z).state = .unused := by
  unfold State.wait
  rw [h]
  cases k <;> simp [Proc.reap]

theorem collected_unused (hs : Xv6.step s a = some s') {p z : Slot}
    (h : collected s a = some (p, z)) : (s'.proc z).state = .unused := by
  obtain ⟨-, rfl⟩ := step_eq_some_iff.mp hs
  obtain ⟨q, hw, hq⟩ := Option.bind_eq_some_iff.mp h
  obtain ⟨z', hz', heq⟩ := Option.map_eq_some_iff.mp hq
  obtain ⟨rfl, rfl⟩ := Prod.mk.inj heq
  cases a with
  | call c p x =>
    cases x <;> simp only [waiter, reduceCtorEq] at hw
    cases hw
    exact wait_unused hz'
  | resume c p =>
    simp only [waiter] at hw
    simp only [apply, State.resume]
    cases hres : (s.thread p).resume <;> simp only [hres, reduceCtorEq] at hw
    obtain rfl := Option.some.inj hw
    -- clearing `chan` after the sleep does not change what the scan finds
    refine wait_unused ?_
    rw [← hz']
    refine firstZombieChild_congr (fun i => ?_) (fun i => ?_) _
    · by_cases hi : i = p <;> simp [hi, Ptable.modify]
    · by_cases hi : i = p <;> simp [hi, Ptable.modify]
  | _ => simp [waiter] at hw

end

section

variable {bsp : Fin ncpu} {r : Run (@Xv6.step ncpu)}

theorem Reachable.of_run (h0 : r.state 0 = State.boot bsp) {k : ℕ} (hk : k ≤ r.length) :
    Reachable bsp (r.count (fun s a => allocates s a = true) 0 k) (r.state k) := by
  refine r.induct_between (P := fun k => Reachable bsp
    (r.count (fun s a => allocates s a = true) 0 k) (r.state k)) (Nat.zero_le k) hk ?_ ?_
  · rw [Run.count_self, h0]
    exact .boot
  · intro m _ _ hs ih
    rw [r.count_succ _ (Nat.zero_le m)]
    have hstep := ih.step hs
    cases ha : allocates (r.state m) (r.action m) <;> simpa [ha] using hstep

/-- A zombie has called `exit` and is still the process that did. -/
theorem exited_of_zombie (h0 : r.state 0 = State.boot bsp) {k : ℕ} (hk : k ≤ r.length) {z : Slot}
    (hz : ((r.state k).proc z).state = .zombie) :
    ∃ e < k, (∃ c, r.action e = .call c z .exit) ∧
      ((r.state e).proc z).pid = ((r.state k).proc z).pid ∧
      ∀ m, e < m → m ≤ k → ((r.state m).proc z).state = .zombie := by
  have hinv : ∀ m ≤ r.length, Inv (r.state m) := fun m hm => (Reachable.of_run h0 hm).inv
  revert z
  refine r.induct_between (P := fun k => ∀ {z : Slot}, ((r.state k).proc z).state = .zombie →
    ∃ e < k, (∃ c, r.action e = .call c z .exit) ∧
      ((r.state e).proc z).pid = ((r.state k).proc z).pid ∧
      ∀ m, e < m → m ≤ k → ((r.state m).proc z).state = .zombie) (Nat.zero_le k) hk ?_ ?_
  · intro z hz
    simp [h0, State.boot, Proc.zero] at hz
  · intro m _ hm hs ih z hz
    have hused : ((r.state (m + 1)).proc z).state ≠ .unused := by simp [hz]
    obtain hz0 | ⟨c, ha⟩ := zombie_step (hinv m (by omega)) hs hz
    · obtain ⟨e, he, hex, hpid, hall⟩ := ih hz0
      refine ⟨e, by omega, hex, ?_, fun i hi him => ?_⟩
      · rw [hpid, pid_eq_of_used (hinv m (by omega)) hs (by simp [hz0]) hused]
      · obtain rfl | hlt := Nat.eq_or_lt_of_le him
        · exact hz
        · exact hall i hi (by omega)
    · have hrun : ((r.state m).proc z).state = .running := by
        have he := (step_eq_some_iff.mp hs).1.2
        rw [ha] at he
        exact running_of_swtch (hinv m (by omega)) he.1
      refine ⟨m, Nat.lt_succ_self m, ⟨c, ha⟩, ?_, fun i hi him => ?_⟩
      · exact (pid_eq_of_used (hinv m (by omega)) hs (by simp [hrun]) hused).symm
      · obtain rfl : i = m + 1 := by omega
        exact hz

/-- The pid of a collected child is not given out again. -/
theorem pid_retired (h0 : r.state 0 = State.boot bsp)
    (hpids : r.count (fun s a => allocates s a = true) 0 r.length < 2 ^ 31) {j k : ℕ} {p z : Slot}
    (hj : collected (r.state j) (r.action j) = some (p, z)) (hjk : j < k) (hk : k ≤ r.length)
    (i : Slot) (hi : ((r.state k).proc i).state ≠ .unused) :
    ((r.state k).proc i).pid ≠ ((r.state j).proc z).pid := by
  set N : ℕ → ℕ := fun m => r.count (fun s a => allocates s a = true) 0 m with hN
  have hlt : ∀ m ≤ r.length, N m < 2 ^ 31 := fun m hm =>
    lt_of_le_of_lt (r.count_mono _ hm) hpids
  have hinv : ∀ m ≤ r.length, Inv (r.state m) := fun m hm => (Reachable.of_run h0 hm).inv
  have hpid : ∀ m ≤ r.length, PidInv (N m) (r.state m) := fun m hm =>
    (Reachable.of_run h0 hm).pidInv (hlt m hm)
  obtain ⟨-, hzom⟩ := collected_eq_some hj
  have hz0 := (hpid j (by omega)).used z (by simp [hzom])
  obtain ⟨x, hx1, hx, hpx⟩ := (hpid j (by omega)).range z hz0
  -- a pid that `allocproc` gives out later is larger
  have hfresh : ∀ m, j ≤ m → m < r.length → allocates (r.state m) (r.action m) = true →
      (r.state m).nextpid ≠ ((r.state j).proc z).pid := by
    intro m hjm hm ha
    have hle : N j ≤ N m := r.count_mono _ hjm
    have hsucc : N (m + 1) = N m + 1 := by
      rw [hN]
      simp only [r.count_succ _ (Nat.zero_le m), ha, if_true]
    have := hlt (m + 1) hm
    rw [(hpid m hm.le).nextpid, hpx]
    exact (ofNat_ne_ofNat (by omega) (by omega)).symm
  revert i
  refine r.induct_between (P := fun k => ∀ i, ((r.state k).proc i).state ≠ .unused →
    ((r.state k).proc i).pid ≠ ((r.state j).proc z).pid) (Nat.succ_le_of_lt hjk) hk ?_ ?_
  · intro i hi
    obtain ⟨h, hu⟩ | ⟨-, h⟩ | ⟨h, -, ha⟩ := pid_step (hinv j (by omega)) (r.next j (by omega)) i
    · intro heq
      rw [h] at heq
      obtain rfl := (hpid j (by omega)).unique z i hz0 heq.symm
      exact hi (collected_unused (r.next j (by omega)) hj)
    · exact absurd h hi
    · rw [h]
      exact hfresh j le_rfl (by omega) ha
  · intro m hm hmk hs ih i hi
    obtain ⟨h, hu⟩ | ⟨-, h⟩ | ⟨h, -, ha⟩ := pid_step (hinv m (by omega)) hs i
    · rw [h]
      exact ih i (hu hi)
    · exact absurd h hi
    · rw [h]
      exact hfresh m (by omega) (by omega) ha

end

/-- Every exit is collected exactly once: the pid that the `wait` family returns is
that of a child of the caller that has exited and no pid is returned twice; live
processes have living parents; and nobody sleeps in the `wait` family with a
zombie to collect. -/
theorem exit_collected_once {bsp : Fin ncpu} (r : Run (@step ncpu))
    (h0 : r.state 0 = State.boot bsp)
    (hpids : r.count (fun s a => allocates s a = true) 0 r.length < 2 ^ 31) :
    (∀ k < r.length, ∀ p z, collected (r.state k) (r.action k) = some (p, z) →
      ((r.state k).proc z).parent = some p ∧
      ∃ e < k, (∃ c, r.action e = .call c z .exit) ∧
        ((r.state e).proc z).pid = ((r.state k).proc z).pid ∧
        ∀ m, e < m → m ≤ k → ((r.state m).proc z).state = .zombie) ∧
    (∀ j k p z p' z', j < k → k < r.length →
      collected (r.state j) (r.action j) = some (p, z) →
      collected (r.state k) (r.action k) = some (p', z') →
      ((r.state j).proc z).pid ≠ ((r.state k).proc z').pid) ∧
    (∀ k ≤ r.length, ∀ i, ((r.state k).proc i).state ≠ .unused →
      ((r.state k).proc i).state ≠ .embryo → (r.state k).initproc ≠ some i →
      ∃ q, ((r.state k).proc i).parent = some q ∧
        ((r.state k).proc q).state ≠ .unused ∧ ((r.state k).proc q).state ≠ .zombie) ∧
    (∀ k ≤ r.length, (r.state k).lock = none → ∀ i z,
      ((r.state k).proc i).state = .sleeping → ((r.state k).proc i).chan = some (.proc i) →
      ((r.state k).proc z).parent = some i → ((r.state k).proc z).state ≠ .zombie) := by
  have hfam : ∀ k ≤ r.length, Family (r.state k) := fun k hk => (Reachable.of_run h0 hk).family
  refine ⟨?_, ?_, ?_, ?_⟩
  · intro k hk p z hc
    obtain ⟨hpar, hz⟩ := collected_eq_some hc
    exact ⟨hpar, exited_of_zombie h0 hk.le hz⟩
  · intro j k p z p' z' hjk hk hj hc
    exact (pid_retired h0 hpids hj hjk hk.le z' (by simp [(collected_eq_some hc).2])).symm
  · intro k hk i hu he hini
    obtain ⟨q, hq, hqa⟩ := (hfam k hk).parent i ⟨hu, he⟩ hini
    exact ⟨q, hq, hqa.1.1, hqa.2⟩
  · exact fun k hk _ => (hfam k hk).asleep

/-- Init waits for the child it has made; the child exits and init collects it. -/
def collectActions : List (Action 1) :=
  bootActions ++ forkActions 0 .fork 1 ++
    [.call cpu0 0 (.wait .wait), .account cpu0 0, .select cpu0 1, .resume cpu0 1,
      .call cpu0 1 .exit, .account cpu0 1, .select cpu0 2, .acquire cpu0, .select cpu0 0,
      .resume cpu0 0]

def collectRun : Run (@step 1) :=
  Run.ofActions (State.boot cpu0) collectActions (by decide +kernel)

theorem exit_collected_once_collectRun :
    collected (collectRun.state 20) (collectRun.action 20) = some (0, 1) ∧
    ∃ e < 20, (∃ c, collectRun.action e = .call c 1 .exit) ∧
      ∀ m, e < m → m ≤ 20 → ((collectRun.state m).proc 1).state = .zombie := by
  have hc : collected (collectRun.state 20) (collectRun.action 20) = some (0, 1) := by
    decide +kernel
  have hlen : collectRun.length = 21 := rfl
  have hpids : collectRun.count (fun s a => allocates s a = true) 0 collectRun.length < 2 ^ 31 :=
    lt_of_le_of_lt (collectRun.count_le _ 0 _) (by simp [hlen])
  have h0 : collectRun.state 0 = State.boot cpu0 := rfl
  obtain ⟨e, he, hex, -, hz⟩ :=
    ((exit_collected_once collectRun h0 hpids).1 20 (by omega) 0 1 hc).2
  exact ⟨hc, e, he, hex, hz⟩

end Xv6
