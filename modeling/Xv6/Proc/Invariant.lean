import Xv6.Proc.Claim

/-!
# The control invariant holds

Every step keeps `Inv`: the slots that a step writes belong to the agent that
takes it, or to nobody, or only have a sleeper woken.
-/

namespace Xv6

variable {ncpu : ℕ} {s : State ncpu}

theorem Inv.modify_quiet (h : Inv s) (p : Slot) (f : Proc → Proc)
    (hf : Quiet (s.proc p) (f (s.proc p))) : Inv (s.modify p f) := by
  refine h.of_quiet rfl rfl (by simp) fun i => ?_
  by_cases hi : i = p
  · subst hi
    simpa using hf
  · simpa [Ptable.modify_of_ne _ _ hi] using Quiet.refl _

theorem wakeup1_quiet (t : Ptable) (chan : Option Chan) (i : Slot) :
    Quiet (t i) (wakeup1 t chan i) := by
  rw [wakeup1_apply]
  refine ⟨id, id, ?_⟩
  split
  · next hs => exact Or.inr ⟨hs.1, rfl⟩
  · exact Or.inl rfl

theorem reparent_quiet (t : Ptable) (cur : Slot) (initproc : Option Slot) (i : Slot) :
    Quiet (t i) (reparent t cur initproc i) := by
  rw [reparent_apply]
  refine ⟨id, id, ?_⟩
  split
  · next hs => exact Or.inr ⟨hs.1.1, rfl⟩
  · exact Or.inl rfl

theorem Proc.kill_quiet (q : Proc) : Quiet q q.kill := by
  refine ⟨id, id, ?_⟩
  simp only [Proc.kill]
  split
  · next hs => exact Or.inr ⟨hs, rfl⟩
  · exact Or.inl rfl

theorem Inv.kill (h : Inv s) (pid : Int32) : Inv { s with proc := (kill s.proc pid).1 } := by
  unfold Xv6.kill
  cases findPid s.proc pid with
  | none => exact h
  | some p => exact h.modify_quiet p Proc.kill (Proc.kill_quiet _)

theorem Inv.sysChangePrio (h : Inv s) (p : Slot) (priority : Int32) :
    Inv { s with proc := (sysChangePrio s.proc p priority).1 } := by
  unfold Xv6.sysChangePrio changePrio
  split
  · exact h
  · cases findPid s.proc (s.proc p).pid with
    | none => exact h
    | some q =>
      exact h.modify_quiet q (fun x => { x with priority := priority }) ⟨id, id, Or.inl rfl⟩

section Steps

variable {s : State ncpu} {c : Fin ncpu} {p : Slot}

section

variable (h : Inv s)
include h

section

variable (hpc : (s.cpu c).pc = .swtch p)
include hpc

section

variable (hlock : ∀ c', s.lock = some c' → c' = c)
include hlock

/-- The process running on `c` gives it up: `t` is the table it leaves. -/
theorem Inv.sched (t : Ptable) (r : Resume) (ht : ∀ q ≠ p, Quiet (s.proc q) (t q))
    (hk : (t p).kstack = (s.proc p).kstack) (hg : (t p).pgdir = (s.proc p).pgdir)
    (hl : (t p).state.Live) (hr : (t p).state ≠ .running) :
    Inv ({ s with proc := t }.sched c p r) := by
  have hcl : s.claim (.cpu c) = some (p, .run) := CpuPc.claim_eq_run.mpr hpc
  have hrun : (s.proc p).state = .running := h.claim_ok _ _ _ hcl
  have hcb : ∀ b ≠ .cpu c, ({ s with proc := t }.sched c p r).claim b = s.claim b := by
    intro b hb
    simp only [State.sched, State.claim_setLock, State.claim_setResume,
      State.claim_setCpu_of_ne _ _ _ hb]
    cases b <;> rfl
  apply h.of_claim (.cpu c) p
  · intro b' role hb'
    exact h.claim_unique b' (.cpu c) p role .run hb' hcl
  · exact hcb
  · intro q role hq
    rw [hcl] at hq
    simp_all
  · simp only [State.sched, State.claim_setLock, State.claim_setResume, State.claim_setCpu_self]
    exact Role.Ok.of_claim (show Role.back.Ok _ from ⟨hl, hr⟩)
  · exact ht
  · intro c' hc'
    by_cases hc : c' = c
    · simp [State.sched, hc]
    · simp only [State.sched, State.setLock_cpu, State.setResume_cpu, State.setCpu_cpu,
        Function.update_of_ne hc] at hc'
      exact absurd (hlock c' (h.holds c' hc')) hc
  · intro c'
    by_cases hc : c' = c
    · subst hc
      simp [State.sched, CpuPc.proc, h.cpu_proc, hpc]
    · simpa [State.sched, hc] using h.cpu_proc c'
  · intro hr'
    exact absurd hr' hr
  · intro _
    show (t p).kstack ≠ 0 ∧ (t p).pgdir ≠ 0
    rw [hk, hg]
    exact h.memory p (by simp [hrun, ProcState.Live])

theorem Inv.no_holder (c' : Fin ncpu) : ¬ (s.cpu c').pc.Holds := by
  intro hc'
  obtain rfl := hlock c' (h.holds c' hc')
  simp [hpc, CpuPc.Holds] at hc'

/-- A process that runs with no other holder of the lock can set it free. -/
theorem Inv.setLock_none : Inv (s.setLock none) :=
  h.of_slots (by simp) (fun _ _ => id) (fun c' hc' => absurd hc' (h.no_holder hpc hlock c'))
    h.cpu_proc fun q => Or.inl (Quiet.refl _)

theorem Inv.sleepOn (chan : Chan) (r : Resume) : Inv (s.sleepOn c p chan r) := by
  refine h.sched hpc hlock _ r (fun q hq => ?_) ?_ ?_ ?_ ?_
  · rw [Ptable.modify_of_ne _ _ hq]
    exact Quiet.refl _
  all_goals simp [ProcState.Live]

theorem Inv.yield : Inv (s.yield c p) := by
  refine h.sched hpc hlock _ .yield (fun q hq => ?_) ?_ ?_ ?_ ?_
  · rw [Ptable.modify_of_ne _ _ hq]
    exact Quiet.refl _
  all_goals simp [ProcState.Live]

theorem Inv.exit : Inv (s.exit c p) := by
  unfold State.exit
  split
  · exact h.of_quiet rfl rfl (by simp) fun q => Quiet.refl _
  · refine h.sched hpc hlock _ .yield (fun q hq => ?_) ?_ ?_ ?_ ?_
    · rw [Ptable.modify_of_ne _ _ hq]
      exact (wakeup1_quiet _ _ q).trans (reparent_quiet _ _ _ q)
    all_goals simp [ProcState.Live, reparent_apply, wakeup1_apply]

theorem Inv.wait (k : WaitKind) : Inv (s.wait c p k) := by
  unfold State.wait
  cases hz : firstZombieChild s.proc p with
  | some z =>
    have hs := (firstZombieChild_eq_some hz).2
    have hfree : s.Free z := by
      refine h.free_of_parked (by simp [hs, ProcState.Live]) (by simp [hs]) fun c' hc' => ?_
      exact h.no_holder hpc hlock c' (by simp [hc', CpuPc.Holds])
    refine h.of_slots (by simp) (fun _ _ => id)
      (fun c' hc' => absurd hc' (h.no_holder hpc hlock c')) h.cpu_proc ?_
    intro q
    by_cases hq : q = z
    · subst hq
      exact Or.inr ⟨hfree, by cases k <;> simp [Proc.reap]⟩
    · simpa [Ptable.modify_of_ne _ _ hq] using Or.inl (Quiet.refl _)
  | none =>
    dsimp only
    split
    · exact h.setLock_none hpc hlock
    · exact h.sleepOn hpc hlock _ _

theorem Inv.resume : Inv (s.resume c p) := by
  have hchan : Inv (s.modify p fun q => { q with chan := none }) :=
    h.modify_quiet p _ ⟨id, id, Or.inl rfl⟩
  unfold State.resume
  cases (s.thread p).resume with
  | forkret => exact h.setLock_none hpc hlock
  | yield => exact h.setLock_none hpc hlock
  | sleep => exact hchan.setLock_none hpc hlock
  | wait k => exact hchan.wait hpc hlock k

end

theorem Inv.timer (hlock : (s.proc p).time_slice = 0 → s.lock = none) : Inv (s.timer c p) := by
  unfold State.timer
  split
  · exact h.modify_quiet p _ ⟨id, id, Or.inl rfl⟩
  · next hts =>
    have := hlock (not_not.mp hts)
    exact h.yield hpc (by simp [this])

end

theorem Inv.exec (pgdir : Addr) (sz : UInt32) : Inv (s.exec p pgdir sz) := by
  unfold State.exec
  split
  · exact h
  · next hp => exact h.modify_quiet p _ ⟨id, fun _ => hp, Or.inl rfl⟩

/-- The thread of a CPU that runs no process moves on, and takes no slot. -/
theorem Inv.setCpu (hrun : ∀ q, (s.cpu c).pc ≠ .swtch q) (v : Cpu) (l : Option (Fin ncpu))
    (hv : v.pc.claim = none) (hp : v.proc = none) (hvl : v.pc.Holds → l = some c)
    (hl : ∀ c' ≠ c, (s.cpu c').pc.Holds → l = some c') : Inv ((s.setCpu c v).setLock l) := by
  have hvp : v.pc.proc = none := by
    cases hpc : v.pc <;> simp_all [CpuPc.claim, CpuPc.proc]
  apply h.of_slots
  · intro b q role hb
    by_cases hbc : b = .cpu c
    · subst hbc
      simp [hv] at hb
    · simpa [State.claim_setCpu_of_ne _ _ _ hbc] using hb
  · intro c' q hc'
    have hc : c' ≠ c := by
      rintro rfl
      exact hrun q hc'
    simpa [hc] using hc'
  · intro c' hc'
    by_cases hc : c' = c
    · subst hc
      exact hvl (by simpa using hc')
    · exact hl c' hc (by simpa [hc] using hc')
  · intro c'
    by_cases hc : c' = c
    · subst hc
      simp [hp, hvp]
    · simpa [hc] using h.cpu_proc c'
  · exact fun q => Or.inl (Quiet.refl _)

theorem Inv.acquire (hpc : (s.cpu c).pc = .idle) (hlock : s.lock = none) : Inv (s.acquire c) := by
  refine h.setCpu (by simp [hpc]) _ _ rfl ?_ (fun _ => rfl) fun c' _ hc' => ?_
  · simp [h.cpu_proc, hpc, CpuPc.proc]
  · exact absurd (h.holds c' hc') (by simp [hlock])

theorem Inv.account (hpc : (s.cpu c).pc = .back p) : Inv (s.account c p) := by
  have hlock : s.lock = some c := h.holds c (by simp [hpc, CpuPc.Holds])
  have ht : Inv { s with proc := s.proc.account p } :=
    h.of_quiet rfl rfl (fun b => by cases b <;> rfl) fun q => ⟨id, id, Or.inl rfl⟩
  have := ht.setCpu (c := c) (by simp [hpc]) ⟨none, .scan (p.val + 1)⟩ s.lock rfl rfl
    (fun _ => hlock) fun c' _ hc' => h.holds c' hc'
  exact this

theorem Inv.dispatch {i : ℕ} (hpc : (s.cpu c).pc = .scan i) (hp : (s.proc p).state = .runnable) :
    Inv (s.dispatch c p) := by
  have hlock : s.lock = some c := h.holds c (by simp [hpc, CpuPc.Holds])
  have hlive : (s.proc p).state.Live := by simp [hp, ProcState.Live]
  have hmem := h.memory p hlive
  have hfree : s.Free p := h.free_of_parked hlive (by simp [hp])
    fun c' => h.not_back_of_locked hlock (by simp [hpc]) c' p
  rw [State.dispatch, if_neg hmem.1, if_neg hmem.2]
  apply h.of_claim (.cpu c) p
  · intro b role hb
    exact absurd hb (hfree b role)
  · intro b hb
    simp [State.claim_setCpu_of_ne _ _ _ hb]
  · intro q role hq
    simp [State.claim, hpc, CpuPc.claim] at hq
  · rw [State.claim_setCpu_self]
    exact Role.Ok.of_claim (show Role.run.Ok _ by simp [Role.Ok, Proc.dispatch])
  · intro q hq
    simpa [Ptable.modify_of_ne _ _ hq] using Quiet.refl _
  · intro c' hc'
    by_cases hc : c' = c
    · subst hc
      simpa using hlock
    · exact h.holds c' (by simpa [hc] using hc')
  · intro c'
    by_cases hc : c' = c
    · subst hc
      simp [CpuPc.proc]
    · simpa [hc] using h.cpu_proc c'
  · intro _
    exact ⟨c, by simp⟩
  · intro _
    simpa [Proc.dispatch] using hmem

theorem Inv.select {i : ℕ} (hpc : (s.cpu c).pc = .scan i) : Inv (s.select c i) := by
  have hlock : s.lock = some c := h.holds c (by simp [hpc, CpuPc.Holds])
  unfold State.select
  cases hs : Xv6.select s.proc i with
  | none =>
    refine h.setCpu (by simp [hpc]) _ _ rfl ?_ (fun hv => hv.elim) fun c' hc hc' => ?_
    · simp [h.cpu_proc, hpc, CpuPc.proc]
    · have := h.holds c' hc'
      rw [hlock, Option.some.injEq] at this
      exact absurd this.symm hc
  | some p => exact h.dispatch hpc (select_spec hs).1

end

end Steps

section Build

variable {s s' : State ncpu} {c : Fin ncpu} {p np : Slot} {k : ForkKind}

section

variable (h : Inv s)
include h

/-- A step of an agent that creates a process in the slot `np`: it has the slot
already, or has none and the slot is free. -/
theorem Inv.build (b : Agent ncpu) (f : Proc → Proc)
    (hold : s.Free np ∧ s.claim b = none ∨ ∃ role, s.claim b = some (np, role))
    (hclaim : ∀ b' ≠ b, s'.claim b' = s.claim b')
    (hnew : ∀ q role, s'.claim b = some (q, role) → q = np ∧ role.Ok (f (s.proc np)))
    (hproc : ∀ q, s'.proc q = s.proc.modify np f q) (hlock : s'.lock = s.lock)
    (hholds : ∀ c, (s'.cpu c).pc.Holds → (s.cpu c).pc.Holds)
    (hcpu : ∀ c, (s'.cpu c).proc = (s'.cpu c).pc.proc) (hrun : (f (s.proc np)).state ≠ .running)
    (hmem : (f (s.proc np)).state.Live →
      (f (s.proc np)).kstack ≠ 0 ∧ (f (s.proc np)).pgdir ≠ 0) : Inv s' := by
  have hnp : s'.proc np = f (s.proc np) := by rw [hproc, Ptable.modify_self]
  apply h.of_claim b np
  · intro b' role hb'
    obtain ⟨hfree, -⟩ | ⟨role', hb⟩ := hold
    · exact absurd hb' (hfree b' role)
    · exact h.claim_unique b' b np role role' hb' hb
  · exact hclaim
  · intro q role hq
    obtain ⟨-, hb⟩ | ⟨role', hb⟩ := hold
    · simp [hb] at hq
    · rw [hb] at hq
      simp_all
  · intro q role hq
    rw [hnp]
    exact hnew q role hq
  · intro q hq
    rw [hproc, Ptable.modify_of_ne _ _ hq]
    exact Quiet.refl _
  · intro c hc
    rw [hlock]
    exact h.holds c (hholds c hc)
  · exact hcpu
  · intro hr
    rw [hnp] at hr
    exact absurd hr hrun
  · rw [hnp]
    exact hmem

/-- The thread of `p` creates a process. -/
theorem Inv.buildThread (f : Proc → Proc) (loc : Loc)
    (hold : s.Free np ∧ (s.thread p).loc.claim = none ∨
      ∃ role, (s.thread p).loc.claim = some (np, role))
    (hclaim : ∀ b, s'.claim b = ((s.modify np f).setLoc p loc).claim b)
    (hproc : s'.proc = s.proc.modify np f) (hlock : s'.lock = s.lock) (hcpu : s'.cpu = s.cpu)
    (hnew : ∀ q role, loc.claim = some (q, role) → q = np ∧ role.Ok (f (s.proc np)))
    (hrun : (f (s.proc np)).state ≠ .running) (hmem : (f (s.proc np)).state.Live →
      (f (s.proc np)).kstack ≠ 0 ∧ (f (s.proc np)).pgdir ≠ 0) : Inv s' := by
  refine h.build (.thread p) f hold ?_ ?_ (fun q => by rw [hproc]) hlock ?_ ?_ hrun hmem
  · intro b hb
    rw [hclaim, State.claim_setLoc_of_ne _ _ _ hb, State.claim_modify]
  · intro q role hq
    rw [hclaim, State.claim_setLoc_self] at hq
    exact hnew q role hq
  · intro c hc
    rwa [hcpu] at hc
  · intro c
    rw [hcpu]
    exact h.cpu_proc c

theorem Inv.fork (hloc : (s.thread p).loc = .free) (k : ForkKind) : Inv (s.fork p k) := by
  unfold State.fork State.allocproc
  cases hu : firstUnused s.proc with
  | none => exact h
  | some np =>
    have hfree := h.free_of_unused (firstUnused_eq_some hu)
    refine h.buildThread (p := p) (Proc.alloc · s.nextpid) (.kalloc k np)
      (Or.inl ⟨hfree, by rw [hloc]; rfl⟩) (fun b => by cases b <;> rfl) rfl rfl rfl ?_ ?_ ?_
    · exact Role.Ok.of_claim (show Role.fresh.Ok _ from rfl)
    all_goals simp [Proc.alloc, ProcState.Live]

theorem Inv.forkKalloc (hloc : (s.thread p).loc = .kalloc k np) (a : Addr) :
    Inv (s.forkKalloc p k np a) := by
  have hcl : (s.thread p).loc.claim = some (np, .fresh) := by rw [hloc]; rfl
  have hemb : (s.proc np).state = .embryo := h.claim_ok (.thread p) np .fresh hcl
  unfold State.forkKalloc State.allocKstack
  by_cases ha : a = 0
  · simp only [ha, if_true]
    refine h.buildThread (p := p) (fun q => { q with kstack := 0, state := .unused }) .free
      (Or.inr ⟨_, hcl⟩) (fun b => rfl) rfl rfl rfl ?_ ?_ ?_
    all_goals simp [Loc.claim, ProcState.Live]
  · simp only [ha, if_false]
    refine h.buildThread (p := p) (fun q => { q with kstack := a }) (.copyuvm k np)
      (Or.inr ⟨_, hcl⟩) (fun b => ?_) rfl rfl rfl ?_ ?_ ?_
    · by_cases hb : b = .thread p
      · subst hb
        simp
      · simp [State.claim_setLoc_of_ne _ _ _ hb]
    · exact Role.Ok.of_claim (show Role.stack.Ok _ from ⟨hemb, ha⟩)
    all_goals simp [hemb, ProcState.Live]

theorem Inv.forkCopyuvm (hloc : (s.thread p).loc = .copyuvm k np) (a : Addr) :
    Inv (s.forkCopyuvm p k np a) := by
  have hcl : (s.thread p).loc.claim = some (np, .stack) := by rw [hloc]; rfl
  obtain ⟨hemb, hk⟩ : (s.proc np).state = .embryo ∧ (s.proc np).kstack ≠ 0 :=
    h.claim_ok (.thread p) np .stack hcl
  unfold State.forkCopyuvm
  split
  · refine h.buildThread (p := p) (fun q => { q with pgdir := 0, kstack := 0, state := .unused })
      .free (Or.inr ⟨_, hcl⟩) (fun b => rfl) rfl rfl rfl ?_ ?_ ?_
    all_goals simp [Loc.claim, ProcState.Live]
  · next ha =>
    refine h.buildThread (p := p)
      (fun q => { q with pgdir := a, sz := (s.proc p).sz, parent := some p }) (.ready k np)
      (Or.inr ⟨_, hcl⟩) (fun b => rfl) rfl rfl rfl ?_ ?_ ?_
    · exact Role.Ok.of_claim (show Role.ready.Ok _ from ⟨hemb, hk, ha⟩)
    all_goals simp [hemb, ProcState.Live]

theorem Inv.forkReady (hloc : (s.thread p).loc = .ready k np) : Inv (s.forkReady p k np) := by
  have hcl : (s.thread p).loc.claim = some (np, .ready) := by rw [hloc]; rfl
  obtain ⟨-, hmem⟩ : (s.proc np).state = .embryo ∧ (s.proc np).kstack ≠ 0 ∧
      (s.proc np).pgdir ≠ 0 := h.claim_ok (.thread p) np .ready hcl
  refine h.buildThread (p := p)
    (fun q => { q with state := .runnable, priority := k.priority q.pid }) .free
    (Or.inr ⟨_, hcl⟩) (fun b => rfl) rfl rfl rfl ?_ ?_ (fun _ => hmem)
  all_goals simp [Loc.claim]

/-- The thread of the boot CPU creates the first process. -/
theorem Inv.buildCpu (f : Proc → Proc) (v : Cpu)
    (hold : s.Free np ∧ (s.cpu c).pc.claim = none ∨ ∃ role, (s.cpu c).pc.claim = some (np, role))
    (hclaim : ∀ b, s'.claim b = ((s.modify np f).setCpu c v).claim b)
    (hproc : s'.proc = s.proc.modify np f) (hlock : s'.lock = s.lock)
    (hcpu : s'.cpu = Function.update s.cpu c v) (hv : ¬ v.pc.Holds) (hvp : v.proc = v.pc.proc)
    (hnew : ∀ q role, v.pc.claim = some (q, role) → q = np ∧ role.Ok (f (s.proc np)))
    (hrun : (f (s.proc np)).state ≠ .running) (hmem : (f (s.proc np)).state.Live →
      (f (s.proc np)).kstack ≠ 0 ∧ (f (s.proc np)).pgdir ≠ 0) : Inv s' := by
  refine h.build (.cpu c) f hold ?_ ?_ (fun q => by rw [hproc]) hlock ?_ ?_ hrun hmem
  · intro b hb
    rw [hclaim, State.claim_setCpu_of_ne _ _ _ hb, State.claim_modify]
  · intro q role hq
    rw [hclaim, State.claim_setCpu_self] at hq
    exact hnew q role hq
  · intro c' hc'
    rw [hcpu] at hc'
    by_cases hc : c' = c
    · subst hc
      simp [hv] at hc'
    · simpa [hc] using hc'
  · intro c'
    rw [hcpu]
    by_cases hc : c' = c
    · subst hc
      simpa using hvp
    · simpa [hc] using h.cpu_proc c'

theorem Inv.userinit (hpc : (s.cpu c).pc = .main) : Inv (s.userinit c) := by
  have hcp : (s.cpu c).proc = none := by rw [h.cpu_proc, hpc]; rfl
  unfold State.userinit State.allocproc
  cases hu : firstUnused s.proc with
  | none => exact h.of_quiet rfl rfl (by simp) fun q => Quiet.refl _
  | some np =>
    have hfree := h.free_of_unused (firstUnused_eq_some hu)
    refine h.buildCpu (c := c) (Proc.alloc · s.nextpid) ⟨(s.cpu c).proc, .userinitKalloc np⟩
      (Or.inl ⟨hfree, by rw [hpc]; rfl⟩) (fun b => by cases b <;> rfl) rfl rfl rfl id hcp ?_ ?_ ?_
    · exact Role.Ok.of_claim (show Role.fresh.Ok _ from rfl)
    all_goals simp [Proc.alloc, ProcState.Live]

theorem Inv.userinitKalloc (hpc : (s.cpu c).pc = .userinitKalloc p) (a : Addr) :
    Inv (s.userinitKalloc c p a) := by
  have hcp : (s.cpu c).proc = none := by rw [h.cpu_proc, hpc]; rfl
  have hcl : (s.cpu c).pc.claim = some (p, .fresh) := by rw [hpc]; rfl
  have hemb : (s.proc p).state = .embryo := h.claim_ok (.cpu c) p .fresh hcl
  unfold State.userinitKalloc State.allocKstack
  by_cases ha : a = 0
  · simp only [ha, if_true]
    refine h.buildCpu (c := c) (fun q => { q with kstack := 0, state := .unused })
      ⟨(s.cpu c).proc, .main⟩ (Or.inr ⟨_, hcl⟩) (fun b => ?_) rfl rfl rfl id hcp ?_ ?_ ?_
    · simp
    all_goals simp [CpuPc.claim, ProcState.Live]
  · simp only [ha, if_false]
    refine h.buildCpu (c := c) (fun q => { q with kstack := a })
      ⟨(s.cpu c).proc, .userinitSetupkvm p⟩ (Or.inr ⟨_, hcl⟩) (fun b => ?_) rfl rfl rfl id hcp
      ?_ ?_ ?_
    · by_cases hb : b = .cpu c
      · subst hb
        simp [State.claim]
      · cases b with
        | cpu c' =>
          have hc : c' ≠ c := fun he => hb (he ▸ rfl)
          simp [State.claim, hc]
        | thread q =>
          by_cases hq : q = p
          · subst hq
            simp [State.claim]
          · simp [State.claim, hq]
    · exact Role.Ok.of_claim (show Role.stack.Ok _ from ⟨hemb, ha⟩)
    all_goals simp [hemb, ProcState.Live]

theorem Inv.userinitSetupkvm (hpc : (s.cpu c).pc = .userinitSetupkvm p) (a : Addr) :
    Inv (s.userinitSetupkvm c p a) := by
  have hcp : (s.cpu c).proc = none := by rw [h.cpu_proc, hpc]; rfl
  have hcl : (s.cpu c).pc.claim = some (p, .stack) := by rw [hpc]; rfl
  obtain ⟨hemb, hk⟩ : (s.proc p).state = .embryo ∧ (s.proc p).kstack ≠ 0 :=
    h.claim_ok (.cpu c) p .stack hcl
  unfold State.userinitSetupkvm
  split
  · refine h.buildCpu (c := c) (fun q => { q with pgdir := 0 }) (s.cpu c) (Or.inr ⟨_, hcl⟩)
      (fun b => ?_) rfl rfl (Function.update_eq_self c s.cpu).symm (by simp [hpc, CpuPc.Holds])
      (h.cpu_proc c) ?_ ?_ ?_
    · by_cases hb : b = .cpu c
      · subst hb
        simp [State.claim]
      · simp [State.claim_setCpu_of_ne _ _ _ hb]
    · intro q role hq
      rw [hcl, Option.some.injEq, Prod.mk.injEq] at hq
      obtain ⟨rfl, rfl⟩ := hq
      exact ⟨rfl, hemb, hk⟩
    all_goals simp [hemb, ProcState.Live]
  · next ha =>
    refine h.buildCpu (c := c) (fun q => { q with pgdir := a, sz := PGSIZE })
      ⟨(s.cpu c).proc, .userinitReady p⟩ (Or.inr ⟨_, hcl⟩) (fun b => rfl)
      rfl rfl rfl id hcp ?_ ?_ ?_
    · exact Role.Ok.of_claim (show Role.ready.Ok _ from ⟨hemb, hk, ha⟩)
    all_goals simp [hemb, ProcState.Live]

theorem Inv.userinitReady (hpc : (s.cpu c).pc = .userinitReady p) : Inv (s.userinitReady c p) := by
  have hcl : (s.cpu c).pc.claim = some (p, .ready) := by rw [hpc]; rfl
  obtain ⟨-, hmem⟩ : (s.proc p).state = .embryo ∧ (s.proc p).kstack ≠ 0 ∧ (s.proc p).pgdir ≠ 0 :=
    h.claim_ok (.cpu c) p .ready hcl
  refine h.buildCpu (c := c) (fun q => { q with state := .runnable }) ⟨none, .idle⟩
    (Or.inr ⟨_, hcl⟩) (fun b => rfl) rfl rfl rfl id rfl ?_ ?_ (fun _ => hmem)
  all_goals simp [CpuPc.claim]

end

end Build

theorem Inv.applyCall (h : Inv s) {c : Fin ncpu} {p : Slot} {x : Call}
    (hpc : (s.cpu c).pc = .swtch p) (hlock : x.locks s p = true → s.lock = none)
    (hloc : x.loc = none ∨ x.loc = some (s.thread p).loc) : Inv (applyCall s c p x) := by
  cases x with
  | fork k => exact h.fork (loc_of_call rfl hloc) k
  | kalloc k np a => exact h.forkKalloc (loc_of_call rfl hloc) a
  | copyuvm k np a => exact h.forkCopyuvm (loc_of_call rfl hloc) a
  | ready k np => exact h.forkReady (loc_of_call rfl hloc)
  | exit => exact h.exit hpc (by simp [hlock rfl])
  | wait k => exact h.wait hpc (by simp [hlock rfl]) k
  | yield => exact h.yield hpc (by simp [hlock rfl])
  | timer => exact h.timer hpc fun hz => hlock (decide_eq_true hz)
  | sleep chan => exact h.sleepOn hpc (by simp [hlock rfl]) _ _
  | kill pid => exact h.kill pid
  | changePrio priority => exact h.sysChangePrio p priority
  | exec pgdir sz => exact h.exec pgdir sz
  | fault => exact h.modify_quiet p _ ⟨id, id, Or.inl rfl⟩

/-- Every step keeps the control invariant. -/
theorem Inv.step {s' : State ncpu} {a : Action ncpu} (h : Inv s) (hs : step s a = some s') :
    Inv s' := by
  obtain ⟨⟨-, he⟩, rfl⟩ := step_eq_some_iff.mp hs
  cases a with
  | userinit c => exact h.userinit he.1
  | userinitKalloc c p a => exact h.userinitKalloc he a
  | userinitSetupkvm c p a => exact h.userinitSetupkvm he a
  | userinitReady c p => exact h.userinitReady he.1
  | acquire c => exact h.acquire he.1 he.2
  | select c i => exact h.select he
  | account c p => exact h.account he
  | resume c p => exact h.resume he.1 (by simp [he.2])
  | call c p x => exact h.applyCall he.1 he.2.2.1 he.2.2.2
  | wakeup chan =>
    exact h.of_quiet rfl rfl (fun b => by cases b <;> rfl) fun q => wakeup1_quiet _ _ q

theorem Reachable.inv {bsp : Fin ncpu} {n : ℕ} (h : Reachable bsp n s) : Inv s := by
  induction h with
  | boot => exact Inv.boot bsp
  | step _ hs ih => exact ih.step hs

end Xv6
