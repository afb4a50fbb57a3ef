import Xv6.Proc.Priority

/-!
# The time counters

`rutime` is bumped when a process is dispatched, `ctime` and one of `stime` and
`retime` in the accounting loop that follows the return of some process. The
loop tells the process that has just run from the others by its pid.
-/

namespace Xv6

variable {ncpu : ℕ}

/-- A CPU runs `i`, or has just run it and not done the accounting yet. -/
def State.OnCpu (s : State ncpu) (i : Slot) : Prop := ∃ c, (s.cpu c).pc.proc = some i

/-- The time charged to a process, as a `uint`. -/
def Proc.total (q : Proc) : UInt32 := (q.retime + q.rutime + q.stime).toUInt32

theorem Proc.total_dispatch (q : Proc) : q.dispatch.total = q.total + 1 := by
  have h : q.retime + (q.rutime + 1) + q.stime = q.retime + q.rutime + q.stime + 1 := by ac_rfl
  simp only [Proc.total, Proc.dispatch, h, Int32.toUInt32_add]
  rfl

theorem Proc.total_account_self (q : Proc) : (q.account q.pid).total = q.total := by
  simp [Proc.total, Proc.account]

theorem Proc.total_account_of_ne {q : Proc} {pid : Int32} (h : q.pid ≠ pid) :
    (q.account pid).total = q.total + 1 := by
  have hre : q.retime + 1 + q.rutime + q.stime = q.retime + q.rutime + q.stime + 1 := by ac_rfl
  have hst : q.retime + q.rutime + (q.stime + 1) = q.retime + q.rutime + q.stime + 1 := by ac_rfl
  by_cases hs : q.state = .sleeping
  · simp only [Proc.total, Proc.account, h, hs, ne_eq, not_false_eq_true, true_and, not_true,
      and_false, if_true, if_false, hst, Int32.toUInt32_add]
    rfl
  · simp only [Proc.total, Proc.account, h, hs, ne_eq, not_false_eq_true, true_and,
      and_false, if_true, if_false, hre, Int32.toUInt32_add]
    rfl

section

variable {s s' : State ncpu} {a : Action ncpu} {c : Fin ncpu} {i p : Slot} {n : ℕ}

theorem Inv.onCpu_unique (h : Inv s) {c' : Fin ncpu} (hc : (s.cpu c).pc.proc = some i)
    (hc' : (s.cpu c').pc.proc = some i) : c = c' := by
  have hclaim : ∀ d, (s.cpu d).pc.proc = some i → ∃ role, s.claim (.cpu d) = some (i, role) := by
    intro d hd
    obtain hpc | hpc := CpuPc.proc_eq_some.mp hd
    · exact ⟨.run, CpuPc.claim_eq_run.mpr hpc⟩
    · exact ⟨.back, CpuPc.claim_eq_back.mpr hpc⟩
  obtain ⟨role, hrole⟩ := hclaim c hc
  obtain ⟨role', hrole'⟩ := hclaim c' hc'
  exact Agent.cpu.inj (h.claim_unique _ _ _ _ _ hrole hrole')

theorem Inv.onCpu_state (h : Inv s) (hi : s.OnCpu i) :
    (s.proc i).state = .running ∨ ∃ c, (s.cpu c).pc = .back i := by
  obtain ⟨c, hc⟩ := hi
  obtain hpc | hpc := CpuPc.proc_eq_some.mp hc
  · exact Or.inl (running_of_swtch h hpc)
  · exact Or.inr ⟨c, hpc⟩

theorem Inv.not_onCpu_of_unused (h : Inv s) (hi : (s.proc i).state = .unused) : ¬ s.OnCpu i := by
  intro hon
  obtain hr | ⟨c, hc⟩ := h.onCpu_state hon
  · simp [hi] at hr
  · exact h.free_of_unused hi (.cpu c) .back (CpuPc.claim_eq_back.mpr hc)

/-- What a scheduler picks is on no CPU. -/
theorem not_onCpu_of_dispatched (h : Inv s) (hs : step s a = some s')
    (hd : dispatched s a = some (c, i)) : ¬ s.OnCpu i := by
  intro hon
  have hrun := (dispatch_step h hs hd).1
  obtain hr | ⟨c', hc'⟩ := h.onCpu_state hon
  · simp [hrun] at hr
  · obtain ⟨m, rfl, -⟩ := dispatched_eq_some_iff.mp hd
    have hpc : (s.cpu c).pc = .scan m := (step_eq_some_iff.mp hs).1.2
    exact h.not_back_of_locked (lock_of_dispatched h hs hd) (by simp [hpc]) c' i hc'

/-- A process gets on a CPU by a dispatch and off it by the accounting. -/
theorem onCpu_step (hs : step s a = some s') (hd : ∀ c, dispatched s a ≠ some (c, i))
    (ha : ∀ c, a ≠ .account c i) : s'.OnCpu i ↔ s.OnCpu i := by
  refine exists_congr fun c => ?_
  have hst := step_pcStep hs c
  generalize (s'.cpu c).pc = pc at hst
  cases hst with
  | keep => exact Iff.rfl
  | boot hb hb' =>
    have hpc : ∀ {pc : CpuPc}, pc.Booting ∨ pc = .idle → pc.proc = none := by
      rintro pc (h | rfl)
      · cases pc <;> simp [CpuPc.Booting, CpuPc.proc] at h ⊢
      · rfl
    rw [hpc hb', hpc (Or.inl hb)]
  | acquire _ hpc | finish _ hpc => simp [hpc, CpuPc.proc]
  | @dispatch m p ha' hpc hsel =>
    have hp : p ≠ i := by
      rintro rfl
      exact hd c (dispatched_eq_some_iff.mpr ⟨m, ha', hsel⟩)
    simp [hpc, CpuPc.proc, hp]
  | leave hpc => simp [hpc, CpuPc.proc]
  | @account p ha' hpc =>
    have hp : p ≠ i := by
      rintro rfl
      exact ha c ha'
    simp [hpc, CpuPc.proc, hp]

/-- Apart from dispatches and accounting only `allocproc` writes the counters of
a slot in use. -/
theorem times_step (h : Inv s) (hs : step s a = some s') (hd : ∀ c, dispatched s a ≠ some (c, i))
    (ha : ∀ c p, a ≠ .account c p) (hi : (s'.proc i).state ≠ .unused) :
    ((s.proc i).state = .unused ∧ (s'.proc i).total = 0 ∧ (s'.proc i).ctime = 0) ∨
    ((s.proc i).state ≠ .unused ∧ (s'.proc i).total = (s.proc i).total ∧
      (s'.proc i).ctime = (s.proc i).ctime) := by
  have heff := step_effect h hs i
  generalize s'.proc i = x at heff hi
  cases heff with
  | keep | changePrio => exact Or.inr ⟨hi, rfl, rfl⟩
  | alloc hu => exact Or.inl ⟨firstUnused_eq_some hu, rfl, rfl⟩
  | fill he | publish he | leave _ he | own he | fault _ he =>
    exact Or.inr ⟨by simp [he], rfl, rfl⟩
  | drop => exact absurd rfl hi
  | dispatch c _ hdc => exact absurd hdc (hd c)
  | account c p ha' => exact absurd ha' (ha c p)
  | wake state hst =>
    refine Or.inr ⟨?_, rfl, rfl⟩
    obtain rfl | ⟨hsl, -⟩ := hst
    · exact hi
    · simp [hsl]
  | kill => exact Or.inr ⟨fun hu => hi (by simp [Proc.kill, hu]), rfl, rfl⟩
  | reap _ k => cases k <;> exact absurd rfl hi

/-- Between its dispatch and the accounting a process is one ahead. -/
def TimeInv (s : State ncpu) : Prop :=
  ∀ i, (s.proc i).state ≠ .unused →
    (s.OnCpu i → (s.proc i).total = (s.proc i).ctime + 1) ∧
    (¬ s.OnCpu i → (s.proc i).total = (s.proc i).ctime)

theorem TimeInv.step (hI : Inv s) (hP : PidInv n s) (h : TimeInv s)
    (hs : Xv6.step s a = some s') : TimeInv s' := by
  intro i hi
  by_cases hd : ∃ c, dispatched s a = some (c, i)
  · -- `rutime` moves, and `i` gets on the CPU
    obtain ⟨c, hd⟩ := hd
    have hoff := not_onCpu_of_dispatched hI hs hd
    obtain ⟨hrun, -, rfl⟩ := dispatch_step hI hs hd
    have htot : (s.proc i).total = (s.proc i).ctime := (h i (by simp [hrun])).2 hoff
    have hon : ((s.modify i Proc.dispatch).setCpu c ⟨some i, .swtch i⟩).OnCpu i :=
      ⟨c, by simp [CpuPc.proc]⟩
    have hproc : ((s.modify i Proc.dispatch).setCpu c ⟨some i, .swtch i⟩).proc i =
        (s.proc i).dispatch := by simp
    refine ⟨fun _ => ?_, fun hoff => absurd hon hoff⟩
    rw [hproc, Proc.total_dispatch, htot]
    rfl
  have hd' : ∀ c, dispatched s a ≠ some (c, i) := fun c hc => hd ⟨c, hc⟩
  by_cases ha : ∃ c p, a = .account c p
  · obtain ⟨c, p, rfl⟩ := ha
    obtain ⟨⟨-, he⟩, rfl⟩ := step_eq_some_iff.mp hs
    have hpc : (s.cpu c).pc = .back p := he
    have hu : (s.proc i).state ≠ .unused := hi
    have hproc : (apply s (.account c p)).proc i = (s.proc i).account (s.proc p).pid := rfl
    have hct : ((s.proc i).account (s.proc p).pid).ctime = (s.proc i).ctime + 1 := rfl
    by_cases hip : i = p
    · -- only `ctime` moves, and `i` gets off the CPU
      subst hip
      have hon : (s.cpu c).pc.proc = some i := by simp [hpc, CpuPc.proc]
      have hoff : ¬ (apply s (.account c i)).OnCpu i := by
        rintro ⟨c', hc'⟩
        by_cases hcc : c' = c
        · simp [hcc, apply, State.account, CpuPc.proc] at hc'
        · have hc'' : (s.cpu c').pc.proc = some i := by
            simpa [apply, State.account, hcc] using hc'
          exact hcc (hI.onCpu_unique hc'' hon)
      refine ⟨fun hon' => absurd hon' hoff, fun _ => ?_⟩
      rw [hproc, Proc.total_account_self, hct]
      exact (h i hu).1 ⟨c, hon⟩
    · -- both sides move
      have hpid : (s.proc i).pid ≠ (s.proc p).pid := fun heq =>
        hip (hP.unique i p (hP.used i hu) heq)
      rw [onCpu_step hs hd' (by simpa using fun hp => hip hp.symm), hproc,
        Proc.total_account_of_ne hpid, hct]
      refine ⟨fun hon => ?_, fun hoff => ?_⟩
      · rw [(h i hu).1 hon]
      · rw [(h i hu).2 hoff]
  · have ha' : ∀ c p, a ≠ .account c p := fun c p hc => ha ⟨c, p, hc⟩
    rw [onCpu_step hs hd' (fun c => ha' c i)]
    obtain ⟨hu, htot, hct⟩ | ⟨hu, htot, hct⟩ := times_step hI hs hd' ha' hi
    · refine ⟨fun hon => absurd hon (hI.not_onCpu_of_unused hu), fun _ => ?_⟩
      rw [htot, hct]
    · rw [htot, hct]
      exact h i hu

end

theorem Reachable.timeInv {bsp : Fin ncpu} {n : ℕ} {s : State ncpu} (hr : Reachable bsp n s)
    (hn : n < 2 ^ 31) : TimeInv s := by
  induction hr with
  | boot => exact fun i hi => absurd rfl hi
  | step hr hs ih =>
    have hn' := Nat.lt_of_le_of_lt (Nat.le_add_right _ _) hn
    exact (ih hn').step hr.inv (hr.pidInv hn') hs

/-- Accounting conserves time: with `ptable.lock` free, a slot in use has been
charged one tick per round, and one more while it runs. -/
theorem accounting_conserves_time {bsp : Fin ncpu} {n : ℕ} {s : State ncpu}
    (hr : Reachable bsp n s) (hn : n < 2 ^ 31) (hl : s.lock = none) (i : Slot)
    (hi : (s.proc i).state ≠ .unused) :
    ((s.proc i).retime + (s.proc i).rutime + (s.proc i).stime).toUInt32 =
      (s.proc i).ctime + if (s.proc i).state = .running then 1 else 0 := by
  obtain ⟨hon, hoff⟩ := hr.timeInv hn i hi
  have hI := hr.inv
  by_cases hrun : (s.proc i).state = .running
  · obtain ⟨c, hc⟩ := hI.running i hrun
    rw [if_pos hrun]
    exact hon ⟨c, by rw [hc, CpuPc.proc]⟩
  · have hno : ¬ s.OnCpu i := by
      rintro ⟨c, hc⟩
      rw [← hI.cpu_proc c, hI.cpu_proc_eq_some hl] at hc
      exact hrun (running_of_swtch hI hc)
    rw [if_neg hrun, UInt32.add_zero]
    exact hoff hno

theorem accounting_conserves_time_twoProcs :
    let q := (State.after cpu0 (bootActions ++ forkActions 0 .fork 1 ++ yieldActions 0 1)).proc 1
    q.state = .running ∧ (q.retime + q.rutime + q.stime).toUInt32 = q.ctime + 1 := by
  intro q
  obtain ⟨n, hr, hn⟩ : ∃ n, Reachable cpu0 n
      (State.after cpu0 (bootActions ++ forkActions 0 .fork 1 ++ yieldActions 0 1)) ∧ n ≤ 15 :=
    Reachable.after (by decide +kernel)
  have hrun : q.state = .running := by decide +kernel
  refine ⟨hrun, ?_⟩
  rw [accounting_conserves_time hr (lt_of_le_of_lt hn (by decide)) (by decide +kernel) 1
    (by decide +kernel), if_pos hrun]

/-- The fields of an exited process that its parent can ask for. -/
structure Proc.Stats where
  retime : Int32
  rutime : Int32
  stime : Int32
  priority : Int32
  deriving DecidableEq, Repr

def Proc.stats (q : Proc) : Proc.Stats := ⟨q.retime, q.rutime, q.stime, q.priority⟩

theorem Proc.stored_congr {q q' : Proc} (h : q.stats = q'.stats) (k : WaitKind) :
    q.stored k = q'.stored k := by
  obtain ⟨hre, hru, hst, hpr⟩ := Proc.Stats.mk.inj h
  cases k with
  | wait => rfl
  | wait2 => rw [Proc.stored, Proc.stored, hre, hru, hst]
  | wait3 => rw [Proc.stored, Proc.stored, hpr]

/-- The accounting loop changes the statistics of every zombie but the one that
has just come back, and promotes that one too if it is due. -/
theorem Proc.stats_account_iff {q : Proc} (hq : q.state = .zombie) {pid : Int32} :
    (q.account pid).stats = q.stats ↔ q.pid = pid ∧ ¬ q.Due1 ∧ ¬ q.Due2 := by
  rw [← @account_priority_eq_iff q pid]
  simp only [Proc.stats, Proc.Stats.mk.injEq]
  constructor
  · rintro ⟨hre, -, -, hpr⟩
    refine ⟨?_, hpr⟩
    by_contra hne
    simp [Proc.account, hne, hq] at hre
  · rintro ⟨hpid, hpr⟩
    refine ⟨?_, rfl, ?_, hpr⟩ <;> simp [Proc.account, hpid]

/-- The steps that leave the statistics of the zombie `z` alone. -/
def Undisturbed (s : State ncpu) (z : Slot) : Action ncpu → Prop
  | .account _ p => (s.proc z).pid = (s.proc p).pid ∧ ¬ (s.proc z).Due1 ∧ ¬ (s.proc z).Due2
  | .call _ p (.changePrio priority) =>
    Legal priority → findPid s.proc (s.proc p).pid = some z → priority = (s.proc z).priority
  | _ => True

section

variable {s s' : State ncpu} {a : Action ncpu} {i z : Slot}

theorem stats_step (h : Inv s) (hs : step s a = some s') (hi : (s.proc i).state.Live)
    (hi' : (s'.proc i).state.Live) (hd : ∀ c, dispatched s a ≠ some (c, i))
    (ha : ∀ c p, a ≠ .account c p) (hc : ∀ c p priority, a ≠ .call c p (.changePrio priority)) :
    (s'.proc i).stats = (s.proc i).stats := by
  have heff := step_effect h hs i
  generalize s'.proc i = x at heff hi'
  cases heff with
  | keep | fill | leave | wake | own | fault | kill => rfl
  | alloc hu => exact absurd (firstUnused_eq_some hu) hi.1
  | drop he | publish he => exact absurd he hi.2
  | dispatch c _ hdc => exact absurd hdc (hd c)
  | account c p ha' => exact absurd ha' (ha c p)
  | changePrio c p priority ha' => exact absurd ha' (hc c p priority)
  | reap _ k => cases k <;> exact absurd rfl hi'.1

theorem sysChangePrio_stats_iff (t : Ptable) (p z : Slot) (priority : Int32) :
    ((sysChangePrio t p priority).1 z).stats = (t z).stats ↔
      (Legal priority → findPid t (t p).pid = some z → priority = (t z).priority) := by
  unfold sysChangePrio changePrio
  by_cases hl : Legal priority
  · have hn : ¬ (priority ≠ 1 ∧ priority ≠ 2 ∧ priority ≠ 3) := by
      rcases hl with h | h | h <;> simp [h]
    rw [if_neg hn]
    cases hf : findPid t (t p).pid with
    | none => simp
    | some q =>
      by_cases hq : z = q
      · subst hq
        simp [Proc.stats, hl]
      · have hq' : q ≠ z := fun h => hq h.symm
        simp [Ptable.modify_of_ne _ _ hq, hq']
  · have hn : priority ≠ 1 ∧ priority ≠ 2 ∧ priority ≠ 3 :=
      ⟨fun h => hl (Or.inl h), fun h => hl (Or.inr (Or.inl h)), fun h => hl (Or.inr (Or.inr h))⟩
    rw [if_pos hn]
    simp [hl]

theorem stats_step_iff (h : Inv s) (hs : step s a = some s') (hz : (s.proc z).state = .zombie)
    (hz' : (s'.proc z).state = .zombie) :
    (s'.proc z).stats = (s.proc z).stats ↔ Undisturbed s z a := by
  have hlive : (s.proc z).state.Live := by simp [hz, ProcState.Live]
  have hlive' : (s'.proc z).state.Live := by simp [hz', ProcState.Live]
  have hd : ∀ c, dispatched s a ≠ some (c, z) := by
    intro c hd
    have := (dispatch_step h hs hd).1
    simp [hz] at this
  have hrest : (∀ c p, a ≠ .account c p) → (∀ c p priority, a ≠ .call c p (.changePrio priority)) →
      (s'.proc z).stats = (s.proc z).stats := stats_step h hs hlive hlive' hd
  cases a with
  | account c p =>
    obtain ⟨-, rfl⟩ := step_eq_some_iff.mp hs
    exact Proc.stats_account_iff hz
  | call c p x =>
    cases x with
    | changePrio priority =>
      obtain ⟨-, rfl⟩ := step_eq_some_iff.mp hs
      exact sysChangePrio_stats_iff s.proc p z priority
    | _ => exact iff_of_true (hrest (by simp) (by simp)) trivial
  | _ => exact iff_of_true (hrest (by simp) (by simp)) trivial

end

/-- Up to position `j` of a run the statistics of `z`, and what a call of the
`wait` family would store, are those of its beginning. -/
def StatsFrozen (r : Run (@step ncpu)) (z : Slot) (j : ℕ) : Prop :=
  ∀ k ≤ j, ((r.state k).proc z).stats = ((r.state 0).proc z).stats ∧
    ∀ w, ((r.state k).proc z).stored w = ((r.state 0).proc z).stored w

/-- From the exit of `z` on, its statistics stay what they were exactly as long
as no step disturbs them. -/
theorem zombie_stats_frozen_iff {bsp : Fin ncpu} {n : ℕ} (r : Run (@step ncpu))
    (h0 : Reachable bsp n (r.state 0)) {c : Fin ncpu} {z : Slot} {j : ℕ}
    (hexit : r.action 0 = .call c z .exit) (hj : 0 < j) (hjr : j ≤ r.length)
    (hz : ∀ k, 0 < k → k ≤ j → ((r.state k).proc z).state = .zombie) :
    StatsFrozen r z j ↔ ∀ k, 0 < k → k < j → Undisturbed (r.state k) z (r.action k) := by
  have hinv : ∀ k ≤ r.length, Inv (r.state k) := fun k => h0.inv.along r
  have hstep : ∀ k, 0 < k → k < j → (((r.state (k + 1)).proc z).stats =
      ((r.state k).proc z).stats ↔ Undisturbed (r.state k) z (r.action k)) := fun k hk hkj =>
    stats_step_iff (hinv k (by omega)) (r.next k (by omega)) (hz k hk hkj.le)
      (hz (k + 1) (by omega) hkj)
  constructor
  · intro h k hk hkj
    rw [← hstep k hk hkj, (h k hkj.le).1, (h (k + 1) hkj).1]
  · intro h k hkj
    -- the exit itself keeps the statistics, and so does every later step
    have hone : ((r.state 1).proc z).stats = ((r.state 0).proc z).stats := by
      have hs := r.next 0 (by omega)
      have hpc : ((r.state 0).cpu c).pc = .swtch z := by
        have he := (step_eq_some_iff.mp hs).1.2
        rw [hexit] at he
        exact he.1
      refine stats_step h0.inv hs ?_ ?_ ?_ ?_ ?_
      · simp [running_of_swtch h0.inv hpc, ProcState.Live]
      · simp [hz 1 one_pos hj, ProcState.Live]
      · simp [hexit, dispatched]
      · simp [hexit]
      · simp [hexit]
    have hk' : ((r.state k).proc z).stats = ((r.state 0).proc z).stats := by
      refine r.induct_between
        (P := fun k => ((r.state k).proc z).stats = ((r.state 0).proc z).stats)
        (Nat.zero_le k) (by omega) rfl ?_
      intro m _ hmk _ ih
      obtain rfl | hm := Nat.eq_zero_or_pos m
      · exact hone
      · rw [(hstep m hm (by omega)).mpr (h m hm (by omega)), ih]
    exact ⟨hk', Proc.stored_congr hk'⟩

/-- The child in slot 1 exits; the parent then yields once before it calls
`wait2`. -/
def zombieRun : Run (@step 1) :=
  Run.ofActions (State.after cpu0 (bootActions ++ forkActions 0 .fork 1 ++ yieldActions 0 1))
    [.call cpu0 1 .exit, .account cpu0 1, .select cpu0 2, .acquire cpu0,
    .select cpu0 0, .resume cpu0 0,
      .call cpu0 0 .yield, .account cpu0 0, .select cpu0 1, .acquire cpu0,
      .select cpu0 0, .resume cpu0 0,
      .call cpu0 0 (.wait .wait2)]
    (by decide +kernel)

theorem zombieRun_reachable : ∃ n, Reachable cpu0 n (zombieRun.state 0) := by
  obtain ⟨n, hr, -⟩ : ∃ n, Reachable cpu0 n
      (State.after cpu0 (bootActions ++ forkActions 0 .fork 1 ++ yieldActions 0 1)) ∧ n ≤ 15 :=
    Reachable.after (by decide +kernel)
  exact ⟨n, by rwa [zombieRun, Run.ofActions_state_zero]⟩

/-- Nothing changes up to the accounting loop after the parent's turn. -/
theorem zombieRun_frozen_before_account : StatsFrozen zombieRun 1 7 := by
  obtain ⟨n, hr⟩ := zombieRun_reachable
  have hz : ∀ k ≤ 7, 0 < k → ((zombieRun.state k).proc 1).state = .zombie := by decide +kernel
  refine (zombie_stats_frozen_iff zombieRun hr rfl (by decide) (by decide)
    fun k hk hk7 => hz k hk7 hk).mpr ?_
  intro k hk hk7
  obtain rfl | rfl | rfl | rfl | rfl | rfl : k = 1 ∨ k = 2 ∨ k = 3 ∨ k = 4 ∨ k = 5 ∨ k = 6 := by
    omega
  · change _ ∧ _ ∧ _
    decide +kernel
  all_goals exact True.intro

/-- The turn of the parent is charged to the zombie's `retime`, and `wait2`
reports it. -/
theorem zombieRun_not_frozen :
    (∃ n, Reachable cpu0 n (zombieRun.state 0)) ∧ zombieRun.action 0 = .call cpu0 1 .exit ∧
    (∀ k ≤ 12, 0 < k → ((zombieRun.state k).proc 1).state = .zombie) ∧
    ((zombieRun.state 0).proc 1).stored .wait2 = .times 1 1 0 ∧
    ((zombieRun.state 12).proc 1).stored .wait2 = .times 2 1 0 ∧
    ¬ StatsFrozen zombieRun 1 12 := by
  have h0 : ((zombieRun.state 0).proc 1).stored .wait2 = .times 1 1 0 := by decide +kernel
  have h12 : ((zombieRun.state 12).proc 1).stored .wait2 = .times 2 1 0 := by decide +kernel
  refine ⟨zombieRun_reachable, rfl, by decide +kernel, h0, h12, fun hf => ?_⟩
  have := (hf 12 le_rfl).2 .wait2
  rw [h0, h12] at this
  exact absurd this (by decide)

end Xv6
