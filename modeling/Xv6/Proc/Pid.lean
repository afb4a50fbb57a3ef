import Xv6.Proc.Dispatch

/-!
# Pids

As long as `nextpid` has not overflowed, a nonzero pid in the table is one that
`allocproc` gave out, and no two slots carry the same one. That includes the
pids that failed calls of `fork` leave behind in `UNUSED` slots. The search of
`change_prio` for its own caller then finds the caller.
-/

namespace Xv6

variable {ncpu : ℕ}

/-- `n` pids have been taken, and who carries them. -/
structure PidInv (n : ℕ) (s : State ncpu) : Prop where
  nextpid : s.nextpid = Int32.ofNat (n + 1)
  range : ∀ i, (s.proc i).pid ≠ 0 → ∃ k, 1 ≤ k ∧ k ≤ n ∧ (s.proc i).pid = Int32.ofNat k
  used : ∀ i, (s.proc i).state ≠ .unused → (s.proc i).pid ≠ 0
  unique : ∀ i j, (s.proc i).pid ≠ 0 → (s.proc i).pid = (s.proc j).pid → i = j

theorem ofNat_ne_ofNat {k n : ℕ} (hk : k < n) (hn : n < 2 ^ 31) :
    Int32.ofNat k ≠ Int32.ofNat n := by
  intro h
  have h' := congrArg Int32.toInt h
  rw [Int32.toInt_ofNat_of_lt (by omega), Int32.toInt_ofNat_of_lt hn] at h'
  omega

theorem PidInv.boot (bsp : Fin ncpu) : PidInv 0 (State.boot bsp) where
  nextpid := rfl
  range _ h := absurd rfl h
  used _ h := absurd rfl h
  unique _ _ h := absurd rfl h

section

variable {s s' : State ncpu} {a : Action ncpu} {n : ℕ}

/-- Only `allocproc` gives a slot a pid, and only reaping takes it away. -/
theorem pid_step (h : Inv s) (hs : step s a = some s') (i : Slot) :
    ((s'.proc i).pid = (s.proc i).pid ∧
      ((s'.proc i).state ≠ .unused → (s.proc i).state ≠ .unused)) ∨
    ((s'.proc i).pid = 0 ∧ (s'.proc i).state = .unused) ∨
    ((s'.proc i).pid = s.nextpid ∧ firstUnused s.proc = some i ∧ allocates s a = true) := by
  have heff := step_effect h hs i
  generalize s'.proc i = x at heff
  cases heff with
  | keep | fill | account | own | fault | changePrio => exact Or.inl ⟨rfl, id⟩
  | alloc hu ha => exact Or.inr (Or.inr ⟨rfl, hu, ha⟩)
  | drop => exact Or.inl ⟨rfl, fun h => absurd rfl h⟩
  | publish hi | dispatch _ hi | leave _ hi => exact Or.inl ⟨rfl, fun _ => by simp [hi]⟩
  | wake state hst =>
    refine Or.inl ⟨rfl, fun hne => ?_⟩
    obtain rfl | ⟨hsl, -⟩ := hst
    · exact hne
    · simp [hsl]
  | kill =>
    refine Or.inl ⟨rfl, fun hne => ?_⟩
    simp only [Proc.kill] at hne
    split at hne
    · next hsl => simp [hsl]
    · exact hne
  | reap hi k => cases k <;> exact Or.inr (Or.inl ⟨rfl, rfl⟩)

/-- A pid of the new state is `0`, the slot's old one, or the one just given out. -/
theorem PidInv.step (hI : Inv s) (h : PidInv n s) (hs : Xv6.step s a = some s')
    (hn : n + (allocates s a).toNat < 2 ^ 31) : PidInv (n + (allocates s a).toNat) s' := by
  -- the pid given out is larger than all the others
  have hfresh : allocates s a = true → s.nextpid ≠ 0 ∧ ∀ i, (s.proc i).pid ≠ s.nextpid := by
    intro ha
    rw [ha, Bool.toNat_true] at hn
    rw [h.nextpid]
    refine ⟨(ofNat_ne_ofNat (Nat.succ_pos n) hn).symm, fun i => ?_⟩
    by_cases h0 : (s.proc i).pid = 0
    · rw [h0]
      exact ofNat_ne_ofNat (Nat.succ_pos n) hn
    · obtain ⟨k, -, hk, hpid⟩ := h.range i h0
      rw [hpid]
      exact ofNat_ne_ofNat (Nat.lt_succ_of_le hk) hn
  constructor
  · rw [(step_frame hI hs).nextpid]
    cases ha : allocates s a with
    | false => simpa using h.nextpid
    | true =>
      rw [if_pos rfl, h.nextpid, Bool.toNat_true, Int32.ofNat_add (n + 1) 1]
      rfl
  · intro i hi
    obtain ⟨hpid, -⟩ | ⟨hpid, -⟩ | ⟨hpid, -, ha⟩ := pid_step hI hs i
    · obtain ⟨k, h1, hk, hk'⟩ := h.range i (hpid ▸ hi)
      exact ⟨k, h1, by omega, hpid.trans hk'⟩
    · exact absurd hpid hi
    · exact ⟨n + 1, by omega, by simp [ha], hpid.trans h.nextpid⟩
  · intro i hi
    obtain ⟨hpid, hst⟩ | ⟨-, hst⟩ | ⟨hpid, -, ha⟩ := pid_step hI hs i
    · rw [hpid]
      exact h.used i (hst hi)
    · exact absurd hst hi
    · rw [hpid]
      exact (hfresh ha).1
  · intro i j hi hij
    have hj : (s'.proc j).pid ≠ 0 := hij ▸ hi
    obtain ⟨hpi, -⟩ | ⟨hpi, -⟩ | ⟨hpi, hui, hai⟩ := pid_step hI hs i
    · obtain ⟨hpj, -⟩ | ⟨hpj, -⟩ | ⟨hpj, -, haj⟩ := pid_step hI hs j
      · exact h.unique i j (hpi ▸ hi) (by rw [← hpi, hij, hpj])
      · exact absurd hpj hj
      · exact absurd (by rw [← hpi, hij, hpj]) ((hfresh haj).2 i)
    · exact absurd hpi hi
    · obtain ⟨hpj, -⟩ | ⟨hpj, -⟩ | ⟨-, huj, -⟩ := pid_step hI hs j
      · exact absurd (by rw [← hpj, ← hij, hpi]) ((hfresh hai).2 j)
      · exact absurd hpj hj
      · exact Option.some.inj (hui.symm.trans huj)

end

variable {bsp : Fin ncpu} {n : ℕ} {s : State ncpu}

theorem Reachable.pidInv (hr : Reachable bsp n s) (hn : n < 2 ^ 31) : PidInv n s := by
  induction hr with
  | boot => exact PidInv.boot bsp
  | step hr hs ih => exact (ih (by omega)).step hr.inv hs hn

/-- The panics of `switchuvm` are unreachable. -/
theorem Reachable.no_switchuvm_panic (hr : Reachable bsp n s) :
    s.panic ≠ some .switchuvmNoKstack ∧ s.panic ≠ some .switchuvmNoPgdir := by
  cases hr with
  | boot => simp [State.boot]
  | step hr hs =>
    have hnone := (step_eq_some_iff.mp hs).1.1
    rcases (step_frame hr.inv hs).panic with h | h | h | h <;> simp [h, hnone]

section

variable {c : Fin ncpu} {p : Slot}

theorem Inv.cpu_proc_eq_some (h : Inv s) (hl : s.lock = none) :
    (s.cpu c).proc = some p ↔ (s.cpu c).pc = .swtch p := by
  rw [h.cpu_proc c, CpuPc.proc_eq_some, or_iff_left (h.not_back_of_unlocked hl c p)]

/-- A process runs on one CPU at most. -/
theorem Inv.swtch_unique (h : Inv s) {c' : Fin ncpu} (hc : (s.cpu c).pc = .swtch p)
    (hc' : (s.cpu c').pc = .swtch p) : c = c' := by
  have := h.claim_unique (.cpu c) (.cpu c') p .run .run (CpuPc.claim_eq_run.mpr hc)
    (CpuPc.claim_eq_run.mpr hc')
  exact Agent.cpu.inj this

/-- A running caller of `change_prio` is the only slot with its pid. -/
theorem changePrio_of_running (h : Inv s) (hp : PidInv n s)
    (hpc : (s.cpu c).pc = .swtch p) (priority : Int32) :
    changePrio s.proc p priority =
      (s.proc.modify p fun x => { x with priority := priority }, 0) := by
  have hpid : (s.proc p).pid ≠ 0 := hp.used p (by simp [running_of_swtch h hpc])
  have hf : findPid s.proc (s.proc p).pid = some p :=
    findPid_of_unique fun q hq => (hp.unique p q hpid hq.symm).symm
  simp only [changePrio, hf]

end

/-- The invariant of the process table and the CPUs, below `2 ^ 31` pids. -/
theorem process_table_invariant (hr : Reachable bsp n s) (hn : n < 2 ^ 31) :
    (s.panic ≠ some .switchuvmNoKstack ∧ s.panic ≠ some .switchuvmNoPgdir) ∧
    (s.lock = none →
      (∀ p, (s.proc p).state = .running ↔ ∃! c, (s.cpu c).proc = some p) ∧
      (∀ c c' p, (s.cpu c).proc = some p → (s.cpu c').proc = some p → c = c') ∧
      (∀ p, (s.proc p).state = .runnable ∨ (s.proc p).state = .running ∨
        (s.proc p).state = .sleeping ∨ (s.proc p).state = .zombie →
        (s.proc p).kstack ≠ 0 ∧ (s.proc p).pgdir ≠ 0) ∧
      (∀ p q, (s.proc p).pid ≠ 0 → (s.proc p).pid = (s.proc q).pid → p = q) ∧
      (∀ c p priority, (s.cpu c).proc = some p →
        changePrio s.proc p priority =
          (s.proc.modify p fun x => { x with priority := priority }, 0))) := by
  have hI := hr.inv
  have hP := hr.pidInv hn
  refine ⟨hr.no_switchuvm_panic, fun hl => ⟨?_, ?_, ?_, hP.unique, ?_⟩⟩
  · intro p
    constructor
    · intro hrun
      obtain ⟨c, hc⟩ := hI.running p hrun
      refine ⟨c, (hI.cpu_proc_eq_some hl).mpr hc, fun c' hc' => ?_⟩
      exact hI.swtch_unique ((hI.cpu_proc_eq_some hl).mp hc') hc
    · rintro ⟨c, hc, -⟩
      exact running_of_swtch hI ((hI.cpu_proc_eq_some hl).mp hc)
  · intro c c' p hc hc'
    exact hI.swtch_unique ((hI.cpu_proc_eq_some hl).mp hc) ((hI.cpu_proc_eq_some hl).mp hc')
  · intro p hp
    apply hI.memory p
    rcases hp with hp | hp | hp | hp <;> simp [hp, ProcState.Live]
  · intro c p priority hc
    exact changePrio_of_running hI hP ((hI.cpu_proc_eq_some hl).mp hc) priority

/-- Outside `ptable.lock` too, the slot that a `fork` or `userinit` is filling is `EMBRYO` with what
it has been given so far, and that of a process that runs is `RUNNING`; no two have the same slot,
and nobody has one that is `UNUSED`. -/
theorem slots_owned_once (hr : Reachable bsp n s) {b : Agent ncpu} {p : Slot} {role : Role}
    (hb : s.claim b = some (p, role)) :
    role.Ok (s.proc p) ∧ (s.proc p).state ≠ .unused ∧
      ∀ b' role', s.claim b' = some (p, role') → b' = b :=
  ⟨hr.inv.claim_ok b p role hb, fun h0 => hr.inv.free_of_unused h0 b role hb,
    fun b' role' hb' => hr.inv.claim_unique b' b p role' role hb' hb⟩

/-- A `fork` by slot 0 has found slot 1. -/
def forkState : State 1 := State.after cpu0 (bootActions ++ [.call cpu0 0 (.fork .fork)])

theorem slots_owned_once_forkState : (forkState.proc 1).state = .embryo := by
  obtain ⟨n, hr, -⟩ : ∃ n, Reachable cpu0 n forkState ∧ n ≤ 8 := Reachable.after (by decide +kernel)
  have hb : forkState.claim (.thread 0) = some (1, .fresh) := by decide +kernel
  exact (slots_owned_once hr hb).1

/-- The state after a boot and a failed `fork`, which leaves pid 2 in slot 1. -/
def failedForkState : State 1 :=
  State.after cpu0 (bootActions ++ [.call cpu0 0 (.fork .fork), .call cpu0 0 (.kalloc .fork 1 0)])

theorem process_table_invariant_failedForkState :
    (∃! c, (failedForkState.cpu c).proc = some 0) ∧
      (failedForkState.proc 1).state = .unused ∧ (failedForkState.proc 1).pid = 2 ∧
      (changePrio failedForkState.proc 0 3).2 = 0 := by
  obtain ⟨n, hr, hn⟩ : ∃ n, Reachable cpu0 n failedForkState ∧ n ≤ 9 :=
    Reachable.after (by decide +kernel)
  obtain ⟨-, h⟩ := process_table_invariant hr (lt_of_le_of_lt hn (by decide))
  obtain ⟨hrun, -, -, -, hprio⟩ := h (by decide +kernel)
  refine ⟨(hrun 0).mp (by decide +kernel), by decide +kernel, by decide +kernel, ?_⟩
  rw [hprio 0 0 3 (by decide +kernel)]

end Xv6
