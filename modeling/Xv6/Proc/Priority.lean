import Xv6.Proc.Pid

/-!
# Priorities

Seven places of the kernel write `priority`, and slots are recycled with the
values that `wait2` and `wait3` leave. Between its creation and its collection a
process nevertheless keeps a legal priority, which only it can lower.
-/

namespace Xv6

variable {ncpu : ℕ}

/-- The priorities that `sys_change_prio` accepts. -/
def Legal (priority : Int32) : Prop := priority = 1 ∨ priority = 2 ∨ priority = 3

instance (p : Int32) : Decidable (Legal p) :=
  inferInstanceAs (Decidable (_ ∨ _ ∨ _))

/-- `pid % 3 + 1` is legal for the pids of a counter that has not overflowed. -/
theorem legal_forkPriority {k : ℕ} (hk : k < 2 ^ 31) (kind : ForkKind) :
    Legal (kind.priority (Int32.ofNat k)) := by
  cases kind with
  | fork => exact Or.inr (Or.inl rfl)
  | setPrio =>
    have hmod : (Int32.ofNat k % 3).toInt = (k : ℤ) % 3 := by
      rw [Int32.toInt_mod, Int32.toInt_ofNat_of_lt hk]
      rfl
    have hcases : Int32.ofNat k % 3 = 0 ∨ Int32.ofNat k % 3 = 1 ∨ Int32.ofNat k % 3 = 2 := by
      simp only [← Int32.toInt_inj, hmod]
      change (k : ℤ) % 3 = 0 ∨ (k : ℤ) % 3 = 1 ∨ (k : ℤ) % 3 = 2
      omega
    change Legal (Int32.ofNat k % 3 + 1)
    rcases hcases with h | h | h <;> rw [h] <;> decide

theorem legal_account {q : Proc} (h : Legal q.priority) (pid : Int32) :
    Legal (q.account pid).priority := by
  simp only [Proc.account]
  split
  · exact Or.inr (Or.inr rfl)
  · split
    · exact Or.inr (Or.inl rfl)
    · exact h

theorem priority_le_account (q : Proc) (pid : Int32) : q.priority ≤ (q.account pid).priority := by
  simp only [Proc.account]
  split
  · next h =>
    rw [h.1]
    decide
  · split
    · next h =>
      rw [h.1]
      decide
    · exact Int32.le_refl _

/-- The aging test raises exactly the processes that are due. -/
theorem account_priority_eq_iff {q : Proc} {pid : Int32} :
    (q.account pid).priority = q.priority ↔ ¬ q.Due1 ∧ ¬ q.Due2 := by
  simp only [Proc.account]
  constructor
  · intro h
    refine ⟨fun h1 => ?_, fun h2 => ?_⟩
    · have h2 : ¬ q.Due2 := fun h2 => absurd (h1.1.symm.trans h2.1) (by decide)
      rw [if_neg h2, if_pos h1, h1.1] at h
      exact absurd h (by decide)
    · rw [if_pos h2, h2.1] at h
      exact absurd h (by decide)
  · rintro ⟨h1, h2⟩
    rw [if_neg h2, if_neg h1]

section

variable {s s' : State ncpu} {a : Action ncpu} {n : ℕ} {i : Slot}

theorem legal_step (h : Inv s) (hp : PidInv n s) (hn : n < 2 ^ 31)
    (hl : ∀ i, (s.proc i).state ≠ .unused → Legal (s.proc i).priority)
    (hs : step s a = some s') (hi : (s'.proc i).state ≠ .unused) :
    Legal (s'.proc i).priority := by
  have heff := step_effect h hs i
  generalize s'.proc i = x at heff hi
  cases heff with
  | keep => exact hl i hi
  | alloc => exact Or.inr (Or.inl rfl)
  | drop => exact absurd rfl hi
  | publish he priority hpr =>
    have hne : (s.proc i).state ≠ .unused := by simp [he]
    obtain rfl | ⟨kind, rfl⟩ := hpr
    · exact hl i hne
    · obtain ⟨k, -, hk, hpid⟩ := hp.range i (hp.used i hne)
      rw [hpid]
      exact legal_forkPriority (by omega) kind
  | fill he | dispatch _ he | leave _ he | own he | fault _ he => exact hl i (by simp [he])
  | account => exact legal_account (hl i hi) _
  | wake state hst =>
    obtain rfl | ⟨hsl, -⟩ := hst
    · exact hl i hi
    · exact hl i (by simp [hsl])
  | kill =>
    refine hl i fun hu => hi ?_
    simp [Proc.kill, hu]
  | changePrio _ _ priority _ _ hpr => exact hpr
  | reap _ k => cases k <;> exact absurd rfl hi

/-- Another process cannot lower the priority of a live one: `change_prio` finds
its own caller, and the aging test only raises. -/
theorem priority_le_step (h : Inv s) (hp : PidInv n s) (hs : step s a = some s')
    (hi : (s.proc i).state.Live) (hi' : (s'.proc i).state.Live)
    (ha : ∀ c priority, a ≠ .call c i (.changePrio priority)) :
    (s.proc i).priority ≤ (s'.proc i).priority := by
  have heff := step_effect h hs i
  generalize s'.proc i = x at heff hi'
  cases heff with
  | keep | dispatch | leave | wake | own | fault | kill | fill => exact Int32.le_refl _
  | alloc hu => exact absurd (firstUnused_eq_some hu) hi.1
  | drop he | publish he => exact absurd he hi.2
  | account => exact priority_le_account _ _
  | changePrio c p priority ha' hpc _ hf =>
    have hpid : (s.proc p).pid ≠ 0 := hp.used p (by simp [running_of_swtch h hpc])
    obtain rfl : p = i := hp.unique p i hpid (findPid_eq_some hf).symm
    exact absurd ha' (ha c priority)
  | reap _ k => cases k <;> exact absurd rfl hi'.1

end

theorem Reachable.legal {bsp : Fin ncpu} {n : ℕ} {s : State ncpu} (hr : Reachable bsp n s)
    (hn : n < 2 ^ 31) (i : Slot) (hi : (s.proc i).state ≠ .unused) :
    Legal (s.proc i).priority := by
  induction hr generalizing i with
  | boot => exact absurd rfl hi
  | step hr hs ih =>
    have hn' := Nat.lt_of_le_of_lt (Nat.le_add_right _ _) hn
    exact legal_step hr.inv (hr.pidInv hn') hn' (ih hn') hs hi

/-- In a run below `2 ^ 31` pids, priorities in use are legal, and the priority
of a live process does not decrease without a call of `sys_change_prio` by it. -/
theorem priorities_legal_and_owned {bsp : Fin ncpu} (r : Run (@step ncpu))
    (hr : ∀ k ≤ r.length, ∃ n < 2 ^ 31, Reachable bsp n (r.state k)) :
    (∀ k ≤ r.length, ∀ i, ((r.state k).proc i).state ≠ .unused →
      Legal ((r.state k).proc i).priority) ∧
    (∀ i j p, i ≤ j → j ≤ r.length →
      (∀ k, i ≤ k → k ≤ j → ((r.state k).proc p).state.Live) →
      (∀ k, i ≤ k → k < j → ∀ c priority, r.action k ≠ .call c p (.changePrio priority)) →
      ((r.state i).proc p).priority ≤ ((r.state j).proc p).priority) := by
  constructor
  · intro k hk i hi
    obtain ⟨n, hn, hrk⟩ := hr k hk
    exact hrk.legal hn i hi
  · intro i j p hij hj hlive hcall
    refine r.induct_between
      (P := fun k => ((r.state i).proc p).priority ≤ ((r.state k).proc p).priority)
      hij hj (Int32.le_refl _) ?_
    intro k hik hkj hs hle
    obtain ⟨n, hn, hrk⟩ := hr k (by omega)
    exact Int32.le_trans hle (priority_le_step hrk.inv (hrk.pidInv hn) hs
      (hlive k hik hkj.le) (hlive (k + 1) (by omega) hkj) (hcall k hik hkj))

/-- The first process lowers its own priority to 1. -/
def lowerRun : Run (@step 1) :=
  Run.ofActions (State.boot cpu0)
  (bootActions ++ [.call cpu0 0 (.changePrio 1)]) (by decide +kernel)

theorem priorities_legal_and_owned_lowerRun :
    Legal ((lowerRun.state 8).proc 0).priority ∧
      ((lowerRun.state 4).proc 0).priority ≤ ((lowerRun.state 7).proc 0).priority ∧
      ((lowerRun.state 8).proc 0).priority < ((lowerRun.state 7).proc 0).priority := by
  have hr : ∀ k ≤ lowerRun.length, ∃ n < 2 ^ 31, Reachable cpu0 n (lowerRun.state k) := by
    intro k hk
    obtain ⟨m, hm, hle⟩ := Reachable.along lowerRun Reachable.boot hk
    have hlen : lowerRun.length = 8 := rfl
    exact ⟨m, by omega, hm⟩
  obtain ⟨hlegal, howned⟩ := priorities_legal_and_owned lowerRun hr
  have hlive : ∀ k ≤ 7, 4 ≤ k → ((lowerRun.state k).proc 0).state.Live := by decide +kernel
  have hcall : ∀ k, 4 ≤ k → k < 7 → ∀ c priority,
      lowerRun.action k ≠ .call c 0 (.changePrio priority) := by
    intro k h4 h7 c priority
    obtain rfl | rfl | rfl : k = 4 ∨ k = 5 ∨ k = 6 := by omega
    all_goals exact nofun
  refine ⟨hlegal 8 (by decide) 0 (by decide +kernel), ?_, by decide +kernel⟩
  exact howned 4 7 0 (by decide) (by decide) (fun k h4 h7 => hlive k h7 h4) hcall

end Xv6
