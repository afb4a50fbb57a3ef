import Xv6.Proc.Dispatch

/-!
# Overtaking inside a priority level

The outer loop of `scheduler` goes round the table, so by itself it would run
the `RUNNABLE` processes in turn. The inner loop starts again from slot 0 and
may move the loop variable, and then the turn of a process can be lost.
-/

namespace Xv6

variable {ncpu : ℕ}

/-- Between two dispatches of `P` by CPU `c`, every other process `Q` that is
`RUNNABLE` with at least the priority of `P` until it is dispatched has been
dispatched. -/
def NoOvertaking (r : Run (@step ncpu)) (c : Fin ncpu) : Prop :=
  ∀ i j P Q, i < j → j < r.length → Q ≠ P →
    dispatched (r.state i) (r.action i) = some (c, P) →
    dispatched (r.state j) (r.action j) = some (c, P) →
    (∀ k, i < k → k < j → dispatched (r.state k) (r.action k) ≠ some (c, P)) →
    (∀ k, i < k → k ≤ j →
      (∀ m, i < m → m < k → ∀ c', dispatched (r.state m) (r.action m) ≠ some (c', Q)) →
      ((r.state k).proc Q).state = .runnable ∧
        ((r.state k).proc P).priority ≤ ((r.state k).proc Q).priority) →
    ∃ k, i < k ∧ k < j ∧ ∃ c', dispatched (r.state k) (r.action k) = some (c', Q)

/-- The inner loop has nothing to replace the slot that the outer loop finds
from index `i`. -/
def FirstHighest (t : Ptable) (i : ℕ) : Prop :=
  ∀ p, firstRunnable t i = some p → ∀ q, (t q).state = .runnable → (t q).priority ≤ (t p).priority

instance (t : Ptable) (i : ℕ) : Decidable (FirstHighest t i) :=
  inferInstanceAs (Decidable (∀ p, firstRunnable t i = some p →
    ∀ q, (t q).state = .runnable → (t q).priority ≤ (t p).priority))

theorem FirstHighest.select_eq {t : Ptable} {i : ℕ} (h : FirstHighest t i) :
    select t i = firstRunnable t i := by
  unfold select
  cases hf : firstRunnable t i with
  | none => rfl
  | some p => rw [Option.map_some, highestPriority_eq_self (h p hf)]

/-- The scheduler has left slot `x` and, going round the table, has not come to
slot `y` yet. -/
def CpuPc.Before (x y : Slot) : CpuPc → Prop
  | .swtch z | .back z => x ≤ z ∧ z < y ∨ y < x ∧ (x ≤ z ∨ z < y)
  | .scan m => x.val < m ∧ m ≤ y.val ∨ y < x ∧ (x.val < m ∨ m ≤ y.val)
  | .idle => y < x
  | _ => False

theorem CpuPc.before_swtch {x y : Slot} (h : y ≠ x) : (CpuPc.swtch x).Before x y := by
  obtain hlt | hgt := lt_or_gt_of_ne h
  · exact Or.inr ⟨hlt, Or.inl le_rfl⟩
  · exact Or.inl ⟨le_rfl, hgt⟩

section

variable {s s' : State ncpu} {a : Action ncpu} {c : Fin ncpu} {x y z : Slot}

/-- While `y` is `RUNNABLE`, the next slot found lies between `x` and `y`. -/
theorem CpuPc.Before.first {t : Ptable} {m : ℕ} (h : (CpuPc.scan m).Before x y)
    (hy : (t y).state = .runnable) (hz : firstRunnable t m = some z) (hzy : z ≠ y) :
    (x < z ∧ z < y) ∨ (y < x ∧ (x < z ∨ z < y)) := by
  obtain ⟨⟨hmz, -⟩, hmin⟩ := firstRunnable_eq_some_iff.mp hz
  have hzy' : z.val ≠ y.val := fun h => hzy (Fin.ext h)
  have hle : m ≤ y.val → z.val ≤ y.val := by
    intro hmy
    by_contra hlt
    exact hmin y hmy (Fin.lt_def.mpr (Nat.lt_of_not_le hlt)) hy
  simp only [CpuPc.Before, Fin.lt_def] at h ⊢
  omega

/-- A step that does not dispatch `y` keeps the scheduler of `c` before it. -/
theorem CpuPc.Before.of_step (h : (s.cpu c).pc.Before x y) (hs : Xv6.step s a = some s')
    (hy : (s.proc y).state = .runnable) (hfirst : ∀ m, a = .select c m → FirstHighest s.proc m)
    (hd : dispatched s a ≠ some (c, y)) : (s'.cpu c).pc.Before x y := by
  have hst := step_pcStep hs c
  generalize (s'.cpu c).pc = pc at hst
  cases hst with
  | keep => exact h
  | boot hb =>
    cases hpc : (s.cpu c).pc <;> simp [hpc, CpuPc.Booting, CpuPc.Before] at hb h
  | acquire _ hpc =>
    rw [hpc] at h
    exact Or.inr ⟨h, Or.inr (Nat.zero_le _)⟩
  | finish _ hpc hsel =>
    rw [hpc] at h
    -- the scan has passed `y`, or it would have found it
    have hm := select_eq_none_iff.mp hsel
    have hmy : ¬ _ ≤ y.val := fun hle => firstRunnable_eq_none_iff.mp hm y hle hy
    obtain ⟨-, hle⟩ | ⟨hlt, -⟩ := h
    · exact absurd hle hmy
    · exact hlt
  | @dispatch m z ha hpc hsel =>
    rw [hpc] at h
    have hzy : z ≠ y := by
      rintro rfl
      exact hd (dispatched_eq_some_iff.mpr ⟨m, ha, hsel⟩)
    rw [(hfirst m ha).select_eq] at hsel
    obtain ⟨hxz, hlt⟩ | ⟨hyx, hor⟩ := h.first hy hsel hzy
    · exact Or.inl ⟨hxz.le, hlt⟩
    · exact Or.inr ⟨hyx, hor.imp_left le_of_lt⟩
  | leave hpc =>
    rw [hpc] at h
    exact h
  | account _ hpc =>
    rw [hpc] at h
    simp only [CpuPc.Before, Fin.lt_def, Fin.le_def] at h ⊢
    omega

/-- `switchuvm` panics, or the dispatched process is switched to. -/
theorem pc_of_dispatched (hs : step s a = some s') (hd : dispatched s a = some (c, x))
    (hp : s'.panic = none) : (s'.cpu c).pc = .swtch x := by
  obtain ⟨i, rfl, hsel⟩ := dispatched_eq_some_iff.mp hd
  obtain ⟨-, rfl⟩ := step_eq_some_iff.mp hs
  simp only [apply, State.select, hsel, State.dispatch] at hp ⊢
  split at hp
  · simp at hp
  · split at hp
    · simp at hp
    · next hk hg => simp [hk, hg]

end

/-- A scheduler whose inner loop never replaces the process found by the outer
loop lets nobody overtake, whatever the table it starts from and whatever the
processes and the other CPUs do. -/
theorem noOvertaking_of_first_highest (r : Run (@step ncpu)) (c : Fin ncpu)
    (hfirst : ∀ k < r.length, ∀ m, r.action k = .select c m → FirstHighest (r.state k).proc m) :
    NoOvertaking r c := by
  intro i j P Q hij hj hne hi hj' _ hQ
  by_contra hno
  have hnd : ∀ m, i < m → m < j → ∀ c', dispatched (r.state m) (r.action m) ≠ some (c', Q) :=
    fun m hm hmj c' hd => hno ⟨m, hm, hmj, c', hd⟩
  have hrun : ∀ k, i < k → k ≤ j → ((r.state k).proc Q).state = .runnable := fun k hk hkj =>
    (hQ k hk hkj fun m hm hmk => hnd m hm (by omega)).1
  have hbefore : ((r.state j).cpu c).pc.Before P Q := by
    refine r.induct_between (P := fun k => ((r.state k).cpu c).pc.Before P Q)
      (Nat.succ_le_of_lt hij) hj.le ?_ ?_
    · have hpanic := (step_eq_some_iff.mp (r.next (i + 1) (by omega))).1.1
      rw [pc_of_dispatched (r.next i (by omega)) hi hpanic]
      exact CpuPc.before_swtch hne
    · intro k hk hkj hs hB
      exact hB.of_step hs (hrun k hk hkj.le) (hfirst k (by omega)) (hnd k hk hkj c)
  -- the second dispatch of `P` would have to come after `Q`
  obtain ⟨m, ha, hsel⟩ := dispatched_eq_some_iff.mp hj'
  have hpc : ((r.state j).cpu c).pc = .scan m := by
    have he := (step_eq_some_iff.mp (r.next j hj)).1.2
    rwa [ha] at he
  rw [hpc] at hbefore
  rw [(hfirst j hj m ha).select_eq] at hsel
  obtain ⟨hlt, -⟩ | ⟨hlt, hor⟩ := hbefore.first (hrun j hij le_rfl) hsel hne.symm
  · exact lt_irrefl _ hlt
  · exact hor.elim (lt_irrefl _) (lt_asymm hlt)

/-- `FirstHighest` at a selection, as a check. -/
def firstHighestAt (s : State ncpu) : Action ncpu → Bool
  | .select _ m => decide (FirstHighest s.proc m)
  | _ => true

/-- Two processes of priority 2 take turns. -/
def turnsActions : List (Action 1) :=
  bootActions ++ forkActions 0 .fork 1 ++ yieldActions 0 1 ++
    [.call cpu0 1 .yield, .account cpu0 1, .select cpu0 2, .acquire cpu0,
    .select cpu0 0, .resume cpu0 0]

def turnsRun : Run (@step 1) :=
  Run.ofActions (State.boot cpu0) turnsActions (by decide +kernel)

theorem noOvertaking_turnsRun : NoOvertaking turnsRun cpu0 := by
  apply noOvertaking_of_first_highest
  intro k hk m ha
  have hcheck : Run.always step firstHighestAt (State.boot cpu0) turnsActions = true := by
    decide +kernel
  have h : firstHighestAt (turnsRun.state k) (turnsRun.action k) = true :=
    Run.always_ofActions hcheck (by decide +kernel) hk
  rw [ha] at h
  exact of_decide_eq_true h

/-- Slots 0, 1 and 3 at priority 2, slot 2 at priority 1. From slot 2 the inner
loop goes back to slot 0, so slots 0 and 1 are run in turn and slot 3 is not. -/
def overtakingActions : List (Action 1) :=
  bootActions ++ forkActions 0 .fork 1 ++ forkActions 0 .setPrio 2 ++ forkActions 0 .fork 3 ++
    yieldActions 0 1 ++ yieldActions 1 0 ++ yieldActions 0 1

def overtakingRun : Run (@step 1) :=
  Run.ofActions (State.boot cpu0) overtakingActions (by decide +kernel)

theorem overtakingRun_overtakes : ¬ NoOvertaking overtakingRun cpu0 := by
  intro h
  have hwait : ∀ k ≤ 29, 21 < k → ((overtakingRun.state k).proc 3).state = .runnable ∧
      ((overtakingRun.state k).proc 1).priority ≤ ((overtakingRun.state k).proc 3).priority := by
    decide +kernel
  have hnot : ∀ k < 29, 21 < k → ∀ p : Slot,
      dispatched (overtakingRun.state k) (overtakingRun.action k) = some (cpu0, p) → p = 0 := by
    decide +kernel
  obtain ⟨k, hk, hk', c', hd⟩ := h 21 29 1 3 (by decide) (by decide) (by decide)
    (by decide +kernel) (by decide +kernel)
    (fun k hk hk' hd => absurd (hnot k hk' hk 1 hd) (by decide))
    (fun k hk hk' _ => hwait k hk' hk)
  obtain rfl := Subsingleton.elim c' cpu0
  exact absurd (hnot k hk' hk 3 hd) (by decide)

end Xv6
