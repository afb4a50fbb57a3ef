import Xv6.Lib.Run
import Xv6.Proc.Effect

/-!
# Dispatches and passes

What the selection of `scheduler` guarantees in a kernel where every CPU runs
its own scheduler and the processes change the table between two selections.
-/

namespace Xv6

variable {ncpu : ℕ} {bsp : Fin ncpu}

section

variable {s s' : State ncpu} {a : Action ncpu} {c : Fin ncpu} {p q : Slot}

theorem dispatched_eq_some_iff :
    dispatched s a = some (c, p) ↔ ∃ i, a = .select c i ∧ select s.proc i = some p := by
  cases a with
  | select c' i =>
    simp only [dispatched, Option.map_eq_some_iff, Prod.mk.injEq, Action.select.injEq]
    constructor
    · rintro ⟨p', hp, rfl, rfl⟩
      exact ⟨i, ⟨rfl, rfl⟩, hp⟩
    · rintro ⟨j, ⟨rfl, rfl⟩, hp⟩
      exact ⟨p, hp, rfl, rfl⟩
  | _ => simp [dispatched]

/-- Selection needs the lock. -/
theorem lock_of_dispatched (h : Inv s) (hs : step s a = some s')
    (hd : dispatched s a = some (c, p)) : s.lock = some c := by
  obtain ⟨i, rfl, -⟩ := dispatched_eq_some_iff.mp hd
  obtain ⟨⟨-, he⟩, -⟩ := step_eq_some_iff.mp hs
  exact h.holds c (by simp [show (s.cpu c).pc = _ from he, CpuPc.Holds])

theorem dispatch_step (h : Inv s) (hs : step s a = some s')
    (hd : dispatched s a = some (c, p)) :
    (s.proc p).state = .runnable ∧
      (∀ q, (s.proc q).state = .runnable → (s.proc q).priority ≤ (s.proc p).priority) ∧
      s' = (s.modify p Proc.dispatch).setCpu c ⟨some p, .swtch p⟩ := by
  obtain ⟨i, rfl, hsel⟩ := dispatched_eq_some_iff.mp hd
  obtain ⟨-, rfl⟩ := step_eq_some_iff.mp hs
  obtain ⟨hp, hmax⟩ := select_spec hsel
  refine ⟨hp, hmax, ?_⟩
  simp only [apply, State.select, hsel]
  exact h.dispatch_eq hp

/-- A `RUNNABLE` process stays `RUNNABLE` until it is dispatched. -/
theorem runnable_step (h : Inv s) (hs : step s a = some s') (hq : (s.proc q).state = .runnable)
    (hd : ∀ c, dispatched s a ≠ some (c, q)) : (s'.proc q).state = .runnable := by
  have heff := step_effect h hs q
  generalize s'.proc q = x at heff
  cases heff with
  | keep | account | changePrio => exact hq
  | alloc hu => simp [firstUnused_eq_some hu] at hq
  | fill hi | drop hi | publish hi | leave _ hi | own hi | fault _ hi | reap hi =>
    simp [hq] at hi
  | dispatch c _ hdc => exact absurd hdc (hd c)
  | wake state hst =>
    obtain rfl | ⟨hst, -⟩ := hst
    · exact hq
    · simp [hq] at hst
  | kill => simp [Proc.kill, hq]

/-- Until it selects again, a scheduler that scans stays where it is. -/
theorem scan_step {i : ℕ} (hs : step s a = some s') (hpc : (s.cpu c).pc = .scan i)
    (ha : a ≠ .select c i) : (s'.cpu c).pc = .scan i := by
  have hst := step_pcStep hs c
  generalize (s'.cpu c).pc = pc at hst
  cases hst with
  | keep => exact hpc
  | boot h => simp [hpc, CpuPc.Booting] at h
  | acquire _ h | leave h | account _ h => simp [hpc] at h
  | finish ha' h | dispatch ha' h =>
    rw [hpc, CpuPc.scan.injEq] at h
    exact absurd (h ▸ ha') ha

end

/-- A run of `l` takes at most one pid per action. -/
theorem Reachable.of_execute {n : ℕ} {s s' : State ncpu} {l : List (Action ncpu)}
    (hr : Reachable bsp n s) (hl : Run.execute Xv6.step s l = some s') :
    ∃ m, Reachable bsp m s' ∧ m ≤ n + l.length := by
  induction l generalizing n s with
  | nil =>
    obtain rfl : s = s' := by simpa [Run.execute] using hl
    exact ⟨n, hr, Nat.le_refl n⟩
  | cons a l ih =>
    obtain ⟨t, ht, htl⟩ := Option.bind_eq_some_iff.mp hl
    obtain ⟨m, hm, hle⟩ := ih (hr.step ht) htl
    have := Bool.toNat_le (allocates s a)
    exact ⟨m, hm, by simp only [List.length_cons]; omega⟩

theorem Inv.along (r : Run (@Xv6.step ncpu)) (h : Inv (r.state 0)) {k : ℕ} (hk : k ≤ r.length) :
    Inv (r.state k) :=
  r.invariant h (fun _ _ _ hI hs => hI.step hs) hk

theorem Reachable.along {n : ℕ} (r : Run (@Xv6.step ncpu)) (h0 : Reachable bsp n (r.state 0))
    {k : ℕ} (hk : k ≤ r.length) : ∃ m, Reachable bsp m (r.state k) ∧ m ≤ n + k := by
  refine r.induct_between (P := fun k => ∃ m, Reachable bsp m (r.state k) ∧ m ≤ n + k)
    (Nat.zero_le k) hk ⟨n, h0, le_rfl⟩ ?_
  rintro k - - hs ⟨m, hm, hle⟩
  have := Bool.toNat_le (allocates (r.state k) (r.action k))
  exact ⟨_, hm.step hs, by omega⟩

/-- The state after the actions `l` from boot. -/
def State.after (bsp : Fin ncpu) (l : List (Action ncpu)) : State ncpu :=
  (Run.execute step (State.boot bsp) l).getD (State.boot bsp)

theorem Reachable.after {l : List (Action ncpu)}
    (hl : (Run.execute Xv6.step (State.boot bsp) l).isSome) :
    ∃ m, Reachable bsp m (State.after bsp l) ∧ m ≤ l.length := by
  obtain ⟨s, hs⟩ := Option.isSome_iff_exists.mp hl
  obtain ⟨m, hm, hle⟩ := Reachable.boot.of_execute hs
  exact ⟨m, by rwa [State.after, hs], by omega⟩

/-- The CPU of a uniprocessor. -/
abbrev cpu0 : Fin 1 := 0

/-- One CPU boots: it creates the first process in slot 0 and runs it. -/
def bootActions : List (Action 1) :=
  [.userinit cpu0, .userinitKalloc cpu0 0 4096,
  .userinitSetupkvm cpu0 0 8192, .userinitReady cpu0 0,
    .acquire cpu0, .select cpu0 0, .resume cpu0 0]

/-- The process `p` makes a child in slot `np`. -/
def forkActions (p : Slot) (k : ForkKind) (np : Slot) : List (Action 1) :=
  [.call cpu0 p (.fork k), .call cpu0 p (.kalloc k np 4096), .call cpu0 p (.copyuvm k np 8192),
    .call cpu0 p (.ready k np)]

/-- The process `p` yields, the scheduler goes on at the next slot and runs `q`. -/
def yieldActions (p q : Slot) : List (Action 1) :=
  [.call cpu0 p .yield, .account cpu0 p, .select cpu0 (p.val + 1), .resume cpu0 q]

/-- CPU `c` is at the beginning of a pass with a process to run. -/
def PassBegun (s : State ncpu) (c : Fin ncpu) : Prop :=
  (s.cpu c).pc = .scan 0 ∧ ∃ q, (s.proc q).state = .runnable

section

variable {s s' : State ncpu} {a : Action ncpu} {c : Fin ncpu}

theorem PassBegun.of_acquire (hs : step s (.acquire c) = some s')
    (hq : ∃ q, (s.proc q).state = .runnable) : PassBegun s' c := by
  obtain ⟨-, rfl⟩ := step_eq_some_iff.mp hs
  exact ⟨by simp [apply, State.acquire], hq⟩

theorem PassBegun.selects (h : PassBegun s c) :
    ∃ p, dispatched s (.select c 0) = some (c, p) := by
  obtain ⟨-, q, hq⟩ := h
  obtain ⟨f, hf, -⟩ := firstRunnable_le (Nat.zero_le _) hq
  exact ⟨highestPriority s.proc f, by simp [dispatched, select, hf]⟩

/-- Nothing but the first dispatch ends the beginning of a pass: the other CPUs
cannot take the lock, and what runs without it leaves `RUNNABLE` slots alone. -/
theorem PassBegun.of_step (hI : Inv s) (h : PassBegun s c) (hs : step s a = some s')
    (hd : ∀ p, dispatched s a ≠ some (c, p)) : PassBegun s' c := by
  obtain ⟨p, hp⟩ := h.selects
  obtain ⟨hpc, q, hq⟩ := h
  have ha : a ≠ .select c 0 := by
    rintro rfl
    exact hd p hp
  have hlock : s.lock = some c := hI.holds c (by simp [hpc, CpuPc.Holds])
  refine ⟨scan_step hs hpc ha, q, runnable_step hI hs hq fun c' hd' => ?_⟩
  have hc := lock_of_dispatched hI hs hd'
  rw [hlock, Option.some.injEq] at hc
  subst hc
  exact hd q hd'

end

/-- Priority order: a process that is dispatched was `RUNNABLE` with no
`RUNNABLE` process of larger priority, and is then run. A pass that begins with a
`RUNNABLE` process in the table holds `ptable.lock` up to its first dispatch, and
its next step is one. -/
theorem scheduler_priority_order {bsp : Fin ncpu} {n : ℕ} (r : Run (@step ncpu))
    (h0 : Reachable bsp n (r.state 0)) :
    (∀ k < r.length, ∀ c p, dispatched (r.state k) (r.action k) = some (c, p) →
      ((r.state k).proc p).state = .runnable ∧
      (∀ q, ((r.state k).proc q).state = .runnable →
        ((r.state k).proc q).priority ≤ ((r.state k).proc p).priority) ∧
      ((r.state (k + 1)).proc p).state = .running ∧
      (r.state (k + 1)).cpu c = ⟨some p, .swtch p⟩) ∧
    (∀ k < r.length, ∀ c, r.action k = .acquire c →
      (∃ q, ((r.state k).proc q).state = .runnable) →
      ∀ j, k < j → j ≤ r.length →
        (∀ m, k < m → m < j → ∀ p, dispatched (r.state m) (r.action m) ≠ some (c, p)) →
        (r.state j).lock = some c ∧
        ((r.state j).panic = none →
          ∃ p s', step (r.state j) (.select c 0) = some s' ∧
            dispatched (r.state j) (.select c 0) = some (c, p))) := by
  have hinv : ∀ k ≤ r.length, Inv (r.state k) := fun k => h0.inv.along r
  constructor
  · intro k hk c p hd
    obtain ⟨hp, hmax, hs'⟩ := dispatch_step (hinv k hk.le) (r.next k hk) hd
    exact ⟨hp, hmax, by simp [hs', Proc.dispatch], by simp [hs']⟩
  · intro k hk c ha hq j hkj hj hnd
    have hpass : PassBegun (r.state j) c := by
      refine r.induct_between (P := fun m => PassBegun (r.state m) c) hkj hj ?_ ?_
      · exact PassBegun.of_acquire (ha ▸ r.next k hk) hq
      · intro m hm hmj hs hP
        exact hP.of_step (hinv m (by omega)) hs (hnd m hm hmj)
    refine ⟨(hinv j hj).holds c (by simp [hpass.1, CpuPc.Holds]), fun hpanic => ?_⟩
    obtain ⟨p, hp⟩ := hpass.selects
    exact ⟨p, _, step_eq_some_iff.mpr ⟨⟨hpanic, hpass.1⟩, rfl⟩, hp⟩

/-- Slot 0 goes to priority 3, makes a child in slot 1 and yields. -/
def hogActions : List (Action 1) :=
  bootActions ++ [.call cpu0 0 (.changePrio 3)] ++ forkActions 0 .fork 1 ++
    [.call cpu0 0 .yield, .account cpu0 0]

/-- Both slots can run, and the scan is at slot 1. -/
def twoRun : Run (@step 1) := Run.ofActions (State.boot cpu0)
  (hogActions ++ [.select cpu0 1, .resume cpu0 0]) (by decide +kernel)

/-- Slot 0 is chosen, which has the higher priority. -/
theorem scheduler_priority_order_twoRun :
    ((twoRun.state 14).proc 1).state = .runnable ∧ ((twoRun.state 14).proc 0).state = .runnable ∧
      ((twoRun.state 14).proc 1).priority < ((twoRun.state 14).proc 0).priority ∧
      (twoRun.state 5).lock = some cpu0 ∧ ((twoRun.state 15).proc 0).state = .running := by
  obtain ⟨hdisp, hpass⟩ := scheduler_priority_order twoRun Reachable.boot
  obtain ⟨hp, -, hrun, -⟩ := hdisp 14 (by decide) 0 0 (by decide +kernel)
  obtain ⟨hlock, -⟩ := hpass 4 (by decide) 0 rfl ⟨0, by decide +kernel⟩ 5 (by decide) (by decide)
    (fun m h4 h5 => by omega)
  exact ⟨by decide +kernel, hp, by decide +kernel, hlock, hrun⟩

end Xv6
