import Xv6.Proc.Original

/-!
# The length of a pass

A pass of `scheduler_original` looks at every slot once, so it dispatches at most
`NPROC` times. In `scheduler` the inner loop may move the loop variable back, and a
pass goes on for as long as it does.
-/

namespace Xv6

def Event.isDispatch : Event → Bool
  | .dispatch _ => true
  | _ => false

/-- How many processes have been dispatched. -/
def dispatchCount (h : List Event) : ℕ := h.countP Event.isDispatch

/-- No `RUNNABLE` slot before index `i` has a higher priority than the first one from `i` on, unless
one from `i` on has a still higher one. -/
def HighestAhead (t : Ptable) (i : ℕ) : Prop :=
  ∀ p, firstRunnable t i = some p → ∀ q : Slot, q.val < i → (t q).state = .runnable →
    (t q).priority ≤ (t p).priority ∨
      ∃ q' : Slot, i ≤ q'.val ∧ (t q').state = .runnable ∧ (t q).priority < (t q').priority

instance (t : Ptable) (i : ℕ) : Decidable (HighestAhead t i) :=
  inferInstanceAs (Decidable (∀ p, firstRunnable t i = some p → ∀ q : Slot, q.val < i →
    (t q).state = .runnable → (t q).priority ≤ (t p).priority ∨
      ∃ q' : Slot, i ≤ q'.val ∧ (t q').state = .runnable ∧ (t q).priority < (t q').priority))

/-- The inner loop ends where it starts, or at a higher priority. -/
theorem highestPriority_eq_or_lt (t : Ptable) (p : Slot) :
    highestPriority t p = p ∨ (t p).priority < (t (highestPriority t p)).priority :=
  TableScan.champion_eq_or_lt _ (fun q => (t q).priority) _ p

variable {t : Ptable}

/-- The chosen slot is not behind the loop. -/
theorem HighestAhead.le_select {i : ℕ} {c : Slot} (h : HighestAhead t i)
    (hc : select t i = some c) : i ≤ c.val := by
  obtain ⟨hrun, hmax⟩ := select_spec hc
  obtain ⟨p, hp, rfl⟩ := Option.map_eq_some_iff.mp hc
  rcases highestPriority_eq_or_lt t p with heq | hlt
  · rw [heq]
    exact (firstRunnable_eq_some_iff.mp hp).1.1
  · by_contra hbehind
    rcases h p hp _ (not_le.mp hbehind) hrun with hle | ⟨q', -, hq', hlt'⟩
    · exact absurd hlt (Int32.not_lt.mpr hle)
    · exact absurd hlt' (Int32.not_lt.mpr (hmax q' hq'))

section

variable (S : Scheduler) (b : Behaviour) {x : Config}

theorem Scheduler.run_succ (t : Ptable) (n : ℕ) :
    S.run b t (n + 1) = S.pass b (S.run b t n) := by
  rw [Scheduler.run, Function.iterate_succ_apply']
  rfl

/-- What a selection does: nothing after a panic, the end of the pass, a panic, or a dispatch. -/
theorem Scheduler.pass_cases (x : Config) :
    x.halted = true ∧ S.pass b x = x ∨
    x.halted = false ∧ (S.pass b x).trace = .passEnd :: x.trace ∨
    x.halted = false ∧ (S.pass b x).next = x.next ∧ (S.pass b x).trace = .panic :: x.trace ∨
    x.halted = false ∧ ∃ c, S.choose x.table x.next = some c ∧ S.pass b x =
      ⟨S.back (b (.dispatch c :: x.trace) (x.table.modify c S.switch)) c, c.val + 1,
        .dispatch c :: x.trace, false⟩ := by
  cases hh : x.halted with
  | true => exact Or.inl ⟨rfl, by rw [Scheduler.pass, if_pos hh]⟩
  | false =>
    rw [Scheduler.pass, if_neg (by simp [hh])]
    cases hc : S.choose x.table x.next with
    | none => exact Or.inr (Or.inl ⟨rfl, rfl⟩)
    | some c =>
      by_cases hm : (x.table c).kstack = 0 ∨ (x.table c).pgdir = 0
      · exact Or.inr (Or.inr (Or.inl ⟨rfl, by simp [hm]⟩))
      · exact Or.inr (Or.inr (Or.inr ⟨rfl, c, rfl, by simp [hm]⟩))

/-- What was done stays in the trace. -/
theorem Scheduler.suffix_pass (x : Config) : x.trace <:+ (S.pass b x).trace := by
  rcases S.pass_cases b x with ⟨-, h⟩ | ⟨-, h⟩ | ⟨-, -, h⟩ | ⟨-, c, -, h⟩
  · rw [h]
  · rw [h]
    exact List.suffix_cons _ _
  · rw [h]
    exact List.suffix_cons _ _
  · rw [h]
    exact List.suffix_cons _ _

/-- A choice that is not behind the loop keeps the number of dispatches below its index. -/
theorem Scheduler.dispatchCount_pass (hx : dispatchCount x.trace ≤ x.next) (hn : x.next ≤ NPROC)
    (hahead : ∀ c, S.choose x.table x.next = some c → x.next ≤ c.val)
    (hend : .passEnd ∉ (S.pass b x).trace) :
    dispatchCount (S.pass b x).trace ≤ (S.pass b x).next ∧ (S.pass b x).next ≤ NPROC := by
  rcases S.pass_cases b x with ⟨-, h⟩ | ⟨-, h⟩ | ⟨-, hnext, h⟩ | ⟨-, c, hc, h⟩
  · rw [h]
    exact ⟨hx, hn⟩
  · rw [h] at hend
    exact absurd List.mem_cons_self hend
  · rw [h, hnext]
    exact ⟨hx, hn⟩
  · have hle := hahead c hc
    rw [h]
    simp only [dispatchCount, List.countP_cons, Event.isDispatch, if_true] at hx ⊢
    exact ⟨by omega, by omega⟩

/-- A scheduler that only goes forward dispatches at most `NPROC` processes in a pass. -/
theorem Scheduler.dispatchCount_le (t : Ptable) (n : ℕ)
    (hahead : ∀ m < n, ∀ c, S.choose (S.run b t m).table (S.run b t m).next = some c →
      (S.run b t m).next ≤ c.val)
    (hend : .passEnd ∉ (S.run b t n).trace) :
    dispatchCount (S.run b t n).trace ≤ (S.run b t n).next ∧ (S.run b t n).next ≤ NPROC := by
  induction n with
  | zero => exact ⟨le_rfl, Nat.zero_le _⟩
  | succ n ih =>
    rw [S.run_succ] at hend ⊢
    have hprev := ih (fun m hm => hahead m (by omega))
      fun h => hend ((S.suffix_pass b (S.run b t n)).subset h)
    exact S.dispatchCount_pass b hprev.1 hprev.2 (hahead n (by omega)) hend

/-- Until the pass ends or `switchuvm` panics, every selection dispatches. -/
theorem Scheduler.dispatchCount_eq (t : Ptable) (n : ℕ)
    (hend : .passEnd ∉ (S.run b t n).trace) (hpanic : .panic ∉ (S.run b t n).trace) :
    dispatchCount (S.run b t n).trace = n ∧ (S.run b t n).halted = false := by
  induction n with
  | zero => exact ⟨rfl, rfl⟩
  | succ n ih =>
    rw [S.run_succ] at hend hpanic ⊢
    have hsub := (S.suffix_pass b (S.run b t n)).subset
    obtain ⟨hd, hh⟩ := ih (fun h => hend (hsub h)) fun h => hpanic (hsub h)
    rcases S.pass_cases b (S.run b t n) with ⟨h, -⟩ | ⟨-, h⟩ | ⟨-, -, h⟩ | ⟨-, c, -, h⟩
    · rw [hh] at h
      exact absurd h (by simp)
    · rw [h] at hend
      exact absurd List.mem_cons_self hend
    · rw [h] at hpanic
      exact absurd List.mem_cons_self hpanic
    · rw [h]
      simp only [dispatchCount, List.countP_cons, Event.isDispatch, if_true] at hd ⊢
      exact ⟨by omega, trivial⟩

/-- A pass that goes forward is over after at most `NPROC` dispatches: a selection after that ends
it or panics. -/
theorem Scheduler.pass_over (t : Ptable)
    (hahead : ∀ m ≤ NPROC, ∀ c, S.choose (S.run b t m).table (S.run b t m).next = some c →
      (S.run b t m).next ≤ c.val) :
    .passEnd ∈ (S.run b t (NPROC + 1)).trace ∨ .panic ∈ (S.run b t (NPROC + 1)).trace := by
  by_contra h
  push Not at h
  have hle := S.dispatchCount_le b t (NPROC + 1) (fun m hm => hahead m (by omega)) h.1
  have heq := (S.dispatchCount_eq b t (NPROC + 1) h.1 h.2).1
  omega

end

theorem firstRunnable_ge {i : ℕ} {p : Slot} (h : firstRunnable t i = some p) : i ≤ p.val :=
  (firstRunnable_eq_some_iff.mp h).1.1

/-- A pass of `scheduler_original` dispatches at most `NPROC` times and ends, and so does a pass of
`scheduler` as long as the highest priority is ahead at every selection. -/
theorem pass_bounded (b : Behaviour) (t : Ptable) :
    ((∀ n, .passEnd ∉ (schedulerOriginal.run b t n).trace →
        dispatchCount (schedulerOriginal.run b t n).trace ≤ NPROC) ∧
      (.passEnd ∈ (schedulerOriginal.run b t (NPROC + 1)).trace ∨
        .panic ∈ (schedulerOriginal.run b t (NPROC + 1)).trace)) ∧
    ∀ n, (∀ m < n, HighestAhead (scheduler.run b t m).table (scheduler.run b t m).next) →
      (.passEnd ∉ (scheduler.run b t n).trace → dispatchCount (scheduler.run b t n).trace ≤ NPROC) ∧
        (n = NPROC + 1 → .passEnd ∈ (scheduler.run b t n).trace ∨
          .panic ∈ (scheduler.run b t n).trace) := by
  have horig : ∀ m, ∀ c, schedulerOriginal.choose (schedulerOriginal.run b t m).table
      (schedulerOriginal.run b t m).next = some c → (schedulerOriginal.run b t m).next ≤ c.val :=
    fun m c hc => firstRunnable_ge hc
  refine ⟨⟨fun n hend => ?_, schedulerOriginal.pass_over b t fun m _ => horig m⟩,
    fun n hahead => ⟨?_, ?_⟩⟩
  · have := schedulerOriginal.dispatchCount_le b t n (fun m _ => horig m) hend
    omega
  · intro hend
    have := scheduler.dispatchCount_le b t n (fun m hm c hc => (hahead m hm).le_select hc) hend
    omega
  · rintro rfl
    exact scheduler.pass_over b t fun m hm c hc => (hahead m (by omega)).le_select hc

/-- In a pass over two processes of one priority, each is dispatched once. -/
theorem pass_bounded_pairTable :
    dispatchCount (scheduler.run yielding pairTable 2).trace = 2 ∧
      dispatchCount (scheduler.run yielding pairTable 2).trace ≤ NPROC :=
  ⟨by decide +kernel,
    ((pass_bounded yielding pairTable).2 2 (by decide +kernel)).1 (by decide +kernel)⟩

/-! ### A pass that does not end -/

/-- Slot 0 is `RUNNABLE` with priority 3 and slot 1 with priority 2. -/
def unevenTable : Ptable := fun i =>
  if i = 0 then { Proc.zero with state := .runnable, priority := 3, kstack := 4096, pgdir := 8192 }
  else if i = 1 then
    { Proc.zero with state := .runnable, priority := 2, kstack := 4096, pgdir := 8192 }
  else Proc.zero

/-- A dispatched process comes back `RUNNABLE`. -/
theorem yielding_runnable (p : Slot) (h : List Event) (t : Ptable) :
    (yielding (.dispatch p :: h) t p).state = .runnable := by
  rw [yielding, Ptable.modify_self]

/-- What of the uneven table stays as it is in every pass. -/
structure Uneven (t : Ptable) : Prop where
  high : (t 0).state = .runnable ∧ (t 0).priority = 3 ∧ (t 0).kstack ≠ 0 ∧ (t 0).pgdir ≠ 0
  low : (t 1).state = .runnable ∧ (t 1).priority = 2 ∧ (t 1).queue_time = 0
  rest : ∀ i : Slot, 1 < i.val → (t i).state = .unused

/-- The inner loop always goes back to slot 0. -/
theorem Uneven.select (h : Uneven t) {i : ℕ} (hi : i ≤ 1) : Xv6.select t i = some 0 := by
  obtain ⟨p, hp, -⟩ := firstRunnable_le (q := (1 : Slot)) hi h.low.1
  have hsel : Xv6.select t i = some (highestPriority t p) := by rw [Xv6.select, hp]; rfl
  obtain ⟨hrun, hmax⟩ := select_spec hsel
  have h3 := hmax 0 h.high.1
  rw [h.high.2.1] at h3
  rw [hsel, Option.some.injEq]
  generalize highestPriority t p = c at hrun h3
  by_contra hc
  by_cases h1 : c = 1
  · rw [h1, h.low.2.1] at h3
    exact absurd h3 (by decide)
  · have hgt : 1 < c.val := by
      have h0 : c.val ≠ 0 := fun e => hc (Fin.ext e)
      have h1 : c.val ≠ 1 := fun e => h1 (Fin.ext e)
      omega
    rw [h.rest c hgt] at hrun
    exact absurd hrun (by decide)

theorem Uneven.pass {x : Config} (h : Uneven x.table) (hn : x.next ≤ 1) (hh : x.halted = false) :
    Uneven (scheduler.pass yielding x).table ∧ (scheduler.pass yielding x).next = 1 ∧
      (scheduler.pass yielding x).halted = false ∧
      (scheduler.pass yielding x).trace = .dispatch 0 :: x.trace := by
  have hsel : scheduler.choose x.table x.next = some 0 := h.select hn
  rw [Scheduler.pass, if_neg (by simp [hh]), hsel]
  simp only
  rw [if_neg (by simp [h.high])]
  refine ⟨?_, rfl, rfl, rfl⟩
  set t := yielding (.dispatch 0 :: x.trace) (x.table.modify 0 Proc.dispatch) with ht
  have hother : ∀ i : Slot, i ≠ 0 → t i = x.table i := fun i hi => by
    rw [ht, yielding, Ptable.modify_of_ne _ _ hi, Ptable.modify_of_ne _ _ hi]
  have hself : t 0 = { (x.table 0).dispatch with state := .runnable } := by
    rw [ht, yielding, Ptable.modify_self, Ptable.modify_self]
  change Uneven fun i => (t i).account (t 0).pid
  constructor
  · have h2 : ¬ (t 0).Due2 := fun hd => absurd hd.1 (by rw [hself]; simp [Proc.dispatch, h.high])
    have h1 : ¬ (t 0).Due1 := fun hd => absurd hd.1 (by rw [hself]; simp [Proc.dispatch, h.high])
    simp only [Proc.account, h2, h1, if_false]
    rw [hself]
    exact ⟨rfl, h.high.2⟩
  · have h2 : ¬ (t 1).Due2 :=
      fun hd => absurd hd.2 (by rw [hother 1 (by decide), h.low.2.2]; decide)
    have h1 : ¬ (t 1).Due1 :=
      fun hd => absurd hd.1 (by rw [hother 1 (by decide), h.low.2.1]; decide)
    simp only [Proc.account, h2, h1, if_false]
    rw [hother 1 (by decide)]
    exact h.low
  · intro i hi
    have hi0 : i ≠ 0 := fun e => by
      rw [e] at hi
      exact absurd hi (by decide)
    change (t i).state = .unused
    rw [hother i hi0]
    exact h.rest i hi

/-- The pass goes on with slot 0 for ever. -/
theorem uneven_run (n : ℕ) :
    Uneven (scheduler.run yielding unevenTable n).table ∧
      (scheduler.run yielding unevenTable n).next ≤ 1 ∧
      (scheduler.run yielding unevenTable n).halted = false ∧
      (scheduler.run yielding unevenTable n).trace = List.replicate n (.dispatch 0) := by
  induction n with
  | zero =>
    refine ⟨⟨by decide, by decide, fun i hi => ?_⟩, Nat.zero_le _, rfl, rfl⟩
    have h0 : i ≠ 0 := by
      rintro rfl
      exact absurd hi (by decide)
    have h1 : i ≠ 1 := by
      rintro rfl
      exact absurd hi (by decide)
    change (unevenTable i).state = .unused
    rw [unevenTable, if_neg h0, if_neg h1]
    rfl
  | succ n ih =>
    obtain ⟨hu, hn, hh, htr⟩ := ih
    obtain ⟨hu', hn', hh', htr'⟩ := hu.pass hn hh
    rw [Scheduler.run_succ]
    exact ⟨hu', hn'.le, hh', by rw [htr', htr]; rfl⟩

/-- Every dispatched process comes back `RUNNABLE`, and one pass dispatches more than any number of
times. -/
theorem pass_endless : (∀ p h t, (yielding (.dispatch p :: h) t p).state = .runnable) ∧
    ∀ n, .passEnd ∉ (scheduler.run yielding unevenTable n).trace ∧
      dispatchCount (scheduler.run yielding unevenTable n).trace = n := by
  refine ⟨yielding_runnable, fun n => ?_⟩
  rw [(uneven_run n).2.2.2]
  exact ⟨by simp [List.mem_replicate],
    by simp [dispatchCount, List.countP_replicate, Event.isDispatch]⟩

end Xv6
