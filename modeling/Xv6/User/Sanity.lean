import Mathlib.Algebra.BigOperators.Group.List.Basic
import Mathlib.Algebra.Order.Ring.Int
import Mathlib.Logic.Function.Basic
import Mathlib.Tactic.Common

/-!
# `sanity`

The part of `sanity.c` behind the forks: it collects what `wait2` gives for its children, adds
the times up by the type of the process, and prints means. The sequence of results is that of
the kernel, whatever became of the forks. The totals are of type `int`: where one of them would
leave its range the program has no meaning, and the model stops.
-/

namespace Xv6.Sanity

open Function

/-- What one call of `wait2` gives. -/
structure Result where
  wpid : ℕ
  retime : ℕ
  rutime : ℕ
  stime : ℕ
  deriving DecidableEq

/-- `CPU_BOUND`, `S_CPU`, `IO_BOUND` -/
inductive Kind
  | cpuBound
  | sCpu
  | ioBound
  deriving DecidableEq

/-- What a mean is taken of. -/
inductive Measure
  | sleeping
  | ready
  | turnaround
  deriving DecidableEq

inductive Fault
  | overflow
  | divide
  deriving DecidableEq

inductive Line
  | process (wpid : ℕ) (k : Kind)
  | times (retime rutime stime : ℕ)
  | title (m : Measure)
  | mean (m : Measure) (k : Kind) (v : ℕ)
  deriving DecidableEq

/-- `wpid % 3` -/
def kind (wpid : ℕ) : Kind :=
  match wpid % 3 with
  | 0 => .cpuBound
  | 1 => .sCpu
  | _ => .ioBound

def INTMAX : ℕ := 2 ^ 31 - 1

/-- A sum of two `int`s that are not negative. -/
def addInt (a b : ℕ) : Except Fault ℕ :=
  if a + b ≤ INTMAX then .ok (a + b) else .error .overflow

/-- The nine totals. -/
abbrev Totals := Kind → Measure → ℕ

/-- A branch of the `switch`, on the three totals of its type. -/
def addTimes (t : Measure → ℕ) (r : Result) : Except Fault (Measure → ℕ) := do
  let stime ← addInt (t .sleeping) r.stime
  let retime ← addInt (t .ready) r.retime
  let sum ← addInt r.retime r.rutime
  let sum ← addInt sum r.stime
  let turnaround ← addInt (t .turnaround) sum
  return fun
    | .sleeping => stime
    | .ready => retime
    | .turnaround => turnaround

/-- The `while` around `wait2`. -/
def collect : List Result → Totals → Except Fault Totals
  | [], t => .ok t
  | r :: rs, t => do
    let times ← addTimes (t (kind r.wpid)) r
    collect rs (update t (kind r.wpid) times)

/-- `total / (3 * n)` -/
def quotient (n x : ℕ) : Except Fault ℕ :=
  if INTMAX < 3 * n then .error .overflow
  else if 3 * n = 0 then .error .divide
  else .ok (x / (3 * n))

/-- What is printed of one measure. -/
def means (n : ℕ) (t : Totals) (m : Measure) : Except Fault (List Line) := do
  let cpu ← quotient n (t .cpuBound m)
  let s ← quotient n (t .sCpu m)
  let io ← quotient n (t .ioBound m)
  return [.title m, .mean m .cpuBound cpu, .mean m .sCpu s, .mean m .ioBound io]

def report (r : Result) : List Line :=
  [.process r.wpid (kind r.wpid), .times r.retime r.rutime r.stime]

/-- `main`, with the results that `wait2` gives until it says that there are no more. -/
def main (n : ℕ) (rs : List Result) : Except Fault (List Line) := do
  let t ← collect rs fun _ _ => 0
  let sleeping ← means n t .sleeping
  let ready ← means n t .ready
  let turnaround ← means n t .turnaround
  return rs.flatMap report ++ sleeping ++ ready ++ turnaround

/-! ### What it should print -/

def Result.time (r : Result) : Measure → ℕ
  | .sleeping => r.stime
  | .ready => r.retime
  | .turnaround => r.retime + r.rutime + r.stime

def count (k : Kind) (rs : List Result) : ℕ := rs.countP (kind ·.wpid = k)

def total (k : Kind) (m : Measure) (rs : List Result) : ℕ :=
  ((rs.filter (kind ·.wpid = k)).map (·.time m)).sum

/-- The program comes to its end and has printed, for each type it has seen, the mean of each
measure. -/
def TrueMeans (n : ℕ) (rs : List Result) : Prop :=
  ∃ out, main n rs = .ok out ∧
    ∀ k m, count k rs ≠ 0 → ∀ v, .mean m k v ∈ out ↔ v = total k m rs / count k rs

/-- The program prints true means of the processes `wpids`, whatever their times are, as far as
the totals of these are in range. -/
def PrintsTrueMeans (n : ℕ) (wpids : List ℕ) : Prop :=
  ∀ rs : List Result, rs.map (·.wpid) = wpids → (∀ k, total k .turnaround rs ≤ INTMAX) →
    TrueMeans n rs

/-! ### The totals -/

/-- The totals of a type are in order, and the largest is in range. -/
structure Fits (t : Measure → ℕ) : Prop where
  sleeping : t .sleeping ≤ t .turnaround
  ready : t .ready ≤ t .turnaround
  range : t .turnaround ≤ INTMAX

theorem addInt_ok {a b : ℕ} (h : a + b ≤ INTMAX) : addInt a b = .ok (a + b) := if_pos h

theorem addTimes_ok {t : Measure → ℕ} {r : Result} (ht : Fits t)
    (h : t .turnaround + r.time .turnaround ≤ INTMAX) :
    addTimes t r = .ok fun m => t m + r.time m := by
  have hs := ht.sleeping
  have hr := ht.ready
  rw [Result.time] at h
  rw [addTimes, addInt_ok (by omega), addInt_ok (by omega), addInt_ok (by omega)]
  simp only [bind, Except.bind]
  rw [addInt_ok (by omega)]
  simp only
  rw [addInt_ok (by omega)]
  simp only [pure, Except.pure]
  congr 1
  funext m
  cases m <;> rfl

theorem total_cons (k : Kind) (m : Measure) (r : Result) (rs : List Result) :
    total k m (r :: rs) = (if kind r.wpid = k then r.time m else 0) + total k m rs := by
  by_cases h : kind r.wpid = k
  · simp [total, h]
  · simp [total, h]

/-- The totals behind one result. -/
theorem update_add (t : Totals) (r : Result) (rs : List Result) (k : Kind) (m : Measure) :
    update t (kind r.wpid) (fun m => t (kind r.wpid) m + r.time m) k m + total k m rs =
      t k m + total k m (r :: rs) := by
  rw [total_cons]
  by_cases h : kind r.wpid = k
  · subst h
    rw [update_self, if_pos rfl, Nat.add_assoc]
  · rw [update_of_ne (Ne.symm h), if_neg h, Nat.zero_add]

theorem fits_update {t : Totals} (ht : ∀ k, Fits (t k)) {r : Result}
    (h : t (kind r.wpid) .turnaround + r.time .turnaround ≤ INTMAX) (k : Kind) :
    Fits (update t (kind r.wpid) (fun m => t (kind r.wpid) m + r.time m) k) := by
  by_cases hk : k = kind r.wpid
  · subst hk
    rw [update_self]
    have hs := (ht (kind r.wpid)).sleeping
    have hr := (ht (kind r.wpid)).ready
    refine ⟨?_, ?_, h⟩
    · simp only [Result.time]
      omega
    · simp only [Result.time]
      omega
  · rw [update_of_ne hk]
    exact ht k

/-- **The loop adds up the times of each type, as far as they are in range.** -/
theorem collect_ok {t : Totals} (ht : ∀ k, Fits (t k)) (rs : List Result)
    (h : ∀ k, t k .turnaround + total k .turnaround rs ≤ INTMAX) :
    collect rs t = .ok fun k m => t k m + total k m rs := by
  induction rs generalizing t with
  | nil => simp [collect, total]
  | cons r rs ih =>
    have hr : t (kind r.wpid) .turnaround + r.time .turnaround ≤ INTMAX := by
      have := h (kind r.wpid)
      rw [total_cons, if_pos rfl] at this
      omega
    rw [collect, addTimes_ok (ht _) hr]
    simp only [bind, Except.bind]
    rw [ih (fits_update ht hr) fun k => by rw [update_add]; exact h k]
    simp only [update_add]

theorem fits_zero (k : Kind) : Fits ((fun _ _ => 0 : Totals) k) :=
  ⟨Nat.le_refl _, Nat.le_refl _, Nat.zero_le _⟩

/-! ### The means -/

variable {n : ℕ}

theorem means_ok (hn : 0 < n) (hmax : 3 * n ≤ INTMAX) (t : Totals) (m : Measure) :
    means n t m = .ok [.title m, .mean m .cpuBound (t .cpuBound m / (3 * n)),
      .mean m .sCpu (t .sCpu m / (3 * n)), .mean m .ioBound (t .ioBound m / (3 * n))] := by
  have hq : ∀ x, quotient n x = .ok (x / (3 * n)) := by
    intro x
    rw [quotient, if_neg (by omega), if_neg (by omega)]
  rw [means, hq, hq, hq]
  rfl

theorem means_error (h : n = 0 ∨ INTMAX < 3 * n) (t : Totals) (m : Measure) :
    ∃ e, means n t m = .error e := by
  have hq : ∃ e, ∀ x, quotient n x = .error e := by
    rcases h with rfl | h
    · exact ⟨.divide, fun _ => rfl⟩
    · exact ⟨.overflow, fun _ => if_pos h⟩
  obtain ⟨e, hq⟩ := hq
  rw [means, hq]
  exact ⟨e, rfl⟩

/-- What is printed, with `3 * n` for the divisor. -/
def printed (n : ℕ) (rs : List Result) : List Line :=
  rs.flatMap report ++ [Measure.sleeping, .ready, .turnaround].flatMap fun m =>
    .title m :: [Kind.cpuBound, .sCpu, .ioBound].map fun k => .mean m k (total k m rs / (3 * n))

theorem mean_mem_printed (n : ℕ) (rs : List Result) (m : Measure) (k : Kind) (v : ℕ) :
    .mean m k v ∈ printed n rs ↔ v = total k m rs / (3 * n) := by
  cases m <;> cases k <;> simp [printed, report]

variable {rs : List Result}

theorem collect_eq (htot : ∀ k, total k .turnaround rs ≤ INTMAX) :
    (collect rs fun _ _ => 0) = .ok fun k m => total k m rs := by
  rw [collect_ok fits_zero rs fun k => by simpa using htot k]
  simp only [Nat.zero_add]

theorem main_ok (hn : 0 < n) (hmax : 3 * n ≤ INTMAX) (htot : ∀ k, total k .turnaround rs ≤ INTMAX) :
    main n rs = .ok (printed n rs) := by
  rw [main, collect_eq htot]
  simp only [bind, Except.bind, means_ok hn hmax, pure, Except.pure]
  simp [printed]

theorem of_main_ok (htot : ∀ k, total k .turnaround rs ≤ INTMAX) {out : List Line}
    (h : main n rs = .ok out) : 0 < n ∧ 3 * n ≤ INTMAX := by
  by_contra hn
  have hbad : n = 0 ∨ INTMAX < 3 * n := by omega
  obtain ⟨e, he⟩ := means_error hbad (fun k m => total k m rs) .sleeping
  rw [main, collect_eq htot] at h
  simp only [bind, Except.bind, he, reduceCtorEq] at h

/-! ### Times that tell the divisors apart -/

/-- The processes `wpids`, of which the first of type `k` has slept for `x` ticks. -/
def oneSleeper (k : Kind) (x : ℕ) : List ℕ → List Result
  | [] => []
  | w :: wpids =>
    if kind w = k then ⟨w, 0, 0, x⟩ :: wpids.map (⟨·, 0, 0, 0⟩)
    else ⟨w, 0, 0, 0⟩ :: oneSleeper k x wpids

theorem map_wpid_oneSleeper (k : Kind) (x : ℕ) (wpids : List ℕ) :
    (oneSleeper k x wpids).map (·.wpid) = wpids := by
  induction wpids with
  | nil => rfl
  | cons w wpids ih =>
    rw [oneSleeper]
    split
    · rw [List.map_cons, List.map_map]
      exact congrArg _ (List.map_id wpids)
    · rw [List.map_cons, ih]

theorem total_zeros (k : Kind) (m : Measure) (wpids : List ℕ) :
    total k m (wpids.map (⟨·, 0, 0, 0⟩)) = 0 := by
  induction wpids with
  | nil => rfl
  | cons w wpids ih =>
    rw [List.map_cons, total_cons, ih]
    cases m <;> simp [Result.time]

theorem total_oneSleeper_le (k k' : Kind) (m : Measure) (x : ℕ) (wpids : List ℕ) :
    total k' m (oneSleeper k x wpids) ≤ x := by
  induction wpids with
  | nil => exact Nat.zero_le x
  | cons w wpids ih =>
    rw [oneSleeper]
    split
    · rw [total_cons, total_zeros]
      split <;> cases m <;> simp [Result.time]
    · rw [total_cons]
      cases m <;> simpa [Result.time] using ih

theorem total_oneSleeper {k : Kind} (x : ℕ) {wpids : List ℕ}
    (h : wpids.countP (kind · = k) ≠ 0) : total k .sleeping (oneSleeper k x wpids) = x := by
  induction wpids with
  | nil => simp at h
  | cons w wpids ih =>
    rw [oneSleeper]
    by_cases hw : kind w = k
    · rw [if_pos hw, total_cons, total_zeros, if_pos hw]
      rfl
    · rw [if_neg hw, total_cons, if_neg hw, Nat.zero_add]
      exact ih (by simpa [hw] using h)

theorem count_eq (k : Kind) (rs : List Result) :
    count k rs = (rs.map (·.wpid)).countP (kind · = k) := by
  rw [List.countP_map]
  rfl

/-- The smaller of two divisors goes once into itself, the larger not at all. -/
theorem eq_of_min_div_eq {a b : ℕ} (ha : 0 < a) (hb : 0 < b) (h : min a b / a = min a b / b) :
    a = b := by
  rcases lt_trichotomy a b with hab | hab | hab
  · rw [Nat.min_eq_left hab.le, Nat.div_self ha, Nat.div_eq_of_lt hab] at h
    exact absurd h Nat.one_ne_zero
  · exact hab
  · rw [Nat.min_eq_right hab.le, Nat.div_self hb, Nat.div_eq_of_lt hab] at h
    exact absurd h Nat.zero_ne_one

/-- **The program prints true means, whatever the times, if and only if `n` is positive, `3 * n`
is in range and there are `3 * n` processes of each type that it has seen.** -/
theorem true_means_iff (n : ℕ) (wpids : List ℕ) :
    PrintsTrueMeans n wpids ↔ 0 < n ∧ 3 * n ≤ INTMAX ∧
      ∀ k, wpids.countP (kind · = k) ≠ 0 → wpids.countP (kind · = k) = 3 * n := by
  constructor
  · intro h
    -- at first nobody has slept, then one process of type `k`
    have hrun : ∀ k x, x ≤ INTMAX → TrueMeans n (oneSleeper k x wpids) := fun k x hx =>
      h _ (map_wpid_oneSleeper k x wpids) fun k' => (total_oneSleeper_le k k' _ x wpids).trans hx
    obtain ⟨out, hout, -⟩ := hrun .sCpu 0 (Nat.zero_le _)
    obtain ⟨hn, hmax⟩ := of_main_ok (fun k => (total_oneSleeper_le _ k _ 0 wpids).trans
      (Nat.zero_le _)) hout
    refine ⟨hn, hmax, fun k hk => ?_⟩
    have hx : min (3 * n) (wpids.countP (kind · = k)) ≤ INTMAX := (Nat.min_le_left _ _).trans hmax
    obtain ⟨out, hout, hmeans⟩ := hrun k _ hx
    rw [main_ok hn hmax fun k' => (total_oneSleeper_le k k' _ _ wpids).trans hx,
      Except.ok.injEq] at hout
    have hcount : count k (oneSleeper k (min (3 * n) (wpids.countP (kind · = k))) wpids) =
        wpids.countP (kind · = k) := by rw [count_eq, map_wpid_oneSleeper]
    have hv := (hmeans k .sleeping (hcount.symm ▸ hk) _).mp
      (hout ▸ (mean_mem_printed n _ .sleeping k _).mpr rfl)
    rw [hcount, total_oneSleeper _ hk] at hv
    exact (eq_of_min_div_eq (by omega) (by omega) hv).symm
  · rintro ⟨hn, hmax, h⟩ rs rfl htot
    refine ⟨printed n rs, main_ok hn hmax htot, fun k m hk v => ?_⟩
    rw [count_eq] at hk ⊢
    rw [h k hk]
    exact mean_mem_printed n rs m k v

/-- Three processes that slept for three ticks each, one of each type: the mean is said to be
one. Without an argument above 0 there is a division by 0. -/
theorem means_of_three :
    main 1 [⟨4, 0, 0, 3⟩, ⟨5, 0, 0, 3⟩, ⟨6, 0, 0, 3⟩] = .ok
      [.process 4 .sCpu, .times 0 0 3, .process 5 .ioBound, .times 0 0 3,
        .process 6 .cpuBound, .times 0 0 3,
        .title .sleeping, .mean .sleeping .cpuBound 1, .mean .sleeping .sCpu 1,
        .mean .sleeping .ioBound 1,
        .title .ready, .mean .ready .cpuBound 0, .mean .ready .sCpu 0, .mean .ready .ioBound 0,
        .title .turnaround, .mean .turnaround .cpuBound 1, .mean .turnaround .sCpu 1,
        .mean .turnaround .ioBound 1] ∧
      total .cpuBound .sleeping [⟨4, 0, 0, 3⟩, ⟨5, 0, 0, 3⟩, ⟨6, 0, 0, 3⟩] /
        count .cpuBound [⟨4, 0, 0, 3⟩, ⟨5, 0, 0, 3⟩, ⟨6, 0, 0, 3⟩] = 3 ∧
      main 0 [] = .error .divide := by
  decide

end Xv6.Sanity
