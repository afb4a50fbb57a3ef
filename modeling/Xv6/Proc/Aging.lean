import Xv6.Proc.Priority

/-!
# Aging

The aging test of the accounting loop compares `queue_time` with `P1TO2` or
`P2TO3`. `queue_time` is incremented where a process is dispatched and nowhere
else, and it is reset by a promotion but not by `change_prio`.
-/

namespace Xv6

variable {ncpu : ℕ}

/-- The bound of the aging test for queue 1 or queue 2. -/
def threshold (q : Int32) : Int32 := if q = 1 then P1TO2 else P2TO3

/-- The action completes a scheduling round. -/
def Action.isAccount : Action ncpu → Bool
  | .account .. => true
  | _ => false

theorem Action.isAccount_iff {a : Action ncpu} : a.isAccount = true ↔ ∃ c p, a = .account c p := by
  cases a <;> simp [Action.isAccount]

/-- The action dispatches `p`. -/
def dispatches (p : Slot) (s : State ncpu) (a : Action ncpu) : Bool :=
  (dispatched s a).any fun x => decide (x.2 = p)

theorem dispatches_iff {s : State ncpu} {a : Action ncpu} {p : Slot} :
    dispatches p s a = true ↔ ∃ c, dispatched s a = some (c, p) := by
  simp only [dispatches, Option.any_eq_true, decide_eq_true_eq, Prod.exists]
  constructor
  · rintro ⟨c, p', hd, rfl⟩
    exact ⟨c, hd⟩
  · rintro ⟨c, hd⟩
    exact ⟨c, p, hd, rfl⟩

theorem Proc.due_iff {q : Proc} (h : q.priority = 1 ∨ q.priority = 2) :
    q.Due1 ∨ q.Due2 ↔ threshold q.priority ≤ q.queue_time := by
  rcases h with h | h <;> simp [Proc.Due1, Proc.Due2, threshold, h]

section

variable {s s' : State ncpu} {a : Action ncpu} {i : Slot}

theorem account_step_priority (hs : step s a = some s') (ha : a.isAccount = true) (i : Slot) :
    (s'.proc i).priority = (s.proc i).priority ↔ ¬ (s.proc i).Due1 ∧ ¬ (s.proc i).Due2 := by
  obtain ⟨c, p, rfl⟩ := Action.isAccount_iff.mp ha
  obtain ⟨-, rfl⟩ := step_eq_some_iff.mp hs
  exact account_priority_eq_iff

/-- Inside a queue only a dispatch moves `queue_time`. -/
theorem queue_time_step (h : Inv s) (hs : step s a = some s') (hi : (s.proc i).state ≠ .unused)
    (hi' : (s'.proc i).state ≠ .unused) (hp : (s'.proc i).priority = (s.proc i).priority)
    (hd : ∀ c, dispatched s a ≠ some (c, i)) :
    (s'.proc i).queue_time = (s.proc i).queue_time := by
  have heff := step_effect h hs i
  generalize s'.proc i = x at heff hi' hp
  cases heff with
  | keep | fill | drop | publish | leave | wake | own | fault | kill | changePrio => rfl
  | alloc hu => exact absurd (firstUnused_eq_some hu) hi
  | dispatch c _ hdc => exact absurd hdc (hd c)
  | account =>
    obtain ⟨h1, h2⟩ := account_priority_eq_iff.mp hp
    simp only [Proc.account, if_neg h1, if_neg h2]
  | reap _ k => cases k <;> exact absurd rfl hi'

/-- A process under construction has not been dispatched. -/
theorem embryo_queue_time_step (h : Inv s)
    (hq : ∀ i, (s.proc i).state = .embryo → (s.proc i).queue_time = 0)
    (hs : step s a = some s') (hi : (s'.proc i).state = .embryo) :
    (s'.proc i).queue_time = 0 := by
  have heff := step_effect h hs i
  generalize s'.proc i = x at heff hi
  cases heff with
  | keep | fill | own | fault | changePrio => exact hq i hi
  | alloc => rfl
  | drop | publish | dispatch => simp [Proc.dispatch] at hi
  | account =>
    have h0 := hq i hi
    simp [Proc.account, h0]
  | leave _ _ state hl => exact absurd hi hl.2
  | wake state hst =>
    obtain rfl | ⟨-, rfl⟩ := hst
    · exact hq i hi
    · simp at hi
  | kill =>
    refine hq i ?_
    simp only [Proc.kill] at hi
    split at hi
    · simp at hi
    · exact hi
  | reap _ k => cases k <;> simp [Proc.reap] at hi

end

theorem Reachable.embryo_queue_time {bsp : Fin ncpu} {n : ℕ} {s : State ncpu}
    (hr : Reachable bsp n s) (i : Slot) (hi : (s.proc i).state = .embryo) :
    (s.proc i).queue_time = 0 := by
  induction hr generalizing i with
  | boot => rfl
  | step hr hs ih => exact embryo_queue_time_step hr.inv ih hs hi

/-- `W` begins with priority `q`, stays `RUNNABLE` and is not dispatched up to step
`n`, which completes the last of at least `threshold q` scheduling rounds. Only the
accounting loop may change its priority meanwhile. -/
structure Starving (r : Run (@step ncpu)) (W : Slot) (q : Int32) (n : ℕ) : Prop where
  lt_length : n < r.length
  last : (r.action n).isAccount = true
  runnable : ∀ k ≤ n, ((r.state k).proc W).state = .runnable
  priority : ((r.state 0).proc W).priority = q
  priority_step : ∀ k < n, (r.action k).isAccount = false →
    ((r.state (k + 1)).proc W).priority = ((r.state k).proc W).priority
  not_dispatched : ∀ k ≤ n, dispatches W (r.state k) (r.action k) = false
  rounds : (threshold q).toInt ≤ r.count (fun _ a => a.isAccount = true) 0 (n + 1)

/-- What `m` rounds make of a process that began to wait with priority `q` and
`queue_time` `t`: the first one promotes it or none does. -/
def Aged (q t : Int32) (m : ℕ) (x : Proc) : Prop :=
  if threshold q ≤ t ∧ 0 < m then x.priority = q + 1 ∧ x.queue_time = 0
  else x.priority = q ∧ x.queue_time = t

section

variable {q t : Int32} {m : ℕ} {x y : Proc}

theorem Aged.congr (h : Aged q t m x) (hp : y.priority = x.priority)
    (hqt : y.queue_time = x.queue_time) : Aged q t m y := by
  unfold Aged
  rw [hp, hqt]
  exact h

theorem Aged.account (hq : q = 1 ∨ q = 2) (h : Aged q t m x) (pid : Int32) :
    Aged q t (m + 1) (x.account pid) := by
  unfold Aged at h ⊢
  by_cases hdue : threshold q ≤ t
  · rw [if_pos ⟨hdue, Nat.succ_pos m⟩]
    by_cases hm : 0 < m
    · -- promoted before, and the new `queue_time` is below both bounds
      rw [if_pos ⟨hdue, hm⟩] at h
      rcases hq with rfl | rfl <;> simp [Proc.account, Proc.Due1, Proc.Due2, P1TO2, P2TO3, h]
    · rw [if_neg fun hc => hm hc.2] at h
      rcases hq with rfl | rfl <;>
        simp_all [Proc.account, Proc.Due1, Proc.Due2, threshold]
  · rw [if_neg fun hc => hdue hc.1] at h ⊢
    have hnot : ¬ (x.Due1 ∨ x.Due2) := by
      rwa [Proc.due_iff (by rwa [h.1]), h.1, h.2]
    obtain ⟨h1, h2⟩ := not_or.mp hnot
    simpa only [Proc.account, if_neg h1, if_neg h2] using h

end

/-- The rounds of a waiting process, by induction on the run. -/
theorem Starving.aged {bsp : Fin ncpu} {m : ℕ} {r : Run (@step ncpu)}
    (h0 : Reachable bsp m (r.state 0)) {W : Slot} {q : Int32} {n : ℕ} (hq : q = 1 ∨ q = 2)
    (h : Starving r W q n) {k : ℕ} (hk : k ≤ n + 1) :
    Aged q ((r.state 0).proc W).queue_time (r.count (fun _ a => a.isAccount = true) 0 k)
      ((r.state k).proc W) := by
  have hn := h.lt_length
  refine r.induct_between (P := fun k => Aged q ((r.state 0).proc W).queue_time
    (r.count (fun _ a => a.isAccount = true) 0 k) ((r.state k).proc W))
    (Nat.zero_le k) (by omega) ?_ ?_
  · rw [Run.count_self, Aged, if_neg fun hc => lt_irrefl _ hc.2]
    exact ⟨h.priority, rfl⟩
  · intro j _ hjk hs ih
    rw [r.count_succ _ (Nat.zero_le j)]
    cases ha : (r.action j).isAccount with
    | true =>
      obtain ⟨c, p, hact⟩ := Action.isAccount_iff.mp ha
      rw [hact] at hs
      obtain ⟨-, hs'⟩ := step_eq_some_iff.mp hs
      rw [hs', if_pos rfl]
      exact ih.account hq _
    | false =>
      have hjn : j < n := by
        refine lt_of_le_of_ne (by omega) fun hj => ?_
        rw [hj, h.last] at ha
        exact absurd ha (by decide)
      have hpr := h.priority_step j hjn ha
      rw [if_neg (by decide), Nat.add_zero]
      refine ih.congr hpr (queue_time_step (h0.inv.along r (by omega)) hs ?_ ?_ hpr ?_)
      · simp [h.runnable j hjn.le]
      · simp [h.runnable (j + 1) hjn]
      · intro c hd
        have := dispatches_iff.mpr ⟨c, hd⟩
        simp [h.not_dispatched j hjn.le] at this

/-- Waiting is not counted: after the rounds a process is promoted exactly if its
`queue_time` had reached the bound before it began to wait. A process that keeps
its priority up to the last of the rounds is not promoted by that one either. -/
theorem starving_promoted_iff {bsp : Fin ncpu} {m : ℕ} (r : Run (@step ncpu))
    (h0 : Reachable bsp m (r.state 0)) {W : Slot} {q : Int32} {n : ℕ} (hq : q = 1 ∨ q = 2)
    (h : Starving r W q n) :
    (((r.state (n + 1)).proc W).priority = q + 1 ↔
      threshold q ≤ ((r.state 0).proc W).queue_time) ∧
    ((∀ k ≤ n, ((r.state k).proc W).priority = q) →
      ((r.state (n + 1)).proc W).priority = q) := by
  have hne : q ≠ q + 1 := by
    rcases hq with rfl | rfl <;> decide
  have hcount : r.count (fun _ a => a.isAccount = true) 0 (n + 1) =
      r.count (fun _ a => a.isAccount = true) 0 n + 1 := by
    rw [r.count_succ _ (Nat.zero_le n), if_pos h.last]
  have hlast := h.aged h0 hq le_rfl
  rw [Aged, hcount] at hlast
  constructor
  · by_cases hdue : threshold q ≤ ((r.state 0).proc W).queue_time
    · rw [if_pos ⟨hdue, Nat.succ_pos _⟩] at hlast
      exact iff_of_true hlast.1 hdue
    · rw [if_neg fun hc => hdue hc.1] at hlast
      exact iff_of_false (fun hp => hne (hlast.1.symm.trans hp)) hdue
  · -- one of the earlier rounds has let it be, so it was not due
    intro hstay
    have hpos : 0 < r.count (fun _ a => a.isAccount = true) 0 n := by
      have hr := h.rounds
      have ht : 100 ≤ (threshold q).toInt := by
        rcases hq with rfl | rfl <;> decide
      omega
    have hbefore := h.aged h0 hq (Nat.le_succ n)
    rw [Aged] at hbefore
    have hdue : ¬ threshold q ≤ ((r.state 0).proc W).queue_time := by
      intro hdue
      rw [if_pos ⟨hdue, hpos⟩, hstay n le_rfl] at hbefore
      exact hne hbefore.1
    rw [if_neg fun hc => hdue hc.1] at hlast
    exact hlast.1

/-- `n` rounds of slot 0, and the beginning of the next: the scan finds the child,
and the inner loop goes back to slot 0. -/
def hogRounds (n : ℕ) : List (Action 1) :=
  (List.replicate n [.select cpu0 1, .resume cpu0 0, .call cpu0 0 .yield,
  .account cpu0 0]).flatten ++
    [.select cpu0 1, .resume cpu0 0]

theorem length_hogRounds (n : ℕ) : (hogRounds n).length = n * 4 + 2 := by
  simp [hogRounds]

/-- `W` waits at priority `q`, as a check. -/
def waitsAt (W : Slot) (q : Int32) (s : State ncpu) (a : Action ncpu) : Bool :=
  decide ((s.proc W).state = .runnable ∧ (s.proc W).priority = q ∧ dispatches W s a = false)

theorem hogRounds_waitsAt :
    Run.always step (waitsAt 1 2) (State.after cpu0 hogActions) (hogRounds 100) = true := by
  decide +kernel

def hogRun : Run (@step 1) :=
  Run.ofActions (State.after cpu0 hogActions) (hogRounds 100)
    (Run.execute_isSome_of_always hogRounds_waitsAt)

theorem hogRun_reachable : ∃ n, Reachable cpu0 n (hogRun.state 0) := by
  obtain ⟨n, hr, -⟩ : ∃ n, Reachable cpu0 n (State.after cpu0 hogActions) ∧ n ≤ 14 :=
    Reachable.after (by decide +kernel)
  exact ⟨n, by rwa [hogRun, Run.ofActions_state_zero]⟩

theorem hogRun_waitsAt {k : ℕ} (hk : k ≤ 400) :
    ((hogRun.state k).proc 1).state = .runnable ∧ ((hogRun.state k).proc 1).priority = 2 ∧
      dispatches 1 (hogRun.state k) (hogRun.action k) = false := by
  refine of_decide_eq_true (Run.always_ofActions hogRounds_waitsAt
    (Run.execute_isSome_of_always hogRounds_waitsAt) ?_)
  rw [length_hogRounds]
  omega

theorem hogRun_starving : Starving hogRun 1 2 399 where
  lt_length := by
    change 399 < (hogRounds 100).length
    rw [length_hogRounds]
    decide
  last := by decide +kernel
  runnable k hk := (hogRun_waitsAt (by omega)).1
  priority := (hogRun_waitsAt (by decide)).2.1
  priority_step k hk _ := by
    rw [(hogRun_waitsAt (show k ≤ 400 by omega)).2.1,
      (hogRun_waitsAt (show k + 1 ≤ 400 by omega)).2.1]
  not_dispatched k hk := (hogRun_waitsAt (by omega)).2.2
  rounds := by
    rw [hogRun, Run.count_ofActions Action.isAccount]
    · decide +kernel
    · rw [length_hogRounds]
      decide

theorem hogRun_child_not_promoted :
    ((hogRun.state (399 + 1)).proc 1).priority = 2 ∧
      ¬ P2TO3 ≤ ((hogRun.state 0).proc 1).queue_time := by
  obtain ⟨n, hr⟩ := hogRun_reachable
  obtain ⟨hiff, hkeep⟩ := starving_promoted_iff hogRun hr (Or.inr rfl) hogRun_starving
  have hprio := hkeep fun k hk => (hogRun_waitsAt (by omega)).2.1
  refine ⟨hprio, fun hdue => ?_⟩
  rw [hiff.mpr hdue] at hprio
  exact absurd hprio (by decide)

/-- After `P2TO3` rounds of waiting in queue 2 the child is not in queue 3. -/
theorem hogRun_starves_unpromoted :
    (∃ n, Reachable cpu0 n (hogRun.state 0)) ∧ Starving hogRun 1 2 399 ∧
      ((hogRun.state 400).proc 1).priority ≠ 3 := by
  refine ⟨hogRun_reachable, hogRun_starving, ?_⟩
  rw [(hogRun_waitsAt le_rfl).2.1]
  decide

/-- `P` comes to priority `q` in step `e`. -/
def EntersQueue (r : Run (@step ncpu)) (P : Slot) (q : Int32) (e : ℕ) : Prop :=
  (((r.state e).proc P).state = .unused ∨ ((r.state e).proc P).priority ≠ q) ∧
    ((r.state (e + 1)).proc P).state ≠ .unused ∧ ((r.state (e + 1)).proc P).priority = q

/-- When step `n` promotes `P` out of queue `q`, which it entered in step `e`, `P`
has been dispatched `threshold q` times in between, each time with an increment
of its `queue_time`. -/
def QueueTimeCurrent (r : Run (@step ncpu)) : Prop :=
  ∀ P q e n, q = 1 ∨ q = 2 → e < n → n < r.length → EntersQueue r P q e →
    (∀ k, e < k → k ≤ n →
      ((r.state k).proc P).state ≠ .unused ∧ ((r.state k).proc P).priority = q) →
    (r.action n).isAccount = true → q < ((r.state (n + 1)).proc P).priority →
    (threshold q).toInt ≤ r.count (fun s a => dispatches P s a = true) (e + 1) n

/-- A call of `change_prio` that moves a process to queue 1 or 2 finds no
`queue_time` left from an earlier queue. -/
def EntersFresh (s : State ncpu) (a : Action ncpu) : Prop :=
  ∀ c p priority i, a = .call c p (.changePrio priority) →
    findPid s.proc (s.proc p).pid = some i → priority = 1 ∨ priority = 2 →
    (s.proc i).priority ≠ priority → (s.proc i).queue_time ≤ 0

theorem toInt_add_one_le (x : Int32) : (x + 1).toInt ≤ x.toInt + 1 := by
  have hlo := Int32.le_toInt x
  have hhi := Int32.toInt_lt x
  rw [Int32.toInt_add, show (1 : Int32).toInt = 1 from rfl, Int.bmod_def]
  split <;> omega

section

variable {s s' : State ncpu} {a : Action ncpu} {P : Slot} {q : Int32}

/-- A process enters queue 1 or 2 with a fresh `queue_time`: `allocproc` and a
promotion clear it, and `fork` and `set_prio` publish a process that has not run. -/
theorem queue_time_of_enters (h : Inv s)
    (he : ∀ i, (s.proc i).state = .embryo → (s.proc i).queue_time = 0)
    (hf : EntersFresh s a) (hs : step s a = some s') (hq : q = 1 ∨ q = 2)
    (hP : (s.proc P).state = .unused ∨ (s.proc P).priority ≠ q)
    (hP' : (s'.proc P).state ≠ .unused) (hpr : (s'.proc P).priority = q) :
    (s'.proc P).queue_time.toInt ≤ 0 := by
  have heff := step_effect h hs P
  generalize s'.proc P = x at heff hP' hpr
  have hne : (s.proc P).state ≠ .unused → (s.proc P).priority ≠ q := fun hu => hP.resolve_left hu
  cases heff with
  | keep => exact absurd hpr (hne hP')
  | alloc => exact Int.le_refl _
  | fill hi | dispatch _ hi | leave _ hi | own hi | fault _ hi =>
    exact absurd hpr (hne (by simp [hi]))
  | drop => exact absurd rfl hP'
  | publish hi => exact (congrArg Int32.toInt (he P hi)).le
  | account =>
    have hu : (s.proc P).state ≠ .unused := hP'
    have hdue : ¬ (¬ (s.proc P).Due1 ∧ ¬ (s.proc P).Due2) := by
      rw [← account_priority_eq_iff, hpr]
      exact (hne hu).symm
    by_cases h2 : (s.proc P).Due2
    · simp only [Proc.account, if_pos h2]
      exact Int.le_refl _
    · have h1 : (s.proc P).Due1 := by tauto
      simp only [Proc.account, if_neg h2, if_pos h1]
      exact Int.le_refl _
  | wake state hst =>
    refine absurd hpr (hne fun hu => ?_)
    obtain rfl | ⟨hsl, -⟩ := hst
    · exact hP' hu
    · simp [hu] at hsl
  | kill => exact absurd hpr (hne fun hu => hP' (by simp [Proc.kill, hu]))
  | changePrio c p priority ha _ _ hfind =>
    obtain rfl : priority = q := hpr
    exact Int32.le_iff_toInt_le.mp (hf c p priority P ha hfind hq (hne hP'))
  | reap _ k => cases k <;> exact absurd rfl hP'

/-- Inside a queue `queue_time` grows by at most one with each dispatch. -/
theorem queue_time_le_step (h : Inv s) (hs : step s a = some s')
    (hP : (s.proc P).state ≠ .unused) (hP' : (s'.proc P).state ≠ .unused)
    (hpr : (s'.proc P).priority = (s.proc P).priority) :
    (s'.proc P).queue_time.toInt ≤
      (s.proc P).queue_time.toInt + if dispatches P s a = true then 1 else 0 := by
  by_cases hd : dispatches P s a = true
  · obtain ⟨c, hdc⟩ := dispatches_iff.mp hd
    obtain ⟨-, -, rfl⟩ := dispatch_step h hs hdc
    rw [if_pos hd]
    simpa [Proc.dispatch] using toInt_add_one_le (s.proc P).queue_time
  · rw [if_neg hd, queue_time_step h hs hP hP' hpr fun c hdc => hd (dispatches_iff.mpr ⟨c, hdc⟩)]
    omega

end

/-- In a run whose calls of `change_prio` all enter queues 1 and 2 fresh,
`queue_time` measures the time in the current queue. -/
theorem queueTimeCurrent_of_entersFresh {bsp : Fin ncpu} {m : ℕ} (r : Run (@step ncpu))
    (h0 : Reachable bsp m (r.state 0))
    (hfresh : ∀ k < r.length, EntersFresh (r.state k) (r.action k)) : QueueTimeCurrent r := by
  intro P q e n hq hen hn ⟨hout, hin, hpr⟩ hstay hacc hraise
  have hreach : ∀ k ≤ r.length, ∃ m, Reachable bsp m (r.state k) := by
    intro k hk
    obtain ⟨m, hm, -⟩ := Reachable.along r h0 hk
    exact ⟨m, hm⟩
  have hle : ((r.state n).proc P).queue_time.toInt ≤
      r.count (fun s a => dispatches P s a = true) (e + 1) n := by
    refine r.induct_between (P := fun k => ((r.state k).proc P).queue_time.toInt ≤
      r.count (fun s a => dispatches P s a = true) (e + 1) k) hen hn.le ?_ ?_
    · obtain ⟨m, hm⟩ := hreach e (by omega)
      simpa using queue_time_of_enters hm.inv hm.embryo_queue_time (hfresh e (by omega))
        (r.next e (by omega)) hq hout hin hpr
    · intro k hk hkn hs ih
      obtain ⟨m, hm⟩ := hreach k (by omega)
      obtain ⟨hu, hp⟩ := hstay k hk hkn.le
      obtain ⟨hu', hp'⟩ := hstay (k + 1) (by omega) hkn
      have hstep := queue_time_le_step hm.inv hs hu hu' (hp'.trans hp.symm)
      rw [r.count_succ _ (show e + 1 ≤ k from hk)]
      by_cases hd : dispatches P (r.state k) (r.action k) = true
      · rw [if_pos hd] at hstep ⊢
        omega
      · rw [if_neg hd] at hstep ⊢
        omega
  -- the promotion shows that `P` was due
  have hpn := (hstay n hen le_rfl).2
  have hdue : threshold q ≤ ((r.state n).proc P).queue_time := by
    rw [← hpn, ← Proc.due_iff (by rwa [hpn])]
    by_contra hnot
    rw [(account_step_priority (r.next n hn) hacc P).mpr (not_or.mp hnot), hpn] at hraise
    exact Int32.lt_irrefl hraise
  exact (Int32.le_iff_toInt_le.mp hdue).trans hle

/-- Slot 0 is alone and runs `n + 1` times, each time until it yields. -/
def aloneActions (n : ℕ) : List (Action 1) :=
  bootActions ++ (List.replicate n [.call cpu0 0 .yield, .account cpu0 0, .select cpu0 1,
    .acquire cpu0, .select cpu0 0, .resume cpu0 0]).flatten ++
      [.call cpu0 0 .yield, .account cpu0 0]

theorem length_aloneActions (n : ℕ) : (aloneActions n).length = n * 6 + 9 := by
  simp [aloneActions, bootActions]

theorem changePrio_notMem_aloneActions (n : ℕ) (c : Fin 1) (p : Slot) (q : Int32) :
    .call c p (.changePrio q) ∉ aloneActions n := by
  simp [aloneActions, bootActions]

theorem aloneActions_promote : (Run.execute step (State.boot cpu0) (aloneActions 99)).any
    (fun s => decide ((s.proc 0).priority = 3)) = true := by
  decide +kernel

def raiseRun : Run (@step 1) := Run.ofActions (State.boot cpu0) (aloneActions 99)
  (Option.isSome_of_any aloneActions_promote)

/-- After 100 dispatches in queue 2 the last accounting loop moves slot 0 to queue 3. -/
theorem queueTimeCurrent_raiseRun : QueueTimeCurrent raiseRun ∧
    ((raiseRun.state 7).proc 0).priority = 2 ∧ ((raiseRun.state 603).proc 0).priority = 3 := by
  refine ⟨queueTimeCurrent_of_entersFresh raiseRun Reachable.boot ?_, by decide +kernel, ?_⟩
  · intro k hk c p priority i ha
    have hmem : raiseRun.action k ∈ aloneActions 99 :=
      List.mem_of_getElem? (Run.ofActions_getElem? _ _ _ hk)
    rw [ha] at hmem
    exact absurd hmem (changePrio_notMem_aloneActions 99 c p priority)
  · obtain ⟨s, hs, hpr⟩ := (Option.any_eq_true _ _).mp aloneActions_promote
    have hlast : raiseRun.state 603 = s := by
      rw [raiseRun, Run.ofActions]
      dsimp only
      rw [List.take_of_length_le (length_aloneActions 99).le, hs]
      rfl
    rw [hlast]
    exact of_decide_eq_true hpr

/-- Slot 0 moves itself to queue 2 and yields. -/
def carryActions : List (Action 1) :=
  [.call cpu0 0 (.changePrio 2), .call cpu0 0 .yield, .account cpu0 0]

/-- Slot 0 comes from queue 3 and is back there after one yield, as a check. -/
def carries (s : State 1) : Bool :=
  (Run.execute step s carryActions).isSome && decide (∀ k : ℕ, k ≤ 3 →
    (((Run.execute step s (carryActions.take k)).getD s).proc 0).state ≠ .unused ∧
      (((Run.execute step s (carryActions.take k)).getD s).proc 0).priority =
        if k = 1 ∨ k = 2 then 2 else 3)

theorem hogRounds_carries :
    (Run.execute step (State.boot cpu0) (hogActions ++ hogRounds 100)).any carries = true := by
  decide +kernel

/-- After 100 rounds in queue 3, the time that slot 0 spent there promotes it from
queue 2 without a single dispatch. -/
theorem queue_time_carried_over :
    ¬ ∀ (r : Run (@step 1)) (m : ℕ), Reachable cpu0 m (r.state 0) → QueueTimeCurrent r := by
  intro hall
  obtain ⟨s, hs, hc⟩ := (Option.any_eq_true _ _).mp hogRounds_carries
  obtain ⟨hsome, hst⟩ := Bool.and_eq_true_iff.mp hc
  obtain ⟨m, hm, -⟩ := Reachable.boot.of_execute hs
  generalize hr : Run.ofActions s carryActions hsome = r at *
  have hst : ∀ k ≤ 3, ((r.state k).proc 0).state ≠ .unused ∧
      ((r.state k).proc 0).priority = if k = 1 ∨ k = 2 then 2 else 3 := by
    subst hr
    exact of_decide_eq_true hst
  have hlen : r.length = 3 := by rw [← hr]; rfl
  have hcount : r.count (fun s a => dispatches 0 s a = true) (0 + 1) 2 = 0 := by
    have hyield : r.action 1 = .call cpu0 0 .yield := by rw [← hr]; rfl
    rw [r.count_succ _ le_rfl, Run.count_self, hyield]
    rfl
  have hle := hall r m (by rwa [← hr, Run.ofActions_state_zero]) 0 2 0 2 (Or.inr rfl) (by decide)
    (by omega) ?_ ?_ (by rw [← hr]; rfl) ?_
  · rw [hcount] at hle
    exact absurd hle (by decide)
  · refine ⟨Or.inr ?_, (hst 1 (by decide)).1, (hst 1 (by decide)).2⟩
    rw [(hst 0 (by decide)).2]
    decide
  · intro k h0 h2
    refine ⟨(hst k (by omega)).1, ?_⟩
    rw [(hst k (by omega)).2, if_pos (by omega)]
  · rw [(hst 3 le_rfl).2]
    decide

end Xv6
