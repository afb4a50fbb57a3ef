import Mathlib.Order.Interval.Finset.Nat

/-!
# Runs of a transition function

A deterministic system is given by a partial function `step`: from a state and
an action to the next state, undefined where the action is not enabled. A
`Run` is a finite execution, indexed by positions, so that a property of a run
can speak of what holds between two of its steps.
-/

/-- A finite execution: `action k` leads from `state k` to `state (k + 1)` for
every `k` below `length`. Values beyond that carry no obligation. -/
structure Run {σ α : Type*} (step : σ → α → Option σ) where
  length : ℕ
  state : ℕ → σ
  action : ℕ → α
  next : ∀ k < length, step (state k) (action k) = some (state (k + 1))

namespace Run

variable {σ α : Type*} {step : σ → α → Option σ}

/-- What holds at position `i` and is kept by every step up to `j` holds at `j`. -/
theorem induct_between (r : Run step) {P : ℕ → Prop} {i j : ℕ} (hij : i ≤ j)
    (hj : j ≤ r.length) (hi : P i)
    (hstep : ∀ k, i ≤ k → k < j → step (r.state k) (r.action k) = some (r.state (k + 1)) →
      P k → P (k + 1)) : P j := by
  induction j, hij using Nat.le_induction with
  | base => exact hi
  | succ k hk ih =>
    exact hstep k hk (by omega) (r.next k (by omega))
      (ih (by omega) fun m hm hmk => hstep m hm (by omega))

/-- An inductive invariant that holds at the start holds at every position. -/
theorem invariant (r : Run step) {I : σ → Prop} (h0 : I (r.state 0))
    (hstep : ∀ s a s', I s → step s a = some s' → I s') {k : ℕ} (hk : k ≤ r.length) :
    I (r.state k) :=
  r.induct_between (P := fun m => I (r.state m)) (Nat.zero_le k) hk h0
    fun _ _ _ hs hI => hstep _ _ _ hI hs

section Count

variable (E : σ → α → Prop) [∀ s a, Decidable (E s a)]

/-- The number of steps `k` with `i ≤ k < j` that are of kind `E`. -/
def count (r : Run step) (i j : ℕ) : ℕ :=
  ((Finset.Ico i j).filter fun k => E (r.state k) (r.action k)).card

@[simp] theorem count_self (r : Run step) (i : ℕ) : r.count E i i = 0 := by
  simp [count]

theorem count_succ (r : Run step) {i j : ℕ} (hij : i ≤ j) :
    r.count E i (j + 1) =
      r.count E i j + if E (r.state j) (r.action j) then 1 else 0 := by
  rw [count, count, Nat.Ico_succ_right_eq_insert_Ico hij, Finset.filter_insert]
  split
  · rw [Finset.card_insert_of_notMem (by simp)]
  · rfl

theorem count_mono (r : Run step) {i j k : ℕ} (hjk : j ≤ k) : r.count E i j ≤ r.count E i k :=
  Finset.card_le_card (Finset.filter_subset_filter _ (Finset.Ico_subset_Ico_right hjk))

theorem count_le (r : Run step) (i j : ℕ) : r.count E i j ≤ j - i := by
  refine (Finset.card_filter_le _ _).trans ?_
  rw [Nat.card_Ico]

end Count

section Trace

variable {β : Type*} (f : σ → α → σ → List β)

/-- What the first `k` steps emit, in order. -/
def trace (r : Run step) (k : ℕ) : List β :=
  (List.range k).flatMap fun j => f (r.state j) (r.action j) (r.state (j + 1))

@[simp] theorem trace_zero (r : Run step) : r.trace f 0 = [] := rfl

theorem trace_succ (r : Run step) (k : ℕ) :
    r.trace f (k + 1) = r.trace f k ++ f (r.state k) (r.action k) (r.state (k + 1)) := by
  rw [trace, trace, List.range_succ, List.flatMap_append, List.flatMap_singleton]

end Trace

section Execute

variable (step)

/-- The state after the actions `l`, if each of them is enabled in its turn. -/
def execute (s : σ) : List α → Option σ
  | [] => some s
  | a :: l => (step s a).bind fun s' => execute s' l

/-- `P` holds at every step of the execution of `l`, which gets to its end. -/
def always (P : σ → α → Bool) (s : σ) : List α → Bool
  | [] => true
  | a :: l => P s a && (step s a).elim false fun s' => always P s' l

variable {step} {l : List α} {P : σ → α → Bool} {k : ℕ} {s : σ}

theorem execute_concat (s : σ) (l : List α) (a : α) :
    execute step s (l ++ [a]) = (execute step s l).bind fun s' => step s' a := by
  induction l generalizing s with
  | nil => simp [execute]
  | cons b l ih =>
    simp only [List.cons_append, execute, Option.bind_assoc]
    congr 1
    funext s'
    exact ih s'

theorem execute_isSome_of_always (h : always step P s l = true) : (execute step s l).isSome := by
  induction l generalizing s with
  | nil => rfl
  | cons a l ih =>
    simp only [always, Bool.and_eq_true] at h
    cases hs : step s a with
    | none => simp [hs] at h
    | some s' =>
      simp only [hs, Option.elim_some] at h
      simpa [execute, hs] using ih h.2

theorem execute_take_succ {a : α} (ha : l[k]? = some a) :
    execute step s (l.take (k + 1)) = (execute step s (l.take k)).bind fun s' => step s' a := by
  rw [List.take_add_one, ha, Option.toList_some, execute_concat]

theorem execute_take_isSome (h : (execute step s l).isSome) (k : ℕ) :
    (execute step s (l.take k)).isSome := by
  induction l generalizing s k with
  | nil => simpa using h
  | cons a l ih =>
    cases k with
    | zero => rfl
    | succ k =>
      cases hs : step s a with
      | none => simp [execute, hs] at h
      | some s' =>
        simp only [execute, hs, Option.bind_some, List.take_succ_cons] at h ⊢
        exact ih h k

/-- The run that performs the actions `l` from `s`. -/
def ofActions [Inhabited α] (s : σ) (l : List α) (h : (execute step s l).isSome) : Run step where
  length := l.length
  state k := (execute step s (l.take k)).getD s
  action k := l.getD k default
  next k hk := by
    have ha : l[k]? = some (l.getD k default) := by simp [hk]
    obtain ⟨t, ht⟩ := Option.isSome_iff_exists.mp (execute_take_isSome h (k + 1))
    have hbind : (execute step s (l.take k)).bind (step · (l.getD k default)) = some t :=
      (execute_take_succ ha).symm.trans ht
    obtain ⟨s', hs', hstep⟩ := Option.bind_eq_some_iff.mp hbind
    rw [ht, hs']
    exact hstep

theorem ofActions_state_zero [Inhabited α] (s : σ) (l : List α)
    (h : (execute step s l).isSome) : (ofActions s l h).state 0 = s := rfl

theorem ofActions_getElem? [Inhabited α] (s : σ) (l : List α) (h : (execute step s l).isSome)
    (hk : k < l.length) : l[k]? = some ((ofActions s l h).action k) := by
  simp [ofActions, hk]

/-- The steps of a kind in a run of given actions are counted on the list. -/
theorem count_ofActions [Inhabited α] (p : α → Bool) (s : σ) (l : List α)
    (h : (execute step s l).isSome) (hk : k ≤ l.length) :
    (ofActions s l h).count (fun _ a => p a = true) 0 k = (l.take k).countP p := by
  induction k with
  | zero => simp
  | succ k ih =>
    have ha := ofActions_getElem? s l h hk
    rw [count_succ _ _ (Nat.zero_le k), ih (by omega), List.take_add_one, ha, Option.toList_some,
      List.countP_append, List.countP_singleton]

theorem always_take {s' : σ} {a : α} (h : always step P s l = true) (ha : l[k]? = some a)
    (hs : execute step s (l.take k) = some s') : P s' a = true := by
  induction l generalizing s k with
  | nil => simp at ha
  | cons b l ih =>
    simp only [always, Bool.and_eq_true] at h
    cases k with
    | zero =>
      simp only [List.getElem?_cons_zero, Option.some.injEq] at ha
      simp only [List.take_zero, execute, Option.some.injEq] at hs
      subst ha hs
      exact h.1
    | succ k =>
      cases hsb : step s b with
      | none => simp [hsb] at h
      | some s₁ =>
        simp only [hsb, Option.elim_some] at h
        simp only [List.take_succ_cons, execute, hsb, Option.bind_some] at hs
        exact ih h.2 (by simpa using ha) hs

/-- What a check finds at every step holds along the run. -/
theorem always_ofActions [Inhabited α] (h : always step P s l = true)
    (hl : (execute step s l).isSome) (hk : k < l.length) :
    P ((ofActions s l hl).state k) ((ofActions s l hl).action k) = true := by
  obtain ⟨s', hs'⟩ := Option.isSome_iff_exists.mp (execute_take_isSome hl k)
  have hst : (ofActions s l hl).state k = s' := by simp [ofActions, hs']
  rw [hst]
  exact always_take h (ofActions_getElem? s l hl hk) hs'

end Execute

end Run
