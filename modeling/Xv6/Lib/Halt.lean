import Mathlib.Data.Nat.Notation

/-!
# Programs that may halt

A program over a state `σ` returns a value in a new state, or halts and leaves
something of the state behind: a machine that loses power leaves its disk. What
is asked of a program is a postcondition for the first case and a halting
condition for the second.
-/

variable {η σ α β : Type}

/-- From `s`, the program returns with `Q` or halts with `H`. -/
def wp (m : StateT σ (Except η) α) (Q : α → σ → Prop) (H : η → Prop) (s : σ) : Prop :=
  match m.run s with
  | .ok (a, s') => Q a s'
  | .error h => H h

section Rules

variable {m : StateT σ (Except η) α} {Q Q' : α → σ → Prop} {H H' : η → Prop} {s : σ}

theorem wp_of_run_ok {a : α} {s' : σ} (h : wp m Q H s) (hm : m.run s = .ok (a, s')) : Q a s' := by
  simpa [wp, hm] using h

theorem wp_of_run_error {e : η} (h : wp m Q H s) (hm : m.run s = .error e) : H e := by
  simpa [wp, hm] using h

theorem wp_of_ok {a : α} {s' : σ} (hm : m.run s = .ok (a, s')) (hQ : Q a s') : wp m Q H s := by
  simpa [wp, hm] using hQ

theorem wp_of_error {e : η} (hm : m.run s = .error e) (hH : H e) : wp m Q H s := by
  simpa [wp, hm] using hH

/-- A program that must not halt returns. -/
theorem exists_of_wp (h : wp m Q (fun _ => False) s) : ∃ a s', m.run s = .ok (a, s') ∧ Q a s' := by
  cases hm : m.run s with
  | ok p => exact ⟨p.1, p.2, rfl, wp_of_run_ok h hm⟩
  | error e => exact (wp_of_run_error h hm).elim

theorem wp.mono (h : wp m Q H s) (hQ : ∀ a s', Q a s' → Q' a s') (hH : ∀ e, H e → H' e) :
    wp m Q' H' s := by
  cases hm : m.run s with
  | ok p =>
    obtain ⟨a, s'⟩ := p
    simpa [wp, hm] using hQ a s' (wp_of_run_ok h hm)
  | error e => simpa [wp, hm] using hH e (wp_of_run_error h hm)

/-- Two facts about one program. -/
theorem wp.and (h : wp m Q H s) (h' : wp m Q' H' s) :
    wp m (fun a s' => Q a s' ∧ Q' a s') (fun e => H e ∧ H' e) s := by
  cases hm : m.run s with
  | ok p =>
    obtain ⟨a, s'⟩ := p
    simpa [wp, hm] using And.intro (wp_of_run_ok h hm) (wp_of_run_ok h' hm)
  | error e => simpa [wp, hm] using And.intro (wp_of_run_error h hm) (wp_of_run_error h' hm)

@[simp] theorem wp_pure {a : α} : wp (pure a : StateT σ (Except η) α) Q H = Q a := rfl

@[simp] theorem wp_bind {f : α → StateT σ (Except η) β} {Q : β → σ → Prop} :
    wp (m >>= f) Q H = wp m (fun a => wp (f a) Q H) H := by
  funext s
  unfold wp
  rw [StateT.run_bind]
  cases m.run s with
  | ok p => rfl
  | error e => rfl

@[simp] theorem wp_ite {b : Prop} [Decidable b] {m' : StateT σ (Except η) α} :
    wp (if b then m else m') Q H s = if b then wp m Q H s else wp m' Q H s := by
  split <;> rfl

@[simp] theorem wp_get {Q : σ → σ → Prop} :
    wp (get : StateT σ (Except η) σ) Q H = fun s => Q s s := rfl

@[simp] theorem wp_set {s' : σ} {Q : PUnit → σ → Prop} :
    wp (set s' : StateT σ (Except η) PUnit) Q H = fun _ => Q ⟨⟩ s' := rfl

@[simp] theorem wp_modify {f : σ → σ} {Q : PUnit → σ → Prop} :
    wp (modify f : StateT σ (Except η) PUnit) Q H = fun s => Q ⟨⟩ (f s) := rfl

@[simp] theorem wp_throw {e : η} :
    wp (throw e : StateT σ (Except η) α) Q H = fun _ => H e := rfl

end Rules

/-- `for (i = 0; i < n; i++) body(i)` -/
def forRange : ℕ → (ℕ → StateT σ (Except η) Unit) → StateT σ (Except η) Unit
  | 0, _ => pure ()
  | n + 1, body => do
    forRange n body
    body n

/-- An invariant that each round carries from its index to the next holds after the loop. -/
theorem wp_forRange {body : ℕ → StateT σ (Except η) Unit} {I : ℕ → σ → Prop} {H : η → Prop}
    {n : ℕ} {s : σ} (h0 : I 0 s)
    (hstep : ∀ i < n, ∀ s, I i s → wp (body i) (fun _ => I (i + 1)) H s) :
    wp (forRange n body) (fun _ => I n) H s := by
  induction n with
  | zero => exact h0
  | succ n ih =>
    rw [forRange, wp_bind]
    refine (ih fun i hi => hstep i (by omega)).mono (fun _ s' hs' => ?_) fun _ => id
    exact hstep n (by omega) s' hs'

-- a loop is reasoned about with its rule: unfolding one of many rounds is never wanted
attribute [irreducible] forRange
