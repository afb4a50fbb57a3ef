import Xv6.Lib.Halt

/-!
# Programs that take locks

The code of one thread, as a tree: atomic actions on a shared state, and locks
taken, released and asked about between them. An action reads the state and
updates it in one step, so that what may happen between two actions is visible in
the tree; a lock is asked for at a *site*, which says where in the code the thread
would wait.

A program run on its own, with nobody else changing the state, is a function of
the locks held and the state (`exec`). It stops without a result when it fails, or
when it asks for a lock that is held: there is nobody to release it. What it did
until then stays.
-/

/-- The code of a thread that returns an `α`. -/
inductive Prog (σ Λ ω ε α : Type) : Type
  | ret (a : α)
  | fail (e : ε)
  /-- Go on as the state says, and update it, in one step. -/
  | act (f : σ → σ) (k : σ → Prog σ Λ ω ε α)
  | acquire (l : Λ) (w : ω) (k : Prog σ Λ ω ε α)
  | release (l : Λ) (k : Prog σ Λ ω ε α)
  /-- Go on as the thread holds the lock or not. -/
  | holding (l : Λ) (k : Bool → Prog σ Λ ω ε α)

/-- Why a program run on its own gives no result. -/
inductive Stop (Λ ε : Type) : Type
  | failed (e : ε)
  /-- It waits for a lock that nobody will release. -/
  | blocked (l : Λ)
  deriving DecidableEq

namespace Prog

variable {σ Λ ω ε α β : Type}

/-- Run the first program and go on with its result. -/
def bind : Prog σ Λ ω ε α → (α → Prog σ Λ ω ε β) → Prog σ Λ ω ε β
  | ret a, g => g a
  | fail e, _ => fail e
  | act f k, g => act f fun s => (k s).bind g
  | acquire l w k, g => acquire l w (k.bind g)
  | release l k, g => release l (k.bind g)
  | holding l k, g => holding l fun b => (k b).bind g

instance : Monad (Prog σ Λ ω ε) where
  pure := ret
  bind := bind

/-- A section that nothing interrupts. A section that fails leaves the state alone. -/
def atomic (m : StateT σ (Except ε) α) : Prog σ Λ ω ε α :=
  act
    (fun s => match m.run s with
      | .ok (_, s') => s'
      | .error _ => s)
    fun s => match m.run s with
      | .ok (a, _) => ret a
      | .error e => fail e

/-- Look at the state. -/
def read (f : σ → α) : Prog σ Λ ω ε α :=
  act id fun s => ret (f s)

/-- Take a lock, waiting until it is free. -/
def lock (l : Λ) (w : ω) : Prog σ Λ ω ε Unit :=
  acquire l w (ret ())

def unlock (l : Λ) : Prog σ Λ ω ε Unit :=
  release l (ret ())

/-- Does this thread hold the lock? -/
def isHeld (l : Λ) : Prog σ Λ ω ε Bool :=
  holding l ret

variable [DecidableEq Λ]

/-- A program run on its own, from the locks that are held and the state. -/
def exec : Prog σ Λ ω ε α → List Λ → σ → Except (Stop Λ ε × σ) (α × List Λ × σ)
  | ret a, h, s => .ok (a, h, s)
  | fail e, _, s => .error (.failed e, s)
  | act f k, h, s => (k s).exec h (f s)
  | acquire l _ k, h, s => if l ∈ h then .error (.blocked l, s) else k.exec (l :: h) s
  | release l k, h, s => k.exec (h.erase l) s
  | holding l k, h, s => (k (decide (l ∈ h))).exec h s

/-- What the program run on its own returns, if it does. -/
def returns (c : Prog σ Λ ω ε α) (h : List Λ) (s : σ) : Option α := (c.exec h s).toOption.map (·.1)

/-- Why the program run on its own stops, if it does. -/
def stops (c : Prog σ Λ ω ε α) (h : List Λ) (s : σ) : Option (Stop Λ ε) :=
  match c.exec h s with
  | .ok _ => none
  | .error (e, _) => some e

/-- From the locks `h` and the state `s`, the program returns with `Q` or stops with `H`. -/
def wp (c : Prog σ Λ ω ε α) (Q : α → List Λ → σ → Prop) (H : Stop Λ ε → σ → Prop)
    (h : List Λ) (s : σ) : Prop :=
  match c.exec h s with
  | .ok (a, h', s') => Q a h' s'
  | .error (e, s') => H e s'

section Rules

variable {c : Prog σ Λ ω ε α} {Q Q' : α → List Λ → σ → Prop} {H H' : Stop Λ ε → σ → Prop}
  {h : List Λ} {s : σ} {e : Stop Λ ε} {g : α → Prog σ Λ ω ε β} {a : α}

theorem wp_of_exec_ok {h' : List Λ} {s' : σ} (hw : wp c Q H h s)
    (hc : c.exec h s = .ok (a, h', s')) : Q a h' s' := by
  simpa [wp, hc] using hw

theorem wp_of_exec_error {s' : σ} (hw : wp c Q H h s) (hc : c.exec h s = .error (e, s')) :
    H e s' := by
  simpa [wp, hc] using hw

theorem exec_of_returns (hc : c.returns h s = some a) : ∃ h' s', c.exec h s = .ok (a, h', s') := by
  unfold returns at hc
  cases he : c.exec h s with
  | error e => simp [he, Except.toOption] at hc
  | ok v =>
    obtain ⟨a', h', s'⟩ := v
    obtain rfl : a' = a := by simpa [he, Except.toOption] using hc
    exact ⟨h', s', rfl⟩

theorem wp_of_stops (hw : wp c Q H h s) (hc : c.stops h s = some e) : ∃ s', H e s' := by
  unfold stops at hc
  split at hc
  · simp at hc
  · rename_i e' s' he
    obtain rfl : e' = e := by simpa using hc
    exact ⟨s', wp_of_exec_error hw he⟩

/-- A program that must not stop returns. -/
theorem exists_of_wp (hw : wp c Q (fun _ _ => False) h s) :
    ∃ a h' s', c.exec h s = .ok (a, h', s') ∧ Q a h' s' := by
  cases hc : c.exec h s with
  | ok p => exact ⟨p.1, p.2.1, p.2.2, rfl, wp_of_exec_ok hw hc⟩
  | error p => exact (wp_of_exec_error hw hc).elim

theorem stops_of_wp (hw : wp c (fun _ _ _ => False) (fun e' _ => e' = e) h s) :
    c.stops h s = some e := by
  unfold stops
  cases hc : c.exec h s with
  | ok p => exact (wp_of_exec_ok hw hc).elim
  | error p =>
    obtain ⟨e', s'⟩ := p
    simpa [wp, hc] using hw

theorem wp.mono (hw : wp c Q H h s) (hQ : ∀ a h' s', Q a h' s' → Q' a h' s')
    (hH : ∀ e s', H e s' → H' e s') : wp c Q' H' h s := by
  cases hc : c.exec h s with
  | ok p =>
    obtain ⟨a, h', s'⟩ := p
    simpa [wp, hc] using hQ a h' s' (wp_of_exec_ok hw hc)
  | error p =>
    obtain ⟨e, s'⟩ := p
    simpa [wp, hc] using hH e s' (wp_of_exec_error hw hc)

/-- Only the postcondition is weakened. -/
theorem wp.imp (hw : wp c Q H h s) (hQ : ∀ a h' s', Q a h' s' → Q' a h' s') : wp c Q' H h s :=
  hw.mono hQ fun _ _ he => he

@[simp] theorem wp_ret : wp (ret a : Prog σ Λ ω ε α) Q H h s = Q a h s := rfl

@[simp] theorem wp_pure : wp (pure a : Prog σ Λ ω ε α) Q H h s = Q a h s := rfl

@[simp] theorem wp_fail {e : ε} : wp (fail e : Prog σ Λ ω ε α) Q H h s = H (.failed e) s := rfl

theorem wp_act {f : σ → σ} {k : σ → Prog σ Λ ω ε α} :
    wp (act f k) Q H h s = wp (k s) Q H h (f s) := rfl

theorem exec_bind : (c >>= g).exec h s = match c.exec h s with
      | .ok (a, h', s') => (g a).exec h' s'
      | .error e => .error e := by
  change (c.bind g).exec h s = _
  induction c generalizing h s with
  | ret a => rfl
  | fail e => rfl
  | act f k ih => exact ih s
  | acquire l w k ih =>
    by_cases hl : l ∈ h
    · simp [bind, exec, hl]
    · simpa [bind, exec, hl] using ih
  | release l k ih => exact ih
  | holding l k ih => exact ih _

@[simp] theorem wp_bind {Q : β → List Λ → σ → Prop} :
    wp (c >>= g) Q H h s = wp c (fun a h' s' => wp (g a) Q H h' s') H h s := by
  unfold wp
  rw [exec_bind]
  cases c.exec h s with
  | ok p => rfl
  | error e => rfl

@[simp] theorem wp_ite {b : Prop} [Decidable b] {c' : Prog σ Λ ω ε α} :
    wp (if b then c else c') Q H h s = if b then wp c Q H h s else wp c' Q H h s := by
  split <;> rfl

@[simp] theorem wp_read {f : σ → α} : wp (read f : Prog σ Λ ω ε α) Q H h s = Q (f s) h s := rfl

@[simp] theorem wp_lock {l : Λ} {w : ω} {Q : Unit → List Λ → σ → Prop} :
    wp (lock l w : Prog σ Λ ω ε Unit) Q H h s =
      if l ∈ h then H (.blocked l) s else Q () (l :: h) s := by
  by_cases hl : l ∈ h
  · simp [wp, lock, exec, hl]
  · simp [wp, lock, exec, hl]

@[simp] theorem wp_unlock {l : Λ} {Q : Unit → List Λ → σ → Prop} :
    wp (unlock l : Prog σ Λ ω ε Unit) Q H h s = Q () (h.erase l) s := rfl

@[simp] theorem wp_isHeld {l : Λ} {Q : Bool → List Λ → σ → Prop} :
    wp (isHeld l : Prog σ Λ ω ε Bool) Q H h s = Q (decide (l ∈ h)) h s := rfl

end Rules

end Prog

/-- An atomic section meets what the section meets by itself. -/
@[simp] theorem wp_prog_atomic {σ Λ ω ε α : Type} [DecidableEq Λ] {m : StateT σ (Except ε) α}
    {Q : α → List Λ → σ → Prop} {H : Stop Λ ε → σ → Prop} {h : List Λ} {s : σ} :
    Prog.wp (Prog.atomic m : Prog σ Λ ω ε α) Q H h s =
      wp m (fun a s' => Q a h s') (fun e => H (.failed e) s) s := by
  cases hm : m.run s with
  | ok p => simp [Prog.atomic, Prog.wp_act, wp, hm]
  | error e => simp [Prog.atomic, Prog.wp_act, wp, hm]
