import Mathlib.Logic.Relation
import Xv6.Lib.Prog
import Xv6.Lib.Run

/-!
# Threads that run programs

Any number of threads, each in a program (`Prog`) or in none, on one state and one
set of locks. A step performs one action of one thread; a thread that asks for a
lock waits while the lock is taken.

The threads are reasoned about one at a time. What a thread may count on while
others run is recorded in a ghost value of its own, which an invariant of the whole
ties to the state: nobody else changes the ghost value of a thread, so what it says
stays true. A program is `Safe` from a ghost value if each of its actions, in any
state where the invariant holds, keeps the invariant with some new ghost value from
which the rest is safe.
-/

open Function

/-- Threads that share a state and locks. -/
structure Pool (P σ Λ ω ε α : Type) where
  mem : σ
  owner : Λ → Option P
  /-- the rest of the program that the thread runs -/
  thread : P → Option (Prog σ Λ ω ε α)

namespace Pool

variable {P σ Λ ω ε α κ : Type}

/-- What happens in a step. -/
inductive Act (P κ : Type) : Type
  | start (p : P) (x : κ)
  | step (p : P)

variable [DecidableEq P] [DecidableEq Λ]

/-- One action of thread `p`: the state, the locks and the rest of the program after it. -/
def move (p : P) (s : σ) (o : Λ → Option P) :
    Prog σ Λ ω ε α → Option (σ × (Λ → Option P) × Option (Prog σ Λ ω ε α))
  | .ret _ => some (s, o, none)
  | .fail _ => none
  | .act f k => some (f s, o, some (k s))
  | .acquire l _ k => if o l = none then some (s, update o l (some p), some k) else none
  | .release l k => some (s, update o l none, some k)
  | .holding l k => some (s, o, some (k (decide (o l = some p))))

/-- A thread starts the program `code p x`, if it runs none and the state is `ready` for it, or does
one action. -/
def step (code : P → κ → Prog σ Λ ω ε α) (ready : σ → P → Bool) (x : Pool P σ Λ ω ε α) :
    Act P κ → Option (Pool P σ Λ ω ε α)
  | .start p c =>
    if (x.thread p).isNone ∧ ready x.mem p then
      some { x with thread := update x.thread p (some (code p c)) }
    else none
  | .step p =>
    (x.thread p).bind fun c =>
      (move p x.mem x.owner c).map fun y => ⟨y.1, y.2.1, update x.thread p y.2.2⟩

end Pool

/-- An invariant of the state, the locks, a ghost value of the whole and one of each thread. -/
structure Logic (P σ Λ ω ε Γ G : Type) where
  inv : σ → (Λ → Option P) → Γ → (P → G) → Prop
  /-- what is assumed of every action -/
  guard : σ → σ → Prop
  /-- what holds of a thread that asks for a lock -/
  ask : Λ → ω → G → Prop
  /-- how a thread may fail -/
  fails : ε → Prop

namespace Logic

variable {P σ Λ ω ε Γ G α β κ : Type} [DecidableEq P] [DecidableEq Λ] {L : Logic P σ Λ ω ε Γ G}

/-- From the ghost value `g`, the program of thread `p` keeps the invariant, and ends with `Q`. -/
def Safe (L : Logic P σ Λ ω ε Γ G) (p : P) : Prog σ Λ ω ε α → (α → G → Prop) → G → Prop
  | .ret a, Q, g => Q a g
  | .fail e, _, _ => L.fails e
  | .act f k, Q, g => ∀ s o Δ γ, L.inv s o Δ γ → γ p = g → L.guard s (f s) →
    ∃ Δ' g', L.inv (f s) o Δ' (update γ p g') ∧ L.Safe p (k s) Q g'
  | .acquire l w k, Q, g => L.ask l w g ∧ ∀ s o Δ γ, L.inv s o Δ γ → γ p = g → o l = none →
    ∃ Δ' g', L.inv s (update o l (some p)) Δ' (update γ p g') ∧ L.Safe p k Q g'
  | .release l k, Q, g => ∀ s o Δ γ, L.inv s o Δ γ → γ p = g →
    ∃ Δ' g', L.inv s (update o l none) Δ' (update γ p g') ∧ L.Safe p k Q g'
  | .holding l k, Q, g => ∀ s o Δ γ, L.inv s o Δ γ → γ p = g →
    L.Safe p (k (decide (o l = some p))) Q g

section Rules

variable {p : P} {c : Prog σ Λ ω ε α} {Q Q' : α → G → Prop} {g : G}

theorem Safe.bind {k : α → Prog σ Λ ω ε β} {Q : β → G → Prop}
    (h : L.Safe p c (fun a g => L.Safe p (k a) Q g) g) : L.Safe p (c >>= k) Q g := by
  change L.Safe p (c.bind k) Q g
  induction c generalizing g with
  | ret a => exact h
  | fail e => exact h
  | act f k ih =>
    intro s o Δ γ hI hg hs
    obtain ⟨Δ', g', hI', hk⟩ := h s o Δ γ hI hg hs
    exact ⟨Δ', g', hI', ih s hk⟩
  | acquire l w k ih =>
    refine ⟨h.1, fun s o Δ γ hI hg ho => ?_⟩
    obtain ⟨Δ', g', hI', hk⟩ := h.2 s o Δ γ hI hg ho
    exact ⟨Δ', g', hI', ih hk⟩
  | release l k ih =>
    intro s o Δ γ hI hg
    obtain ⟨Δ', g', hI', hk⟩ := h s o Δ γ hI hg
    exact ⟨Δ', g', hI', ih hk⟩
  | holding l k ih => exact fun s o Δ γ hI hg => ih _ (h s o Δ γ hI hg)

@[simp] theorem safe_pure {a : α} : L.Safe p (pure a : Prog σ Λ ω ε α) Q g = Q a g := rfl

@[simp] theorem safe_fail {e : ε} : L.Safe p (.fail e : Prog σ Λ ω ε α) Q g = L.fails e := rfl

theorem safe_ite {b : Prop} [Decidable b] {c' : Prog σ Λ ω ε α} (hc : b → L.Safe p c Q g)
    (hc' : ¬ b → L.Safe p c' Q g) : L.Safe p (if b then c else c') Q g := by
  split_ifs with hb
  · exact hc hb
  · exact hc' hb

theorem safe_modify {f : σ → σ} {Q : Unit → G → Prop}
    (h : ∀ s o Δ γ, L.inv s o Δ γ → γ p = g → L.guard s (f s) →
      ∃ Δ' g', L.inv (f s) o Δ' (update γ p g') ∧ Q () g') :
    L.Safe p (.atomic (modify f)) Q g :=
  h

/-- Reading may add to what the thread knows. -/
theorem safe_read {f : σ → α}
    (h : ∀ s o Δ γ, L.inv s o Δ γ → γ p = g →
      ∃ Δ' g', L.inv s o Δ' (update γ p g') ∧ Q (f s) g') : L.Safe p (.read f) Q g :=
  fun s o Δ γ hI hg _ => h s o Δ γ hI hg

/-- What is read does not matter, or follows from what the thread knows. -/
theorem safe_read_const {f : σ → α}
    (h : ∀ s o Δ γ, L.inv s o Δ γ → γ p = g → Q (f s) g) : L.Safe p (.read f) Q g := by
  refine safe_read fun s o Δ γ hI hg => ⟨Δ, g, ?_, h s o Δ γ hI hg⟩
  rwa [← hg, update_eq_self]

theorem safe_lock {l : Λ} {w : ω} {Q : Unit → G → Prop} (hask : L.ask l w g)
    (h : ∀ s o Δ γ, L.inv s o Δ γ → γ p = g → o l = none →
      ∃ Δ' g', L.inv s (update o l (some p)) Δ' (update γ p g') ∧ Q () g') :
    L.Safe p (.lock l w) Q g :=
  ⟨hask, h⟩

theorem safe_unlock {l : Λ} {Q : Unit → G → Prop}
    (h : ∀ s o Δ γ, L.inv s o Δ γ → γ p = g →
      ∃ Δ' g', L.inv s (update o l none) Δ' (update γ p g') ∧ Q () g') :
    L.Safe p (.unlock l) Q g :=
  h

end Rules

/-! ### Runs -/

/-- The invariant holds, and every thread is in a program that is safe, or `idle`. -/
structure Sound (L : Logic P σ Λ ω ε Γ G) (idle : G → Prop) (x : Pool P σ Λ ω ε α) (Δ : Γ)
    (γ : P → G) : Prop where
  inv : L.inv x.mem x.owner Δ γ
  safe : ∀ p c, x.thread p = some c → L.Safe p c (fun _ g => idle g) (γ p)
  idle : ∀ p, x.thread p = none → idle (γ p)

section Runs

variable {idle : G → Prop} {code : P → κ → Prog σ Λ ω ε α} {ready : σ → P → Bool}
  {x x' : Pool P σ Λ ω ε α} {Δ : Γ} {γ : P → G}

/-- One thread takes a step, to the rest of its program or out of it. -/
theorem Sound.set (h : L.Sound idle x Δ γ) {p : P} {s : σ} {o : Λ → Option P}
    {c : Option (Prog σ Λ ω ε α)} {Δ' : Γ} {g : G} (hinv : L.inv s o Δ' (update γ p g))
    (hsafe : ∀ c', c = some c' → L.Safe p c' (fun _ g => idle g) g) (hidle : c = none → idle g) :
    L.Sound idle ⟨s, o, update x.thread p c⟩ Δ' (update γ p g) := by
  refine ⟨hinv, fun q c' hq => ?_, fun q hq => ?_⟩
  · by_cases hqp : q = p
    · subst hqp
      rw [update_self]
      exact hsafe c' (by simpa using hq)
    · rw [update_of_ne hqp]
      exact h.safe q c' (by simpa [hqp] using hq)
  · by_cases hqp : q = p
    · subst hqp
      rw [update_self]
      exact hidle (by simpa using hq)
    · rw [update_of_ne hqp]
      exact h.idle q (by simpa [hqp] using hq)

/-- Every step keeps the invariant, with new ghost values. -/
theorem Sound.step (h : L.Sound idle x Δ γ) {a : Pool.Act P κ}
    (hstart : ∀ s o Δ γ p c, L.inv s o Δ γ → idle (γ p) → ready s p = true →
      ∃ Δ' g, L.inv s o Δ' (update γ p g) ∧ L.Safe p (code p c) (fun _ g => idle g) g)
    (hs : Pool.step code ready x a = some x') (hguard : L.guard x.mem x'.mem) :
    ∃ Δ' γ', L.Sound idle x' Δ' γ' := by
  cases a with
  | start p c =>
    simp only [Pool.step] at hs
    split_ifs at hs with hc
    cases hs
    obtain ⟨Δ', g, hinv, hsafe⟩ := hstart _ _ _ _ p c h.inv
      (h.idle p (Option.isNone_iff_eq_none.mp hc.1)) hc.2
    refine ⟨Δ', _, h.set hinv (fun c' hc' => ?_) fun hc' => by simp at hc'⟩
    rwa [← Option.some.inj hc']
  | step p =>
    obtain ⟨c, hc, hmove⟩ := Option.bind_eq_some_iff.mp hs
    obtain ⟨⟨s, o, rest⟩, hm, rfl⟩ := Option.map_eq_some_iff.mp hmove
    have hsafe := h.safe p c hc
    cases c with
    | ret a =>
      obtain ⟨rfl, rfl, rfl⟩ := by simpa [Pool.move] using hm
      refine ⟨Δ, _, h.set (g := γ p) ?_ (fun c' hc' => by simp at hc') fun _ => hsafe⟩
      rw [update_eq_self]
      exact h.inv
    | fail e => simp [Pool.move] at hm
    | act f k =>
      obtain ⟨rfl, rfl, rfl⟩ := by simpa [Pool.move] using hm
      obtain ⟨Δ', g', hinv, hk⟩ := hsafe _ _ _ _ h.inv rfl hguard
      exact ⟨Δ', _, h.set hinv (fun c' hc' => Option.some.inj hc' ▸ hk) fun hc' => by simp at hc'⟩
    | acquire l w k =>
      simp only [Pool.move] at hm
      split_ifs at hm with ho
      obtain ⟨rfl, rfl, rfl⟩ := by simpa using hm
      obtain ⟨Δ', g', hinv, hk⟩ := hsafe.2 _ _ _ _ h.inv rfl ho
      exact ⟨Δ', _, h.set hinv (fun c' hc' => Option.some.inj hc' ▸ hk) fun hc' => by simp at hc'⟩
    | release l k =>
      obtain ⟨rfl, rfl, rfl⟩ := by simpa [Pool.move] using hm
      obtain ⟨Δ', g', hinv, hk⟩ := hsafe _ _ _ _ h.inv rfl
      exact ⟨Δ', _, h.set hinv (fun c' hc' => Option.some.inj hc' ▸ hk) fun hc' => by simp at hc'⟩
    | holding l k =>
      obtain ⟨rfl, rfl, rfl⟩ := by simpa [Pool.move] using hm
      refine ⟨Δ, _, h.set (g := γ p) ?_ (fun c' hc' => ?_) fun hc' => by simp at hc'⟩
      · rw [update_eq_self]
        exact h.inv
      · exact Option.some.inj hc' ▸ hsafe _ _ _ _ h.inv rfl

/-- The invariant holds in every state of a run whose actions are as assumed. -/
theorem Sound.run (idle : G → Prop) (r : Run (Pool.step code ready))
    (hstart : ∀ s o Δ γ p c, L.inv s o Δ γ → idle (γ p) → ready s p = true →
      ∃ Δ' g, L.inv s o Δ' (update γ p g) ∧ L.Safe p (code p c) (fun _ g => idle g) g)
    (h0 : ∃ Δ γ, L.Sound idle (r.state 0) Δ γ)
    (hguard : ∀ j < r.length, L.guard (r.state j).mem (r.state (j + 1)).mem) {k : ℕ}
    (hk : k ≤ r.length) : ∃ Δ γ, L.Sound idle (r.state k) Δ γ :=
  r.induct_between (P := fun m => ∃ Δ γ, L.Sound idle (r.state m) Δ γ) (Nat.zero_le k) hk h0
    fun j _ hj hs hsound => by
      obtain ⟨Δ, γ, hsound⟩ := hsound
      exact hsound.step hstart hs (hguard j (by omega))

end Runs

end Logic
