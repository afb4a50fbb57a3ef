import Mathlib.Data.Nat.Notation
import Mathlib.Logic.Function.Basic

/-!
# Exact allocation

Numbered blocks, each with a bit that says whether it is in use, and pointers to
them. The first `lo` of the `hi` blocks are in use for good. A pointer is zero if it
refers to no block.
-/

/-- A block is marked if it is one of the first `lo` or a pointer refers to it; only one does. -/
structure AllocExact {X : Type} (lo hi : ℕ) (ptr : X → ℕ) (bit : ℕ → Bool) : Prop where
  lo_pos : 0 < lo
  range : ∀ x, ptr x ≠ 0 → lo ≤ ptr x ∧ ptr x < hi
  inj : ∀ x y, ptr x ≠ 0 → ptr x = ptr y → x = y
  bit : ∀ b < hi, (bit b = true ↔ b < lo ∨ ∃ x, ptr x = b)

namespace AllocExact

open Function

variable {X : Type} {lo hi : ℕ} {ptr : X → ℕ} {bit : ℕ → Bool} {x : X} {b : ℕ}

section

variable (h : AllocExact lo hi ptr bit)
include h

theorem bit_ptr (hx : ptr x ≠ 0) : bit (ptr x) = true :=
  (h.bit _ (h.range x hx).2).mpr (Or.inr ⟨x, rfl⟩)

/-- No pointer refers to a block that is not marked. -/
theorem ptr_ne (hb : b < hi) (hbit : bit b = false) (x : X) : ptr x ≠ b := fun hx => by
  have := (h.bit b hb).mpr (Or.inr ⟨x, hx⟩)
  rw [hbit] at this
  exact Bool.noConfusion this

theorem le_of_bit (hb : b < hi) (hbit : bit b = false) : lo ≤ b := by
  by_contra hlt
  have := (h.bit b hb).mpr (Or.inl (Nat.lt_of_not_le hlt))
  rw [hbit] at this
  exact Bool.noConfusion this

/-- Only the bits of the blocks count. -/
theorem congr_bit {bit' : ℕ → Bool} (hbit : ∀ b < hi, bit' b = bit b) : AllocExact lo hi ptr bit' :=
  { h with bit := fun b hb => by rw [hbit b hb, h.bit b hb] }

end

variable [DecidableEq X]

/-- A block that is not in use gets a pointer. -/
theorem attach (h : AllocExact lo hi ptr bit) (hx : ptr x = 0) (hb : b < hi)
    (hbit : bit b = false) : AllocExact lo hi (update ptr x b) (update bit b true) := by
  have hne := h.ptr_ne hb hbit
  have hlo := h.le_of_bit hb hbit
  constructor
  · exact h.lo_pos
  · intro y hy
    by_cases hyx : y = x
    · rw [hyx, update_self]
      exact ⟨hlo, hb⟩
    · rw [update_of_ne hyx] at hy ⊢
      exact h.range y hy
  · intro y z hy hyz
    by_cases hyx : y = x
    · by_cases hzx : z = x
      · rw [hyx, hzx]
      · rw [hyx, update_self, update_of_ne hzx] at hyz
        exact absurd hyz.symm (hne z)
    · rw [update_of_ne hyx] at hy hyz
      by_cases hzx : z = x
      · rw [hzx, update_self] at hyz
        exact absurd hyz (hne y)
      · rw [update_of_ne hzx] at hyz
        exact h.inj y z hy hyz
  · intro c hc
    by_cases hcb : c = b
    · rw [hcb, update_self]
      exact ⟨fun _ => Or.inr ⟨x, update_self _ _ _⟩, fun _ => rfl⟩
    · rw [update_of_ne hcb, h.bit c hc]
      refine or_congr_right' fun hlt => ⟨fun ⟨y, hy⟩ => ⟨y, ?_⟩, fun ⟨y, hy⟩ => ⟨y, ?_⟩⟩
      · have hyx : y ≠ x := fun e => hlt (by rw [← hy, e, hx]; exact h.lo_pos)
        rwa [update_of_ne hyx]
      · have hyx : y ≠ x := fun e => hcb (by rw [← hy, e, update_self])
        rwa [update_of_ne hyx] at hy

/-- A block goes out of use with its pointer. -/
theorem detach (h : AllocExact lo hi ptr bit) (hx : ptr x ≠ 0) :
    AllocExact lo hi (update ptr x 0) (update bit (ptr x) false) := by
  have hne : ∀ y, update ptr x 0 y ≠ 0 → y ≠ x ∧ update ptr x 0 y = ptr y := fun y hy => by
    have hyx : y ≠ x := fun e => hy (by rw [e, update_self])
    exact ⟨hyx, update_of_ne hyx _ _⟩
  constructor
  · exact h.lo_pos
  · intro y hy
    have heq := (hne y hy).2
    rw [heq] at hy ⊢
    exact h.range y hy
  · intro y z hy hyz
    have hz := hyz ▸ hy
    have hy' := (hne y hy).2
    rw [hy', (hne z hz).2] at hyz
    exact h.inj y z (hy' ▸ hy) hyz
  · intro c hc
    have hlo := h.lo_pos
    by_cases hcx : c = ptr x
    · subst hcx
      rw [update_self]
      refine iff_of_false Bool.false_ne_true ?_
      rintro (hlt | ⟨y, hy⟩)
      · exact absurd (h.range x hx).1 (Nat.not_le.mpr hlt)
      · obtain ⟨hyx, heq⟩ := hne y (hy ▸ hx)
        exact hyx (h.inj y x (by rw [← heq, hy]; exact hx) (heq.symm.trans hy))
    · rw [update_of_ne hcx, h.bit c hc]
      refine or_congr_right' fun hlt => ⟨fun ⟨y, hy⟩ => ⟨y, ?_⟩, fun ⟨y, hy⟩ => ⟨y, ?_⟩⟩
      · have hyx : y ≠ x := fun e => hcx (by rw [← hy, e])
        rwa [update_of_ne hyx]
      · have h0 : update ptr x 0 y ≠ 0 := fun e => hlt (by rw [← hy, e]; exact hlo)
        rw [← (hne y h0).2, hy]

end AllocExact
