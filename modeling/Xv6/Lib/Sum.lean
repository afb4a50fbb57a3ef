import Mathlib.Algebra.BigOperators.Group.Finset.Basic

/-!
# Sums over a table

A count kept over the entries of a table, `∑ x ∈ s, f (g x)`: what becomes of it
when one entry of `g` is replaced.
-/

variable {ι α : Type*} [DecidableEq ι] {s : Finset ι} {a : ι} {g : ι → α}

/-- Replacing an entry trades its share for that of the new one. -/
theorem Finset.sum_update_add_self {M : Type*} [AddCommMonoid M] (ha : a ∈ s) (v : α) (f : α → M) :
    ∑ x ∈ s, f (Function.update g a v x) + f (g a) = ∑ x ∈ s, f (g x) + f v := by
  have hrest : ∑ x ∈ s.erase a, f (Function.update g a v x) = ∑ x ∈ s.erase a, f (g x) :=
    Finset.sum_congr rfl fun x hx => by rw [Function.update_of_ne (Finset.ne_of_mem_erase hx)]
  rw [← Finset.add_sum_erase s (fun x => f (Function.update g a v x)) ha,
    ← Finset.add_sum_erase s (fun x => f (g x)) ha, hrest, Function.update_self]
  rw [add_right_comm, add_comm (f v), add_right_comm]

/-- An entry replaced by one with the same share changes nothing. -/
theorem Finset.sum_update_of_eq {M : Type*} [AddCommMonoid M] {v : α} {f : α → M}
    (h : f v = f (g a)) : ∑ x ∈ s, f (Function.update g a v x) = ∑ x ∈ s, f (g x) := by
  refine Finset.sum_congr rfl fun x _ => ?_
  by_cases hx : x = a
  · rw [hx, Function.update_self, h]
  · rw [Function.update_of_ne hx]

/-- A sum of which one term grows. -/
theorem Finset.sum_eq_add_of_eq_add {M : Type*} [AddCommMonoid M] {f f' : ι → M} {d : M}
    (ha : a ∈ s) (hne : ∀ x ≠ a, f' x = f x) (heq : f' a = f a + d) :
    ∑ x ∈ s, f' x = ∑ x ∈ s, f x + d := by
  have hrest : ∑ x ∈ s.erase a, f' x = ∑ x ∈ s.erase a, f x :=
    Finset.sum_congr rfl fun x hx => hne x (Finset.ne_of_mem_erase hx)
  rw [← Finset.add_sum_erase s f' ha, ← Finset.add_sum_erase s f ha, hrest, heq,
    add_right_comm]
