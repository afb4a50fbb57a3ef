import Mathlib.Algebra.BigOperators.Group.Finset.Piecewise
import Mathlib.Algebra.Order.BigOperators.Group.Finset
import Mathlib.Data.Multiset.Bind

/-!
# What a table refers to

A table of `n` entries, each of which refers to something or to nothing, and the multiset of
what it refers to. Where nothing is referred to twice, the entry can be told from the thing.
-/

open Finset

variable {α : Type}

def shares (n : ℕ) (f : ℕ → Option α) : Multiset α := ∑ i ∈ range n, ((f i).toList : Multiset α)

variable {n i j : ℕ} {f g : ℕ → Option α} {x : α}

theorem mem_shares : x ∈ shares n f ↔ ∃ i < n, f i = some x := by
  simp [shares, Multiset.mem_sum]

theorem shares_congr (h : ∀ i < n, f i = g i) : shares n f = shares n g :=
  sum_congr rfl fun i hi => by rw [h i (mem_range.mp hi)]

theorem shares_eq_zero (h : ∀ i < n, f i = none) : shares n f = 0 :=
  sum_eq_zero fun i hi => by rw [h i (mem_range.mp hi)]; rfl

/-- Only the entries below `m` refer to something. -/
theorem card_shares_le {m : ℕ} (h : ∀ i < n, m ≤ i → f i = none) :
    (shares n f).card ≤ m := by
  have hsum : (shares n f).card = ∑ i ∈ range n, if i < m then (f i).toList.length else 0 := by
    rw [shares, Multiset.card_sum]
    refine sum_congr rfl fun i hi => ?_
    by_cases him : i < m
    · simp [him]
    · simp [him, h i (mem_range.mp hi) (not_lt.mp him)]
  have hone : ∀ i, (if i < m then (f i).toList.length else 0) ≤ if i < m then 1 else 0 :=
    fun i => by
    split
    · cases f i <;> simp
    · exact le_refl 0
  rw [hsum]
  refine (sum_le_sum fun i _ => hone i).trans ?_
  rw [← card_filter]
  refine (card_le_card fun i hi => mem_range.mpr (mem_filter.mp hi).2).trans (card_range m).le

/-- An empty entry comes to refer to something. -/
theorem shares_add (hi : i < n) (hf : f i = none) (hg : g i = some x)
    (h : ∀ j < n, j ≠ i → g j = f j) : shares n g = shares n f + {x} := by
  rw [shares, shares, ← add_sum_erase _ _ (mem_range.mpr hi),
    ← add_sum_erase _ _ (mem_range.mpr hi),
    hf, hg, sum_congr rfl fun j hj => by
      rw [h j (mem_range.mp (mem_of_mem_erase hj)) (ne_of_mem_erase hj)]]
  simp [add_comm]

/-- Empty entries in a row come to refer to something. -/
theorem shares_add_range {v k : ℕ} {e : ℕ → α} (hv : v + k ≤ n) (hf : ∀ i < k, f (v + i) = none)
    (hg : ∀ i < k, g (v + i) = some (e i))
    (h : ∀ j < n, ¬(v ≤ j ∧ j < v + k) → g j = f j) :
    shares n g = shares n f + (Multiset.range k).map e := by
  induction k generalizing g with
  | zero =>
    rw [Multiset.range_zero, Multiset.map_zero, add_zero]
    exact shares_congr fun j hj => h j hj (by omega)
  | succ k ih =>
    -- all but the last
    have hk := ih (g := Function.update g (v + k) none) (by omega) (fun i hi => hf i (by omega))
      (fun i hi => by rw [Function.update_of_ne (by omega), hg i (by omega)]) fun j hj hno => by
        by_cases hjk : j = v + k
        · rw [hjk, Function.update_self, hf k (by omega)]
        · rw [Function.update_of_ne hjk, h j hj (by omega)]
    have hlast : shares n g = shares n (Function.update g (v + k) none) + {e k} :=
      shares_add (i := v + k) (by omega) (Function.update_self ..) (hg k (by omega))
        fun j _ hne => by rw [Function.update_of_ne hne]
    rw [hlast, hk, Multiset.range_succ, Multiset.map_cons, ← Multiset.singleton_add,
      add_comm {e k}, add_assoc]

/-- Without duplicates no two entries refer to the same. -/
theorem shares_inj (h : (shares n f).Nodup) (hi : i < n) (hj : j < n) (hfi : f i = some x)
    (hfj : f j = some x) : i = j := by
  by_contra hne
  rw [shares, ← add_sum_erase _ _ (mem_range.mpr hi), Multiset.nodup_add] at h
  have hi' : x ∈ ((f i).toList : Multiset α) := by rw [hfi]; simp
  have hj' : x ∈ ((f j).toList : Multiset α) := by rw [hfj]; simp
  exact Multiset.disjoint_left.mp h.2.2 hi'
    (Multiset.mem_sum.mpr ⟨j, mem_erase.mpr ⟨Ne.symm hne, mem_range.mpr hj⟩, hj'⟩)

-- a table of a page has a thousand entries, which are never to be written out
attribute [irreducible] shares
