import Mathlib.Algebra.BigOperators.Group.Finset.Basic
import Mathlib.Algebra.Order.BigOperators.Group.Finset
import Mathlib.Algebra.Order.Group.Multiset
import Mathlib.Data.Multiset.UnionInter

/-!
# Things with one owner

Things that are free or belong to one of finitely many owners, each thing once. What one owner
does with its own and with what is free does not touch what the others have.
-/

namespace Owners

variable {P α : Type} [Fintype P] [DecidableEq P] {free free' : Multiset α}
  {own own' : P → Multiset α} {c p : P}

/-- What is free and what `c` owns, beside the rest. -/
theorem split (free : Multiset α) (own : P → Multiset α) (c : P) :
    free + ∑ p, own p = (free + own c) + ∑ p ∈ Finset.univ.erase c, own p := by
  rw [← Finset.add_sum_erase Finset.univ own (Finset.mem_univ c), add_assoc]

theorem nodup (h : (free + ∑ p, own p).Nodup) (c : P) : (free + own c).Nodup := by
  rw [split free own c] at h
  exact (Multiset.nodup_add.mp h).1

/-- Nobody else has anything of it. -/
theorem disjoint (h : (free + ∑ p, own p).Nodup) (hp : p ≠ c) {x : α} (hx : x ∈ own p) :
    x ∉ free + own c := by
  rw [split free own c] at h
  have hle : own p ≤ ∑ q ∈ Finset.univ.erase c, own q :=
    Finset.single_le_sum (fun q _ => Multiset.zero_le (own q))
      (Finset.mem_erase.mpr ⟨hp, Finset.mem_univ p⟩)
  exact fun hc => Multiset.disjoint_left.mp (Multiset.nodup_add.mp h).2.2 hc
    (Multiset.mem_of_le hle hx)

/-- `c` takes from what is free, or gives back. -/
theorem sum_eq (hother : ∀ p ≠ c, own' p = own p) (hc : free' + own' c = free + own c) :
    free' + ∑ p, own' p = free + ∑ p, own p := by
  rw [split free' own' c, split free own c, hc]
  congr 1
  exact Finset.sum_congr rfl fun p hp => hother p (Finset.ne_of_mem_erase hp)

end Owners
