import Mathlib.Data.List.FinRange
import Mathlib.Data.Fin.Basic

/-!
# Scans of a fixed-size table

Two loops over an array of `n` entries, as C code writes them: the search for
the first entry from an index on that satisfies a test, and the search that
keeps a champion and replaces it by every entry with a strictly larger key.
-/

namespace TableScan

variable {n : ℕ} {p : Fin n → Bool}

/-- The first index from `i` on that satisfies `p`. -/
def firstFrom (p : Fin n → Bool) (i : ℕ) : Option (Fin n) :=
  (List.finRange n).find? fun k => decide (i ≤ k.val) && p k

theorem firstFrom_eq_some_iff {i : ℕ} {k : Fin n} : firstFrom p i = some k ↔
      (i ≤ k.val ∧ p k = true) ∧ ∀ j : Fin n, i ≤ j.val → j < k → p j = false := by
  rw [firstFrom, ← Fin.find?_eq_find?_finRange, Fin.find?_eq_some_iff]
  simp only [Bool.and_eq_true, decide_eq_true_eq, Bool.and_eq_false_imp]
  exact and_congr_right fun _ => forall_congr' fun j => forall_comm

theorem firstFrom_eq_none_iff {i : ℕ} :
    firstFrom p i = none ↔ ∀ j : Fin n, i ≤ j.val → p j = false := by
  rw [firstFrom, ← Fin.find?_eq_find?_finRange, Fin.find?_eq_none_iff]
  simp only [Bool.and_eq_false_imp, decide_eq_true_eq]

theorem firstFrom_isSome_of {i : ℕ} {k : Fin n} (hi : i ≤ k.val) (hk : p k = true) :
    ∃ j, firstFrom p i = some j ∧ j ≤ k := by
  cases h : firstFrom p i with
  | none =>
    have := firstFrom_eq_none_iff.mp h k hi
    simp [hk] at this
  | some j =>
    refine ⟨j, rfl, not_lt.mp fun hlt => ?_⟩
    have := (firstFrom_eq_some_iff.mp h).2 k hi hlt
    simp [hk] at this

variable {α β : Type*} [LE β] [LT β] [DecidableLT β] (valid : α → Bool) (key : α → β)

/-- The entry a maximum search ends with: it starts with the champion `h` and
every valid entry whose key is strictly larger replaces the champion. -/
def champion (l : List α) (h : α) : α :=
  l.foldl (fun h x => if valid x = false then h else if key h < key x then x else h) h

omit [LE β] in
theorem champion_cons (x : α) (l : List α) (h : α) :
    champion valid key (x :: l) h =
      champion valid key l
        (if valid x = false then h else if key h < key x then x else h) := rfl

omit [LE β] in
/-- The champion is the initial one or a valid entry. -/
theorem champion_valid (l : List α) (h : α) (hv : valid h = true) :
    valid (champion valid key l h) = true := by
  induction l generalizing h with
  | nil => exact hv
  | cons x l ih =>
    rw [champion_cons]
    apply ih
    split
    · exact hv
    · next hx =>
      split
      · simpa using hx
      · exact hv

variable [Std.IsLinearOrder β] [Std.LawfulOrderLT β]

theorem key_le_key_champion (l : List α) (h : α) :
    key h ≤ key (champion valid key l h) := by
  induction l generalizing h with
  | nil => exact Std.le_refl _
  | cons x l ih =>
    rw [champion_cons]
    refine Std.le_trans ?_ (ih _)
    split
    · exact Std.le_refl _
    · split
      · next hlt => exact Std.le_of_lt hlt
      · exact Std.le_refl _

/-- No valid entry of the list has a larger key than the champion. -/
theorem le_key_champion_of_mem (l : List α) (h : α) {x : α} (hx : x ∈ l) (hv : valid x = true) :
    key x ≤ key (champion valid key l h) := by
  induction l generalizing h with
  | nil => simp at hx
  | cons y l ih =>
    rw [champion_cons]
    obtain rfl | hx := List.mem_cons.mp hx
    · refine Std.le_trans ?_ (key_le_key_champion valid key l _)
      rw [if_neg (by simp [hv])]
      split
      · exact Std.le_refl _
      · next hn => exact Std.not_lt.mp hn
    · exact ih _ hx

/-- A champion that no valid entry beats is kept. -/
theorem champion_eq_self (l : List α) (h : α)
    (hmax : ∀ x ∈ l, valid x = true → key x ≤ key h) : champion valid key l h = h := by
  induction l with
  | nil => rfl
  | cons x l ih =>
    have hx : (if valid x = false then h else if key h < key x then x else h) = h := by
      split
      · rfl
      · next hv =>
        rw [if_neg]
        exact Std.not_lt.mpr (hmax x List.mem_cons_self (by simpa using hv))
    rw [champion_cons, hx]
    exact ih fun y hy => hmax y (List.mem_cons_of_mem x hy)

/-- The champion is the initial one, or beats it. -/
theorem champion_eq_or_lt (l : List α) (h : α) :
    champion valid key l h = h ∨ key h < key (champion valid key l h) := by
  induction l generalizing h with
  | nil => exact Or.inl rfl
  | cons x l ih =>
    rw [champion_cons]
    split
    · exact ih h
    · split
      · next hlt =>
        exact Or.inr (Std.lt_of_lt_of_le hlt (key_le_key_champion valid key l x))
      · exact ih h

end TableScan
