import Mathlib.Data.Nat.Notation
import Mathlib.Logic.Function.Basic
import Mathlib.Tactic.SplitIfs

/-!
# Tables of slots

A list of slots, of which some are empty and the others hold a key with its value. As
long as no key is there twice such a table is a finite map. A new key goes to the
first empty slot, or to the end if there is none; a key is removed by emptying its slot.
-/

namespace Slots

open Function

variable {K V : Type}

/-- What slot `i` holds. -/
def entry (l : List (Option (K × V))) (i : ℕ) : Option (K × V) := l[i]?.join

/-- No key is in two slots. -/
def Distinct (l : List (Option (K × V))) : Prop :=
  ∀ i j k v w, entry l i = some (k, v) → entry l j = some (k, w) → i = j

/-- Slot `i` is written; the slot at the end is a new one. -/
def put (l : List (Option (K × V))) (i : ℕ) (e : Option (K × V)) : List (Option (K × V)) :=
  if i < l.length then l.set i e else l ++ [e]

/-- The first empty slot, or the end. -/
def firstFree (l : List (Option (K × V))) : ℕ :=
  ((List.range l.length).find? fun i => (entry l i).isNone).getD l.length

/-- The value of a key, and its slot. -/
def lookup [DecidableEq K] (l : List (Option (K × V))) (k : K) : Option (V × ℕ) :=
  (List.range l.length).findSome? fun i =>
    (entry l i).bind fun e => if e.1 = k then some (e.2, i) else none

variable {l : List (Option (K × V))} {i j : ℕ} {k : K} {v : V} {e : Option (K × V)}

theorem lt_of_entry (h : entry l i = some (k, v)) : i < l.length := by
  by_contra hi
  rw [entry, List.getElem?_eq_none (Nat.le_of_not_lt hi)] at h
  cases h

theorem entry_put (hi : i ≤ l.length) : entry (put l i e) j = if j = i then e else entry l j := by
  rw [entry, entry, put]
  split
  · next hlt =>
    rw [List.getElem?_set]
    split_ifs with h1 h2 h2
    · rfl
    · exact absurd h1.symm h2
    · exact absurd h2.symm h1
    · rfl
  · obtain rfl : i = l.length := by omega
    split
    · next hj => rw [hj, List.getElem?_concat_length, Option.join_some]
    · next hj =>
      by_cases hlt : j < l.length
      · rw [List.getElem?_append_left hlt]
      · rw [List.getElem?_eq_none (Nat.le_of_not_lt hlt), List.getElem?_eq_none]
        rw [List.length_append, List.length_singleton]
        omega

/-! ### The first empty slot -/

theorem firstFree_le (l : List (Option (K × V))) : firstFree l ≤ l.length := by
  rw [firstFree]
  cases h : (List.range l.length).find? fun i => (entry l i).isNone with
  | none => exact Nat.le_refl _
  | some i => exact Nat.le_of_lt (List.mem_range.mp (List.mem_of_find?_eq_some h))

theorem entry_firstFree (l : List (Option (K × V))) : entry l (firstFree l) = none := by
  rw [firstFree]
  cases h : (List.range l.length).find? fun i => (entry l i).isNone with
  | none => rw [entry, Option.getD_none, List.getElem?_eq_none (Nat.le_refl _), Option.join_none]
  | some i =>
    have hnone := List.find?_some h
    exact Option.isNone_iff_eq_none.mp hnone

/-- The end is used only if no slot is empty. -/
theorem firstFree_lt (hi : i < l.length) (h : entry l i = none) : firstFree l < l.length := by
  rw [firstFree]
  cases hfind : (List.range l.length).find? fun i => (entry l i).isNone with
  | none =>
    have hno := List.find?_eq_none.mp hfind i (List.mem_range.mpr hi)
    rw [h] at hno
    exact absurd rfl hno
  | some j => exact List.mem_range.mp (List.mem_of_find?_eq_some hfind)

/-! ### Looking up -/

section Lookup

variable [DecidableEq K]

theorem entry_of_lookup (h : lookup l k = some (v, i)) : entry l i = some (k, v) := by
  obtain ⟨j, -, hj⟩ := List.exists_of_findSome?_eq_some h
  obtain ⟨⟨k', v'⟩, he, hk⟩ := Option.bind_eq_some_iff.mp hj
  simp only at hk
  split at hk
  · next heq =>
    cases hk
    rw [he, heq]
  · cases hk

theorem lookup_eq_some (hl : Distinct l) : lookup l k = some (v, i) ↔ entry l i = some (k, v) := by
  refine ⟨entry_of_lookup, fun h => ?_⟩
  cases hlookup : lookup l k with
  | none =>
    have hno := List.findSome?_eq_none_iff.mp hlookup i (List.mem_range.mpr (lt_of_entry h))
    simp [h] at hno
  | some p =>
    obtain ⟨v', i'⟩ := p
    have h' := entry_of_lookup hlookup
    obtain rfl := hl _ _ _ _ _ h h'
    rw [h] at h'
    cases h'
    rfl

theorem lookup_eq_none (hl : Distinct l) : lookup l k = none ↔ ∀ i v, entry l i ≠ some (k, v) := by
  constructor
  · intro h i v he
    rw [(lookup_eq_some hl).mpr he] at h
    cases h
  · intro h
    cases hlookup : lookup l k with
    | none => rfl
    | some p => exact absurd (entry_of_lookup hlookup) (h p.2 p.1)

/-- Two maps are equal if they have the same entries. -/
theorem lookup_eq_update {l' : List (Option (K × V))} {r : Option (V × ℕ)} (hl : Distinct l)
    (hl' : Distinct l') (hself : lookup l' k = r)
    (hother : ∀ j k' v', k' ≠ k → (entry l' j = some (k', v') ↔ entry l j = some (k', v'))) :
    lookup l' = update (lookup l) k r := by
  funext k'
  by_cases hk : k' = k
  · rw [hk, update_self, hself]
  · rw [update_of_ne hk]
    refine Option.ext fun p => ?_
    rw [lookup_eq_some hl', lookup_eq_some hl]
    exact hother p.2 k' p.1 hk

end Lookup

/-! ### Adding and removing a key -/

theorem Distinct.put_some (hl : Distinct l) (hi : i ≤ l.length)
    (hk : ∀ j w, entry l j ≠ some (k, w)) : Distinct (put l i (some (k, v))) := by
  intro a b k' w w' ha hb
  rw [entry_put hi] at ha hb
  split_ifs at ha hb with h1 h2 h2
  · rw [h1, h2]
  · cases ha
    exact absurd hb (hk b w')
  · cases hb
    exact absurd ha (hk a w)
  · exact hl a b k' w w' ha hb

theorem Distinct.put_none (hl : Distinct l) (hi : i ≤ l.length) : Distinct (put l i none) := by
  intro a b k' w w' ha hb
  rw [entry_put hi] at ha hb
  split_ifs at ha hb
  exact hl a b k' w w' ha hb

variable [DecidableEq K]

/-- A key that is not there, put into an empty slot. -/
theorem lookup_put_some (hl : Distinct l) (hi : i ≤ l.length) (he : entry l i = none)
    (hk : lookup l k = none) :
    lookup (put l i (some (k, v))) = update (lookup l) k (some (v, i)) := by
  have hl' := hl.put_some (v := v) hi ((lookup_eq_none hl).mp hk)
  refine lookup_eq_update hl hl' ?_ fun j k' v' hk' => ?_
  · rw [lookup_eq_some hl', entry_put hi, if_pos rfl]
  · rw [entry_put hi]
    split
    · next hj =>
      rw [hj, he]
      refine iff_of_false (fun h => hk' ?_) (by simp)
      cases h
      rfl
    · exact Iff.rfl

/-- The slot of a key is emptied. -/
theorem lookup_put_none (hl : Distinct l) (he : entry l i = some (k, v)) :
    lookup (put l i none) = update (lookup l) k none := by
  have hi := Nat.le_of_lt (lt_of_entry he)
  have hl' := hl.put_none hi
  refine lookup_eq_update hl hl' ?_ fun j k' v' hk' => ?_
  · rw [lookup_eq_none hl']
    intro j w hj
    rw [entry_put hi] at hj
    split_ifs at hj with hji
    exact hji (hl j i k w v hj he)
  · rw [entry_put hi]
    split
    · next hj =>
      rw [hj, he]
      refine iff_of_false (by simp) fun h => hk' ?_
      cases h
      rfl
    · exact Iff.rfl

end Slots
