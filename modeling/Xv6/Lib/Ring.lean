import Mathlib.Data.List.Nodup
import Mathlib.Logic.Function.Basic

/-!
# Circular doubly linked lists

The nodes are those of a type and a sentinel, written `none`. `Segment` says that
two pointer fields describe a list between two nodes; `IsRing` that they
describe one from the sentinel back to it. Unlinking a node and inserting one behind
the sentinel are the usual pointer assignments, in their order.
-/

structure Links (α : Type*) where
  next : Option α → Option α
  prev : Option α → Option α

namespace Links

variable {α : Type*} [DecidableEq α]

/-- `b->next->prev = b->prev; b->prev->next = b->next;` -/
def unlink (l : Links α) (b : α) : Links α :=
  let l₁ := { l with prev := Function.update l.prev (l.next (some b)) (l.prev (some b)) }
  { l₁ with next := Function.update l₁.next (l₁.prev (some b)) (l₁.next (some b)) }

/-- `b->next = head.next; b->prev = &head; head.next->prev = b; head.next = b;` -/
def pushFront (l : Links α) (b : α) : Links α :=
  let l₁ := { l with next := Function.update l.next (some b) (l.next none) }
  let l₂ := { l₁ with prev := Function.update l₁.prev (some b) none }
  let l₃ := { l₂ with prev := Function.update l₂.prev (l₂.next none) (some b) }
  { l₃ with next := Function.update l₃.next none (some b) }

end Links

section Ring

variable {α : Type*} {l l' : Links α} {a z : Option α} {b : α} {xs ys : List α}

/-- From `a` the pointers lead over the nodes `xs` to `z`, and back. -/
def Segment (l : Links α) (a : Option α) : List α → Option α → Prop
  | [], z => l.next a = z ∧ l.prev z = a
  | x :: xs, z => l.next a = some x ∧ l.prev (some x) = a ∧ Segment l (some x) xs z

/-- The ring of the sentinel and the nodes `xs`. -/
structure IsRing (l : Links α) (xs : List α) : Prop where
  nodup : xs.Nodup
  segment : Segment l none xs none

theorem Segment.congr (h : Segment l a xs z) (hnext : ∀ x, x = a ∨ (∃ y ∈ xs, x = some y) →
      l'.next x = l.next x)
    (hprev : ∀ x, x = z ∨ (∃ y ∈ xs, x = some y) → l'.prev x = l.prev x) : Segment l' a xs z := by
  induction xs generalizing a with
  | nil => exact ⟨(hnext a (Or.inl rfl)).trans h.1, (hprev z (Or.inl rfl)).trans h.2⟩
  | cons x xs ih =>
    obtain ⟨h₁, h₂, h₃⟩ := h
    refine ⟨(hnext a (Or.inl rfl)).trans h₁,
      (hprev (some x) (Or.inr ⟨x, List.mem_cons_self, rfl⟩)).trans h₂, ih h₃ ?_ ?_⟩
    · rintro y (rfl | ⟨w, hw, rfl⟩)
      · exact hnext _ (Or.inr ⟨x, List.mem_cons_self, rfl⟩)
      · exact hnext _ (Or.inr ⟨w, List.mem_cons_of_mem _ hw, rfl⟩)
    · rintro y (rfl | ⟨w, hw, rfl⟩)
      · exact hprev _ (Or.inl rfl)
      · exact hprev _ (Or.inr ⟨w, List.mem_cons_of_mem _ hw, rfl⟩)

theorem segment_append : Segment l a (xs ++ b :: ys) z ↔
    Segment l a xs (some b) ∧ Segment l (some b) ys z := by
  induction xs generalizing a with
  | nil => simp [Segment, and_assoc]
  | cons x xs ih => simp [Segment, ih, and_assoc]

/-- The last node before `z` is where `z` points back to. -/
theorem Segment.prev_eq (h : Segment l a xs z) : l.prev z = a ∨ ∃ x ∈ xs, l.prev z = some x := by
  induction xs generalizing a with
  | nil => exact Or.inl h.2
  | cons x xs ih =>
    obtain h' | ⟨y, hy, h'⟩ := ih h.2.2
    · exact Or.inr ⟨x, List.mem_cons_self, h'⟩
    · exact Or.inr ⟨y, List.mem_cons_of_mem _ hy, h'⟩

theorem Segment.next_eq (h : Segment l a xs z) : l.next a = z ∨ ∃ x ∈ xs, l.next a = some x := by
  cases xs with
  | nil => exact Or.inl h.1
  | cons x xs => exact Or.inr ⟨x, List.mem_cons_self, h.1⟩

theorem Segment.swap (h : Segment l a xs z) : Segment ⟨l.prev, l.next⟩ z xs.reverse a := by
  induction xs generalizing a with
  | nil => exact ⟨h.2, h.1⟩
  | cons x xs ih =>
    rw [List.reverse_cons]
    exact segment_append.mpr ⟨ih h.2.2, h.2.1, h.1⟩

variable [DecidableEq α]

theorem Segment.unlink (h₁ : Segment l a xs (some b)) (h₂ : Segment l (some b) ys z)
    (hb : b ∉ xs ++ ys) (hnodup : (xs ++ ys).Nodup) (hab : a ≠ some b) (hzb : z ≠ some b)
    (ha : ∀ x ∈ xs ++ ys, a ≠ some x) (hz : ∀ x ∈ xs ++ ys, z ≠ some x) :
    Segment (l.unlink b) a (xs ++ ys) z := by
  have hnb : l.next (some b) ≠ some b := by
    obtain h | ⟨x, hx, h⟩ := h₂.next_eq
    · exact h ▸ hzb
    · rw [h]
      rintro ⟨⟩
      exact hb (List.mem_append_right _ hx)
  have hnext : (l.unlink b).next = Function.update l.next (l.prev (some b)) (l.next (some b)) := by
    simp [Links.unlink, Function.update_of_ne hnb.symm]
  have hprev : (l.unlink b).prev = Function.update l.prev (l.next (some b)) (l.prev (some b)) := rfl
  induction xs generalizing a with
  | nil =>
    obtain ⟨-, hpb⟩ := h₁
    cases ys with
    | nil =>
      obtain ⟨hnb, -⟩ := h₂
      simp [Segment, hnext, hprev, hpb, hnb]
    | cons y ys =>
      obtain ⟨hnb, hpy, hys⟩ := h₂
      refine ⟨by simp [hnext, hpb, hnb], by simp [hprev, hpb, hnb], hys.congr ?_ ?_⟩
      · -- only the field of `a` changes
        intro x hx
        rw [hnext, hpb, Function.update_of_ne]
        rintro rfl
        obtain rfl | ⟨w, hw, rfl⟩ := hx
        · exact ha y List.mem_cons_self rfl
        · exact ha w (List.mem_cons_of_mem _ hw) rfl
      · intro x hx
        rw [hprev, hnb, Function.update_of_ne]
        rintro rfl
        obtain hz' | ⟨w, hw, hyw⟩ := hx
        · exact hz y List.mem_cons_self hz'.symm
        · cases hyw
          exact (List.nodup_cons.mp hnodup).1 hw
  | cons x xs ih =>
    obtain ⟨hax, hxa, hxs⟩ := h₁
    rw [List.cons_append] at hb hnodup ha hz
    obtain ⟨hx, hnodup⟩ := List.nodup_cons.mp hnodup
    rw [List.mem_cons, not_or] at hb
    refine ⟨?_, ?_, ih hxs hb.2 hnodup ?_ ?_ ?_⟩
    · rw [hnext, Function.update_of_ne, hax]
      obtain h | ⟨w, hw, h⟩ := hxs.prev_eq
      · exact h ▸ ha x List.mem_cons_self
      · exact h ▸ ha w (List.mem_cons_of_mem _ (List.mem_append_left _ hw))
    · rw [hprev, Function.update_of_ne, hxa]
      obtain h | ⟨w, hw, h⟩ := h₂.next_eq
      · exact h ▸ (hz x List.mem_cons_self).symm
      · rw [h]
        rintro ⟨⟩
        exact hx (List.mem_append_right _ hw)
    · rintro ⟨⟩
      exact hb.1 rfl
    · rintro w hw ⟨⟩
      exact hx hw
    · exact fun w hw => hz w (List.mem_cons_of_mem _ hw)

theorem IsRing.unlink (h : IsRing l xs) (hb : b ∈ xs) : IsRing (l.unlink b) (xs.erase b) := by
  obtain ⟨u, v, hbu, rfl, he⟩ := List.exists_erase_eq hb
  obtain ⟨h₁, h₂⟩ := segment_append.mp h.segment
  have hnodup : (u ++ v).Nodup := he ▸ h.nodup.erase b
  have hbv : b ∉ v := (List.nodup_cons.mp (List.nodup_append.mp h.nodup).2.1).1
  rw [he]
  exact ⟨hnodup, h₁.unlink h₂ (by simp [hbu, hbv]) hnodup (by simp) (by simp) (by simp) (by simp)⟩

theorem IsRing.pushFront (h : IsRing l xs) (hb : b ∉ xs) : IsRing (l.pushFront b) (b :: xs) := by
  refine ⟨List.nodup_cons.mpr ⟨hb, h.nodup⟩, ?_⟩
  cases xs with
  | nil =>
    obtain ⟨h₁, -⟩ := h.segment
    simp [Segment, Links.pushFront, h₁]
  | cons x xs =>
    obtain ⟨h₁, -, h₃⟩ := h.segment
    obtain ⟨hx, -⟩ := List.nodup_cons.mp h.nodup
    rw [List.mem_cons, not_or] at hb
    have hxb : x ≠ b := Ne.symm hb.1
    refine ⟨by simp [Links.pushFront], by simp [Links.pushFront, h₁, hb.1],
      by simp [Links.pushFront, h₁], by simp [Links.pushFront, h₁], h₃.congr ?_ ?_⟩
    · rintro w (rfl | ⟨y, hy, rfl⟩)
      · simp [Links.pushFront, hxb]
      · have hyb : y ≠ b := by
          rintro rfl
          exact hb.2 hy
        simp [Links.pushFront, hyb]
    · rintro w (rfl | ⟨y, hy, rfl⟩)
      · simp [Links.pushFront, h₁]
      · have hyb : y ≠ b := by
          rintro rfl
          exact hb.2 hy
        have hyx : y ≠ x := by
          rintro rfl
          exact hx hy
        simp [Links.pushFront, h₁, hyb, hyx]

/-- Moving a node to the front. -/
theorem IsRing.moveFront (h : IsRing l xs) (hb : b ∈ xs) :
    IsRing ((l.unlink b).pushFront b) (b :: xs.erase b) :=
  (h.unlink hb).pushFront (h.nodup.not_mem_erase)

end Ring

/-! ### Walking round the ring -/

section Visits

variable {α : Type*} {f : Option α → Option α} {a : Option α} {xs : List α} {l : Links α}

/-- From `a` on `f` leads over the nodes `xs`, one after the other, to the sentinel. -/
def Visits (f : Option α → Option α) (a : Option α) : List α → Prop
  | [] => f a = none
  | x :: xs => f a = some x ∧ Visits f (some x) xs

theorem Segment.visits (h : Segment l a xs none) : Visits l.next a xs := by
  induction xs generalizing a with
  | nil => exact h.1
  | cons x xs ih => exact ⟨h.1, ih h.2.2⟩

theorem IsRing.visits_next (h : IsRing l xs) : Visits l.next none xs :=
  h.segment.visits

theorem IsRing.visits_prev (h : IsRing l xs) : Visits l.prev none xs.reverse :=
  h.segment.swap.visits

/-- `for (b = first; b != &head; b = f(b)) if (test(b)) return b;` -/
def ringScan (f : Option α → Option α) (test : α → Bool) : ℕ → Option α → Option α
  | 0, _ => none
  | _ + 1, none => none
  | fuel + 1, some b => if test b then some b else ringScan f test fuel (f (some b))

/-- The loop ends, and finds the first node with the property. -/
theorem Visits.ringScan_eq (h : Visits f a xs) (test : α → Bool) {fuel : ℕ}
    (hfuel : xs.length ≤ fuel) :
    ringScan f test fuel (f a) = xs.find? test := by
  induction xs generalizing a fuel with
  | nil =>
    rw [show f a = none from h]
    cases fuel <;> rfl
  | cons x xs ih =>
    cases fuel with
    | zero => simp at hfuel
    | succ fuel =>
      rw [h.1, ringScan, List.find?_cons]
      cases test x with
      | true => rfl
      | false => exact ih h.2 (by simpa using hfuel)

end Visits
