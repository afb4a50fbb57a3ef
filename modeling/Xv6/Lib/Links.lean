import Mathlib.Data.List.Basic
import Mathlib.Order.Lattice

/-!
# Linked cycles

Nodes that are linked by a function `next`: a path of nodes, and a cycle, which can be
entered at any of its nodes. What an insertion or a removal does to a cycle is stated at
the node before it; a cycle is first turned so that this node comes first.
-/

namespace Links

variable {α : Type} {next next' : α → α} {a b c : α} {l l' : List α}

/-- From `a` the links lead through `l` to `b`. -/
def Path (next : α → α) : α → List α → α → Prop
  | a, [], b => next a = b
  | a, c :: l, b => next a = c ∧ Path next c l b

theorem path_append : Path next a (l ++ c :: l') b ↔ Path next a l c ∧ Path next c l' b := by
  induction l generalizing a with
  | nil => exact Iff.rfl
  | cons d l ih => rw [List.cons_append, Path, Path, ih, and_assoc]

theorem Path.congr (h : Path next a l b) (heq : ∀ x ∈ a :: l, next' x = next x) :
    Path next' a l b := by
  induction l generalizing a with
  | nil => exact (heq a List.mem_cons_self).trans h
  | cons c l ih =>
    exact ⟨(heq a List.mem_cons_self).trans h.1,
      ih h.2 fun x hx => heq x (List.mem_cons_of_mem a hx)⟩

/-- The nodes of the list are linked in this order, and the last one to the first. -/
def Closed (next : α → α) : List α → Prop
  | [] => True
  | a :: l => Path next a l a

namespace Closed

/-- A cycle can be entered at any of its nodes. -/
theorem turn (h : Closed next (l ++ l')) : Closed next (l' ++ l) := by
  cases l with
  | nil => rwa [List.append_nil]
  | cons a l =>
    cases l' with
    | nil => rwa [List.append_nil] at h
    | cons b l' =>
      obtain ⟨hab, hba⟩ := path_append.mp h
      exact path_append.mpr ⟨hba, hab⟩

theorem congr (h : Closed next l) (heq : ∀ x ∈ l, next' x = next x) : Closed next' l := by
  cases l with
  | nil => trivial
  | cons a l => exact Path.congr h heq

/-- Node `b` is put in after `a`. -/
theorem insert (h : Closed next (a :: l)) (hb : next' a = b) (hnext : next' b = next a)
    (heq : ∀ x ∈ l, next' x = next x) : Closed next' (a :: b :: l) := by
  refine ⟨hb, ?_⟩
  cases l with
  | nil => exact hnext.trans h
  | cons c l => exact ⟨hnext.trans h.1, Path.congr h.2 heq⟩

/-- The node after `a` is taken out. -/
theorem remove (h : Closed next (a :: b :: l)) (hnext : next' a = next b)
    (heq : ∀ x ∈ l, next' x = next x) : Closed next' (a :: l) := by
  obtain ⟨-, h⟩ := h
  cases l with
  | nil => exact hnext.trans h
  | cons c l => exact ⟨hnext.trans h.1, Path.congr h.2 heq⟩

/-- The cycle seen from one of its nodes. -/
theorem exists_turn (h : Closed next l) (ha : a ∈ l) :
    ∃ m, Path next a m a ∧ (∀ x, x ∈ a :: m ↔ x ∈ l) ∧ m.length < l.length ∧
      (l.Nodup → a ∉ m) := by
  obtain ⟨l₁, l₂, rfl⟩ := List.append_of_mem ha
  have hperm : (l₁ ++ a :: l₂).Perm (a :: (l₂ ++ l₁)) := List.perm_append_comm
  refine ⟨l₂ ++ l₁, turn h, fun x => hperm.symm.mem_iff, ?_, fun hnodup => ?_⟩
  · simp only [List.length_append, List.length_cons]
    omega
  · exact (List.nodup_cons.mp (hperm.nodup_iff.mp hnodup)).1

/-- In a cycle that is in order, the next node is the next larger one, or the smallest after
the largest. -/
theorem next_cases [LinearOrder α] (h : Closed next l) (hl : l.Pairwise (· < ·)) (ha : a ∈ l) :
    (next a ∈ l) ∧ ((a < next a ∧ ∀ x ∈ l, x ≤ a ∨ next a ≤ x) ∨
      ((∀ x ∈ l, x ≤ a) ∧ ∀ x ∈ l, next a ≤ x)) := by
  obtain ⟨l₁, l₂, rfl⟩ := List.append_of_mem ha
  obtain ⟨hl₁, hl₂, hlt⟩ := List.pairwise_append.mp hl
  have hle : ∀ x ∈ l₁, x ≤ a := fun x hx => le_of_lt (hlt x hx a List.mem_cons_self)
  cases l₂ with
  | cons b l₂ =>
    obtain ⟨hb, -⟩ : next a = b ∧ _ := turn h
    rw [hb]
    rw [List.pairwise_cons, List.pairwise_cons] at hl₂
    refine ⟨by simp, .inl ⟨hl₂.1 b List.mem_cons_self, fun x hx => ?_⟩⟩
    simp only [List.mem_append, List.mem_cons] at hx
    rcases hx with hx | rfl | rfl | hx
    · exact .inl (hle x hx)
    · exact .inl le_rfl
    · exact .inr le_rfl
    · exact .inr (le_of_lt (hl₂.2.1 x hx))
  | nil =>
    cases l₁ with
    | nil =>
      have hself : next a = a := h
      rw [hself]
      simp
    | cons c l₁ =>
      obtain ⟨hc, -⟩ : next a = c ∧ _ := turn h
      rw [hc]
      refine ⟨by simp, .inr ⟨fun x hx => ?_, fun x hx => ?_⟩⟩
      · rcases List.mem_append.mp hx with hx | hx
        · exact hle x hx
        · exact le_of_eq (List.mem_singleton.mp hx)
      · rw [List.cons_append, List.mem_cons] at hx
        rcases hx with rfl | hx
        · exact le_rfl
        · exact le_of_lt ((List.pairwise_cons.mp hl).1 x hx)

end Closed

/-- The place of `b` in a list that is in order and has a smaller element. -/
theorem exists_split [LinearOrder α] (hl : (a :: l).Pairwise (· < ·)) (ha : a < b) (hb : b ∉ l) :
    ∃ l₁ q l₂, a :: l = l₁ ++ q :: l₂ ∧ (∀ x ∈ l₁, x < q) ∧ q < b ∧ ∀ x ∈ l₂, b < x := by
  induction l generalizing a with
  | nil => exact ⟨[], a, [], rfl, by simp, ha, by simp⟩
  | cons c l ih =>
    have htail := (List.pairwise_cons.mp hl).2
    by_cases hc : c < b
    · obtain ⟨l₁, q, l₂, heq, h₁, hq, h₂⟩ := ih htail hc fun h => hb (List.mem_cons_of_mem c h)
      refine ⟨a :: l₁, q, l₂, by rw [heq]; rfl, fun x hx => ?_, hq, h₂⟩
      rcases List.mem_cons.mp hx with rfl | hx
      · exact (List.pairwise_cons.mp hl).1 q (by rw [heq]; simp)
      · exact h₁ x hx
    · have hbc : b < c := lt_of_le_of_ne (not_lt.mp hc) fun h => hb (h ▸ List.mem_cons_self)
      refine ⟨[], a, c :: l, rfl, by simp, ha, fun x hx => ?_⟩
      rcases List.mem_cons.mp hx with rfl | hx
      · exact hbc
      · exact lt_trans hbc ((List.pairwise_cons.mp htail).1 x hx)

end Links
