import Xv6.Proc.Defs

/-!
# What the table operations do

One specification per operation of `Xv6.Proc.Defs`. Later modules use these and
never unfold the scans.
-/

namespace Xv6

open TableScan

variable {t : Ptable} {p : Slot} {i : ℕ}

theorem firstUnused_eq_some {np : Slot} (h : firstUnused t = some np) : (t np).state = .unused := by
  simpa using (firstFrom_eq_some_iff.mp h).1.2

theorem firstRunnable_eq_some_iff :
    firstRunnable t i = some p ↔ (i ≤ p.val ∧ (t p).state = .runnable) ∧
      ∀ q : Slot, i ≤ q.val → q < p → (t q).state ≠ .runnable := by
  simp [firstRunnable, firstFrom_eq_some_iff]

theorem firstRunnable_eq_none_iff :
    firstRunnable t i = none ↔ ∀ q : Slot, i ≤ q.val → (t q).state ≠ .runnable := by
  simp [firstRunnable, firstFrom_eq_none_iff]

theorem firstRunnable_le {q : Slot} (hi : i ≤ q.val) (hq : (t q).state = .runnable) :
    ∃ p, firstRunnable t i = some p ∧ p ≤ q :=
  firstFrom_isSome_of hi (by simpa using hq)

/-- The inner loop ends at a `RUNNABLE` slot of maximal priority. -/
theorem highestPriority_spec (hp : (t p).state = .runnable) :
    (t (highestPriority t p)).state = .runnable ∧
      ∀ q, (t q).state = .runnable → (t q).priority ≤ (t (highestPriority t p)).priority := by
  constructor
  · simpa [highestPriority] using
      champion_valid (fun q => decide ((t q).state = .runnable)) (fun q => (t q).priority)
        (List.finRange NPROC) p (by simpa using hp)
  · intro q hq
    exact le_key_champion_of_mem (fun q => decide ((t q).state = .runnable))
      (fun q => (t q).priority) _ p (List.mem_finRange q) (by simpa using hq)

/-- The inner loop keeps the slot it starts from when no other is of higher priority. -/
theorem highestPriority_eq_self
    (hmax : ∀ q, (t q).state = .runnable → (t q).priority ≤ (t p).priority) :
    highestPriority t p = p := by
  apply champion_eq_self
  intro q _ hq
  exact hmax q (by simpa using hq)

theorem select_eq_none_iff : select t i = none ↔ firstRunnable t i = none := by
  simp [select]

theorem select_spec (h : select t i = some p) :
    (t p).state = .runnable ∧ ∀ q, (t q).state = .runnable → (t q).priority ≤ (t p).priority := by
  obtain ⟨f, hf, rfl⟩ := Option.map_eq_some_iff.mp h
  exact highestPriority_spec (firstRunnable_eq_some_iff.mp hf).1.2

theorem findPid_eq_some {pid : Int32} (h : findPid t pid = some p) : (t p).pid = pid := by
  simpa using (firstFrom_eq_some_iff.mp h).1.2

theorem findPid_eq_none {pid : Int32} (h : findPid t pid = none) (p : Slot) : (t p).pid ≠ pid := by
  simpa using firstFrom_eq_none_iff.mp h p (Nat.zero_le _)

/-- A pid that only one slot carries is found there. -/
theorem findPid_of_unique (h : ∀ q, (t q).pid = (t p).pid → q = p) :
    findPid t (t p).pid = some p := by
  cases hf : findPid t (t p).pid with
  | none => exact absurd rfl (findPid_eq_none hf p)
  | some q => rw [h q (findPid_eq_some hf)]

theorem firstZombieChild_eq_some {cur z : Slot} (h : firstZombieChild t cur = some z) :
    (t z).parent = some cur ∧ (t z).state = .zombie := by
  simpa using (firstFrom_eq_some_iff.mp h).1.2

theorem wakeup1_apply (t : Ptable) (chan : Option Chan) (i : Slot) :
    wakeup1 t chan i =
      { t i with
        state := if (t i).state = .sleeping ∧ (t i).chan = chan then .runnable
          else (t i).state } := by
  unfold wakeup1
  split <;> rfl

private theorem reparentSlot_apply (cur : Slot) (initproc : Option Slot) (t : Ptable)
    (z i : Slot) :
    reparentSlot cur initproc t z i =
      { t i with
        parent := if i = z ∧ (t i).parent = some cur then initproc else (t i).parent
        state := if ((t i).state = .sleeping ∧ (t i).chan = initproc.map .proc) ∧
          ((t z).parent = some cur ∧ (t z).state = .zombie) then .runnable else (t i).state } := by
  unfold reparentSlot
  by_cases hz : (t z).parent = some cur
  · by_cases hi : i = z
    · subst hi
      by_cases hs : (t i).state = .zombie <;> simp [hz, hs, wakeup1_apply]
    · by_cases hs : (t z).state = .zombie <;>
        simp [hz, hs, wakeup1_apply, Ptable.modify_of_ne _ _ hi, hi]
  · have hi : ¬ (i = z ∧ (t i).parent = some cur) := by
      rintro ⟨rfl, h⟩
      exact hz h
    simp [hz, hi]

private theorem foldl_reparentSlot_apply (cur : Slot) (initproc : Option Slot) (l : List Slot)
    (hl : l.Nodup) (t : Ptable) (i : Slot) :
    l.foldl (reparentSlot cur initproc) t i =
      { t i with
        parent := if i ∈ l ∧ (t i).parent = some cur then initproc else (t i).parent
        state := if ((t i).state = .sleeping ∧ (t i).chan = initproc.map .proc) ∧
          (∃ z ∈ l, (t z).parent = some cur ∧ (t z).state = .zombie) then .runnable
          else (t i).state } := by
  induction l generalizing t with
  | nil => simp
  | cons z l ih =>
    obtain ⟨hz, hl⟩ := List.nodup_cons.mp hl
    rw [List.foldl_cons, ih hl]
    -- the later rounds see the same zombies and the same children
    have hzom : ∀ w ∈ l, ((reparentSlot cur initproc t z w).parent = some cur ∧
        (reparentSlot cur initproc t z w).state = .zombie) ↔
        ((t w).parent = some cur ∧ (t w).state = .zombie) := by
      intro w hw
      have hwz : w ≠ z := fun h => hz (h ▸ hw)
      rw [reparentSlot_apply]
      simp only [hwz, false_and, if_false]
      constructor
      · rintro ⟨hp, hs⟩
        refine ⟨hp, ?_⟩
        split at hs
        · simp at hs
        · exact hs
      · rintro ⟨hp, hs⟩
        exact ⟨hp, by simp [hs]⟩
    have hex : (∃ w ∈ l, (reparentSlot cur initproc t z w).parent = some cur ∧
        (reparentSlot cur initproc t z w).state = .zombie) ↔
        ∃ w ∈ l, (t w).parent = some cur ∧ (t w).state = .zombie :=
      exists_congr fun w => and_congr_right fun hw => hzom w hw
    simp only [hex, reparentSlot_apply cur initproc t z i, List.mem_cons, exists_eq_or_imp]
    by_cases hs : (t i).state = .sleeping ∧ (t i).chan = initproc.map .proc
    · by_cases hc : (t z).parent = some cur ∧ (t z).state = .zombie
      · by_cases hiz : i = z
        · subst hiz
          simp [hc.2] at hs
        · simp [hs, hc, hiz]
      · by_cases hiz : i = z
        · subst hiz
          simp [hs, hz]
        · simp [hs, hc, hiz]
    · by_cases hiz : i = z
      · subst hiz
        simp [hs, hz]
      · simp [hs, hiz]

/-- The loop of `exit` gives every child of `cur` to init, and wakes an init
that sleeps in `wait` when one of them is a zombie. -/
theorem reparent_apply (t : Ptable) (cur : Slot) (initproc : Option Slot) (i : Slot) :
    reparent t cur initproc i =
      { t i with
        parent := if (t i).parent = some cur then initproc else (t i).parent
        state := if ((t i).state = .sleeping ∧ (t i).chan = initproc.map .proc) ∧
          (∃ z, (t z).parent = some cur ∧ (t z).state = .zombie) then .runnable
          else (t i).state } := by
  rw [reparent, foldl_reparentSlot_apply cur initproc _ (List.nodup_finRange _)]
  simp [List.mem_finRange]

end Xv6
