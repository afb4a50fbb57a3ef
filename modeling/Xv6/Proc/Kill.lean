import Xv6.Proc.Dispatch

/-!
# Who is killed

`kill` takes the first slot with the given pid, whatever its state, and an
`UNUSED` slot carries pid 0 or the pid of a failed `fork`. `killed` is cleared
when a process is collected and not when a slot is allocated, so a mark on an
`UNUSED` slot waits for the next process there.
-/

namespace Xv6

variable {ncpu : ℕ}

/-- The action kills the process in slot `i`: a call of `kill` with its pid, or
a fatal trap that it takes. -/
def Kills (s : State ncpu) (a : Action ncpu) (i : Slot) : Prop :=
  (∃ c p, a = .call c p (.kill (s.proc i).pid)) ∨ ∃ c, a = .call c i .fault

/-- `kill` reaches only live processes: it returns 0 only for the pid of a slot in
use, a process that is marked as killed was killed since its allocation, and
`allocproc` returns an unmarked process. -/
def KillReachesLive (r : Run (@step ncpu)) : Prop :=
  (∀ k < r.length, ∀ c p pid, r.action k = .call c p (.kill pid) →
    (kill (r.state k).proc pid).2 = 0 →
    ∃ i, ((r.state k).proc i).state ≠ .unused ∧ ((r.state k).proc i).pid = pid) ∧
  (∀ k ≤ r.length, ∀ i, ((r.state k).proc i).state ≠ .unused →
    ((r.state k).proc i).killed = true →
    ∃ e < k, Kills (r.state e) (r.action e) i ∧
      ∀ m, e ≤ m → m ≤ k → ((r.state m).proc i).state ≠ .unused) ∧
  (∀ k < r.length, ∀ i, allocates (r.state k) (r.action k) = true →
    firstUnused (r.state k).proc = some i → ((r.state (k + 1)).proc i).killed = false)

/-- `kill` is not given the pid of an `UNUSED` slot, and no allocation fails for a
process that has been killed while under construction. -/
def Careful (s : State ncpu) (a : Action ncpu) : Prop :=
  (∀ c p pid, a = .call c p (.kill pid) → ∀ i, (s.proc i).pid = pid → (s.proc i).state ≠ .unused) ∧
    ∀ i, a.fails i = true → (s.proc i).killed = false

section

variable {s s' : State ncpu} {a : Action ncpu} {i : Slot}

theorem unused_not_killed_step (h : Inv s)
    (hk : ∀ i, (s.proc i).state = .unused → (s.proc i).killed = false) (hc : Careful s a)
    (hs : step s a = some s') (hi : (s'.proc i).state = .unused) :
    (s'.proc i).killed = false := by
  have heff := step_effect h hs i
  generalize s'.proc i = x at heff hi
  cases heff with
  | keep | account | changePrio => exact hk i hi
  | alloc | publish | dispatch => simp [Proc.alloc, Proc.dispatch] at hi
  | fill he | own he | fault _ he =>
    have := he.symm.trans hi
    simp at this
  | drop _ ha => exact hc.2 i ha
  | leave _ _ state hl => exact absurd hi hl.1
  | wake state hst =>
    refine hk i ?_
    obtain rfl | ⟨-, rfl⟩ := hst
    · exact hi
    · simp at hi
  | kill c p pid ha hf =>
    have hu : (s.proc i).state = .unused := by
      simp only [Proc.kill] at hi
      split at hi
      · simp at hi
      · exact hi
    exact absurd hu (hc.1 c p pid ha i (findPid_eq_some hf))
  | reap _ k => cases k <;> rfl

/-- A mark on a process in use is new, and then it is killed in this step, or it
was there before. -/
theorem killed_step (h : Inv s)
    (hk : ∀ i, (s.proc i).state = .unused → (s.proc i).killed = false) (hc : Careful s a)
    (hs : step s a = some s') (hi : (s'.proc i).state ≠ .unused)
    (hkd : (s'.proc i).killed = true) :
    (s.proc i).state ≠ .unused ∧ (Kills s a i ∨ (s.proc i).killed = true) := by
  have heff := step_effect h hs i
  generalize s'.proc i = x at heff hi hkd
  cases heff with
  | keep | account | changePrio => exact ⟨hi, Or.inr hkd⟩
  | alloc hu =>
    have := hk i (firstUnused_eq_some hu)
    exact absurd hkd (by simp [Proc.alloc, this])
  | fill he | publish he | dispatch _ he | leave _ he | own he =>
    exact ⟨by simp [he], Or.inr hkd⟩
  | drop => exact absurd rfl hi
  | wake state hst =>
    refine ⟨fun hu => ?_, Or.inr hkd⟩
    obtain rfl | ⟨hsl, -⟩ := hst
    · exact hi hu
    · simp [hu] at hsl
  | fault c he ha => exact ⟨by simp [he], Or.inl (Or.inr ⟨c, ha⟩)⟩
  | kill c p pid ha hf =>
    obtain rfl := findPid_eq_some hf
    exact ⟨hc.1 c p _ ha i rfl, Or.inl (Or.inl ⟨c, p, ha⟩)⟩
  | reap _ k => cases k <;> exact absurd rfl hi

theorem kill_eq_zero_iff {t : Ptable} {pid : Int32} :
    (kill t pid).2 = 0 ↔ ∃ i, (t i).pid = pid := by
  unfold kill
  cases hf : findPid t pid with
  | none => simpa using findPid_eq_none hf
  | some i => simpa using ⟨i, findPid_eq_some hf⟩

end

/-- In a run from boot whose steps are all careful, only live processes are
killed. -/
theorem killReachesLive_of_careful {bsp : Fin ncpu} (r : Run (@step ncpu))
    (h0 : r.state 0 = State.boot bsp) (hc : ∀ k < r.length, Careful (r.state k) (r.action k)) :
    KillReachesLive r := by
  have hinv : ∀ k ≤ r.length, Inv (r.state k) := fun k => (h0 ▸ Inv.boot bsp : Inv _).along r
  have hun : ∀ k ≤ r.length, ∀ i, ((r.state k).proc i).state = .unused →
      ((r.state k).proc i).killed = false := by
    intro k hk
    refine r.induct_between (P := fun k => ∀ i, ((r.state k).proc i).state = .unused →
      ((r.state k).proc i).killed = false) (Nat.zero_le k) hk ?_ ?_
    · intro i _
      rw [h0]
      rfl
    · intro m _ hmk hs ih i hi
      exact unused_not_killed_step (hinv m (by omega)) ih (hc m (by omega)) hs hi
  refine ⟨?_, ?_, ?_⟩
  · intro k hk c p pid ha hret
    obtain ⟨i, hi⟩ := kill_eq_zero_iff.mp hret
    exact ⟨i, (hc k hk).1 c p pid ha i hi, hi⟩
  · intro k hk
    refine r.induct_between (P := fun k => ∀ i, ((r.state k).proc i).state ≠ .unused →
      ((r.state k).proc i).killed = true → ∃ e < k, Kills (r.state e) (r.action e) i ∧
        ∀ m, e ≤ m → m ≤ k → ((r.state m).proc i).state ≠ .unused) (Nat.zero_le k) hk ?_ ?_
    · intro i hi
      rw [h0] at hi
      exact absurd rfl hi
    · intro m _ hmk hs ih i hi hkd
      obtain ⟨hu, hnew | hold⟩ :=
        killed_step (hinv m (by omega)) (hun m (by omega)) (hc m (by omega)) hs hi hkd
      · refine ⟨m, Nat.lt_succ_self m, hnew, fun j hj hj' => ?_⟩
        obtain rfl | rfl : j = m ∨ j = m + 1 := by omega
        · exact hu
        · exact hi
      · obtain ⟨e, he, hkill, huse⟩ := ih i hu hold
        refine ⟨e, by omega, hkill, fun j hj hj' => ?_⟩
        by_cases hjm : j = m + 1
        · rw [hjm]
          exact hi
        · exact huse j hj (by omega)
  · intro k hk i _ hu
    by_cases hi : ((r.state (k + 1)).proc i).state = .unused
    · exact hun (k + 1) hk i hi
    · cases hkd : ((r.state (k + 1)).proc i).killed with
      | false => rfl
      | true =>
        have hused := (killed_step (hinv k hk.le) (hun k hk.le) (hc k hk) (r.next k hk) hi hkd).1
        exact absurd (firstUnused_eq_some hu) hused

/-- `Careful`, as a check. -/
def careful (s : State ncpu) (a : Action ncpu) : Bool :=
  (match a with
    | .call _ _ (.kill pid) =>
      decide (∀ i, (s.proc i).pid = pid → (s.proc i).state ≠ .unused)
    | _ => true) &&
  decide (∀ i, a.fails i = true → (s.proc i).killed = false)

theorem Careful.of_check {s : State ncpu} {a : Action ncpu} (h : careful s a = true) :
    Careful s a := by
  obtain ⟨hkill, hfail⟩ := Bool.and_eq_true_iff.mp h
  refine ⟨?_, of_decide_eq_true hfail⟩
  rintro c p pid rfl
  exact of_decide_eq_true hkill

/-- The first process makes a child, kills it, and fails to make another one. -/
def killActions : List (Action 1) :=
  bootActions ++ forkActions 0 .fork 1 ++
    [.call cpu0 0 (.kill 2), .call cpu0 0 (.fork .fork), .call cpu0 0 (.kalloc .fork 2 0)]

theorem killReachesLive_killActions :
    KillReachesLive (Run.ofActions (State.boot cpu0) killActions (by decide +kernel)) := by
  have hcheck : Run.always step careful (State.boot cpu0) killActions = true := by decide +kernel
  refine killReachesLive_of_careful _ (Run.ofActions_state_zero ..) fun k hk => ?_
  exact Careful.of_check (Run.always_ofActions hcheck _ hk)

/-- `kill(0)` marks the first free slot, and `fork` puts a process there. -/
def killZeroRun : Run (@step 1) :=
  Run.ofActions (State.boot cpu0)
  (bootActions ++ [.call cpu0 0 (.kill 0), .call cpu0 0 (.fork .fork)])
    (by decide +kernel)

theorem killZeroRun_kills_newborn :
    (kill (killZeroRun.state 7).proc 0).2 = 0 ∧
    (∀ i, ((killZeroRun.state 7).proc i).pid = 0 → ((killZeroRun.state 7).proc i).state = .unused) ∧
    ((killZeroRun.state 9).proc 1).state = .embryo ∧
    ((killZeroRun.state 9).proc 1).killed = true ∧ ¬ KillReachesLive killZeroRun := by
  have hkd : ((killZeroRun.state (8 + 1)).proc 1).killed = true := by decide +kernel
  refine ⟨by decide +kernel, by decide +kernel, by decide +kernel, hkd, ?_⟩
  rintro ⟨-, -, h⟩
  rw [h 8 (by decide) 1 (by decide +kernel) (by decide +kernel)] at hkd
  exact absurd hkd (by decide)

end Xv6
