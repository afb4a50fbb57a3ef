import Mathlib.Algebra.BigOperators.Ring.Finset
import Mathlib.Algebra.Order.BigOperators.Group.Finset
import Xv6.Log.Group

/-!
# The space that `begin_op` reserves

`begin_op` lets an operation in when `MAXOPBLOCKS` blocks for it and for each of
those in progress still fit in `LOGSIZE`. The log on the disk has `log.size - 1`
blocks besides its header, and `log_write` panics when it finds that many. The
bound that `begin_op` keeps is thus one block too large when `log.size` is
`LOGSIZE`, and `log_write` tests `lh.n` before it takes the lock.
-/

namespace Xv6

namespace Sync

namespace Log

variable {B P : Type} [DecidableEq B] [Fintype P]

/-- The blocks that an operation may still add to the log. -/
def Loc.reserve (quota : ℕ) (l : Loc B) : ℤ := if l.inOp then quota - l.used.length else 0

/-- The log and what the operations in progress may add to it. -/
def Reserved (quota : ℕ) (K : ℤ) (d : Log B) (ls : P → Loc B) : Prop :=
  (d.block.length : ℤ) + ∑ p, (ls p).reserve quota ≤ K

section Reserve

variable {size quota : ℕ} {x : Call B} {K : ℤ} {d d' : Log B} {ls : P → Loc B} {p : P} {l' : Loc B}

theorem Loc.used_length_le (l : Loc B) : l.used.length ≤ l.passed.length := by
  cases l with
  | writeTest b used | writeAcquire b used | writeAppend b used =>
    exact (List.sublist_insert b used).length_le
  | _ => exact le_rfl

omit [DecidableEq B] in
theorem Loc.reserve_eq_zero {l : Loc B} (h : l.inOp = false) : l.reserve quota = 0 := by
  simp [Loc.reserve, h]

theorem Consistent.reserve_nonneg (h : Consistent quota d ls) (p : P) :
    0 ≤ (ls p).reserve quota := by
  have := (ls p).used_length_le.trans (h.ok p).quota
  unfold Loc.reserve
  split <;> omega

theorem Consistent.sum_reserve_le (h : Consistent quota d ls) :
    ∑ p, (ls p).reserve quota ≤ quota * d.outstanding := by
  rw [h.outstanding, Finset.mul_sum]
  refine Finset.sum_le_sum fun q _ => ?_
  unfold Loc.reserve
  split
  · simp
  · simp

/-- `begin_op` keeps the bound `K` when its own test implies it. -/
theorem Reserved.step [DecidableEq P]
    (hK : ∀ n o : ℤ, 0 ≤ o → (o = 0 → n = 0) → n + (o + 1) * MAXOPBLOCKS ≤ LOGSIZE →
      n + quota * (o + 1) ≤ K)
    (hc : Consistent quota d ls) (h : Reserved quota K d ls)
    (hs : LogStep size quota x d (ls p) d' l') : Reserved quota K d' (Function.update ls p l') := by
  have hnn := hc.reserve_nonneg p
  unfold Reserved at h ⊢
  rw [sum_update (Loc.reserve quota)]
  -- a step that adds nothing to the log and reserves nothing more
  have hkeep : ∀ {d' : Log B} {l' : Loc B}, d'.block.length ≤ d.block.length →
      l'.reserve quota ≤ (ls p).reserve quota →
      (d'.block.length : ℤ) +
        (∑ q, (ls q).reserve quota + (l'.reserve quota - (ls p).reserve quota)) ≤ K := by
    intro d' l' hlen hres
    omega
  have hout : ∀ l' : Loc B, l'.inOp = false → l'.reserve quota ≤ (ls p).reserve quota :=
    fun _ hl' => (Loc.reserve_eq_zero hl').trans_le hnn
  cases hs with
  | quiet hop _ hused => exact hkeep le_rfl (by simp only [Loc.reserve, hop, hused, le_refl])
  | call _ hl | tooBig _ hl =>
    refine hkeep le_rfl ?_
    rw [hl]
    exact le_rfl
  | wait | finish | last | start | copy | copied | install | done => exact hkeep le_rfl (hout _ rfl)
  | clear => exact hkeep (Nat.zero_le _) (hout _ rfl)
  | panic hl hcom =>
    exact absurd (hc.not_committing (p := p) (by simp [hl, Loc.inOp])) (by simp [hcom])
  | enter hl hfull =>
    obtain ⟨hcom, hroom⟩ := not_or.mp hfull
    have hsum := hc.sum_reserve_le
    have hle := hK d.block.length d.outstanding hc.outstanding_nonneg
      (fun ho => by simp [hc.empty ho (by simpa using hcom)]) (not_lt.mp hroom)
    have h0 : (ls p).reserve quota = 0 := by simp [hl, Loc.reserve, Loc.inOp]
    have h1 : (Loc.beginRelease : Loc B).reserve quota = quota := by
      simp [Loc.reserve, Loc.inOp, Loc.used]
    rw [mul_add, mul_one] at hle
    dsimp only
    omega
  | @append b used hl =>
    have hus := (hc.ok p).used
    have h0 : (ls p).reserve quota = quota - used.length := by
      simp [hl, Loc.reserve, Loc.inOp, Loc.used]
    have h1 : (Loc.writeRelease (used.insert b)).reserve quota =
        quota - (used.insert b).length := by
      simp [Loc.reserve, Loc.inOp, Loc.used]
    simp only [hl, Loc.used] at hus
    by_cases hb : b ∈ d.block
    · have := (List.sublist_insert b used).length_le
      simp only [absorb, hb, if_true]
      omega
    · have hins : (used.insert b).length = used.length + 1 :=
        List.length_insert_of_not_mem fun hmem => hb (hus hmem)
      simp only [absorb, hb, if_false, List.length_append, List.length_singleton]
      push_cast
      omega

/-- In every reachable state the log keeps within `K`. -/
theorem length_le_of_reserve [DecidableEq P]
    (hK : ∀ n o : ℤ, 0 ≤ o → (o = 0 → n = 0) → n + (o + 1) * MAXOPBLOCKS ≤ LOGSIZE →
      n + quota * (o + 1) ≤ K) (hK0 : 0 ≤ K) {s : State P Unit Unit (Log B) (Loc B)}
    (h : Reachable (code size quota) .idle init s) : (s.data.block.length : ℤ) ≤ K := by
  have hinv : ClientInv (code (B := B) (P := P) size quota)
      fun d ls => Consistent quota d ls ∧ Reserved quota K d ls :=
    ⟨fun h hop => ⟨h.1.step (.of_access hop), Reserved.step hK h.1 h.2 (.of_access hop)⟩,
      fun h hop hl' => ⟨h.1.step (.of_next hop hl'), Reserved.step hK h.1 h.2 (.of_next hop hl')⟩⟩
  have hboth := h.client hinv
    ⟨.init, by simpa [Reserved, Loc.reserve, init, Loc.inOp] using hK0⟩
  have hsum : 0 ≤ ∑ p, (s.locs p).reserve quota :=
    Finset.sum_nonneg fun p _ => hboth.1.reserve_nonneg p
  have hle := hboth.2
  unfold Reserved at hle
  omega

/-- The blocks passed to `log_write` since the last commit. -/
def passing (d : Log B) (ls : P → Loc B) : Finset B :=
  d.block.toFinset ∪ Finset.univ.biUnion fun p => (ls p).inFlight

/-- The step is a call of `log_write(b)`, with its first test. -/
def LogWrites (s : State P Unit Unit (Log B) (Loc B)) (a : Action P (Call B)) (b : B) : Prop :=
  ∃ p used, a = .step p (.logWrite b) ∧ s.pc p = .run (.op used)

/-- A step adds to the log a block in flight; a block in flight is that of a call. -/
theorem LogStep.inFlight {l : Loc B} (hs : LogStep size quota x d l d' l') :
    d'.block.toFinset ∪ l'.inFlight ⊆ d.block.toFinset ∪ l.inFlight ∨
    ∃ b used, x = .logWrite b ∧ l = .op used ∧
      d'.block.toFinset ∪ l'.inFlight ⊆ insert b (d.block.toFinset ∪ l.inFlight) := by
  cases hs with
  | quiet _ _ _ _ _ hflight _ _ => exact Or.inl (Finset.union_subset_union_right hflight)
  | @call b used hx hl _ =>
    refine Or.inr ⟨b, used, hx, hl, ?_⟩
    intro y hy
    simp_all [Loc.inFlight]
  | @append b used hl =>
    refine Or.inl fun y hy => ?_
    simpa [hl, Loc.inFlight, mem_absorb, or_comm] using hy
  | clear => exact Or.inl (by simp [Loc.inFlight])
  | _ => exact Or.inl (by simp [Loc.inFlight])

/-- One thread moves, and only its block in flight and the log change. -/
theorem passing_update [DecidableEq P] {A : Finset B}
    (h : d'.block.toFinset ∪ l'.inFlight ⊆ A) (hA : passing d ls ⊆ A) :
    passing d' (Function.update ls p l') ⊆ A := by
  intro y hy
  simp only [passing, Finset.mem_union, Finset.mem_biUnion, Finset.mem_univ, true_and] at hy
  obtain hy | ⟨q, hq⟩ := hy
  · exact h (Finset.mem_union_left _ hy)
  · by_cases hqp : q = p
    · subst hqp
      exact h (Finset.mem_union_right _ (by simpa using hq))
    · refine hA (Finset.mem_union_right _ (Finset.mem_biUnion.mpr ⟨q, Finset.mem_univ q, ?_⟩))
      simpa [hqp] using hq

theorem subset_passing (d : Log B) (ls : P → Loc B) (p : P) :
    d.block.toFinset ∪ (ls p).inFlight ⊆ passing d ls :=
  Finset.union_subset_union_right
    (Finset.subset_biUnion_of_mem (fun p => (ls p).inFlight) (Finset.mem_univ p))

theorem passing_step [DecidableEq P] {s s' : State P Unit Unit (Log B) (Loc B)}
    {a : Action P (Call B)} (hs : Sync.step (code size quota) s a = some s') :
    passing s'.data s'.locs ⊆ passing s.data s.locs ∨
    ∃ b, LogWrites s a b ∧ passing s'.data s'.locs ⊆ insert b (passing s.data s.locs) := by
  obtain ⟨p, x, l', ha, hstep, hpc, hlocs⟩ | ⟨hdata, hlocs⟩ := step_log hs
  · rw [hlocs]
    obtain hsub | ⟨b, used, rfl, hl, hsub⟩ := hstep.inFlight
    · exact Or.inl (passing_update (hsub.trans (subset_passing _ _ p)) subset_rfl)
    · refine Or.inr ⟨b, ⟨p, used, ha, by rw [hpc, hl]⟩, ?_⟩
      refine passing_update (hsub.trans ?_) (Finset.subset_insert _ _)
      exact Finset.insert_subset_insert b (subset_passing _ _ p)
  · rw [hdata, hlocs]
    exact Or.inl subset_rfl

omit [Fintype P] in
/-- `log_write` panics only where a call finds the log too long. -/
theorem not_tooBig_step [DecidableEq P] {s s' : State P Unit Unit (Log B) (Loc B)}
    {a : Action P (Call B)} (hs : Sync.step (code size quota) s a = some s')
    (hroom : ∀ b, LogWrites s a b →
      s.data.block.length < LOGSIZE ∧ (s.data.block.length : ℤ) < (size : ℤ) - 1)
    (h : ∀ q used, s.locs q ≠ .panic .tooBig used) (q : P) (used : List B) :
    s'.locs q ≠ .panic .tooBig used := by
  obtain ⟨p, x, l', ha, hstep, hpc, hlocs⟩ | ⟨-, hlocs⟩ := step_log hs
  · rw [hlocs]
    refine forall_update (Q := fun l => l ≠ .panic .tooBig used) (fun q _ => h q used) ?_ q
    rintro rfl
    generalize hd : s'.data = d' at hstep
    cases hstep with
    | quiet _ _ _ _ _ _ _ hcalm => simp [Loc.calm] at hcalm
    | tooBig hx hl hsize =>
      have := hroom _ ⟨p, used, hx ▸ ha, by rw [hpc, hl]⟩
      omega
  · rw [hlocs]
    exact h q used

theorem length_le_card_passing (ls : P → Loc B) (hn : d.block.Nodup) :
    d.block.length ≤ (passing d ls).card := by
  rw [← List.toFinset_card_of_nodup hn]
  exact Finset.card_le_card Finset.subset_union_left

/-- While every call of `log_write` finds at most `LOGSIZE - 2` blocks passed since the last
commit, the log keeps its size. -/
theorem passing_le [DecidableEq P] (r : Run (Sync.step (code (P := P) (B := B) LOGSIZE quota)))
    (h0 : r.state 0 = State.init .idle init)
    (hcall : ∀ k < r.length, ∀ b, LogWrites (r.state k) (r.action k) b →
      (passing (r.state k).data (r.state k).locs).card ≤ LOGSIZE - 2) {k : ℕ} (hk : k ≤ r.length) :
    (passing (r.state k).data (r.state k).locs).card ≤ LOGSIZE - 1 ∧
    ∀ q used, (r.state k).locs q ≠ .panic .tooBig used := by
  refine r.induct_between (P := fun m => (passing (r.state m).data (r.state m).locs).card ≤
    LOGSIZE - 1 ∧ ∀ q used, (r.state m).locs q ≠ .panic .tooBig used) (Nat.zero_le k) hk ?_ ?_
  · rw [h0]
    have hnone : passing (init : Log B) (fun _ : P => .idle) = ∅ := by
      ext b
      simp [passing, Loc.inFlight, init]
    exact ⟨by simpa [State.init, State.locs, Pc.loc] using hnone ▸ Nat.zero_le _,
      by simp [State.init, State.locs, Pc.loc]⟩
  · rintro m - hm hs ⟨hle, hno⟩
    have hn := length_le_card_passing (r.state m).locs
      (consistent (.of_run r h0 (hm.le.trans hk))).nodup
    refine ⟨?_, not_tooBig_step hs (fun b hb => ?_) hno⟩
    · obtain hsub | ⟨b, hb, hsub⟩ := passing_step hs
      · exact (Finset.card_le_card hsub).trans hle
      · have := (Finset.card_le_card hsub).trans (Finset.card_insert_le _ _)
        have := hcall m (by omega) b hb
        simp only [LOGSIZE, MAXOPBLOCKS] at this ⊢
        omega
    · have := hcall m (by omega) b hb
      simp only [LOGSIZE, MAXOPBLOCKS] at this ⊢
      omega

/-- The space that `begin_op` reserves is enough as long as every call of `log_write` finds at
most `log.size - 2` blocks passed since the last commit, as it does when no operation passes
more than `MAXOPBLOCKS - 1` of them. Operations of `MAXOPBLOCKS` blocks keep within `LOGSIZE`,
which is one more than the log has. -/
theorem reserved_space [DecidableEq P] :
    (∀ r : Run (Sync.step (code (P := P) (B := B) LOGSIZE MAXOPBLOCKS)),
      r.state 0 = State.init .idle init →
      (∀ k < r.length, ∀ b, LogWrites (r.state k) (r.action k) b →
        (passing (r.state k).data (r.state k).locs).card ≤ LOGSIZE - 2) →
      ∀ k ≤ r.length, (r.state k).data.block.length ≤ LOGSIZE - 1 ∧
        ∀ q used, (r.state k).locs q ≠ .panic .tooBig used) ∧
    (∀ s : State P Unit Unit (Log B) (Loc B),
      Reachable (code LOGSIZE (MAXOPBLOCKS - 1)) .idle init s →
      s.data.block.length ≤ LOGSIZE - 1 ∧ ∀ q used, s.locs q ≠ .panic .tooBig used) ∧
    (∀ s : State P Unit Unit (Log B) (Loc B), Reachable (code LOGSIZE MAXOPBLOCKS) .idle init s →
      s.data.block.length ≤ LOGSIZE) := by
  refine ⟨fun r h0 hcall k hk => ?_, fun s h => ?_, fun s h => ?_⟩
  · obtain ⟨hle, hno⟩ := passing_le r h0 hcall hk
    have hn := length_le_card_passing (r.state k).locs (consistent (.of_run r h0 hk)).nodup
    exact ⟨hn.trans hle, hno⟩
  · have hlen : ∀ {s : State P Unit Unit (Log B) (Loc B)},
        Reachable (code LOGSIZE (MAXOPBLOCKS - 1)) .idle init s → (s.data.block.length : ℤ) ≤ 28 :=
      fun h => length_le_of_reserve (fun n o ho hn hle => by
        simp only [MAXOPBLOCKS, LOGSIZE] at hle ⊢
        omega) (by decide) h
    refine ⟨by have := hlen h; simp only [LOGSIZE, MAXOPBLOCKS]; omega, ?_⟩
    induction h with
    | init => simp [State.init, State.locs, Pc.loc]
    | step h hs ih =>
      refine not_tooBig_step hs (fun b _ => ?_) ih
      have := hlen h
      simp only [LOGSIZE, MAXOPBLOCKS]
      omega
  · have := length_le_of_reserve (K := 30) (fun n o ho hn hle => by
      simp only [MAXOPBLOCKS, LOGSIZE] at hle ⊢
      omega) (by decide) h
    simp only [LOGSIZE, MAXOPBLOCKS]
    omega

end Reserve

/-- Three operations begin. -/
def beginActions : List (Action (Fin 3) (Call B)) :=
  [0, 1, 2].flatMap fun p => List.replicate 3 (.step p .beginOp)

/-- The steps of `p` in a `log_write` of each of `bs`. -/
def writeActions (p : P) (bs : List B) : List (Action P (Call B)) :=
  bs.flatMap fun b => List.replicate 5 (.step p (.logWrite b))

/-- One operation of ten blocks, and its commit. -/
def aloneActions : List (Action (Fin 3) (Call ℕ)) :=
  List.replicate 3 (.step 0 .beginOp) ++ writeActions 0 (List.range 10) ++
    List.replicate 24 (.step 0 .endOp)

def aloneRun : Run (Sync.step (code (P := Fin 3) (B := ℕ) LOGSIZE MAXOPBLOCKS)) :=
  Run.ofActions (State.init .idle init) aloneActions (by decide +kernel)

theorem reserved_space_alone : (aloneRun.state 54).data.block.length = MAXOPBLOCKS ∧
    ∀ k ≤ aloneRun.length, (aloneRun.state k).data.block.length ≤ LOGSIZE - 1 := by
  have hall : Run.always (Sync.step (code (P := Fin 3) (B := ℕ) LOGSIZE MAXOPBLOCKS))
      (fun s _ => (passing s.data s.locs).card ≤ LOGSIZE - 2) (State.init .idle init)
      aloneActions = true := by decide +kernel
  refine ⟨by decide +kernel, fun k hk => ?_⟩
  exact (reserved_space.1 aloneRun rfl (fun m hm b _ =>
    of_decide_eq_true (Run.always_ofActions hall _ hm)) k hk).1

/-- Three operations share a commit and log ten, ten and nine blocks; the tenth of the last one
panics. With ten, nine and nine, two calls that have both passed the tests make the log as long
as `log.size`. -/
theorem reserved_space_short :
    (∃ s, Reachable (code (P := Fin 3) LOGSIZE MAXOPBLOCKS) (.idle : Loc ℕ) init s ∧
      s.locs 2 = .panic .tooBig (List.range' 20 9).reverse) ∧
    (∃ s, Reachable (code (P := Fin 3) LOGSIZE MAXOPBLOCKS) (.idle : Loc ℕ) init s ∧
      s.data.block.length = LOGSIZE) := by
  constructor
  · obtain ⟨s, hr, hs⟩ := Reachable.exists_of_execute
      (code (P := Fin 3) LOGSIZE MAXOPBLOCKS) (.idle : Loc ℕ) init
      (beginActions ++ writeActions 0 (List.range' 0 10) ++
        writeActions 1 (List.range' 10 10) ++ writeActions 2 (List.range' 20 9) ++
        [.step 2 (.logWrite 29)])
      (T := fun s => s.locs 2 = .panic .tooBig (List.range' 20 9).reverse) (by decide +kernel)
    exact ⟨s, hr, of_decide_eq_true hs⟩
  · obtain ⟨s, hr, hs⟩ := Reachable.exists_of_execute
      (code (P := Fin 3) LOGSIZE MAXOPBLOCKS) (.idle : Loc ℕ) init
      (beginActions ++ writeActions 0 (List.range' 0 10) ++
        writeActions 1 (List.range' 10 9) ++ writeActions 2 (List.range' 20 9) ++
        List.replicate 2 (.step 1 (.logWrite 19)) ++ List.replicate 2 (.step 2 (.logWrite 29)) ++
        List.replicate 3 (.step 1 (.logWrite 19)) ++ List.replicate 3 (.step 2 (.logWrite 29)))
      (T := fun s => s.data.block.length = LOGSIZE) (by decide +kernel)
    exact ⟨s, hr, of_decide_eq_true hs⟩

end Log

end Sync

end Xv6
