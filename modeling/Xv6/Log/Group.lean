import Mathlib.Algebra.BigOperators.Group.Finset.Piecewise
import Mathlib.Algebra.BigOperators.Ring.Finset
import Mathlib.Algebra.Order.BigOperators.Group.Finset
import Mathlib.Data.Int.Order.Basic
import Mathlib.Data.List.Nodup
import Xv6.Sync.Wakeup

/-!
# Group commit

`begin_op`, `log_write`, `end_op` and `commit` as the code of any number of
threads that share `struct log`. A thread in an operation keeps the list of the
blocks it has passed to `log_write`; `quota` bounds it. `log_write` reads
`lh.n` and `outstanding` before it takes the lock, and `commit` runs without it,
one step for each block it writes.
-/

namespace Xv6

open Function

namespace Sync

def MAXOPBLOCKS : ℕ := 10
def LOGSIZE : ℕ := MAXOPBLOCKS * 3

/-- `struct log`, with `lh.block[0..lh.n)` as a list. -/
structure Log (B : Type) where
  outstanding : ℤ
  committing : Bool
  block : List B

namespace Log

variable {B P : Type}

/-- After `initlog`. -/
def init : Log B := ⟨0, false, []⟩

inductive Call (B : Type) where
  | beginOp
  | logWrite (b : B)
  | endOp

inductive Panic where
  | tooBig
  | outsideOfTrans
  | committing
  deriving DecidableEq

/-- Where the code of a thread stands; `used` are the blocks that the operation has
logged so far. -/
inductive Loc (B : Type) where
  | idle
  | beginTest
  | beginSleep
  | beginRelease
  | op (used : List B)
  | writeTest (b : B) (used : List B)
  | writeAcquire (b : B) (used : List B)
  | writeAppend (b : B) (used : List B)
  | writeRelease (used : List B)
  | endDec (used : List B)
  | endWakeup
  | endRelease
  | commitRelease
  | commit
  | writeLog (tail : ℕ)
  | writeHead
  | installTrans (tail : ℕ)
  | clear
  | eraseHead
  | commitAcquire
  | commitDone
  | commitWakeup
  | commitUnlock
  | panic (why : Panic) (used : List B)
  deriving DecidableEq

/-- `begin_op` has to wait. -/
def full (d : Log B) : Prop :=
  d.committing = true ∨ (LOGSIZE : ℤ) < d.block.length + (d.outstanding + 1) * MAXOPBLOCKS

instance (d : Log B) : Decidable d.full := inferInstanceAs (Decidable (_ ∨ _))

def beginOp (d : Log B) : Log B × Loc B :=
  if d.full then (d, .beginSleep) else ({ d with outstanding := d.outstanding + 1 }, .beginRelease)

def endOp (used : List B) (d : Log B) : Log B × Loc B :=
  let d' := { d with outstanding := d.outstanding - 1 }
  if d.committing then (d', .panic .committing used)
  else if d'.outstanding = 0 then ({ d' with committing := true }, .commitRelease)
  else (d', .endWakeup)

def Loc.holds : Loc B → Set (Lock Unit)
  | .beginTest | .beginSleep | .beginRelease | .writeAppend _ _ | .writeRelease _ | .endDec _
  | .endWakeup | .endRelease | .commitRelease | .commitDone | .commitWakeup | .commitUnlock
  | .panic .committing _ => {.spin ()}
  | _ => ∅

/-- Between the two changes of `outstanding`. -/
def Loc.inOp : Loc B → Bool
  | .beginRelease | .op _ | .writeTest _ _ | .writeAcquire _ _ | .writeAppend _ _ | .writeRelease _
  | .endDec _ | .panic .tooBig _ | .panic .outsideOfTrans _ => true
  | _ => false

/-- Between the two changes of `committing`. -/
def Loc.inCommit : Loc B → Bool
  | .commitRelease | .commit | .writeLog _ | .writeHead | .installTrans _ | .clear | .eraseHead
  | .commitAcquire | .commitDone => true
  | _ => false

/-- After `lh.n = 0`. -/
def Loc.cleared : Loc B → Bool
  | .eraseHead | .commitAcquire | .commitDone => true
  | _ => false

def Loc.used : Loc B → List B
  | .op used | .writeTest _ used | .writeAcquire _ used | .writeAppend _ used | .writeRelease used
  | .endDec used | .panic .tooBig used | .panic .outsideOfTrans used => used
  | _ => []

theorem Loc.used_eq_nil {l : Loc B} (h : l.inOp = false) : l.used = [] := by
  cases l <;> first | rfl | simp [Loc.inOp] at h
  next why used => cases why <;> first | rfl | simp at h

theorem Loc.inCommit_of_cleared {l : Loc B} (h : l.cleared = true) : l.inCommit = true := by
  cases l <;> first | rfl | simp [Loc.cleared] at h

variable [DecidableEq B]

/-- The first test of `log_write`, made without the lock. -/
def testSize (size : ℕ) (b : B) (used : List B) (d : Log B) : Log B × Loc B :=
  if LOGSIZE ≤ d.block.length ∨ (size : ℤ) - 1 ≤ d.block.length then (d, .panic .tooBig used)
  else (d, .writeTest b used)

/-- The loop of `log_write`: a block that is logged already is absorbed and keeps its place. -/
def absorb (b : B) (lh : List B) : List B := if b ∈ lh then lh else lh ++ [b]

theorem mem_absorb {b c : B} {lh : List B} : c ∈ absorb b lh ↔ c = b ∨ c ∈ lh := by
  unfold absorb
  split
  · next hb => exact ⟨Or.inr, fun hc => hc.elim (fun h => h ▸ hb) id⟩
  · simp [or_comm]

theorem nodup_absorb {lh : List B} (h : lh.Nodup) (b : B) : (absorb b lh).Nodup := by
  unfold absorb
  split
  · exact h
  · next hb => exact h.append (by simp) (by simpa using hb)

theorem length_le_absorb (b : B) (lh : List B) : lh.length ≤ (absorb b lh).length := by
  unfold absorb
  split <;> simp

def append (b : B) (used : List B) (d : Log B) : Log B × Loc B :=
  ({ d with block := absorb b d.block }, .writeRelease (used.insert b))

/-- The functions of `log.c`, for a log of `size` blocks and operations that pass at
most `quota` blocks to `log_write`. -/
def code (size quota : ℕ) (_ : P) : Loc B → Call B → Option (Op P Unit Unit (Log B) (Loc B))
  | .idle, .beginOp => some (.acquire (.spin ()) .beginTest)
  | .beginTest, _ => some (.access beginOp)
  | .beginSleep, _ => some (.sleep () (.spin ()) .beginTest)
  | .beginRelease, _ => some (.release (.spin ()) (.op []))
  | .op used, .logWrite b =>
    if (used.insert b).length ≤ quota then some (.access (testSize size b used)) else none
  | .op used, .endOp => some (.acquire (.spin ()) (.endDec used))
  | .writeTest b used, _ => some <| .access fun d =>
    (d, if d.outstanding < 1 then .panic .outsideOfTrans used else .writeAcquire b used)
  | .writeAcquire b used, _ => some (.acquire (.spin ()) (.writeAppend b used))
  | .writeAppend b used, _ => some (.access (append b used))
  | .writeRelease used, _ => some (.release (.spin ()) (.op used))
  | .endDec used, _ => some (.access (endOp used))
  | .endWakeup, _ => some (.wakeup () .endRelease)
  | .endRelease, _ => some (.release (.spin ()) .idle)
  | .commitRelease, _ => some (.release (.spin ()) .commit)
  | .commit, _ => some <| .access fun d =>
    (d, if 0 < d.block.length then .writeLog 0 else .commitAcquire)
  | .writeLog tail, _ => some <| .access fun d =>
    (d, if tail < d.block.length then .writeLog (tail + 1) else .writeHead)
  | .writeHead, _ => some <| .access fun d => (d, .installTrans 0)
  | .installTrans tail, _ => some <| .access fun d =>
    (d, if tail < d.block.length then .installTrans (tail + 1) else .clear)
  | .clear, _ => some <| .access fun d => ({ d with block := [] }, .eraseHead)
  | .eraseHead, _ => some <| .access fun d => (d, .commitAcquire)
  | .commitAcquire, _ => some (.acquire (.spin ()) .commitDone)
  | .commitDone, _ => some <| .access fun d => ({ d with committing := false }, .commitWakeup)
  | .commitWakeup, _ => some (.wakeup () .commitUnlock)
  | .commitUnlock, _ => some (.release (.spin ()) .idle)
  | _, _ => none

/-- `used` with the block of the call in progress. -/
def Loc.passed : Loc B → List B
  | .writeTest b used | .writeAcquire b used | .writeAppend b used => used.insert b
  | l => l.used

theorem guarded (size quota : ℕ) : Guarded (code (P := P) size quota) (Loc.holds (B := B)) := by
  intro p l x op hop
  cases l with
  | idle =>
    cases x <;> cases hop
    simp [Op.Guards, Loc.holds]
  | op used =>
    cases x with
    | beginOp => cases hop
    | logWrite b =>
      simp only [code, Option.ite_none_right_eq_some, Option.some.injEq] at hop
      obtain ⟨-, rfl⟩ := hop
      intro d
      unfold testSize
      split <;> rfl
    | endOp =>
      cases hop
      simp [Op.Guards, Loc.holds]
  | panic => cases hop
  | beginTest =>
    cases hop
    intro d
    unfold beginOp
    split <;> rfl
  | endDec used =>
    cases hop
    intro d
    unfold endOp
    dsimp only
    split_ifs <;> rfl
  | writeTest | commit | writeLog | installTrans =>
    cases hop
    intro d
    dsimp only
    split <;> rfl
  | _ =>
    cases hop
    simp [Op.Guards, Loc.holds, append]

/-! ### The steps -/

/-- The block of a call that has passed the first test of `log_write` and is not yet logged. -/
def Loc.inFlight : Loc B → Finset B
  | .writeTest b _ | .writeAcquire b _ | .writeAppend b _ => {b}
  | _ => ∅

/-- After the header is on disk and before it is erased. -/
def Loc.installing : Loc B → Bool
  | .installTrans _ | .clear | .eraseHead => true
  | _ => false

/-- Neither about to sleep in `begin_op`, nor before the header is on disk, nor in the panics
that the results below are about. -/
def Loc.calm : Loc B → Bool
  | .beginSleep | .writeLog _ | .writeHead | .panic .tooBig _ | .panic .committing _ => false
  | _ => true

/-- What a step of a thread at `l`, in the call `x`, does to the log `d`. -/
inductive LogStep (size quota : ℕ) (x : Call B) (d : Log B) (l : Loc B) : Log B → Loc B → Prop where
  | quiet {l' : Loc B} (hop : l'.inOp = l.inOp) (hcom : l'.inCommit = l.inCommit)
      (hused : l'.used = l.used) (hpassed : l'.passed.length ≤ l.passed.length)
      (hcl : l'.cleared = true → l.cleared = true ∨ d.block = [])
      (hflight : l'.inFlight ⊆ l.inFlight) (hinst : l'.installing = true → l.installing = true)
      (hcalm : l'.calm = true) : LogStep size quota x d l d l'
  | wait (hl : l = .beginTest) (hfull : d.full) : LogStep size quota x d l d .beginSleep
  | enter (hl : l = .beginTest) (hfull : ¬ d.full) :
      LogStep size quota x d l { d with outstanding := d.outstanding + 1 } .beginRelease
  | call {b : B} {used : List B} (hx : x = .logWrite b) (hl : l = .op used)
      (hlen : (used.insert b).length ≤ quota) : LogStep size quota x d l d (.writeTest b used)
  | tooBig {b : B} {used : List B} (hx : x = .logWrite b) (hl : l = .op used)
      (hsize : LOGSIZE ≤ d.block.length ∨ (size : ℤ) - 1 ≤ d.block.length) :
      LogStep size quota x d l d (.panic .tooBig used)
  | append {b : B} {used : List B} (hl : l = .writeAppend b used) :
      LogStep size quota x d l { d with block := absorb b d.block } (.writeRelease (used.insert b))
  | finish {used : List B} (hl : l = .endDec used) (hc : d.committing = false)
      (ho : d.outstanding - 1 ≠ 0) :
      LogStep size quota x d l { d with outstanding := d.outstanding - 1 } .endWakeup
  | last {used : List B} (hl : l = .endDec used) (hc : d.committing = false)
      (ho : d.outstanding - 1 = 0) :
      LogStep size quota x d l { d with outstanding := d.outstanding - 1, committing := true }
        .commitRelease
  | panic {used : List B} (hl : l = .endDec used) (hc : d.committing = true) :
      LogStep size quota x d l { d with outstanding := d.outstanding - 1 } (.panic .committing used)
  | start (hl : l = .commit) : LogStep size quota x d l d (.writeLog 0)
  | copy {tail : ℕ} (hl : l = .writeLog tail) (hlt : tail < d.block.length) :
      LogStep size quota x d l d (.writeLog (tail + 1))
  | copied {tail : ℕ} (hl : l = .writeLog tail) (hle : d.block.length ≤ tail) :
      LogStep size quota x d l d .writeHead
  | install (hl : l = .writeHead) : LogStep size quota x d l d (.installTrans 0)
  | clear (hl : l = .clear) : LogStep size quota x d l { d with block := [] } .eraseHead
  | done (hl : l = .commitDone) :
      LogStep size quota x d l { d with committing := false } .commitWakeup

section Steps

variable {size quota : ℕ} {p : P} {l l' : Loc B} {x : Call B} {d : Log B}

theorem LogStep.of_access {f : Log B → Log B × Loc B}
    (hop : code size quota p l x = some (.access f)) :
    LogStep size quota x d l (f d).1 (f d).2 := by
  -- the tests and loops of `commit` and `log_write` that change nothing
  have hquiet : ∀ {l' : Loc B}, l'.inOp = l.inOp → l'.inCommit = l.inCommit → l'.used = l.used →
      l'.passed.length ≤ l.passed.length → l'.cleared = false → l'.inFlight ⊆ l.inFlight →
      (l'.installing = true → l.installing = true) → l'.calm = true →
      LogStep size quota x d l d l' :=
    fun hop hcom hused hpassed hcl hflight hinst hcalm =>
      .quiet hop hcom hused hpassed (by simp [hcl]) hflight hinst hcalm
  cases l with
  | idle => cases x <;> simp [code] at hop
  | op used =>
    cases x with
    | logWrite b =>
      simp only [code, Option.ite_none_right_eq_some, Option.some.injEq, Op.access.injEq] at hop
      obtain ⟨hlen, rfl⟩ := hop
      unfold testSize
      split
      · next hsize => exact .tooBig rfl rfl hsize
      · exact .call rfl rfl hlen
    | _ => simp [code] at hop
  | beginTest =>
    cases hop
    unfold beginOp
    split
    · next hfull => exact .wait rfl hfull
    · next hfull => exact .enter rfl hfull
  | writeTest b used =>
    cases hop
    dsimp only
    split
    · exact hquiet rfl rfl rfl (List.sublist_insert b used).length_le rfl (Finset.empty_subset _) id
        rfl
    · exact hquiet rfl rfl rfl le_rfl rfl subset_rfl id rfl
  | writeAppend b used =>
    cases hop
    exact .append rfl
  | endDec used =>
    cases hop
    unfold endOp
    dsimp only
    split_ifs with hc ho
    · exact .panic rfl hc
    · exact .last rfl (by simpa using hc) ho
    · exact .finish rfl (by simpa using hc) ho
  | commit =>
    cases hop
    dsimp only
    split
    · exact .start rfl
    · next hn =>
      exact .quiet rfl rfl rfl le_rfl (fun _ => Or.inr (by simpa using hn)) subset_rfl id rfl
  | writeLog tail =>
    cases hop
    dsimp only
    split
    · next hlt => exact .copy rfl hlt
    · next hle => exact .copied rfl (not_lt.mp hle)
  | writeHead =>
    cases hop
    exact .install rfl
  | installTrans tail =>
    cases hop
    dsimp only
    split <;> exact hquiet rfl rfl rfl le_rfl rfl subset_rfl id rfl
  | clear =>
    cases hop
    exact .clear rfl
  | eraseHead =>
    cases hop
    exact .quiet rfl rfl rfl le_rfl (fun _ => Or.inl rfl) subset_rfl (by simp [Loc.installing]) rfl
  | commitDone =>
    cases hop
    exact .done rfl
  | _ => simp [code] at hop

theorem LogStep.of_next {op : Op P Unit Unit (Log B) (Loc B)}
    (hop : code size quota p l x = some op) (hl' : op.Next l') :
    LogStep size quota x d l d l' := by
  cases l with
  | idle =>
    cases x <;> cases hop
    obtain rfl := hl'
    exact .quiet rfl rfl rfl le_rfl (by simp [Loc.cleared]) subset_rfl
      (by simp [Loc.installing]) rfl
  | op used =>
    cases x with
    | beginOp => cases hop
    | logWrite b =>
      simp only [code, Option.ite_none_right_eq_some, Option.some.injEq] at hop
      obtain ⟨-, rfl⟩ := hop
      exact absurd hl' id
    | endOp =>
      cases hop
      obtain rfl := hl'
      exact .quiet rfl rfl rfl le_rfl (by simp [Loc.cleared]) subset_rfl
        (by simp [Loc.installing]) rfl
  | panic => cases hop
  | _ =>
    cases hop
    first
    | exact absurd hl' id
    | obtain rfl := hl'
      exact .quiet rfl rfl rfl le_rfl (by simp [Loc.cleared]) subset_rfl
        (by simp [Loc.installing]) rfl

/-- A step of the machine is one of the log's, or leaves the log and the local states alone. -/
theorem step_log [DecidableEq P] {s s' : State P Unit Unit (Log B) (Loc B)}
    {a : Action P (Call B)} (hs : Sync.step (code size quota) s a = some s') :
    (∃ p x l', a = .step p x ∧ LogStep size quota x s.data (s.locs p) s'.data l' ∧
      s.pc p = .run (s.locs p) ∧ s'.locs = update s.locs p l') ∨
    (s'.data = s.data ∧ s'.locs = s.locs) := by
  cases step_client hs with
  | @access p x f _ hpc hop hdata hlocs =>
    exact Or.inl ⟨p, x, (f s.data).2, rfl, hdata ▸ .of_access hop, hpc, hlocs⟩
  | @next p x op l' _ hpc hop hl' hdata hlocs =>
    exact Or.inl ⟨p, x, l', rfl, hdata ▸ .of_next hop hl', hpc, hlocs⟩
  | quiet hdata hlocs => exact Or.inr ⟨hdata, hlocs⟩

end Steps

/-! ### The invariant -/

/-- What each thread sees of the log. -/
structure Loc.Ok (quota : ℕ) (d : Log B) (l : Loc B) : Prop where
  committing : l.inCommit = true → d.committing = true
  cleared : l.cleared = true → d.block = []
  used : l.used ⊆ d.block
  quota : l.passed.length ≤ quota
  noPanic : ∀ used, l ≠ .panic .committing used

structure Consistent [Fintype P] (quota : ℕ) (d : Log B) (ls : P → Loc B) : Prop where
  outstanding : d.outstanding = ∑ p, if (ls p).inOp then 1 else 0
  committer : d.committing = true → ∃ p, (ls p).inCommit = true
  unique : ∀ p q, (ls p).inCommit = true → (ls q).inCommit = true → p = q
  exclusive : d.committing = true → d.outstanding = 0
  nodup : d.block.Nodup
  empty : d.outstanding = 0 → d.committing = false → d.block = []
  ok : ∀ p, (ls p).Ok quota d

section Invariant

variable {size quota : ℕ} {x : Call B} {d d' : Log B} {ls : P → Loc B} {p : P} {l' : Loc B}

omit [DecidableEq B] in
theorem forall_update [DecidableEq P] {Q : Loc B → Prop}
    (h : ∀ q ≠ p, Q (ls q)) (hp : Q l') (q : P) :
    Q (update ls p l' q) :=
  (forall_update_iff ls fun _ => Q).mpr ⟨hp, h⟩ q

variable [Fintype P]

omit [DecidableEq B] in
/-- A sum over the threads after one of them has moved. -/
theorem sum_update [DecidableEq P] (f : Loc B → ℤ) (ls : P → Loc B) (p : P) (l' : Loc B) :
    ∑ q, f (update ls p l' q) = ∑ q, f (ls q) + (f l' - f (ls p)) := by
  have hcomp : (fun q => f (update ls p l' q)) = update (f ∘ ls) p (f l') := by
    funext q
    by_cases hq : q = p
    · subst hq
      simp
    · simp [hq]
  rw [hcomp, Finset.sum_update_of_mem (Finset.mem_univ p)]
  have := Finset.add_sum_erase Finset.univ (f ∘ ls) (Finset.mem_univ p)
  rw [Finset.sdiff_singleton_eq_erase]
  simp only [Function.comp_apply] at this ⊢
  omega

section

variable (h : Consistent quota d ls)
include h

theorem Consistent.pos_of_inOp (hp : (ls p).inOp = true) : 1 ≤ d.outstanding := by
  rw [h.outstanding]
  have := Finset.single_le_sum (f := fun q => if (ls q).inOp then (1 : ℤ) else 0)
    (fun q _ => by split <;> simp) (Finset.mem_univ p)
  simpa [hp] using this

theorem Consistent.outstanding_nonneg : 0 ≤ d.outstanding := by
  rw [h.outstanding]
  exact Finset.sum_nonneg fun q _ => by split <;> simp

/-- Nobody commits while an operation is in progress. -/
theorem Consistent.not_committing (hp : (ls p).inOp = true) : d.committing = false := by
  rw [Bool.eq_false_iff]
  intro hc
  have := h.pos_of_inOp hp
  have := h.exclusive hc
  omega

theorem Consistent.not_inOp (hc : d.committing = true) (q : P) : (ls q).inOp = false := by
  rw [Bool.eq_false_iff]
  intro hq
  simp [h.not_committing hq] at hc

theorem Consistent.not_inCommit (hc : d.committing = false) (q : P) : (ls q).inCommit = false := by
  rw [Bool.eq_false_iff]
  intro hq
  simp [(h.ok q).committing hq] at hc

end

variable [DecidableEq P] {used : List B}

section

variable (h : Consistent quota d ls)
include h

/-- How `outstanding` has to change when the thread `p` moves to `l'`. -/
theorem Consistent.outstanding_update {o : ℤ}
    (ho : o = d.outstanding + ((if l'.inOp then 1 else 0) - if (ls p).inOp then 1 else 0)) :
    o = ∑ q, if (update ls p l' q).inOp then 1 else 0 := by
  rw [sum_update (fun l => if l.inOp then 1 else 0), ho, h.outstanding]

theorem Consistent.quiet (hop : l'.inOp = (ls p).inOp) (hcom : l'.inCommit = (ls p).inCommit)
    (hused : l'.used = (ls p).used) (hpassed : l'.passed.length ≤ quota)
    (hcl : l'.cleared = true → (ls p).cleared = true ∨ d.block = [])
    (hpan : ∀ used, l' ≠ .panic .committing used) : Consistent quota d (update ls p l') := by
  have hsame : ∀ q, (update ls p l' q).inCommit = (ls q).inCommit := by
    intro q
    by_cases hq : q = p
    · subst hq
      simpa using hcom
    · simp [hq]
  refine ⟨h.outstanding_update (by simp [hop]), fun hc => ?_,
    fun q r hq hr => h.unique q r (hsame q ▸ hq) (hsame r ▸ hr), h.exclusive, h.nodup, h.empty, ?_⟩
  · obtain ⟨q, hq⟩ := h.committer hc
    exact ⟨q, (hsame q).symm ▸ hq⟩
  · obtain ⟨hc, hcl', hu, -, -⟩ := h.ok p
    exact forall_update (fun q _ => h.ok q) ⟨fun hl => hc (hcom ▸ hl),
      fun hl => (hcl hl).elim hcl' id, hused ▸ hu, hpassed, hpan⟩

/-- A step that is made while nobody commits, and after which somebody still is in an
operation. -/
theorem Consistent.of_not_committing (hc : d.committing = false) (hc' : d'.committing = false)
    (ho : d'.outstanding =
      d.outstanding + ((if l'.inOp then 1 else 0) - if (ls p).inOp then 1 else 0))
    (hpos : d'.outstanding ≠ 0) (hnd : d'.block.Nodup) (hsub : d.block ⊆ d'.block)
    (hcom : l'.inCommit = false) (hused : l'.used ⊆ d'.block) (hpassed : l'.passed.length ≤ quota)
    (hpan : ∀ used, l' ≠ .panic .committing used) : Consistent quota d' (update ls p l') := by
  have hno : ∀ q, (update ls p l' q).inCommit = false :=
    forall_update (Q := fun l => l.inCommit = false) (fun q _ => h.not_inCommit hc q) hcom
  have hok : ∀ {l : Loc B}, l.inCommit = false → l.used ⊆ d'.block → l.passed.length ≤ quota →
      (∀ used, l ≠ .panic .committing used) → l.Ok quota d' := fun hl hu hq hp =>
    ⟨fun h => by simp [hl] at h, fun h => by simp [Loc.inCommit_of_cleared h] at hl, hu, hq, hp⟩
  refine ⟨h.outstanding_update ho, fun hcom' => by simp [hc'] at hcom',
    fun q r hq => by simp [hno q] at hq, fun hcom' => by simp [hc'] at hcom', hnd,
    fun h0 => absurd h0 hpos, forall_update (fun q _ => ?_) (hok hcom hused hpassed hpan)⟩
  obtain ⟨-, -, hu, hq, hp⟩ := h.ok q
  exact hok (h.not_inCommit hc q) (List.Subset.trans hu hsub) hq hp

theorem Consistent.enter (hl : ls p = .beginTest) (hfull : ¬ d.full) :
    Consistent quota { d with outstanding := d.outstanding + 1 }
      (update ls p .beginRelease) := by
  have hc : d.committing = false := by simpa using (not_or.mp hfull).1
  have hnn := h.outstanding_nonneg
  refine h.of_not_committing hc hc (by simp [hl, Loc.inOp]) ?_ h.nodup (List.Subset.refl _) rfl
    (by simp [Loc.used]) (by simp [Loc.passed, Loc.used]) (by simp)
  dsimp only
  omega

theorem Consistent.append {b : B} (hl : ls p = .writeAppend b used) :
    Consistent quota { d with block := absorb b d.block }
      (update ls p (.writeRelease (used.insert b))) := by
  have hin : (ls p).inOp = true := by simp [hl, Loc.inOp]
  have hc := h.not_committing hin
  have hpos := h.pos_of_inOp hin
  have hsub : d.block ⊆ absorb b d.block := fun y hy => mem_absorb.mpr (Or.inr hy)
  have hpq := (h.ok p).quota
  have hus := (h.ok p).used
  simp only [hl, Loc.passed, Loc.used] at hpq hus
  refine h.of_not_committing hc hc (by simp [hl, Loc.inOp]) ?_ (nodup_absorb h.nodup b) hsub rfl ?_
    hpq (by simp)
  · dsimp only
    omega
  · intro y hy
    exact mem_absorb.mpr ((List.mem_insert_iff.mp hy).imp id fun hy => hus hy)

theorem Consistent.finish (hl : ls p = .endDec used) (hc : d.committing = false)
    (ho : d.outstanding - 1 ≠ 0) :
    Consistent quota { d with outstanding := d.outstanding - 1 } (update ls p .endWakeup) :=
  h.of_not_committing hc hc (by simp [hl, Loc.inOp]; rfl) ho h.nodup (List.Subset.refl _) rfl
    (by simp [Loc.used]) (by simp [Loc.passed, Loc.used]) (by simp)

/-- The last operation ends and its thread is the one that commits. -/
theorem Consistent.last (hl : ls p = .endDec used) (hc : d.committing = false)
    (ho : d.outstanding - 1 = 0) :
    Consistent quota { d with outstanding := d.outstanding - 1, committing := true }
      (update ls p .commitRelease) := by
  have hno := h.not_inCommit hc
  have hp : ∀ q, (update ls p .commitRelease q).inCommit = true → q = p := by
    intro q hq
    by_contra hne
    simp [hne, hno q] at hq
  refine ⟨h.outstanding_update (by simp [hl, Loc.inOp]; rfl),
    fun _ => ⟨p, by simp [Loc.inCommit]⟩, fun q r hq hr => (hp q hq).trans (hp r hr).symm,
    fun _ => ho, h.nodup, fun _ hc' => by simp at hc', ?_⟩
  exact forall_update (fun q _ => { h.ok q with committing := fun _ => rfl })
    ⟨fun _ => rfl, by simp [Loc.cleared], by simp [Loc.used], by simp [Loc.passed, Loc.used],
      by simp⟩

theorem Consistent.clear (hl : ls p = .clear) :
    Consistent quota { d with block := [] } (update ls p .eraseHead) := by
  have hin : (ls p).inCommit = true := by simp [hl, Loc.inCommit]
  have hc := (h.ok p).committing hin
  have hsame : ∀ q, (update ls p .eraseHead q).inCommit = (ls q).inCommit := by
    intro q
    by_cases hq : q = p
    · subst hq
      rw [update_self, hin]
      rfl
    · simp [hq]
  refine ⟨h.outstanding_update (by simp [hl, Loc.inOp]), fun _ => ⟨p, (hsame p).symm ▸ hin⟩,
    fun q r hq hr => h.unique q r (hsame q ▸ hq) (hsame r ▸ hr), h.exclusive, List.nodup_nil,
    fun _ _ => rfl, forall_update (fun q _ => ?_) ⟨fun _ => hc, fun _ => rfl, by simp [Loc.used],
      by simp [Loc.passed, Loc.used], by simp⟩⟩
  refine { h.ok q with cleared := fun _ => rfl, used := ?_ }
  rw [Loc.used_eq_nil (h.not_inOp hc q)]
  exact List.Subset.refl _

theorem Consistent.done (hl : ls p = .commitDone) :
    Consistent quota { d with committing := false } (update ls p .commitWakeup) := by
  have hin : (ls p).inCommit = true := by simp [hl, Loc.inCommit]
  have hblock := (h.ok p).cleared (by simp [hl, Loc.cleared])
  have hother : ∀ q ≠ p, (ls q).inCommit = false := fun q hq => by
    rw [Bool.eq_false_iff]
    exact fun hq' => hq (h.unique q p hq' hin)
  have hno : ∀ q, (update ls p .commitWakeup q).inCommit = false :=
    forall_update (Q := fun l => l.inCommit = false) hother rfl
  refine ⟨h.outstanding_update (by simp [hl, Loc.inOp]), fun hc => by simp at hc,
    fun q r hq => by simp [hno q] at hq, fun hc => by simp at hc, h.nodup, fun _ _ => hblock, ?_⟩
  refine forall_update (fun q hq => { h.ok q with committing := fun hc => ?_ })
    ⟨by simp [Loc.inCommit], fun _ => hblock, by simp [Loc.used], by simp [Loc.passed, Loc.used],
      by simp⟩
  simp [hother q hq] at hc

theorem Consistent.step (hs : LogStep size quota x d (ls p) d' l') :
    Consistent quota d' (update ls p l') := by
  have hq := (h.ok p).quota
  cases hs with
  | quiet hop hcom hused hpassed hcl _ _ hcalm =>
    refine h.quiet hop hcom hused (hpassed.trans hq) hcl ?_
    rintro used rfl
    simp [Loc.calm] at hcalm
  | enter hl hfull => exact h.enter hl hfull
  | call _ hl hlen =>
    exact h.quiet (by simp [hl, Loc.inOp]) (by simp [hl, Loc.inCommit]) (by simp [hl, Loc.used])
      hlen (by simp [Loc.cleared]) (by simp)
  | tooBig _ hl _ =>
    refine h.quiet (by simp [hl, Loc.inOp]) (by simp [hl, Loc.inCommit]) (by simp [hl, Loc.used])
      ?_ (by simp [Loc.cleared]) (by simp)
    simpa [hl, Loc.passed, Loc.used] using hq
  | append hl => exact h.append hl
  | finish hl hc ho => exact h.finish hl hc ho
  | last hl hc ho => exact h.last hl hc ho
  | panic hl hc => exact absurd (h.not_committing (p := p) (by simp [hl, Loc.inOp])) (by simp [hc])
  | wait hl | start hl | copy hl | copied hl | install hl =>
    exact h.quiet (by simp [hl, Loc.inOp]) (by simp [hl, Loc.inCommit]) (by simp [hl, Loc.used])
      (by simp [Loc.passed, Loc.used]) (by simp [Loc.cleared]) (by simp)
  | clear hl => exact h.clear hl
  | done hl => exact h.done hl

end

theorem consistentInv (size quota : ℕ) :
    ClientInv (code (B := B) (P := P) size quota) (Consistent quota) where
  access h hop := h.step (.of_access hop)
  next h hop hl' := h.step (.of_next hop hl')

omit [DecidableEq P] in
theorem Consistent.init : Consistent quota (Log.init : Log B) fun _ : P => .idle := by
  refine ⟨?_, ?_, ?_, ?_, ?_, ?_, fun p => ⟨?_, ?_, ?_, ?_, ?_⟩⟩ <;>
    simp [Log.init, Loc.inOp, Loc.inCommit, Loc.cleared, Loc.used, Loc.passed]

theorem consistent {s : State P Unit Unit (Log B) (Loc B)}
    (h : Reachable (code size quota) .idle init s) : Consistent quota s.data s.locs :=
  h.client (consistentInv size quota) .init

end Invariant

/-! ### Waiting in `begin_op` -/

def protocol : Protocol Unit Unit (Log B) (Loc B) where
  chan := ()
  lk := .spin ()
  cond d := ¬ d.full
  knows l := l = .beginSleep
  pending l := l = .endWakeup ∨ l = .commitWakeup

section Wait

variable {size quota : ℕ} {x : Call B} {d d' : Log B} {ls : P → Loc B} {p : P} {l' : Loc B}

/-- Who goes to sleep in `begin_op` has seen the log full. -/
theorem LogStep.full_of_sleep {l : Loc B} (hs : LogStep size quota x d l d' .beginSleep) :
    d'.full := by
  cases hs with
  | quiet _ _ _ _ _ _ _ hcalm => simp [Loc.calm] at hcalm
  | wait _ hfull => exact hfull

theorem holds_of_wakeup {l next : Loc B} {u : Update P Unit} {x : Call B}
    (hop : code size quota p l x = some (.update u next)) : next.holds = {.spin ()} := by
  cases l with
  | idle => cases x <;> simp [code] at hop
  | op used => cases x <;> simp [code] at hop
  | endWakeup | commitWakeup =>
    obtain ⟨-, rfl⟩ := Op.update.inj (Option.some.inj hop)
    rfl
  | _ => simp [code] at hop

theorem beginTest_of_sleep {l next : Loc B} {lk : Lock Unit} {x : Call B}
    (hop : code size quota p l x = some (.sleep () lk next)) : next = .beginTest := by
  cases l with
  | idle => cases x <;> simp [code] at hop
  | op used => cases x <;> simp [code] at hop
  | beginSleep => exact (Op.sleep.inj (Option.some.inj hop)).2.2.symm
  | _ => simp [code] at hop

/-- Whoever has yet to call `wakeup` holds `log.lock`. -/
theorem lock_of_pending [DecidableEq P] {s : State P Unit Unit (Log B) (Loc B)} {q : P}
    (h : Reachable (code size quota) .idle init s) (hq : protocol.Pending (s.pc q)) :
    s.lock (.spin ()) = some (.proc q) := by
  rw [(h.inv (guarded size quota) rfl q).lock]
  have horigin := h.origin q
  have hsleep : ∀ {lk l x next}, code size quota q l x = some (.sleep () lk next) →
      ¬ (protocol (B := B)).pending next := by
    intro lk l x next hop
    simp [beginTest_of_sleep hop, protocol]
  cases hc : s.pc q with
  | run l =>
    rw [hc, Protocol.pending_iff (by simp)] at hq
    rcases hq with hl | hl <;> simp_all [Pc.loc, Pc.held, Loc.holds]
  | update u next =>
    rw [hc] at horigin
    obtain ⟨l₀, x, hop⟩ := horigin
    simp [Pc.held, holds_of_wakeup hop]
  | unlock next =>
    rw [hc] at horigin
    obtain ⟨u, l₀, x, hop⟩ := horigin
    simp [Pc.held, holds_of_wakeup hop]
  | sleepRelease | sleepSet | sched =>
    rw [hc] at horigin hq
    obtain ⟨l₀, x, hop⟩ := horigin
    exact absurd ((Protocol.pending_iff (by simp)).mp hq) (hsleep hop)
  | sleepUnlock | sleepReacquire =>
    rw [hc] at horigin hq
    obtain ⟨chan, l₀, x, hop⟩ := horigin
    exact absurd ((Protocol.pending_iff (by simp)).mp hq) (hsleep hop)

variable [Fintype P]

/-- There is room for another operation only after a step under the lock that is
followed by a `wakeup`. -/
theorem Consistent.pending_of_room (h : Consistent quota d ls)
    (hs : LogStep size quota x d (ls p) d' l') (hfull : d.full) (hroom : ¬ d'.full) :
    .spin () ∈ (ls p).holds ∧ (protocol (B := B)).pending l' := by
  cases hs with
  | quiet | wait | call | tooBig | start | copy | copied | install => exact absurd hfull hroom
  | enter _ hno => exact absurd hfull hno
  | @append b used hl =>
    refine absurd (hfull.imp id fun hlt => lt_of_lt_of_le hlt ?_) hroom
    have hlen := length_le_absorb b d.block
    dsimp only
    omega
  | finish hl => exact ⟨by simp [hl, Loc.holds], Or.inl rfl⟩
  | last => exact absurd (Or.inl rfl) hroom
  | panic _ hc => exact absurd (Or.inl hc) hroom
  | clear hl => exact absurd (Or.inl ((h.ok p).committing (by simp [hl, Loc.inCommit]))) hroom
  | done hl => exact ⟨by simp [hl, Loc.holds], Or.inr rfl⟩

theorem careful (size quota : ℕ) :
    Careful (code (P := P) size quota) (Loc.holds (B := B)) (Consistent quota) protocol where
  knows_held := by
    rintro l rfl
    rfl
  op := by
    intro d ls p x op h hop
    have haccess : ∀ f, op = .access f → op.Careful protocol Loc.holds d (ls p) := by
      rintro f rfl
      refine ⟨fun hk => not_not.mpr (LogStep.full_of_sleep (hk ▸ LogStep.of_access (d := d) hop)),
        fun hno hyes => h.pending_of_room (.of_access hop) (not_not.mp hno) hyes, fun hp => ?_⟩
      rcases hp with hl | hl <;> simp [hl, code] at hop
    generalize ls p = l at hop haccess
    cases l with
    | idle =>
      cases x <;> cases hop
      simp [Op.Careful, protocol]
    | op used =>
      cases x with
      | beginOp => cases hop
      | logWrite b =>
        simp only [code, Option.ite_none_right_eq_some, Option.some.injEq] at hop
        exact haccess _ hop.2.symm
      | endOp =>
        cases hop
        simp [Op.Careful, protocol]
    | panic => cases hop
    | _ =>
      cases hop
      first
      | exact haccess _ rfl
      | simp [Op.Careful, protocol]

end Wait

/-- Whoever is `SLEEPING` on `&log` while `log.lock` is free waits for a commit or for
space, and somebody is there who will end an operation or a commit. -/
theorem begin_op_not_stranded [Fintype P] [DecidableEq P] {size quota : ℕ}
    {s : State P Unit Unit (Log B) (Loc B)} (h : Reachable (code size quota) .idle init s)
    (hlock : s.lock (.spin ()) = none) :
    (∀ p, (s.proc p).state = .sleeping → (s.proc p).chan = some () →
      (s.data.committing = true ∨
        (LOGSIZE : ℤ) < s.data.block.length + (s.data.outstanding + 1) * MAXOPBLOCKS) ∧
      (1 ≤ s.data.outstanding ∨ s.data.committing = true)) ∧
    (s.data.outstanding = 0 → s.data.committing = false → s.data.block.length = 0) := by
  have hcons := consistent h
  refine ⟨fun p hp hchan => ?_, fun ho hc => by simp [hcons.empty ho hc]⟩
  have hfull : s.data.full := by
    by_contra hroom
    refine h.awake (guarded size quota) rfl (fun s hs => consistent hs) (careful size quota) hroom
      (fun q hq => ?_) p hp hchan
    simp [lock_of_pending h hq] at hlock
  refine ⟨hfull, ?_⟩
  by_contra hno
  obtain ⟨ho, hc⟩ := not_or.mp hno
  have ho0 : s.data.outstanding = 0 := by
    have := hcons.outstanding_nonneg
    omega
  -- an idle log is empty, so there is room
  have hempty := hcons.empty ho0 (by simpa using hc)
  refine (hfull.resolve_left hc).not_ge ?_
  simp [hempty, ho0, MAXOPBLOCKS, LOGSIZE]

/-- Three operations are in progress and a fourth sleeps in `begin_op`. -/
def crowdActions : List (Action (Fin 4) (Call ℕ)) :=
  List.replicate 3 (.step 0 .beginOp) ++ List.replicate 3 (.step 1 .beginOp) ++
    List.replicate 3 (.step 2 .beginOp) ++ List.replicate 5 (.step 3 .beginOp) ++ [.release]

theorem begin_op_not_stranded_crowd :
    ∃ s, Reachable (code (P := Fin 4) LOGSIZE MAXOPBLOCKS) (.idle : Loc ℕ) init s ∧
      (s.proc 3).state = .sleeping ∧ (1 ≤ s.data.outstanding ∨ s.data.committing = true) := by
  obtain ⟨s, hr, hs⟩ := Reachable.exists_of_execute
    (code (P := Fin 4) LOGSIZE MAXOPBLOCKS) (.idle : Loc ℕ) init crowdActions
    (T := fun s => s.lock (.spin ()) = none ∧ (s.proc 3).state = .sleeping ∧
      (s.proc 3).chan = some ()) (by decide +kernel)
  obtain ⟨hlk, hsl, hchan⟩ := of_decide_eq_true hs
  exact ⟨s, hr, hsl, ((begin_op_not_stranded hr hlk).1 3 hsl hchan).2⟩

/-! ### One commit for each operation -/

/-- `log_write(b)` of thread `p` records the block. -/
def Appends (s : State P Unit Unit (Log B) (Loc B)) (a : Action P (Call B))
    (p : P) (b : B) : Prop :=
  ∃ x used, a = .step p x ∧ s.pc p = .run (.writeAppend b used)

/-- `write_log`, in thread `q`, writes the block to the log. -/
def Copies (s : State P Unit Unit (Log B) (Loc B)) (a : Action P (Call B)) (q : P) (b : B) : Prop :=
  ∃ x tail, a = .step q x ∧ s.pc q = .run (.writeLog tail) ∧ s.data.block[tail]? = some b

/-- `write_head`, in thread `q`, commits. -/
def Commits (s : State P Unit Unit (Log B) (Loc B)) (a : Action P (Call B)) (q : P) : Prop :=
  ∃ x, a = .step q x ∧ s.pc q = .run .writeHead

/-- The blocks that `write_log` has written so far. -/
def Loc.copied : Loc B → List B → List B
  | .writeLog tail, bs => bs.take tail
  | .writeHead, bs => bs
  | _, _ => []

section Split

variable {size quota : ℕ} {s s' : State P Unit Unit (Log B) (Loc B)} {a : Action P (Call B)}
  {x : Call B} {d d' : Log B} {l l' : Loc B} {p q : P} {b : B}

omit [DecidableEq B] in
theorem Loc.inCommit_of_copied {bs : List B} (h : b ∈ l.copied bs) : l.inCommit = true := by
  cases l <;> first | rfl | simp [Loc.copied] at h

omit [DecidableEq B] in
theorem Loc.inCommit_of_installing (h : l.installing = true) : l.inCommit = true := by
  cases l <;> first | rfl | simp [Loc.installing] at h

section

variable (hs : LogStep size quota x d l d' l')
include hs

theorem LogStep.installing (h : l'.installing = true) : l.installing = true ∨ l = .writeHead := by
  cases hs with
  | quiet _ _ _ _ _ _ hinst _ => exact Or.inl (hinst h)
  | install hl => exact Or.inr hl
  | clear hl => simp [hl, Loc.installing]
  | _ => simp [Loc.installing] at h

theorem LogStep.block_subset (hl : l.installing = false) : d.block ⊆ d'.block := by
  cases hs with
  | clear h => simp [h, Loc.installing] at hl
  | append => exact fun y hy => mem_absorb.mpr (Or.inr hy)
  | _ => exact List.Subset.refl _

theorem LogStep.block_eq (hl : l.installing = false) (hop : l.inOp = false) :
    d'.block = d.block := by
  cases hs with
  | clear h => simp [h, Loc.installing] at hl
  | append h => simp [h, Loc.inOp] at hop
  | _ => rfl

/-- What `write_log` has written after a step, it had written before, or writes in it. -/
theorem LogStep.mem_copied (h : b ∈ l'.copied d'.block) :
    b ∈ l.copied d.block ∨ ∃ tail, l = .writeLog tail ∧ d.block[tail]? = some b := by
  cases hs with
  | quiet _ _ _ _ _ _ _ hcalm => cases l' <;> simp_all [Loc.copied, Loc.calm]
  | start => simp [Loc.copied] at h
  | @copy tail hl hlt =>
    simp only [Loc.copied, List.take_add_one, List.mem_append, Option.mem_toList] at h
    exact h.imp (fun h => by simpa [hl, Loc.copied] using h) fun h => ⟨tail, hl, h⟩
  | copied hl hle =>
    exact Or.inl (by simpa [hl, Loc.copied, List.take_of_length_le hle] using h)
  | _ => simp [Loc.copied] at h

end

theorem not_installing_step [DecidableEq P] (hs : Sync.step (code size quota) s a = some s')
    (hno : ∀ q, ¬ Commits s a q) (h : ∀ q, (s.locs q).installing = false) (q : P) :
    (s'.locs q).installing = false := by
  obtain ⟨p, x, l', rfl, hstep, hpc, hlocs⟩ | ⟨-, hlocs⟩ := step_log hs
  · rw [hlocs]
    refine forall_update (Q := fun l => l.installing = false) (fun q _ => h q) ?_ q
    by_contra hl'
    obtain hl | hl := hstep.installing (by simpa using hl')
    · simp [h p] at hl
    · exact hno p ⟨x, rfl, by rw [hpc, hl]⟩
  · rw [hlocs]
    exact h q

theorem mem_of_appends [DecidableEq P] (hs : Sync.step (code size quota) s a = some s')
    (h : Appends s a p b) : b ∈ s'.data.block := by
  obtain ⟨x, used, rfl, hpc⟩ := h
  rw [step_of_access hpc rfl] at hs
  cases hs
  exact mem_absorb.mpr (Or.inl rfl)

/-- The block was written at some step from `i` on by the `commit` that `q` is still in. -/
def CopiedIn [DecidableEq P] (r : Run (Sync.step (code (B := B) (P := P) size quota))) (i m : ℕ)
    (q : P) (b : B) : Prop :=
  ∃ c, i ≤ c ∧ c < m ∧ Copies (r.state c) (r.action c) q b ∧
    ∀ n, c ≤ n → n ≤ m → ((r.state n).locs q).inCommit = true

variable [DecidableEq P] {r : Run (Sync.step (code (B := B) (P := P) size quota))} {i m : ℕ}

theorem CopiedIn.succ (h : CopiedIn r i m q b) (hq : ((r.state (m + 1)).locs q).inCommit = true) :
    CopiedIn r i (m + 1) q b := by
  obtain ⟨c, hic, hcm, hcopy, hin⟩ := h
  refine ⟨c, hic, by omega, hcopy, fun n hcn hn => ?_⟩
  obtain hn | rfl := Nat.le_succ_iff.mp hn
  · exact hin n hcn hn
  · exact hq

/-- Up to the next commit the log only grows, and what is in front of the counter of `write_log`
has been written by it. -/
structure Growing (r : Run (Sync.step (code (B := B) (P := P) size quota))) (i m : ℕ) : Prop where
  installing : ∀ q, ((r.state m).locs q).installing = false
  appended : ∀ w, i ≤ w → w < m → ∀ p b, Appends (r.state w) (r.action w) p b →
    b ∈ (r.state m).data.block
  copied : ∀ q, ∀ b ∈ ((r.state m).locs q).copied (r.state m).data.block, CopiedIn r i m q b

theorem Growing.succ [Fintype P] (h : Growing r i m) (him : i ≤ m)
    (hcons : Consistent quota (r.state m).data (r.state m).locs)
    (hs : Sync.step (code size quota) (r.state m) (r.action m) = some (r.state (m + 1)))
    (hno : ∀ q, ¬ Commits (r.state m) (r.action m) q) : Growing r i (m + 1) := by
  refine ⟨not_installing_step hs hno h.installing, fun w hiw hw p b hb => ?_, fun q b hb => ?_⟩
  · obtain hw | rfl := Nat.lt_succ_iff_lt_or_eq.mp hw
    · have hmem := h.appended w hiw hw p b hb
      obtain ⟨p', x, l', -, hstep, -, -⟩ | ⟨hdata, -⟩ := step_log hs
      · exact hstep.block_subset (h.installing p') hmem
      · rwa [hdata]
    · exact mem_of_appends hs hb
  · have hin := Loc.inCommit_of_copied hb
    obtain ⟨p, x, l', ha, hstep, hpc, hlocs⟩ | ⟨hdata, hlocs⟩ := step_log hs
    · by_cases hqp : q = p
      · subst hqp
        rw [hlocs, update_self] at hb
        obtain hb | ⟨tail, hl, htail⟩ := hstep.mem_copied hb
        · exact (h.copied q b hb).succ hin
        · refine ⟨m, him, by omega, ⟨x, tail, ha, by rw [hpc, hl], htail⟩, fun n hmn hn => ?_⟩
          obtain rfl | rfl : n = m ∨ n = m + 1 := by omega
          · simp [hl, Loc.inCommit]
          · exact hin
      · rw [hlocs, update_of_ne hqp] at hb hin
        -- `q` is committing, so nobody is in an operation
        have hp := hcons.not_inOp ((hcons.ok q).committing hin) p
        rw [hstep.block_eq (h.installing p) hp] at hb
        refine (h.copied q b hb).succ ?_
        rw [hlocs, update_of_ne hqp]
        exact hin
    · rw [hdata, hlocs] at hb
      refine (h.copied q b hb).succ ?_
      rw [hlocs]
      exact Loc.inCommit_of_copied hb

end Split

/-- While `commit` runs there is no operation in progress and so no `log_write`, `end_op` does
not panic, and the log holds no block twice. What an operation passes to `log_write` while it
is in progress, over positions `i` to `e`, is written to the log by one `commit`: that which
writes the next header, after the operation. -/
theorem no_op_is_split [Fintype P] [DecidableEq P] (size quota : ℕ) :
    (∀ s : State P Unit Unit (Log B) (Loc B), Reachable (code size quota) .idle init s →
      (s.data.committing = true → s.data.outstanding = 0 ∧ ∀ p, (s.locs p).inOp = false) ∧
      (∀ p used, s.locs p ≠ .panic .committing used) ∧ s.data.block.Nodup) ∧
    (∀ r : Run (Sync.step (code (P := P) (B := B) size quota)), r.state 0 = State.init .idle init →
      ∀ p q i e h, i ≤ e → i ≤ h → h < r.length →
      (∀ m, i ≤ m → m ≤ e → ((r.state m).locs p).inOp = true) →
      Commits (r.state h) (r.action h) q →
      (∀ m, i ≤ m → m < h → ∀ q, ¬ Commits (r.state m) (r.action m) q) →
      e < h ∧ ∀ w b, i ≤ w → w ≤ e → Appends (r.state w) (r.action w) p b →
        ∃ c, e < c ∧ c < h ∧ Copies (r.state c) (r.action c) q b ∧
          ∀ n, c ≤ n → n ≤ h → ((r.state n).locs q).inCommit = true) := by
  refine ⟨fun s h => ?_, fun r h0 p q i e h hie hih hh hop hcommit hfirst => ?_⟩
  · have hcons := consistent h
    exact ⟨fun hc => ⟨hcons.exclusive hc, hcons.not_inOp hc⟩,
      fun p => (hcons.ok p).noPanic, hcons.nodup⟩
  have hcons : ∀ m ≤ h, Consistent quota (r.state m).data (r.state m).locs :=
    fun m hm => consistent (.of_run r h0 (hm.trans hh.le))
  -- an operation in progress excludes a commit
  have hout : ∀ m, i ≤ m → m ≤ e → m ≤ h → ∀ q, ((r.state m).locs q).inCommit = true → False := by
    intro m him hme hmh q hin
    have := (hcons m hmh).not_inOp (((hcons m hmh).ok q).committing hin) p
    simp [hop m him hme] at this
  have hgrow : Growing r i h := by
    refine r.induct_between (P := Growing r i) hih hh.le ⟨fun q => ?_, ?_, fun q b hb => ?_⟩
      fun m him hm hs hm' => hm'.succ him (hcons m hm.le) hs (hfirst m him hm)
    · by_contra hinst
      exact hout i le_rfl hie hih q (Loc.inCommit_of_installing (by simpa using hinst))
    · intro w hiw hwi
      omega
    · exact (hout i le_rfl hie hih q (Loc.inCommit_of_copied hb)).elim
  obtain ⟨x, hx, hpc⟩ := hcommit
  have hloc : (r.state h).locs q = .writeHead := by simp [State.locs, hpc, Pc.loc]
  have heh : e < h := by
    by_contra hle
    exact hout h hih (not_lt.mp hle) le_rfl q (by simp [hloc, Loc.inCommit])
  refine ⟨heh, fun w b hiw hwe hb => ?_⟩
  have hmem := hgrow.appended w hiw (by omega) p b hb
  obtain ⟨c, hic, hch, hcopy, hin⟩ := hgrow.copied q b (by simpa [hloc, Loc.copied] using hmem)
  refine ⟨c, ?_, hch, hcopy, hin⟩
  by_contra hce
  exact hout c hic (not_lt.mp hce) hch.le q (hin c le_rfl hch.le)

/-- Two operations overlap and log blocks 7 and 8; the second to end commits. -/
def sharedActions : List (Action Bool (Call ℕ)) :=
  List.replicate 3 (.step false .beginOp) ++ List.replicate 3 (.step true .beginOp) ++
    List.replicate 5 (.step false (.logWrite 7)) ++ List.replicate 5 (.step true (.logWrite 8)) ++
    List.replicate 6 (.step false .endOp) ++ List.replicate 8 (.step true .endOp)

def sharedRun : Run (Sync.step (code (P := Bool) (B := ℕ) LOGSIZE MAXOPBLOCKS)) :=
  Run.ofActions (State.init .idle init) sharedActions (by decide +kernel)

theorem no_op_is_split_shared :
    ∃ c, 17 < c ∧ c < 29 ∧ Copies (sharedRun.state c) (sharedRun.action c) true 7 := by
  have hop : ∀ m < 18, 2 ≤ m → ((sharedRun.state m).locs false).inOp = true := by decide +kernel
  have hfirst : ∀ m < 29, ∀ q, (sharedRun.state m).locs q ≠ .writeHead := by decide +kernel
  obtain ⟨-, hsame⟩ := (no_op_is_split LOGSIZE MAXOPBLOCKS).2 sharedRun rfl false true 2 17 29
    (by decide) (by decide) (by decide) (fun m h2 h17 => hop m (by omega) h2) ⟨.endOp, rfl, rfl⟩
    (by
      rintro m - hm q ⟨x, -, hpc⟩
      exact hfirst m hm q (by simp [State.locs, hpc, Pc.loc]))
  obtain ⟨c, hc, hch, hcopy, -⟩ := hsame 9 7 (by decide) (by decide) ⟨.logWrite 7, [], rfl, rfl⟩
  exact ⟨c, hc, hch, hcopy⟩

end Log

end Sync

end Xv6
