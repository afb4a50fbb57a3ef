import Mathlib.Algebra.Order.BigOperators.Group.Finset
import Mathlib.Data.Fintype.Basic
import Mathlib.Tactic.Simps.Basic
import Xv6.Lib.Ring
import Xv6.Lib.Run
import Xv6.Lib.Sum

/-!
# The buffer cache

The `n` buffers of `bio.c` with their least recently used list, shared by any number
of processes. A step is a critical section under `bcache.lock`, the taking or
giving back of a buffer's sleep lock, one transfer of `iderw`, or what the holder
of a buffer does to it in between. A commit is a sequence of such steps: it reads, changes,
writes and releases buffers like everybody else. A call that panics makes no step.
-/

namespace Xv6.Bio

open Function

/-- `struct buf` without its lock and links; the flags are `B_VALID` and `B_DIRTY`. -/
structure Buf (β : Type) where
  dev : ℕ
  blockno : ℕ
  valid : Bool
  dirty : Bool
  refcnt : ℕ
  data : β

/-- Where a process is: outside; in `bread`, before `acquiresleep` and before the test of
`B_VALID`; or in `brelse`, before the section that drops the reference. -/
inductive Pc (n : ℕ) where
  | idle
  | lock (dev blockno : ℕ) (b : Fin n)
  | read (dev blockno : ℕ) (b : Fin n)
  | unref (b : Fin n)

/-- What a process does next when it is outside. `write` is an assignment to `b->data`. -/
inductive Call (β : Type) (n : ℕ) where
  | bread (dev blockno : ℕ)
  | write (b : Fin n) (data : β)
  | bwrite (b : Fin n)
  | logWrite (b : Fin n)
  | brelse (b : Fin n)

structure State (P β : Type) (n : ℕ) where
  buf : Fin n → Buf β
  /-- Who has `b->lock`. -/
  lock : Fin n → Option P
  /-- The holder has assigned to `b->data` since it got the lock or called `bwrite`. -/
  changed : Fin n → Bool
  links : Links (Fin n)
  /-- The blocks of device 1. -/
  disk : ℕ → β
  pc : P → Pc n

section Step

variable {P β : Type} {n : ℕ} [DecidableEq P]

namespace State

@[simps -fullyApplied]
def setBuf (s : State P β n) (b : Fin n) (x : Buf β) : State P β n :=
  { s with buf := update s.buf b x }

@[simps -fullyApplied]
def setPc (s : State P β n) (p : P) (c : Pc n) : State P β n :=
  { s with pc := update s.pc p c }

end State

/-- All buffers are linked, the last one first; `bcache` is zeroed memory otherwise. -/
def binit (data : β) (disk : ℕ → β) : State P β n where
  buf _ := ⟨0, 0, false, false, 0, data⟩
  lock _ := none
  changed _ := false
  links := (List.finRange n).foldl Links.pushFront ⟨fun _ => none, fun _ => none⟩
  disk := disk
  pc _ := .idle

/-- The buffer for a block, with one more reference. -/
def bget (s : State P β n) (dev blockno : ℕ) : Option (Fin n × State P β n) :=
  match ringScan s.links.next
      (fun b => (s.buf b).dev = dev ∧ (s.buf b).blockno = blockno) n (s.links.next none) with
  | some b => some (b, s.setBuf b { s.buf b with refcnt := (s.buf b).refcnt + 1 })
  | none =>
    match ringScan s.links.prev
        (fun b => (s.buf b).refcnt = 0 ∧ (s.buf b).dirty = false) n (s.links.prev none) with
    | some b => some (b, s.setBuf b ⟨dev, blockno, false, false, 1, (s.buf b).data⟩)
    | none => none

/-- `iderw` of `memide.c`, on a disk of `disksize` blocks. -/
def iderw (disksize : ℕ) (s : State P β n) (b : Fin n) : Option (State P β n) :=
  let x := s.buf b
  if x.valid ∧ ¬ x.dirty then none
  else if x.dev ≠ 1 then none
  else if disksize ≤ x.blockno then none
  else if x.dirty then
    some { s.setBuf b { x with valid := true, dirty := false } with
      disk := update s.disk x.blockno x.data }
  else some (s.setBuf b { x with valid := true, data := s.disk x.blockno })

/-- The section of `brelse` under `bcache.lock`. -/
def unref (s : State P β n) (b : Fin n) : State P β n :=
  let s' := s.setBuf b { s.buf b with refcnt := (s.buf b).refcnt - 1 }
  if (s.buf b).refcnt - 1 = 0 then { s' with links := (s.links.unlink b).pushFront b } else s'

section

variable (s : State P β n) (b : Fin n)

omit [DecidableEq P]

@[simp] theorem unref_buf : (unref s b).buf =
    update s.buf b { s.buf b with refcnt := (s.buf b).refcnt - 1 } := by
  simp only [unref]
  split <;> rfl

@[simp] theorem unref_lock : (unref s b).lock = s.lock := by
  simp only [unref]
  split <;> rfl

@[simp] theorem unref_changed : (unref s b).changed = s.changed := by
  simp only [unref]
  split <;> rfl

@[simp] theorem unref_disk : (unref s b).disk = s.disk := by
  simp only [unref]
  split <;> rfl

@[simp] theorem unref_pc : (unref s b).pc = s.pc := by
  simp only [unref]
  split <;> rfl

end

/-- A process outside makes a call. It assigns to the data of buffers it holds only, and
releases no buffer that it has changed without `log_write` or `bwrite`. -/
def call (disksize : ℕ) (s : State P β n) (p : P) : Call β n → Option (State P β n)
  | .bread dev blockno => (bget s dev blockno).map fun (b, s') => s'.setPc p (.lock dev blockno b)
  | .write b data =>
    if s.lock b = some p then
      some { s.setBuf b { s.buf b with data := data } with
        changed := update s.changed b true }
    else none
  | .bwrite b =>
    if s.lock b = some p then
      (iderw disksize (s.setBuf b { s.buf b with dirty := true }) b).map fun s' =>
        { s' with changed := update s.changed b false }
    else none
  | .logWrite b =>
    if s.lock b = some p then some (s.setBuf b { s.buf b with dirty := true }) else none
  | .brelse b =>
    if s.lock b = some p ∧ (s.changed b → (s.buf b).dirty) then
      some ({ s with
        lock := update s.lock b none
        changed := update s.changed b false }.setPc p (.unref b))
    else none

def step (disksize : ℕ) (s : State P β n) : P × Call β n → Option (State P β n)
  | (p, x) =>
    match s.pc p with
    | .idle => call disksize s p x
    | .lock dev blockno b =>
      if s.lock b = none then
        some ({ s with lock := update s.lock b (some p) }.setPc p (.read dev blockno b))
      else none
    | .read _ _ b =>
      if (s.buf b).valid then some (s.setPc p .idle)
      else (iderw disksize s b).map fun s' => s'.setPc p .idle
    | .unref b => some ((unref s b).setPc p .idle)

/-! ### The steps -/

/-- The buffer carries the block. -/
def State.Carries (s : State P β n) (b : Fin n) (dev blockno : ℕ) : Prop :=
  (s.buf b).dev = dev ∧ (s.buf b).blockno = blockno

/-- Every buffer is on the list. -/
def State.Linked (s : State P β n) : Prop := ∃ xs, IsRing s.links xs ∧ ∀ b, b ∈ xs

/-- The steps, with what the loops of `bget` have found. -/
inductive StepCase (disksize : ℕ) (s : State P β n) : P × Call β n → State P β n → Prop where
  | hit {p dev blockno b} (hpc : s.pc p = .idle) (hb : s.Carries b dev blockno) :
      StepCase disksize s (p, .bread dev blockno)
        ((s.setBuf b { s.buf b with refcnt := (s.buf b).refcnt + 1 }).setPc p (.lock dev blockno b))
  | recycle {p dev blockno b} (hpc : s.pc p = .idle) (hno : ∀ b, ¬ s.Carries b dev blockno)
      (href : (s.buf b).refcnt = 0) (hclean : (s.buf b).dirty = false) :
      StepCase disksize s (p, .bread dev blockno)
        ((s.setBuf b ⟨dev, blockno, false, false, 1, (s.buf b).data⟩).setPc p (.lock dev blockno b))
  | write {p b data} (hpc : s.pc p = .idle) (hlk : s.lock b = some p) :
      StepCase disksize s (p, .write b data)
        { s.setBuf b { s.buf b with data := data } with
          changed := update s.changed b true }
  | bwrite {p b} (hpc : s.pc p = .idle) (hlk : s.lock b = some p) (hdev : (s.buf b).dev = 1) :
      StepCase disksize s (p, .bwrite b)
        { s.setBuf b { s.buf b with valid := true, dirty := false } with
          disk := update s.disk (s.buf b).blockno (s.buf b).data
          changed := update s.changed b false }
  | logWrite {p b} (hpc : s.pc p = .idle) (hlk : s.lock b = some p) :
      StepCase disksize s (p, .logWrite b) (s.setBuf b { s.buf b with dirty := true })
  | brelse {p b} (hpc : s.pc p = .idle) (hlk : s.lock b = some p)
      (hdone : s.changed b = true → (s.buf b).dirty = true) :
      StepCase disksize s (p, .brelse b)
        ({ s with
          lock := update s.lock b none
          changed := update s.changed b false }.setPc p (.unref b))
  | lock {p x dev blockno b} (hpc : s.pc p = .lock dev blockno b) (hlk : s.lock b = none) :
      StepCase disksize s (p, x)
        ({ s with lock := update s.lock b (some p) }.setPc p (.read dev blockno b))
  | valid {p x dev blockno b} (hpc : s.pc p = .read dev blockno b) (hv : (s.buf b).valid = true) :
      StepCase disksize s (p, x) (s.setPc p .idle)
  | load {p x dev blockno b} (hpc : s.pc p = .read dev blockno b) (hv : (s.buf b).valid = false)
      (hd : (s.buf b).dirty = false) (hdev : (s.buf b).dev = 1) :
      StepCase disksize s (p, x)
        ((s.setBuf b { s.buf b with
          valid := true, dirty := false, data := s.disk (s.buf b).blockno }).setPc p .idle)
  | unref {p x b} (hpc : s.pc p = .unref b) :
      StepCase disksize s (p, x) ((unref s b).setPc p .idle)

omit [DecidableEq P] in
/-- What the two loops of `bget` find on the list. -/
theorem bget_eq_some {s s' : State P β n} {dev blockno : ℕ} {b : Fin n} (hl : s.Linked)
    (h : bget s dev blockno = some (b, s')) :
    (s.Carries b dev blockno ∧ s' = s.setBuf b { s.buf b with refcnt := (s.buf b).refcnt + 1 }) ∨
    ((∀ b, ¬ s.Carries b dev blockno) ∧ (s.buf b).refcnt = 0 ∧ (s.buf b).dirty = false ∧
      s' = s.setBuf b ⟨dev, blockno, false, false, 1, (s.buf b).data⟩) := by
  obtain ⟨xs, hring, hmem⟩ := hl
  have hlen : xs.length ≤ n := by simpa using hring.nodup.length_le_card
  rw [bget, hring.visits_next.ringScan_eq _ hlen,
    hring.visits_prev.ringScan_eq _ (by simpa using hlen)] at h
  split at h
  · next b' hb' =>
    simp only [Option.some.injEq, Prod.mk.injEq] at h
    obtain ⟨rfl, rfl⟩ := h
    have hfound := List.find?_some hb'
    simp only [decide_eq_true_eq] at hfound
    exact Or.inl ⟨hfound, rfl⟩
  · next hnone =>
    split at h
    · next b' hb' =>
      simp only [Option.some.injEq, Prod.mk.injEq] at h
      obtain ⟨rfl, rfl⟩ := h
      have hfound := List.find?_some hb'
      simp only [decide_eq_true_eq] at hfound
      refine Or.inr ⟨fun c hc => ?_, hfound.1, hfound.2, rfl⟩
      exact List.find?_eq_none.mp hnone c (hmem c) (decide_eq_true hc)
    · simp at h

theorem step_cases {disksize : ℕ} {s s' : State P β n} {a : P × Call β n} (hl : s.Linked)
    (hdirty : ∀ b, (s.buf b).dirty = true → (s.buf b).valid = true)
    (h : step disksize s a = some s') : StepCase disksize s a s' := by
  obtain ⟨p, x⟩ := a
  cases hpc : s.pc p with
  | idle =>
    simp only [step, hpc] at h
    cases x with
    | bread dev blockno =>
      obtain ⟨⟨b, s₁⟩, hget, rfl⟩ := Option.map_eq_some_iff.mp h
      obtain ⟨hb, rfl⟩ | ⟨hno, href, hd, rfl⟩ := bget_eq_some hl hget
      · exact .hit hpc hb
      · exact .recycle hpc hno href hd
    | write b data =>
      simp only [call, Option.ite_none_right_eq_some, Option.some.injEq] at h
      obtain ⟨hlk, rfl⟩ := h
      exact .write hpc hlk
    | bwrite b =>
      simp only [call, Option.ite_none_right_eq_some] at h
      obtain ⟨hlk, h⟩ := h
      obtain ⟨s₁, hs₁, rfl⟩ := Option.map_eq_some_iff.mp h
      simp only [iderw, State.setBuf_buf, update_self, not_true_eq_false, and_false,
        if_false, if_true, Option.ite_none_left_eq_some, Option.some.injEq, not_not] at hs₁
      obtain ⟨hdev, -, rfl⟩ := hs₁
      have hcase : StepCase disksize s (p, .bwrite b) _ := .bwrite hpc hlk hdev
      simpa [State.setBuf] using hcase
    | logWrite b =>
      simp only [call, Option.ite_none_right_eq_some, Option.some.injEq] at h
      obtain ⟨hlk, rfl⟩ := h
      exact .logWrite hpc hlk
    | brelse b =>
      simp only [call, Option.ite_none_right_eq_some, Option.some.injEq] at h
      obtain ⟨⟨hlk, hdone⟩, rfl⟩ := h
      exact .brelse hpc hlk hdone
  | lock dev blockno b =>
    simp only [step, hpc, Option.ite_none_right_eq_some, Option.some.injEq] at h
    obtain ⟨hlk, rfl⟩ := h
    exact .lock hpc hlk
  | read dev blockno b =>
    simp only [step, hpc] at h
    cases hv : (s.buf b).valid with
    | true =>
      rw [hv, if_pos rfl] at h
      cases h
      exact .valid hpc hv
    | false =>
      have hd : (s.buf b).dirty = false := by
        cases hd : (s.buf b).dirty with
        | true => exact absurd (hdirty b hd) (by simp [hv])
        | false => rfl
      rw [hv, if_neg (by simp)] at h
      obtain ⟨s₁, hs₁, rfl⟩ := Option.map_eq_some_iff.mp h
      simp only [iderw, hv, hd, Bool.false_eq_true, false_and, if_false,
        Option.ite_none_left_eq_some, Option.some.injEq, not_not] at hs₁
      obtain ⟨hdev, -, rfl⟩ := hs₁
      exact .load hpc hv hd hdev
  | unref b =>
    simp only [step, hpc, Option.some.injEq] at h
    subst h
    exact .unref hpc

end Step

/-! ### References, locks and contents -/

section Inv

variable {P β : Type} {n : ℕ}

/-- A reference that is not the one that goes with the lock: of a process that waits for
the lock, or that has given it back. -/
def Pc.waits (b : Fin n) : Pc n → ℕ
  | .lock _ _ b' | .unref b' => if b' = b then 1 else 0
  | _ => 0

/-- The process has the lock of `b` and `bread` has not returned yet. -/
def Pc.Reads (b : Fin n) : Pc n → Prop
  | .read _ _ b' => b' = b
  | _ => False

/-- The block that the process has asked for is to be in the buffer. -/
def Pc.Target (dev blockno : ℕ) (b : Fin n) : Pc n → Prop
  | .lock dev' blockno' b' | .read dev' blockno' b' => dev' = dev ∧ blockno' = blockno ∧ b' = b
  | _ => False

/-- A process works on the buffer. -/
def State.Held (s : State P β n) (b : Fin n) : Prop := ∃ p, s.lock b = some p ∧ ¬ (s.pc p).Reads b

def State.users [Fintype P] (s : State P β n) (b : Fin n) : ℕ :=
  (if (s.lock b).isSome then 1 else 0) + ∑ p, (s.pc p).waits b

/-- The control side: the list, the reference counts, and who has which lock. -/
structure Refs [Fintype P] (s : State P β n) : Prop where
  linked : s.Linked
  refcnt : ∀ b, (s.buf b).refcnt = s.users b
  target : ∀ p dev blockno b, (s.pc p).Target dev blockno b → s.Carries b dev blockno
  reads : ∀ p b, (s.pc p).Reads b → s.lock b = some p

/-- A buffer: `v` is the contents that its block had when it was last released. While somebody
works on it, it may differ from the disk only if it has been changed or is pinned. -/
structure Ok (x : Buf β) (held : Prop) (changed : Bool) (v onDisk : β) : Prop where
  dirty : x.dirty = true → x.valid = true
  dev : x.valid = true → x.dev = 1
  used : held → x.valid = true ∧ (x.dirty = false → changed = false → onDisk = x.data)
  settled : ¬ held → changed = false ∧
    (x.dev = 1 → (x.valid = true → x.data = v) ∧ (x.dirty = false → onDisk = v))

/-- The data side, for the contents `V` that the blocks had when they were last released. -/
structure Contents (s : State P β n) (V : ℕ → ℕ → β) : Prop where
  unique : ∀ b c, (s.buf b).dev ≠ 0 → (s.buf c).dev = (s.buf b).dev →
    (s.buf c).blockno = (s.buf b).blockno → b = c
  ok : ∀ b, Ok (s.buf b) (s.Held b) (s.changed b) (V 1 (s.buf b).blockno)
    (s.disk (s.buf b).blockno)
  uncached : ∀ k, (∀ b, ¬ s.Carries b 1 k) → s.disk k = V 1 k

variable {s s' : State P β n} {p : P} {b : Fin n} {c : Pc n} {V : ℕ → ℕ → β} {x : Buf β}

theorem State.setBuf_same {b d : Fin n} {γ : Type} (f : Buf β → γ) (hx : f x = f (s.buf b)) :
    f ((s.setBuf b x).buf d) = f (s.buf d) := by
  by_cases hd : d = b
  · subst hd
    simpa using hx
  · simp [hd]

theorem Ok.congr {held held' : Prop} {ch : Bool} {v v' o o' : β} (h : Ok x held ch v o)
    (hheld : held' ↔ held) (hv : x.dev = 1 → v' = v) (ho : x.dev = 1 → o' = o) :
    Ok x held' ch v' o' where
  dirty := h.dirty
  dev := h.dev
  used hh := by
    obtain ⟨hval, hdata⟩ := h.used (hheld.mp hh)
    rw [ho (h.dev hval)]
    exact ⟨hval, hdata⟩
  settled hh := by
    refine ⟨(h.settled (hheld.not.mp hh)).1, fun hdev => ?_⟩
    rw [hv hdev, ho hdev]
    exact (h.settled (hheld.not.mp hh)).2 hdev

/-- A step that leaves every buffer its block and works on one buffer only. -/
theorem Contents.keep {V' : ℕ → ℕ → β} (h : Contents s V) (hbuf : s'.buf = update s.buf b x)
    (hdev : x.dev = (s.buf b).dev) (hno : x.blockno = (s.buf b).blockno)
    (hheld : ∀ d ≠ b, (s'.Held d ↔ s.Held d))
    (hch : ∀ d ≠ b, s'.changed d = s.changed d)
    (hdisk : ∀ k, ¬ s.Carries b 1 k → s'.disk k = s.disk k)
    (hV : ∀ k, ¬ s.Carries b 1 k → V' 1 k = V 1 k)
    (hok : Ok x (s'.Held b) (s'.changed b) (V' 1 (s.buf b).blockno)
      (s'.disk (s.buf b).blockno)) : Contents s' V' := by
  have hdev' : ∀ d, (s'.buf d).dev = (s.buf d).dev := fun d =>
    hbuf ▸ State.setBuf_same Buf.dev hdev
  have hno' : ∀ d, (s'.buf d).blockno = (s.buf d).blockno := fun d =>
    hbuf ▸ State.setBuf_same Buf.blockno hno
  refine ⟨fun d e => ?_, fun d => ?_, fun k hk => ?_⟩
  · rw [hdev', hdev', hno', hno']
    exact h.unique d e
  · by_cases hd : d = b
    · subst hd
      rw [hbuf, update_self, hno]
      exact hok
    · rw [hbuf, update_of_ne hd, hch d hd]
      -- no other buffer has the block of `b`
      have hne : (s.buf d).dev = 1 → ¬ s.Carries b 1 (s.buf d).blockno := fun h₁ hc =>
        hd (h.unique d b (by simp [h₁]) (hc.1.trans h₁.symm) hc.2)
      exact (h.ok d).congr (hheld d hd) (fun h₁ => hV _ (hne h₁)) fun h₁ => hdisk _ (hne h₁)
  · have hk' : ∀ d, ¬ s.Carries d 1 k := fun d hd =>
      hk d ⟨(hdev' d).trans hd.1, (hno' d).trans hd.2⟩
    rw [hdisk k (hk' b), hV k (hk' b)]
    exact h.uncached k hk'

theorem Ok.refcnt {held : Prop} {ch : Bool} {v o : β} (h : Ok x held ch v o) (m : ℕ) :
    Ok { x with refcnt := m } held ch v o :=
  ⟨h.dirty, h.dev, h.used, h.settled⟩

theorem not_held_of_free (hlk : s.lock b = none) : ¬ s.Held b := by
  rintro ⟨p, hp, -⟩
  simp [hlk] at hp

theorem not_held_of_reads (hlk : s.lock b = some p) (hr : (s.pc p).Reads b) : ¬ s.Held b := by
  rintro ⟨q, hq, hnr⟩
  rw [hlk] at hq
  exact hnr (Option.some.inj hq ▸ hr)

variable [Fintype P]

/-- Recycled buffers and buffers with a reference less are in nobody's hands. -/
theorem Refs.unused (h : Refs s) (hb : (s.buf b).refcnt = 0) :
    s.lock b = none ∧ ∀ p, (s.pc p).waits b = 0 := by
  rw [h.refcnt, State.users, Nat.add_eq_zero_iff] at hb
  refine ⟨?_, fun p => ?_⟩
  · cases hl : s.lock b with
    | none => rfl
    | some p => simp [hl] at hb
  · exact Finset.sum_eq_zero_iff.mp hb.2 p (Finset.mem_univ p)

theorem Refs.lock_ne_none (h : Refs s) (hb : (s.pc p).Reads b) : s.lock b ≠ none := by
  rw [h.reads p b hb]
  exact Option.some_ne_none p

/-- No process has asked for what is in an unused buffer. -/
theorem Refs.not_target_of_unused (h : Refs s) (hb : (s.buf b).refcnt = 0) (dev blockno : ℕ) :
    ¬ (s.pc p).Target dev blockno b := by
  obtain ⟨hlk, hw⟩ := h.unused hb
  intro ht
  have hp := hw p
  cases hc : s.pc p <;> rw [hc] at ht hp
  case lock => simp [Pc.waits, ht.2.2] at hp
  case read =>
    refine h.lock_ne_none (p := p) (b := b) ?_ hlk
    rw [hc]
    exact ht.2.2
  all_goals exact ht

/-- Data and flags are of no concern here. -/
theorem Refs.congr (h : Refs s) (hpc : s'.pc = s.pc) (hlock : s'.lock = s.lock)
    (hlinks : s'.links = s.links)
    (hbuf : ∀ d, (s'.buf d).refcnt = (s.buf d).refcnt ∧ (s'.buf d).dev = (s.buf d).dev ∧
      (s'.buf d).blockno = (s.buf d).blockno) : Refs s' := by
  refine ⟨?_, fun d => ?_, fun q dev blockno d hq => ?_, fun q d hq => ?_⟩
  · unfold State.Linked
    rw [hlinks]
    exact h.linked
  · rw [(hbuf d).1, h.refcnt, State.users, State.users, hpc, hlock]
  · have := h.target q _ _ _ (hpc ▸ hq)
    exact ⟨(hbuf d).2.1.trans this.1, (hbuf d).2.2.trans this.2⟩
  · rw [hlock]
    exact h.reads q d (hpc ▸ hq)

variable [DecidableEq P]

/-- One process moves, and with it the lock, the count and the block of one buffer. -/
theorem Refs.move (h : Refs s) (hpc : s'.pc = update s.pc p c) (hlinked : s'.Linked)
    (hlock : ∀ d ≠ b, s'.lock d = s.lock d)
    (hbuf : ∀ d ≠ b, (s'.buf d).refcnt = (s.buf d).refcnt ∧ (s'.buf d).dev = (s.buf d).dev ∧
      (s'.buf d).blockno = (s.buf d).blockno)
    (hwaits : ∀ d ≠ b, c.waits d = (s.pc p).waits d)
    (hcount : (s'.buf b).refcnt + (if (s.lock b).isSome then 1 else 0) + (s.pc p).waits b =
      (s.buf b).refcnt + (if (s'.lock b).isSome then 1 else 0) + c.waits b)
    (htarget : ∀ dev blockno d, c.Target dev blockno d → s'.Carries d dev blockno)
    (htarget' : ∀ q dev blockno, q ≠ p → (s.pc q).Target dev blockno b → s'.Carries b dev blockno)
    (hreads : ∀ d, c.Reads d → s'.lock d = some p)
    (hreads' : ∀ q ≠ p, (s.pc q).Reads b → s'.lock b = some q) : Refs s' := by
  have hother : ∀ q ≠ p, s'.pc q = s.pc q := fun q hq => by rw [hpc, update_of_ne hq]
  have hself : s'.pc p = c := by rw [hpc, update_self]
  refine ⟨hlinked, fun d => ?_, fun q dev blockno d hq => ?_, fun q d hq => ?_⟩
  · have hsum := Finset.sum_update_add_self (g := s.pc) (Finset.mem_univ p) c (Pc.waits d)
    have hold := h.refcnt d
    rw [State.users] at hold ⊢
    rw [hpc]
    by_cases hd : d = b
    · subst hd
      omega
    · rw [(hbuf d hd).1, hlock d hd]
      have := hwaits d hd
      omega
  · by_cases hqp : q = p
    · subst hqp
      exact htarget _ _ _ (hself ▸ hq)
    · rw [hother q hqp] at hq
      by_cases hd : d = b
      · exact hd ▸ htarget' q _ _ hqp (hd ▸ hq)
      · have := h.target q _ _ _ hq
        exact ⟨(hbuf d hd).2.1.trans this.1, (hbuf d hd).2.2.trans this.2⟩
  · by_cases hqp : q = p
    · subst hqp
      exact hreads d (hself ▸ hq)
    · rw [hother q hqp] at hq
      by_cases hd : d = b
      · exact hd ▸ hreads' q hqp (hd ▸ hq)
      · rw [hlock d hd]
        exact h.reads q d hq

theorem Refs.unref (h : Refs s) (hpc : s.pc p = .unref b) :
    Refs ((unref s b).setPc p .idle) := by
  -- the reference of `p` itself is counted
  have hpos : 0 < (s.buf b).refcnt := by
    rw [h.refcnt, State.users]
    have hle : (s.pc p).waits b ≤ ∑ q, (s.pc q).waits b :=
      Finset.single_le_sum (f := fun q => (s.pc q).waits b) (fun q _ => Nat.zero_le _)
        (Finset.mem_univ p)
    have hone : (s.pc p).waits b = 1 := by simp [hpc, Pc.waits]
    omega
  refine h.move (b := b) (p := p) (c := .idle) (by simp) ?_ (fun d _ => by simp)
    (fun d hd => by simp [hd]) (fun d hd => by simp [hpc, Pc.waits, Ne.symm hd]) ?_
    (fun _ _ _ ht => absurd ht id) (fun q dev blockno hq ht => ?_) (fun _ hr => absurd hr id)
    (fun q _ hr => (congrFun (unref_lock s b) b).trans (h.reads q b hr))
  · obtain ⟨xs, hring, hmem⟩ := h.linked
    simp only [State.Linked, Bio.unref, State.setPc_links]
    split
    · exact ⟨b :: xs.erase b, hring.moveFront (hmem b), fun d => by
        by_cases hd : d = b
        · simp [hd]
        · simp [List.mem_erase_of_ne hd, hmem]⟩
    · exact ⟨xs, hring, hmem⟩
  · simp only [hpc, Pc.waits, State.setPc_buf, unref_buf, update_self, State.setPc_lock,
      unref_lock, if_true]
    omega
  · simpa [State.Carries] using h.target q _ _ _ ht

theorem Refs.step {disksize : ℕ} {a : P × Call β n} (h : Refs s) (hs : StepCase disksize s a s') :
    Refs s' := by
  cases hs with
  | @hit p dev blockno b hpc hb =>
    refine h.move (b := b) (p := p) (c := .lock dev blockno b) rfl h.linked (fun d _ => rfl)
      (fun d hd => by simp [hd]) (fun d hd => by simp [hpc, Pc.waits, Ne.symm hd])
      (by simp [hpc, Pc.waits]; omega) ?_ ?_ (fun _ hr => absurd hr id)
      (fun q _ hr => h.reads q b hr)
    · rintro dev' blockno' d ⟨rfl, rfl, rfl⟩
      simpa [State.Carries] using hb
    · intro q dev' blockno' _ ht
      simpa [State.Carries] using h.target q _ _ _ ht
  | @recycle p dev blockno b hpc hno href hclean =>
    obtain ⟨hlk, -⟩ := h.unused href
    refine h.move (b := b) (p := p) (c := .lock dev blockno b) rfl h.linked (fun d _ => rfl)
      (fun d hd => by simp [hd]) (fun d hd => by simp [hpc, Pc.waits, Ne.symm hd])
      (by simp [hpc, Pc.waits, href, hlk]) ?_
      (fun q _ _ _ ht => absurd ht (h.not_target_of_unused href _ _)) (fun _ hr => absurd hr id)
      (fun q _ hr => absurd hlk (h.lock_ne_none hr))
    rintro dev' blockno' d ⟨rfl, rfl, rfl⟩
    simp [State.Carries]
  | write | logWrite | bwrite =>
    refine h.congr rfl rfl rfl fun d => ⟨?_, ?_, ?_⟩
    · exact State.setBuf_same Buf.refcnt rfl
    · exact State.setBuf_same Buf.dev rfl
    · exact State.setBuf_same Buf.blockno rfl
  | @brelse p b hpc hlk hdone =>
    refine h.move (b := b) (p := p) (c := .unref b) rfl h.linked (fun d hd => by simp [hd])
      (fun d hd => by simp) (fun d hd => by simp [hpc, Pc.waits, Ne.symm hd])
      (by simp [hpc, Pc.waits, hlk]) (fun _ _ _ ht => absurd ht id)
      (fun q _ _ _ ht => h.target q _ _ _ ht) (fun _ hr => absurd hr id) fun q hq hr => ?_
    -- the lock is that of `p`
    have := h.reads q b hr
    rw [hlk] at this
    exact absurd (Option.some.inj this).symm hq
  | @lock p x dev blockno b hpc hlk =>
    refine h.move (b := b) (p := p) (c := .read dev blockno b) rfl h.linked
      (fun d hd => by simp [hd])
      (fun d hd => by simp) (fun d hd => by simp [hpc, Pc.waits, Ne.symm hd])
      (by simp [hpc, Pc.waits, hlk]) ?_ (fun q _ _ _ ht => h.target q _ _ _ ht) ?_
      (fun q _ hr => absurd hlk (h.lock_ne_none hr))
    · intro dev' blockno' d ht
      refine h.target p _ _ _ ?_
      rw [hpc]
      exact ht
    · rintro d rfl
      simp
  | @valid p x dev blockno b hpc hv =>
    exact h.move (b := b) (p := p) (c := .idle) rfl h.linked (fun d hd => rfl) (fun d hd => by simp)
      (fun d hd => by simp [hpc, Pc.waits]) (by simp [hpc, Pc.waits]) (fun _ _ _ ht => absurd ht id)
      (fun q _ _ _ ht => h.target q _ _ _ ht) (fun _ hr => absurd hr id)
      (fun q _ hr => h.reads q b hr)
  | @load p x dev blockno b hpc hv hd hdev =>
    refine h.move (b := b) (p := p) (c := .idle) rfl h.linked (fun d hd => rfl)
      (fun d hd => by simp [hd]) (fun d hd => by simp [hpc, Pc.waits]) (by simp [hpc, Pc.waits])
      (fun _ _ _ ht => absurd ht id) (fun q dev blockno _ ht => ?_) (fun _ hr => absurd hr id)
      (fun q _ hr => h.reads q b hr)
    simpa [State.Carries] using h.target q _ _ _ ht
  | unref hpc => exact h.unref hpc

omit [Fintype P] in
theorem State.held_iff {d : Fin n} (hpc : s'.pc = update s.pc p c) (hlk : s'.lock d = s.lock d)
    (hreads : c.Reads d ↔ (s.pc p).Reads d) : s'.Held d ↔ s.Held d := by
  unfold State.Held
  rw [hlk, hpc]
  refine exists_congr fun q => and_congr_right fun _ => not_congr ?_
  by_cases hq : q = p
  · subst hq
    rwa [update_self]
  · rw [update_of_ne hq]

/-- The contents at the last release, after a step. -/
def nextReleased (s : State P β n) (a : P × Call β n) (V : ℕ → ℕ → β) : ℕ → ℕ → β :=
  match s.pc a.1, a.2 with
  | .idle, .brelse b => fun dev blockno =>
    if (s.buf b).dev = dev ∧ (s.buf b).blockno = blockno then (s.buf b).data else V dev blockno
  | _, _ => V

/-- A buffer is recycled: its old block is on disk as it was last released. -/
theorem Contents.recycle (hr : Refs s) (h : Contents s V) {dev blockno : ℕ}
    (hno : ∀ b, ¬ s.Carries b dev blockno) (href : (s.buf b).refcnt = 0)
    (hclean : (s.buf b).dirty = false) (hpc : s.pc p = .idle) :
    Contents ((s.setBuf b ⟨dev, blockno, false, false, 1, (s.buf b).data⟩).setPc p
      (.lock dev blockno b)) V := by
  obtain ⟨hlk, -⟩ := hr.unused href
  have hfree : ¬ s.Held b := not_held_of_free hlk
  have hheld : ∀ d, ((s.setBuf b ⟨dev, blockno, false, false, 1, (s.buf b).data⟩).setPc p
      (.lock dev blockno b)).Held d ↔ s.Held d :=
    fun d => State.held_iff (p := p) rfl rfl (by simp [hpc, Pc.Reads])
  refine ⟨fun d e hd he hb => ?_, fun d => ?_, fun k hk => ?_⟩
  · simp only [State.setPc_buf, State.setBuf_buf] at hd he hb
    by_cases hdb : d = b <;> by_cases heb : e = b
    · rw [hdb, heb]
    · rw [hdb, update_self, update_of_ne heb] at he hb
      exact absurd ⟨he, hb⟩ (hno e)
    · rw [heb, update_self, update_of_ne hdb] at he hb
      exact absurd ⟨he.symm, hb.symm⟩ (hno d)
    · rw [update_of_ne hdb] at hd he hb
      rw [update_of_ne heb] at he hb
      exact h.unique d e hd he hb
  · by_cases hd : d = b
    · subst hd
      have hset := (h.ok d).settled hfree
      simp only [State.setPc_buf, State.setBuf_buf, update_self]
      refine ⟨by simp, by simp, fun hh => absurd ((hheld d).mp hh) hfree, fun _ => ⟨hset.1, ?_⟩⟩
      rintro rfl
      exact ⟨by simp, fun _ => h.uncached blockno hno⟩
    · simp only [State.setPc_buf, State.setBuf_buf, update_of_ne hd]
      exact (h.ok d).congr (hheld d) (fun _ => rfl) fun _ => rfl
  · by_cases hb : s.Carries b 1 k
    · obtain ⟨hdev, rfl⟩ := hb
      exact (((h.ok b).settled hfree).2 hdev).2 hclean
    · refine h.uncached k fun d hd => ?_
      have hdb : d ≠ b := by
        rintro rfl
        exact hb hd
      exact hk d (by simpa [State.Carries, hdb] using hd)

theorem Contents.step {disksize : ℕ} {a : P × Call β n} (hr : Refs s) (h : Contents s V)
    (hs : StepCase disksize s a s') : Contents s' (nextReleased s a V) := by
  -- in its own code a process works on the buffers whose locks it has
  have hidle : ∀ {p b}, s.pc p = .idle → s.lock b = some p → s.Held b := fun hpc hlk =>
    ⟨_, hlk, by simp [hpc, Pc.Reads]⟩
  cases hs
  case brelse p b hpc hlk hdone =>
    obtain ⟨hval, hclean⟩ := (h.ok b).used (hidle hpc hlk)
    refine h.keep (update_eq_self b _).symm rfl rfl
      (fun d hd => State.held_iff (p := p) rfl (by simp [hd]) (by simp [hpc, Pc.Reads]))
      (fun d hd => by simp [hd]) (fun k _ => rfl) (fun k hk => ?_) ?_
    · simp only [nextReleased, hpc]
      exact if_neg hk
    · simp only [nextReleased, hpc, (h.ok b).dev hval, and_self, if_true]
      refine ⟨(h.ok b).dirty, (h.ok b).dev, fun hh => ?_,
        fun _ => ⟨by simp, fun _ => ⟨fun _ => rfl, ?_⟩⟩⟩
      · exact absurd hh (not_held_of_free (by simp))
      · intro hd
        have hd : (s.buf b).dirty = false := hd
        refine hclean hd ?_
        cases hc : s.changed b with
        | true => exact absurd (hdone hc) (by simp [hd])
        | false => rfl
  -- nothing else is a release
  all_goals rw [show nextReleased s _ V = V by simp [nextReleased, *]]
  case hit p dev blockno b hpc hb =>
    have hheld : ∀ d, ((s.setBuf b { s.buf b with refcnt := (s.buf b).refcnt + 1 }).setPc p
        (.lock dev blockno b)).Held d ↔ s.Held d :=
      fun d => State.held_iff (p := p) rfl rfl (by simp [hpc, Pc.Reads])
    refine h.keep rfl rfl rfl (fun d _ => hheld d)
      (fun d _ => rfl) (fun k _ => rfl) (fun k _ => rfl) ?_
    exact ((h.ok b).congr (hheld b) (fun _ => rfl) fun _ => rfl).refcnt _
  case recycle p dev blockno b hpc hno href hclean =>
    exact h.recycle hr hno href hclean hpc
  case write p b data hpc hlk =>
    have hheld := hidle hpc hlk
    refine h.keep rfl rfl rfl (fun d _ => Iff.rfl)
      (fun d hd => by simp [hd]) (fun k _ => rfl) (fun k _ => rfl) ?_
    exact ⟨(h.ok b).dirty, (h.ok b).dev, fun _ => ⟨((h.ok b).used hheld).1, by simp⟩,
      fun hno => absurd hheld hno⟩
  case bwrite p b hpc hlk hdev =>
    have hheld := hidle hpc hlk
    refine h.keep rfl rfl rfl (fun d _ => Iff.rfl)
      (fun d hd => by simp [hd]) (fun k hk => ?_) (fun k _ => rfl) ?_
    · exact update_of_ne (fun hkb => hk ⟨hdev, hkb.symm⟩) _ _
    · simp only [update_self]
      exact ⟨by simp, fun _ => hdev, fun _ => ⟨rfl, fun _ _ => rfl⟩, fun hno => absurd hheld hno⟩
  case logWrite p b hpc hlk =>
    have hheld := hidle hpc hlk
    refine h.keep rfl rfl rfl (fun d _ => Iff.rfl)
      (fun d _ => rfl) (fun k _ => rfl) (fun k _ => rfl) ?_
    exact ⟨fun _ => ((h.ok b).used hheld).1, (h.ok b).dev,
      fun _ => ⟨((h.ok b).used hheld).1, by simp⟩, fun hno => absurd hheld hno⟩
  case lock p x dev blockno b hpc hlk =>
    refine h.keep (update_eq_self b _).symm rfl rfl
      (fun d hd => State.held_iff (p := p) rfl (by simp [hd]) (by simp [hpc, Pc.Reads, Ne.symm hd]))
      (fun d _ => rfl) (fun k _ => rfl) (fun k _ => rfl) ?_
    refine (h.ok b).congr (iff_of_false ?_ (not_held_of_free hlk)) (fun _ => rfl) fun _ => rfl
    exact not_held_of_reads (p := p) (by simp) (by simp [Pc.Reads])
  case valid p x dev blockno b hpc hv =>
    have hreads : (s.pc p).Reads b := by rw [hpc]; rfl
    have hlk := hr.reads p b hreads
    obtain ⟨-, hset⟩ := (h.ok b).settled (not_held_of_reads hlk hreads)
    obtain ⟨hdata, hdisk⟩ := hset ((h.ok b).dev hv)
    refine h.keep (update_eq_self b _).symm rfl rfl
      (fun d hd => State.held_iff (p := p) rfl rfl (by simp [hpc, Pc.Reads, Ne.symm hd]))
      (fun d _ => rfl) (fun k _ => rfl) (fun k _ => rfl) ⟨(h.ok b).dirty, (h.ok b).dev, ?_, ?_⟩
    · exact fun _ => ⟨hv, fun hd _ => (hdisk hd).trans (hdata hv).symm⟩
    · exact fun hno => absurd ⟨p, hlk, by simp [Pc.Reads]⟩ hno
  case load p x dev blockno b hpc hv hd hdev =>
    have hreads : (s.pc p).Reads b := by rw [hpc]; rfl
    have hlk := hr.reads p b hreads
    refine h.keep rfl rfl rfl
      (fun d hd => State.held_iff (p := p) rfl rfl (by simp [hpc, Pc.Reads, Ne.symm hd]))
      (fun d _ => rfl) (fun k _ => rfl) (fun k _ => rfl) ?_
    refine ⟨fun _ => rfl, fun _ => hdev, fun _ => ⟨rfl, fun _ _ => rfl⟩, fun hno => ?_⟩
    exact absurd ⟨p, hlk, by simp [Pc.Reads]⟩ hno
  case unref p x b hpc =>
    have hheld : ∀ d, ((Bio.unref s b).setPc p .idle).Held d ↔ s.Held d :=
      fun d => State.held_iff (p := p) (c := .idle) (by simp) (by simp) (by simp [hpc, Pc.Reads])
    refine h.keep (unref_buf s b) rfl rfl (fun d _ => hheld d)
      (fun d _ => by simp) (fun k _ => by simp) (fun k _ => rfl) ?_
    simp only [State.setPc_changed, unref_changed, State.setPc_disk, unref_disk]
    exact ((h.ok b).congr (hheld b) (fun _ => rfl) fun _ => rfl).refcnt _

end Inv

/-! ### Whole runs -/

section Run

variable {P β : Type} {n : ℕ} [Fintype P] [DecidableEq P] {disksize : ℕ} (data : β)
  (disk : ℕ → β) (r : Run (step (P := P) (β := β) (n := n) disksize))

/-- The contents that each block had when a buffer with it was last released, at position
`k` of a run; those on disk at the start, if that was never. -/
def released : ℕ → ℕ → ℕ → β
  | 0 => fun _ blockno => (r.state 0).disk blockno
  | k + 1 => nextReleased (r.state k) (r.action k) (released k)

omit [Fintype P] [DecidableEq P] in
theorem binit_linked : (binit data disk : State P β n).Linked := by
  -- the loop of `binit` from any ring on
  have hfold : ∀ (ys xs : List (Fin n)) (l : Links (Fin n)), IsRing l xs → (ys ++ xs).Nodup →
      IsRing (ys.foldl Links.pushFront l) (ys.reverse ++ xs) := by
    intro ys
    induction ys with
    | nil => exact fun xs l h _ => h
    | cons y ys ih =>
      intro xs l h hnodup
      rw [List.cons_append, List.nodup_cons, List.mem_append, not_or] at hnodup
      have hnext := h.pushFront hnodup.1.2
      rw [List.foldl_cons, List.reverse_cons, List.append_assoc]
      refine ih (y :: xs) _ hnext ?_
      rw [List.nodup_middle, List.nodup_cons, List.mem_append, not_or]
      exact hnodup
  have hring := hfold (List.finRange n) [] ⟨fun _ => none, fun _ => none⟩ ⟨List.nodup_nil, rfl, rfl⟩
    (by simpa using List.nodup_finRange n)
  exact ⟨_, hring, fun b => by simp⟩

omit [DecidableEq P] in
theorem binit_refs : Refs (binit data disk : State P β n) where
  linked := binit_linked data disk
  refcnt b := by simp [binit, State.users, Pc.waits]
  target _ _ _ _ ht := absurd ht id
  reads _ _ hr := absurd hr id

omit [Fintype P] [DecidableEq P] in
theorem binit_contents : Contents (binit data disk : State P β n) fun _ => disk where
  unique b c hb := absurd rfl hb
  ok b := by
    refine ⟨nofun, nofun, ?_, fun _ => ⟨rfl, fun _ => ⟨nofun, fun _ => rfl⟩⟩⟩
    rintro ⟨p, hp, -⟩
    cases hp
  uncached _ _ := rfl

theorem invariant_of_run (h0 : r.state 0 = binit data disk) {k : ℕ} (hk : k ≤ r.length) :
    Refs (r.state k) ∧ Contents (r.state k) (released r k) := by
  refine r.induct_between (P := fun k => Refs (r.state k) ∧ Contents (r.state k) (released r k))
    (Nat.zero_le k) hk ?_ fun m _ _ hs ih => ?_
  · have hV : released r 0 = fun _ => disk := by
      funext dev blockno
      rw [released, h0]
      rfl
    rw [hV, h0]
    exact ⟨binit_refs data disk, binit_contents data disk⟩
  · have hcase := step_cases ih.1.linked (fun b => (ih.2.ok b).dirty) hs
    exact ⟨ih.1.step hcase, ih.2.step ih.1 hcase⟩

/-- In the step from position `k` process `p` returns from `bread(dev, blockno)` with `b`. -/
def Returns (k : ℕ) (p : P) (dev blockno : ℕ) (b : Fin n) : Prop :=
  (r.action k).1 = p ∧ (r.state k).pc p = .read dev blockno b

omit [Fintype P] in
theorem recycled_unused {s s' : State P β n} {a : P × Call β n} {b : Fin n}
    (hs : StepCase disksize s a s')
    (hb : (s'.buf b).dev ≠ (s.buf b).dev ∨ (s'.buf b).blockno ≠ (s.buf b).blockno) :
    (s.buf b).refcnt = 0 ∧ (s.buf b).dirty = false := by
  cases hs with
  | @recycle p dev blockno c hpc hno href hclean =>
    by_cases hbc : b = c
    · exact hbc ▸ ⟨href, hclean⟩
    · simp [hbc] at hb
  | @hit _ _ _ c | @write _ c | @bwrite _ c | @logWrite _ c | @load _ _ _ _ c | @unref _ _ c =>
    exact absurd hb (by by_cases hbc : b = c <;> simp [hbc])
  | brelse | lock | valid => exact absurd hb (by simp)

/-- What `bread` returns. -/
theorem bread_returns {s s' : State P β n} {a : P × Call β n} {V : ℕ → ℕ → β} {dev blockno : ℕ}
    {b : Fin n} (hr : Refs s) (h : Contents s V) (hpc : s.pc a.1 = .read dev blockno b)
    (hs : StepCase disksize s a s') :
    s'.Carries b dev blockno ∧ s'.lock b = some a.1 ∧ (s'.buf b).data = V dev blockno := by
  have hreads : (s.pc a.1).Reads b := by rw [hpc]; rfl
  have hlk := hr.reads a.1 b hreads
  have hcar : s.Carries b dev blockno :=
    hr.target a.1 dev blockno b (by rw [hpc]; exact ⟨rfl, rfl, rfl⟩)
  obtain ⟨-, hset⟩ := (h.ok b).settled (not_held_of_reads hlk hreads)
  have hidle : ∀ {p x}, a = (p, x) → s.pc p ≠ .idle := by
    rintro p x rfl hp
    rw [hp] at hpc
    exact absurd hpc (by simp)
  cases hs with
  | hit hp | recycle hp | write hp | bwrite hp | logWrite hp | brelse hp =>
    exact absurd hp (hidle rfl)
  | lock hp | unref hp =>
    rw [hp] at hpc
    exact absurd hpc (by simp)
  | @valid p x dev' blockno' c hp hv =>
    obtain ⟨rfl, rfl, rfl⟩ := Pc.read.inj (hp.symm.trans hpc)
    have hdev := (h.ok c).dev hv
    obtain ⟨rfl, rfl⟩ := hcar
    refine ⟨⟨rfl, rfl⟩, hlk, ?_⟩
    rw [hdev]
    exact (hset hdev).1 hv
  | @load p x dev' blockno' c hp hv hd hdev =>
    obtain ⟨rfl, rfl, rfl⟩ := Pc.read.inj (hp.symm.trans hpc)
    obtain ⟨rfl, rfl⟩ := hcar
    refine ⟨⟨by simp, by simp⟩, hlk, ?_⟩
    rw [hdev]
    simpa using (hset hdev).2 hd

/-- The buffer cache is transparent: at most one buffer for a block, all buffers on the
list, only unused clean ones recycled, and `bread` returns, locked, what was last released. -/
theorem buffer_cache_transparent (h0 : r.state 0 = binit data disk) :
    (∀ k ≤ r.length,
      (∀ dev blockno b c, dev ≠ 0 → (r.state k).Carries b dev blockno →
        (r.state k).Carries c dev blockno → b = c) ∧
      ∃ xs : List (Fin n), xs.Nodup ∧ (∀ b, b ∈ xs) ∧ Visits (r.state k).links.next none xs ∧
        Visits (r.state k).links.prev none xs.reverse) ∧
    ∀ k < r.length,
      (∀ b, (((r.state (k + 1)).buf b).dev ≠ ((r.state k).buf b).dev ∨
          ((r.state (k + 1)).buf b).blockno ≠ ((r.state k).buf b).blockno) →
        ((r.state k).buf b).refcnt = 0 ∧ ((r.state k).buf b).dirty = false) ∧
      ∀ p dev blockno b, Returns r k p dev blockno b →
        (r.state (k + 1)).Carries b dev blockno ∧ (r.state (k + 1)).lock b = some p ∧
        ((r.state (k + 1)).buf b).data = released r k dev blockno := by
  refine ⟨fun k hk => ?_, fun k hk => ?_⟩
  · obtain ⟨hrefs, hcont⟩ := invariant_of_run data disk r h0 hk
    refine ⟨?_, ?_⟩
    · rintro dev blockno b c hdev ⟨rfl, rfl⟩ ⟨hc, hc'⟩
      exact hcont.unique b c hdev hc hc'
    · obtain ⟨xs, hring, hmem⟩ := hrefs.linked
      exact ⟨xs, hring.nodup, hmem, hring.visits_next, hring.visits_prev⟩
  · obtain ⟨hrefs, hcont⟩ := invariant_of_run data disk r h0 hk.le
    have hcase := step_cases hrefs.linked (fun b => (hcont.ok b).dirty) (r.next k hk)
    refine ⟨fun b hb => recycled_unused hcase hb, ?_⟩
    rintro p dev blockno b ⟨rfl, hpc⟩
    exact bread_returns hrefs hcont hpc hcase

/-! ### Which buffer is recycled -/

/-- The position after the last step that left each buffer without references, or 0. -/
def lastFreed : ℕ → Fin n → ℕ
  | 0 => fun _ => 0
  | k + 1 =>
    match (r.state k).pc (r.action k).1 with
    | .unref b =>
      if ((r.state k).buf b).refcnt - 1 = 0 then update (lastFreed k) b (k + 1)
      else lastFreed k
    | _ => lastFreed k

/-- The list goes from what has been freed last to what has been freed first. -/
def Recent (k : ℕ) : Prop :=
  (∀ b, lastFreed r k b ≤ k) ∧ ∃ xs, IsRing (r.state k).links xs ∧ (∀ b, b ∈ xs) ∧
    xs.Pairwise fun b c => lastFreed r k c ≤ lastFreed r k b

omit [Fintype P] in
variable {r} in
theorem Recent.step {k : ℕ} (h : Recent r k)
    (hs : StepCase disksize (r.state k) (r.action k) (r.state (k + 1))) : Recent r (k + 1) := by
  obtain ⟨hle, xs, hring, hmem, hsorted⟩ := h
  have hkeep : (r.state (k + 1)).links = (r.state k).links → lastFreed r (k + 1) = lastFreed r k →
      Recent r (k + 1) := fun hlinks hsame =>
    ⟨fun b => hsame ▸ (hle b).trans k.le_succ, xs, hlinks ▸ hring, hmem, hsame ▸ hsorted⟩
  generalize ha : r.action k = a at hs
  generalize hs' : r.state (k + 1) = s' at hs
  have hpc : ∀ c, (r.state k).pc a.1 = c → (∀ b, c ≠ .unref b) →
      lastFreed r (k + 1) = lastFreed r k := by
    rintro c rfl hc
    rw [lastFreed, ha]
    split
    · next b hb => exact absurd hb (hc b)
    · rfl
  cases hs with
  | hit hp | recycle hp | write hp | bwrite hp | logWrite hp | brelse hp | lock hp | valid hp
  | load hp => exact hkeep (by rw [hs']; rfl) (hpc _ hp (by simp))
  | @unref p x b hp =>
    by_cases h0 : ((r.state k).buf b).refcnt - 1 = 0
    · have hfreed : lastFreed r (k + 1) = update (lastFreed r k) b (k + 1) := by
        rw [lastFreed, ha]
        simp only [hp, if_pos h0]
      have hlinks : (r.state (k + 1)).links = ((r.state k).links.unlink b).pushFront b := by
        rw [hs']
        simp only [Bio.unref, if_pos h0, State.setPc_links]
      have hne : ∀ c ∈ xs.erase b, c ≠ b := fun c hc he => hring.nodup.not_mem_erase (he ▸ hc)
      refine ⟨fun c => ?_, b :: xs.erase b, hlinks ▸ hring.moveFront (hmem b), fun c => ?_, ?_⟩
      · rw [hfreed, update_apply]
        have := hle c
        split <;> omega
      · rw [List.mem_cons]
        exact or_iff_not_imp_left.mpr fun hcb => (List.mem_erase_of_ne hcb).mpr (hmem c)
      · rw [hfreed]
        refine List.pairwise_cons.mpr ⟨fun c hc => ?_, ?_⟩
        · rw [update_self, update_of_ne (hne c hc)]
          exact (hle c).trans k.le_succ
        · refine (hsorted.sublist List.erase_sublist).imp_of_mem fun {c d} hc hd hcd => ?_
          rwa [update_of_ne (hne c hc), update_of_ne (hne d hd)]
    · refine hkeep ?_ ?_
      · rw [hs']
        simp only [Bio.unref, if_neg h0]
        rfl
      · rw [lastFreed, ha]
        simp only [hp, if_neg h0]

/-- When `bget` finds no buffer for a block, it takes of the unused clean buffers the one that has
been unused for the longest time. -/
theorem bget_least_recently_used (h0 : r.state 0 = binit data disk) {k : ℕ} (hk : k ≤ r.length)
    {dev blockno : ℕ} {b : Fin n} {s' : State P β n}
    (hget : bget (r.state k) dev blockno = some (b, s'))
    (hno : ∀ c, ¬ (r.state k).Carries c dev blockno) {c : Fin n}
    (hc : ((r.state k).buf c).refcnt = 0 ∧ ((r.state k).buf c).dirty = false) :
    lastFreed r k b ≤ lastFreed r k c := by
  have hrecent : Recent r k := by
    refine r.induct_between (P := Recent r) (Nat.zero_le k) hk ?_ fun m _ hm hs ih => ?_
    · obtain ⟨xs, hring, hmem⟩ := binit_linked (P := P) data disk
      exact ⟨fun _ => le_rfl, xs, h0 ▸ hring, hmem, List.pairwise_of_forall fun _ _ => le_rfl⟩
    · obtain ⟨hrefs, hcont⟩ := invariant_of_run data disk r h0 (show m ≤ r.length by omega)
      exact ih.step (step_cases hrefs.linked (fun b => (hcont.ok b).dirty) hs)
  obtain ⟨-, xs, hring, hmem, hsorted⟩ := hrecent
  have hlen : xs.length ≤ n := by simpa using hring.nodup.length_le_card
  rw [bget, hring.visits_next.ringScan_eq _ hlen,
    hring.visits_prev.ringScan_eq _ (by simpa using hlen)] at hget
  split at hget
  · next d hd =>
    have hfound := List.find?_some hd
    exact absurd (of_decide_eq_true hfound) (hno d)
  · split at hget
    · next d hd =>
      cases hget
      -- `c` is not among the buffers that the loop has passed over
      obtain ⟨-, before, after, hsplit, hskip⟩ := List.find?_eq_some_iff_append.mp hd
      have hcmem : c ∈ before ++ b :: after := hsplit ▸ List.mem_reverse.mpr (hmem c)
      have hback := List.pairwise_reverse.mpr hsorted
      rw [hsplit, List.pairwise_append, List.pairwise_cons] at hback
      rcases List.mem_append.mp hcmem with hin | hin
      · have hfalse := hskip c hin
        simp [hc] at hfalse
      · rcases List.mem_cons.mp hin with rfl | hin
        · exact le_rfl
        · exact hback.2.1.1 c hin
    · cases hget

/-- Process `true` changes block 5 and releases it, and process `false` reads it; two buffers,
the contents being numbers. -/
def sharedActions : List (Bool × Call ℕ 2) :=
  List.replicate 3 (true, .bread 1 5) ++
    [(true, .write 0 42), (true, .logWrite 0), (true, .brelse 0), (true, .brelse 0)] ++
    List.replicate 3 (false, .bread 1 5)

instance : Inhabited (Bool × Call ℕ 2) := ⟨(true, .bread 0 0)⟩

def sharedRun : Run (step (P := Bool) (β := ℕ) (n := 2) 10) :=
  Run.ofActions (binit 0 fun _ => 7) sharedActions (by decide +kernel)

theorem buffer_cache_transparent_sharedRun :
    released sharedRun 9 1 5 = 42 ∧
    ((sharedRun.state 10).buf 0).data = released sharedRun 9 1 5 := by
  obtain ⟨-, hsteps⟩ := buffer_cache_transparent 0 (fun _ => 7) sharedRun rfl
  refine ⟨by decide +kernel, ?_⟩
  exact ((hsteps 9 (by decide)).2 false 1 5 0 ⟨rfl, by rfl⟩).2.2

/-- Of two buffers one is used and released. -/
def freedRun : Run (step (P := Bool) (β := ℕ) (n := 2) 10) :=
  Run.ofActions (binit 0 fun _ => 7)
    (List.replicate 3 (true, .bread 1 5) ++ List.replicate 2 (true, .brelse 0)) (by decide +kernel)

/-- For another block the other one is taken. -/
theorem bget_least_recently_used_freedRun : (bget (freedRun.state 5) 1 6).map (·.1) = some 1 ∧
    lastFreed freedRun 5 1 ≤ lastFreed freedRun 5 0 ∧ lastFreed freedRun 5 0 = 5 := by
  have hb : (bget (freedRun.state 5) 1 6).map (·.1) = some 1 := by decide +kernel
  refine ⟨hb, ?_, by decide +kernel⟩
  obtain ⟨⟨b, s'⟩, hget, rfl⟩ := Option.map_eq_some_iff.mp hb
  exact bget_least_recently_used 0 (fun _ => 7) freedRun rfl (k := 5) (by decide) hget
    (fun c => by unfold State.Carries; revert c; decide +kernel) (by decide +kernel)

end Run

end Xv6.Bio
