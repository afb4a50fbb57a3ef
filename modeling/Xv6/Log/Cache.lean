import Mathlib.Data.Set.Insert
import Mathlib.Order.BooleanAlgebra.Set
import Mathlib.Logic.Function.Basic
import Xv6.Lib.Halt
import Xv6.Cache.Buffer

/-!
# The buffer cache

`bread`, `bwrite` and `brelse` of `bio.c` over a disk that loses power: `writes`
is the number of block writes that still reach it. A buffer that `bget` does not
find takes the place of unused clean ones; which, is left open, and that there may be
none (`panic("bget: no buffers")`) is left out. To the code above it the cache is only a
set of blocks that are read and written: `Blocks` says what that code sees, and `Rep` that
the cache keeps to it. The buffers themselves, their list and the processes that share them are
in `Cache.Buffer`; `Caches.step` says that this cache does what they do.
-/

namespace Xv6.Disk

/-- The words of a block. -/
abbrev Block := ℕ → ℕ

/-- `struct buf`; its holder has locked it. -/
structure Buf where
  data : Block
  valid : Bool
  dirty : Bool
  refcnt : ℕ

instance : Inhabited Buf := ⟨⟨fun _ => 0, false, false, 0⟩⟩

/-- Why the machine stops. -/
inductive Halt where
  | power
  | nothingToDo
  | relock
  | tooBig
  | outsideOfTrans
  | asleep
  deriving DecidableEq

structure Machine where
  disk : ℕ → Block
  bcache : ℕ → Option Buf
  /-- `log.lh.block[0..log.lh.n)` -/
  lh : List ℕ
  outstanding : ℕ
  /-- The block writes that reach the disk before the power fails. -/
  writes : ℕ
  /-- The unused buffers that the coming calls of `bget` recycle. -/
  recycle : ℕ → ℕ → Bool

/-- When the machine stops, the disk is left. -/
abbrev M := StateT Machine (Except (Halt × (ℕ → Block)))

def halt {α : Type} (why : Halt) : M α := do
  let w ← get
  throw (why, w.disk)

def Machine.buf (w : Machine) (b : ℕ) : Buf := (w.bcache b).getD default

def Machine.setBuf (w : Machine) (b : ℕ) (buf : Buf) : Machine :=
  { w with bcache := Function.update w.bcache b (some buf) }

theorem Machine.setBuf_buf {w : Machine} {b : ℕ} {y : Buf} : (w.setBuf b y).buf b = y := by
  simp [Machine.buf, Machine.setBuf]

/-- `bget` takes no buffer that is in use or that the log has pinned. -/
def Machine.recycled (w : Machine) (b : ℕ) : Option Buf :=
  (w.bcache b).filter fun buf => buf.dirty || buf.refcnt != 0 || !w.recycle 0 b

def bget (b : ℕ) : M Unit := do
  let w ← get
  match w.bcache b with
  | some buf =>
    -- `acquiresleep` of a buffer that the caller has not released
    if buf.refcnt = 0 then set (w.setBuf b { buf with refcnt := 1 }) else halt .relock
  | none =>
    set { w with
      bcache := Function.update w.recycled b (some ⟨(default : Buf).data, false, false, 1⟩)
      recycle := fun i => w.recycle (i + 1) }

def iderw (b : ℕ) : M Unit := do
  let w ← get
  let buf := w.buf b
  if buf.valid && !buf.dirty then halt .nothingToDo
  else if buf.dirty then
    if w.writes = 0 then halt .power
    else
      set { w.setBuf b { buf with valid := true, dirty := false } with
        disk := Function.update w.disk b buf.data
        writes := w.writes - 1 }
  else set (w.setBuf b { buf with data := w.disk b, valid := true })

def bread (b : ℕ) : M Unit := do
  bget b
  let w ← get
  if (w.buf b).valid then pure () else iderw b

def bwrite (b : ℕ) : M Unit := do
  modify fun w => w.setBuf b { w.buf b with dirty := true }
  iderw b

def brelse (b : ℕ) : M Unit :=
  modify fun w => w.setBuf b { w.buf b with refcnt := (w.buf b).refcnt - 1 }

/-- `b->data` -/
def data (b : ℕ) : M Block := do
  let w ← get
  return (w.buf b).data

def setData (b : ℕ) (v : Block) : M Unit :=
  modify fun w => w.setBuf b { w.buf b with data := v }

def setDirty (b : ℕ) : M Unit :=
  modify fun w => w.setBuf b { w.buf b with dirty := true }

/-! ### The blocks without the cache -/

/-- What the code above the cache works on: the blocks on disk and as `bread` gives them,
those pinned and those in use. -/
structure Blocks where
  disk : ℕ → Block
  view : ℕ → Block
  dirty : Set ℕ
  held : Set ℕ
  lh : List ℕ
  outstanding : ℕ
  writes : ℕ

/-- The machine stands for the blocks `A`. -/
structure Rep (w : Machine) (A : Blocks) : Prop where
  disk : w.disk = A.disk
  lh : w.lh = A.lh
  outstanding : w.outstanding = A.outstanding
  writes : w.writes = A.writes
  valid : ∀ b buf, w.bcache b = some buf → buf.valid = true
  data : ∀ b buf, w.bcache b = some buf → buf.data = A.view b
  dirty : ∀ b buf, w.bcache b = some buf → (buf.dirty = true ↔ b ∈ A.dirty)
  refcnt : ∀ b buf, w.bcache b = some buf → (buf.refcnt ≠ 0 ↔ b ∈ A.held) ∧ buf.refcnt ≤ 1
  uncached : ∀ b, w.bcache b = none → b ∉ A.dirty ∧ b ∉ A.held
  clean : ∀ b ∉ A.dirty, b ∉ A.held → A.view b = A.disk b

section Spec

variable {w : Machine} {A : Blocks} {b : ℕ} {H : Halt × (ℕ → Block) → Prop}
  {Q : Unit → Machine → Prop}

section

variable (h : Rep w A)
include h

theorem Rep.buf_of_held (hb : b ∈ A.held) : (w.buf b).valid = true ∧ (w.buf b).data = A.view b ∧
    ((w.buf b).dirty = true ↔ b ∈ A.dirty) ∧ ((w.buf b).refcnt ≠ 0 ↔ b ∈ A.held) ∧
    (w.buf b).refcnt ≤ 1 := by
  cases hc : w.bcache b with
  | none => exact absurd hb (h.uncached b hc).2
  | some buf =>
    have hbuf : w.buf b = buf := by simp [Machine.buf, hc]
    rw [hbuf]
    exact ⟨h.valid b buf hc, h.data b buf hc, h.dirty b buf hc, h.refcnt b buf hc⟩

/-- One buffer and what the blocks say of it change. -/
theorem Rep.setBuf {A' : Blocks} {w' : Machine} {x : Buf}
    (hcache : w'.bcache = Function.update w.bcache b (some x)) (hdisk : w'.disk = A'.disk)
    (hlh : w'.lh = A'.lh) (hout : w'.outstanding = A'.outstanding) (hwr : w'.writes = A'.writes)
    (hv : x.valid = true) (hdata : x.data = A'.view b) (hdirty : x.dirty = true ↔ b ∈ A'.dirty)
    (href : (x.refcnt ≠ 0 ↔ b ∈ A'.held) ∧ x.refcnt ≤ 1)
    (hclean : b ∉ A'.dirty → b ∉ A'.held → A'.view b = A'.disk b)
    (hother : ∀ c ≠ b, A'.disk c = A.disk c ∧ A'.view c = A.view c ∧
      (c ∈ A'.dirty ↔ c ∈ A.dirty) ∧ (c ∈ A'.held ↔ c ∈ A.held)) : Rep w' A' := by
  have hself : ∀ {y}, w'.bcache b = some y → y = x := by simp [hcache, eq_comm]
  have hne : ∀ {c}, c ≠ b → w'.bcache c = w.bcache c := fun hc => by simp [hcache, hc]
  refine ⟨hdisk, hlh, hout, hwr, fun c y hy => ?_, fun c y hy => ?_, fun c y hy => ?_,
    fun c y hy => ?_, fun c hc => ?_, fun c hd hh => ?_⟩
  all_goals by_cases hcb : c = b
  · subst hcb
    exact hself hy ▸ hv
  · exact h.valid c y (hne hcb ▸ hy)
  · subst hcb
    exact hself hy ▸ hdata
  · rw [(hother c hcb).2.1]
    exact h.data c y (hne hcb ▸ hy)
  · subst hcb
    exact hself hy ▸ hdirty
  · rw [(hother c hcb).2.2.1]
    exact h.dirty c y (hne hcb ▸ hy)
  · subst hcb
    exact hself hy ▸ href
  · rw [(hother c hcb).2.2.2]
    exact h.refcnt c y (hne hcb ▸ hy)
  · subst hcb
    simp [hcache] at hc
  · rw [(hother c hcb).2.2.1, (hother c hcb).2.2.2]
    exact h.uncached c (hne hcb ▸ hc)
  · subst hcb
    exact hclean hd hh
  · rw [(hother c hcb).2.2.1] at hd
    rw [(hother c hcb).2.2.2] at hh
    rw [(hother c hcb).1, (hother c hcb).2.1]
    exact h.clean c hd hh

/-- Buffers that are not in use and not pinned may go. -/
theorem Rep.recycled {r : ℕ → ℕ → Bool} : Rep { w with bcache := w.recycled, recycle := r } A := by
  have hsome : ∀ {c buf}, w.recycled c = some buf → w.bcache c = some buf := by
    intro c buf hc
    exact (Option.filter_eq_some_iff.mp hc).1
  refine ⟨h.disk, h.lh, h.outstanding, h.writes, fun c x hx => h.valid c x (hsome hx),
    fun c x hx => h.data c x (hsome hx), fun c x hx => h.dirty c x (hsome hx),
    fun c x hx => h.refcnt c x (hsome hx), fun c hc => ?_, h.clean⟩
  cases hw : w.bcache c with
  | none => exact h.uncached c hw
  | some buf =>
    have hno : (buf.dirty || buf.refcnt != 0 || !w.recycle 0 c) = false := by
      simpa [Machine.recycled, hw, Option.filter_some] using hc
    simp only [Bool.or_eq_false_iff, bne_eq_false_iff_eq] at hno
    refine ⟨fun hd => ?_, fun hh => (h.refcnt c buf hw).1.mpr hh hno.1.2⟩
    simp [(h.dirty c buf hw).mpr hd] at hno

theorem Rep.bread (hb : b ∉ A.held)
    (hQ : ∀ w', Rep w' { A with held := insert b A.held } → Q () w') : wp (bread b) Q H w := by
  cases hc : w.bcache b with
  | some buf =>
    have h0 : buf.refcnt = 0 := by
      by_contra hne
      exact hb ((h.refcnt b buf hc).1.mp hne)
    have hv := h.valid b buf hc
    simp only [Disk.bread, bget, wp_bind, wp_get, hc, h0, if_true, wp_set]
    simp only [Machine.buf, Machine.setBuf, Function.update_self, Option.getD_some, hv, if_true,
      wp_pure]
    refine hQ _ (h.setBuf (b := b) (x := ⟨buf.data, true, buf.dirty, 1⟩) rfl h.disk h.lh
      h.outstanding h.writes rfl (h.data b buf hc) (h.dirty b buf hc) (by simp) (by simp)
      fun c hcb => ?_)
    simp [hcb]
  | none =>
    obtain ⟨hd, -⟩ := h.uncached b hc
    simp only [Disk.bread, bget, wp_bind, wp_get, hc, wp_set]
    simp only [Machine.buf, Machine.setBuf, Function.update_self, Option.getD_some, iderw,
      wp_bind, wp_get, Bool.false_and, Bool.false_eq_true, if_false, wp_set]
    refine hQ _ ((h.recycled (r := fun i => w.recycle (i + 1))).setBuf (b := b)
      (x := ⟨w.disk b, true, false, 1⟩) ?_ h.disk h.lh h.outstanding h.writes rfl ?_ (by simp [hd])
      (by simp) (by simp) fun c hcb => ?_)
    · simp
    · rw [h.clean b hd hb, h.disk]
    · simp [hcb]

section

variable (hb : b ∈ A.held)
include hb

theorem Rep.wp_data {Q : Block → Machine → Prop} (hQ : Q (A.view b) w) :
    wp (Disk.data b) Q H w := by
  obtain ⟨hv, hdata, hd, href⟩ := h.buf_of_held hb
  simp only [Disk.data, wp_bind, wp_get, wp_pure, hdata]
  exact hQ

theorem Rep.setData {v : Block}
    (hQ : ∀ w', Rep w' { A with view := Function.update A.view b v } → Q () w') :
    wp (setData b v) Q H w := by
  obtain ⟨hv, hdata, hd, href⟩ := h.buf_of_held hb
  rw [Disk.setData, wp_modify]
  exact hQ _ (h.setBuf (b := b) rfl h.disk h.lh h.outstanding h.writes hv (by simp)
    hd href (fun _ hh => absurd hb hh) fun c hcb => by simp [hcb])

theorem Rep.setDirty (hQ : ∀ w', Rep w' { A with dirty := insert b A.dirty } → Q () w') :
    wp (setDirty b) Q H w := by
  obtain ⟨hv, hdata, hd, href⟩ := h.buf_of_held hb
  rw [Disk.setDirty, wp_modify]
  exact hQ _ (h.setBuf (b := b) rfl h.disk h.lh h.outstanding h.writes hv
    hdata (by simp) href (fun hno => absurd (Set.mem_insert b _) hno)
    fun c hcb => by simp [hcb])

theorem Rep.bwrite (hcrash : A.writes = 0 → H (.power, A.disk))
    (hQ : A.writes ≠ 0 → ∀ w', Rep w' { A with
      disk := Function.update A.disk b (A.view b), dirty := A.dirty \ {b}
      writes := A.writes - 1 } → Q () w') : wp (bwrite b) Q H w := by
  obtain ⟨hv, hdata, hd, href⟩ := h.buf_of_held hb
  simp only [Disk.bwrite, wp_bind, wp_modify, iderw, wp_get, Machine.setBuf_buf, Bool.not_true,
    Bool.and_false, Bool.false_eq_true, if_false, if_true]
  have hwr : (w.setBuf b { w.buf b with dirty := true }).writes = A.writes := h.writes
  rw [hwr]
  split
  · next h0 =>
    simp only [halt, wp_bind, wp_get, wp_throw]
    rw [show (w.setBuf b { w.buf b with dirty := true }).disk = A.disk from h.disk]
    exact hcrash h0
  · next hne =>
    rw [wp_set]
    refine hQ hne _ (h.setBuf (b := b) (x := { w.buf b with valid := true, dirty := false }) ?_ ?_
      h.lh h.outstanding rfl rfl hdata (by simp) href (by simp)
      fun c hcb => by simp [hcb])
    · simp [Machine.setBuf]
    · simp [hdata, Machine.setBuf, h.disk]

theorem Rep.brelse (hclean : b ∉ A.dirty → A.view b = A.disk b)
    (hQ : ∀ w', Rep w' { A with held := A.held \ {b} } → Q () w') : wp (brelse b) Q H w := by
  obtain ⟨hv, hdata, hd, href⟩ := h.buf_of_held hb
  rw [Disk.brelse, wp_modify]
  refine hQ _ (h.setBuf (b := b) rfl h.disk h.lh h.outstanding h.writes hv
    hdata hd ?_ (fun hd _ => hclean hd) fun c hcb => by simp [hcb])
  simp
  omega

end

end

end Spec

/-! ### The buffers that processes share -/

section Shared

open Function

variable {P : Type} {n : ℕ}

/-- `y` is the buffer `x` of `Cache.Buffer`; data that is not valid may differ. -/
structure Buf.Copies (y : Buf) (x : Bio.Buf Block) : Prop where
  valid : y.valid = x.valid
  dirty : y.dirty = x.dirty
  refcnt : y.refcnt = x.refcnt
  data : x.valid = true → y.data = x.data

/-- The machine has the disk and the buffers of `s`. Only blocks of device 1 are in use. -/
structure Caches (w : Machine) (s : Bio.State P Block n) : Prop where
  disk : w.disk = s.disk
  dev : ∀ i, (s.buf i).refcnt ≠ 0 → (s.buf i).dev = 1
  cached : ∀ i, (s.buf i).dev = 1 → ∃ y, w.bcache (s.buf i).blockno = some y ∧ y.Copies (s.buf i)
  uncached : ∀ k, (∀ i, ¬ s.Carries i 1 k) → w.bcache k = none

/-- What a step of a process is to the machine. -/
def ofStep (s : Bio.State P Block n) (a : P × Bio.Call Block n) : M Unit :=
  match s.pc a.1, a.2 with
  | .idle, .bread _ k => bget k
  | .idle, .write i v => setData (s.buf i).blockno v
  | .idle, .bwrite i => bwrite (s.buf i).blockno
  | .idle, .logWrite i => setDirty (s.buf i).blockno
  | .idle, .brelse _ | .lock _ _ _, _ => pure ()
  | .read _ _ i, _ => do
    let w ← get
    if (w.buf (s.buf i).blockno).valid then pure () else iderw (s.buf i).blockno
  | .unref i, _ => brelse (s.buf i).blockno

variable {s s' : Bio.State P Block n} {w w' : Machine} {i : Fin n} {x : Bio.Buf Block} {y : Buf}
  {V : ℕ → ℕ → Block}

theorem Caches.binit (v : Block) (hw : ∀ k, w.bcache k = none) :
    Caches w (Bio.binit v w.disk : Bio.State P Block n) :=
  ⟨rfl, fun _ h => absurd rfl h, fun _ h => absurd h (by simp [Bio.binit]), fun k _ => hw k⟩

/-- One buffer changes and loses its block unless that is the block it has afterwards. -/
theorem Caches.setBuf (h : Caches w s) (hc : Bio.Contents s V) (hx : x.dev = 1)
    (hown : ∀ j ≠ i, ¬ s.Carries j 1 x.blockno) (hy : y.Copies x)
    (hbuf : s'.buf = update s.buf i x) (hdisk : w'.disk = s'.disk)
    (hself : w'.bcache x.blockno = some y)
    (hother : ∀ k ≠ x.blockno, (s.Carries i 1 k → w'.bcache k = none) ∧
      (¬ s.Carries i 1 k → w'.bcache k = w.bcache k)) : Caches w' s' := by
  have hi : s'.buf i = x := by rw [hbuf, update_self]
  have hj : ∀ {j}, j ≠ i → s'.buf j = s.buf j := fun hj => by rw [hbuf, update_of_ne hj]
  refine ⟨hdisk, fun j href => ?_, fun j hd => ?_, fun k hk => ?_⟩
  · by_cases hji : j = i
    · rw [hji, hi, hx]
    · rw [hj hji] at href ⊢
      exact h.dev j href
  · by_cases hji : j = i
    · rw [hji, hi]
      exact ⟨y, hself, hy⟩
    · rw [hj hji] at hd ⊢
      have hno : ¬ s.Carries i 1 (s.buf j).blockno := fun hcar =>
        hji (hc.unique j i (by simp [hd]) (hcar.1.trans hd.symm) hcar.2)
      rw [(hother _ fun hk => hown j hji ⟨hd, hk⟩).2 hno]
      exact h.cached j hd
  · have hne : k ≠ x.blockno := fun he => hk i ⟨hi ▸ hx, hi ▸ he.symm⟩
    by_cases hcar : s.Carries i 1 k
    · exact (hother k hne).1 hcar
    · rw [(hother k hne).2 hcar]
      refine h.uncached k fun j hj' => ?_
      have hji : j ≠ i := fun he => hcar (he ▸ hj')
      exact hk j ⟨(hj hji) ▸ hj'.1, (hj hji) ▸ hj'.2⟩

variable [Fintype P] [DecidableEq P] {m : ℕ} {a : P × Bio.Call Block n}

/-- The machine does what a process does to the buffers, if the right ones are recycled and the
power does not fail. It has no second process: no block is asked for that is in use. -/
theorem Caches.step (h : Caches w s) (hr : Bio.Refs s) (hc : Bio.Contents s V)
    (hs : Bio.StepCase m s a s')
    (hfree : ∀ dev k, s.pc a.1 = .idle → a.2 = .bread dev k →
      dev = 1 ∧ ∀ i, s.Carries i 1 k → (s.buf i).refcnt = 0) :
    ∃ r, wp (ofStep s a) (fun _ w' => Caches w' s') (fun e => e.1 = .power)
      { w with recycle := r } := by
  have hwp : wp (ofStep s a) (fun _ w' => Caches w' s') (fun e => e.1 = .power) w →
      ∃ r, wp (ofStep s a) (fun _ w' => Caches w' s') (fun e => e.1 = .power)
        { w with recycle := r } := fun h => ⟨w.recycle, h⟩
  -- a buffer in use, which keeps its block
  have hused : ∀ {i p}, s.lock i = some p ∨ (s.pc p).waits i ≠ 0 → (s.buf i).dev = 1 ∧
      (w.buf (s.buf i).blockno).Copies (s.buf i) := by
    intro i p hi
    have hd := h.dev i fun h0 => by simp [hr.unused h0] at hi
    obtain ⟨y, hy, hcopy⟩ := h.cached i hd
    refine ⟨hd, ?_⟩
    simpa [Machine.buf, hy] using hcopy
  have hset : ∀ {i x y} {w' : Machine}, (s.buf i).dev = 1 → s'.buf = update s.buf i x →
      w'.bcache = update w.bcache (s.buf i).blockno (some y) → w'.disk = s'.disk →
      x.dev = (s.buf i).dev → x.blockno = (s.buf i).blockno → y.Copies x → Caches w' s' := by
    intro i x y w' hd hbuf hw hdisk hxd hxb hy
    refine h.setBuf hc (hxd.trans hd) (fun j hj hcar => hj ?_) hy hbuf hdisk (by simp [hw, hxb])
      fun k hk => ⟨fun hcar => absurd (hcar.2.symm.trans hxb.symm) hk, fun _ => ?_⟩
    · exact (hc.unique i j (by simp [hd]) (hcar.1.trans hd.symm) (hcar.2.trans hxb)).symm
    · rw [hw, update_of_ne (hxb ▸ hk)]
  cases hs with
  | @hit p dev k i hpc hcar =>
    obtain ⟨rfl, hunused⟩ := hfree dev k hpc rfl
    have h0 := hunused i hcar
    obtain ⟨hd, rfl⟩ := hcar
    obtain ⟨y, hy, hcopy⟩ := h.cached i hd
    refine hwp ?_
    simp only [ofStep, hpc, bget, wp_bind, wp_get, hy]
    rw [if_pos (hcopy.refcnt.trans h0), wp_set]
    exact hset hd rfl rfl h.disk rfl rfl
      ⟨hcopy.valid, hcopy.dirty, congrArg (· + 1) h0.symm, hcopy.data⟩
  | @recycle p dev k i hpc hno href hclean =>
    obtain ⟨rfl, -⟩ := hfree dev k hpc rfl
    classical
    refine ⟨fun _ b => decide (s.Carries i 1 b), ?_⟩
    simp only [ofStep, hpc, bget, wp_bind, wp_get, h.uncached k hno, wp_set]
    refine h.setBuf (x := ⟨1, k, false, false, 1, (s.buf i).data⟩) hc rfl (fun j _ => hno j)
      ⟨rfl, rfl, rfl, by simp⟩ rfl h.disk (update_self ..)
      fun b hb => ⟨fun hcar => ?_, fun hcar => ?_⟩
    · obtain ⟨y, hy, hcopy⟩ := h.cached i hcar.1
      rw [hcar.2] at hy
      simp [hb, Machine.recycled, hy, hcar, hcopy.dirty, hcopy.refcnt, href, hclean]
    · simp only [update_of_ne hb, Machine.recycled, hcar, decide_false,
        Bool.not_false, Bool.or_true]
      cases w.bcache b <;> rfl
  | write hpc hlk =>
    obtain ⟨hd, hcopy⟩ := hused (.inl hlk)
    refine hwp ?_
    simp only [ofStep, hpc, setData, wp_modify]
    exact hset hd rfl rfl h.disk rfl rfl ⟨hcopy.valid, hcopy.dirty, hcopy.refcnt, fun _ => rfl⟩
  | @bwrite p i hpc hlk hdev =>
    obtain ⟨hd, hcopy⟩ := hused (.inl hlk)
    have hv := ((hc.ok i).used ⟨p, hlk, by simp [hpc, Bio.Pc.Reads]⟩).1
    refine hwp ?_
    simp only [ofStep, hpc, bwrite, wp_bind, wp_modify, iderw, wp_get, Machine.setBuf_buf,
      Bool.not_true, Bool.and_false, Bool.false_eq_true, if_false, if_true]
    split
    · simp [halt]
    · exact hset hd rfl (update_idem _ _ _) (congrArg₂ (update · _) h.disk (hcopy.data hv)) rfl rfl
        ⟨rfl, rfl, hcopy.refcnt, fun _ => hcopy.data hv⟩
  | logWrite hpc hlk =>
    obtain ⟨hd, hcopy⟩ := hused (.inl hlk)
    refine hwp ?_
    simp only [ofStep, hpc, setDirty, wp_modify]
    exact hset hd rfl rfl h.disk rfl rfl ⟨hcopy.valid, rfl, hcopy.refcnt, hcopy.data⟩
  | brelse hpc | lock hpc =>
    refine hwp ?_
    simp only [ofStep, hpc, wp_pure]
    exact ⟨h.disk, h.dev, h.cached, h.uncached⟩
  | @valid p x dev k i hpc hv =>
    obtain ⟨-, hcopy⟩ := hused (.inl (hr.reads p i (by simp [hpc, Bio.Pc.Reads])))
    refine hwp ?_
    simp only [ofStep, hpc, wp_bind, wp_get, hcopy.valid, hv, if_true, wp_pure]
    exact ⟨h.disk, h.dev, h.cached, h.uncached⟩
  | @load p x dev k i hpc hv hd hdev =>
    obtain ⟨-, hcopy⟩ := hused (.inl (hr.reads p i (by simp [hpc, Bio.Pc.Reads])))
    refine hwp ?_
    simp only [ofStep, hpc, wp_bind, wp_get, hcopy.valid, hv, Bool.false_eq_true, if_false, iderw,
      hcopy.dirty, hd, Bool.false_and, wp_set]
    exact hset hdev rfl rfl h.disk rfl rfl ⟨rfl, rfl, hcopy.refcnt, fun _ => by rw [h.disk]⟩
  | @unref p x i hpc =>
    obtain ⟨hd, hcopy⟩ := hused (i := i) (p := p) (.inr (by simp [hpc, Bio.Pc.waits]))
    refine hwp ?_
    simp only [ofStep, hpc, brelse, wp_modify]
    exact hset hd (Bio.unref_buf s i) rfl (h.disk.trans (Bio.unref_disk s i).symm) rfl rfl
      ⟨hcopy.valid, hcopy.dirty, congrArg (· - 1) hcopy.refcnt, hcopy.data⟩

end Shared

end Xv6.Disk
