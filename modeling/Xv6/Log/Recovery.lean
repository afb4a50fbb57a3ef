import Mathlib.Data.List.Forall2
import Xv6.Log.Cache
import Xv6.Log.Group

/-!
# Crashes and recovery

The log of `log.c` on a disk that loses power between two block writes, any number
of times. A transaction reads and writes blocks through the cache, and what it
does may depend on what it reads. The header block on the disk says which blocks a
recovery copies home; `contents` is what the file system holds once that is done,
and it changes at one point only, where `commit` writes the header.
-/

namespace Xv6.Disk

open Function

open Sync (LOGSIZE)

open Sync.Log (absorb mem_absorb nodup_absorb)

/-! ### The functions of `log.c` -/

/-- The rounds of `install_trans` and `write_log`, which read their two blocks in the same
order and copy in opposite directions. -/
def copyRound (first second src dst : ℕ) : M Unit := do
  bread first
  bread second
  let v ← data src
  setData dst v
  bwrite dst
  brelse src
  brelse dst

def installTrans (start : ℕ) : M Unit := do
  let w ← get
  forRange w.lh.length fun tail =>
    let l := start + tail + 1
    let d := w.lh.getD tail 0
    copyRound l d l d

def writeLog (start : ℕ) : M Unit := do
  let w ← get
  forRange w.lh.length fun tail =>
    let dst := start + tail + 1
    let src := w.lh.getD tail 0
    copyRound dst src src dst

/-- `struct logheader` in the words of a block. -/
def header (hb : Block) : List ℕ := (List.range (hb 0)).map fun i => hb (i + 1)

/-- The words after the last entry stay as they are. -/
def putHeader (lh : List ℕ) (hb : Block) : Block :=
  fun k => if k = 0 then lh.length else lh.getD (k - 1) (hb k)

def setLh (lh : List ℕ) : M Unit := modify fun w => { w with lh := lh }

def readHead (start : ℕ) : M Unit := do
  bread start
  let hb ← data start
  setLh (header hb)
  brelse start

def writeHead (start : ℕ) : M Unit := do
  bread start
  let w ← get
  let hb ← data start
  setData start (putHeader w.lh hb)
  bwrite start
  brelse start

def recoverFromLog (start : ℕ) : M Unit := do
  readHead start
  installTrans start
  setLh []
  writeHead start

/-- With the superblock read, `initlog` is the recovery. -/
def initlog (start : ℕ) : M Unit := recoverFromLog start

def commit (start : ℕ) : M Unit := do
  let w ← get
  if 0 < w.lh.length then do
    writeLog start
    writeHead start
    installTrans start
    setLh []
    writeHead start

def logWrite (size b : ℕ) : M Unit := do
  let w ← get
  if LOGSIZE ≤ w.lh.length ∨ size - 1 ≤ w.lh.length then halt .tooBig
  else if w.outstanding < 1 then halt .outsideOfTrans
  else do
    setLh (absorb b w.lh)
    setDirty b

/-- `struct log`, while nobody commits. -/
def Machine.log (w : Machine) : Sync.Log ℕ := ⟨w.outstanding, false, w.lh⟩

def beginOp : M Unit := do
  let w ← get
  if w.log.full then halt .asleep
  else set { w with outstanding := w.outstanding + 1 }

def endOp (start : ℕ) : M Unit := do
  modify fun w => { w with outstanding := w.outstanding - 1 }
  let w ← get
  if w.outstanding = 0 then commit start

/-- What is done between two commits. -/
inductive Tx where
  | done
  | read (b : ℕ) (k : Block → Tx)
  | write (b : ℕ) (v : Block) (k : Tx)

def Tx.run (size : ℕ) : Tx → M Unit
  | .done => pure ()
  | .read b k => do
    bread b
    let v ← data b
    brelse b
    (k v).run size
  | .write b v k => do
    bread b
    setData b v
    logWrite size b
    brelse b
    k.run size

def transaction (start size : ℕ) (tx : Tx) : M Unit := do
  beginOp
  tx.run size
  endOp start

/-- One boot: the writes until the power fails, the buffers that are recycled, the
transactions that are waiting. -/
structure Boot where
  writes : ℕ
  recycle : ℕ → ℕ → Bool
  txs : List Tx

def Machine.boot (disk : ℕ → Block) (writes : ℕ) (recycle : ℕ → ℕ → Bool) : Machine :=
  ⟨disk, fun _ => none, [], 0, writes, recycle⟩

/-- The disk that is left, and how many commits have returned. -/
def runTxs (start size : ℕ) : List Tx → Machine → (ℕ → Block) × ℕ
  | [], w => (w.disk, 0)
  | tx :: txs, w =>
    match (transaction start size tx).run w with
    | .error (_, disk) => (disk, 0)
    | .ok (_, w') => ((runTxs start size txs w').1, (runTxs start size txs w').2 + 1)

def session (start size : ℕ) (e : Boot) (disk : ℕ → Block) : (ℕ → Block) × ℕ :=
  match (initlog start).run (.boot disk e.writes e.recycle) with
  | .error (_, disk') => (disk', 0)
  | .ok (_, w) => runTxs start size e.txs w

def lifetime (start size : ℕ) : List Boot → (ℕ → Block) → (ℕ → Block) × List ℕ
  | [], disk => (disk, [])
  | e :: es, disk =>
    let (disk', k) := session start size e disk
    ((lifetime start size es disk').1, k :: (lifetime start size es disk').2)

/-! ### What the disk stands for -/

def Outside (start size b : ℕ) : Prop := b < start ∨ start + size ≤ b

/-- Two disks with the same blocks outside the log. -/
def Same (start size : ℕ) (x y : ℕ → Block) : Prop := ∀ b, Outside start size b → x b = y b

/-- The blocks in the header on the disk. -/
def logged (start : ℕ) (disk : ℕ → Block) : List ℕ := header (disk start)

/-- What a recovery makes of the disk. -/
def contents (start : ℕ) (disk : ℕ → Block) (b : ℕ) : Block :=
  if b ∈ logged start disk then disk (start + (logged start disk).idxOf b + 1) else disk b

/-- The header names different blocks outside the log, and the log has room for them. -/
structure Recoverable (start size : ℕ) (disk : ℕ → Block) : Prop where
  nodup : (logged start disk).Nodup
  outside : ∀ b ∈ logged start disk, Outside start size b
  length : (logged start disk).length < size

def Tx.apply : Tx → (ℕ → Block) → ℕ → Block
  | .done, a => a
  | .read b k, a => (k (a b)).apply a
  | .write b v k, a => k.apply (update a b v)

/-- The blocks that the transaction reads and writes lie outside the log. -/
def Tx.Outside (start size : ℕ) : Tx → Prop
  | .done => True
  | .read b k => Disk.Outside start size b ∧ ∀ v, (k v).Outside start size
  | .write b _ k => Disk.Outside start size b ∧ k.Outside start size

/-- No call of `log_write` finds the log full. -/
def Tx.Fits (size : ℕ) : Tx → List ℕ → Prop
  | .done, _ => True
  | .read _ k, lh => ∀ v, (k v).Fits size lh
  | .write b _ k, lh => lh.length < LOGSIZE ∧ lh.length < size - 1 ∧ k.Fits size (absorb b lh)

def applyAll (txs : List Tx) (a : ℕ → Block) : ℕ → Block := txs.foldl (fun a tx => tx.apply a) a

/-- Of each boot the first transactions, as many as `ms` says. -/
def firstTxs (es : List Boot) (ms : List ℕ) : List Tx :=
  (es.zip ms).flatMap fun p => p.1.txs.take p.2

@[simp] theorem applyAll_nil (a : ℕ → Block) : applyAll [] a = a := rfl

@[simp] theorem applyAll_cons (tx : Tx) (txs : List Tx) (a : ℕ → Block) :
    applyAll (tx :: txs) a = applyAll txs (tx.apply a) := rfl

theorem applyAll_append (txs txs' : List Tx) (a : ℕ → Block) :
    applyAll (txs ++ txs') a = applyAll txs' (applyAll txs a) := List.foldl_append

theorem mem_of_mem_firstTxs {es : List Boot} {ms : List ℕ} {tx : Tx} (h : tx ∈ firstTxs es ms) :
    ∃ e ∈ es, tx ∈ e.txs := by
  obtain ⟨p, hp, htx⟩ := List.mem_flatMap.mp h
  exact ⟨p.1, (List.of_mem_zip hp).1, List.mem_of_mem_take htx⟩

section Contents

variable {start size : ℕ} {disk : ℕ → Block} {lh : List ℕ} {hb : Block}

@[simp] theorem header_putHeader : header (putHeader lh hb) = lh := by
  refine List.ext_getElem (by simp [header, putHeader]) fun i h₁ h₂ => ?_
  simp [header, putHeader, h₂]

theorem contents_of_logged_nil (h : logged start disk = []) : contents start disk = disk := by
  funext b
  simp [contents, h]

theorem Recoverable.of_logged_nil (hsize : 0 < size) (h : logged start disk = []) :
    Recoverable start size disk := by
  refine ⟨?_, ?_, ?_⟩ <;> simp [h, hsize]

theorem Outside.ne_log {b i : ℕ} (hb : Outside start size b) (hi : i < size) : b ≠ start + i := by
  rcases hb with hb | hb <;> omega

end Contents

/-! ### Copies -/

/-- One block is copied to another, on the disk and in the cache. -/
def Blocks.copy (A : Blocks) (src dst : ℕ) : Blocks :=
  { A with
    disk := update A.disk dst (A.view src)
    view := update A.view dst (A.view src)
    dirty := A.dirty \ {dst}
    writes := A.writes - 1 }

def Blocks.copies (A : Blocks) (src dst : ℕ → ℕ) : ℕ → Blocks
  | 0 => A
  | n + 1 => (A.copies src dst n).copy (src n) (dst n)

section Copies

variable {A : Blocks} {src dst : ℕ → ℕ} {n : ℕ} {w : Machine} {H : Halt × (ℕ → Block) → Prop}
  {Q : Unit → Machine → Prop}

@[simp] theorem Blocks.copies_lh : (A.copies src dst n).lh = A.lh := by
  induction n with
  | zero => rfl
  | succ n ih => exact ih

@[simp] theorem Blocks.copies_held : (A.copies src dst n).held = A.held := by
  induction n with
  | zero => rfl
  | succ n ih => exact ih

@[simp] theorem Blocks.copies_outstanding : (A.copies src dst n).outstanding = A.outstanding := by
  induction n with
  | zero => rfl
  | succ n ih => exact ih

@[simp] theorem Blocks.copies_writes : (A.copies src dst n).writes = A.writes - n := by
  induction n with
  | zero => rfl
  | succ n ih =>
    have hsucc : (A.copies src dst (n + 1)).writes = (A.copies src dst n).writes - 1 := rfl
    rw [hsucc, ih]
    omega

theorem Blocks.copies_dirty_subset : (A.copies src dst n).dirty ⊆ A.dirty := by
  induction n with
  | zero => exact subset_rfl
  | succ n ih => exact Set.sdiff_subset.trans ih

/-- A block that nothing is copied to. -/
theorem Blocks.copies_of_ne {b : ℕ} (h : ∀ i < n, dst i ≠ b) :
    (A.copies src dst n).disk b = A.disk b ∧ (A.copies src dst n).view b = A.view b ∧
      (b ∈ (A.copies src dst n).dirty ↔ b ∈ A.dirty) := by
  induction n with
  | zero => exact ⟨rfl, rfl, Iff.rfl⟩
  | succ n ih =>
    obtain ⟨hdisk, hview, hdirty⟩ := ih fun i hi => h i (by omega)
    have hne : b ≠ dst n := (h n (by omega)).symm
    simp [Blocks.copies, Blocks.copy, hne, hdisk, hview, hdirty]

/-- A block that one other is copied to. -/
theorem Blocks.copies_at (src dst : ℕ → ℕ) {j : ℕ} (hj : j < n)
    (hinj : ∀ i < n, dst i = dst j → i = j)
    (hsrc : ∀ i < n, dst i ≠ src j) :
    (A.copies src dst n).disk (dst j) = A.view (src j) ∧
      (A.copies src dst n).view (dst j) = A.view (src j) ∧
      dst j ∉ (A.copies src dst n).dirty := by
  induction n with
  | zero => omega
  | succ n ih =>
    by_cases hjn : j = n
    · subst hjn
      have hsame : (A.copies src dst j).view (src j) = A.view (src j) :=
        (Blocks.copies_of_ne fun i hi => hsrc i (by omega)).2.1
      simp [Blocks.copies, Blocks.copy, hsame]
    · obtain ⟨hdisk, hview, hdirty⟩ := ih (by omega) (fun i hi => hinj i (by omega))
        fun i hi => hsrc i (by omega)
      have hne : dst j ≠ dst n := fun heq => hjn (hinj n (by omega) heq.symm).symm
      simp [Blocks.copies, Blocks.copy, hne, hdisk, hview, hdirty]

theorem Rep.copyRound {first second s d : ℕ} (h : Rep w A) (hheld : A.held = ∅) (hne : s ≠ d)
    (horder : first = s ∧ second = d ∨ first = d ∧ second = s)
    (hcrash : A.writes = 0 → H (.power, A.disk))
    (hQ : A.writes ≠ 0 → ∀ w', Rep w' (A.copy s d) → Q () w') :
    wp (copyRound first second s d) Q H w := by
  have hfs : second ≠ first := by
    rcases horder with ⟨rfl, rfl⟩ | ⟨rfl, rfl⟩ <;> simp [hne, hne.symm]
  have hmem : ∀ x, x = s ∨ x = d ↔ x = second ∨ x = first := by
    rcases horder with ⟨rfl, rfl⟩ | ⟨rfl, rfl⟩ <;> simp [or_comm]
  have hclean := h.clean s
  simp only [Disk.copyRound, wp_bind]
  refine h.bread (by simp [hheld]) fun w₁ h₁ => ?_
  refine h₁.bread (b := second) (by simp [hheld, hfs]) fun w₂ h₂ => ?_
  have hs : s ∈ insert second (insert first A.held) := by
    simpa [hheld] using (hmem s).mp (Or.inl rfl)
  have hd : d ∈ insert second (insert first A.held) := by
    simpa [hheld] using (hmem d).mp (Or.inr rfl)
  refine h₂.wp_data hs (h₂.setData hd fun w₃ h₃ => ?_)
  refine h₃.bwrite hd hcrash fun hw w₄ h₄ => ?_
  refine h₄.brelse hs (fun hdirty => ?_) fun w₅ h₅ => ?_
  · simp only [update_of_ne hne, update_self]
    exact hclean (fun hm => hdirty ⟨hm, hne⟩) (by simp [hheld])
  refine h₅.brelse ⟨hd, hne.symm⟩ (fun _ => by simp) fun w₆ h₆ => hQ hw w₆ ?_
  have hempty : ((insert second (insert first A.held)) \ {s}) \ {d} = A.held := by
    rw [hheld]
    ext x
    have := hmem x
    simp only [Set.mem_sdiff, Set.mem_insert_iff, Set.mem_singleton_iff, Set.mem_empty_iff_false,
      or_false, iff_false]
    tauto
  simpa [Blocks.copy, hempty] using h₆

theorem Rep.copies {first second : ℕ → ℕ} (h : Rep w A) (hheld : A.held = ∅)
    (hne : ∀ i < n, src i ≠ dst i)
    (horder : ∀ i, first i = src i ∧ second i = dst i ∨ first i = dst i ∧ second i = src i)
    (hcrash : ∀ i < n, A.writes = i → H (.power, (A.copies src dst i).disk))
    (hQ : n ≤ A.writes → ∀ w', Rep w' (A.copies src dst n) → Q () w') :
    wp (forRange n fun i => Disk.copyRound (first i) (second i) (src i) (dst i)) Q H w := by
  refine (wp_forRange (I := fun i w => i ≤ A.writes ∧ Rep w (A.copies src dst i))
    ⟨Nat.zero_le _, h⟩ ?_).mono (fun _ w' h' => hQ h'.1 w' h'.2) fun _ => id
  rintro i hi w' ⟨hle, h'⟩
  refine h'.copyRound (by simp [hheld]) (hne i hi) (horder i) (fun h0 => ?_) fun h0 w'' h'' => ?_
  · rw [Blocks.copies_writes] at h0
    exact hcrash i hi (by omega)
  · rw [Blocks.copies_writes] at h0
    exact ⟨by omega, h''⟩

end Copies

/-! ### The header -/

section Head

variable {start : ℕ} {A : Blocks} {w : Machine} {H : Halt × (ℕ → Block) → Prop}
  {Q : Unit → Machine → Prop}

theorem Rep.setLh {lh : List ℕ} (h : Rep w A) (hQ : ∀ w', Rep w' { A with lh := lh } → Q () w') :
    wp (setLh lh) Q H w := by
  rw [Disk.setLh, wp_modify]
  exact hQ _ ⟨h.disk, rfl, h.outstanding, h.writes, h.valid, h.data, h.dirty, h.refcnt, h.uncached,
    h.clean⟩

theorem Rep.readHead (h : Rep w A) (hheld : A.held = ∅)
    (hQ : ∀ w', Rep w' { A with lh := header (A.view start) } → Q () w') :
    wp (readHead start) Q H w := by
  have hclean := h.clean start
  simp only [Disk.readHead, wp_bind]
  refine h.bread (by simp [hheld]) fun w₁ h₁ => ?_
  refine h₁.wp_data (by simp) (h₁.setLh fun w₂ h₂ => ?_)
  refine h₂.brelse (by simp) (fun hd => hclean hd (by simp [hheld])) fun w₃ h₃ => hQ w₃ ?_
  simpa [hheld] using h₃

/-- The header is written from memory over the block that is there. -/
def Blocks.putHead (A : Blocks) (start : ℕ) : Blocks :=
  { A with
    disk := update A.disk start (putHeader A.lh (A.view start))
    view := update A.view start (putHeader A.lh (A.view start))
    dirty := A.dirty \ {start}
    writes := A.writes - 1 }

theorem Rep.writeHead (h : Rep w A) (hheld : A.held = ∅)
    (hcrash : A.writes = 0 → H (.power, A.disk))
    (hQ : A.writes ≠ 0 → ∀ w', Rep w' (A.putHead start) → Q () w') :
    wp (writeHead start) Q H w := by
  simp only [Disk.writeHead, wp_bind]
  refine h.bread (by simp [hheld]) fun w₁ h₁ => ?_
  simp only [wp_get, h₁.lh]
  refine h₁.wp_data (by simp) (h₁.setData (by simp) fun w₂ h₂ => ?_)
  refine h₂.bwrite (by simp) hcrash fun hw w₃ h₃ => ?_
  refine h₃.brelse (by simp) (fun _ => by simp) fun w₄ h₄ => hQ hw w₄ ?_
  simpa [hheld, Blocks.putHead] using h₄

end Head

/-! ### Installing the log -/

section Install

variable {start size : ℕ} {A : Blocks} {w : Machine} {H : Halt × (ℕ → Block) → Prop}
  {Q : Unit → Machine → Prop}

/-- The log on the disk is that in memory, and only its blocks are pinned. -/
structure Committed (start size : ℕ) (A : Blocks) : Prop where
  held : A.held = ∅
  onDisk : logged start A.disk = A.lh
  recoverable : Recoverable start size A.disk
  dirty : ∀ b ∈ A.dirty, b ∈ A.lh
  clean : ∀ b ∉ A.dirty, A.view b = A.disk b

/-- After `n` rounds of `install_trans`. -/
def Blocks.installed (A : Blocks) (start n : ℕ) : Blocks :=
  A.copies (fun i => start + i + 1) (fun i => A.lh.getD i 0) n

theorem Committed.outside (h : Committed start size A) {b : ℕ} (hb : b ∈ A.lh) :
    Outside start size b :=
  h.recoverable.outside b (h.onDisk ▸ hb)

theorem Committed.length_lt (h : Committed start size A) : A.lh.length < size := by
  rw [← h.onDisk]
  exact h.recoverable.length

theorem getD_mem {lh : List ℕ} {i : ℕ} (hi : i < lh.length) : lh.getD i 0 ∈ lh := by
  simp [hi]

theorem getD_idxOf {lh : List ℕ} {b : ℕ} (hb : b ∈ lh) : lh.getD (lh.idxOf b) 0 = b := by
  simp [List.idxOf_lt_length_of_mem hb]

section

variable (h : Committed start size A)
include h

theorem Committed.getD_inj {i j : ℕ} (hi : i < A.lh.length) (hj : j < A.lh.length)
    (heq : A.lh.getD i 0 = A.lh.getD j 0) : i = j := by
  have hn := h.recoverable.nodup
  rw [h.onDisk] at hn
  simpa [hi, hj, hn.getElem_inj_iff] using heq

theorem Committed.installed_log {n i : ℕ} (hn : n ≤ A.lh.length) (hi : i < size) :
    (A.installed start n).disk (start + i) = A.disk (start + i) :=
  (Blocks.copies_of_ne fun j hj => (h.outside (getD_mem (by omega))).ne_log hi).1

theorem Committed.logged_installed {n : ℕ} (hn : n ≤ A.lh.length) :
    logged start (A.installed start n).disk = A.lh := by
  have hhead := h.installed_log (i := 0) hn (by have := h.length_lt; omega)
  rw [← h.onDisk]
  exact congrArg header hhead

theorem Committed.recoverable_installed {n : ℕ} (hn : n ≤ A.lh.length) :
    Recoverable start size (A.installed start n).disk := by
  have hl := (h.logged_installed hn).trans h.onDisk.symm
  obtain ⟨hnodup, hout, hlen⟩ := h.recoverable
  rw [← hl] at hnodup hout hlen
  exact ⟨hnodup, hout, hlen⟩

/-- A round of `install_trans` changes nothing that a recovery would not. -/
theorem Committed.contents_installed {n : ℕ} (hn : n ≤ A.lh.length) :
    contents start (A.installed start n).disk = contents start A.disk := by
  funext b
  unfold contents
  rw [h.logged_installed hn, h.onDisk]
  split
  · next hb =>
    have hi := List.idxOf_lt_length_of_mem hb
    exact h.installed_log (i := A.lh.idxOf b + 1) hn (by have := h.length_lt; omega)
  · next hb =>
    refine (Blocks.copies_of_ne fun i hi heq => hb ?_).1
    exact heq ▸ getD_mem (by omega)

/-- When all are done the blocks are home. -/
theorem Committed.installed_all : (A.installed start A.lh.length).disk = contents start A.disk ∧
      (A.installed start A.lh.length).dirty = ∅ := by
  have hlt := h.length_lt
  have hat : ∀ {b}, b ∈ A.lh →
      (A.installed start A.lh.length).disk b = A.disk (start + A.lh.idxOf b + 1) ∧
      b ∉ (A.installed start A.lh.length).dirty := by
    intro b hb
    have hi := List.idxOf_lt_length_of_mem hb
    obtain ⟨hdisk, -, hdirty⟩ :=
      Blocks.copies_at (A := A) (fun i => start + i + 1) (fun i => A.lh.getD i 0) hi
      (fun i hi' heq => h.getD_inj hi' hi heq)
      fun i hi' => (h.outside (getD_mem hi')).ne_log (i := A.lh.idxOf b + 1) (by omega)
    simp only [getD_idxOf hb] at hdisk hdirty
    refine ⟨hdisk.trans (h.clean _ fun hd => ?_), hdirty⟩
    exact (h.outside (h.dirty _ hd)).ne_log (i := A.lh.idxOf b + 1) (by omega) rfl
  have hne : ∀ {b}, b ∉ A.lh → ∀ i < A.lh.length, A.lh.getD i 0 ≠ b :=
    fun hb i hi heq => hb (heq ▸ getD_mem hi)
  constructor
  · funext b
    unfold contents
    rw [h.onDisk]
    split
    · next hb => exact (hat hb).1
    · next hb => exact (Blocks.copies_of_ne (hne hb)).1
  · refine Set.eq_empty_of_forall_notMem fun b hd => ?_
    by_cases hb : b ∈ A.lh
    · exact (hat hb).2 hd
    · exact hb (h.dirty b ((Blocks.copies_of_ne (hne hb)).2.2.mp hd))

end

theorem Committed.installTrans (hc : Committed start size A) (h : Rep w A)
    (hcrash : ∀ disk, A.writes < A.lh.length → Recoverable start size disk →
      contents start disk = contents start A.disk → H (.power, disk))
    (hQ : A.lh.length ≤ A.writes → ∀ w', Rep w' (A.installed start A.lh.length) → Q () w') :
    wp (installTrans start) Q H w := by
  simp only [Disk.installTrans, wp_bind, wp_get, h.lh]
  refine h.copies hc.held (fun i hi => ?_) (fun i => Or.inl ⟨rfl, rfl⟩) (fun i hi hw => ?_) hQ
  · have hlt := hc.length_lt
    exact ((hc.outside (getD_mem hi)).ne_log (i := i + 1) (by omega)).symm
  · exact hcrash _ (by omega) (hc.recoverable_installed hi.le) (hc.contents_installed hi.le)

end Install

/-! ### Between transactions -/

/-- Nothing is logged, pinned or in use, and the blocks outside the log are those of `a`. -/
structure Idle (start size : ℕ) (A : Blocks) (a : ℕ → Block) : Prop where
  held : A.held = ∅
  dirty : A.dirty = ∅
  lh : A.lh = []
  outstanding : A.outstanding = 0
  unlogged : logged start A.disk = []
  same : Same start size A.disk a

section Transactions

variable {start size : ℕ} {A : Blocks} {w : Machine} {a a' a₀ : ℕ → Block}
  {H : Halt × (ℕ → Block) → Prop} {Q : Unit → Machine → Prop}

theorem Same.trans {x y z : ℕ → Block} (h : Same start size x y) (h' : Same start size y z) :
    Same start size x z := fun b hb => (h b hb).trans (h' b hb)

/-- The last lines of `recover_from_log` and of `commit`. -/
theorem Committed.finish (hsize : 0 < size) (hc : Committed start size A) (h : Rep w A)
    (hout : A.outstanding = 0) :
    wp (do Disk.installTrans start; setLh []; writeHead start)
      (fun _ w' => ∃ A', Rep w' A' ∧ Idle start size A' (contents start A.disk) ∧
        A.writes = A'.writes + (A.lh.length + 1))
      (fun e => e.1 = .power ∧ A.writes < A.lh.length + 1 ∧ Recoverable start size e.2 ∧
        contents start e.2 = contents start A.disk) w := by
  obtain ⟨hdisk, hdirty⟩ := hc.installed_all
  have hheld : (A.installed start A.lh.length).held = ∅ := by
    simpa [Blocks.installed] using hc.held
  have hwrites : (A.installed start A.lh.length).writes = A.writes - A.lh.length := by
    simp [Blocks.installed]
  simp only [wp_bind]
  refine hc.installTrans h (fun disk hw hr hcon => ⟨rfl, by omega, hr, hcon⟩) fun hle w₁ h₁ => ?_
  refine h₁.setLh fun w₂ h₂ => ?_
  refine h₂.writeHead hheld (fun h0 => ?_) fun h0 w₃ h₃ => ?_
  · have h0' : (A.installed start A.lh.length).writes = 0 := h0
    refine ⟨rfl, by omega, hc.recoverable_installed le_rfl, hc.contents_installed le_rfl⟩
  · have h0' : (A.installed start A.lh.length).writes ≠ 0 := h0
    refine ⟨_, h₃, ⟨hheld, ?_, rfl, ?_, ?_, fun b hb => ?_⟩, ?_⟩
    · simp [Blocks.putHead, hdirty]
    · simpa [Blocks.putHead, Blocks.installed] using hout
    · simp [Blocks.putHead, Disk.logged]
    · have hne : b ≠ start := hb.ne_log (i := 0) hsize
      simp [Blocks.putHead, hne, hdisk]
    · simp only [Blocks.putHead]
      omega

theorem Rep.boot (disk : ℕ → Block) (writes : ℕ) (recycle : ℕ → ℕ → Bool) :
    Rep (.boot disk writes recycle) ⟨disk, disk, ∅, ∅, [], 0, writes⟩ := by
  refine ⟨rfl, rfl, rfl, rfl, ?_, ?_, ?_, ?_, ?_, ?_⟩ <;> simp [Machine.boot]

/-- A recovery that gets to its end leaves the contents in place; one that does not leaves a
disk with the same contents. -/
theorem wp_initlog {disk : ℕ → Block} (writes : ℕ) (recycle : ℕ → ℕ → Bool)
    (hr : Recoverable start size disk) :
    wp (initlog start)
      (fun _ w' => ∃ A', Rep w' A' ∧ Idle start size A' (contents start disk) ∧
        writes = A'.writes + ((logged start disk).length + 1))
      (fun e => e.1 = .power ∧ writes < (logged start disk).length + 1 ∧
        Recoverable start size e.2 ∧ contents start e.2 = contents start disk)
      (.boot disk writes recycle) := by
  have h₀ := Rep.boot disk writes recycle
  unfold initlog recoverFromLog
  rw [wp_bind]
  refine h₀.readHead rfl fun w₁ h₁ => ?_
  have hc : Committed start size
      ⟨disk, disk, ∅, ∅, logged start disk, 0, writes⟩ :=
    ⟨rfl, rfl, hr, by simp, fun _ _ => rfl⟩
  exact hc.finish (by have := hr.length; omega) h₁ rfl

/-- In a transaction that has made the blocks `a₀` into `a`, of which the disk has nothing. -/
structure InTx (start size : ℕ) (A : Blocks) (a₀ a : ℕ → Block) : Prop where
  held : A.held = ∅
  dirty : ∀ b, b ∈ A.dirty ↔ b ∈ A.lh
  nodup : A.lh.Nodup
  outside : ∀ b ∈ A.lh, Outside start size b
  length : A.lh.length < size
  unlogged : logged start A.disk = []
  view : Same start size A.view a
  disk : Same start size A.disk a₀

theorem Idle.inTx (h : Idle start size A a) (hrep : Rep w A) (hsize : 0 < size) {o : ℕ} :
    InTx start size { A with outstanding := o } a a := by
  refine ⟨h.held, by simp [h.dirty, h.lh], by simp [h.lh], by simp [h.lh],
    by simpa [h.lh] using hsize,
    h.unlogged, fun b hb => ?_, h.same⟩
  rw [← h.same b hb]
  exact hrep.clean b (by simp [h.dirty]) (by simp [h.held])

/-- A block is modified and logged. -/
theorem InTx.write {b : ℕ} {v : Block} (h : InTx start size A a₀ a) (hb : Outside start size b)
    (hroom : A.lh.length < size - 1) : InTx start size { A with
      view := update A.view b v, lh := absorb b A.lh, dirty := insert b A.dirty } a₀
      (update a b v) := by
  refine ⟨h.held, fun c => ?_, nodup_absorb h.nodup b, fun c hc => ?_, ?_, h.unlogged,
    fun c hc => ?_, h.disk⟩
  · simp [mem_absorb, h.dirty]
  · obtain rfl | hc := mem_absorb.mp hc
    · exact hb
    · exact h.outside c hc
  · simp only [absorb]
    split
    · omega
    · simp only [List.length_append, List.length_singleton]
      omega
  · by_cases hcb : c = b
    · subst hcb
      simp
    · simpa [hcb] using h.view c hc

theorem Rep.logWrite {b : ℕ} (h : Rep w A) (ho : A.outstanding = 1) (hb : b ∈ A.held)
    (hfull : LOGSIZE ≤ A.lh.length ∨ size - 1 ≤ A.lh.length → H (.tooBig, A.disk))
    (hQ : A.lh.length < LOGSIZE → A.lh.length < size - 1 → ∀ w',
      Rep w' { A with lh := absorb b A.lh, dirty := insert b A.dirty } → Q () w') :
    wp (Disk.logWrite size b) Q H w := by
  simp only [Disk.logWrite, wp_bind, wp_get, h.lh, h.outstanding, ho]
  split
  · next hf =>
    simp only [halt, wp_bind, wp_get, wp_throw, h.disk]
    exact hfull hf
  · next hf =>
    rw [not_or, not_le, not_le] at hf
    simp only [lt_irrefl, if_false, wp_bind]
    exact h.setLh fun w₁ h₁ => h₁.setDirty hb fun w₂ h₂ => hQ hf.1 hf.2 w₂ h₂

/-- A transaction writes nothing to the disk before its `end_op`. -/
theorem InTx.run (tx : Tx) (htx : tx.Outside start size) (h : Rep w A)
    (hin : InTx start size A a₀ a) (ho : A.outstanding = 1) : wp (tx.run size)
      (fun _ w' => ∃ A', Rep w' A' ∧ InTx start size A' a₀ (tx.apply a) ∧ A'.outstanding = 1 ∧
        A'.writes = A.writes)
      (fun e => e.1 = .tooBig ∧ ¬ tx.Fits size A.lh ∧ logged start e.2 = [] ∧
        Same start size e.2 a₀) w := by
  induction tx generalizing A w a with
  | done => exact ⟨A, h, hin, ho, rfl⟩
  | read b k ih =>
    obtain ⟨hb, hk⟩ := htx
    have hclean := h.clean b
    simp only [Tx.run, wp_bind]
    refine h.bread (by simp [hin.held]) fun w₁ h₁ => h₁.wp_data (by simp) ?_
    refine h₁.brelse (by simp) (fun hd => hclean hd (by simp [hin.held])) fun w₂ h₂ => ?_
    rw [show insert b A.held \ {b} = A.held by simp [hin.held]] at h₂
    rw [hin.view b hb]
    exact (ih (a b) (hk _) h₂ hin ho).mono (fun _ _ => id)
      fun e ⟨hwhy, hfit, hrest⟩ => ⟨hwhy, fun hf => hfit (hf _), hrest⟩
  | write b v k ih =>
    obtain ⟨hb, hk⟩ := htx
    simp only [Tx.run, wp_bind]
    refine h.bread (by simp [hin.held]) fun w₁ h₁ => h₁.setData (by simp) fun w₂ h₂ => ?_
    refine h₂.logWrite ho (by simp) (fun hfull => ?_) fun hl hs w₃ h₃ => ?_
    · refine ⟨rfl, fun hf => ?_, hin.unlogged, hin.disk⟩
      have hle : LOGSIZE ≤ A.lh.length ∨ size - 1 ≤ A.lh.length := hfull
      have := hf.1
      have := hf.2.1
      omega
    · refine h₃.brelse (by simp) (fun hd => absurd (Set.mem_insert b _) hd) fun w₄ h₄ => ?_
      have hin' := hin.write (v := v) hb hs
      have h₄' : Rep w₄ { A with
          view := update A.view b v, lh := absorb b A.lh, dirty := insert b A.dirty } := by
        simpa [hin.held] using h₄
      exact (ih hk h₄' hin' ho).mono (fun _ _ => id)
        fun e ⟨hwhy, hfit, hrest⟩ => ⟨hwhy, fun hf => hfit hf.2.2, hrest⟩

/-- After `n` rounds of `write_log`. -/
def Blocks.copied (A : Blocks) (start n : ℕ) : Blocks :=
  A.copies (fun i => A.lh.getD i 0) (fun i => start + i + 1) n

section

variable (h : InTx start size A a₀ a)
include h

theorem InTx.copied_outside {n b : ℕ} (hn : n ≤ A.lh.length) (hb : Outside start size b) :
    (A.copied start n).disk b = A.disk b ∧ (b ∈ (A.copied start n).dirty ↔ b ∈ A.dirty) := by
  have hlt := h.length
  have hne : ∀ i < n, start + i + 1 ≠ b := fun i hi => (hb.ne_log (i := i + 1) (by omega)).symm
  exact ⟨(Blocks.copies_of_ne hne).1, (Blocks.copies_of_ne hne).2.2⟩

theorem InTx.copied_head {n : ℕ} : logged start (A.copied start n).disk = [] := by
  rw [← h.unlogged]
  exact congrArg header (Blocks.copies_of_ne fun i hi => by omega).1

/-- Up to the header the disk holds the blocks of before. -/
theorem InTx.before {n : ℕ} (hn : n ≤ A.lh.length) :
    Recoverable start size (A.copied start n).disk ∧
      Same start size (contents start (A.copied start n).disk) a₀ := by
  have hnil := h.copied_head (n := n)
  refine ⟨.of_logged_nil (by have := h.length; omega) hnil, fun b hb => ?_⟩
  rw [contents_of_logged_nil hnil, (h.copied_outside hn hb).1]
  exact h.disk b hb

/-- With the header the disk holds the blocks of after. -/
theorem InTx.after (hrep : Rep w A) {w' : Machine}
    (hrep' : Rep w' ((A.copied start A.lh.length).putHead start)) :
    Committed start size ((A.copied start A.lh.length).putHead start) ∧
      Same start size (contents start ((A.copied start A.lh.length).putHead start).disk) a := by
  have hlt := h.length
  have hlh : (A.copied start A.lh.length).lh = A.lh := by simp [Blocks.copied]
  have hlog : logged start ((A.copied start A.lh.length).putHead start).disk = A.lh := by
    simp [Blocks.putHead, logged, hlh]
  have hheld : (A.copied start A.lh.length).held = ∅ := by simpa [Blocks.copied] using h.held
  have hne : ∀ {b}, Outside start size b → b ≠ start := fun hb => hb.ne_log (i := 0) (by omega)
  refine ⟨⟨hheld, by rw [hlog, Blocks.putHead, hlh], ⟨?_, ?_, ?_⟩, fun b hb => ?_, fun b hb => ?_⟩,
    fun b hb => ?_⟩
  · rw [hlog]
    exact h.nodup
  · rw [hlog]
    exact h.outside
  · rw [hlog]
    exact hlt
  · rw [show ((A.copied start A.lh.length).putHead start).lh = A.lh from hlh]
    exact (h.dirty b).mp (Blocks.copies_dirty_subset hb.1)
  · exact hrep'.clean b hb (by simp [Blocks.putHead, hheld])
  · unfold contents
    rw [hlog]
    split
    · next hmem =>
      have hi := List.idxOf_lt_length_of_mem hmem
      have hat := (Blocks.copies_at (A := A) (fun i => A.lh.getD i 0) (fun i => start + i + 1) hi
        (fun i _ heq => by omega) fun i hi' heq => (h.outside _ (getD_mem hi)).ne_log
          (i := i + 1) (by omega) heq.symm).1
      have hstart : start + A.lh.idxOf b + 1 ≠ start := by omega
      simp only [Blocks.putHead, update_of_ne hstart]
      exact hat.trans ((congrArg A.view (getD_idxOf hmem)).trans (h.view b hb))
    · next hmem =>
      simp only [Blocks.putHead, update_of_ne (hne hb), (h.copied_outside le_rfl hb).1]
      rw [← h.view b hb]
      exact (hrep.clean b (fun hd => hmem ((h.dirty b).mp hd)) (by simp [h.held])).symm

end

theorem InTx.writeLog (hin : InTx start size A a₀ a) (h : Rep w A)
    (hcrash : ∀ i < A.lh.length, A.writes = i → H (.power, (A.copied start i).disk))
    (hQ : A.lh.length ≤ A.writes → ∀ w', Rep w' (A.copied start A.lh.length) → Q () w') :
    wp (Disk.writeLog start) Q H w := by
  simp only [Disk.writeLog, wp_bind, wp_get, h.lh]
  refine h.copies hin.held (fun i hi => ?_) (fun i => Or.inr ⟨rfl, rfl⟩) hcrash hQ
  have hlt := hin.length
  exact (hin.outside _ (getD_mem hi)).ne_log (i := i + 1) (by omega)

theorem InTx.commit (h : Rep w A) (hin : InTx start size A a₀ a) (ho : A.outstanding = 0) :
    wp (commit start)
      (fun _ w' => ∃ A', Rep w' A' ∧ Idle start size A' a ∧ A.writes ≤ A'.writes + 2 * size)
      (fun e => e.1 = .power ∧ A.writes < 2 * size ∧ Recoverable start size e.2 ∧
        (Same start size (contents start e.2) a₀ ∨ Same start size (contents start e.2) a)) w := by
  have hlt := hin.length
  simp only [Disk.commit, wp_bind, wp_get, h.lh]
  split
  · have hheld : (A.copied start A.lh.length).held = ∅ := by simpa [Blocks.copied] using hin.held
    have hwrites : (A.copied start A.lh.length).writes = A.writes - A.lh.length := by
      simp [Blocks.copied]
    rw [wp_bind]
    refine hin.writeLog h (fun i hi hw => ?_) fun hle w₁ h₁ => ?_
    · obtain ⟨hr, hs⟩ := hin.before hi.le
      exact ⟨rfl, by omega, hr, Or.inl hs⟩
    rw [wp_bind]
    refine h₁.writeHead hheld (fun h0 => ?_) fun h0 w₂ h₂ => ?_
    · obtain ⟨hr, hs⟩ := hin.before le_rfl
      exact ⟨rfl, by omega, hr, Or.inl hs⟩
    obtain ⟨hc, hs⟩ := hin.after h h₂
    have hlh : ((A.copied start A.lh.length).putHead start).lh = A.lh := by
      simp [Blocks.putHead, Blocks.copied]
    have hw₂ : ((A.copied start A.lh.length).putHead start).writes =
        A.writes - A.lh.length - 1 := by
      simp only [Blocks.putHead, hwrites]
    refine (hc.finish (by omega) h₂ (by simpa [Blocks.putHead, Blocks.copied] using ho)).mono ?_ ?_
    · rintro - w₃ ⟨A', h₃, hidle, hw₃⟩
      refine ⟨A', h₃, ⟨hidle.held, hidle.dirty, hidle.lh, hidle.outstanding, hidle.unlogged,
        hidle.same.trans hs⟩, ?_⟩
      rw [hlh, hw₂] at hw₃
      omega
    · rintro e ⟨hwhy, hw, hr, hcon⟩
      rw [hlh, hw₂] at hw
      exact ⟨hwhy, by omega, hr, Or.inr (hcon ▸ hs)⟩
  · next hnil =>
    have hempty : A.lh = [] := by simpa using hnil
    have hdirty : A.dirty = ∅ := Set.eq_empty_of_forall_notMem fun b hb => by
      simpa [hempty] using (hin.dirty b).mp hb
    refine ⟨A, h, ⟨hin.held, hdirty, hempty, ho, hin.unlogged, fun b hb => ?_⟩, by omega⟩
    rw [← hin.view b hb]
    exact (h.clean b (by simp [hdirty]) (by simp [hin.held])).symm

/-- A transaction returns with its effect on the disk, or stops with all of it or nothing. -/
theorem wp_transaction {tx : Tx} (htx : tx.Outside start size) (hsize : 0 < size) (h : Rep w A)
    (hidle : Idle start size A a) :
    wp (transaction start size tx)
      (fun _ w' => ∃ A', Rep w' A' ∧ Idle start size A' (tx.apply a) ∧
        A.writes ≤ A'.writes + 2 * size)
      (fun e => (tx.Fits size [] → A.writes < 2 * size) ∧ Recoverable start size e.2 ∧
        (Same start size (contents start e.2) a ∨
        Same start size (contents start e.2) (tx.apply a)))
      w := by
  have hroom : ¬ w.log.full := by
    rw [Machine.log, h.lh, h.outstanding, hidle.lh, hidle.outstanding]
    decide
  have h₁ : Rep { w with outstanding := w.outstanding + 1 } { A with outstanding := 1 } :=
    ⟨h.disk, h.lh, by simp [h.outstanding, hidle.outstanding], h.writes, h.valid, h.data, h.dirty,
      h.refcnt, h.uncached, h.clean⟩
  simp only [transaction, beginOp, wp_bind, wp_get, hroom, if_false, wp_set]
  refine (InTx.run tx htx h₁ (hidle.inTx h hsize) rfl).mono ?_ ?_
  · rintro - w₂ ⟨A₂, h₂, hin, ho, hw⟩
    have h₂' : Rep { w₂ with outstanding := w₂.outstanding - 1 } { A₂ with outstanding := 0 } :=
      ⟨h₂.disk, h₂.lh, by simp [h₂.outstanding, ho], h₂.writes, h₂.valid, h₂.data, h₂.dirty,
        h₂.refcnt, h₂.uncached, h₂.clean⟩
    have h0 : w₂.outstanding - 1 = 0 := by simp [h₂.outstanding, ho]
    simp only [endOp, wp_bind, wp_modify, wp_get, h0, if_true]
    have hin' : InTx start size { A₂ with outstanding := 0 } a (tx.apply a) :=
      ⟨hin.held, hin.dirty, hin.nodup, hin.outside, hin.length, hin.unlogged, hin.view, hin.disk⟩
    rw [h0] at h₂'
    refine (InTx.commit h₂' hin' rfl).mono (fun _ w₃ => ?_) ?_
    · rintro ⟨A', h₃, hidle', hw'⟩
      exact ⟨A', h₃, hidle', hw ▸ hw'⟩
    · rintro e ⟨-, hw', hr, hs⟩
      exact ⟨fun _ => hw ▸ hw', hr, hs⟩
  · rintro e ⟨-, hfit, hnil, hs⟩
    refine ⟨fun hf => absurd (hidle.lh ▸ hf) hfit, .of_logged_nil hsize hnil, Or.inl ?_⟩
    rw [contents_of_logged_nil hnil]
    exact hs

end Transactions

/-! ### Boots -/

section Boots

variable {start size : ℕ} {A : Blocks} {w : Machine} {a a' : ℕ → Block} {disk : ℕ → Block}

theorem Same.apply {tx : Tx} (htx : tx.Outside start size) (h : Same start size a a') :
    Same start size (tx.apply a) (tx.apply a') := by
  induction tx generalizing a a' with
  | done => exact h
  | read b k ih =>
    simp only [Tx.apply, h b htx.1]
    exact ih _ (htx.2 _) h
  | write b v k ih =>
    refine ih htx.2 fun c hc => ?_
    by_cases hcb : c = b
    · subst hcb
      simp
    · simpa [hcb] using h c hc

theorem Same.applyAll {txs : List Tx} (htxs : ∀ tx ∈ txs, tx.Outside start size)
    (h : Same start size a a') : Same start size (applyAll txs a) (applyAll txs a') := by
  induction txs generalizing a a' with
  | nil => exact h
  | cons tx txs ih =>
    exact ih (fun t ht => htxs t (by simp [ht])) (h.apply (htxs tx (by simp)))

/-- A disk from which a recovery gives `a` after the first `m` transactions, where `k` of them
have returned. -/
def Recovers (start size : ℕ) (txs : List Tx) (a : ℕ → Block) (r : (ℕ → Block) × ℕ) : Prop :=
  ∃ m, r.2 ≤ m ∧ m ≤ r.2 + 1 ∧ Recoverable start size r.1 ∧
    Same start size (contents start r.1) (applyAll (txs.take m) a)

theorem Idle.runTxs {txs : List Tx} (htxs : ∀ tx ∈ txs, tx.Outside start size) (hsize : 0 < size)
    (h : Rep w A) (hidle : Idle start size A a) :
    Recovers start size txs a (runTxs start size txs w) ∧
    ((∀ tx ∈ txs, tx.Fits size []) → 2 * size * txs.length ≤ A.writes →
      (runTxs start size txs w).2 = txs.length) := by
  induction txs generalizing w A a with
  | nil =>
    refine ⟨⟨0, le_rfl, by simp, ?_, ?_⟩, fun _ _ => rfl⟩
    · simpa [Disk.runTxs, h.disk] using Recoverable.of_logged_nil hsize hidle.unlogged
    · simpa [Disk.runTxs, h.disk, contents_of_logged_nil hidle.unlogged] using hidle.same
  | cons tx txs ih =>
    have hspec := wp_transaction (htxs tx (by simp)) hsize h hidle
    have hrest : ∀ t ∈ txs, t.Outside start size := fun t ht => htxs t (by simp [ht])
    unfold Disk.runTxs
    cases hrun : (transaction start size tx).run w with
    | error e =>
      obtain ⟨hfit, hr, hs⟩ := wp_of_run_error hspec hrun
      refine ⟨?_, fun hf hw => ?_⟩
      · rcases hs with hs | hs
        · exact ⟨0, le_rfl, by simp, hr, hs⟩
        · exact ⟨1, by simp, by simp, hr, by simpa using hs⟩
      · have := hfit (hf tx (by simp))
        simp only [List.length_cons, Nat.mul_add] at hw
        omega
    | ok p =>
      obtain ⟨_, w'⟩ := p
      obtain ⟨A', h', hidle', hw'⟩ := wp_of_run_ok hspec hrun
      obtain ⟨⟨m, hkm, hmk, hr, hs⟩, hall⟩ := ih hrest h' hidle'
      refine ⟨⟨m + 1, by simpa using hkm, by simpa using hmk, hr, by simpa using hs⟩,
        fun hf hw => ?_⟩
      simp only [List.length_cons, Nat.mul_add] at hw ⊢
      rw [hall (fun t ht => hf t (by simp [ht])) (by omega)]

theorem Recoverable.session {e : Boot} (he : ∀ tx ∈ e.txs, tx.Outside start size)
    (hr : Recoverable start size disk) :
    Recovers start size e.txs (contents start disk) (session start size e disk) ∧
    ((∀ tx ∈ e.txs, tx.Fits size []) → size + 2 * size * e.txs.length ≤ e.writes →
      (session start size e disk).2 = e.txs.length) := by
  have hlen := hr.length
  have hspec := wp_initlog e.writes e.recycle hr
  unfold Disk.session
  cases hrun : (initlog start).run (.boot disk e.writes e.recycle) with
  | error x =>
    obtain ⟨-, hw, hr', hcon⟩ := wp_of_run_error hspec hrun
    refine ⟨⟨0, le_rfl, by simp, hr', fun b _ => by simp [hcon]⟩, fun _ hle => ?_⟩
    omega
  | ok p =>
    obtain ⟨_, w⟩ := p
    obtain ⟨A', h', hidle, hw⟩ := wp_of_run_ok hspec hrun
    obtain ⟨hrec, hall⟩ := hidle.runTxs he (by omega) h'
    exact ⟨hrec, fun hf hle => hall hf (by omega)⟩

theorem Recoverable.lifetime {es : List Boot}
    (hes : ∀ e ∈ es, ∀ tx ∈ e.txs, tx.Outside start size) (hr : Recoverable start size disk) :
    Recoverable start size (lifetime start size es disk).1 ∧
    ∃ ms, List.Forall₂ (fun k m => k ≤ m ∧ m ≤ k + 1) (lifetime start size es disk).2 ms ∧
      Same start size (contents start (lifetime start size es disk).1)
        (applyAll (firstTxs es ms) (contents start disk)) := by
  induction es generalizing disk with
  | nil => exact ⟨hr, [], .nil, fun _ _ => rfl⟩
  | cons e es ih =>
    have hrest : ∀ e ∈ es, ∀ tx ∈ e.txs, tx.Outside start size := fun x hx => hes x (by simp [hx])
    obtain ⟨⟨m, hkm, hmk, hr', hs⟩, -⟩ := hr.session (hes e (by simp))
    obtain ⟨hr'', ms, hms, hs'⟩ := ih hrest hr'
    refine ⟨hr'', m :: ms, .cons ⟨hkm, hmk⟩ hms, hs'.trans ?_⟩
    have htxs : ∀ tx ∈ firstTxs es ms, tx.Outside start size := by
      intro tx htx
      obtain ⟨x, hx, htx⟩ := mem_of_mem_firstTxs htx
      exact hrest x hx tx htx
    have hcons : firstTxs (e :: es) (m :: ms) = e.txs.take m ++ firstTxs es ms := rfl
    rw [hcons, applyAll_append]
    exact hs.applyAll htxs

/-- The log is atomic. Boots of the machine follow each other, each cut off after any number
of block writes, in a commit or in a recovery. Then a recovery that gets to its end leaves every
block outside the log as the first transactions of each boot make it: those whose `commit` has
returned and at most one more. A recovery that has `size` writes gets there, and so do
transactions that fit the log if the power lasts. -/
theorem crash_atomicity (hsize : 0 < size) (hclean : logged start disk = []) (es : List Boot)
    (hes : ∀ e ∈ es, ∀ tx ∈ e.txs, tx.Outside start size) :
    (∃ ms, List.Forall₂ (fun k m => k ≤ m ∧ m ≤ k + 1) (lifetime start size es disk).2 ms ∧
      ∀ writes recycle w,
        (initlog start).run (.boot (lifetime start size es disk).1 writes recycle) = .ok ((), w) →
        Same start size w.disk (applyAll (firstTxs es ms) disk)) ∧
    (∀ writes recycle, size ≤ writes → ∃ w,
      (initlog start).run (.boot (lifetime start size es disk).1 writes recycle) = .ok ((), w)) ∧
    ∀ e : Boot, (∀ tx ∈ e.txs, tx.Outside start size ∧ tx.Fits size []) →
      size + 2 * size * e.txs.length ≤ e.writes →
      (session start size e (lifetime start size es disk).1).2 = e.txs.length := by
  obtain ⟨hr, ms, hms, hs⟩ := (Recoverable.of_logged_nil hsize hclean).lifetime hes
  rw [contents_of_logged_nil hclean] at hs
  refine ⟨⟨ms, hms, fun writes recycle w hrun => ?_⟩,
    fun writes recycle hle => ?_, fun e he hle => ?_⟩
  · obtain ⟨A, hrep, hidle, -⟩ := wp_of_run_ok (wp_initlog _ _ hr) hrun
    rw [hrep.disk]
    exact hidle.same.trans hs
  · cases hrun : (initlog start).run (.boot (lifetime start size es disk).1 writes recycle) with
    | ok p => exact ⟨p.2, rfl⟩
    | error x =>
      obtain ⟨-, hw, -⟩ := wp_of_run_error (wp_initlog _ _ hr) hrun
      have := hr.length
      omega
  · exact (hr.session fun tx htx => (he tx htx).1).2 (fun tx htx => (he tx htx).2) hle

end Boots

/-- Blocks 0 and 9 are written in one transaction, with the log at blocks 2 to 5. -/
def pairTx : Tx := .write 0 (fun _ => 7) (.write 9 (fun _ => 8) .done)

/-- The power fails after the first block is home, and again in the recovery. -/
def twiceBoots : List Boot := [⟨5, fun _ _ => false, [pairTx]⟩, ⟨1, fun _ _ => true, []⟩]

theorem crash_atomicity_twice :
    (lifetime 2 4 twiceBoots fun _ _ => 0).1 0 0 = 7 ∧
    (lifetime 2 4 twiceBoots fun _ _ => 0).1 9 0 = 0 ∧
    ∃ m, m ≤ 1 ∧ ∃ w, (initlog 2).run
      (.boot (lifetime 2 4 twiceBoots fun _ _ => 0).1 4 fun _ _ => false) = .ok ((), w) ∧
        Same 2 4 w.disk (applyAll ([pairTx].take m) fun _ _ => 0) := by
  have hes : ∀ e ∈ twiceBoots, ∀ tx ∈ e.txs, tx.Outside 2 4 := by
    simp [twiceBoots, pairTx, Tx.Outside, Outside]
  have hclean : logged 2 (fun _ _ => 0) = [] := rfl
  obtain ⟨⟨ms, hms, hrec⟩, hfin, -⟩ := crash_atomicity (by decide : 0 < 4) hclean twiceBoots hes
  obtain ⟨w, hw⟩ := hfin 4 (fun _ _ => false) le_rfl
  have hks : (lifetime 2 4 twiceBoots fun _ _ => 0).2 = [0, 0] := by decide +kernel
  rw [hks] at hms
  refine ⟨by decide +kernel, by decide +kernel, ?_⟩
  obtain ⟨m, ms, ⟨-, hm⟩, htail, rfl⟩ := List.forall₂_cons_left_iff.mp hms
  obtain ⟨m', ms', -, -, rfl⟩ := List.forall₂_cons_left_iff.mp htail
  exact ⟨m, hm, w, hw, by simpa [firstTxs, twiceBoots] using hrec _ _ w hw⟩

end Xv6.Disk
