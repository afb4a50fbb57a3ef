import Xv6.Lib.Sum
import Xv6.Mkfs.Layout

/-!
# Appending to an inode

`Holds` says what the inodes of an unfinished image hold and that the blocks are
allocated one after the other, each to one pointer. The inode that `iappend` works
on is in memory until the end, so the table of the inodes is an argument of its own.
-/

namespace Xv6.Mkfs

open Fs (BSIZE NDIRECT NINDIRECT MAXFILE IPB DIRSIZ ROOTINO Pointer)
open Bytes Function

/-- Where a function may write. -/
def Area.Has : Area → ℕ → Prop
  | .clear, _ => True
  | .super, b => b = 1
  | .inode, b => 2 + nlog ≤ b ∧ b < sb.bmapstart
  | .bitmap, b => b = sb.bmapstart
  | .data, b => nmeta ≤ b

/-- The image has `m i` blocks of inode `i`, which hold the bytes `c i`; the blocks from
`freeblock` on are not in use. -/
structure Holds (s : State) (tab : ℕ → Dinode) (m : ℕ → ℕ) (c : ℕ → List UInt8) : Prop where
  size : s.size = FSSIZE
  hi : s.freeblock ≤ FSSIZE
  alloc : AllocExact nmeta FSSIZE (ptr s.disk tab) fun b => decide (b < s.freeblock)
  fresh : ∀ b, s.freeblock ≤ b → b < FSSIZE → s.disk b = zeroes
  small : ∀ i, (tab i).Small
  blocks : ∀ i n, n < MAXFILE → (ptr s.disk tab (.block i n) ≠ 0 ↔ n < m i)
  bound : ∀ i, m i ≤ MAXFILE
  len : ∀ i, (c i).length ≤ BSIZE * m i
  bytes : ∀ i n, n < (c i).length →
    (c i)[n]? = some (s.disk (ptr s.disk tab (.block i (n / BSIZE))) (n % BSIZE))
  count : s.freeblock =
    nmeta + ∑ i ∈ Finset.range room, (m i + if (tab i).addrs NDIRECT = 0 then 0 else 1)
  written : ∀ x ∈ s.written, x.1.Has x.2

/-- The next block is entered at `j` in the indirect block `x`. -/
def State.enter (s : State) (x j : ℕ) : State :=
  wsect .data x (.of (blit (s.disk x) (4 * j) (Bytes.le 4 s.freeblock)))
    { s with freeblock := s.freeblock + 1 }

namespace Holds

variable {s s' : State} {tab tab' : ℕ → Dinode} {m : ℕ → ℕ} {c : ℕ → List UInt8} {i n : ℕ}

section

variable (h : Holds s tab m c)
include h

theorem ptr_range {q : Pointer} (hq : ptr s.disk tab q ≠ 0) :
    nmeta ≤ ptr s.disk tab q ∧ ptr s.disk tab q < s.freeblock :=
  ⟨(h.alloc.range q hq).1, of_decide_eq_true (h.alloc.bit_ptr hq)⟩

theorem lo : nmeta ≤ s.freeblock := by
  rw [h.count]
  omega

theorem freeblock_ne_zero : s.freeblock ≠ 0 := by
  have := h.lo
  have : 0 < nmeta := by decide
  omega

theorem ptr_block_next (hmax : m i < MAXFILE) : ptr s.disk tab (.block i (m i)) = 0 := by
  by_contra hne
  exact absurd ((h.blocks i _ hmax).mp hne) (lt_irrefl _)

/-- The next block gets a pointer to it. -/
theorem attach (hfree : s.freeblock < FSSIZE) {q : Pointer} (hq : ptr s.disk tab q = 0) :
    AllocExact nmeta FSSIZE (update (ptr s.disk tab) q s.freeblock)
      fun b => decide (b < s.freeblock + 1) := by
  have hnext := h.alloc.attach hq hfree (by simp)
  convert hnext using 1
  funext b
  by_cases hb : b = s.freeblock
  · simp [hb]
  · rw [update_of_ne hb]
    exact decide_eq_decide.mpr (by omega)

theorem ptr_block_ne_zero (hn : n < m i) : ptr s.disk tab (.block i n) ≠ 0 :=
  (h.blocks i n (hn.trans_le (h.bound i))).mpr hn

/-- An inode gets one more block. -/
theorem grow (hi : i < room) (hmax : m i < MAXFILE) (hfree : s.freeblock < FSSIZE)
    (hsize : s'.size = FSSIZE) (hfb : s'.freeblock = s.freeblock + 1)
    (hptr : ptr s'.disk tab' = update (ptr s.disk tab) (.block i (m i)) s.freeblock)
    (hdata : ∀ i' n, n < m i' →
      s'.disk (ptr s.disk tab (.block i' n)) = s.disk (ptr s.disk tab (.block i' n)))
    (hfresh : ∀ b, s.freeblock < b → s'.disk b = s.disk b) (hsmall : ∀ j, (tab' j).Small)
    (hind : ∀ j, (tab' j).addrs NDIRECT = (tab j).addrs NDIRECT)
    (hwritten : ∀ x ∈ s'.written, x.1.Has x.2) : Holds s' tab' (update m i (m i + 1)) c where
  size := hsize
  hi := by
    rw [hfb]
    exact hfree
  alloc := by
    rw [hptr, hfb]
    exact h.attach hfree (h.ptr_block_next hmax)
  fresh b hb hlt := by
    rw [hfresh b (by omega)]
    exact h.fresh b (by omega) hlt
  small := hsmall
  blocks i' n hn := by
    rw [hptr]
    by_cases hi' : i' = i
    · subst hi'
      by_cases hnm : n = m i'
      · subst hnm
        rw [update_self, update_self]
        exact iff_of_true h.freeblock_ne_zero (by omega)
      · rw [update_of_ne (by simp [block_inj, hnm]), update_self, h.blocks i' n hn]
        omega
    · rw [update_of_ne (by simp [block_inj, hi']), update_of_ne hi', h.blocks i' n hn]
  bound i' := by
    by_cases hi' : i' = i
    · rw [hi', update_self]
      exact hmax
    · rw [update_of_ne hi']
      exact h.bound i'
  len i' := by
    have := h.len i'
    by_cases hi' : i' = i
    · rw [hi', update_self, Nat.mul_add]
      rw [hi'] at this
      omega
    · rw [update_of_ne hi']
      exact this
  bytes i' n hn := by
    have hlt : n / BSIZE < m i' := Nat.div_lt_of_lt_mul (hn.trans_le (h.len i'))
    have hne : Pointer.block i' (n / BSIZE) ≠ .block i (m i) := by
      rw [ne_eq, block_inj]
      rintro ⟨rfl, he⟩
      omega
    rw [hptr, update_of_ne hne, hdata i' _ hlt, h.bytes i' n hn]
  count := by
    have hsum : ∑ j ∈ Finset.range room,
          (update m i (m i + 1) j + if (tab' j).addrs NDIRECT = 0 then 0 else 1) =
        ∑ j ∈ Finset.range room, (m j + if (tab j).addrs NDIRECT = 0 then 0 else 1) + 1 :=
      Finset.sum_eq_add_of_eq_add (Finset.mem_range.mpr hi)
        (fun x hx => by simp only [update_of_ne hx, hind])
        (by simp only [update_self, hind]; omega)
    rw [hfb, h.count, hsum, Nat.add_assoc]
  written := hwritten

/-- A direct block is taken. -/
theorem takeDirect (hi : i < room) (hn : m i < NDIRECT) (hfree : s.freeblock < FSSIZE) :
    Holds { s with freeblock := s.freeblock + 1 }
      (update tab i { tab i with addrs := update (tab i).addrs (m i) s.freeblock })
      (update m i (m i + 1)) c := by
  have hlt : s.freeblock < 1000 := hfree
  refine h.grow hi (hn.trans (by decide)) hfree h.size rfl ?_ (fun _ _ _ => rfl) (fun _ _ => rfl)
    (small_setAddr h.small hn.le (by omega)) (fun j => ?_) h.written
  · rw [Pointer.block, if_pos hn]
    exact ptr_setAddr fun hk => absurd hk hn.ne
  · by_cases hj : j = i
    · subst hj
      rw [update_self]
      exact update_of_ne hn.ne' _ _
    · rw [update_of_ne hj]

/-- A block is taken for the entries. -/
theorem takeIndirect (hi : i < room) (h0 : (tab i).addrs NDIRECT = 0)
    (hfree : s.freeblock < FSSIZE) : Holds { s with freeblock := s.freeblock + 1 }
      (update tab i { tab i with addrs := update (tab i).addrs NDIRECT s.freeblock }) m c := by
  have hlt : s.freeblock < 1000 := hfree
  have hptr :
      ptr s.disk (update tab i { tab i with addrs := update (tab i).addrs NDIRECT s.freeblock }) =
      update (ptr s.disk tab) (.addr i NDIRECT) s.freeblock :=
    ptr_setAddr fun _ => ⟨h0, h.fresh _ le_rfl hfree⟩
  refine { h with
    hi := hfree, alloc := ?_, fresh := fun b hb => h.fresh b (by simp only at hb; omega),
    small := small_setAddr h.small le_rfl (by omega), blocks := fun i' n hn => ?_, bytes :=
      fun i' n hn => ?_, count := ?_ }
  · rw [hptr]
    exact h.attach hfree h0
  · rw [hptr, update_of_ne block_ne_indirect, h.blocks i' n hn]
  · rw [hptr, update_of_ne block_ne_indirect, h.bytes i' n hn]
  · have hsum : ∑ j ∈ Finset.range room, (m j + if (update tab i
          { tab i with addrs := update (tab i).addrs NDIRECT s.freeblock } j).addrs NDIRECT = 0
            then 0 else 1) =
        ∑ j ∈ Finset.range room, (m j + if (tab j).addrs NDIRECT = 0 then 0 else 1) + 1 :=
      Finset.sum_eq_add_of_eq_add (Finset.mem_range.mpr hi)
        (fun x hx => by simp only [update_of_ne hx])
        (by simp only [update_self, h0, if_neg h.freeblock_ne_zero, if_true, Nat.add_zero])
    rw [hsum, ← Nat.add_assoc, ← h.count]

/-- Only one inode has an indirect block. -/
theorem indirect_inj {i' : ℕ} (hind : (tab i).addrs NDIRECT ≠ 0)
    (he : (tab i').addrs NDIRECT = (tab i).addrs NDIRECT) : i' = i :=
  (Pointer.addr.inj (h.alloc.inj (.addr i NDIRECT) (.addr i' NDIRECT) hind he.symm)).1.symm

/-- A block of the data is not an indirect block. -/
theorem block_ne {i' : ℕ} (hn : n < m i) :
    (tab i').addrs NDIRECT ≠ ptr s.disk tab (.block i n) := fun he =>
  block_ne_indirect (h.alloc.inj _ (.addr i' NDIRECT) (h.ptr_block_ne_zero hn) he.symm)

theorem indirect_range (hind : (tab i).addrs NDIRECT ≠ 0) :
    nmeta ≤ (tab i).addrs NDIRECT ∧ (tab i).addrs NDIRECT < s.freeblock :=
  h.ptr_range (q := .addr i NDIRECT) hind

theorem ptr_enter (hn : NDIRECT ≤ m i) (hmax : m i < MAXFILE) (hind : (tab i).addrs NDIRECT ≠ 0)
    (hfree : s.freeblock < FSSIZE) :
    ptr (s.enter ((tab i).addrs NDIRECT) (m i - NDIRECT)).disk tab =
      update (ptr s.disk tab) (.block i (m i)) s.freeblock := by
  have hlt : s.freeblock < 1000 := hfree
  have hj : m i - NDIRECT < NINDIRECT := by
    rw [MAXFILE] at hmax
    omega
  rw [State.enter, wsect, sector_of_lt ((h.indirect_range hind).2.le.trans h.hi), Pointer.block,
    if_neg (by omega)]
  exact ptr_setEntry hind hj (by omega) fun i' he => h.indirect_inj hind he

/-- A block is taken and entered in the indirect block. -/
theorem takeEntry (hi : i < room) (hn : NDIRECT ≤ m i) (hmax : m i < MAXFILE)
    (hind : (tab i).addrs NDIRECT ≠ 0) (hfree : s.freeblock < FSSIZE) :
    Holds (s.enter ((tab i).addrs NDIRECT) (m i - NDIRECT)) tab (update m i (m i + 1)) c := by
  obtain ⟨hlo, hhi⟩ := h.indirect_range hind
  have hsec : sector ((tab i).addrs NDIRECT) = (tab i).addrs NDIRECT :=
    sector_of_lt (hhi.le.trans h.hi)
  refine h.grow hi hmax hfree ?_ rfl (h.ptr_enter hn hmax hind hfree) (fun i' n hn' => ?_)
    (fun b hb => ?_) h.small (fun _ => rfl) ?_
  · simp only [State.enter, wsect, hsec, h.size, Nat.max_eq_left (hhi.trans hfree)]
  · simp only [State.enter, wsect, hsec]
    exact update_of_ne (h.block_ne hn').symm _ _
  · simp only [State.enter, wsect, hsec]
    exact update_of_ne (by omega) _ _
  · simp only [State.enter, wsect, hsec, List.mem_cons, forall_eq_or_imp]
    exact ⟨hlo, h.written⟩

/-- Bytes are added in a block that the inode has. -/
theorem writeData (hn : (c i).length / BSIZE < m i) {l : List UInt8}
    (hl : (c i).length % BSIZE + l.length ≤ BSIZE) :
    Holds (wsect .data (ptr s.disk tab (.block i ((c i).length / BSIZE)))
        (.of (blit (s.disk (ptr s.disk tab (.block i ((c i).length / BSIZE))))
          ((c i).length % BSIZE) l)) s)
      tab m (update c i (c i ++ l)) := by
  have h0 := h.ptr_block_ne_zero hn
  obtain ⟨hlo, hhi⟩ := h.ptr_range h0
  obtain ⟨hptr, hbytes⟩ := bytes_write h.alloc.inj h0 h.bytes le_rfl hl
  rw [overwrite_length] at hbytes
  simp only [wsect, sector_of_lt (hhi.le.trans h.hi)]
  refine { h with
    size := ?_, alloc := ?_, fresh := fun b hb hlt => ?_, blocks := ?_, len := fun i' => ?_,
    bytes := ?_, written := ?_ }
  · simp only [h.size, Nat.max_eq_left (hhi.trans_le h.hi)]
  · rw [hptr]
    exact h.alloc
  · dsimp only at hb ⊢
    rw [update_of_ne (by omega)]
    exact h.fresh b hb hlt
  · rw [hptr]
    exact h.blocks
  · by_cases hi' : i' = i
    · subst hi'
      have hmul : BSIZE * ((c i').length / BSIZE + 1) ≤ BSIZE * m i' := Nat.mul_le_mul_left _ hn
      have hmod := Nat.div_add_mod (c i').length BSIZE
      rw [update_self, List.length_append]
      rw [Nat.mul_add] at hmul
      omega
    · rw [update_of_ne hi']
      exact h.len i'
  · rw [hptr]
    exact hbytes
  · simp only [List.mem_cons, forall_eq_or_imp]
    exact ⟨hlo, h.written⟩

end

end Holds

/-! ### A block of the data -/

/-- Inode numbers and the metadata stay. -/
structure Kept (s s' : State) : Prop where
  freeinode : s'.freeinode = s.freeinode
  disk : ∀ b < nmeta, s'.disk b = s.disk b

/-- Inodes that differ in their addresses only. -/
def Dinode.Like (d d' : Dinode) : Prop :=
  d.type = d'.type ∧ d.major = d'.major ∧ d.minor = d'.minor ∧ d.nlink = d'.nlink ∧
    d.size = d'.size

theorem Dinode.Like.refl (d : Dinode) : d.Like d := ⟨rfl, rfl, rfl, rfl, rfl⟩

theorem Dinode.Like.trans {d₁ d₂ d₃ : Dinode} (h : d₁.Like d₂) (h' : d₂.Like d₃) : d₁.Like d₃ :=
  ⟨h.1.trans h'.1, h.2.1.trans h'.2.1, h.2.2.1.trans h'.2.2.1, h.2.2.2.1.trans h'.2.2.2.1,
    h.2.2.2.2.trans h'.2.2.2.2⟩

theorem Dinode.like_addrs (d : Dinode) (f : ℕ → ℕ) : ({ d with addrs := f } : Dinode).Like d :=
  ⟨rfl, rfl, rfl, rfl, rfl⟩

theorem Kept.refl (s : State) : Kept s s := ⟨rfl, fun _ _ => rfl⟩

theorem Kept.trans {s₁ s₂ s₃ : State} (h : Kept s₁ s₂) (h' : Kept s₂ s₃) : Kept s₁ s₃ :=
  ⟨h'.freeinode.trans h.freeinode, fun b hb => (h'.disk b hb).trans (h.disk b hb)⟩

theorem Kept.wsect {s : State} {x : ℕ} (hlo : nmeta ≤ x) (hhi : x ≤ FSSIZE) (b : Block) :
    Kept s (wsect .data x b s) := by
  refine ⟨rfl, fun y hy => ?_⟩
  simp only [Mkfs.wsect, sector_of_lt hhi]
  exact update_of_ne (by omega) _ _

section Blocks

variable {s : State} {tab : ℕ → Dinode} {m : ℕ → ℕ} {c : ℕ → List UInt8} {i n : ℕ}

theorem rsect_of_lt {x : ℕ} (hx : x < FSSIZE) (hsize : s.size = FSSIZE) :
    rsect x s = .ok (s.disk x) := by
  rw [rsect, sector_of_lt hx.le, if_pos (by rwa [hsize])]

theorem rsect_end (hsize : s.size = FSSIZE) : rsect FSSIZE s = .error .read := by
  rw [rsect, sector_of_lt le_rfl, if_neg (by rw [hsize]; exact lt_irrefl _)]

theorem ptr_entry (hind : (tab i).addrs NDIRECT ≠ 0) (hn : NDIRECT ≤ n) (hmax : n < MAXFILE) :
    ptr s.disk tab (.block i n) = word (s.disk ((tab i).addrs NDIRECT)) (4 * (n - NDIRECT)) := by
  rw [MAXFILE] at hmax
  rw [Pointer.block, if_neg (by omega), ptr, if_neg (not_or.mpr ⟨hind, by omega⟩)]

/-- The entry that is there. -/
theorem entryFor_of_lt (h : Holds s tab m c) (hind : (tab i).addrs NDIRECT ≠ 0)
    (hn : NDIRECT ≤ n) (hlt : n < m i) :
    entryFor n (tab i) s = .ok (ptr s.disk tab (.block i n), tab i, s) := by
  have hx := (h.indirect_range hind).2.trans_le h.hi
  have h0 := h.ptr_block_ne_zero hlt
  rw [ptr_entry hind hn (hlt.trans_le (h.bound i))] at h0 ⊢
  simp only [entryFor, rsect_of_lt hx h.size, bind, Except.bind, if_neg h0, pure, Except.pure]

/-- The next entry. -/
theorem entryFor_next (h : Holds s tab m c) (hind : (tab i).addrs NDIRECT ≠ 0)
    (hn : NDIRECT ≤ m i) (hmax : m i < MAXFILE) : entryFor (m i) (tab i) s =
      .ok (s.freeblock, tab i, s.enter ((tab i).addrs NDIRECT) (m i - NDIRECT)) := by
  have h0 := h.ptr_block_next hmax
  rw [ptr_entry hind hn hmax] at h0
  simp only [entryFor, rsect_of_lt ((h.indirect_range hind).2.trans_le h.hi) h.size, bind,
    Except.bind, if_pos h0, pure, Except.pure, State.enter]

theorem size_enter {x : ℕ} (hsize : s.size = FSSIZE) (hx : x < FSSIZE) (j : ℕ) :
    (s.enter x j).size = FSSIZE := by
  simp only [State.enter, wsect, sector_of_lt hx.le, hsize, Nat.max_eq_left hx]

theorem Kept.enter {x : ℕ} (hlo : nmeta ≤ x) (hhi : x ≤ FSSIZE) (j : ℕ) : Kept s (s.enter x j) :=
  (Kept.mk rfl fun _ _ => rfl : Kept s { s with freeblock := s.freeblock + 1 }).trans
    (.wsect hlo hhi _)

/-- How many blocks `n` blocks of data take, with the indirect one. -/
def cost (n : ℕ) : ℕ := n + if NDIRECT < n then 1 else 0

theorem indirect_of_lt (h : Holds s tab m c) (hn : NDIRECT < m i) : (tab i).addrs NDIRECT ≠ 0 := by
  intro h0
  have hptr := h.ptr_block_ne_zero hn
  rw [Pointer.block, if_neg (lt_irrefl _), ptr, if_pos (.inl h0)] at hptr
  exact hptr rfl

/-- `blockFor` finds a block that the inode has. -/
theorem blockFor_of_lt (h : Holds s tab m c) (hlt : n < m i) :
    blockFor n (tab i) s = .ok (ptr s.disk tab (.block i n), tab i, s) := by
  by_cases hn : n < NDIRECT
  · have h0 := h.ptr_block_ne_zero hlt
    rw [Pointer.block, if_pos hn] at h0 ⊢
    rw [blockFor, if_pos hn]
    exact if_neg h0
  · have hind := indirect_of_lt h (by omega : NDIRECT < m i)
    rw [blockFor, if_neg hn, if_neg hind]
    exact entryFor_of_lt h hind (by omega) hlt

/-- What `blockFor` does for the block after the last one. -/
inductive Next (s : State) (tab : ℕ → Dinode) (m : ℕ → ℕ) (i : ℕ) : Prop where
  | direct (hn : m i < NDIRECT) (heq : blockFor (m i) (tab i) s = .ok (s.freeblock,
      { tab i with addrs := update (tab i).addrs (m i) s.freeblock },
      { s with freeblock := s.freeblock + 1 }))
  | entry (hn : NDIRECT < m i) (hind : (tab i).addrs NDIRECT ≠ 0) (heq : blockFor (m i) (tab i) s =
      .ok (s.freeblock, tab i, s.enter ((tab i).addrs NDIRECT) (m i - NDIRECT)))
  | indirect (hn : m i = NDIRECT) (h0 : (tab i).addrs NDIRECT = 0) (heq : blockFor (m i) (tab i) s =
      entryFor (m i) { tab i with addrs := update (tab i).addrs NDIRECT s.freeblock }
        { s with freeblock := s.freeblock + 1 })

theorem blockFor_next (h : Holds s tab m c) (hind : (tab i).addrs NDIRECT ≠ 0 → NDIRECT < m i)
    (hmax : m i < MAXFILE) : Next s tab m i := by
  by_cases hn : m i < NDIRECT
  · have h0 := h.ptr_block_next hmax
    rw [Pointer.block, if_pos hn] at h0
    refine .direct hn ?_
    rw [blockFor, if_pos hn]
    exact if_pos h0
  · by_cases h0 : (tab i).addrs NDIRECT = 0
    · have hle : ¬ NDIRECT < m i := fun hlt => indirect_of_lt h hlt h0
      refine .indirect (by omega) h0 ?_
      rw [blockFor, if_neg hn, if_pos h0]
    · refine .entry (hind h0) h0 ?_
      rw [blockFor, if_neg hn, if_neg h0]
      exact entryFor_next h h0 (by omega) hmax

variable (h : Holds s tab m c) (hi : i < room)
  (hind : ∀ i, (tab i).addrs NDIRECT ≠ 0 → NDIRECT < m i) (hn : m i = n ∨ m i = n + 1)
  (hmax : n < MAXFILE)
include h hi hind hn hmax

/-- If there is room for block `n`, the first that the inode does not have or one that it has,
`blockFor` returns it. -/
theorem blockFor_ok (hroom : s.freeblock + cost (n + 1) ≤ FSSIZE + cost (m i)) :
    ∃ d s', blockFor n (tab i) s = .ok (ptr s'.disk (update tab i d) (.block i n), d, s') ∧
      Holds s' (update tab i d) (update m i (n + 1)) c ∧
      (∀ j, (update tab i d j).addrs NDIRECT ≠ 0 → NDIRECT < update m i (n + 1) j) ∧
      Kept s s' ∧ d.Like (tab i) := by
  have hkeep : Kept s { s with freeblock := s.freeblock + 1 } := ⟨rfl, fun _ _ => rfl⟩
  have hfb := h.freeblock_ne_zero
  -- the inodes other than `i` are as before
  have hrest : ∀ d, ((d.addrs NDIRECT ≠ 0) → NDIRECT < n + 1) →
      ∀ j, (update tab i d j).addrs NDIRECT ≠ 0 → NDIRECT < update m i (n + 1) j := by
    intro d hd j
    by_cases hj : j = i
    · rw [hj, update_self, update_self]
      exact hd
    · rw [update_of_ne hj, update_of_ne hj]
      exact hind j
  rcases hn with rfl | hn
  · rw [cost, cost] at hroom
    cases blockFor_next h (hind i) hmax with
    | direct hn heq =>
      have hfree : s.freeblock < FSSIZE := by
        rw [if_neg (by omega), if_neg (by omega)] at hroom
        omega
      refine ⟨_, _, ?_, h.takeDirect hi hn hfree, hrest _ ?_, hkeep, Dinode.like_addrs _ _⟩
      · have hptr : ptr s.disk (update tab i
            { tab i with addrs := update (tab i).addrs (m i) s.freeblock }) =
              update (ptr s.disk tab) (.addr i (m i)) s.freeblock :=
          ptr_setAddr fun hk => absurd hk hn.ne
        rw [heq, hptr, Pointer.block, if_pos hn, update_self]
      · simp only [update_of_ne hn.ne']
        intro h0
        exact absurd (hind i h0) (by omega)
    | entry hn h0 heq =>
      have hfree : s.freeblock < FSSIZE := by
        rw [if_pos (by omega), if_pos (by omega)] at hroom
        omega
      have hholds := h.takeEntry hi hn.le hmax h0 hfree
      have hptr := h.ptr_enter hn.le hmax h0 hfree
      obtain ⟨hlo, hhi⟩ := h.indirect_range h0
      refine ⟨tab i, s.enter ((tab i).addrs NDIRECT) (m i - NDIRECT), ?_, ?_,
        hrest _ fun _ => by omega, .enter hlo (hhi.le.trans h.hi) _, .refl _⟩
      · rw [heq, update_eq_self, hptr, update_self]
      · rwa [update_eq_self]
    | indirect hn h0 heq =>
      have hfree : s.freeblock + 1 < FSSIZE := by
        rw [if_pos (by omega), if_neg (by omega)] at hroom
        omega
      have h₁ := h.takeIndirect hi h0 (by omega)
      generalize hs₁ : { s with freeblock := s.freeblock + 1 } = s₁ at h₁ heq hkeep
      generalize hd : { tab i with addrs := update (tab i).addrs NDIRECT s.freeblock } = d at h₁ heq
      have hself : update tab i d i = d := update_self ..
      have hfb₁ : s₁.freeblock < FSSIZE := by rw [← hs₁]; exact hfree
      have h0₁ : (update tab i d i).addrs NDIRECT ≠ 0 := by
        rw [hself, ← hd]
        simpa only [update_self] using hfb
      have hentry := entryFor_next h₁ h0₁ hn.ge hmax
      have hholds := h₁.takeEntry hi hn.ge hmax h0₁ hfb₁
      have hptr := h₁.ptr_enter hn.ge hmax h0₁ hfb₁
      obtain ⟨hlo, hhi⟩ := h₁.indirect_range h0₁
      refine ⟨d, _, ?_, hholds, hrest _ fun _ => by omega,
        hkeep.trans (.enter hlo (hhi.le.trans h₁.hi) _), hd ▸ Dinode.like_addrs _ _⟩
      rw [hself] at hentry
      rw [heq, hptr, update_self, hself, hentry]
  · rw [← hn, update_eq_self]
    refine ⟨tab i, s, ?_, ?_, fun j => ?_, .refl s, .refl _⟩
    · rw [update_eq_self]
      exact blockFor_of_lt h (by omega)
    · rwa [update_eq_self]
    · rw [update_eq_self]
      exact hind j

/-- If there is no room, the next `rsect` fails. -/
theorem blockFor_error (hroom : FSSIZE + cost (m i) < s.freeblock + cost (n + 1)) :
    (∃ e, blockFor n (tab i) s = .error e) ∨
      ∃ d s', blockFor n (tab i) s = .ok (FSSIZE, d, s') ∧ s'.size = FSSIZE := by
  have hfb := h.freeblock_ne_zero
  have hhi := h.hi
  rcases hn with rfl | hn
  · rw [cost, cost] at hroom
    cases blockFor_next h (hind i) hmax with
    | direct hn heq =>
      have hfull : s.freeblock = FSSIZE := by
        rw [if_neg (by omega), if_neg (by omega)] at hroom
        omega
      exact .inr ⟨_, { s with freeblock := FSSIZE + 1 }, hfull ▸ heq, h.size⟩
    | entry hn h0 heq =>
      have hfull : s.freeblock = FSSIZE := by
        rw [if_pos (by omega), if_pos (by omega)] at hroom
        omega
      exact .inr ⟨_, _, hfull ▸ heq, size_enter h.size ((h.indirect_range h0).2.trans_le hhi) _⟩
    | indirect hn h0 heq =>
      have hfull : s.freeblock = FSSIZE ∨ s.freeblock + 1 = FSSIZE := by
        rw [if_neg (by omega), if_pos (by omega)] at hroom
        omega
      rcases hfull with hfull | hfull
      · refine .inl ⟨.read, ?_⟩
        have hread : rsect FSSIZE { s with freeblock := s.freeblock + 1 } = .error .read :=
          rsect_end h.size
        rw [heq, entryFor]
        simp only [update_self]
        rw [hfull] at hread ⊢
        rw [hread]
        rfl
      · -- the indirect block is the last one
        have h₁ := h.takeIndirect hi h0 (by omega)
        generalize hs₁ : { s with freeblock := s.freeblock + 1 } = s₁ at h₁ heq
        generalize hd :
          { tab i with addrs := update (tab i).addrs NDIRECT s.freeblock } = d at h₁ heq
        have hself : update tab i d i = d := update_self ..
        have h0₁ : (update tab i d i).addrs NDIRECT ≠ 0 := by
          rw [hself, ← hd]
          simpa only [update_self] using hfb
        have hentry := entryFor_next h₁ h0₁ hn.ge hmax
        have hx := (h₁.indirect_range h0₁).2.trans_le h₁.hi
        have hfull₁ : s₁.freeblock = FSSIZE := by rw [← hs₁]; exact hfull
        rw [hself, hfull₁, ← heq] at hentry
        rw [hself] at hx
        exact .inr ⟨_, _, hentry, size_enter h₁.size hx _⟩
  · rw [hn] at hroom
    omega

end Blocks

/-! ### The loop -/

/-- How many blocks so many bytes take. -/
def blocksFor (len : ℕ) : ℕ := (len + (BSIZE - 1)) / BSIZE

/-- The image between two calls of `iappend`: the blocks are those that the bytes need. -/
structure Rest (s : State) (tab : ℕ → Dinode) (c : ℕ → List UInt8) : Prop extends
    Holds s tab (fun i => blocksFor (c i).length) c where
  indirect : ∀ i, (tab i).addrs NDIRECT ≠ 0 → NDIRECT < blocksFor (c i).length

section Loop

variable {s : State} {tab : ℕ → Dinode} {c : ℕ → List UInt8} {i : ℕ} {p : List UInt8}

theorem blocksFor_cases (off : ℕ) :
    blocksFor off = off / BSIZE ∨ blocksFor off = off / BSIZE + 1 := by
  rw [blocksFor, BSIZE]
  omega

/-- How much a round copies. -/
def chunk (off : ℕ) (p : List UInt8) : ℕ := min p.length ((off / BSIZE + 1) * BSIZE - off)

theorem chunk_pos (off : ℕ) (hp : p ≠ []) : 0 < chunk off p := by
  have hlt := lt_next off
  have hpos := List.length_pos_iff.mpr hp
  rw [chunk]
  omega

theorem blocksFor_chunk (off : ℕ) (hp : p ≠ []) :
    blocksFor (off + (p.take (chunk off p)).length) = off / BSIZE + 1 := by
  have hpos := chunk_pos off hp
  rw [List.length_take]
  rw [chunk] at *
  rw [blocksFor, BSIZE] at *
  omega

theorem update_blocksFor (l : List UInt8) :
    (fun j => blocksFor (update c i (c i ++ l) j).length) =
      update (fun j => blocksFor (c j).length) i (blocksFor ((c i).length + l.length)) := by
  funext j
  by_cases hj : j = i
  · subst hj
    rw [update_self, update_self, List.length_append]
  · rw [update_of_ne hj, update_of_ne hj]

/-- A round that has room. -/
theorem round_ok (h : Rest s tab c) (hi : i < room) (hp : p ≠ [])
    (hmax : (c i).length / BSIZE < MAXFILE)
    (hroom : s.freeblock + cost ((c i).length / BSIZE + 1) ≤
      FSSIZE + cost (blocksFor (c i).length)) :
    ∃ d s', iappendRound (c i).length (chunk (c i).length p) p (tab i) s = .ok (d, s') ∧
      Rest s' (update tab i d) (update c i (c i ++ p.take (chunk (c i).length p))) ∧
      Kept s s' ∧ d.Like (tab i) := by
  obtain ⟨d, s₁, hblock, hholds, hind, hkept, hd⟩ := blockFor_ok h.toHolds hi h.indirect
    (blocksFor_cases _) hmax hroom
  have hlt : (c i).length / BSIZE <
      update (fun j => blocksFor (c j).length) i ((c i).length / BSIZE + 1) i := by
    rw [update_self]
    omega
  have h0 := hholds.ptr_block_ne_zero hlt
  obtain ⟨hlo, hhi⟩ := hholds.ptr_range h0
  have hx := hhi.trans_le hholds.hi
  have hread := rsect_of_lt hx hholds.size
  have hoff : (c i).length - (c i).length / BSIZE * BSIZE = (c i).length % BSIZE := by
    rw [Nat.mod_eq_sub_div_mul]
  have hdata := hholds.writeData hlt (l := p.take (chunk (c i).length p)) (by
    rw [List.length_take, chunk, BSIZE]
    omega)
  generalize hb : Block.of _ = b at hdata
  refine ⟨d, wsect .data _ b s₁, ?_, ⟨?_, fun j hj => ?_⟩, hkept.trans (.wsect hlo hx.le b), hd⟩
  · simp only [← hb, iappendRound, hblock, if_neg (not_not.mpr hmax), bind, Except.bind, pure,
      Except.pure, hread, hoff]
  · rw [update_blocksFor, blocksFor_chunk _ hp]
    exact hdata
  · have hlen := congrFun (update_blocksFor (c := c) (i := i) (p.take (chunk (c i).length p))) j
    rw [hlen, blocksFor_chunk _ hp]
    exact hind j hj

/-- A round that has none. -/
theorem round_error (h : Rest s tab c) (hi : i < room) (n : ℕ)
    (hroom : ¬ (c i).length / BSIZE < MAXFILE ∨
      FSSIZE + cost (blocksFor (c i).length) < s.freeblock + cost ((c i).length / BSIZE + 1)) :
    ∃ e, iappendRound (c i).length n p (tab i) s = .error e := by
  by_cases hmax : (c i).length / BSIZE < MAXFILE
  · obtain ⟨e, he⟩ | ⟨d, s', hblock, hsize⟩ := blockFor_error h.toHolds hi h.indirect
      (blocksFor_cases _) hmax (hroom.resolve_left (not_not.mpr hmax))
    · exact ⟨e, by simp only [iappendRound, he, if_neg (not_not.mpr hmax)]; rfl⟩
    · refine ⟨.read, ?_⟩
      simp only [iappendRound, hblock, if_neg (not_not.mpr hmax), bind, Except.bind,
        rsect_end hsize]
  · refine ⟨.maxfile, ?_⟩
    simp only [iappendRound, if_pos hmax]
    rfl

theorem cost_mono {n n' : ℕ} (h : n ≤ n') : cost n ≤ cost n' := by
  rw [cost, cost]
  split <;> split <;> omega

theorem blocksFor_mono {n n' : ℕ} (h : n ≤ n') : blocksFor n ≤ blocksFor n' :=
  Nat.div_le_div_right (Nat.add_le_add_right h _)

/-- How many blocks an inode of so many bytes takes. -/
def size (len : ℕ) : ℕ := cost (blocksFor len)

theorem iappendLoop_nil (off : ℕ) (din : Dinode) (s : State) :
    iappendLoop off [] din s = .ok (off, din, s) := by
  rw [iappendLoop, if_pos rfl]

theorem iappendLoop_round {off : ℕ} {din : Dinode} (hp : p ≠ []) : iappendLoop off p din s = (do
    let x ← iappendRound off (chunk off p) p din s
    iappendLoop (off + chunk off p) (p.drop (chunk off p)) x.1 x.2) := by
  rw [iappendLoop, if_neg hp]
  rfl

/-- The first block that is not in use if the inodes have the given bytes. -/
def total (c : ℕ → List UInt8) : ℕ := nmeta + ∑ i ∈ Finset.range room, size (c i).length

theorem Rest.freeblock_eq (h : Rest s tab c) : s.freeblock = total c := by
  rw [h.count, total]
  refine congrArg (nmeta + ·) (Finset.sum_congr rfl fun i _ => ?_)
  rw [size, cost]
  by_cases hn : NDIRECT < blocksFor (c i).length
  · rw [if_pos hn, if_neg (indirect_of_lt h.toHolds hn)]
  · rw [if_neg hn, if_pos (not_not.mp (mt (h.indirect i) hn))]

theorem total_update (hi : i < room) (l : List UInt8) :
    total (update c i l) + size (c i).length = total c + size l.length := by
  have hsum :=
    Finset.sum_update_add_self (g := c) (Finset.mem_range.mpr hi) l fun l => size l.length
  rw [total, total]
  omega

/-- The loop appends all of `p`, or it fails for want of room. -/
theorem iappendLoop_spec (h : Rest s tab c) (hi : i < room) :
    (∃ d s', iappendLoop (c i).length p (tab i) s = .ok ((c i).length + p.length, d, s') ∧
      Rest s' (update tab i d) (update c i (c i ++ p)) ∧ Kept s s' ∧ d.Like (tab i)) ∨
    ((∃ e, iappendLoop (c i).length p (tab i) s = .error e) ∧
      (MAXFILE * BSIZE < (c i).length + p.length ∨ FSSIZE < total (update c i (c i ++ p)))) := by
  -- by rounds: each takes at least one byte
  induction hlen : p.length using Nat.strong_induction_on generalizing s tab c p with
  | _ len ih =>
    subst hlen
    by_cases hp : p = []
    · subst hp
      refine .inl ⟨tab i, s, iappendLoop_nil .., ?_, .refl s, .refl _⟩
      rwa [update_eq_self, List.append_nil, update_eq_self]
    have hpos := chunk_pos (c i).length hp
    have hle : chunk (c i).length p ≤ p.length := Nat.min_le_left _ _
    rw [iappendLoop_round hp]
    by_cases hfits : (c i).length / BSIZE < MAXFILE ∧
        s.freeblock + cost ((c i).length / BSIZE + 1) ≤ FSSIZE + cost (blocksFor (c i).length)
    · obtain ⟨d, s₁, hround, h₁, hkept, hlike⟩ := round_ok h hi hp hfits.1 hfits.2
      have hrest := ih (p.drop (chunk (c i).length p)).length (by rw [List.length_drop]; omega)
        h₁ rfl
      simp only [update_self, update_idem, List.append_assoc, List.take_append_drop,
        List.length_append, List.length_take, List.length_drop, Nat.min_eq_left hle,
        Nat.add_assoc, Nat.add_sub_cancel' hle] at hrest
      rw [hround]
      rcases hrest with ⟨d', s', hloop, h', hkept', hlike'⟩ | hfail
      · exact .inl ⟨d', s', hloop, h', hkept.trans hkept', hlike'.trans hlike⟩
      · exact .inr hfail
    · obtain ⟨e, he⟩ := round_error (p := p) h hi (chunk (c i).length p)
        (by rw [not_and_or, not_le] at hfits; exact hfits)
      refine .inr ⟨⟨e, by rw [he]; rfl⟩, ?_⟩
      have hplen := List.length_pos_iff.mpr hp
      rcases not_and_or.mp hfits with hmax | hroom
      · refine .inl ?_
        have : MAXFILE * BSIZE ≤ (c i).length :=
          (Nat.le_div_iff_mul_le (by decide)).mp (Nat.le_of_not_lt hmax)
        omega
      · refine .inr ?_
        have htotal := total_update (c := c) hi (c i ++ p)
        have hcost : cost ((c i).length / BSIZE + 1) ≤ size (c i ++ p).length := by
          rw [← blocksFor_chunk (c i).length hp, List.length_append, List.length_take,
            Nat.min_eq_left hle]
          exact cost_mono (blocksFor_mono (by omega))
        have hfb := h.freeblock_eq
        rw [size] at htotal
        omega

end Loop

end Xv6.Mkfs
