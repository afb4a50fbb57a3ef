import Mathlib.Algebra.BigOperators.Group.Finset.Basic
import Xv6.Fs.Alloc
import Xv6.Mkfs.Image

/-!
# The layout of the image

Inodes, bitmaps and pointers as they are found in the blocks of an image, and what
becomes of them when a block is written.
-/

namespace Xv6.Mkfs

open Fs (BSIZE NDIRECT NINDIRECT MAXFILE IPB DIRSIZ ROOTINO Pointer)
open Bytes
open Function (update update_self update_of_ne)

/-! ### Blocks -/

namespace Block

theorem of_apply (f : ℕ → UInt8) (i : ℕ) : Block.of f i = if i < BSIZE then f i else 0 := by
  by_cases h : i < BSIZE
  · simp [Block.of, Block.get, h]
  · simp [Block.of, Block.get, h]

@[simp] theorem zeroes_apply (i : ℕ) : zeroes i = 0 := by
  rw [zeroes, of_apply]
  split <;> rfl

variable {f : ℕ → UInt8}

theorem slice_of {k n : ℕ} (h : k + n ≤ BSIZE) : slice (Block.of f) k n = slice f k n :=
  slice_congr fun i _ hi => by rw [of_apply, if_pos (by omega)]

theorem word_of {k : ℕ} (h : k + 4 ≤ BSIZE) : word (Block.of f) k = word f k := by
  rw [word, word, slice_of h]

theorem half_of {k : ℕ} (h : k + 2 ≤ BSIZE) : half (Block.of f) k = half f k := by
  rw [half, half, slice_of h]

theorem word_zeroes (k : ℕ) : word zeroes k = 0 := by
  simp [word, slice, List.range_succ, ofLE]

theorem half_zeroes (k : ℕ) : half zeroes k = 0 := by
  simp [half, slice, List.range_succ, ofLE]

theorem bit_of {i : ℕ} (h : i < BSIZE * 8) : bit (Block.of f) i = bit f i := by
  rw [bit, bit, of_apply, if_pos (by rw [BSIZE] at *; omega)]

theorem bit_bitmap {n j : ℕ} (hj : j < BSIZE * 8) : bit (bitmap n) j = decide (j < n) := by
  rw [bitmap]
  induction n with
  | zero => simp [bit]
  | succ n ih =>
    rw [List.range_succ, List.foldl_append, List.foldl_cons, List.foldl_nil, bit_of hj, bit_setBit,
      ih, ← Bool.decide_or]
    exact decide_eq_decide.mpr ⟨fun h => by omega, fun h => by omega⟩

end Block

/-! ### Inodes -/

namespace Dinode

/-- The fields are as wide as they are on disk. -/
structure Small (d : Dinode) : Prop where
  type : d.type < 2 ^ 16
  major : d.major < 2 ^ 16
  minor : d.minor < 2 ^ 16
  nlink : d.nlink < 2 ^ 16
  size : d.size < 2 ^ 32
  addrs : ∀ k, d.addrs k < 2 ^ 32
  addrs_zero : ∀ k, NDIRECT < k → d.addrs k = 0

theorem small_zero : zero.Small := by
  constructor <;> simp [zero]

theorem small_getDinode (b : Block) (j : ℕ) : (getDinode b j).Small where
  type := half_lt b _
  major := half_lt b _
  minor := half_lt b _
  nlink := half_lt b _
  size := word_lt b _
  addrs k := by
    simp only [getDinode]
    split
    · exact word_lt _ _
    · decide
  addrs_zero k hk := if_neg (by omega)

theorem Small.setAddr {d : Dinode} (h : d.Small) {k b : ℕ} (hk : k ≤ NDIRECT) (hb : b < 2 ^ 32) :
    { d with addrs := update d.addrs k b }.Small := by
  refine { h with addrs := fun k' => ?_, addrs_zero := fun k' hk' => ?_ }
  · by_cases hkk : k' = k
    · simpa only [hkk, update_self] using hb
    · simpa only [update_of_ne hkk] using h.addrs k'
  · simpa only [update_of_ne (show k' ≠ k by omega)] using h.addrs_zero k' hk'

section

variable (d : Dinode)
include d

theorem length_addrs (m : ℕ) :
    ((List.range m).flatMap fun k => le 4 (d.addrs k)).length = 4 * m := by
  simp [List.length_flatMap, Nat.mul_comm]

@[simp] theorem length_bytes : d.bytes.length = 64 := by
  simp [bytes, NDIRECT, List.length_flatMap]

theorem take_type : (d.bytes.drop 0).take 2 = le 2 d.type := by
  simp [bytes]

theorem take_major : (d.bytes.drop 2).take 2 = le 2 d.major := by
  simp [bytes]

theorem take_minor : (d.bytes.drop 4).take 2 = le 2 d.minor := by
  simp [bytes, List.drop_append, drop_le]

theorem take_nlink : (d.bytes.drop 6).take 2 = le 2 d.nlink := by
  simp [bytes, List.drop_append, drop_le]

theorem take_size : (d.bytes.drop 8).take 4 = le 4 d.size := by
  simp [bytes, List.drop_append, drop_le]

theorem drop_bytes :
    d.bytes.drop 12 = (List.range (NDIRECT + 1)).flatMap fun k => le 4 (d.addrs k) := by
  simp [bytes, List.drop_append, drop_le]

theorem take_drop_addrs {k m : ℕ} (h : k < m) :
    (((List.range m).flatMap fun k => le 4 (d.addrs k)).drop (4 * k)).take
    4 = le 4 (d.addrs k) := by
  obtain ⟨n, rfl⟩ := Nat.exists_eq_add_of_lt h
  rw [show k + n + 1 = k + (n + 1) by omega, List.range_add, List.flatMap_append,
    List.drop_left' (length_addrs d k), List.range_succ_eq_map]
  simp

end

end Dinode

section Put

variable {b : Block} {i j k : ℕ} {d : Dinode}

theorem half_putDinode (hj : j < IPB) (hk : k + 2 ≤ 64) :
    half (putDinode b j d) (64 * j + k) = ofLE ((d.bytes.drop k).take 2) := by
  have hj : j < 8 := hj
  rw [putDinode, Block.half_of (by rw [BSIZE]; omega), half_blit (by simpa using hk)]

theorem word_putDinode (hj : j < IPB) (hk : k + 4 ≤ 64) :
    word (putDinode b j d) (64 * j + k) = ofLE ((d.bytes.drop k).take 4) := by
  have hj : j < 8 := hj
  rw [putDinode, Block.word_of (by rw [BSIZE]; omega), word_blit (by simpa using hk)]

theorem getDinode_putDinode (hj : j < IPB) (hd : d.Small) : getDinode (putDinode b j d) j = d := by
  have htype := half_putDinode (b := b) (d := d) (k := 0) hj (by omega)
  have hmajor := half_putDinode (b := b) (d := d) (k := 2) hj (by omega)
  have hminor := half_putDinode (b := b) (d := d) (k := 4) hj (by omega)
  have hnlink := half_putDinode (b := b) (d := d) (k := 6) hj (by omega)
  have hsize := word_putDinode (b := b) (d := d) (k := 8) hj (by omega)
  have haddrs : ∀ k ≤ NDIRECT, word (putDinode b j d) (64 * j + 12 + 4 * k) = d.addrs k := by
    intro k hk
    rw [Nat.add_assoc, word_putDinode hj (by rw [NDIRECT] at hk; omega), ← List.drop_drop,
      d.drop_bytes, d.take_drop_addrs (by omega), ofLE_le_of_lt (hd.addrs k)]
  rw [d.take_type, ofLE_le_of_lt hd.type, Nat.add_zero] at htype
  rw [d.take_major, ofLE_le_of_lt hd.major] at hmajor
  rw [d.take_minor, ofLE_le_of_lt hd.minor] at hminor
  rw [d.take_nlink, ofLE_le_of_lt hd.nlink] at hnlink
  rw [d.take_size, ofLE_le_of_lt hd.size] at hsize
  obtain ⟨type, major, minor, nlink, size, addrs⟩ := d
  simp only [getDinode, Dinode.mk.injEq]
  refine ⟨htype, hmajor, hminor, hnlink, hsize, funext fun k => ?_⟩
  by_cases hk : k ≤ NDIRECT
  · rw [if_pos hk]
    exact haddrs k hk
  · rw [if_neg hk]
    exact (hd.addrs_zero k (by omega)).symm

theorem getDinode_congr {b' : Block}
    (h : ∀ k, 64 * j ≤ k → k < 64 * j + 64 → b k = b' k) : getDinode b j = getDinode b' j := by
  have hslice : ∀ k n, k + n ≤ 64 → slice b (64 * j + k) n = slice b' (64 * j + k) n :=
    fun k n hk => slice_congr fun i hi hlt => h i (by omega) (by omega)
  simp only [getDinode, half, word, Nat.add_assoc, Dinode.mk.injEq]
  refine ⟨congrArg ofLE (hslice 0 2 (by omega)), by rw [hslice 2 2 (by omega)],
    by rw [hslice 4 2 (by omega)], by rw [hslice 6 2 (by omega)], by rw [hslice 8 4 (by omega)],
    funext fun k => ?_⟩
  by_cases hk : k ≤ NDIRECT
  · rw [if_pos hk, if_pos hk, hslice (12 + 4 * k) 4 (by rw [NDIRECT] at hk; omega)]
  · rw [if_neg hk, if_neg hk]

theorem getDinode_putDinode_of_ne (hj : j < IPB) (hij : i ≠ j) :
    getDinode (putDinode b i d) j = getDinode b j := by
  have hlt : j < 8 := hj
  refine getDinode_congr fun k hk hkj => ?_
  rw [putDinode, Block.of_apply, if_pos (by rw [BSIZE]; omega)]
  rcases Nat.lt_or_gt_of_ne hij with h | h
  · exact blit_of_ge (by rw [Dinode.length_bytes]; omega)
  · exact blit_of_lt (by omega)

end Put

/-- How many inodes the inode blocks have room for. -/
def room : ℕ := ninodeblocks * IPB

/-- The inodes on disk. -/
def table (disk : ℕ → Block) (i : ℕ) : Dinode :=
  if i < room then getDinode (disk (sb.iblock i)) (i % IPB) else .zero

variable {i : ℕ} {disk : ℕ → Block}

theorem iblock_lt (hi : i < room) : 2 + nlog ≤ sb.iblock i ∧ sb.iblock i < sb.bmapstart := by
  have hlt : i < 208 := hi
  change 32 ≤ i / 8 + 32 ∧ i / 8 + 32 < 58
  omega

theorem sector_of_lt {b : ℕ} (h : b ≤ FSSIZE) : sector b = b := by
  have hle : b ≤ 1000 := h
  rw [sector, BSIZE]
  omega

theorem sector_iblock (hi : i < room) : sector (sb.iblock i) = sb.iblock i := by
  have h : sb.iblock i < 58 := (iblock_lt hi).2
  exact sector_of_lt (le_of_lt (h.trans (by decide)))

/-- An inode is written to its place, and the others stay. -/
theorem getDinode_update {sb : Superblock} {d : Dinode} (hd : d.Small) (j : ℕ) :
    getDinode (update disk (sb.iblock i)
        (putDinode (disk (sb.iblock i)) (i % IPB) d) (sb.iblock j)) (j % IPB) =
      update (fun j => getDinode (disk (sb.iblock j)) (j % IPB)) i d j := by
  have hIPB : 0 < IPB := by decide
  by_cases hji : j = i
  · subst hji
    rw [update_self, update_self, getDinode_putDinode (Nat.mod_lt _ hIPB) hd]
  · rw [update_of_ne hji]
    by_cases hb : sb.iblock j = sb.iblock i
    · rw [hb, update_self, getDinode_putDinode_of_ne (Nat.mod_lt _ hIPB)]
      intro hmod
      have hdiv : j / IPB = i / IPB := Nat.add_right_cancel hb
      exact hji (by rw [← Nat.div_add_mod j IPB, ← Nat.div_add_mod i IPB, hmod, hdiv])
    · rw [update_of_ne hb]

theorem table_update {d : Dinode} (hi : i < room) (hd : d.Small) :
    table (update disk (sb.iblock i) (putDinode (disk (sb.iblock i)) (i % IPB) d)) =
      update (table disk) i d := by
  funext j
  rw [table, getDinode_update hd]
  by_cases hji : j = i
  · rw [hji, update_self, update_self, if_pos hi]
  · rw [update_of_ne hji, update_of_ne hji, table]

/-- What is written elsewhere does not change the inodes. -/
theorem table_congr {disk' : ℕ → Block} (h : ∀ b < sb.bmapstart, disk' b = disk b) :
    table disk' = table disk := by
  funext i
  by_cases hi : i < room
  · rw [table, table, if_pos hi, if_pos hi, h _ (iblock_lt hi).2]
  · rw [table, table, if_neg hi, if_neg hi]

theorem small_setAddr {tab : ℕ → Dinode} {k b : ℕ} (h : ∀ j, (tab j).Small) (hk : k ≤ NDIRECT)
    (hb : b < 2 ^ 32) :
    ∀ j, (update tab i { tab i with addrs := update (tab i).addrs k b } j).Small :=
  (Function.forall_update_iff tab fun _ d => d.Small).mpr
    ⟨(h i).setAddr hk hb, fun j _ => h j⟩

/-! ### Pointers -/

/-- The block that a pointer refers to; zero if there is none. -/
def ptr (disk : ℕ → Block) (tab : ℕ → Dinode) : Pointer → ℕ
  | .addr i k => (tab i).addrs k
  | .entry i j =>
    if (tab i).addrs NDIRECT = 0 ∨ NINDIRECT ≤ j then 0
    else word (disk ((tab i).addrs NDIRECT)) (4 * j)

section Pointers

variable {disk : ℕ → Block} {tab : ℕ → Dinode} {i k j b : ℕ}

theorem block_inj {i i' n n' : ℕ} : Pointer.block i n = Pointer.block i' n' ↔ i = i' ∧ n = n' := by
  refine ⟨fun h => ?_, fun ⟨hi, hn⟩ => by rw [hi, hn]⟩
  unfold Pointer.block at h
  split_ifs at h with h₁ h₂ h₂
  · exact Pointer.addr.inj h
  · have := Pointer.entry.inj h
    exact ⟨this.1, by omega⟩

theorem block_ne_indirect {i i' n : ℕ} : Pointer.block i n ≠ .addr i' NDIRECT := by
  intro h
  unfold Pointer.block at h
  split_ifs at h with hn
  have := (Pointer.addr.inj h).2
  omega

/-- An inode gets an address. -/
theorem ptr_setAddr (hzero : k = NDIRECT → (tab i).addrs NDIRECT = 0 ∧ disk b = zeroes) :
    ptr disk (update tab i { tab i with addrs := update (tab i).addrs k b }) =
      update (ptr disk tab) (.addr i k) b := by
  funext q
  cases q with
  | addr i' k' =>
    by_cases hi : i' = i
    · subst hi
      by_cases hk : k' = k
      · simp [ptr, hk]
      · simp [ptr, hk]
    · simp [ptr, hi]
  | entry i' j =>
    rw [update_of_ne (by simp)]
    by_cases hi : i' = i
    · subst hi
      by_cases hk : k = NDIRECT
      · obtain ⟨h0, hz⟩ := hzero hk
        subst hk
        simp [ptr, h0, hz, Block.word_zeroes]
      · simp [ptr, Ne.symm hk]
    · simp [ptr, hi]

/-- An indirect block gets an entry. -/
theorem ptr_setEntry (hind : (tab i).addrs NDIRECT ≠ 0) (hj : j < NINDIRECT) (hb : b < 2 ^ 32)
    (hinj : ∀ i', (tab i').addrs NDIRECT = (tab i).addrs NDIRECT → i' = i) :
    ptr (update disk ((tab i).addrs NDIRECT)
        (.of (blit (disk ((tab i).addrs NDIRECT)) (4 * j) (le 4 b)))) tab =
      update (ptr disk tab) (.entry i j) b := by
  funext q
  cases q with
  | addr i' k' => rw [update_of_ne (by simp)]; rfl
  | entry i' j' =>
    by_cases hj' : NINDIRECT ≤ j'
    · have hne : Pointer.entry i' j' ≠ .entry i j := by
        rintro ⟨⟩
        exact absurd hj' (by rw [NINDIRECT, BSIZE]; omega)
      rw [update_of_ne hne, ptr, ptr, if_pos (.inr hj'), if_pos (.inr hj')]
    · have hlt : j' < 128 := Nat.not_le.mp hj'
      by_cases hi : i' = i
      · subst hi
        rw [ptr, if_neg (not_or.mpr ⟨hind, hj'⟩), update_self, Block.word_of (by rw [BSIZE]; omega)]
        by_cases hjj : j' = j
        · rw [hjj, update_self, word_blit_le hb]
        · rw [update_of_ne (by simpa using hjj), ptr, if_neg (not_or.mpr ⟨hind, hj'⟩),
            word_blit_of_disjoint (by rw [length_le]; omega)]
      · rw [update_of_ne (by simp [hi]), ptr, ptr, update_of_ne fun h => hi (hinj i' h)]

/-- A block that is not an indirect one is written. -/
theorem ptr_setData {v : Block} (h : ∀ i, (tab i).addrs NDIRECT ≠ 0 → (tab i).addrs NDIRECT ≠ b) :
    ptr (update disk b v) tab = ptr disk tab := by
  funext q
  cases q with
  | addr i k => rfl
  | entry i j =>
    by_cases h0 : (tab i).addrs NDIRECT = 0
    · rw [ptr, ptr, if_pos (.inl h0), if_pos (.inl h0)]
    · rw [ptr, ptr, update_of_ne (h i h0)]

/-- Pointers depend on the addresses of the inodes. -/
theorem ptr_congr {tab' : ℕ → Dinode} (h : ∀ i, (tab' i).addrs = (tab i).addrs) :
    ptr disk tab' = ptr disk tab := by
  funext q
  cases q <;> simp only [ptr, h]

end Pointers

/-! ### Bytes in blocks -/

section Bytes

variable {disk : ℕ → Block} {tab : ℕ → Dinode} {c : ℕ → List UInt8} {i off m : ℕ}
  {l : List UInt8}

/-- The bytes of one block. -/
theorem slice_block (h : ∀ n < (c i).length,
      (c i)[n]? = some (disk (ptr disk tab (.block i (n / BSIZE))) (n % BSIZE)))
    (hm : off % BSIZE + m ≤ BSIZE) (hle : off + m ≤ (c i).length) :
    slice (disk (ptr disk tab (.block i (off / BSIZE)))) (off % BSIZE) m =
      ((c i).drop off).take m := by
  refine List.ext_getElem? fun k => ?_
  by_cases hk : k < m
  swap
  · rw [List.getElem?_eq_none (by rw [length_slice]; omega),
      List.getElem?_eq_none (by simp; omega)]
  have hdiv : (off + k) / BSIZE = off / BSIZE := by
    rw [BSIZE] at *
    omega
  have hmod : (off + k) % BSIZE = off % BSIZE + k := by
    rw [BSIZE] at *
    omega
  have hbyte := h (off + k) (by omega)
  rw [hdiv, hmod] at hbyte
  rw [getElem?_slice hk, List.getElem?_take_of_lt hk, List.getElem?_drop, hbyte]

/-- A piece of one block is written, and no other block of an inode is this one. -/
theorem bytes_write (hinj : ∀ q q', ptr disk tab q ≠ 0 → ptr disk tab q = ptr disk tab q' → q = q')
    (h0 : ptr disk tab (.block i (off / BSIZE)) ≠ 0)
    (h : ∀ j n, n < (c j).length →
      (c j)[n]? = some (disk (ptr disk tab (.block j (n / BSIZE))) (n % BSIZE)))
    (hoff : off ≤ (c i).length) (hl : off % BSIZE + l.length ≤ BSIZE) :
    let disk' := update disk (ptr disk tab (.block i (off / BSIZE)))
      (.of (blit (disk (ptr disk tab (.block i (off / BSIZE)))) (off % BSIZE) l))
    ptr disk' tab = ptr disk tab ∧ ∀ j n, n < (update c i (overwrite (c i) off l) j).length →
      (update c i (overwrite (c i) off l) j)[n]? =
        some (disk' (ptr disk tab (.block j (n / BSIZE))) (n % BSIZE)) := by
  intro disk'
  have hself : disk' (ptr disk tab (.block i (off / BSIZE))) = _ := update_self ..
  have hother : ∀ x ≠ ptr disk tab (.block i (off / BSIZE)), disk' x = disk x :=
    fun x hx => update_of_ne hx ..
  refine ⟨ptr_setData fun j _ he => ?_, fun j n hn => ?_⟩
  · exact block_ne_indirect (hinj _ (.addr j NDIRECT) h0 he.symm)
  by_cases hj : j = i
  · subst hj
    rw [update_self] at hn ⊢
    rw [length_overwrite hoff] at hn
    rw [getElem?_overwrite hoff]
    by_cases hdiv : n / BSIZE = off / BSIZE
    · -- in the block that is written
      have hmod : n % BSIZE < BSIZE := Nat.mod_lt _ (by decide)
      rw [hdiv, hself, Block.of_apply, if_pos hmod]
      split
      · rw [blit_of_lt (by rw [BSIZE] at *; omega), ← hdiv]
        exact h j n (by omega)
      · split
        · have hpos : n % BSIZE = off % BSIZE + (n - off) := by
            rw [BSIZE] at *
            omega
          rw [hpos, blit_add (by omega), List.getElem?_eq_getElem (by omega)]
        · rw [blit_of_ge (by rw [BSIZE] at *; omega), ← hdiv]
          exact h j n (by omega)
    · -- in another block
      rw [hother _ fun he => hdiv (block_inj.mp (hinj _ _ (he ▸ h0) he)).2]
      split
      · exact h j n (by omega)
      · rw [if_neg (by rw [BSIZE] at *; omega)]
        exact h j n (by rw [BSIZE] at *; omega)
  · rw [update_of_ne hj] at hn ⊢
    rw [hother _ fun he => hj (block_inj.mp (hinj _ _ (he ▸ h0) he)).1]
    exact h j n hn

end Bytes

end Xv6.Mkfs
