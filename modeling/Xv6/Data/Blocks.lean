import Xv6.Data.Inode

/-!
# Blocks of inodes

What the inodes hold in their blocks, while one of them is in memory: `Good` takes
the table of the inodes as an argument of its own. A block that `balloc` finds gets one
pointer to it, and none of the others change.
-/

namespace Xv6.Data

open Fs (BSIZE NDIRECT NINDIRECT MAXFILE IPB BPB Pointer)
open Mkfs (Block Dinode Superblock getDinode putDinode zeroes ptr ptr_setAddr ptr_setEntry
  ptr_setData)
open Bytes Function

/-- The number of blocks before the data. -/
def nmeta (sb : Superblock) : ℕ := sb.size - sb.nblocks

/-- Inodes, then the bitmap, then the data. -/
structure Geometry (sb : Superblock) : Prop where
  iblock : ∀ i < sb.ninodes, sb.iblock i < sb.bmapstart
  bblock : ∀ b < sb.size, bblock sb b < nmeta sb
  size : sb.size ≤ 2 ^ 32

/-- The inodes in use, as they are on disk. -/
def State.table (s : State) (i : ℕ) : Dinode :=
  if i < s.sb.ninodes ∧ (getDinode (s.disk (s.sb.iblock i)) (i % IPB)).type ≠ 0 then
    getDinode (s.disk (s.sb.iblock i)) (i % IPB)
  else .zero

/-- The inodes of `tab` hold the bytes `c`, each in blocks of its own. -/
structure Good (s : State) (tab : ℕ → Dinode) (c : ℕ → List UInt8) : Prop where
  geo : Geometry s.sb
  alloc : AllocExact (nmeta s.sb) s.sb.size (ptr s.disk tab) s.used
  small : ∀ i, (tab i).Small
  here : ∀ i n, n < (c i).length → ptr s.disk tab (.block i (n / BSIZE)) ≠ 0
  bytes : ∀ i n, n < (c i).length →
    (c i)[n]? = some (s.disk (ptr s.disk tab (.block i (n / BSIZE))) (n % BSIZE))

/-- The number of blocks that are not in use. -/
def free (s : State) : ℕ := ((List.range s.sb.size).filter fun b => !s.used b).length

/-- How many of the blocks `bns` inode `i` does not have. -/
def missing (s : State) (tab : ℕ → Dinode) (i : ℕ) (bns : List ℕ) : ℕ :=
  (bns.filter fun bn => ptr s.disk tab (.block i bn) = 0).length

/-- 1 if the inode has no indirect block. -/
def lacks (tab : ℕ → Dinode) (i : ℕ) : ℕ := if (tab i).addrs NDIRECT = 0 then 1 else 0

/-- How many blocks have to be allocated for the blocks `bns` of inode `i`. -/
def need (s : State) (tab : ℕ → Dinode) (i : ℕ) (bns : List ℕ) : ℕ :=
  missing s tab i bns + if ∃ bn ∈ bns, NDIRECT ≤ bn then lacks tab i else 0

/-- Inode `i` has got blocks. -/
structure Grew (i : ℕ) (s : State) (tab : ℕ → Dinode) (s' : State) (tab' : ℕ → Dinode) : Prop where
  sb : s'.sb = s.sb
  table : s'.table = s.table
  grown : ∃ a, tab' = update tab i { tab i with addrs := a }
  keeps : ∀ q, ptr s.disk tab q ≠ 0 → ptr s'.disk tab' q = ptr s.disk tab q

section Grew

variable {s s' s'' : State} {tab tab' tab'' : ℕ → Dinode} {i : ℕ}

theorem Grew.refl (i : ℕ) (s : State) (tab : ℕ → Dinode) : Grew i s tab s tab :=
  ⟨rfl, rfl, ⟨(tab i).addrs, (update_eq_self i tab).symm⟩, fun _ _ => rfl⟩

theorem Grew.trans (h : Grew i s tab s' tab') (h' : Grew i s' tab' s'' tab'') :
    Grew i s tab s'' tab'' := by
  refine ⟨h'.sb.trans h.sb, h'.table.trans h.table, ?_, fun q hq => ?_⟩
  · obtain ⟨a, rfl⟩ := h.grown
    obtain ⟨a', rfl⟩ := h'.grown
    exact ⟨a', by rw [update_idem, update_self]⟩
  · have heq := h.keeps q hq
    rw [h'.keeps q (heq ▸ hq), heq]

end Grew

/-! ### Blocks to be allocated -/

section Need

variable {s s' : State} {tab tab' : ℕ → Dinode} {i bn : ℕ} {bns : List ℕ}

theorem missing_cons_of_ptr (h : ptr s.disk tab (.block i bn) = 0) :
    missing s tab i (bn :: bns) = missing s tab i bns + 1 := by
  simp [missing, h]

theorem missing_le_cons : missing s tab i bns ≤ missing s tab i (bn :: bns) :=
  ((List.sublist_cons_self bn bns).filter _).length_le

theorem need_le (s : State) (tab : ℕ → Dinode) (i : ℕ) (bns : List ℕ) :
    need s tab i bns ≤ missing s tab i bns + lacks tab i := by
  rw [need]
  split <;> omega

theorem need_cons_of_le (h : NDIRECT ≤ bn) :
    need s tab i (bn :: bns) = missing s tab i (bn :: bns) + lacks tab i := by
  rw [need, if_pos ⟨bn, List.mem_cons_self, h⟩]

theorem need_cons_of_lt (h : bn < NDIRECT) :
    need s tab i (bn :: bns) + missing s tab i bns =
      missing s tab i (bn :: bns) + need s tab i bns := by
  have hiff : (∃ n ∈ bn :: bns, NDIRECT ≤ n) ↔ ∃ n ∈ bns, NDIRECT ≤ n := by
    constructor
    · rintro ⟨n, hn, hle⟩
      obtain rfl | hn := List.mem_cons.mp hn
      · omega
      · exact ⟨n, hn, hle⟩
    · rintro ⟨n, hn, hle⟩
      exact ⟨n, List.mem_cons_of_mem _ hn, hle⟩
  simp only [need, hiff]
  omega

/-- Blocks that are there stay. -/
theorem Grew.missing_le (h : Grew i s tab s' tab') (bns : List ℕ) :
    missing s' tab' i bns ≤ missing s tab i bns := by
  refine (List.monotone_filter_right bns fun bn hbn => ?_).length_le
  rw [decide_eq_true_eq] at hbn ⊢
  by_contra h0
  exact h0 ((h.keeps _ h0).symm.trans hbn)

theorem Grew.lacks_le (h : Grew i s tab s' tab') : lacks tab' i ≤ lacks tab i := by
  by_cases h0 : (tab i).addrs NDIRECT = 0
  · rw [lacks, lacks, if_pos h0]
    split <;> omega
  · have hkeep := h.keeps (.addr i NDIRECT) h0
    change (tab' i).addrs NDIRECT = (tab i).addrs NDIRECT at hkeep
    rw [lacks, lacks, hkeep]

theorem Grew.need_le (h : Grew i s tab s' tab') (bns : List ℕ) :
    need s' tab' i bns ≤ need s tab i bns := by
  have hmissing := h.missing_le bns
  have hlacks := h.lacks_le
  rw [need, need]
  split <;> omega

end Need

/-! ### Allocation -/

/-- What `balloc` leaves when it returns block `b`. -/
def State.take (s : State) (b : ℕ) : State :=
  (s.setBlock (bblock s.sb b) (.of (setBit (s.disk (bblock s.sb b)) (b % BPB)))).setBlock b zeroes

/-- The indirect block `x` has block `b` as its entry `j`. -/
def State.enter (s : State) (x j b : ℕ) : State :=
  s.setBlock x (.of (blit (s.disk x) (4 * j) (le 4 b)))

section Take

variable {s : State} {tab : ℕ → Dinode} {c : ℕ → List UInt8} {b i k j : ℕ}

@[simp] theorem take_sb (s : State) (b : ℕ) : (s.take b).sb = s.sb := rfl

theorem take_disk_self (s : State) (b : ℕ) : (s.take b).disk b = zeroes := update_self _ _ _

theorem take_disk {x : ℕ} (hb : x ≠ b) (hmap : x ≠ bblock s.sb b) :
    (s.take b).disk x = s.disk x := by
  rw [State.take]
  exact (update_of_ne hb _ _).trans (update_of_ne hmap _ _)

/-- The first block that is not in use is taken; there is one if any is free. -/
theorem wp_balloc {Q : ℕ → State → Prop} {H : Panic → Prop} (hfree : 0 < free s)
    (hQ : ∀ b < s.sb.size, s.used b = false → Q b (s.take b)) : wp balloc Q H s := by
  simp only [balloc, wp_bind, wp_get]
  cases hf : (List.range s.sb.size).find? fun b => !s.used b with
  | none =>
    rw [List.find?_eq_none] at hf
    have hnil : (List.range s.sb.size).filter (fun b => !s.used b) = [] :=
      List.filter_eq_nil_iff.mpr hf
    rw [free, hnil] at hfree
    exact absurd hfree (lt_irrefl 0)
  | some b =>
    have hb := List.mem_range.mp (List.mem_of_find?_eq_some hf)
    have hbit : s.used b = false := by simpa using List.find?_some hf
    exact hQ b hb hbit

/-- Data blocks are behind the bitmap. -/
theorem Geometry.bblock_ne {sb : Superblock} (hgeo : Geometry sb) (hlo : nmeta sb ≤ b) {x : ℕ}
    (hx : x < sb.size) : Data.bblock sb x ≠ b := by
  have hlt := hgeo.bblock x hx
  omega

/-- The inodes on disk are elsewhere. -/
theorem table_congr {s' : State} (hsb : s'.sb = s.sb)
    (hdisk : ∀ x < s.sb.bmapstart, s'.disk x = s.disk x) (hgeo : Geometry s.sb) :
    s'.table = s.table := by
  funext i
  rw [State.table, State.table, hsb]
  by_cases hi : i < s.sb.ninodes
  · rw [hdisk _ (hgeo.iblock i hi)]
  · rw [if_neg fun h => hi h.1, if_neg fun h => hi h.1]

variable (hgeo : Geometry s.sb) (hb : b < s.sb.size)
include hgeo hb

theorem lt_of_bmapstart :
    s.sb.bmapstart ≤ bblock s.sb b ∧ bblock s.sb b < nmeta s.sb :=
  ⟨Nat.le_add_left _ _, hgeo.bblock b hb⟩

variable (hlo : nmeta s.sb ≤ b)
include hlo

/-- Only the bit of the block changes. -/
theorem take_used {x : ℕ} (hx : x < s.sb.size) :
    (s.take b).used x = update s.used b true x := by
  have hBPB : x % BPB < BSIZE * 8 := Nat.mod_lt _ (by decide)
  rw [State.used, take_sb]
  by_cases hblock : bblock s.sb x = bblock s.sb b
  · have hread : (s.take b).disk (bblock s.sb b) =
        .of (setBit (s.disk (bblock s.sb b)) (b % BPB)) := by
      rw [State.take]
      exact (update_of_ne (hgeo.bblock_ne hlo hb) _ _).trans (update_self _ _ _)
    rw [hblock, hread, Mkfs.Block.bit_of hBPB, bit_setBit]
    by_cases hxb : x = b
    · rw [hxb, update_self, decide_eq_true rfl, Bool.true_or]
    · have hmod : b % BPB ≠ x % BPB := fun hmod => hxb (by
        have hdiv : x / BPB = b / BPB := Nat.add_right_cancel hblock
        rw [← Nat.div_add_mod x BPB, ← Nat.div_add_mod b BPB, hmod, hdiv])
      rw [update_of_ne hxb, decide_eq_false hmod, Bool.false_or, State.used, hblock]
  · have hxb : x ≠ b := fun h => hblock (by rw [h])
    rw [update_of_ne hxb, take_disk (hgeo.bblock_ne hlo hx) hblock, State.used]

theorem take_free (hbit : s.used b = false) : free (s.take b) + 1 = free s := by
  have hfilter : (List.range s.sb.size).filter (fun x => !(s.take b).used x) =
      ((List.range s.sb.size).filter fun x => !s.used x).erase b := by
    rw [List.Nodup.erase_eq_filter (List.nodup_range.filter _), List.filter_filter]
    refine List.filter_congr fun x hx => ?_
    rw [take_used hgeo hb hlo (List.mem_range.mp hx)]
    by_cases hxb : x = b
    · simp [hxb]
    · simp [hxb]
  have hmem : b ∈ (List.range s.sb.size).filter fun x => !s.used x := by
    simp [hb, hbit]
  rw [free, take_sb, hfilter, List.length_erase_of_mem hmem, free]
  exact Nat.sub_add_cancel (List.length_pos_of_mem hmem)

theorem take_table : (s.take b).table = s.table := by
  have hmap := lt_of_bmapstart hgeo hb
  exact table_congr rfl (fun x hx => take_disk (by omega) (by omega)) hgeo

end Take

namespace Good

variable {s s' : State} {tab tab' : ℕ → Dinode} {c : ℕ → List UInt8} {b i k j n bn : ℕ}
  {q : Pointer}

section

variable (h : Good s tab c)
include h

theorem lo_le (hb : b < s.sb.size) (hbit : s.used b = false) :
    nmeta s.sb ≤ b := h.alloc.le_of_bit hb hbit

/-- A block that is not in use is not an indirect block. -/
theorem indirect_ne (hb : b < s.sb.size) (hbit : s.used b = false) (i : ℕ) :
    (tab i).addrs NDIRECT ≠ b := h.alloc.ptr_ne hb hbit (.addr i NDIRECT)

/-- Pointers lead to data blocks. -/
theorem ptr_range (hq : ptr s.disk tab q ≠ 0) :
    nmeta s.sb ≤ ptr s.disk tab q ∧ ptr s.disk tab q < s.sb.size := h.alloc.range q hq

section

variable (hb : b < s.sb.size)
include hb

section

variable (hbit : s.used b = false)
include hbit

/-- Taking a block changes no pointer. -/
theorem take_ptr : ptr (s.take b).disk tab = ptr s.disk tab := by
  have hmap := (lt_of_bmapstart h.geo hb).2
  rw [State.take, State.setBlock, State.setBlock, ptr_setData fun i _ => h.indirect_ne hb hbit i,
    ptr_setData fun i h0 => ?_]
  have hlo := (h.ptr_range (q := .addr i NDIRECT) h0).1
  change nmeta s.sb ≤ (tab i).addrs NDIRECT at hlo
  omega

theorem take_data (hq : ptr s.disk tab q ≠ 0) :
    (s.take b).disk (ptr s.disk tab q) = s.disk (ptr s.disk tab q) := by
  have hmap := (lt_of_bmapstart h.geo hb).2
  have hlo := (h.ptr_range hq).1
  exact take_disk (h.alloc.ptr_ne hb hbit q) (by omega)

/-- A block that was not in use gets a pointer to it, and the data stays where it is. -/
theorem attach (hq : ptr s.disk tab q = 0) (hsb : s'.sb = s.sb)
    (hptr : ptr s'.disk tab' = update (ptr s.disk tab) q b)
    (hused : ∀ x < s.sb.size, s'.used x = update s.used b true x)
    (hdata : ∀ i n, ptr s.disk tab (.block i n) ≠ 0 →
      s'.disk (ptr s.disk tab (.block i n)) = s.disk (ptr s.disk tab (.block i n)))
    (hsmall : ∀ i, (tab' i).Small) : Good s' tab' c := by
  have hkeep : ∀ i n, ptr s.disk tab (.block i n) ≠ 0 →
      ptr s'.disk tab' (.block i n) = ptr s.disk tab (.block i n) := fun i n h0 => by
    rw [hptr, update_of_ne fun he => h0 (by rw [he, hq])]
  refine ⟨hsb ▸ h.geo, ?_, hsmall, fun i n hn => ?_, fun i n hn => ?_⟩
  · rw [hsb, hptr]
    exact (h.alloc.attach hq hb hbit).congr_bit hused
  · rw [hkeep i _ (h.here i n hn)]
    exact h.here i n hn
  · rw [hkeep i _ (h.here i n hn), hdata i _ (h.here i n hn), h.bytes i n hn]

/-- An address that is zero gets the block. -/
theorem takeAddr (hk : k ≤ NDIRECT) (h0 : (tab i).addrs k = 0) :
    Good (s.take b) (update tab i { tab i with addrs := update (tab i).addrs k b }) c ∧
      ptr (s.take b).disk (update tab i { tab i with addrs := update (tab i).addrs k b }) =
        update (ptr s.disk tab) (.addr i k) b := by
  have hptr : ptr (s.take b).disk (update tab i { tab i with addrs := update (tab i).addrs k b }) =
      update (ptr s.disk tab) (.addr i k) b := by
    rw [ptr_setAddr fun hk' => ⟨hk' ▸ h0, take_disk_self s b⟩, h.take_ptr hb hbit]
  refine ⟨h.attach hb hbit (q := .addr i k) h0 rfl hptr
    (fun x hx => take_used h.geo hb (h.lo_le hb hbit) hx)
    (fun i' n hne => h.take_data hb hbit hne)
    (Mkfs.small_setAddr h.small hk (hb.trans_le h.geo.size)), hptr⟩

/-- The block is entered in the indirect block of the inode. -/
theorem takeEntry (hj : j < NINDIRECT) (hind : (tab i).addrs NDIRECT ≠ 0)
    (h0 : ptr s.disk tab (.entry i j) = 0)
    (hs' : s' = (s.take b).enter ((tab i).addrs NDIRECT) j b) :
    Good s' tab c ∧ ptr s'.disk tab = update (ptr s.disk tab) (.entry i j) b ∧
      s'.table = s.table ∧ (∀ x < s.sb.size, s'.used x = update s.used b true x) := by
  have hlo := (h.ptr_range (q := .addr i NDIRECT) hind).1
  change nmeta s.sb ≤ (tab i).addrs NDIRECT at hlo
  have hptr : ptr s'.disk tab = update (ptr s.disk tab) (.entry i j) b := by
    rw [hs', State.enter, State.setBlock, ptr_setEntry hind hj (hb.trans_le h.geo.size)
      fun i' he => ?_, h.take_ptr hb hbit]
    have hne : (tab i').addrs NDIRECT ≠ 0 := he ▸ hind
    have hinj := h.alloc.inj (.addr i' NDIRECT) (.addr i NDIRECT) hne he
    exact (Pointer.addr.inj hinj).1
  have hused : ∀ x < s.sb.size, s'.used x = update s.used b true x := fun x hx => by
    have hread : s'.disk (bblock s.sb x) = (s.take b).disk (bblock s.sb x) := by
      rw [hs']
      exact update_of_ne (h.geo.bblock_ne hlo hx) _ _
    have hsb : s'.sb = s.sb := by rw [hs']; rfl
    rw [← take_used h.geo hb (h.lo_le hb hbit) hx, State.used, State.used, hsb, hread]
    rfl
  refine ⟨h.attach hb hbit h0 (by rw [hs']; rfl) hptr hused (fun i' n hne => ?_) h.small, hptr, ?_,
    hused⟩
  · -- a block of data is not an indirect block
    have hdiff : ptr s.disk tab (.block i' n) ≠ (tab i).addrs NDIRECT := fun he =>
      Mkfs.block_ne_indirect (h.alloc.inj (.block i' n) (.addr i NDIRECT) hne he)
    rw [hs', ← h.take_data hb hbit hne]
    exact update_of_ne hdiff _ _
  · rw [← take_table h.geo hb (h.lo_le hb hbit), hs']
    refine table_congr (s := s.take b) rfl (fun x hx => update_of_ne ?_ _ _) h.geo
    have hmap := lt_of_bmapstart h.geo hb
    change x < s.sb.bmapstart at hx
    omega

end

end

end

end Good

/-! ### bmap -/

section Bmap

variable {s : State} {tab : ℕ → Dinode} {c : ℕ → List UInt8} {i k j bn : ℕ} {H : Panic → Prop}
  {Q : Inode × ℕ → State → Prop}

/-- An address of the inode is looked up. -/
theorem wp_bmapAddr (h : Good s tab c) (hk : k ≤ NDIRECT) (hfree : (tab i).addrs k = 0 → 0 < free s)
    (hQ : ∀ s' tab', Grew i s tab s' tab' → Good s' tab' c → (tab' i).addrs k ≠ 0 →
      ((tab i).addrs k ≠ 0 → s' = s ∧ tab' = tab) →
      ((tab i).addrs k = 0 → free s' + 1 = free s ∧ s'.disk ((tab' i).addrs k) = zeroes) →
      Q (⟨i, tab' i⟩, (tab' i).addrs k) s') :
    wp (bmapAddr ⟨i, tab i⟩ k) Q H s := by
  simp only [bmapAddr, wp_ite, wp_bind, wp_pure]
  split
  · next h0 =>
    refine wp_balloc (hfree h0) fun b hb hbit => ?_
    have hlo := h.lo_le hb hbit
    obtain ⟨hgood, hptr⟩ := h.takeAddr hb hbit hk h0
    set tab' := update tab i { tab i with addrs := update (tab i).addrs k b }
    have hself : tab' i = { tab i with addrs := update (tab i).addrs k b } := update_self _ _ _
    have haddr : (tab' i).addrs k = b := by
      rw [hself]
      exact update_self _ _ _
    have hgrew : Grew i s tab (s.take b) tab' :=
      ⟨rfl, take_table h.geo hb hlo, ⟨_, rfl⟩, fun q hq => by
        rw [hptr, update_of_ne fun he => hq (by rw [he]; exact h0)]⟩
    have hres := hQ (s.take b) tab' hgrew hgood
      (by have := h.alloc.lo_pos; omega) (fun hne => absurd h0 hne)
      fun _ => ⟨take_free h.geo hb hlo hbit, by rw [haddr, take_disk_self]⟩
    rwa [haddr, hself] at hres
  · next h0 =>
    exact hQ s tab (.refl i s tab) h h0 (fun _ => ⟨rfl, rfl⟩) fun hz => absurd hz h0

/-- An entry of the indirect block is looked up. -/
theorem wp_bmapEntry {Q : ℕ → State → Prop} (h : Good s tab c) (hj : j < NINDIRECT)
    (hind : (tab i).addrs NDIRECT ≠ 0)
    (hfree : ptr s.disk tab (.entry i j) = 0 → 0 < free s)
    (hQ : ∀ s', Grew i s tab s' tab → Good s' tab c → ptr s'.disk tab (.entry i j) ≠ 0 →
      (ptr s.disk tab (.entry i j) ≠ 0 → s' = s) →
      (ptr s.disk tab (.entry i j) = 0 → free s' + 1 = free s) →
      Q (ptr s'.disk tab (.entry i j)) s') :
    wp (bmapEntry ((tab i).addrs NDIRECT) j) Q H s := by
  have hword : ptr s.disk tab (.entry i j) = word (s.disk ((tab i).addrs NDIRECT)) (4 * j) :=
    if_neg (by omega)
  simp only [bmapEntry, bread, wp_bind, wp_get, wp_pure, wp_ite, ← hword]
  split
  · next h0 =>
    refine wp_balloc (hfree h0) fun b hb hbit => ?_
    have hlo := h.lo_le hb hbit
    simp only [bwrite, wp_modify]
    change Q b ((s.take b).enter ((tab i).addrs NDIRECT) j b)
    set s' := (s.take b).enter ((tab i).addrs NDIRECT) j b with hs'
    obtain ⟨hgood, hptr, htable, hused⟩ := h.takeEntry hb hbit hj hind h0 hs'
    have hentry : ptr s'.disk tab (.entry i j) = b := by rw [hptr, update_self]
    have hgrew : Grew i s tab s' tab :=
      ⟨rfl, htable, ⟨_, (update_eq_self i tab).symm⟩, fun q hq => by
        rw [hptr, update_of_ne fun he => hq (by rw [he, h0])]⟩
    have hfree' : free s' + 1 = free s := by
      rw [← take_free h.geo hb hlo hbit, free, free]
      refine congrArg (List.length · + 1) (List.filter_congr fun x hx => ?_)
      rw [hused x (List.mem_range.mp hx), take_used h.geo hb hlo (List.mem_range.mp hx)]
    have hpos := h.alloc.lo_pos
    have hres := hQ s' hgrew hgood (by omega) (fun hne => absurd h0 hne) fun _ => hfree'
    rwa [hentry] at hres
  · next h0 =>
    exact hQ s (.refl i s tab) h h0 (fun _ => rfl) fun hz => absurd hz h0

/-- `bmap` finds the block, or there is enough room to allocate it. -/
theorem wp_bmap {rest : List ℕ} (h : Good s tab c) (hbn : bn < MAXFILE)
    (hneed : need s tab i (bn :: rest) ≤ free s)
    (hQ : ∀ s' tab', Grew i s tab s' tab' → Good s' tab' c →
      ptr s'.disk tab' (.block i bn) ≠ 0 →
      (ptr s.disk tab (.block i bn) ≠ 0 → s' = s ∧ tab' = tab) →
      need s' tab' i rest ≤ free s' → Q (⟨i, tab' i⟩, ptr s'.disk tab' (.block i bn)) s') :
    wp (bmap ⟨i, tab i⟩ bn) Q H s := by
  simp only [bmap, wp_ite, wp_bind, wp_pure]
  split
  · next hdir =>
    have hblock : Pointer.block i bn = .addr i bn := if_pos hdir
    rw [hblock] at hQ
    have hcons : need s tab i (bn :: rest) + missing s tab i rest =
        missing s tab i (bn :: rest) + need s tab i rest := need_cons_of_lt hdir
    have hle : missing s tab i rest ≤ missing s tab i (bn :: rest) := missing_le_cons
    refine wp_bmapAddr h hdir.le (fun h0 => ?_) fun s' tab' hgrew hgood hne hsame hnew => ?_
    · have hmiss : missing s tab i (bn :: rest) = missing s tab i rest + 1 :=
        missing_cons_of_ptr (by rw [hblock]; exact h0)
      omega
    · refine hQ s' tab' hgrew hgood hne hsame ((hgrew.need_le rest).trans ?_)
      by_cases h0 : (tab i).addrs bn = 0
      · have hmiss : missing s tab i (bn :: rest) = missing s tab i rest + 1 :=
        missing_cons_of_ptr (by rw [hblock]; exact h0)
        have hfree := (hnew h0).1
        omega
      · rw [(hsame h0).1]
        omega
  · next hdir =>
    have hle : NDIRECT ≤ bn := Nat.le_of_not_lt hdir
    have hj : bn - NDIRECT < NINDIRECT := by
      rw [MAXFILE] at hbn
      omega
    have hblock : Pointer.block i bn = .entry i (bn - NDIRECT) := if_neg hdir
    rw [hblock] at hQ
    rw [if_pos hj]
    rw [need_cons_of_le hle] at hneed
    refine wp_bmapAddr h le_rfl (fun h0 => ?_) fun s₁ tab₁ hgrew₁ hgood₁ hne₁ hsame₁ hnew₁ => ?_
    · have hlacks : lacks tab i = 1 := if_pos h0
      omega
    have hlacks₁ : lacks tab₁ i = 0 := if_neg hne₁
    have hmissing₁ := hgrew₁.missing_le (bn :: rest)
    -- the room that is left is enough for the data blocks
    have hroom₁ : missing s₁ tab₁ i (bn :: rest) ≤ free s₁ := by
      by_cases h0 : (tab i).addrs NDIRECT = 0
      · have hlacks : lacks tab i = 1 := if_pos h0
        have hfree := (hnew₁ h0).1
        omega
      · rw [(hsame₁ h0).1, (hsame₁ h0).2]
        omega
    refine wp_bmapEntry hgood₁ hj hne₁ (fun h0 => ?_) fun s₂ hgrew₂ hgood₂ hne₂ hsame₂ hnew₂ => ?_
    · have hmiss : missing s₁ tab₁ i (bn :: rest) = missing s₁ tab₁ i rest + 1 :=
        missing_cons_of_ptr (by rw [hblock]; exact h0)
      omega
    · refine hQ s₂ tab₁ (hgrew₁.trans hgrew₂) hgood₂ hne₂ (fun hptr => ?_) ?_
      · have hind : (tab i).addrs NDIRECT ≠ 0 := fun h0 => hptr (if_pos (Or.inl h0))
        obtain ⟨rfl, rfl⟩ := hsame₁ hind
        exact ⟨hsame₂ hptr, rfl⟩
      · have hrest := (need_le s₂ tab₁ i rest).trans_eq (by rw [hlacks₁, Nat.add_zero])
        have hmissing₂ := hgrew₂.missing_le rest
        have hcons : missing s₁ tab₁ i rest ≤ missing s₁ tab₁ i (bn :: rest) := missing_le_cons
        by_cases h0 : ptr s₁.disk tab₁ (.entry i (bn - NDIRECT)) = 0
        · have hmiss : missing s₁ tab₁ i (bn :: rest) = missing s₁ tab₁ i rest + 1 :=
        missing_cons_of_ptr (by rw [hblock]; exact h0)
          have hfree := hnew₂ h0
          omega
        · rw [hsame₂ h0] at hrest ⊢
          omega

end Bmap

end Xv6.Data
