import Xv6.Data.Blocks
import Xv6.Fs.Syscall

/-!
# Files as byte arrays

`readi` and `writei` seen from above: an inode is a list of bytes, reading copies a
piece of it, and writing replaces a piece or makes it longer. Nothing else changes,
since no two inodes share a block.
-/

namespace Xv6.Data

open Fs (BSIZE NDIRECT NINDIRECT MAXFILE IPB BPB Pointer blocksOf)
open Mkfs (Block Dinode Superblock getDinode putDinode zeroes ptr ptr_setData ptr_congr slice_block
  bytes_write T_DIR T_FILE T_DEV)
open Bytes Function

/-- The bytes of an inode on disk. -/
def State.contents (s : State) (i : ℕ) : List UInt8 :=
  (List.range (s.table i).size).map fun k =>
    s.disk (ptr s.disk s.table (.block i (k / BSIZE))) (k % BSIZE)

/-- Bitmap and pointers agree, and there are no holes. -/
structure Consistent (s : State) : Prop where
  geo : Geometry s.sb
  alloc : AllocExact (nmeta s.sb) s.sb.size (ptr s.disk s.table) s.used
  noHoles : ∀ i n, n * BSIZE < (s.table i).size → ptr s.disk s.table (.block i n) ≠ 0
  size : ∀ i, (s.table i).size ≤ MAXFILE * BSIZE

theorem small_table (s : State) (i : ℕ) : (s.table i).Small := by
  rw [State.table]
  split
  · exact Dinode.small_getDinode _ _
  · exact Dinode.small_zero

@[simp] theorem length_contents (s : State) (i : ℕ) : (s.contents i).length = (s.table i).size := by
  simp [State.contents]

theorem Consistent.good {s : State} (h : Consistent s) : Good s s.table s.contents where
  geo := h.geo
  alloc := h.alloc
  small := small_table s
  here i n hn := by
    rw [length_contents] at hn
    exact h.noHoles i _ ((Nat.div_mul_le_self n BSIZE).trans_lt hn)
  bytes i n hn := by
    rw [length_contents] at hn
    simp [State.contents, hn]

/-- What the table says is what the inodes hold. -/
theorem Good.consistent {s : State} {c : ℕ → List UInt8} (h : Good s s.table c)
    (hsize : ∀ i, (s.table i).size = (c i).length) (hmax : ∀ i, (c i).length ≤ MAXFILE * BSIZE) :
    Consistent s ∧ s.contents = c := by
  refine ⟨⟨h.geo, h.alloc, fun i n hn => ?_, fun i => (hsize i).trans_le (hmax i)⟩, ?_⟩
  · have hhere := h.here i (n * BSIZE) (by rwa [← hsize])
    rwa [Nat.mul_div_cancel _ (by decide)] at hhere
  · funext i
    refine List.ext_getElem? fun n => ?_
    by_cases hn : n < (c i).length
    · rw [h.bytes i n hn]
      simp [State.contents, hsize, hn]
    · rw [List.getElem?_eq_none (Nat.le_of_not_lt hn), List.getElem?_eq_none]
      rw [length_contents, hsize]
      exact Nat.le_of_not_lt hn

theorem type_ne_zero {s : State} {i : ℕ} (h : (s.table i).type ≠ 0) : i < s.sb.ninodes := by
  rw [State.table] at h
  split at h
  · next hi => exact hi.1
  · exact absurd rfl h

/-! ### The loops -/

section Loops

variable {s s' : State} {tab tab' : ℕ → Dinode} {c : ℕ → List UInt8} {i off n bn : ℕ}
  {src : List UInt8} {H : Panic → Prop} {Q : Inode × ℕ → State → Prop}

/-- For blocks that are there nothing has to be allocated. -/
theorem need_eq_zero {bns : List ℕ} (h : ∀ bn ∈ bns, ptr s.disk tab (.block i bn) ≠ 0) :
    need s tab i bns = 0 := by
  have hmissing : missing s tab i bns = 0 := by
    rw [missing, List.filter_eq_nil_iff.mpr fun bn hbn => by simpa using h bn hbn, List.length_nil]
  rw [need, hmissing]
  split
  · next hle =>
    obtain ⟨bn, hbn, hle⟩ := hle
    have hind : (tab i).addrs NDIRECT ≠ 0 := fun h0 => h bn hbn (by
      rw [Pointer.block, if_neg (Nat.not_lt.mpr hle)]
      exact if_pos (Or.inl h0))
    rw [lacks, if_neg hind]
  · rfl

theorem wp_bmap_of_ptr (h : Good s tab c) (hbn : bn < MAXFILE)
    (hptr : ptr s.disk tab (.block i bn) ≠ 0)
    (hQ : Q (⟨i, tab i⟩, ptr s.disk tab (.block i bn)) s) :
    wp (bmap ⟨i, tab i⟩ bn) Q H s := by
  have hneed : need s tab i [bn] = 0 := need_eq_zero fun n hn => List.mem_singleton.mp hn ▸ hptr
  refine wp_bmap h hbn (hneed.trans_le (Nat.zero_le _)) fun s' tab' _ _ _ hsame _ => ?_
  obtain ⟨rfl, rfl⟩ := hsame hptr
  exact hQ

theorem div_lt_maxfile (h : off < MAXFILE * BSIZE) : off / BSIZE < MAXFILE :=
  Nat.div_lt_of_lt_mul (by rwa [Nat.mul_comm])

/-- The loop of `readi` copies the bytes. -/
theorem wp_readLoop {Q : Inode × List UInt8 → State → Prop} (h : Good s tab c)
    (hmax : (c i).length ≤ MAXFILE * BSIZE) (hle : off + n ≤ (c i).length)
    (hQ : Q (⟨i, tab i⟩, ((c i).drop off).take n) s) : wp (readLoop ⟨i, tab i⟩ off n) Q H s := by
  induction n using Nat.strong_induction_on generalizing off Q with
  | _ n ih =>
    rw [readLoop]
    by_cases h0 : n = 0
    · rw [if_pos h0]
      rwa [h0, List.take_zero] at hQ
    have hmod := mod_BSIZE_lt off
    rw [if_neg h0]
    generalize hm : min n (BSIZE - off % BSIZE) = m
    simp only [wp_bind, bread, wp_get, wp_pure]
    refine wp_bmap_of_ptr h (div_lt_maxfile (by omega)) (h.here i off (by omega)) ?_
    refine ih (n - m) (by omega) (by omega) ?_
    rw [slice_block (h.bytes i) (by omega) (by omega), ← List.drop_drop, ← List.take_add,
      Nat.add_sub_cancel' (by omega)]
    exact hQ

/-- The blocks of a write: the one it starts in, and those of the rest. -/
theorem blocksOf_cons {m : ℕ} (h0 : n ≠ 0) (hm : min n (BSIZE - off % BSIZE) = m) :
    blocksOf off n = off / BSIZE :: blocksOf (off + m) (n - m) := by
  have hmod := mod_BSIZE_lt off
  have hpos : (off + n - 1) / BSIZE + 1 - off / BSIZE =
      (off + n - 1) / BSIZE - off / BSIZE + 1 := by
    rw [BSIZE]
    omega
  rw [blocksOf, if_neg h0, hpos, List.range'_succ, blocksOf]
  congr 1
  split
  · next hlast =>
    have hzero : (off + n - 1) / BSIZE - off / BSIZE = 0 := by
      rw [BSIZE] at *
      omega
    rw [hzero, List.range'_zero]
  · next hmore =>
    have hnext : (off + m) / BSIZE = off / BSIZE + 1 := by
      rw [BSIZE] at *
      omega
    have hend : off + m + (n - m) - 1 = off + n - 1 := by omega
    rw [hnext, hend, Nat.succ_sub_succ]

/-- A piece of one block is written. -/
theorem Good.write {l : List UInt8} {b : ℕ} (h : Good s tab c) (hoff : off ≤ (c i).length)
    (hl : off % BSIZE + l.length ≤ BSIZE) (hb : ptr s.disk tab (.block i (off / BSIZE)) = b)
    (h0 : b ≠ 0) (hs' : s' = s.setBlock b (.of (blit (s.disk b) (off % BSIZE) l))) :
    Good s' tab (update c i (overwrite (c i) off l)) ∧ Grew i s tab s' tab ∧ free s' = free s ∧
      ptr s'.disk tab = ptr s.disk tab := by
  subst hb
  obtain ⟨hlo, hhi⟩ := h.ptr_range h0
  obtain ⟨hptrs, hbytes⟩ := bytes_write h.alloc.inj h0 h.bytes hoff hl
  have hsb : s'.sb = s.sb := by rw [hs']; rfl
  have hdisk := congrArg State.disk hs'
  simp only [State.setBlock] at hdisk
  have hother : ∀ x ≠ ptr s.disk tab (.block i (off / BSIZE)), s'.disk x = s.disk x :=
    fun x hx => by
    rw [hdisk, update_of_ne hx]
  rw [← hdisk] at hptrs hbytes
  have hused : ∀ x < s.sb.size, s'.used x = s.used x := fun x hx => by
    rw [State.used, hsb, hother _ (h.geo.bblock_ne hlo hx), State.used]
  have htable : s'.table = s.table := by
    refine table_congr hsb (fun x hx => hother x ?_) h.geo
    have hmap := lt_of_bmapstart h.geo (Nat.lt_of_le_of_lt (Nat.zero_le _) hhi)
    omega
  refine ⟨⟨hsb ▸ h.geo, ?_, h.small, fun j n hn => ?_, hptrs ▸ hbytes⟩,
    ⟨hsb, htable, ⟨_, (update_eq_self i tab).symm⟩, fun q _ => by rw [hptrs]⟩, ?_, hptrs⟩
  · rw [hsb, hptrs]
    exact h.alloc.congr_bit hused
  · rw [hptrs]
    by_cases hj : j = i
    · subst hj
      rw [update_self, length_overwrite hoff] at hn
      by_cases hold : n < (c j).length
      · exact h.here j n hold
      · have hdiv : n / BSIZE = off / BSIZE := by
          rw [BSIZE] at *
          omega
        rwa [hdiv]
    · rw [update_of_ne hj] at hn
      exact h.here j n hn
  · rw [free, free, hsb]
    exact congrArg List.length
      (List.filter_congr fun x hx => by rw [hused x (List.mem_range.mp hx)])

theorem need_congr (hptr : ptr s'.disk tab = ptr s.disk tab) (i : ℕ) (bns : List ℕ) :
    need s' tab i bns = need s tab i bns := by
  rw [need, need, missing, missing, hptr]

/-- The loop of `writei` replaces the bytes. An inode that has all the blocks stays as it is. -/
theorem wp_writeLoop (h : Good s tab c) (hoff : off ≤ (c i).length)
    (hmax : off + src.length ≤ MAXFILE * BSIZE)
    (hneed : need s tab i (blocksOf off src.length) ≤ free s)
    (hQ : ∀ s' tab', Grew i s tab s' tab' → Good s' tab' (update c i (overwrite (c i) off src)) →
      ((∀ bn ∈ blocksOf off src.length, ptr s.disk tab (.block i bn) ≠ 0) → tab' = tab) →
      Q (⟨i, tab' i⟩, off + src.length) s') :
    wp (writeLoop ⟨i, tab i⟩ off src) Q H s := by
  induction hn : src.length using Nat.strong_induction_on generalizing s tab c off src Q with
  | _ n ih =>
    subst hn
    rw [writeLoop]
    by_cases h0 : src = []
    · rw [if_pos h0]
      subst h0
      refine hQ s tab (.refl i s tab) ?_ fun _ => rfl
      rwa [overwrite_nil, update_eq_self]
    have hpos := List.length_pos_iff.mpr h0
    have hmod := mod_BSIZE_lt off
    rw [if_neg h0]
    generalize hm : min src.length (BSIZE - off % BSIZE) = m
    have hblocks := blocksOf_cons hpos.ne' hm
    rw [hblocks] at hneed hQ
    have htake : (src.take m).length = m := by
      rw [List.length_take]
      omega
    have hdrop : (src.drop m).length = src.length - m := List.length_drop
    simp only [wp_bind, bread, bwrite, wp_get, wp_pure, wp_modify]
    refine wp_bmap h (div_lt_maxfile (by omega)) hneed
      fun s₁ tab₁ hgrew₁ hgood₁ hne hsame hneed₁ => ?_
    obtain ⟨hgood₂, hgrew₂, hfree, hptrs⟩ :=
      hgood₁.write (l := src.take m) hoff (by omega) rfl hne rfl
    generalize hs₂ : s₁.setBlock (ptr s₁.disk tab₁ (.block i (off / BSIZE))) (.of (blit (s₁.disk
      (ptr s₁.disk tab₁ (.block i (off / BSIZE)))) (off % BSIZE) (src.take m))) = s₂ at *
    have hgrew := hgrew₁.trans hgrew₂
    have hlen : (update c i (overwrite (c i) off (src.take m)) i).length =
        max (c i).length (off + m) := by
      rw [update_self, length_overwrite hoff, htake]
    refine ih (src.drop m).length (by omega) hgood₂ (by omega) (by omega) ?_ ?_ rfl
    · rw [hdrop, need_congr hptrs, hfree]
      exact hneed₁
    · intro s' tab' hgrew' hgood' hsame'
      have hres := hQ s' tab' (hgrew.trans hgrew') ?_ fun hall => ?_
      · rwa [hdrop, Nat.add_assoc, Nat.add_sub_cancel' (by omega)]
      · have hjoin : overwrite (overwrite (c i) off (src.take m)) (off + (src.take m).length)
            (src.drop m) = _ := overwrite_append hoff
        rw [htake, List.take_append_drop] at hjoin
        rwa [update_self, hjoin, update_idem] at hgood'
      · obtain ⟨rfl, rfl⟩ := hsame (hall _ List.mem_cons_self)
        refine hsame' fun bn hbn => ?_
        rw [hptrs]
        rw [hdrop] at hbn
        exact hall bn (List.mem_cons_of_mem _ hbn)

end Loops

/-! ### iupdate -/

section Update

variable {s : State} {tab : ℕ → Dinode} {c : ℕ → List UInt8} {i : ℕ}

/-- What `iupdate` leaves. -/
def State.put (s : State) (i : ℕ) (d : Dinode) : State :=
  s.setBlock (s.sb.iblock i) (putDinode (s.disk (s.sb.iblock i)) (i % IPB) d)

theorem put_disk {d : Dinode} {x : ℕ} (hx : x ≠ s.sb.iblock i) : (s.put i d).disk x = s.disk x :=
  update_of_ne hx _ _

/-- The inode reaches its place on disk, and the others stay. -/
theorem put_table {d : Dinode} (hi : i < s.sb.ninodes) (hd : d.Small) (htype : d.type ≠ 0) :
    (s.put i d).table = update s.table i d := by
  funext j
  have hsb : (s.put i d).sb = s.sb := rfl
  have hget : getDinode ((s.put i d).disk (s.sb.iblock j)) (j % IPB) = _ :=
    Mkfs.getDinode_update hd j
  rw [State.table, hsb, hget]
  by_cases hji : j = i
  · subst hji
    rw [update_self, update_self, if_pos ⟨hi, htype⟩]
  · rw [update_of_ne hji, update_of_ne hji, State.table]

/-- `iupdate` writes no data. -/
theorem Good.put (h : Good s tab c) (hi : i < s.sb.ninodes) (d : Dinode) :
    Good (s.put i d) tab c ∧ free (s.put i d) = free s := by
  have hiblock := h.geo.iblock i hi
  have hsize : ∀ {b}, b < s.sb.size → s.sb.iblock i < nmeta s.sb := fun hb => by
    have hmap := lt_of_bmapstart h.geo hb
    omega
  have hused : ∀ x < s.sb.size, (s.put i d).used x = s.used x := fun x hx => by
    have hmap := lt_of_bmapstart h.geo hx
    have hsb : (s.put i d).sb = s.sb := rfl
    rw [State.used, hsb, put_disk (by omega), State.used]
  have hptrs : ptr (s.put i d).disk tab = ptr s.disk tab := by
    refine ptr_setData fun j h0 he => ?_
    have hrange := h.ptr_range (q := .addr j NDIRECT) h0
    change nmeta s.sb ≤ (tab j).addrs NDIRECT ∧ (tab j).addrs NDIRECT < s.sb.size at hrange
    have hlt := hsize hrange.2
    omega
  refine ⟨⟨h.geo, ?_, h.small, fun j n hn => ?_, fun j n hn => ?_⟩, ?_⟩
  · rw [hptrs]
    exact h.alloc.congr_bit hused
  · rw [hptrs]
    exact h.here j n hn
  · have hrange := h.ptr_range (h.here j n hn)
    have hlt := hsize hrange.2
    rw [hptrs, put_disk (by omega)]
    exact h.bytes j n hn
  · exact congrArg List.length
      (List.filter_congr fun x hx => by rw [hused x (List.mem_range.mp hx)])

/-- The pointers do not depend on the size. -/
theorem Good.setSize (h : Good s tab c) {n : ℕ} (hn : n < 2 ^ 32) :
    Good s (update tab i { tab i with size := n }) c := by
  have haddrs : ∀ j, (update tab i { tab i with size := n } j).addrs = (tab j).addrs := fun j => by
    by_cases hj : j = i
    · rw [hj, update_self]
    · rw [update_of_ne hj]
  have hptrs : ptr s.disk (update tab i { tab i with size := n }) = ptr s.disk tab :=
    ptr_congr haddrs
  refine ⟨h.geo, by rw [hptrs]; exact h.alloc, fun j => ?_, fun j n hn => ?_, fun j n hn => ?_⟩
  · by_cases hj : j = i
    · rw [hj, update_self]
      exact { h.small i with size := hn }
    · rw [update_of_ne hj]
      exact h.small j
  · rw [hptrs]
    exact h.here j n hn
  · rw [hptrs]
    exact h.bytes j n hn

end Update

/-! ### readi and writei -/

/-- Inode `i` has got the bytes `l`, and nothing else has changed. -/
structure Wrote (i : ℕ) (l : List UInt8) (s s' : State) : Prop where
  consistent : Consistent s'
  sb : s'.sb = s.sb
  table : ∃ a, s'.table = update s.table i { s.table i with size := l.length, addrs := a }
  contents : s'.contents = update s.contents i l

section Calls

variable {s s' : State} {i off n : ℕ} {src l : List UInt8} {H : Panic → Prop}

theorem Wrote.type (h : Wrote i l s s') (j : ℕ) : (s'.table j).type = (s.table j).type := by
  obtain ⟨a, ha⟩ := h.table
  rw [ha]
  by_cases hj : j = i
  · rw [hj, update_self]
  · rw [update_of_ne hj]

theorem Wrote.other (h : Wrote i l s s') {j : ℕ} (hj : j ≠ i) :
    s'.table j = s.table j ∧ s'.contents j = s.contents j := by
  obtain ⟨a, ha⟩ := h.table
  rw [ha, h.contents, update_of_ne hj, update_of_ne hj]
  exact ⟨rfl, rfl⟩

/-- The bytes and the table after a write belong together. -/
theorem wrote_of_good {a : ℕ → ℕ} (h : Consistent s) (hsb : s'.sb = s.sb)
    (htab : s'.table = update s.table i { s.table i with size := l.length, addrs := a })
    (hgood : Good s' s'.table (update s.contents i l)) (hl : l.length ≤ MAXFILE * BSIZE) :
    Wrote i l s s' := by
  have hlen : ∀ j, (s'.table j).size = (update s.contents i l j).length := fun j => by
    by_cases hj : j = i
    · rw [htab, hj, update_self, update_self]
    · rw [htab, update_of_ne hj, update_of_ne hj, length_contents]
  have hmax : ∀ j, (update s.contents i l j).length ≤ MAXFILE * BSIZE := fun j => by
    by_cases hj : j = i
    · rwa [hj, update_self]
    · rw [update_of_ne hj, length_contents]
      exact h.size j
  obtain ⟨hcons, hcont⟩ := hgood.consistent hlen hmax
  exact ⟨hcons, hsb, ⟨a, htab⟩, hcont⟩

theorem maxfile_lt : MAXFILE * BSIZE < 2 ^ 32 := by decide

/-- `writei` where the arguments are in range and the disk has room. -/
theorem wp_writei {Q : Inode × ℤ → State → Prop} (h : Consistent s) (htype : (s.table i).type ≠ 0)
    (hdev : (s.table i).type ≠ T_DEV) (hoff : off ≤ (s.table i).size)
    (hmax : off + src.length ≤ MAXFILE * BSIZE)
    (hneed : need s s.table i (blocksOf off src.length) ≤ free s)
    (hQ : ∀ s', Wrote i (overwrite (s.contents i) off src) s s' →
      Q (⟨i, s'.table i⟩, src.length) s') :
    wp (writei ⟨i, s.table i⟩ off src) Q H s := by
  have hmod : (off + src.length) % 2 ^ 32 = off + src.length :=
    Nat.mod_eq_of_lt (hmax.trans_lt maxfile_lt)
  have hlen : (s.contents i).length = (s.table i).size := length_contents s i
  have hover : (overwrite (s.contents i) off src).length =
      max (s.table i).size (off + src.length) := by
    rw [length_overwrite (by omega), hlen]
  have hsize := h.size i
  simp only [writei, hmod]
  rw [if_neg hdev, if_neg (by omega), if_neg (by omega), wp_bind]
  refine wp_writeLoop h.good (by omega) hmax hneed fun s₁ tab₁ hgrew hgood hsame => ?_
  obtain ⟨a, rfl⟩ := hgrew.grown
  simp only [update_self, wp_ite]
  split
  · next hgrow =>
    -- the file gets longer: its inode is written
    have hi : i < s₁.sb.ninodes := by
      rw [hgrew.sb]
      exact type_ne_zero htype
    generalize hd : ({ s.table i with size := off + src.length, addrs := a } : Dinode) = d
    have hnew : update (update s.table i { s.table i with addrs := a }) i
        { update s.table i { s.table i with addrs := a } i with size := off + src.length } =
          update s.table i d := by
      rw [update_idem, update_self, ← hd]
    have hgood' := hgood.setSize (i := i) (hmax.trans_lt maxfile_lt)
    rw [hnew] at hgood'
    have hsmall := hgood'.small i
    rw [update_self] at hsmall
    have htab : (s₁.put i d).table = update s.table i d := by
      rw [put_table hi hsmall (by rw [← hd]; exact htype), hgrew.table]
    have hwrote : Wrote i (overwrite (s.contents i) off src) s (s₁.put i d) := by
      refine wrote_of_good (a := a) h hgrew.sb ?_ ?_ (by omega)
      · rw [htab, ← hd, hover, max_eq_right hgrow.2.le]
      · rw [htab]
        exact (hgood'.put hi d).1
    have hres := hQ _ hwrote
    rw [htab, update_self] at hres
    subst hd
    exact hres
  · next hgrow =>
    -- all the blocks were there
    have htab := hsame fun bn hbn => by
      have hbn' := Fs.mul_lt_of_mem_blocksOf hbn
      refine h.noHoles i bn ?_
      by_cases h0 : src.length = 0
      · rw [blocksOf, if_pos h0] at hbn
        exact absurd hbn List.not_mem_nil
      · omega
    rw [htab] at hgood
    have hi := congrFun htab i
    rw [update_self] at hi
    have hwrote : Wrote i (overwrite (s.contents i) off src) s s₁ := by
      refine wrote_of_good (a := (s.table i).addrs) h hgrew.sb ?_ (hgrew.table ▸ hgood) (by omega)
      rw [hgrew.table, hover, max_eq_left (by omega)]
      exact (update_eq_self i s.table).symm
    have hres := hQ _ hwrote
    rw [hgrew.table] at hres
    rw [wp_pure, hi]
    exact hres

/-- A write into the file as it is allocates nothing. -/
theorem Consistent.need_eq_zero (h : Consistent s) (hle : off + n ≤ (s.table i).size) :
    need s s.table i (blocksOf off n) = 0 :=
  Data.need_eq_zero fun bn hbn => h.noHoles i bn ((Fs.mul_lt_of_mem_blocksOf hbn).trans_le hle)

/-- `writei` with arguments out of range. -/
theorem writei_of_out (hdev : (s.table i).type ≠ T_DEV) (hoff : off < 2 ^ 32)
    (hn : src.length < 2 ^ 32) (hout : (s.table i).size < off ∨ 2 ^ 32 ≤ off + src.length ∨
      MAXFILE * BSIZE < off + src.length) :
    (writei ⟨i, s.table i⟩ off src).run s = .ok ((⟨i, s.table i⟩, -1), s) := by
  have hover : (off + src.length) % 2 ^ 32 < off ↔ 2 ^ 32 ≤ off + src.length := by omega
  simp only [writei, hover]
  rw [if_neg hdev]
  by_cases h1 : (s.table i).size < off ∨ 2 ^ 32 ≤ off + src.length
  · rw [if_pos h1]
    rfl
  · rw [if_neg h1, if_pos]
    · rfl
    · rw [Nat.mod_eq_of_lt (by omega)]
      omega

/-- A `writei` that gets past its checks does not return -1. -/
theorem wp_writei_ne (hdev : (s.table i).type ≠ T_DEV)
    (hin : ¬ ((s.table i).size < off ∨ 2 ^ 32 ≤ off + src.length ∨
      MAXFILE * BSIZE < off + src.length)) :
    wp (writei ⟨i, s.table i⟩ off src) (fun r _ => r.2 = src.length) (fun _ => True) s := by
  have hmod : (off + src.length) % 2 ^ 32 = off + src.length := Nat.mod_eq_of_lt (by omega)
  simp only [writei, hmod]
  rw [if_neg hdev, if_neg (by omega), if_neg (by omega), wp_bind]
  have hloop : wp (writeLoop ⟨i, s.table i⟩ off src) (fun _ _ => True) (fun _ => True) s := by
    unfold wp
    split <;> trivial
  refine hloop.mono (fun r s' _ => ?_) fun _ => id
  simp only [wp_ite, wp_bind, iupdate, bwrite, wp_get, wp_modify, wp_pure, ite_self]

/-- `readi` returns the bytes there are, and changes nothing. -/
theorem readi_run (h : Consistent s) (hdev : (s.table i).type ≠ T_DEV) (hoff : off < 2 ^ 32)
    (hn : n < 2 ^ 32) : (readi ⟨i, s.table i⟩ off n).run s =
      .ok ((⟨i, s.table i⟩, if (s.table i).size < off ∨ 2 ^ 32 ≤ off + n then none
        else some (((s.contents i).drop off).take n)), s) := by
  have hover : (off + n) % 2 ^ 32 < off ↔ 2 ^ 32 ≤ off + n := by omega
  have hlen : (s.contents i).length = (s.table i).size := length_contents s i
  simp only [readi, hover]
  rw [if_neg hdev]
  split
  · rfl
  next hno =>
  rw [not_or] at hno
  rw [Nat.mod_eq_of_lt (by omega)]
  generalize hm : (if (s.table i).size < off + n then (s.table i).size - off else n) = m
  have hle : off + m ≤ (s.contents i).length := by
    split at hm <;> omega
  have htake : ((s.contents i).drop off).take m = ((s.contents i).drop off).take n := by
    split at hm
    · rw [List.take_of_length_le (by simp; omega), List.take_of_length_le (by simp; omega)]
    · rw [hm]
  have hread : wp (readLoop ⟨i, s.table i⟩ off m)
      (fun r s' => r = (⟨i, s.table i⟩, ((s.contents i).drop off).take m) ∧ s' = s)
      (fun _ => False) s :=
    wp_readLoop h.good (hlen.trans_le (h.size i)) hle ⟨rfl, rfl⟩
  obtain ⟨r, s', hrun, rfl, rfl⟩ := exists_of_wp hread
  rw [StateT.run_bind, hrun, htake]
  rfl

/-- For every file and directory, every offset and every length: `writei` refuses exactly what
lies behind the end, wraps around or is too long, and otherwise replaces bytes of this inode
only; `readi` returns the bytes that are there. -/
theorem files_are_byte_arrays (h : Consistent s)
    (htype : (s.table i).type = T_FILE ∨ (s.table i).type = T_DIR) (hoff : off < 2 ^ 32) :
    (∀ src : List UInt8, src.length < 2 ^ 32 →
      ((s.table i).size < off ∨ 2 ^ 32 ≤ off + src.length ∨ MAXFILE * BSIZE < off + src.length →
        (writei ⟨i, s.table i⟩ off src).run s = .ok ((⟨i, s.table i⟩, -1), s)) ∧
      (∀ ip s', (writei ⟨i, s.table i⟩ off src).run s = .ok ((ip, -1), s') →
        (s.table i).size < off ∨ 2 ^ 32 ≤ off + src.length ∨
          MAXFILE * BSIZE < off + src.length) ∧
      (¬ ((s.table i).size < off ∨ 2 ^ 32 ≤ off + src.length ∨
          MAXFILE * BSIZE < off + src.length) →
        need s s.table i (blocksOf off src.length) ≤ free s →
        ∃ s', (writei ⟨i, s.table i⟩ off src).run s = .ok ((⟨i, s'.table i⟩, src.length), s') ∧
          Consistent s' ∧ s'.contents i = overwrite (s.contents i) off src ∧
          (s'.table i).size =
            (if 0 < src.length then max (s.table i).size (off + src.length)
              else (s.table i).size) ∧
          ∀ j ≠ i, s'.table j = s.table j ∧ s'.contents j = s.contents j)) ∧
    ∀ n < 2 ^ 32, (readi ⟨i, s.table i⟩ off n).run s =
      .ok ((⟨i, s.table i⟩, if (s.table i).size < off ∨ 2 ^ 32 ≤ off + n then none
        else some (((s.contents i).drop off).take (min n ((s.table i).size - off)))), s) := by
  have hdev : (s.table i).type ≠ T_DEV := by
    rcases htype with ht | ht <;> rw [ht] <;> decide
  have h0 : (s.table i).type ≠ 0 := by
    rcases htype with ht | ht <;> rw [ht] <;> decide
  refine ⟨fun src hsrc => ⟨writei_of_out hdev hoff hsrc, fun ip s' hrun => ?_, fun hin hneed => ?_⟩,
    fun n hn => ?_⟩
  · by_contra hin
    have hres := wp_of_run_ok (wp_writei_ne hdev hin) hrun
    simp only at hres
    omega
  · have hwp : wp (writei ⟨i, s.table i⟩ off src)
        (fun r s' => r = (⟨i, s'.table i⟩, (src.length : ℤ)) ∧
          Wrote i (overwrite (s.contents i) off src) s s') (fun _ => False) s :=
      wp_writei h h0 hdev (by omega) (by omega) hneed fun s' hs' => ⟨rfl, hs'⟩
    obtain ⟨r, s', hrun, rfl, hwrote⟩ := exists_of_wp hwp
    have hcont : s'.contents i = overwrite (s.contents i) off src := by
      rw [hwrote.contents, update_self]
    refine ⟨s', hrun, hwrote.consistent, hcont, ?_, fun j => hwrote.other⟩
    have hlen : (s.contents i).length = (s.table i).size := length_contents s i
    rw [← length_contents s' i, hcont, length_overwrite (by omega), hlen]
    split <;> omega
  · rw [readi_run h hdev hoff hn, List.take_eq_take_min]
    simp

end Calls

/-! ### The file system that mkfs writes -/

/-- The image as the kernel finds it. -/
def image (m : Mkfs.State) : State := ⟨Mkfs.sb, m.disk⟩

section Image

variable {m : Mkfs.State} {files : List Mkfs.File}

theorem contents_of_type {i : ℕ} (h : Mkfs.types files i = 0) : Mkfs.contents files i = [] := by
  rw [Mkfs.types] at h
  rw [Mkfs.contents]
  by_cases hroot : i = Fs.ROOTINO
  · rw [if_pos hroot] at h
    exact absurd h (by decide)
  rw [if_neg hroot] at h ⊢
  split
  · rfl
  · next hi =>
    have hge : ¬ (2 ≤ i ∧ i < files.length + 2) := fun hc => by
      rw [if_pos hc] at h
      exact absurd h (by decide)
    rw [List.getElem?_eq_none (by omega)]
    rfl

section

variable (h : Mkfs.Finished m files) (hfiles : files.length + 2 ≤ Mkfs.NINODES)
include h hfiles

/-- Inodes that are not in use are all zero for the kernel. -/
theorem table_image (i : ℕ) :
    (image m).table i = if Mkfs.types files i = 0 then .zero else Mkfs.table m.disk i := by
  have hninodes : (image m).sb.ninodes = Mkfs.NINODES := rfl
  by_cases hi : i < Mkfs.NINODES
  · have hget : Mkfs.table m.disk i = getDinode (m.disk (Mkfs.sb.iblock i)) (i % IPB) :=
      if_pos (hi.trans (by decide))
    have htype := h.type i
    rw [hget] at htype ⊢
    rw [State.table, hninodes]
    simp only [image, htype]
    split_ifs with h1 h2 h2
    · exact absurd h2 h1.2
    · rfl
    · rfl
    · exact absurd ⟨hi, h2⟩ h1
  · have hzero : Mkfs.types files i = 0 := by
      have hroot : i ≠ Fs.ROOTINO := fun he => hi (he ▸ by decide)
      rw [Mkfs.types, if_neg hroot, if_neg (by omega)]
    rw [State.table, hninodes, if_neg fun hc => hi hc.1, if_pos hzero]

theorem ptr_image : ptr m.disk (image m).table = ptr m.disk (Mkfs.table m.disk) := by
  refine ptr_congr fun i => ?_
  rw [table_image h hfiles]
  split
  · next h0 => exact (Mkfs.addrs_eq_zero h.toRest (contents_of_type h0)).symm
  · rfl

/-- `mkfs` leaves a consistent file system, unless the root directory ends with a full block:
its size is rounded up to one block more. -/
theorem consistent_image (hroot : (Mkfs.entries files).length % BSIZE ≠ 0) :
    Consistent (image m) := by
  have hptr := ptr_image h hfiles
  have hcroot : Mkfs.contents files Fs.ROOTINO = Mkfs.entries files := if_pos rfl
  -- the blocks that the size asks for are those that the bytes need
  have hblocks : ∀ i n, n * BSIZE < ((image m).table i).size →
      n * BSIZE < (Mkfs.contents files i).length := fun i n hn => by
    rw [table_image h hfiles] at hn
    split at hn
    · exact absurd hn (Nat.not_lt_zero _)
    · by_cases hi : i = Fs.ROOTINO
      · rw [hi, h.root] at hn
        rw [hi]
        rw [← hcroot] at hroot
        rw [BSIZE] at *
        omega
      · rwa [h.sized i hi] at hn
  have hsize : Mkfs.sb.size ≤ 2 ^ 32 := by decide
  have hmeta : nmeta Mkfs.sb = Mkfs.nmeta := by decide
  have halloc : AllocExact Mkfs.nmeta Mkfs.FSSIZE (ptr m.disk (image m).table) (image m).used := by
    rw [hptr]
    refine h.alloc.congr_bit fun b hb => ?_
    have hlt : b < BPB := hb.trans (by decide)
    rw [State.used, bblock, Nat.div_eq_of_lt hlt, Nat.mod_eq_of_lt hlt, Nat.zero_add]
    exact h.bits b hlt
  refine ⟨⟨fun i hi => ?_, fun b hb => ?_, hsize⟩, hmeta ▸ halloc, fun i n hn => ?_, fun i => ?_⟩
  · have hlt : i < Mkfs.NINODES := hi
    exact (Mkfs.iblock_lt (hlt.trans (by decide))).2
  · have hlt : b < Mkfs.FSSIZE := hb
    change bblock Mkfs.sb b < nmeta Mkfs.sb
    rw [hmeta, bblock, Nat.div_eq_of_lt (hlt.trans (by decide))]
    decide
  · change ptr m.disk (image m).table _ ≠ 0
    rw [hptr]
    exact h.ptr_block_ne_zero (Mkfs.lt_blocksFor.mpr (hblocks i n hn))
  · by_contra hlt
    have hlen := h.toRest.length_le i
    have hmax := hblocks i MAXFILE (not_le.mp hlt)
    rw [Nat.mul_comm] at hlen
    omega

end

/-- The file system with nothing but the root directory, and blocks that are free. -/
theorem exists_image : ∃ m, Mkfs.main [] = .ok m ∧ Consistent (image m) ∧
    ((image m).table Fs.ROOTINO).type = T_DIR ∧ ((image m).table Fs.ROOTINO).size = BSIZE ∧
    0 < free (image m) := by
  have hroom : ([] : List Mkfs.File).length + 2 ≤ Mkfs.room := by decide
  have hlen : (Mkfs.dirent Fs.ROOTINO [46] ++ Mkfs.dirent Fs.ROOTINO [46, 46]).length = 32 := by
    rw [List.length_append, Mkfs.length_dirent, Mkfs.length_dirent]
  rcases Mkfs.main_spec hroom with ⟨m, hm, h⟩ | ⟨-, ⟨f, hf, -⟩ | hover⟩
  · have htable := table_image h (by decide) Fs.ROOTINO
    rw [if_neg (by decide)] at htable
    refine ⟨m, hm, consistent_image h (by decide) (by decide), ?_, ?_, ?_⟩
    · rw [htable, h.type]
      rfl
    · rw [htable, h.root, Mkfs.contents_nil, update_self, hlen]
      rfl
    · -- the block after that of the directory
      have hfb := h.freeblock_eq
      rw [Mkfs.contents_nil] at hfb
      have hle := hfb.trans_le (Mkfs.total_root_le hlen.le)
      have hused : (image m).used (Mkfs.nmeta + Mkfs.size 32) = false := by
        have hbit := h.bits (Mkfs.nmeta + Mkfs.size 32) (by decide)
        rw [decide_eq_false (by omega)] at hbit
        exact hbit
      refine List.length_pos_of_mem (a := Mkfs.nmeta + Mkfs.size 32) (List.mem_filter.mpr ⟨?_, ?_⟩)
      · exact List.mem_range.mpr (show _ < Mkfs.FSSIZE by decide)
      · rw [hused]
        rfl
  · exact absurd hf List.not_mem_nil
  · rw [Mkfs.contents_nil] at hover
    exact absurd hover (Mkfs.not_overflows hlen.le)

/-- Four bytes at the end of the root directory, of which the last two need a new block. -/
theorem files_are_byte_arrays_root : ∃ m, Mkfs.main [] = .ok m ∧ Consistent (image m) ∧
    ((image m).table Fs.ROOTINO).type = T_DIR ∧ ((image m).table Fs.ROOTINO).size = BSIZE ∧
    ∃ s', (writei ⟨Fs.ROOTINO, (image m).table Fs.ROOTINO⟩ 510 [1, 2, 3, 4]).run (image m) =
        .ok ((⟨Fs.ROOTINO, s'.table Fs.ROOTINO⟩, 4), s') ∧ Consistent s' ∧
      s'.contents Fs.ROOTINO = overwrite ((image m).contents Fs.ROOTINO) 510 [1, 2, 3, 4] ∧
      (s'.table Fs.ROOTINO).size = 514 := by
  obtain ⟨m, hm, hcons, htype, hsize, hfree⟩ := exists_image
  refine ⟨m, hm, hcons, htype, hsize, ?_⟩
  generalize image m = s at *
  have hBSIZE : BSIZE = 512 := rfl
  have hmax : MAXFILE * BSIZE = 71680 := rfl
  have hneed : need s s.table Fs.ROOTINO (blocksOf 510 4) ≤ free s := by
    have hblocks : blocksOf 510 4 = [0, 1] := by decide
    have h0 : ptr s.disk s.table (.block Fs.ROOTINO 0) ≠ 0 :=
      hcons.noHoles Fs.ROOTINO 0 (by omega)
    have hmissing : missing s s.table Fs.ROOTINO [0, 1] ≤ 1 := by
      rw [missing, List.filter_cons_of_neg (by simpa using h0)]
      exact List.length_filter_le _ [1]
    rw [hblocks, need, if_neg (by decide)]
    omega
  obtain ⟨s', hrun, hcons', hcont, hsize', -⟩ := ((files_are_byte_arrays hcons (.inr htype)
    (by decide : 510 < 2 ^ 32)).1 [1, 2, 3, 4] (by decide)).2.2 (by simp; omega) hneed
  refine ⟨s', hrun, hcons', hcont, ?_⟩
  rw [hsize', hsize]
  decide

end Image

end Xv6.Data
