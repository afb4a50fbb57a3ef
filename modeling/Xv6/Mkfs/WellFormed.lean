import Xv6.Mkfs.Build

/-!
# The image of mkfs

`mkfs` asserts that a file has at most `MAXFILE` blocks and stops when the image is
full, but it does not look at the number of inodes, and it rounds the size of the
root directory up to the next multiple of `BSIZE` even if it is one already.
-/

namespace Xv6.Mkfs

open Fs (BSIZE NDIRECT NINDIRECT MAXFILE IPB DIRENT ROOTINO Pointer)
open Bytes Function

/-- No block is written in two roles; no block has two pointers and those that have one are data
blocks; the bitmap marks the blocks below `freeblock`; and every inode has the blocks below its
size. -/
structure WellFormed (s : State) : Prop where
  areas : ∀ a a' b, (a, b) ∈ s.written → (a', b) ∈ s.written → a ≠ .clear → a' ≠ .clear → a = a'
  range : ∀ q, ptr s.disk (table s.disk) q ≠ 0 →
    nmeta ≤ ptr s.disk (table s.disk) q ∧ ptr s.disk (table s.disk) q < FSSIZE
  distinct : ∀ q q', ptr s.disk (table s.disk) q ≠ 0 →
    ptr s.disk (table s.disk) q = ptr s.disk (table s.disk) q' → q = q'
  bits : ∀ b < BSIZE * 8, (bit (s.disk sb.bmapstart) b = true ↔ b < s.freeblock)
  blocks : ∀ i n, n * BSIZE < (table s.disk i).size → ptr s.disk (table s.disk) (.block i n) ≠ 0

/-! ### What is written stays written -/

/-- Inode numbers stay and nothing is taken back. -/
structure Grows (s s' : State) : Prop where
  written : s.written ⊆ s'.written
  freeinode : s'.freeinode = s.freeinode

namespace Grows

variable {s s' s₁ s₂ s₃ : State} {p : List UInt8}

theorem refl (s : State) : Grows s s := ⟨List.Subset.refl _, rfl⟩

theorem trans (h : Grows s₁ s₂) (h' : Grows s₂ s₃) : Grows s₁ s₃ :=
  ⟨List.Subset.trans h.written h'.written, h'.freeinode.trans h.freeinode⟩

theorem wsect (a : Area) (x : ℕ) (b : Block) (s : State) : Grows s (wsect a x b s) :=
  ⟨List.subset_cons_self _ _, rfl⟩

theorem bind_ok {ε α β : Type} {x : Except ε α} {f : α → Except ε β} {r : β}
    (h : (x >>= f) = .ok r) : ∃ a, x = .ok a ∧ f a = .ok r := by
  cases x with
  | error e => cases h
  | ok a => exact ⟨a, rfl, h⟩

theorem winode {i : ℕ} {d : Dinode} (h : winode i d s = .ok s') :
    Grows s s' ∧ (.inode, sector (sb.iblock i)) ∈ s'.written := by
  obtain ⟨b, -, h⟩ := bind_ok h
  obtain rfl := Except.ok.inj h
  exact ⟨wsect _ _ _ _, List.mem_cons_self⟩

theorem entryFor {n x : ℕ} {d d' : Dinode} (h : entryFor n d s = .ok (x, d', s')) : Grows s s' := by
  obtain ⟨b, -, h⟩ := bind_ok h
  split at h
  · obtain rfl := (Prod.ext_iff.mp (Prod.ext_iff.mp (Except.ok.inj h)).2).2
    have hfree : Grows s { s with freeblock := s.freeblock + 1 } := ⟨List.Subset.refl _, rfl⟩
    exact hfree.trans (wsect _ _ _ _)
  · obtain rfl := (Prod.ext_iff.mp (Prod.ext_iff.mp (Except.ok.inj h)).2).2
    exact refl s

theorem blockFor {n x : ℕ} {d d' : Dinode} (h : blockFor n d s = .ok (x, d', s')) : Grows s s' := by
  have hfree : Grows s { s with freeblock := s.freeblock + 1 } := ⟨List.Subset.refl _, rfl⟩
  rw [Mkfs.blockFor] at h
  split_ifs at h
  · obtain rfl := (Prod.ext_iff.mp (Prod.ext_iff.mp (Except.ok.inj h)).2).2
    exact hfree
  · obtain rfl := (Prod.ext_iff.mp (Prod.ext_iff.mp (Except.ok.inj h)).2).2
    exact refl s
  · exact hfree.trans (entryFor h)
  · exact entryFor h

theorem iappendRound {off n : ℕ} {d d' : Dinode} (h : iappendRound off n p d s = .ok (d', s')) :
    Grows s s' := by
  rw [Mkfs.iappendRound] at h
  split_ifs at h with hmax
  · obtain ⟨⟨x, d₁, s₁⟩, hblock, h⟩ := bind_ok h
    obtain ⟨b, -, h⟩ := bind_ok h
    obtain rfl := (Prod.ext_iff.mp (Except.ok.inj h)).2
    exact (blockFor hblock).trans (wsect _ _ _ _)
  · obtain ⟨-, h, -⟩ := bind_ok h
    cases h

theorem iappendLoop {off off' : ℕ} {d d' : Dinode}
    (h : iappendLoop off p d s = .ok (off', d', s')) : Grows s s' := by
  induction hlen : p.length using Nat.strong_induction_on generalizing off p d s with
  | _ len ih =>
    subst hlen
    by_cases hp : p = []
    · subst hp
      rw [iappendLoop_nil] at h
      obtain rfl := (Prod.ext_iff.mp (Prod.ext_iff.mp (Except.ok.inj h)).2).2
      exact refl s
    · rw [iappendLoop_round hp] at h
      obtain ⟨⟨d₁, s₁⟩, hround, h⟩ := bind_ok h
      have hpos := chunk_pos off hp
      have hplen := List.length_pos_iff.mpr hp
      exact (iappendRound hround).trans (ih _ (by rw [List.length_drop]; omega) h rfl)

theorem iappend {i : ℕ} (h : iappend i p s = .ok s') : Grows s s' := by
  obtain ⟨d, -, h⟩ := bind_ok h
  obtain ⟨⟨off, d', s₁⟩, hloop, h⟩ := bind_ok h
  exact (iappendLoop hloop).trans (winode h).1

theorem reads {i : ℕ} {l : List (List UInt8)}
    (h : l.foldlM (fun s p => Mkfs.iappend i p s) s = .ok s') : Grows s s' := by
  induction l generalizing s with
  | nil =>
    obtain rfl := Except.ok.inj h
    exact refl s
  | cons p l ih =>
    rw [List.foldlM_cons] at h
    obtain ⟨s₁, hp, h⟩ := bind_ok h
    exact (iappend hp).trans (ih h)

end Grows

section Written

variable {s s' : State} {files : List File} {f : File} {root : ℕ}

open Grows (bind_ok)

theorem addFile_written (h : addFile root s f = .ok s') : s.written ⊆ s'.written ∧
    s'.freeinode = s.freeinode + 1 ∧ (.inode, sector (sb.iblock s.freeinode)) ∈ s'.written := by
  rw [addFile] at h
  split_ifs at h with hslash
  · obtain ⟨-, h, -⟩ := bind_ok h
    cases h
  · obtain ⟨⟨inum, s₁⟩, hialloc, h⟩ := bind_ok h
    obtain ⟨s₂, hwinode, hs₂⟩ := bind_ok hialloc
    obtain ⟨rfl, rfl⟩ := Prod.ext_iff.mp (Except.ok.inj hs₂)
    obtain ⟨s₃, hentry, hreads⟩ := bind_ok h
    obtain ⟨hgrows, hmem⟩ := Grows.winode hwinode
    have hrest := (Grows.iappend hentry).trans (.reads hreads)
    exact ⟨List.Subset.trans hgrows.written hrest.written, hrest.freeinode.trans hgrows.freeinode,
      hrest.written hmem⟩

/-- The inode of every file is written. -/
theorem addFiles_written (h : files.foldlM (addFile root) s = .ok s') : s.written ⊆ s'.written ∧
    ∀ j, s.freeinode ≤ j → j < s.freeinode + files.length →
      (.inode, sector (sb.iblock j)) ∈ s'.written := by
  induction files generalizing s with
  | nil =>
    obtain rfl := Except.ok.inj h
    exact ⟨List.Subset.refl _, fun j hle hlt => absurd hlt (Nat.not_lt.mpr hle)⟩
  | cons f files ih =>
    rw [List.foldlM_cons] at h
    obtain ⟨s₁, hf, h⟩ := bind_ok h
    obtain ⟨hsub, hfree, hmem⟩ := addFile_written hf
    obtain ⟨hsub', hmem'⟩ := ih h
    refine ⟨List.Subset.trans hsub hsub', fun j hle hlt => ?_⟩
    rcases Nat.eq_or_lt_of_le hle with rfl | hgt
    · exact hsub' hmem
    · rw [List.length_cons] at hlt
      exact hmem' j (by omega) (by omega)

theorem addFiles_slash (h : files.foldlM (addFile root) s = .ok s') : ∀ f ∈ files, 47 ∉ f.name := by
  induction files generalizing s with
  | nil => simp
  | cons g files ih =>
    rw [List.foldlM_cons] at h
    obtain ⟨s₁, hg, h⟩ := bind_ok h
    refine List.forall_mem_cons.mpr ⟨fun hslash => ?_, ih h⟩
    rw [addFile, if_pos hslash] at hg
    cases hg

/-- If `mkfs` gets to `exit(0)`, no name has a slash. -/
theorem main_slash (h : main files = .ok s) : ∀ f ∈ files, 47 ∉ f.name := by
  obtain ⟨s₀, -, -, hmain⟩ := main_root
  rw [hmain] at h
  obtain ⟨s₁, hfiles, -⟩ := bind_ok h
  exact addFiles_slash hfiles

theorem main_written (h : main files = .ok s) : (.bitmap, sb.bmapstart) ∈ s.written ∧
    ∀ j, 2 ≤ j → j < files.length + 2 → (.inode, sector (sb.iblock j)) ∈ s.written := by
  obtain ⟨s₀, -, hfree, hmain⟩ := main_root
  rw [hmain] at h
  obtain ⟨s₁, hfiles, h⟩ := bind_ok h
  obtain ⟨d, -, h⟩ := bind_ok h
  obtain ⟨s₂, hwinode, h⟩ := bind_ok h
  have hsub := (Grows.winode hwinode).1.written
  have hmem := (addFiles_written hfiles).2
  rw [hfree] at hmem
  rw [balloc] at h
  split_ifs at h
  obtain rfl := Except.ok.inj h
  have hsec : sector sb.bmapstart = sb.bmapstart := sector_of_lt (by decide)
  rw [wsect, hsec]
  exact ⟨List.mem_cons_self, fun j hle hlt => List.mem_cons_of_mem _ (hsub (hmem j hle (by omega)))⟩

end Written

theorem length_entries (files : List File) :
    (entries files).length = DIRENT * (files.length + 2) := by
  have hfiles : ∀ n, ((files.mapIdx fun k f => dirent (k + n) f.entry).flatten).length =
      16 * files.length := by
    intro n
    induction files generalizing n with
    | nil => rfl
    | cons f files ih =>
      have := ih (n + 1)
      simp only [List.mapIdx_cons, List.flatten_cons, List.length_append, length_dirent,
        List.length_cons]
      simp only [Nat.add_assoc, Nat.add_comm 1] at this ⊢
      omega
  rw [entries, List.length_append, List.length_append, length_dirent, length_dirent, hfiles, DIRENT]
  omega

theorem Area.eq_of_has {a a' : Area} {b : ℕ} (h : a.Has b) (h' : a'.Has b) (ha : a ≠ .clear)
    (ha' : a' ≠ .clear) : a = a' := by
  have hstart : 2 + nlog = 32 := rfl
  have hbmap : sb.bmapstart = 58 := rfl
  have hmeta : nmeta = 59 := rfl
  cases a <;> cases a' <;> simp only [Area.Has, hstart, hbmap, hmeta] at h h' <;>
    first
    | rfl
    | exact absurd rfl ha
    | exact absurd rfl ha'
    | omega

theorem ptr_block_of_ge {disk : ℕ → Block} {tab : ℕ → Dinode} {i n : ℕ} (hn : MAXFILE ≤ n) :
    ptr disk tab (.block i n) = 0 := by
  have hle : NDIRECT + NINDIRECT ≤ n := hn
  rw [Pointer.block, if_neg (by omega), ptr, if_pos (.inr (by omega))]

theorem lt_blocksFor {n len : ℕ} : n < blocksFor len ↔ n * BSIZE < len := by
  rw [blocksFor, BSIZE]
  omega

section Finished

variable {s : State} {files : List File}

theorem Finished.root_eq (h : Finished s files) : (table s.disk ROOTINO).size =
    (DIRENT * (files.length + 2) / BSIZE + 1) * BSIZE := by
  rw [h.root, contents, if_pos rfl, length_entries]

theorem Finished.root_missing (h : Finished s files)
    (hmod : DIRENT * (files.length + 2) % BSIZE = 0) :
    ptr s.disk (table s.disk) (.block ROOTINO (DIRENT * (files.length + 2) / BSIZE)) = 0 := by
  by_cases hn : DIRENT * (files.length + 2) / BSIZE < MAXFILE
  · by_contra hne
    have hlt := (h.blocks ROOTINO _ hn).mp hne
    rw [contents, if_pos rfl, length_entries, lt_blocksFor, Nat.div_mul_cancel
      (Nat.dvd_of_mod_eq_zero hmod)] at hlt
    exact lt_irrefl _ hlt
  · exact ptr_block_of_ge (Nat.le_of_not_lt hn)

theorem Finished.wellFormed (h : Finished s files)
    (hmod : DIRENT * (files.length + 2) % BSIZE ≠ 0) : WellFormed s where
  areas a a' b hb hb' := Area.eq_of_has (h.written _ hb) (h.written _ hb')
  range q hq := h.alloc.range q hq
  distinct := h.alloc.inj
  bits b hb := by rw [h.bits b hb, decide_eq_true_iff]
  blocks i n hn := by
    refine h.ptr_block_ne_zero ?_
    rw [lt_blocksFor]
    by_cases hi : i = ROOTINO
    · rw [hi, h.root_eq] at hn
      rw [hi, contents, if_pos rfl, length_entries]
      rw [BSIZE] at *
      omega
    · rwa [h.sized i hi] at hn

end Finished

/-- An image that `mkfs` leaves is well-formed if and only if the inodes fit into the inode blocks
and the entries of the root directory do not fill its last block. -/
theorem wellFormed_iff {files : List File} {s : State} (h : main files = .ok s) : WellFormed s ↔
    files.length + 2 ≤ ninodeblocks * IPB ∧ DIRENT * (files.length + 2) % BSIZE ≠ 0 := by
  by_cases hroom : files.length + 2 ≤ room
  · obtain ⟨s', hs', hfin⟩ | ⟨⟨e, he⟩, -⟩ := main_spec hroom
    · obtain rfl : s' = s := Except.ok.inj (hs'.symm.trans h)
      refine ⟨fun hw => ⟨hroom, fun hmod => ?_⟩, fun ⟨_, hmod⟩ => hfin.wellFormed hmod⟩
      refine hw.blocks ROOTINO _ ?_ (hfin.root_missing hmod)
      rw [hfin.root_eq, Nat.add_mul, Nat.one_mul]
      exact Nat.lt_add_of_pos_right (by decide)
    · rw [he] at h
      cases h
  · -- the inode after the last one of the inode blocks is written over the bitmap
    refine iff_of_false (fun hw => ?_) fun hcond => hroom hcond.1
    obtain ⟨hbitmap, hinode⟩ := main_written h
    have hmem := hinode room (by decide) (by omega)
    have hblock : sector (sb.iblock room) = sb.bmapstart := by decide
    rw [hblock] at hmem
    exact absurd (hw.areas _ _ _ hmem hbitmap (by decide) (by decide)) (by decide)

/-- Files that fit make `mkfs` get to `exit(0)`. -/
theorem main_ok (files : List File) (hroom : files.length + 2 ≤ room)
    (hslash : ∀ f ∈ files, 47 ∉ f.name) (hfiles : ∀ f ∈ files, f.content.length ≤ MAXFILE * BSIZE)
    (htotal : total (contents files) ≤ FSSIZE) : ∃ s, main files = .ok s ∧ Finished s files := by
  refine (main_spec hroom).resolve_right ?_
  rintro ⟨-, ⟨f, hf, hmem⟩ | ⟨i, hi⟩ | hover⟩
  · exact hslash f hf hmem
  · rw [contents] at hi
    split_ifs at hi with hroot h2
    · rw [length_entries] at hi
      have : files.length + 2 ≤ 208 := hroom
      rw [DIRENT, MAXFILE, NDIRECT, NINDIRECT, BSIZE] at hi
      omega
    · exact absurd hi (Nat.not_lt_zero _)
    · cases hget : files[i - 2]? with
      | none =>
        rw [hget] at hi
        exact absurd hi (Nat.not_lt_zero _)
      | some f =>
        rw [hget] at hi
        exact absurd hi (Nat.not_lt.mpr (hfiles f (List.mem_of_getElem? hget)))
  · exact absurd hover (Nat.not_lt.mpr htotal)

/-- A file with two lines. -/
def twoLines : File where
  name := [95, 97]
  reads := [[97, 10], [98, 10]]
  nul := by decide
  reads_ne := by decide
  reads_le := by decide

theorem wellFormed_iff_twoLines : ∃ s, main [twoLines] = .ok s ∧ WellFormed s := by
  obtain ⟨s, hs, -⟩ := main_ok [twoLines] (by decide) (by decide) (by decide)
    (by decide +kernel)
  exact ⟨s, hs, (wellFormed_iff hs).mpr (by decide)⟩

/-- Thirty empty files. -/
def thirty : List File := (List.finRange 30).map fun k : Fin 30 =>
  { name := [UInt8.ofNat (97 + k.val)]
    reads := []
    nul := by revert k; decide
    reads_ne := by simp
    reads_le := by simp }

/-- Thirty-two entries fill a block. The root directory has two blocks by its size, but only
one is allocated. -/
theorem root_without_block : ∃ s, main thirty = .ok s ∧
    (table s.disk ROOTINO).size = 2 * BSIZE ∧
    ptr s.disk (table s.disk) (.block ROOTINO 1) = 0 ∧ ¬ WellFormed s := by
  obtain ⟨s, hs, hfin⟩ := main_ok thirty (by decide) (by decide) (by decide)
    (by decide +kernel)
  have hsize := hfin.root_eq
  have hptr := hfin.root_missing (by decide)
  exact ⟨s, hs, hsize, hptr, fun hw => hw.blocks ROOTINO 1 (by rw [hsize]; decide) hptr⟩

end Xv6.Mkfs
