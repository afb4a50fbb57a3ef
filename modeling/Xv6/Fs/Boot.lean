import Mathlib.Algebra.BigOperators.Ring.Finset
import Xv6.Fs.Files

/-!
# The first state

A consistent image, the state in which the kernel starts on it, and the image that
`mkfs` builds when it is given no files.
-/

namespace Xv6.Fs

open Finset Function

/-- The directories are consistent, every inode in use has links and its blocks, and no block is
used twice. -/
structure Image.WellFormed (img : Image) : Prop where
  tree : Tree img.dinode img.sb.ninodes fun _ => 0
  exact : img.Exact
  noHoles : img.NoHoles
  linked : ∀ i, (img.dinode i).type ≠ .free → (img.dinode i).nlink ≠ 0
  shorts : ∀ i, (img.dinode i).type ≠ .free → short (img.dinode i).nlink = (img.dinode i).nlink

/-- After `userinit`. -/
def Image.boot {P : Type} [DecidableEq P] (img : Image) (init : P) : State P where
  toImage := img
  ref i := if i = ROOTINO then 1 else 0
  valid _ := false
  addrs _ _ := 0
  file _ := .closed
  npipes := 0
  pipe _ := ⟨false, false⟩
  proc p := if p = init then .live else .unused
  ofile _ _ := none
  cwd p := if p = init then some ROOTINO else none
  logged := []
  sections := []

section Boot

variable {P : Type} [Fintype P] [DecidableEq P] {img : Image}

theorem holders_boot (img : Image) (init : P) (i : ℕ) :
    holders (img.boot init) i = if i = ROOTINO then 1 else 0 := by
  have hfile : ∀ f, ((img.boot init).file f).type ≠ .inode i := fun f h =>
    FileType.noConfusion (show FileType.none = .inode i from h)
  have hcwd : ∀ p, (img.boot init).cwd p = some i ↔ p = init ∧ i = ROOTINO := fun p => by
    by_cases hp : p = init
    · simp [Image.boot, hp, eq_comm]
    · simp [Image.boot, hp]
  simp only [holders, hfile, hcwd, if_false, sum_const_zero, zero_add]
  by_cases hi : i = ROOTINO
  · simp [hi]
  · simp [hi]

theorem Image.WellFormed.steady (hw : img.WellFormed) (init : P) (t a : Prop) :
    Steady t a (img.boot init) := by
  refine ⟨⟨hw.exact, hw.noHoles, fun i => ?_, fun i hi => ?_, fun i h => Bool.noConfusion h,
    fun i hi h0 => absurd h0 (hw.linked i hi), hw.shorts, ?_⟩,
    ⟨fun _ => hw.tree, fun _ _ d hd hl => ?_⟩,
    fun p => ?_⟩
  · rw [holders_boot]
    rfl
  · rw [holders_boot] at hi
    have hroot : i = ROOTINO := by
      by_contra hne
      rw [if_neg hne] at hi
      exact Nat.lt_irrefl 0 hi
    rw [hroot]
    exact Tree.not_free_of_live hw.tree.root.1
  · exact ⟨fun _ _ => rfl, fun _ _ h => FileType.noConfusion h, fun _ _ h => FileType.noConfusion h⟩
  · have hd : (img.dinode d).type = .dir := hd
    exact absurd (hw.tree.nlink_eq_zero hd hl) (hw.linked d (by rw [hd]; decide))
  · by_cases hp : p = init
    · simp [Image.boot, hp]
    · simp [Image.boot, hp]

end Boot

/-! ### The image of mkfs -/

/-- The root directory takes a whole block. -/
def mkfsRoot : Dinode where
  type := .dir
  major := 0
  minor := 0
  nlink := 1
  entries := ⟨ROOTINO, dot⟩ :: ⟨ROOTINO, dotdot⟩ :: List.replicate 30 .empty
  data := []
  addrs k := if k = 0 then 59 else 0

/-- `mkfs` without files: 1000 blocks, of which 59 hold metadata, and 200 inodes. -/
def mkfs : Image where
  sb := ⟨1000, 941, 200, 32, 58⟩
  dinode i := if i = ROOTINO then mkfsRoot else .zero
  bitmap b := b < 60
  word _ _ := 0

theorem mkfs_type {i : ℕ} : (mkfs.dinode i).type ≠ .free ↔ i = ROOTINO := by
  by_cases hi : i = ROOTINO
  · simp [mkfs, hi, mkfsRoot]
  · simp [mkfs, hi, Dinode.zero]

theorem mkfs_root : mkfs.dinode ROOTINO = mkfsRoot := rfl

theorem mkfs_live {i : ℕ} (h : (mkfs.dinode i).Live) : i = ROOTINO :=
  mkfs_type.mp (Tree.not_free_of_live h)

theorem mkfs_dir {i : ℕ} (h : (mkfs.dinode i).type = .dir) : i = ROOTINO :=
  mkfs_type.mp (by rw [h]; decide)

theorem mkfs_shape : Shape ROOTINO ROOTINO mkfsRoot.entries :=
  ⟨List.replicate 30 .empty, rfl, fun _ he h0 => absurd (List.eq_of_mem_replicate he ▸ rfl) h0⟩

theorem mkfs_total (q : Dirent → Bool) : total mkfs.dinode 200 q = mkfsRoot.count q := by
  rw [total, Finset.sum_eq_single ROOTINO (fun i _ hi => ?_) (by simp [ROOTINO]), mkfs_root]
  exact count_of_not_live fun h => hi (mkfs_live h)

theorem mkfs_tree : Tree mkfs.dinode 200 fun _ => 0 := by
  have hlive : mkfsRoot.Live := by decide
  have hnames : total mkfs.dinode 200 (Dirent.names ROOTINO) = 0 := by
    rw [mkfs_total]
    decide
  have hups : total mkfs.dinode 200 (Dirent.ups ROOTINO) = 1 := by
    rw [mkfs_total]
    decide
  constructor
  · decide
  · intro i hi
    rw [mkfs_type.mp hi]
    decide
  · rw [mkfs_root]
    exact ⟨hlive, rfl⟩
  · intro d hd
    obtain rfl := mkfs_dir hd
    rw [mkfs_root]
    exact mkfs_shape
  · intro d hd
    obtain rfl := mkfs_live hd
    rw [mkfs_root]
    change (mkfs.dinode ROOTINO).Live
    rwa [mkfs_root]
  · intro d hd e he h0 h1 h2
    obtain rfl := mkfs_live hd
    rw [mkfs_root] at he
    have hall : ∀ e ∈ mkfsRoot.entries, e.inum = 0 ∨ e.name = dot ∨ e.name = dotdot := by decide
    rcases hall e he with h | h | h
    · exact absurd h h0
    · exact absurd h h1
    · exact absurd h h2
  · intro i hi
    obtain rfl := mkfs_type.mp hi
    rw [hnames, hups, mkfs_root]
    rfl
  · intro d hd
    obtain rfl := mkfs_live hd
    rw [hnames]
    rfl
  · intro d hd hl
    obtain rfl := mkfs_dir hd
    rw [mkfs_root] at hl
    exact absurd hlive hl

theorem mkfs_ptr {x : Pointer} (h : mkfs.ptr x ≠ 0) : x = .addr ROOTINO 0 ∧ mkfs.ptr x = 59 := by
  cases x with
  | addr i k =>
    have hin : ¬ ((mkfs.dinode i).type = .free ∨ NDIRECT < k) := fun hf => h (if_pos hf)
    have hptr : mkfs.ptr (.addr i k) = (mkfs.dinode i).addrs k := if_neg hin
    obtain rfl := mkfs_type.mp (not_or.mp hin).1
    have hk : k = 0 := by
      by_contra hk
      rw [hptr, mkfs_root] at h
      exact h (if_neg hk)
    subst hk
    exact ⟨rfl, hptr⟩
  | entry i j =>
    refine absurd ?_ h
    simp only [Image.ptr]
    split_ifs
    · rfl
    · rfl

theorem mkfs_exact : mkfs.Exact := by
  have hroot : mkfs.ptr (.addr ROOTINO 0) = 59 := by decide
  refine ⟨by decide, fun x hx => ?_, fun x y hx hxy => ?_, fun b hb => ?_⟩
  · rw [(mkfs_ptr hx).2]
    decide
  · have hy : mkfs.ptr y ≠ 0 := hxy ▸ hx
    rw [(mkfs_ptr hx).1, (mkfs_ptr hy).1]
  · change decide (b < 60) = true ↔ b < 59 ∨ ∃ x, mkfs.ptr x = b
    rw [decide_eq_true_eq]
    constructor
    · intro hlt
      by_cases h59 : b = 59
      · exact Or.inr ⟨_, hroot.trans h59.symm⟩
      · exact Or.inl (by omega)
    · rintro (h | ⟨x, hx⟩)
      · omega
      · by_cases h0 : mkfs.ptr x = 0
        · omega
        · have := (mkfs_ptr h0).2
          omega

theorem mkfs_noHoles : mkfs.NoHoles := by
  intro i hi bn hbn
  obtain rfl := mkfs_type.mp hi
  have hsize : (mkfs.dinode ROOTINO).size = 512 := by decide
  rw [hsize] at hbn
  have h0 : bn = 0 := by
    simp only [BSIZE] at hbn
    omega
  rw [h0]
  decide

theorem mkfs_wellFormed : mkfs.WellFormed where
  tree := mkfs_tree
  exact := mkfs_exact
  noHoles := mkfs_noHoles
  linked i hi := by
    rw [mkfs_type.mp hi, mkfs_root]
    decide
  shorts i hi := by
    rw [mkfs_type.mp hi, mkfs_root]
    decide

end Xv6.Fs
