import Xv6.Data.Blocks
import Xv6.Lib.Prog

/-!
# Inodes in memory

The cache of inodes and their sleep-locks, as one process uses them while nobody else runs. An
inode of the cache is known by its number. Where nobody has it locked, its copy in memory is the
one on disk, so that only the counts of references and the flags `valid` are kept here. The locks
are those of `Xv6.Lib.Prog`: a process that asks for a lock that it holds waits forever.
-/

namespace Xv6.Data

open Fs (IPB NINODE)
open Mkfs (Dinode getDinode)
open Function

/-- The file system and the cache: every reference to an inode is in `refs`, so that `ref` is the
number of times an inode is there, and it is in the cache if it is there at all. -/
structure Cached where
  fs : State
  refs : List ℕ
  valid : ℕ → Bool

/-- Code that works with inodes. -/
abbrev Op : Type → Type := Prog Cached ℕ Unit Panic

/-- What is done with the blocks. -/
def onDisk {α : Type} (m : M α) : Op α :=
  .atomic fun c => (m.run c.fs).map fun r => (r.1, { c with fs := r.2 })

/-- The inode as it is on disk. -/
def State.dinode (s : State) (inum : ℕ) : Dinode :=
  getDinode (s.disk (s.sb.iblock inum)) (inum % IPB)

/-- One reference more; an inode that comes into the cache is not read yet. -/
def Cached.get (c : Cached) (inum : ℕ) : Cached :=
  { c with
    refs := inum :: c.refs
    valid := if inum ∈ c.refs then c.valid else update c.valid inum false }

def iget (inum : ℕ) : Op Unit :=
  .atomic do
    let c ← get
    if inum ∉ c.refs ∧ NINODE ≤ c.refs.toFinset.card then throw .iget
    else set (c.get inum)

def idup (inum : ℕ) : Op Unit :=
  .atomic (modify fun c => { c with refs := inum :: c.refs })

/-- Reading the inode from disk, the first time its cache entry is locked. -/
def iload (inum : ℕ) : Op Inode :=
  .atomic do
    let c ← get
    if c.valid inum = false ∧ (c.fs.dinode inum).type = 0 then throw .noType
    else
      set { c with valid := update c.valid inum true }
      pure ⟨inum, c.fs.dinode inum⟩

def ilock (inum : ℕ) : Op Inode := do
  let ref ← .read (·.refs.count inum)
  if ref < 1 then .fail .ilock
  else
    .lock inum ()
    iload inum

def iunlock (inum : ℕ) : Op Unit := do
  let held ← .isHeld inum
  let ref ← .read (·.refs.count inum)
  if !held || ref < 1 then .fail .iunlock
  else .unlock inum

def iput (inum : ℕ) : Op Unit := do
  .lock inum ()
  let last ← .read fun c => c.valid inum && (c.fs.dinode inum).nlink == 0 && c.refs.count inum == 1
  if last then .fail .frees
  else
    .unlock inum
    .atomic (modify fun c => { c with refs := c.refs.erase inum })

def iunlockput (inum : ℕ) : Op Unit := do
  iunlock inum
  iput inum

/-! ### Their effect -/

/-- The inode is in the cache, or there is an entry for it. -/
def Cached.HasRoom (c : Cached) (inum : ℕ) : Prop :=
  inum ∈ c.refs ∨ c.refs.toFinset.card < NINODE

/-- A reference less does not free the inode. -/
def Cached.Stays (c : Cached) (inum : ℕ) : Prop :=
  c.valid inum = true → (c.fs.dinode inum).nlink ≠ 0 ∨ c.refs.count inum ≠ 1

section Rules

variable {c : Cached} {inum : ℕ} {h : List ℕ} {H : Stop ℕ Panic → Cached → Prop}
  {Q : Unit → List ℕ → Cached → Prop}

theorem wp_onDisk {α : Type} {m : M α} {Q : α → List ℕ → Cached → Prop}
    (hm : wp m (fun a s => Q a h { c with fs := s }) (fun e => H (.failed e) c) c.fs) :
    Prog.wp (onDisk m) Q H h c := by
  rw [onDisk, wp_prog_atomic]
  cases hrun : m.run c.fs with
  | ok r =>
    have hQ := wp_of_run_ok hm hrun
    refine wp_of_ok ?_ hQ
    exact congrArg (Except.map _) hrun
  | error e =>
    have hH := wp_of_run_error hm hrun
    refine wp_of_error ?_ hH
    exact congrArg (Except.map _) hrun

theorem wp_iget (hroom : c.HasRoom inum) (hQ : Q () h (c.get inum)) :
    Prog.wp (iget inum) Q H h c := by
  simp only [iget, wp_prog_atomic, wp_bind, wp_get]
  rw [if_neg fun hno => hroom.elim hno.1 (Nat.not_lt.mpr hno.2)]
  exact hQ

theorem wp_iget_full (hroom : ¬ c.HasRoom inum) (hH : H (.failed .iget) c) :
    Prog.wp (iget inum) Q H h c := by
  obtain ⟨hmem, hcard⟩ := not_or.mp hroom
  simp only [iget, wp_prog_atomic, wp_bind, wp_get]
  rw [if_pos ⟨hmem, Nat.not_lt.mp hcard⟩]
  exact hH

theorem wp_ilock {Q : Inode → List ℕ → Cached → Prop} (hmem : inum ∈ c.refs) (hfree : inum ∉ h)
    (htype : (c.fs.dinode inum).type ≠ 0)
    (hQ : Q ⟨inum, c.fs.dinode inum⟩ (inum :: h)
      { c with valid := update c.valid inum true }) : Prog.wp (ilock inum) Q H h c := by
  have hcount := List.count_pos_iff.mpr hmem
  simp only [ilock, iload, Prog.wp_bind, Prog.wp_read, Prog.wp_ite, Prog.wp_lock, wp_prog_atomic,
    wp_bind, wp_get]
  rw [if_neg (by omega), if_neg hfree, if_neg fun hno => htype hno.2]
  exact hQ

theorem wp_iunlock (hmem : inum ∈ c.refs) (hheld : inum ∈ h) (hQ : Q () (h.erase inum) c) :
    Prog.wp (iunlock inum) Q H h c := by
  have hcount := List.count_pos_iff.mpr hmem
  simp only [iunlock, Prog.wp_bind, Prog.wp_read, Prog.wp_isHeld, Prog.wp_ite]
  rw [if_neg (by simp [hheld]; omega)]
  exact hQ

theorem wp_iput (hfree : inum ∉ h) (hstays : c.Stays inum)
    (hQ : Q () h { c with refs := c.refs.erase inum }) : Prog.wp (iput inum) Q H h c := by
  simp only [iput, Prog.wp_bind, Prog.wp_read, Prog.wp_ite, Prog.wp_lock, Prog.wp_unlock,
    wp_prog_atomic]
  rw [if_neg hfree, if_neg fun hlast => ?_, List.erase_cons_head]
  · exact hQ
  · simp only [Bool.and_eq_true, beq_iff_eq] at hlast
    exact (hstays hlast.1.1).elim (· hlast.1.2) (· hlast.2)

/-- A reference that was taken is given up again: there is another one, or nobody has read the
inode. -/
theorem stays_get (c : Cached) (inum : ℕ) : (c.get inum).Stays inum := by
  intro hvalid
  by_cases hmem : inum ∈ c.refs
  · have hcount := List.count_pos_iff.mpr hmem
    refine .inr ?_
    rw [Cached.get, List.count_cons_self]
    omega
  · rw [Cached.get] at hvalid
    simp only [if_neg hmem, update_self, Bool.false_eq_true] at hvalid

theorem dinode_eq {s : State} (h : (s.table inum).type ≠ 0) : s.dinode inum = s.table inum := by
  rw [State.table] at h ⊢
  split at h
  · next hi => rw [if_pos hi, State.dinode]
  · exact absurd rfl h

end Rules

end Xv6.Data
