import Mathlib.Algebra.Order.BigOperators.Group.Finset
import Mathlib.Data.Fintype.BigOperators
import Mathlib.Data.Fintype.Option
import Xv6.Fs.Syscall
import Xv6.Fs.Update
import Xv6.Lib.Sum

/-!
# Open files and transactions

The references to inodes that outlive a call are those of open files and current
directories. Here is what the functions of `file.c` and `pipe.c` do to them when a
call runs on its own, and what a section of a transaction leaves in the log.
-/

namespace Xv6.Fs

open Finset Function

variable {P : Type}

/-- The open files and current directories that refer to an inode. -/
def holders [Fintype P] (s : State P) (i : ℕ) : ℕ :=
  (∑ f, if (s.file f).type = .inode i then 1 else 0) + ∑ p, if s.cwd p = some i then 1 else 0

/-- Processes that run have a current directory, and no others. -/
def Procs (s : State P) : Prop := ∀ p, s.cwd p ≠ none ↔ s.proc p = .live

/-- At most `MAXOPBLOCKS` blocks, if there is a single bitmap block. -/
def Small (sb : Superblock) (lg : List ℕ) : Prop :=
  ∃ l : List ℕ, l.length + 1 ≤ MAXOPBLOCKS ∧ ∀ x ∈ lg, (∃ b < sb.size, x = sb.bblock b) ∨ x ∈ l

/-- The sections since `s` fit into the log. -/
def Sections (s s' : State P) : Prop :=
  ∃ new, s'.sections = new ++ s.sections ∧ ∀ lg ∈ new, Small s.sb lg

/-- What holds between calls. -/
structure Steady [Fintype P] (t a : Prop) (s : State P) : Prop where
  cache : Cache (holders s) [] [] s
  names : Names t a (fun _ => 0) s
  procs : Procs s

/-- What holds after a call. -/
structure Done [Fintype P] (t a : Prop) (s s' : State P) : Prop extends Steady t a s' where
  sb : s'.sb = s.sb
  sections : Sections s s'

/-- Run on its own, the call ends in a steady state and with `R`, or stops as it may. -/
def Ends [Fintype P] (t a : Prop) (s : State P) (c : Op P ℤ) (R : ℤ → State P → Prop) : Prop :=
  Prog.wp c (fun r h s' => h = [] ∧ Done t a s s' ∧ R r s') (fun e _ => Tolerable t a e) [] s

/-- After `begin_op`. -/
def State.begun (s : State P) : State P := { s with logged := [] }

/-- After `end_op`. -/
def State.ended (s : State P) : State P := { s with sections := s.logged :: s.sections }

/-- From `s` to `s'` descriptors may change, but not current directories. -/
structure Later (s s' : State P) : Prop where
  sb : s'.sb = s.sb
  cwd : s'.cwd = s.cwd
  proc : s'.proc = s.proc
  sections : Sections s s'

/-! ### Sections -/

section Sections

variable {s s' s'' : State P} {l : List ℕ} {h : List ℕ} {hold : ℕ → ℕ} {own walk : List ℕ}
  {Q : Unit → List ℕ → State P → Prop} {H : Stop ℕ Panic → State P → Prop}

@[simp] theorem wp_beginOp : Prog.wp beginOp Q H h s = Q () h s.begun := rfl

@[simp] theorem wp_endOp : Prog.wp endOp Q H h s = Q () h s.ended := rfl

theorem Cache.begun (hc : Cache hold own walk s) : Cache hold own walk s.begun :=
  { hc with files := { hc.files with } }

theorem Cache.ended (hc : Cache hold own walk s) : Cache hold own walk s.ended :=
  { hc with files := { hc.files with } }

theorem Names.begun {t a : Prop} {pend : ℕ → ℕ} (hn : Names t a pend s) : Names t a pend s.begun :=
  hn.of_dinode rfl rfl

theorem Names.ended {t a : Prop} {pend : ℕ → ℕ} (hn : Names t a pend s) : Names t a pend s.ended :=
  hn.of_dinode rfl rfl

theorem Sections.refl (s : State P) : Sections s s := ⟨[], rfl, by simp⟩

theorem Sections.trans (h : Sections s s') (h' : Sections s' s'') (hsb : s'.sb = s.sb) :
    Sections s s'' := by
  obtain ⟨n, hn, hs⟩ := h
  obtain ⟨n', hn', hs'⟩ := h'
  refine ⟨n' ++ n, by rw [hn', hn, List.append_assoc], fun lg hlg => ?_⟩
  rcases List.mem_append.mp hlg with hlg | hlg
  · exact hsb ▸ hs' lg hlg
  · exact hs lg hlg

/-- A whole section. -/
theorem Sections.of_inside (hin : Inside l s.begun s') (hl : l.length + 1 ≤ MAXOPBLOCKS) :
    Sections s s'.ended := by
  refine ⟨[s'.logged], congrArg (_ :: ·) hin.sections, fun lg hlg => ?_⟩
  rw [List.mem_singleton.mp hlg]
  exact ⟨l, hl, fun x hx => (hin.logs x hx).resolve_left (by simp [State.begun])⟩

theorem Later.refl (s : State P) : Later s s := ⟨rfl, rfl, rfl, .refl s⟩

theorem Later.trans (h : Later s s') (h' : Later s' s'') : Later s s'' :=
  ⟨h'.sb.trans h.sb, h'.cwd.trans h.cwd, h'.proc.trans h.proc, h.sections.trans h'.sections h.sb⟩

theorem Later.of_inside (hin : Inside l s.begun s') (hl : l.length + 1 ≤ MAXOPBLOCKS) :
    Later s s'.ended :=
  ⟨hin.sb, hin.cwd, hin.proc, .of_inside hin hl⟩

end Sections

/-! ### Holders -/

section Holders

variable [Fintype P] {s s' : State P} {i : ℕ}

theorem holders_congr (hf : s'.file = s.file) (hc : s'.cwd = s.cwd) : holders s' = holders s := by
  funext i
  rw [holders, hf, hc, holders]

theorem holders_pos_of_file {f : Fin NFILE} (h : (s.file f).type = .inode i) : 0 < holders s i := by
  have : 1 ≤ ∑ f, if (s.file f).type = .inode i then 1 else 0 :=
    le_trans (by simp [h])
      (Finset.single_le_sum (f := fun f => if (s.file f).type = .inode i then 1 else 0)
        (fun _ _ => Nat.zero_le _) (Finset.mem_univ f))
  unfold holders
  omega

theorem holders_pos_of_cwd {p : P} (h : s.cwd p = some i) : 0 < holders s i := by
  have : 1 ≤ ∑ p, if s.cwd p = some i then 1 else 0 :=
    le_trans (by simp [h])
      (Finset.single_le_sum (f := fun p => if s.cwd p = some i then 1 else 0)
        (fun _ _ => Nat.zero_le _) (Finset.mem_univ p))
  unfold holders
  omega

/-- A file is replaced. -/
theorem holders_setFile (f : Fin NFILE) (v : File) (i : ℕ) :
    holders (s.setFile f v) i + (if (s.file f).type = .inode i then 1 else 0) =
      holders s i + if v.type = .inode i then 1 else 0 := by
  have := Finset.sum_update_add_self (g := s.file) (Finset.mem_univ f) v
    fun v : File => if v.type = .inode i then 1 else 0
  have hfile : (s.setFile f v).file = update s.file f v := rfl
  have hcwd : (s.setFile f v).cwd = s.cwd := rfl
  rw [holders, holders, hfile, hcwd]
  omega

theorem holders_setFile_of_iff {f : Fin NFILE} {v : File}
    (h : ∀ i, v.type = .inode i ↔ (s.file f).type = .inode i) :
    holders (s.setFile f v) = holders s := by
  funext i
  have := holders_setFile (s := s) f v i
  simp only [h] at this
  omega

variable [DecidableEq P]

/-- A current directory is replaced. -/
theorem holders_setCwd (p : P) (c : Option ℕ) (i : ℕ) :
    holders { s with cwd := update s.cwd p c } i + (if s.cwd p = some i then 1 else 0) =
      holders s i + if c = some i then 1 else 0 := by
  have := Finset.sum_update_add_self (g := s.cwd) (Finset.mem_univ p) c
    fun c : Option ℕ => if c = some i then 1 else 0
  simp only [holders]
  omega

end Holders

/-! ### Open files -/

section Files

variable {t a : Prop} {pend : ℕ → ℕ} {own walk : List ℕ} {s s' : State P} {h : List ℕ}
  {f : Fin NFILE}

theorem wp_fileunref {Q : FileType × Bool → List ℕ → State P → Prop}
    (hmore : 1 < (s.file f).ref →
      Q (.none, false) h (s.setFile f { s.file f with ref := (s.file f).ref - 1 }))
    (hlast : (s.file f).ref = 1 →
      Q ((s.file f).type, (s.file f).writable) h
        (s.setFile f { s.file f with ref := 0, type := .none })) :
    Prog.wp (fileunref f) Q (fun e _ => Tolerable t a e) h s := by
  simp only [fileunref, wp_prog_atomic, wp_bind, wp_get, wp_ite, wp_set, wp_throw, wp_pure]
  split_ifs with h1 h2
  · trivial
  · exact hmore h2
  · exact hlast (by omega)

/-- Closing a file that refers to nothing yet. -/
theorem wp_fileclose_none {Q : Unit → List ℕ → State P → Prop} (hr : (s.file f).ref = 1)
    (hty : (s.file f).type = .none)
    (hQ : Q () h (s.setFile f { s.file f with ref := 0, type := .none })) :
    Prog.wp (fileclose f) Q (fun e _ => Tolerable t a e) h s := by
  rw [fileclose, Prog.wp_bind]
  refine wp_fileunref (fun h1 => by omega) fun _ => ?_
  rw [hty]
  exact hQ

theorem wp_argfd {p : P} {fd : ℤ} {Q : Option (Fin NOFILE × Fin NFILE) → List ℕ → State P → Prop}
    {H : Stop ℕ Panic → State P → Prop} (hnone : Q none h s)
    (hsome : ∀ fd f, s.ofile p fd = some f → Q (some (fd, f)) h s) :
    Prog.wp (argfd p fd) Q H h s := by
  rw [argfd, Prog.wp_read]
  split_ifs with hfd
  · cases hf : s.ofile p ⟨fd.toNat, hfd.2⟩ with
    | none => exact hnone
    | some f => exact hsome _ f hf
  · exact hnone

/-- The new state of a file, as `Files` sees it. -/
theorem Files.setFile {hold hold' : ℕ → ℕ} (hf : Files hold s) {v : File}
    (hle : ∀ g i, g ≠ f → (s.file g).type = .inode i → 0 < hold' i)
    (hclosed : v.ref = 0 → v.type = .none)
    (hv : ∀ i, v.type = .inode i → 0 < hold' i ∧ (v.writable = true → s.type i ≠ .dir)) :
    Files hold' (s.setFile f v) := by
  constructor
  · intro g hg
    by_cases hgf : g = f
    · subst hgf
      simp only [State.setFile, update_self] at hg ⊢
      exact hclosed hg
    · simp only [State.setFile, update_of_ne hgf] at hg ⊢
      exact hf.closed g hg
  · intro g i hg
    by_cases hgf : g = f
    · subst hgf
      simp only [State.setFile, update_self] at hg
      exact (hv i hg).1
    · simp only [State.setFile, update_of_ne hgf] at hg
      exact hle g i hgf hg
  · intro g i hg hw
    by_cases hgf : g = f
    · subst hgf
      simp only [State.setFile, update_self] at hg hw
      exact (hv i hg).2 hw
    · simp only [State.setFile, update_of_ne hgf] at hg hw
      exact hf.writable g i hg hw

section Holders

variable [Fintype P] {Q : Unit → List ℕ → State P → Prop}

/-- A file changes, but not the inode it refers to. -/
theorem Cache.setFile (hc : Cache (holders s) own walk s) {v : File}
    (htype : ∀ i, v.type = .inode i ↔ (s.file f).type = .inode i)
    (hclosed : v.ref = 0 → v.type = .none) (hw : v.writable = true → (s.file f).writable = true) :
    Cache (holders (s.setFile f v)) own walk (s.setFile f v) := by
  rw [holders_setFile_of_iff htype]
  refine ⟨hc.exact, hc.noHoles, hc.refs, hc.alloc, hc.valid, hc.dead, hc.shorts,
    hc.files.setFile (fun g i _ => hc.files.held g i) hclosed fun i hi => ?_⟩
  have hfi := (htype i).mp hi
  exact ⟨hc.files.held f i hfi, fun h => hc.files.writable f i hfi (hw h)⟩

/-- What a file referred to is left to the call, and the other way round. -/
theorem Cache.moveFile (hc : Cache (holders s) own [] s) {v : File} {own' : List ℕ}
    (hclosed : v.ref = 0 → v.type = .none)
    (hown : ∀ i, own'.count i + (if v.type = .inode i then 1 else 0) =
      own.count i + if (s.file f).type = .inode i then 1 else 0)
    (hv : ∀ i, v.type = .inode i → s.type i ≠ .free ∧ (v.writable = true → s.type i ≠ .dir)) :
    Cache (holders (s.setFile f v)) own' [] (s.setFile f v) := by
  have hsum : ∀ i, holders (s.setFile f v) i + own'.count i =
      holders s i + own.count i := fun i => by
    have h1 := holders_setFile (s := s) f v i
    have h2 := hown i
    omega
  refine ⟨hc.exact, hc.noHoles, fun i => ?_, fun i hi => ?_, hc.valid, fun i hi hl => ?_, hc.shorts,
    hc.files.setFile (fun g i hgf hg => ?_) hclosed fun i hi => ⟨?_, (hv i hi).2⟩⟩
  · rw [hsum]
    exact hc.refs i
  · by_cases hvi : v.type = .inode i
    · exact (hv i hvi).1
    · have h1 := holders_setFile (s := s) f v i
      rw [if_neg hvi] at h1
      exact hc.alloc i (by omega)
  · rw [hsum]
    exact hc.dead i hi hl
  · refine holders_pos_of_file (f := g) ?_
    simpa [State.setFile, hgf] using hg
  · refine holders_pos_of_file (f := f) ?_
    simpa [State.setFile] using hi

theorem wp_filealloc {Q : Option (Fin NFILE) → List ℕ → State P → Prop}
    {H : Stop ℕ Panic → State P → Prop} (hc : Cache (holders s) own walk s)
    (hnone : (∀ f, (s.file f).ref ≠ 0) → Q none h s)
    (hsome : ∀ f, (s.file f).ref = 0 → (s.file f).type = .none →
      Cache (holders (s.setFile f { s.file f with ref := 1 })) own walk
        (s.setFile f { s.file f with ref := 1 }) →
      Q (some f) h (s.setFile f { s.file f with ref := 1 })) :
    Prog.wp filealloc Q H h s := by
  simp only [filealloc, wp_prog_atomic, wp_bind, wp_get]
  cases hf : (List.finRange NFILE).find? fun f => decide ((s.file f).ref = 0) with
  | none =>
    refine hnone fun f hf0 => ?_
    have := List.find?_eq_none.mp hf f (List.mem_finRange f)
    exact this (by simpa using hf0)
  | some f =>
    have h0 : (s.file f).ref = 0 := by simpa using List.find?_some hf
    exact hsome f h0 (hc.files.closed f h0)
      (hc.setFile (fun _ => Iff.rfl) (fun h => absurd h Nat.one_ne_zero) id)

theorem wp_filedup (hc : Cache (holders s) own walk s)
    (hQ : Cache (holders (s.setFile f { s.file f with ref := (s.file f).ref + 1 })) own walk
        (s.setFile f { s.file f with ref := (s.file f).ref + 1 }) →
      Q () h (s.setFile f { s.file f with ref := (s.file f).ref + 1 })) :
    Prog.wp (filedup f) Q (fun e _ => Tolerable t a e) h s := by
  simp only [filedup, wp_prog_atomic, wp_bind, wp_get, wp_ite, wp_set, wp_throw]
  split_ifs
  · trivial
  · exact hQ (hc.setFile (fun _ => Iff.rfl) (fun h => absurd h (Nat.succ_ne_zero _)) id)

theorem wp_fileclose (hc : Cache (holders s) own [] s) (hn : Names t a pend s)
    (hQ : ∀ s', Cache (holders s') own [] s' → Names t a pend s' → Later s s' →
      s'.ofile = s.ofile → Q () h s') :
    Prog.wp (fileclose f) Q (fun e _ => Tolerable t a e) h s := by
  rw [fileclose, Prog.wp_bind]
  refine wp_fileunref (fun h1 => ?_) fun h1 => ?_
  · refine hQ _ (hc.setFile (fun _ => Iff.rfl) (fun h => ?_) id) (hn.of_dinode rfl rfl)
      ⟨rfl, rfl, rfl, .refl s⟩ rfl
    change (s.file f).ref - 1 = 0 at h
    omega
  · set s₁ := s.setFile f { s.file f with ref := 0, type := .none }
    have hn₁ : Names t a pend s₁ := hn.of_dinode rfl rfl
    cases hty : (s.file f).type with
    | none =>
      have hc₁ : Cache (holders s₁) own [] s₁ :=
        hc.moveFile (fun _ => rfl) (fun i => by simp [hty]) (by simp)
      exact hQ _ hc₁ hn₁ ⟨rfl, rfl, rfl, .refl s⟩ rfl
    | pipe k =>
      have hc₁ : Cache (holders s₁) own [] s₁ :=
        hc.moveFile (fun _ => rfl) (fun i => by simp [hty]) (by simp)
      exact hQ _ { hc₁ with files := { hc₁.files with } } (hn₁.of_dinode rfl rfl)
        ⟨rfl, rfl, rfl, .refl s⟩ rfl
    | inode ip =>
      have hc₁ : Cache (holders s₁) (ip :: own) [] s₁ :=
        hc.moveFile (fun _ => rfl) (fun i => by simp [hty, List.count_cons]) (by simp)
      simp only [Prog.wp_bind, wp_beginOp]
      refine wp_iput hc₁.begun fun s₂ hd _ hc₂ => ?_
      rw [wp_endOp]
      have hin := hd.inside
      have hheld : holders s₂ = holders s₁ := holders_congr hin.file hin.cwd
      have hlater : Later s₁ s₂.ended := .of_inside hin (by simp [MAXOPBLOCKS])
      refine hQ _ ?_ ?_ ⟨hlater.sb, hlater.cwd, hlater.proc, hlater.sections⟩ hin.ofile
      · change Cache (holders s₂) own [] s₂.ended
        rw [hheld]
        exact hc₂.ended
      · exact (hn₁.begun.drops hd).ended

/-- A descriptor changes. -/
theorem Cache.setOfile (hc : Cache (holders s) own walk s)
    (o : P → Fin NOFILE → Option (Fin NFILE)) :
    Cache (holders { s with ofile := o }) own walk { s with ofile := o } :=
  { hc with files := { hc.files with } }

section

variable (hs : Steady t a s)
include hs

/-- After a part of a call that leaves descriptors and processes alone. -/
theorem Steady.done (hc : Cache (holders s') [] [] s') (hn : Names t a (fun _ => 0) s')
    (hl : Later s s') : Done t a s s' :=
  { cache := hc, names := hn, sb := hl.sb, sections := hl.sections,
    procs := fun p => by rw [hl.cwd, hl.proc]; exact hs.procs p }

theorem Steady.done_self : Done t a s s :=
  hs.done hs.cache hs.names (.refl s)

/-- After a part of a call that changes only the cache. -/
theorem Steady.quiet (hq : Quiet s s') (hc : Cache (holders s) [] [] s') : Done t a s s' := by
  have hin := hq.inside
  have hhold : holders s = holders s' := holders_congr hin.file.symm hin.cwd.symm
  refine hs.done (hhold ▸ hc) (hs.names.quiet hq) ⟨hin.sb, hin.cwd, hin.proc, ?_⟩
  exact ⟨[], hin.sections, by simp⟩

/-- After a whole section that leaves files and current directories alone. -/
theorem Steady.ended {l : List ℕ} (hin : Inside l s.begun s') (hl : l.length + 1 ≤ MAXOPBLOCKS)
    (hc : Cache (holders s) [] [] s') (hn : Names t a (fun _ => 0) s') : Done t a s s'.ended := by
  have hhold : holders s = holders s'.ended := holders_congr hin.file.symm hin.cwd.symm
  exact hs.done (hhold ▸ hc.ended) hn.ended (.of_inside hin hl)

/-- After a whole section that changes only the cache. -/
theorem Steady.ended_quiet (hq : Quiet s.begun s') (hc : Cache (holders s) [] [] s') :
    Done t a s s'.ended :=
  hs.ended hq.inside (by simp [MAXOPBLOCKS]) hc (hs.names.begun.quiet hq)

/-- A process that makes calls has a current directory, which is in use. -/
theorem Steady.cwd_ne_free {p : P} (hp : s.proc p = .live) : s.type ((s.cwd p).getD 0) ≠ .free := by
  obtain ⟨c, hcwd⟩ := Option.ne_none_iff_exists'.mp ((hs.procs p).mpr hp)
  rw [hcwd]
  exact hs.cache.alloc c (holders_pos_of_cwd hcwd)

end

end Holders

section Descriptors

variable [DecidableEq P] {p : P} {H : Stop ℕ Panic → State P → Prop}
  {Q : Unit → List ℕ → State P → Prop}

@[simp] theorem wp_setOfile {fd : Fin NOFILE} {v : Option (Fin NFILE)} :
    Prog.wp (setOfile p fd v) Q H h s =
      Q () h { s with ofile := update s.ofile p (update (s.ofile p) fd v) } := rfl

@[simp] theorem wp_setCwd {c : Option ℕ} :
    Prog.wp (setCwd p c) Q H h s = Q () h { s with cwd := update s.cwd p c } := rfl

@[simp] theorem wp_setProc {v : Slot} :
    Prog.wp (setProc p v) Q H h s = Q () h { s with proc := update s.proc p v } := rfl

theorem wp_fdalloc {Q : Option (Fin NOFILE) → List ℕ → State P → Prop}
    (hnone : (∀ fd, s.ofile p fd ≠ none) → Q none h s) (hsome : ∀ fd, s.ofile p fd = none →
      Q (some fd) h { s with ofile := update s.ofile p (update (s.ofile p) fd (some f)) }) :
    Prog.wp (fdalloc p f) Q H h s := by
  simp only [fdalloc, Prog.wp_bind, Prog.wp_read]
  cases hf : (List.finRange NOFILE).find? fun fd => (s.ofile p fd).isNone with
  | none =>
    refine hnone fun fd hfd => ?_
    have := List.find?_eq_none.mp hf fd (List.mem_finRange fd)
    exact this (by simp [hfd])
  | some fd =>
    have hfd : s.ofile p fd = none := by simpa using List.find?_some hf
    exact hsome fd hfd

end Descriptors

end Files

end Xv6.Fs
