import Xv6.Fs.Files

/-!
# Calls on descriptors

The calls that do not change the name space, each run on its own: they end with
the reference counts those of the open files and current directories, the image as
consistent as it was, and sections that fit into the log.
-/

namespace Xv6.Fs

open Bytes (overwrite)
open Finset Function

variable {P : Type} {t a : Prop} {s : State P} {p : P}

/-! ### Reading and writing -/

section Inodes

variable {hold : ℕ → ℕ} {own walk : List ℕ} {h : List ℕ} {ip : ℕ} {Q : ℤ → List ℕ → State P → Prop}

/-- The console is waited for with the inode unlocked. -/
theorem wp_console {r : ℤ} (hc : Cache hold own walk s) (hr : 0 < s.ref ip)
    (hfree : s.type ip ≠ .free)
    (hQ : ∀ s', Quiet s s' → (∀ x, s.valid x = true → s'.valid x = true) →
      Cache hold own walk s' → Q r (ip :: h) s') :
    Prog.wp (console ip r) Q (fun e _ => Tolerable t a e) (ip :: h) s := by
  simp only [console, Prog.wp_bind]
  refine wp_iunlock List.mem_cons_self hr ?_
  rw [List.erase_cons_head]
  exact wp_ilock hc (fun _ _ => hfree) fun s' hq hv hc' _ _ _ => hQ s' hq hv hc'

theorem wp_readi {off n : ℕ} {input : ℤ} (hc : Cache hold own walk s) (hr : 0 < s.ref ip)
    (hfree : s.type ip ≠ .free)
    (hQ : ∀ r s', Quiet s s' → (∀ x, s.valid x = true → s'.valid x = true) →
      Cache hold own walk s' → Q r (ip :: h) s') :
    Prog.wp (readi ip off n input) Q (fun e _ => Tolerable t a e) (ip :: h) s := by
  simp only [readi, inode, Prog.wp_bind, Prog.wp_read, Prog.wp_ite, Prog.wp_pure]
  split_ifs
  · exact wp_console hc hr hfree (hQ input)
  · exact hQ _ s (.refl s) (fun _ => id) hc
  · exact hQ _ s (.refl s) (fun _ => id) hc
  · exact hQ _ s (.refl s) (fun _ => id) hc

theorem wp_readAll {reads : List (ℕ × ℕ × ℤ)} {Q : Unit → List ℕ → State P → Prop}
    (hc : Cache hold own walk s) (hr : ip ∈ own ∨ ip ∈ walk) (hfree : s.type ip ≠ .free)
    (hQ : ∀ s', Quiet s s' → Cache hold own walk s' → Q () (ip :: h) s') :
    Prog.wp (readAll ip reads) Q (fun e _ => Tolerable t a e) (ip :: h) s := by
  induction reads generalizing s with
  | nil => exact hQ s (.refl s) hc
  | cons x rest ih =>
    obtain ⟨off, n, input⟩ := x
    simp only [readAll, Prog.wp_bind]
    refine wp_readi hc (hc.ref_pos_of_mem hr) hfree fun _ s₁ hq _ hc₁ => ?_
    exact ih hc₁ (by rwa [hq.type]) fun s' hq' hc' => hQ s' (hq.trans hq') hc'

theorem blocksOf_length {off n : ℕ} (hn : n ≤ maxWrite) : (blocksOf off n).length ≤ 4 := by
  have hmax : maxWrite = 1536 := by decide
  unfold blocksOf
  split_ifs
  · simp
  · rw [List.length_range']
    simp only [BSIZE]
    omega

/-- A write to an inode that is not a directory. -/
theorem wp_writei {off : ℕ} {src : List UInt8} {pend : ℕ → ℕ} (hc : Cache hold own walk s)
    (hn : Names t a pend s) (hv : s.valid ip = true) (hr : 0 < s.ref ip) (hdir : s.type ip ≠ .dir)
    (hsrc : src.length ≤ maxWrite) (hQ : ∀ r s', Cache hold own walk s' → Names t a pend s' →
      (∃ l, l.length + 1 ≤ MAXOPBLOCKS ∧ Inside l s s') → Q r (ip :: h) s') :
    Prog.wp (writei ip off src) Q (fun e _ => Tolerable t a e) (ip :: h) s := by
  obtain ⟨hfree, hco⟩ := hc.valid ip hv
  have hsame : ∃ l, l.length + 1 ≤ MAXOPBLOCKS ∧ Inside l s s :=
    ⟨[], by simp [MAXOPBLOCKS], (Quiet.refl s).inside⟩
  simp only [writei, inode, Prog.wp_bind, Prog.wp_read, Prog.wp_ite, Prog.wp_pure, wp_prog_atomic]
  split_ifs with hdev hcons hoff hmax
  · refine wp_console hc hr hfree fun s' hq _ hc' => hQ _ s' hc' (hn.quiet hq) ?_
    exact ⟨[], by simp [MAXOPBLOCKS], hq.inside⟩
  · exact hQ _ s hc hn hsame
  · exact hQ _ s hc hn hsame
  · exact hQ _ s hc hn hsame
  · have hdir' : (s.dinode ip).type ≠ .dir := hdir
    have hwrite : (s.dinode ip).write off src =
        { s.dinode ip with data := overwrite (s.dinode ip).data off src } := if_neg hdir'
    refine wp_writeContents trivial hc.exact hc.noHoles hco hfree (not_lt.mp hoff) (not_lt.mp hmax)
      (by rw [hwrite]; rfl) (by rw [hwrite]) (Dinode.size_write hdir' (not_lt.mp hoff))
      fun s' hw hlogs => ?_
    obtain ⟨l, hl, hlogs⟩ := hlogs
    obtain ⟨⟨as, bm, w, lg, hs'⟩, hexact, hholes⟩ := hw
    rw [hwrite] at hs'
    refine hQ _ s' (hc.setInode hs' rfl rfl hexact hholes
      (fun h0 => hc.dead ip hfree h0) (hc.shorts ip hfree)) ?_ ⟨_, ?_,
      ⟨by rw [hs'], by rw [hs'], by rw [hs'], by rw [hs'], by rw [hs'], by rw [hs'], hlogs⟩⟩
    · refine hn.congr (fun x => ?_) (by rw [hs'])
      rw [hs']
      by_cases hx : x = ip
      · simp [Dinode.Alike, hx]
      · simp [Dinode.Alike, hx]
    · have hlen : (blocksOf off src.length).length ≤ 4 := blocksOf_length hsrc
      simp only [List.length_cons, MAXOPBLOCKS]
      omega

end Inodes

/-! ### Reading and writing through a descriptor -/

variable [Fintype P]

section Files

variable {f : Fin NFILE} {ip : ℕ} {h : List ℕ} {pend : ℕ → ℕ}

/-- The offset moves. -/
theorem wp_setOff {r : ℤ} {own walk : List ℕ} {Q : Unit → List ℕ → State P → Prop}
    {H : Stop ℕ Panic → State P → Prop} (hc : Cache (holders s) own walk s)
    (hQ : ∀ n, Cache (holders (s.setFile f { s.file f with off := n })) own walk
        (s.setFile f { s.file f with off := n }) →
      Q () h (s.setFile f { s.file f with off := n })) :
    Prog.wp (setOff f r) Q H h s := by
  simp only [setOff, wp_prog_atomic, wp_bind, wp_get, wp_ite, wp_set, wp_pure]
  have hset : ∀ n, Cache (holders (s.setFile f { s.file f with off := n })) own walk
      (s.setFile f { s.file f with off := n }) := fun n =>
    hc.setFile (fun _ => Iff.rfl) (hc.files.closed f) id
  split_ifs
  · exact hQ _ (hset _)
  · have hsame : s.setFile f { s.file f with off := (s.file f).off } = s := by
      simp [State.setFile]
    exact hsame ▸ hQ (s.file f).off (hset _)

/-- Every round of `filewrite` is a section of its own. -/
theorem wp_filewriteFrom {n : ℕ} {src : List UInt8} {Q : Bool → List ℕ → State P → Prop}
    (hc : Cache (holders s) [] [] s) (hn : Names t a pend s) (hty : (s.file f).type = .inode ip)
    (hw : (s.file f).writable = true)
    (hQ : ∀ r s', Cache (holders s') [] [] s' → Names t a pend s' → Later s s' → Q r [] s') :
    Prog.wp (filewriteFrom f ip n src) Q (fun e _ => Tolerable t a e) [] s := by
  induction n generalizing s src with
  | zero => exact hQ _ s hc hn (.refl s)
  | succ n ih =>
    unfold filewriteFrom
    rw [Prog.wp_ite]
    split_ifs with hsrc
    · exact hQ _ s hc hn (.refl s)
    have hheld := hc.files.held f ip hty
    simp only [Prog.wp_bind, wp_beginOp, Prog.wp_read]
    refine wp_ilock hc.begun (fun _ _ => hc.alloc ip hheld) fun s₁ hq _ hc₁ _ _ hv => ?_
    have hin₁ := hq.inside
    have hf₁ : s₁.file = s.file := hin₁.file
    have hdir : s₁.type ip ≠ .dir := by
      rw [hq.type]
      exact hc.files.writable f ip hty hw
    refine wp_writei hc₁ (hn.begun.quiet hq) hv
      (hc₁.ref_pos_of_hold hheld) hdir (List.length_take_le _ _)
      fun r s₂ hc₂ hn₂ hin₂ => ?_
    obtain ⟨l, hl, hin₂⟩ := hin₂
    have hin : Inside l s.begun s₂ := by simpa using hin₁.trans hin₂
    have hf₂ : s₂.file = s.file := hin₂.file.trans hf₁
    have hhold : holders s = holders s₂ := holders_congr hf₂.symm hin.cwd.symm
    refine wp_setOff (hhold ▸ hc₂) fun off hc₃ => ?_
    set s₃ := s₂.setFile f { s₂.file f with off := off }
    have hn₃ : Names t a pend s₃.ended := hn₂.of_dinode rfl rfl
    have hlater : Later s s₃.ended := by
      have := Later.of_inside hin hl
      exact ⟨this.sb, this.cwd, this.proc, this.sections⟩
    have hself : s₃.ended.file f = { s₂.file f with off := off } := update_self _ _ _
    refine wp_iunlock List.mem_cons_self ?_ ?_
    · refine hc₃.ref_pos_of_hold (holders_pos_of_file (f := f) ?_)
      exact (congrArg File.type hself).trans (by rw [hf₂, hty])
    · rw [wp_endOp, List.erase_cons_head, Prog.wp_ite, Prog.wp_ite]
      split_ifs
      · exact hQ _ _ hc₃.ended hn₃ hlater
      · trivial
      · refine ih hc₃.ended hn₃ ?_ ?_ fun r s' hc' hn' hl' => hQ r s' hc' hn' (hlater.trans hl')
        · rw [hself, hf₂, hty]
        · rw [hself, hf₂, hw]

end Files

theorem ends_fstat (hs : Steady t a s) (fd : ℤ) : Ends t a s (sysFstat p fd) fun _ _ => True := by
  unfold Ends sysFstat
  rw [Prog.wp_bind]
  refine wp_argfd ⟨rfl, hs.done_self, trivial⟩ fun fd f _ => ?_
  simp only [filestat, Prog.wp_bind, Prog.wp_read]
  cases hty : (s.file f).type with
  | none => exact ⟨rfl, hs.done_self, trivial⟩
  | pipe k => exact ⟨rfl, hs.done_self, trivial⟩
  | inode ip =>
    have hheld := hs.cache.files.held f ip hty
    simp only [Prog.wp_bind]
    refine wp_ilock hs.cache (fun _ _ => hs.cache.alloc ip hheld) fun s₁ hq _ hc₁ _ _ _ => ?_
    refine wp_iunlock List.mem_cons_self (hc₁.ref_pos_of_hold hheld) ?_
    rw [List.erase_cons_head]
    exact ⟨rfl, hs.quiet hq hc₁, trivial⟩

theorem ends_read (hs : Steady t a s) (fd : ℤ) (n : ℕ) (input : ℤ) :
    Ends t a s (sysRead p fd n input) fun _ _ => True := by
  unfold Ends sysRead
  rw [Prog.wp_bind]
  refine wp_argfd ⟨rfl, hs.done_self, trivial⟩ fun fd f _ => ?_
  simp only [fileread, Prog.wp_bind, Prog.wp_read, Prog.wp_ite]
  split_ifs
  · exact ⟨rfl, hs.done_self, trivial⟩
  cases hty : (s.file f).type with
  | none => trivial
  | pipe k => exact ⟨rfl, hs.done_self, trivial⟩
  | inode ip =>
    have hheld := hs.cache.files.held f ip hty
    have hfree := hs.cache.alloc ip hheld
    simp only [Prog.wp_bind, Prog.wp_read]
    refine wp_ilock hs.cache (fun _ _ => hfree) fun s₁ hq₁ _ hc₁ _ _ _ => ?_
    refine wp_readi hc₁ (hc₁.ref_pos_of_hold hheld) (by rwa [hq₁.type]) fun r s₂ hq₂ _ hc₂ => ?_
    have hd := hs.quiet (hq₁.trans hq₂) hc₂
    refine wp_setOff hd.cache fun off hc₃ => ?_
    refine wp_iunlock List.mem_cons_self ?_ ?_
    · exact hc₂.ref_pos_of_hold hheld
    · rw [List.erase_cons_head]
      refine ⟨rfl, hs.done hc₃ (hd.names.of_dinode rfl rfl) ⟨hd.sb, ?_, ?_, hd.sections⟩, trivial⟩
      · exact (hq₁.trans hq₂).cwd
      · exact (hq₁.trans hq₂).inside.proc

theorem ends_write (hs : Steady t a s) (fd : ℤ) (src : List UInt8) (input : ℤ) :
    Ends t a s (sysWrite p fd src input) fun _ _ => True := by
  unfold Ends sysWrite
  rw [Prog.wp_bind]
  refine wp_argfd ⟨rfl, hs.done_self, trivial⟩ fun fd f _ => ?_
  simp only [filewrite, Prog.wp_bind, Prog.wp_read, Prog.wp_ite]
  split_ifs with hw
  · exact ⟨rfl, hs.done_self, trivial⟩
  cases hty : (s.file f).type with
  | none => trivial
  | pipe k => exact ⟨rfl, hs.done_self, trivial⟩
  | inode ip =>
    simp only [Prog.wp_bind]
    exact wp_filewriteFrom hs.cache hs.names hty (Bool.eq_true_of_not_eq_false hw)
      fun r s' hc' hn' hl => ⟨rfl, hs.done hc' hn' hl, trivial⟩

theorem ends_exec (hs : Steady t a s) (hp : s.proc p = .live) (path : List Char)
    (reads : List (ℕ × ℕ × ℤ)) (loads : Bool) :
    Ends t a s (exec p path reads loads) fun _ _ => True := by
  unfold Ends exec
  simp only [Prog.wp_bind, wp_beginOp]
  refine wp_namei hs.names.begun hs.cache.begun (hs.cwd_ne_free hp)
    (fun s₁ _ hq₁ hc₁ => ⟨rfl, hs.ended_quiet hq₁ hc₁, trivial⟩) fun ip s₁ _ hq₁ hc₁ hfree => ?_
  simp only [Prog.wp_bind]
  refine wp_ilock hc₁ (by rwa [hq₁.type]) fun s₂ hq₂ _ hc₂ _ hfree₂ _ => ?_
  refine wp_readAll hc₂ (Or.inr (List.mem_singleton_self ip)) (by rwa [hq₂.type])
    fun s₃ hq₃ hc₃ => ?_
  refine wp_iunlockput_walk List.mem_cons_self hc₃ fun s₄ hq₄ hc₄ => ?_
  rw [wp_endOp, List.erase_cons_head]
  exact ⟨rfl, hs.ended_quiet (((hq₁.trans hq₂).trans hq₃).trans hq₄) hc₄, trivial⟩

/-! ### Descriptors -/

variable [DecidableEq P]

theorem ends_dup (hs : Steady t a s) (fd : ℤ) : Ends t a s (sysDup p fd) fun _ _ => True := by
  unfold Ends sysDup
  rw [Prog.wp_bind]
  refine wp_argfd ⟨rfl, hs.done_self, trivial⟩ fun fd f _ => ?_
  simp only [Prog.wp_bind]
  refine wp_fdalloc (fun _ => ⟨rfl, hs.done_self, trivial⟩) fun fd' _ => ?_
  simp only [Prog.wp_bind]
  refine wp_filedup (hs.cache.setOfile _) fun hc => ⟨rfl, ?_, trivial⟩
  exact hs.done hc (hs.names.of_dinode rfl rfl) ⟨rfl, rfl, rfl, .refl s⟩

theorem ends_close (hs : Steady t a s) (fd : ℤ) : Ends t a s (sysClose p fd) fun _ _ => True := by
  unfold Ends sysClose
  rw [Prog.wp_bind]
  refine wp_argfd ⟨rfl, hs.done_self, trivial⟩ fun fd f _ => ?_
  simp only [Prog.wp_bind, wp_setOfile]
  refine wp_fileclose (hs.cache.setOfile _) (hs.names.of_dinode rfl rfl)
    fun s' hc hn hl _ => ⟨rfl, ?_, trivial⟩
  exact hs.done hc hn ⟨hl.sb, hl.cwd, hl.proc, hl.sections⟩

/-! ### Pipes -/

section Pipes

variable {own : List ℕ} {pend : ℕ → ℕ} {h : List ℕ}

omit [DecidableEq P] in
/-- A file that refers to nothing becomes an end of a pipe. -/
theorem Cache.setPipe {f : Fin NFILE} (hc : Cache (holders s) own [] s)
    (hr : (s.file f).ref ≠ 0) (hty : (s.file f).type = .none) (k : ℕ) (r w : Bool) (off : ℕ) :
    Cache (holders (s.setFile f ⟨(s.file f).ref, .pipe k, r, w, off⟩)) own []
      (s.setFile f ⟨(s.file f).ref, .pipe k, r, w, off⟩) :=
  hc.moveFile (fun h => absurd h hr) (fun i => by simp [hty]) (by simp)

omit [DecidableEq P] in
theorem wp_pipealloc {mem : Bool} {Q : Option (Fin NFILE × Fin NFILE) → List ℕ → State P → Prop}
    (hc : Cache (holders s) own [] s) (hn : Names t a pend s)
    (hQ : ∀ r s', Cache (holders s') own [] s' → Names t a pend s' → Later s s' →
      s'.ofile = s.ofile → Q r h s') :
    Prog.wp (pipealloc mem) Q (fun e _ => Tolerable t a e) h s := by
  unfold pipealloc
  rw [Prog.wp_bind]
  refine wp_filealloc hc (fun _ => hQ none s hc hn (.refl s) rfl) fun f0 h0 hty0 hc₁ => ?_
  set s₁ := s.setFile f0 { s.file f0 with ref := 1 }
  have hn₁ : Names t a pend s₁ := hn.of_dinode rfl rfl
  have hself₁ : s₁.file f0 = { s.file f0 with ref := 1 } := update_self _ _ _
  simp only [Prog.wp_bind]
  refine wp_filealloc hc₁ (fun _ => ?_) fun f1 h1 hty1 hc₂ => ?_
  · simp only [Prog.wp_bind]
    refine wp_fileclose hc₁ hn₁ fun s' hc' hn' hl ho => hQ none s' hc' hn' ?_ ho
    exact ⟨hl.sb, hl.cwd, hl.proc, hl.sections⟩
  · set s₂ := s₁.setFile f1 { s₁.file f1 with ref := 1 }
    have hn₂ : Names t a pend s₂ := hn₁.of_dinode rfl rfl
    have hne : f0 ≠ f1 := by
      rintro rfl
      rw [hself₁] at h1
      exact absurd h1 Nat.one_ne_zero
    have hf0 : s₂.file f0 = { s.file f0 with ref := 1 } := (update_of_ne hne _ _).trans hself₁
    have hf1 : s₂.file f1 = { s₁.file f1 with ref := 1 } := update_self _ _ _
    cases mem with
    | false =>
      simp only [Bool.false_eq_true, if_false, Prog.wp_bind]
      refine wp_fileclose hc₂ hn₂ fun s₃ hc₃ hn₃ hl₃ ho₃ => ?_
      refine wp_fileclose hc₃ hn₃ fun s₄ hc₄ hn₄ hl₄ ho₄ => hQ none s₄ hc₄ hn₄ ?_ (ho₄.trans ho₃)
      have hl := hl₃.trans hl₄
      exact ⟨hl.sb, hl.cwd, hl.proc, hl.sections⟩
    | true =>
      simp only [if_true, newPipe, setFile, Prog.wp_bind, wp_prog_atomic, wp_bind, wp_get, wp_set,
        wp_pure]
      set s₃ : State P := { s₂ with
        npipes := s₂.npipes + 1, pipe := update s₂.pipe s₂.npipes ⟨true, true⟩ }
      have hc₃ : Cache (holders s₃) own [] s₃ := { hc₂ with files := { hc₂.files with } }
      have hc₄ := hc₃.setPipe (f := f0) (by rw [hf0]; exact Nat.one_ne_zero)
        (by rw [hf0]; exact hty0) s₂.npipes true false (s₃.file f0).off
      refine hQ _ _ (hc₄.setPipe (f := f1) ?_ ?_ _ _ _ _) (hn₂.of_dinode rfl rfl)
        ⟨rfl, rfl, rfl, .refl s⟩ rfl
      · simp only [State.setFile, update_of_ne hne.symm, s₃, hf1]
        exact Nat.one_ne_zero
      · simp only [State.setFile, update_of_ne hne.symm, s₃, hf1]
        exact hty1

end Pipes

theorem ends_pipe (hs : Steady t a s) (mem : Bool) :
    Ends t a s (sysPipe p mem) fun _ _ => True := by
  unfold Ends sysPipe
  rw [Prog.wp_bind]
  refine wp_pipealloc hs.cache hs.names fun r s₁ hc₁ hn₁ hl₁ _ => ?_
  have hend : ∀ s' : State P, Cache (holders s') [] [] s' → Names t a (fun _ => 0) s' →
      Later s s' → ([] : List ℕ) = [] ∧ Done t a s s' ∧ True := fun s' hc hn hl =>
    ⟨rfl, hs.done hc hn hl, trivial⟩
  cases r with
  | none => exact hend s₁ hc₁ hn₁ hl₁
  | some r =>
    obtain ⟨rf, wf⟩ := r
    simp only [Prog.wp_bind]
    refine wp_fdalloc (fun _ => ?_) fun fd0 _ => ?_
    · simp only [Prog.wp_bind]
      refine wp_fileclose hc₁ hn₁ fun s₂ hc₂ hn₂ hl₂ _ => ?_
      exact wp_fileclose hc₂ hn₂ fun s₃ hc₃ hn₃ hl₃ _ =>
        hend s₃ hc₃ hn₃ ((hl₁.trans hl₂).trans hl₃)
    · set s₂ : State P := { s₁ with ofile := update s₁.ofile p (update (s₁.ofile p) fd0 (some rf)) }
      have hc₂ : Cache (holders s₂) [] [] s₂ := hc₁.setOfile _
      have hn₂ : Names t a (fun _ => 0) s₂ := hn₁.of_dinode rfl rfl
      have hl₂ : Later s s₂ := hl₁.trans ⟨rfl, rfl, rfl, .refl s₁⟩
      simp only [Prog.wp_bind]
      refine wp_fdalloc (fun _ => ?_) fun fd1 _ => ?_
      · simp only [Prog.wp_bind, wp_setOfile]
        set s₃ : State P := { s₂ with ofile := update s₂.ofile p (update (s₂.ofile p) fd0 none) }
        have hn₃ : Names t a (fun _ => 0) s₃ := hn₂.of_dinode rfl rfl
        refine wp_fileclose (hc₂.setOfile _) hn₃ fun s₄ hc₄ hn₄ hl₄ _ => ?_
        have hl₃ : Later s₂ s₃ := ⟨rfl, rfl, rfl, .refl s₂⟩
        exact wp_fileclose hc₄ hn₄ fun s₅ hc₅ hn₅ hl₅ _ =>
          hend s₅ hc₅ hn₅ (((hl₂.trans hl₃).trans hl₄).trans hl₅)
      · exact hend _ (hc₂.setOfile _) (hn₂.of_dinode rfl rfl)
          (hl₂.trans ⟨rfl, rfl, rfl, .refl s₂⟩)

/-! ### Processes -/

section Processes

variable {own : List ℕ} {pend : ℕ → ℕ} {h : List ℕ} {child : P}

omit [Fintype P] in
theorem wp_allocproc {Q : Bool → List ℕ → State P → Prop} {H : Stop ℕ Panic → State P → Prop}
    (hyes : s.proc child = .unused → Q true h { s with proc := update s.proc child .embryo })
    (hno : Q false h s) : Prog.wp (allocproc child) Q H h s := by
  simp only [allocproc, wp_prog_atomic, wp_bind, wp_get, wp_ite, wp_set, wp_pure]
  split_ifs with hfree
  · exact hyes hfree
  · exact hno

theorem wp_forkFiles {fds : List (Fin NOFILE)} {Q : Unit → List ℕ → State P → Prop}
    (hc : Cache (holders s) own [] s)
    (hQ : ∀ s', Cache (holders s') own [] s' → s'.dinode = s.dinode → Later s s' → Q () h s') :
    Prog.wp (forkFiles p child fds) Q (fun e _ => Tolerable t a e) h s := by
  induction fds generalizing s with
  | nil => exact hQ s hc rfl (.refl s)
  | cons fd fds ih =>
    simp only [forkFiles, Prog.wp_bind, Prog.wp_read]
    cases s.ofile p fd with
    | none => exact ih hc hQ
    | some f =>
      simp only [Prog.wp_bind, wp_setOfile]
      refine wp_filedup hc fun hc₁ => ih (hc₁.setOfile _) fun s' hc' hd hl => hQ s' hc' hd ?_
      exact ⟨hl.sb, hl.cwd, hl.proc, hl.sections⟩

/-- What a current directory refers to is left to the call. -/
theorem Cache.takeCwd {ip : ℕ} (hc : Cache (holders s) own [] s)
    (hcwd : s.cwd p = some ip) :
    Cache (holders { s with cwd := update s.cwd p none }) (ip :: own) [] s := by
  have hset := holders_setCwd (s := s) p none
  refine hc.retag (fun i => ?_) (fun i hi => hc.alloc i ?_)
    { hc.files with held := fun f i hf => ?_ }
  · have := hset i
    rw [hcwd] at this
    rw [List.count_cons]
    by_cases hi : ip = i
    · simp [hi] at this ⊢
      omega
    · simp [hi] at this ⊢
      omega
  · have := hset i
    simp only [reduceCtorEq, if_false, add_zero] at this
    omega
  · exact holders_pos_of_file (s := { s with cwd := update s.cwd p none }) hf

/-- A reference of the call becomes a current directory. -/
theorem Cache.setCwd {ip : ℕ}
    (hc : Cache (holders { s with cwd := update s.cwd p none }) (ip :: own) [] s)
    (hfree : s.type ip ≠ .free) :
    Cache (holders { s with cwd := update s.cwd p (some ip) }) own []
      { s with cwd := update s.cwd p (some ip) } := by
  set s₀ : State P := { s with cwd := update s.cwd p none }
  have hset : ∀ i, holders { s with cwd := update s.cwd p (some ip) } i =
      holders s₀ i + if ip = i then 1 else 0 := fun i => by
    have := holders_setCwd (s := s₀) p (some ip) i
    simpa [s₀, update_idem] using this
  have hc' : Cache (holders { s with cwd := update s.cwd p (some ip) }) own [] s := by
    refine hc.retag (fun i => ?_) (fun i hi => ?_) { hc.files with held := fun f i hf => ?_ }
    · rw [hset, List.count_cons]
      by_cases hi : ip = i
      · simp [hi]
        omega
      · simp [hi]
    · rw [hset] at hi
      by_cases hip : ip = i
      · exact hip ▸ hfree
      · exact hc.alloc i (by simpa [hip] using hi)
    · exact holders_pos_of_file (s := { s with cwd := update s.cwd p (some ip) }) hf
  exact { hc' with files := { hc'.files with } }

end Processes

theorem ends_fork (hs : Steady t a s) (hp : s.proc p = .live) (child : P) (mem : Bool) :
    Ends t a s (fork p child mem) fun _ _ => True := by
  unfold Ends fork
  rw [Prog.wp_bind]
  refine wp_allocproc (fun hfree => ?_) ⟨rfl, hs.done_self, trivial⟩
  set s₁ : State P := { s with proc := update s.proc child .embryo }
  have hcwd : s.cwd child = none := by
    by_contra hsome
    have := (hs.procs child).mp hsome
    rw [hfree] at this
    exact absurd this (by decide)
  have hc₁ : Cache (holders s₁) [] [] s₁ := { hs.cache with files := { hs.cache.files with } }
  cases mem with
  | false =>
    simp only [if_true, Bool.false_eq_true, if_false, Prog.wp_bind, wp_setProc, Prog.wp_pure]
    have hback : update s₁.proc child .unused = s.proc := by
      simp only [s₁, update_idem, ← hfree, update_eq_self]
    refine ⟨trivial, hs.done ?_ (hs.names.of_dinode rfl rfl) ⟨rfl, rfl, hback, .refl s⟩, trivial⟩
    exact { hc₁ with files := { hc₁.files with } }
  | true =>
    simp only [if_true, Prog.wp_bind]
    refine wp_forkFiles hc₁ fun s₂ hc₂ hd₂ hl₂ => ?_
    obtain ⟨ip, hip⟩ := Option.ne_none_iff_exists'.mp ((hs.procs p).mpr hp)
    have hcwd₂ : s₂.cwd = s.cwd := hl₂.cwd
    have hfree₂ : s₂.type ip ≠ .free :=
      hc₂.alloc ip (holders_pos_of_cwd (p := p) (by rw [hcwd₂, hip]))
    simp only [cwd, Prog.wp_read, hcwd₂, hip, Option.getD_some]
    refine wp_idup hc₂ fun s₃ hq hc₃ => ?_
    simp only [wp_setCwd, wp_setProc]
    have hin := hq.inside
    have hcwd₃ : s₃.cwd = s.cwd := hin.cwd.trans hcwd₂
    -- the child had no current directory yet
    have hhold : holders s₂ = holders { s₃ with cwd := update s₃.cwd child none } :=
      holders_congr hin.file.symm (by rw [hcwd₃, hcwd₂, ← hcwd, update_eq_self])
    have hc₄ := (hhold ▸ hc₃.keep).setCwd (by rwa [hq.type])
    refine ⟨rfl, ⟨⟨{ hc₄ with files := { hc₄.files with } }, ?_, fun q => ?_⟩, ?_, ?_⟩, trivial⟩
    · exact hs.names.of_dinode (hq.dinode.trans hd₂) (hq.sb.trans hl₂.sb)
    · simp only [hin.proc, hl₂.proc, hcwd₃, s₁, update_idem]
      by_cases hq : q = child
      · simp [hq]
      · simpa [hq] using hs.procs q
    · exact hq.sb.trans hl₂.sb
    · obtain ⟨new, hnew, hsmall⟩ := hl₂.sections
      exact ⟨new, hin.sections.trans hnew, hsmall⟩

theorem wp_exitFrom {fds : List (Fin NOFILE)} {pend : ℕ → ℕ} {h : List ℕ}
    {Q : Unit → List ℕ → State P → Prop} (hc : Cache (holders s) [] [] s) (hn : Names t a pend s)
    (hQ : ∀ s', Cache (holders s') [] [] s' → Names t a pend s' → Later s s' → Q () h s') :
    Prog.wp (exitFrom p fds) Q (fun e _ => Tolerable t a e) h s := by
  induction fds generalizing s with
  | nil => exact hQ s hc hn (.refl s)
  | cons fd fds ih =>
    simp only [exitFrom, Prog.wp_bind, Prog.wp_read]
    cases s.ofile p fd with
    | none => exact ih hc hn hQ
    | some f =>
      simp only [Prog.wp_bind, wp_setOfile]
      refine wp_fileclose hc hn fun s₁ hc₁ hn₁ hl₁ _ => ?_
      refine ih (hc₁.setOfile _) (hn₁.of_dinode rfl rfl) fun s' hc' hn' hl => hQ s' hc' hn' ?_
      exact hl₁.trans ⟨hl.sb, hl.cwd, hl.proc, hl.sections⟩

theorem ends_exit (hs : Steady t a s) (hp : s.proc p = .live) :
    Ends t a s (exit p) fun _ _ => True := by
  unfold Ends exit
  rw [Prog.wp_bind]
  refine wp_exitFrom hs.cache hs.names fun s₁ hc₁ hn₁ hl₁ => ?_
  obtain ⟨ip, hip⟩ := Option.ne_none_iff_exists'.mp ((hs.procs p).mpr hp)
  have hip₁ : s₁.begun.cwd p = some ip := by
    rw [← hip, ← hl₁.cwd]
    rfl
  simp only [cwd, Prog.wp_bind, wp_beginOp, Prog.wp_read, hip₁, Option.getD_some]
  refine wp_iput (hc₁.begun.takeCwd hip₁) fun s₂ hd _ hc₂ => ?_
  simp only [wp_endOp, wp_setCwd, wp_setProc, Prog.wp_pure]
  have hin := hd.inside
  have hhold : holders { s₁.begun with cwd := update s₁.begun.cwd p none } =
      holders { s₂.ended with
        cwd := update s₂.ended.cwd p none, proc := update s₂.ended.proc p .zombie } :=
    holders_congr hin.file.symm (congrArg (update · p none) hin.cwd.symm)
  have hlater : Later s₁ s₂.ended := .of_inside hin (by simp [MAXOPBLOCKS])
  have hlater' := hl₁.trans hlater
  have hc₃ := hhold ▸ hc₂.ended
  refine ⟨trivial, ⟨⟨{ hc₃ with files := { hc₃.files with } }, ?_, fun q => ?_⟩, hlater'.sb,
    hlater'.sections⟩, trivial⟩
  · exact (hn₁.begun.drops hd).of_dinode rfl rfl
  · simp only [hlater'.cwd, hlater'.proc]
    by_cases hq : q = p
    · simp [hq]
    · simpa [hq] using hs.procs q

theorem ends_wait (hs : Steady t a s) (child : P) : Ends t a s (wait child) fun _ _ => True := by
  unfold Ends wait
  simp only [wp_prog_atomic, wp_bind, wp_get, wp_ite, wp_set, wp_pure]
  split_ifs with hz
  · refine ⟨trivial, ⟨⟨?_, hs.names.of_dinode rfl rfl, fun q => ?_⟩, rfl, .refl s⟩, trivial⟩
    · exact { hs.cache with files := { hs.cache.files with } }
    · by_cases hq : q = child
      · subst hq
        have := hs.procs q
        rw [hz] at this
        simpa using this
      · simpa [hq] using hs.procs q
  · exact ⟨trivial, hs.done_self, trivial⟩

end Xv6.Fs
