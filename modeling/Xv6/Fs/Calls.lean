import Xv6.Fs.Boot
import Xv6.Fs.NameSpace
import Xv6.Lib.Run

/-!
# Sequences of calls

The file system under calls made one after the other by any number of processes:
what every call keeps, what keeps the directories consistent, and what a call that
fails leaves behind.

A directory that has lost its links stays in use while it is someone's current
directory. The code lets such a directory get new entries, which no link count then
stands for (`orphan_gains_entry`), and lets the directory above it be freed, so that
its ".." dangles (`parent_of_orphan_freed`).
-/

namespace Xv6.Fs

open Function

variable {P : Type}

/-- If the call makes a new entry, then in a directory with links, and if it raises a link count,
then there is room for that. -/
def Orderly (s : State P) (p : P) : Call P → Prop
  | .open path omode => omode &&& O_CREATE ≠ 0 → ∀ d, Creates s p path d → (s.dinode d).Live
  | .mkdir path => ∀ d, Creates s p path d → (s.dinode d).Live ∧ Room s d
  | .mknod path _ _ => ∀ d, Creates s p path d → (s.dinode d).Live
  | .link old new => ∀ i, s.find p old = some i → s.type i ≠ .dir →
      Room s i ∧ ∀ d, Creates s p new d → (s.dinode d).Live
  | _ => True

/-- If the call removes a directory, then none that a directory without links calls "..". -/
def Undisturbed (s : State P) (p : P) : Call P → Prop
  | .unlink path => ∀ i, Removes s p path i → Alone s i
  | _ => True

/-- The calls on the name space. -/
def Call.OnNames : Call P → Prop
  | .open _ _ | .mkdir _ | .mknod _ _ _ | .link _ _ | .unlink _ | .chdir _ => True
  | _ => False

/-- `sys_open` leaves the file that it creates. -/
def Leaves (s : State P) (p : P) : Call P → Prop
  | .open path omode => CreatesInVain s p path omode
  | _ => False

instance (s : State P) (p : P) (path : List Char) (Q : ℕ → Prop) [DecidablePred Q] :
    Decidable (∀ d, Creates s p path d → Q d) :=
  decidable_of_iff (∀ x ∈ s.parent p path, (s.dinode x.1).lookup x.2 = none → Q x.1)
    ⟨fun h d ⟨name, hd, hk⟩ => h (d, name) hd hk, fun h x hx hk => h x.1 ⟨x.2, hx, hk⟩⟩

instance (s : State P) (i : ℕ) : Decidable (Room s i) := inferInstanceAs (Decidable (_ ≠ _))

instance (s : State P) (p : P) : DecidablePred (Orderly s p)
  | .open _ _ => inferInstanceAs (Decidable (_ → _))
  | .mkdir path => inferInstanceAs (Decidable (∀ d, Creates s p path d → _))
  | .mknod path _ _ => inferInstanceAs (Decidable (∀ d, Creates s p path d → _))
  | .link old _ => decidable_of_iff (∀ i ∈ s.find p old, s.type i ≠ .dir → _) Iff.rfl
  | .unlink _ | .chdir _ | .exec _ _ _ | .read _ _ _ | .write _ _ _ | .close _ | .fstat _ | .dup _
  | .pipe _ | .fork _ _ | .setPrio _ _ | .exit | .wait _ => .isTrue trivial

/-- What is removed is not a directory. -/
def Undisturbed.check (s : State P) (p : P) : Call P → Bool
  | .unlink path => (s.find p path).all fun i => decide (s.type i ≠ .dir)
  | _ => true

theorem Undisturbed.of_check {s : State P} {p : P} {call : Call P} (h : check s p call = true) :
    Undisturbed s p call := by
  cases call with
  | unlink path =>
    rintro i ⟨d, name, slot, hd, -, -, hk, hdir, -⟩
    rw [check, State.find_of_parent hd, hk] at h
    exact absurd hdir (of_decide_eq_true h)
  | _ => trivial

section Runs

variable [DecidableEq P]

/-- The process makes the call, and it returns. -/
def callStep (s : State P) (c : P × Call P) : Option (State P) :=
  if s.proc c.1 = .live then ((syscall c.1 c.2).exec [] s).toOption.map (·.2.2) else none

variable [Fintype P] {t a : Prop} {s s' : State P} {p : P} {call : Call P}

/-- Every call, run on its own. -/
theorem ends_call (hs : Steady t a s) (hp : s.proc p = .live) (hk : t → Orderly s p call)
    (hu : t → a → Undisturbed s p call) :
    Ends t a s (syscall p call) fun r s' =>
      call.OnNames → r = -1 → (Same s s' ↔ ¬ Leaves s p call) := by
  have himp : ∀ {c : Op P ℤ} {R R' : ℤ → State P → Prop}, Ends t a s c R →
      (∀ r s', R r s' → R' r s') → Ends t a s c R' := fun h hR =>
    h.imp fun _ _ _ h => ⟨h.1, h.2.1, hR _ _ h.2.2⟩
  -- a call other than `open` leaves nothing
  have hsame : ∀ {c : Op P ℤ}, ¬ Leaves s p call → Ends t a s c (fun r s' => r = -1 → Same s s') →
      Ends t a s c fun r s' => call.OnNames → r = -1 → (Same s s' ↔ ¬ Leaves s p call) :=
    fun hl h => himp h fun _ _ h _ hr => iff_of_true (h hr) hl
  cases call with
  | «open» path omode => exact himp (ends_open hs hp hk) fun _ _ h _ => h
  | mkdir path =>
    exact hsame id (ends_make hs hp (by decide) (by decide)
      fun ht d hd => ⟨(hk ht d hd).1, fun _ => (hk ht d hd).2⟩)
  | mknod path major minor =>
    exact hsame id (ends_make hs hp (by decide) (by decide)
      fun ht d hd => ⟨hk ht d hd, fun h => absurd h (by decide)⟩)
  | link old new => exact hsame id (ends_link hs hp hk)
  | unlink path => exact hsame id (ends_unlink hs hp hu)
  | chdir path => exact hsame id (ends_chdir hs hp)
  | exec path reads loads => exact himp (ends_exec hs hp path reads loads) fun _ _ _ h => h.elim
  | read fd n input => exact himp (ends_read hs fd n input) fun _ _ _ h => h.elim
  | write fd src input => exact himp (ends_write hs fd src input) fun _ _ _ h => h.elim
  | close fd => exact himp (ends_close hs fd) fun _ _ _ h => h.elim
  | fstat fd => exact himp (ends_fstat hs fd) fun _ _ _ h => h.elim
  | dup fd => exact himp (ends_dup hs fd) fun _ _ _ h => h.elim
  | pipe mem => exact himp (ends_pipe hs mem) fun _ _ _ h => h.elim
  | fork child mem | setPrio child mem =>
    exact himp (ends_fork hs hp child mem) fun _ _ _ h => h.elim
  | exit => exact himp (ends_exit hs hp) fun _ _ _ h => h.elim
  | wait child => exact himp (ends_wait hs child) fun _ _ _ h => h.elim

omit [Fintype P] in
theorem callStep_some {c : P × Call P} (h : callStep s c = some s') :
    s.proc c.1 = .live ∧ ∃ r h, (syscall c.1 c.2).exec [] s = .ok (r, h, s') := by
  unfold callStep at h
  split_ifs at h with hp
  cases he : (syscall c.1 c.2).exec [] s with
  | error e => simp [he, Except.toOption] at h
  | ok v =>
    obtain ⟨r, h', s₁⟩ := v
    obtain rfl : s₁ = s' := by simpa [he, Except.toOption] using h
    exact ⟨hp, r, h', rfl⟩

/-- What holds between calls is kept by a call that meets the conditions. -/
theorem Steady.callStep {c : P × Call P} (hs : Steady t a s) (h : callStep s c = some s')
    (hk : t → Orderly s c.1 c.2) (hu : t → a → Undisturbed s c.1 c.2) : Done t a s s' := by
  obtain ⟨hp, r, h', he⟩ := callStep_some h
  exact (Prog.wp_of_exec_ok (ends_call hs hp hk hu) he).2.1

section FromImage

variable {img : Image} (hw : img.WellFormed) {init : P} (r : Run (callStep (P := P)))
  (h0 : r.state 0 = img.boot init)
include hw h0

/-- It holds along a run from a consistent image. -/
theorem steady_run (hk : t → ∀ j < r.length, Orderly (r.state j) (r.action j).1 (r.action j).2)
    (hu : t → a → ∀ j < r.length, Undisturbed (r.state j) (r.action j).1 (r.action j).2)
    {k : ℕ} (hkl : k ≤ r.length) : Steady t a (r.state k) := by
  refine r.induct_between (P := fun m => Steady t a (r.state m)) (Nat.zero_le k) hkl ?_
    fun j _ hj hstep hs => ?_
  · rw [h0]
    exact hw.steady init t a
  · exact (hs.callStep hstep (fun ht => hk ht j (by omega))
      fun ht ha => hu ht ha j (by omega)).toSteady

/-! ### Blocks and references -/

/-- Whatever the calls are, a block is marked if it holds metadata or one pointer refers to it, only
one does, files have no holes, and the next call does not free a free block. -/
theorem blocks_exact {k : ℕ} (hkl : k ≤ r.length) :
    (r.state k).toImage.Exact ∧ (r.state k).toImage.NoHoles ∧
      ∀ p call, (r.state k).proc p = .live →
        (syscall p call).stops [] (r.state k) ≠ some (.failed .bfree) := by
  have hs : Steady False False (r.state k) := steady_run hw r h0 False.elim False.elim hkl
  refine ⟨hs.cache.exact, hs.cache.noHoles, fun p call hp he => ?_⟩
  have hwp : Ends False False (r.state k) (syscall p call) _ :=
    ends_call hs hp False.elim False.elim
  obtain ⟨-, hno⟩ := Prog.wp_of_stops hwp he
  exact hno

/-- Whatever the calls are, the reference count of an inode is the number of the open files and
current directories that refer to it. What is referred to is in use, and what is in use has a link
or is referred to. -/
theorem references_exact {k : ℕ} (hkl : k ≤ r.length) (i : ℕ) :
    (r.state k).ref i = holders (r.state k) i ∧
      (0 < (r.state k).ref i → (r.state k).type i ≠ .free) ∧
      ((r.state k).type i ≠ .free → (r.state k).nlink i ≠ 0 ∨ 0 < (r.state k).ref i) := by
  have hs : Steady False False (r.state k) := steady_run hw r h0 False.elim False.elim hkl
  have href : (r.state k).ref i = holders (r.state k) i := by
    rw [hs.cache.refs i, List.count_nil, add_zero, add_zero]
  refine ⟨href, fun hpos => hs.cache.alloc i (href ▸ hpos), fun hi => ?_⟩
  refine or_iff_not_imp_left.mpr fun hl => ?_
  have hpos := (hs.cache.dead i hi (not_not.mp hl)).1
  rwa [List.count_nil, add_zero, ← href] at hpos

/-! ### Link counts -/

variable (hk : ∀ j < r.length, Orderly (r.state j) (r.action j).1 (r.action j).2)
include hk

/-- While new entries go only into directories that have links and no count overflows, a link count
is the number of entries; an inode without links is in use only while it is held; and `sys_unlink`
finds no count below 1. -/
theorem link_counts_exact {k : ℕ} (hkl : k ≤ r.length) :
    (∀ i, (r.state k).type i ≠ .free →
      (r.state k).nlink i = links (r.state k).dinode (r.state k).sb.ninodes i ∧
        ((r.state k).nlink i = 0 → 0 < (r.state k).ref i)) ∧
      ∀ p call, (r.state k).proc p = .live → Orderly (r.state k) p call →
        (syscall p call).stops [] (r.state k) ≠ some (.failed .nlink) := by
  have hs : Steady True False (r.state k) :=
    steady_run hw r h0 (fun _ => hk) (fun _ => False.elim) hkl
  have htree := hs.names.tree trivial
  refine ⟨fun i hi => ⟨?_, fun hl => ?_⟩, fun p call hp hord he => ?_⟩
  · have hl := htree.nlink i hi
    rw [State.nlink, hl, links_eq]
    omega
  · have := (hs.cache.dead i hi hl).1
    rw [hs.cache.refs]
    omega
  · have hwp : Ends True False (r.state k) (syscall p call) _ :=
      ends_call hs hp (fun _ => hord) fun _ => False.elim
    obtain ⟨-, hno⟩ := Prog.wp_of_stops hwp he
    exact hno trivial

/-- While new entries go only into directories that have links and no count overflows, a directory
has ".", ".." and then entries with other names, and with links it has one name, in the directory
that it calls ".."; the root has none, and a directory without links is empty. -/
theorem directories_named_once {k : ℕ} (hkl : k ≤ r.length) {d : ℕ}
    (hd : (r.state k).type d = .dir) :
    Shape d ((r.state k).dinode d).up ((r.state k).dinode d).entries ∧
      if 1 ≤ (r.state k).nlink d then
        total (r.state k).dinode (r.state k).sb.ninodes (Dirent.names d) =
          (if d = ROOTINO then 0 else 1) ∧
        ∀ e ∈ ((r.state k).dinode d).entries, e.inum ≠ 0 → e.name ≠ dot → e.name ≠ dotdot →
          (r.state k).type e.inum = .dir → ((r.state k).dinode e.inum).up = d
      else ∀ e ∈ ((r.state k).dinode d).entries, e.inum ≠ 0 → e.name = dot ∨ e.name = dotdot := by
  have hs : Steady True False (r.state k) :=
    steady_run hw r h0 (fun _ => hk) (fun _ => False.elim) hkl
  have htree := hs.names.tree trivial
  refine ⟨htree.shape d hd, ?_⟩
  split
  · next hle =>
    have hl : ((r.state k).dinode d).Live := ⟨hd, hle⟩
    exact ⟨htree.once d hl, fun e he hne hdot hdotdot => (htree.child d hl e he hne hdot hdotdot).2⟩
  · next hle => exact htree.dead d hd fun hl => hle hl.2

/-! ### Dangling references -/

/-- If moreover no directory is removed while one without links is left below it, then entries, open
files and current directories name inodes in use, and `ilock` finds no free inode. -/
theorem no_dangling_references
    (hu : ∀ j < r.length, Undisturbed (r.state j) (r.action j).1 (r.action j).2) {k : ℕ}
    (hkl : k ≤ r.length) :
    (∀ d, (r.state k).type d = .dir → ∀ e ∈ ((r.state k).dinode d).entries, e.inum ≠ 0 →
        (r.state k).type e.inum ≠ .free) ∧
      (∀ f i, ((r.state k).file f).type = .inode i → (r.state k).type i ≠ .free) ∧
      (∀ p i, (r.state k).cwd p = some i → (r.state k).type i ≠ .free) ∧
      ∀ p call, (r.state k).proc p = .live → Orderly (r.state k) p call →
        Undisturbed (r.state k) p call →
          (syscall p call).stops [] (r.state k) ≠ some (.failed .noType) := by
  have hs : Steady True True (r.state k) := steady_run hw r h0 (fun _ => hk) (fun _ _ => hu) hkl
  refine ⟨fun d hd e he hne => hs.names.entry_ne_free trivial trivial hd he hne,
    fun f i hf => hs.cache.alloc i (hs.cache.files.held f i hf),
    fun p i hp => hs.cache.alloc i (holders_pos_of_cwd hp), fun p call hp hord hund he => ?_⟩
  have hwp : Ends True True (r.state k) (syscall p call) _ :=
    ends_call hs hp (fun _ => hord) fun _ _ => hund
  obtain ⟨-, hno⟩ := Prog.wp_of_stops hwp he
  exact hno ⟨trivial, trivial⟩

end FromImage

/-! ### Failed calls -/

/-- A call on the name space that returns -1 changes nothing, if and only if it is not a `sys_open`
that finds no descriptor for the file it has created. -/
theorem failed_call_changes_nothing_iff (hs : Steady False False s) (hp : s.proc p = .live)
    (hn : call.OnNames) {h : List ℕ} (he : (syscall p call).exec [] s = .ok (-1, h, s')) :
    Same s s' ↔ ¬ Leaves s p call :=
  (Prog.wp_of_exec_ok (ends_call hs hp False.elim False.elim) he).2.2 hn rfl

/-! ### Transactions -/

theorem Small.card_le {sb : Superblock} {lg : List ℕ} (h : Small sb lg) (hb : sb.size ≤ BPB) :
    lg.toFinset.card ≤ MAXOPBLOCKS := by
  obtain ⟨l, hl, hsub⟩ := h
  have hin : lg.toFinset ⊆ (sb.bmapstart :: l).toFinset := fun x hx => by
    rcases hsub x (List.mem_toFinset.mp hx) with ⟨b, hlt, rfl⟩ | hx
    · have : b / BPB = 0 := Nat.div_eq_of_lt (by omega)
      simp [Superblock.bblock, this]
    · simp [hx]
  calc lg.toFinset.card ≤ (sb.bmapstart :: l).toFinset.card := Finset.card_le_card hin
    _ ≤ (sb.bmapstart :: l).length := List.toFinset_card_le _
    _ ≤ MAXOPBLOCKS := by simpa using hl

/-- With a single bitmap block, each section of a call passes at most `MAXOPBLOCKS` blocks to
`log_write`. -/
theorem section_fits_log (hs : Steady False False s) (hb : s.sb.size ≤ BPB)
    (hp : s.proc p = .live) {r : ℤ} {h : List ℕ}
    (he : (syscall p call).exec [] s = .ok (r, h, s')) :
    ∃ new, s'.sections = new ++ s.sections ∧ ∀ lg ∈ new, lg.toFinset.card ≤ MAXOPBLOCKS := by
  obtain ⟨new, hnew, hsmall⟩ :=
    (Prog.wp_of_exec_ok (ends_call hs hp False.elim False.elim) he).2.1.sections
  exact ⟨new, hnew, fun lg hlg => (hsmall lg hlg).card_le hb⟩

end Runs

/-! ### Runs on the image of mkfs -/

instance : Inhabited (Unit × Call Unit) := ⟨((), .exit)⟩

/-- A directory, a file with two names one after the other, and a current directory. -/
def tourActions : List (Unit × Call Unit) :=
  [((), .mkdir ['/', 'd']), ((), .open ['/', 'd', '/', 'f'] (O_CREATE ||| O_RDWR)),
    ((), .link ['/', 'd', '/', 'f'] ['/', 'g']), ((), .chdir ['/', 'd']), ((), .unlink ['f']),
    ((), .close 0)]

def tour : Run (callStep (P := Unit)) :=
  Run.ofActions (mkfs.boot ()) tourActions (by decide +kernel)

theorem tour_orderly (j : ℕ) (hj : j < tour.length) :
    Orderly (tour.state j) (tour.action j).1 (tour.action j).2 := by
  have hall : Run.always callStep (fun s c => decide (Orderly s c.1 c.2)) (mkfs.boot ())
      tourActions = true := by decide +kernel
  exact of_decide_eq_true (Run.always_ofActions hall (by decide +kernel) hj)

theorem tour_undisturbed (j : ℕ) (hj : j < tour.length) :
    Undisturbed (tour.state j) (tour.action j).1 (tour.action j).2 := by
  have hall : Run.always callStep (fun s c => Undisturbed.check s c.1 c.2) (mkfs.boot ())
      tourActions = true := by decide +kernel
  exact .of_check (Run.always_ofActions hall (by decide +kernel) hj)

/-- At the end of the tour the file, inode 3, has one name left. -/
theorem link_counts_exact_tour :
    (tour.state 6).nlink 3 = links (tour.state 6).dinode (tour.state 6).sb.ninodes 3 ∧
      (tour.state 6).nlink 3 = 1 :=
  ⟨((link_counts_exact mkfs_wellFormed tour rfl tour_orderly (k := 6) (by decide)).1 3
    (by decide +kernel)).1, by decide +kernel⟩

/-- At the end of the tour the current directory is inode 2. -/
theorem no_dangling_references_tour :
    (tour.state 6).cwd () = some 2 ∧ (tour.state 6).type 2 ≠ .free :=
  have hcwd : (tour.state 6).cwd () = some 2 := by decide +kernel
  ⟨hcwd, (no_dangling_references mkfs_wellFormed tour rfl tour_orderly tour_undisturbed (k := 6)
    (by decide)).2.2.1 () 2 hcwd⟩

theorem blocks_exact_tour : (tour.state 6).toImage.Exact :=
  (blocks_exact mkfs_wellFormed tour rfl (k := 6) (by decide)).1

theorem references_exact_tour : (tour.state 6).ref 2 = holders (tour.state 6) 2 :=
  (references_exact mkfs_wellFormed tour rfl (k := 6) (by decide) 2).1

theorem directories_named_once_tour :
    Shape 2 ((tour.state 6).dinode 2).up ((tour.state 6).dinode 2).entries :=
  (directories_named_once mkfs_wellFormed tour rfl tour_orderly (k := 6) (by decide)
    (by decide +kernel)).1

/-- A file is created in a directory that has been removed. -/
def orphanActions : List (Unit × Call Unit) :=
  [((), .mkdir ['/', 'd']), ((), .chdir ['/', 'd']), ((), .unlink ['/', 'd']),
    ((), .open ['x'] (O_CREATE ||| O_RDWR))]

/-- The new file has a link count of 1, and no entry in a directory with links. -/
theorem orphan_gains_entry : ∃ r : Run (callStep (P := Unit)), mkfs.WellFormed ∧
    r.state 0 = mkfs.boot () ∧ r.length = 4 ∧ (r.state 4).type 3 = .file ∧
      (r.state 4).nlink 3 = 1 ∧ links (r.state 4).dinode (r.state 4).sb.ninodes 3 = 0 :=
  ⟨Run.ofActions (mkfs.boot ()) orphanActions (by decide +kernel), mkfs_wellFormed, rfl, rfl,
    by decide +kernel, by decide +kernel, by decide +kernel⟩

/-- The directory above the current one is removed after it. -/
def danglingActions : List (Unit × Call Unit) :=
  [((), .mkdir ['/', 'a']), ((), .mkdir ['/', 'a', '/', 'b']), ((), .chdir ['/', 'a', '/', 'b']),
    ((), .unlink ['/', 'a', '/', 'b']), ((), .unlink ['/', 'a'])]

/-- The ".." of the current directory names a free inode, and looking it up panics. -/
theorem parent_of_orphan_freed : ∃ r : Run (callStep (P := Unit)), mkfs.WellFormed ∧
    r.state 0 = mkfs.boot () ∧ r.length = 5 ∧ (r.state 5).cwd () = some 3 ∧
      (r.state 5).type 3 = .dir ∧ ⟨2, dotdot⟩ ∈ ((r.state 5).dinode 3).entries ∧
      (r.state 5).type 2 = .free ∧
      (syscall () (.chdir ['.', '.'])).stops [] (r.state 5) = some (.failed .noType) :=
  ⟨Run.ofActions (mkfs.boot ()) danglingActions (by decide +kernel), mkfs_wellFormed, rfl, rfl,
    by decide +kernel, by decide +kernel, by decide +kernel, by decide +kernel, by decide +kernel⟩

/-- All descriptors are taken when a file is to be created. -/
def fullActions : List (Unit × Call Unit) :=
  ((), .open ['/'] 0) :: List.replicate 15 ((), .dup 0) ++ [((), .open ['/', 'x'] O_CREATE)]

def fullRun : Run (callStep (P := Unit)) :=
  Run.ofActions (mkfs.boot ()) fullActions (by decide +kernel)

/-- The call fails, and the file is there. -/
theorem failed_open_leaves_file : mkfs.WellFormed ∧ fullRun.state 0 = mkfs.boot () ∧
    callStep (fullRun.state 16) ((), .open ['/', 'x'] O_CREATE) = some (fullRun.state 17) ∧
    (syscall () (.open ['/', 'x'] O_CREATE)).returns [] (fullRun.state 16) = some (-1) ∧
    (fullRun.state 16).find () ['/', 'x'] = none ∧ (fullRun.state 17).find () ['/', 'x'] = some 2 ∧
    (fullRun.state 17).nlink 2 = 1 :=
  ⟨mkfs_wellFormed, rfl, fullRun.next 16 (by decide), by decide +kernel, by decide +kernel,
    by decide +kernel, by decide +kernel⟩

/-- Removing what is not there fails and changes nothing. -/
theorem failed_call_changes_nothing_unlink :
    ∃ h s', (syscall () (.unlink ['/', 'x'])).exec [] (mkfs.boot ()) = .ok (-1, h, s') ∧
      Same (mkfs.boot ()) s' := by
  have hret : (syscall () (.unlink ['/', 'x'])).returns [] (mkfs.boot ()) = some (-1) := by
    decide +kernel
  obtain ⟨h, s', he⟩ := Prog.exec_of_returns hret
  have hn : (Call.unlink ['/', 'x'] : Call Unit).OnNames := trivial
  exact ⟨h, s', he, (failed_call_changes_nothing_iff (mkfs_wellFormed.steady () False False) rfl
    hn he).mpr not_false⟩

/-- Making a directory on a new image writes six different blocks. -/
theorem section_fits_log_mkdir : ∃ s', mkfs.sb.size ≤ BPB ∧
    callStep (mkfs.boot ()) ((), .mkdir ['/', 'a']) = some s' ∧
      ∃ new, s'.sections = new ++ (mkfs.boot ()).sections ∧
        ∀ lg ∈ new, lg.toFinset.card ≤ MAXOPBLOCKS := by
  have hsome : (callStep (mkfs.boot ()) ((), .mkdir ['/', 'a'])).isSome := by decide +kernel
  obtain ⟨s', hs'⟩ := Option.isSome_iff_exists.mp hsome
  obtain ⟨hp, r, h, he⟩ := callStep_some hs'
  have hsize : mkfs.sb.size ≤ BPB := by decide
  exact ⟨s', hsize, hs', section_fits_log (mkfs_wellFormed.steady () False False) hsize hp he⟩

end Xv6.Fs
