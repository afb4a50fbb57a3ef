import Mathlib.Tactic.Push
import Xv6.Fs.Alloc
import Xv6.Fs.Tree

/-!
# References to inodes

A call run on its own: what the functions on inodes do to the reference counts,
and what the counts protect. Of the references to an inode, `hold` are held by open
files and as current directories, and the others by the call itself. Those are of
two kinds: the ones in `own` keep an inode alive, the ones in `walk` are only passing
through inodes that others keep alive, as a path lookup does.
-/

namespace Xv6.Fs

open Finset Function

variable {P : Type}

/-- Open files hold inodes, and only those that are not directories can be written. -/
structure Files (hold : ℕ → ℕ) (s : State P) : Prop where
  closed : ∀ f, (s.file f).ref = 0 → (s.file f).type = .none
  held : ∀ f i, (s.file f).type = .inode i → 0 < hold i
  writable : ∀ f i, (s.file f).type = .inode i → (s.file f).writable = true → s.type i ≠ .dir

/-- The reference counts are those of the holders and of the call, and protect what they should. -/
structure Cache (hold : ℕ → ℕ) (own walk : List ℕ) (s : State P) : Prop where
  exact : s.toImage.Exact
  noHoles : s.toImage.NoHoles
  refs : ∀ i, s.ref i = hold i + own.count i + walk.count i
  alloc : ∀ i, 0 < hold i → s.type i ≠ .free
  valid : ∀ i, s.valid i = true → s.type i ≠ .free ∧ s.addrs i = (s.dinode i).addrs
  /-- An inode in use without links is held, and will be freed when it is let go. -/
  dead : ∀ i, s.type i ≠ .free → s.nlink i = 0 → 0 < hold i + own.count i ∧ s.valid i = true
  shorts : ∀ i, s.type i ≠ .free → short (s.nlink i) = s.nlink i
  files : Files hold s

/-- The inodes in `l` that were in the cache still are. -/
def Stays (l : List ℕ) (s s' : State P) : Prop := ∀ x ∈ l, s.valid x = true → s'.valid x = true

/-- Only the cache changes. -/
def Quiet (s s' : State P) : Prop := ∃ r v a, s' = { s with ref := r, valid := v, addrs := a }

/-- Only the cache changes, or inode `i`, without links or other references, is freed. -/
def Drops (i : ℕ) (s s' : State P) : Prop :=
  Quiet s s' ∨ s.type i ≠ .free ∧ s.nlink i = 0 ∧ s.ref i = 1 ∧ Logs [s.sb.iblock i] s s' ∧
    ∃ r v d a bm lg, d.type = .free ∧ s' = { s with
      ref := r, valid := v, dinode := update s.dinode i d, addrs := a, bitmap := bm, logged := lg }

/-- How a call may stop without a result. It never frees a free block. If `t` holds it never finds
a link count below 1, and if `a` holds as well never a free inode. -/
def Tolerable (t a : Prop) : Stop ℕ Panic → Prop
  | .failed .bfree => False
  | .failed .nlink => ¬ t
  | .failed .noType => ¬ (t ∧ a)
  | _ => True

section Quiet

variable {s s' s'' : State P} {i : ℕ}

theorem Quiet.refl (s : State P) : Quiet s s := ⟨_, _, _, rfl⟩

section

variable (h : Quiet s s')
include h

theorem Quiet.trans (h' : Quiet s' s'') : Quiet s s'' := by
  obtain ⟨r, v, a, rfl⟩ := h
  obtain ⟨r', v', a', rfl⟩ := h'
  exact ⟨r', v', a', rfl⟩

theorem Quiet.image : s'.toImage = s.toImage := by
  obtain ⟨r, v, a, rfl⟩ := h
  rfl

theorem Quiet.dinode : s'.dinode = s.dinode := by rw [h.image]

theorem Quiet.sb : s'.sb = s.sb := by rw [h.image]

theorem Quiet.file : s'.file = s.file := by
  obtain ⟨r, v, a, rfl⟩ := h
  rfl

theorem Quiet.ofile : s'.ofile = s.ofile := by
  obtain ⟨r, v, a, rfl⟩ := h
  rfl

theorem Quiet.cwd : s'.cwd = s.cwd := by
  obtain ⟨r, v, a, rfl⟩ := h
  rfl

theorem Quiet.type : s'.type = s.type := by
  funext i
  rw [State.type, h.dinode, State.type]

theorem Quiet.nlink : s'.nlink = s.nlink := by
  funext i
  rw [State.nlink, h.dinode, State.nlink]

end

/-- An inode with a link is not freed. -/
theorem Drops.quiet (h : Drops i s s') (hl : s.nlink i ≠ 0) : Quiet s s' :=
  h.resolve_right fun h => hl h.2.1

/-- Only inode `i` is freed. -/
theorem Drops.other (h : Drops i s s') {x : ℕ} (hx : x ≠ i) : s'.dinode x = s.dinode x := by
  rcases h with hq | ⟨-, -, -, -, r, v, d, a, bm, lg, -, rfl⟩
  · rw [hq.dinode]
  · exact update_of_ne hx _ _

end Quiet

/-- The files stay as they are, and so do the types of the inodes that they refer to. -/
theorem Files.of_file {hold : ℕ → ℕ} {s s' : State P} (hf : Files hold s) (hfile : s'.file = s.file)
    (htype : ∀ i, 0 < hold i → s'.type i = s.type i) : Files hold s' := by
  constructor
  · rw [hfile]
    exact hf.closed
  · rw [hfile]
    exact hf.held
  · intro f i hfi hw
    rw [hfile] at hfi hw
    rw [htype i (hf.held f i hfi)]
    exact hf.writable f i hfi hw

namespace Cache

variable {hold : ℕ → ℕ} {own own' walk walk' : List ℕ} {s s' : State P} {i : ℕ}

/-- Only the cache changes. -/
theorem quiet (hc : Cache hold own walk s) (hq : Quiet s s')
    (hrefs : ∀ i, s'.ref i = hold i + own'.count i + walk'.count i)
    (hvalid : ∀ i, s'.valid i = true → s.type i ≠ .free ∧ s'.addrs i = (s.dinode i).addrs)
    (hdead : ∀ i, s.type i ≠ .free → s.nlink i = 0 →
      0 < hold i + own'.count i ∧ s'.valid i = true) :
    Cache hold own' walk' s' := by
  constructor
  · rw [hq.image]
    exact hc.exact
  · rw [hq.image]
    exact hc.noHoles
  · exact hrefs
  · rw [hq.type]
    exact hc.alloc
  · rwa [hq.type, hq.dinode]
  · rwa [hq.type, hq.nlink]
  · rw [hq.type, hq.nlink]
    exact hc.shorts
  · exact hc.files.of_file hq.file fun i _ => by rw [hq.type]

/-- A reference of a walk is kept. -/
theorem keep (hc : Cache hold own (i :: walk) s) : Cache hold (i :: own) walk s :=
  hc.quiet (.refl s)
    (fun x => by
      have := hc.refs x
      rw [List.count_cons] at this ⊢
      omega)
    hc.valid
    fun x hx hl => by
      have := hc.dead x hx hl
      rw [List.count_cons]
      exact ⟨by omega, this.2⟩

/-- A reference is needed no longer to keep an inode alive. -/
theorem lend (hc : Cache hold (i :: own) walk s)
    (hi : s.type i ≠ .free → s.nlink i = 0 → 0 < hold i + own.count i) :
    Cache hold own (i :: walk) s :=
  hc.quiet (.refl s)
    (fun x => by
      have := hc.refs x
      rw [List.count_cons] at this ⊢
      omega)
    hc.valid
    fun x hx hl => by
      have hdead := hc.dead x hx hl
      by_cases hxi : x = i
      · subst hxi
        exact ⟨hi hx hl, hdead.2⟩
      · rwa [List.count_cons_of_ne (Ne.symm hxi)] at hdead

/-- The order of the references of the call does not matter. -/
theorem perm (hc : Cache hold own walk s) (ho : own.Perm own') (hw : walk.Perm walk') :
    Cache hold own' walk' s :=
  hc.quiet (.refl s) (fun x => by rw [← ho.count_eq, ← hw.count_eq]; exact hc.refs x) hc.valid
    fun x hx hl => by
      rw [← ho.count_eq]
      exact hc.dead x hx hl

/-- References change hands between the call and the holders. -/
theorem retag (hc : Cache hold own [] s) {hold' : ℕ → ℕ}
    (hsum : ∀ i, hold' i + own'.count i = hold i + own.count i)
    (halloc : ∀ i, 0 < hold' i → s.type i ≠ .free) (hfiles : Files hold' s) :
    Cache hold' own' [] s where
  exact := hc.exact
  noHoles := hc.noHoles
  refs i := by rw [hsum, hc.refs]
  alloc := halloc
  valid := hc.valid
  dead i hi hl := by rw [hsum]; exact hc.dead i hi hl
  shorts := hc.shorts
  files := hfiles

theorem ref_pos_of_mem (hc : Cache hold own walk s) (hi : i ∈ own ∨ i ∈ walk) : 0 < s.ref i := by
  rw [hc.refs]
  rcases hi with hi | hi
  · have := List.count_pos_iff.mpr hi
    omega
  · have := List.count_pos_iff.mpr hi
    omega

theorem ref_pos_of_hold (hc : Cache hold own walk s) (hi : 0 < hold i) : 0 < s.ref i := by
  rw [hc.refs]
  omega

end Cache

section Inodes

variable {t a : Prop} {hold : ℕ → ℕ} {own walk : List ℕ} {s : State P} {h : List ℕ} {i : ℕ}
  {Q : Unit → List ℕ → State P → Prop} {H : Stop ℕ Panic → State P → Prop}

theorem wp_iget (hc : Cache hold own walk s)
    (hQ : ∀ s', Quiet s s' → Stays (own ++ walk) s s' → Cache hold own (i :: walk) s' → Q () h s') :
    Prog.wp (iget i) Q (fun e _ => Tolerable t a e) h s := by
  simp only [iget, wp_prog_atomic, wp_bind, wp_get, wp_ite, wp_set, wp_throw]
  split_ifs with hpos hfull
  · refine hQ _ ⟨_, _, _, rfl⟩ (fun _ _ => id)
      (hc.quiet ⟨_, _, _, rfl⟩ (fun x => ?_) hc.valid hc.dead)
    have := hc.refs x
    by_cases hx : x = i
    · subst hx
      simp [State.setRef]
      omega
    · simp [State.setRef, hx, this, Ne.symm hx]
  · trivial
  · have hzero : s.ref i = 0 := by omega
    refine hQ _ ⟨_, _, _, rfl⟩ (fun x hx hv => ?_)
      (hc.quiet ⟨_, _, _, rfl⟩ (fun x => ?_) (fun x hv => ?_) fun x hx hl => ?_)
    · have hpos := hc.ref_pos_of_mem (List.mem_append.mp hx)
      have hxi : x ≠ i := by
        rintro rfl
        omega
      simpa [State.setRef, State.setValid, hxi] using hv
    · have := hc.refs x
      by_cases hx : x = i
      · subst hx
        simp [State.setRef, State.setValid]
        omega
      · simp [State.setRef, State.setValid, hx, this, Ne.symm hx]
    · by_cases hxi : x = i
      · simp [State.setValid, hxi] at hv
      · simp only [State.setRef, State.setValid, update_of_ne hxi] at hv
        exact hc.valid x hv
    · have hdead := hc.dead x hx hl
      have hxi : x ≠ i := by
        rintro rfl
        have := hc.refs x
        omega
      exact ⟨hdead.1, by simpa [State.setRef, State.setValid, hxi] using hdead.2⟩

theorem wp_idup (hc : Cache hold own walk s)
    (hQ : ∀ s', Quiet s s' → Cache hold own (i :: walk) s' → Q () h s') :
    Prog.wp (idup i) Q (fun e _ => Tolerable t a e) h s := by
  simp only [idup, wp_prog_atomic, wp_bind, wp_get, wp_set]
  refine hQ _ ⟨_, _, _, rfl⟩ (hc.quiet ⟨_, _, _, rfl⟩ (fun x => ?_) hc.valid hc.dead)
  have := hc.refs x
  by_cases hx : x = i
  · subst hx
    simp [State.setRef]
    omega
  · simp [State.setRef, hx, this, Ne.symm hx]

/-- A locked inode is in use. -/
theorem wp_ilock (hc : Cache hold own walk s) (hfree : t → a → s.type i ≠ .free)
    (hQ : ∀ s', Quiet s s' → (∀ x, s.valid x = true → s'.valid x = true) →
      Cache hold own walk s' → i ∉ h → s.type i ≠ .free → s'.valid i = true → Q () (i :: h) s') :
    Prog.wp (ilock i) Q (fun e _ => Tolerable t a e) h s := by
  simp only [ilock, iload, Prog.wp_bind, Prog.wp_read, Prog.wp_ite, Prog.wp_fail, Prog.wp_lock,
    wp_prog_atomic, wp_bind, wp_get, wp_ite, wp_set, wp_throw, wp_pure]
  split_ifs with hr hh hv hf
  · trivial
  · trivial
  · exact hQ s (Quiet.refl s) (fun _ => id) hc hh (hc.valid i hv).1 hv
  · exact fun hta => hfree hta.1 hta.2 hf
  · have hmono : ∀ x, s.valid x = true →
        (State.setValid (s.setAddrs i (s.dinode i).addrs) i true).valid x = true := fun x hvx => by
      by_cases hxi : x = i
      · simp [State.setValid, hxi]
      · simpa [State.setValid, State.setAddrs, hxi] using hvx
    refine hQ _ ⟨_, _, _, rfl⟩ hmono (hc.quiet ⟨_, _, _, rfl⟩ hc.refs (fun x hvx => ?_)
      fun x hx hl => ⟨(hc.dead x hx hl).1, hmono x (hc.dead x hx hl).2⟩) hh hf
      (by simp [State.setValid])
    · by_cases hxi : x = i
      · subst hxi
        exact ⟨hf, by simp [State.setValid, State.setAddrs]⟩
      · simp only [State.setValid, State.setAddrs, update_of_ne hxi] at hvx ⊢
        exact hc.valid x hvx

theorem wp_iunlock (hi : i ∈ h) (hr : 0 < s.ref i) (hQ : Q () (h.erase i) s) :
    Prog.wp (iunlock i) Q H h s := by
  simp only [iunlock, Prog.wp_bind, Prog.wp_isHeld, Prog.wp_read, Prog.wp_ite, Prog.wp_fail,
    Prog.wp_unlock]
  rw [if_neg (by simp [hi]; omega)]
  exact hQ

@[simp] theorem wp_iunref : Prog.wp (iunref i) Q H h s = Q () h (s.setRef i (s.ref i - 1)) := rfl

theorem wp_ifree (hs : s.toImage.Exact) (hn : s.toImage.NoHoles)
    (hco : s.addrs i = (s.dinode i).addrs) (ht : s.type i ≠ .free)
    (hQ : ∀ s', Freed i s s' → Q () h s') : Prog.wp (ifree i) Q H h s := by
  rw [ifree, wp_prog_atomic]
  exact wp_freeInode hs hn hco ht hQ

/-- A reference is given up, and the inode is not freed. -/
theorem Cache.unref (hc : Cache hold own walk s) (own' walk' : List ℕ)
    (hrefs : ∀ x, (i :: (own' ++ walk')).count x = own.count x + walk.count x)
    (hdead : ∀ x, s.type x ≠ .free → s.nlink x = 0 → 0 < hold x + own'.count x) :
    Quiet s (s.setRef i (s.ref i - 1)) ∧ Cache hold own' walk' (s.setRef i (s.ref i - 1)) := by
  refine ⟨⟨_, _, _, rfl⟩, hc.quiet ⟨_, _, _, rfl⟩ (fun x => ?_) hc.valid
    fun x hx hl => ⟨hdead x hx hl, (hc.dead x hx hl).2⟩⟩
  have h1 := hc.refs x
  have h2 := hrefs x
  rw [List.count_cons, List.count_append] at h2
  by_cases hx : x = i
  · subst hx
    simp [State.setRef] at h2 ⊢
    omega
  · simp [State.setRef, hx, Ne.symm hx] at h2 ⊢
    omega

/-- The last reference to an inode without links is given up, and the inode freed. -/
theorem Cache.free {s' : State P} (hc : Cache hold (i :: own) [] s) (hr : s.ref i = 1)
    (hf : Freed i s s') : Cache hold own [] (s'.setRef i (s'.ref i - 1)) := by
  obtain ⟨⟨d, as, bm, lg, hd, hs'⟩, hexact, hholes, -⟩ := hf
  have hri := hc.refs i
  simp only [List.count_cons_self, List.count_nil] at hri
  set s₂ := s'.setRef i (s'.ref i - 1)
  have hsame : ∀ x ≠ i, s₂.dinode x = s.dinode x ∧ s₂.valid x = s.valid x ∧
      s₂.ref x = s.ref x ∧ s₂.addrs x = s.addrs x := fun x hx => by
    simp [s₂, hs', State.setRef, hx]
  have hself : s₂.type i = .free ∧ s₂.ref i = 0 ∧ s₂.valid i = false := by
    simp [s₂, hs', State.type, State.setRef, hd, hr]
  constructor
  · exact hexact
  · exact hholes
  · intro x
    by_cases hx : x = i
    · subst hx
      rw [hself.2.1, List.count_nil]
      omega
    · have := hc.refs x
      rw [List.count_cons_of_ne (Ne.symm hx)] at this
      rw [(hsame x hx).2.2.1, this]
  · intro x hx
    have hxi : x ≠ i := by
      rintro rfl
      omega
    rw [State.type, (hsame x hxi).1]
    exact hc.alloc x hx
  · intro x hv
    have hxi : x ≠ i := by
      rintro rfl
      rw [hself.2.2] at hv
      exact Bool.noConfusion hv
    obtain ⟨hdx, hvx, -, hax⟩ := hsame x hxi
    rw [State.type, hdx, hax]
    exact hc.valid x (hvx ▸ hv)
  · intro x hx hlx
    have hxi : x ≠ i := by
      rintro rfl
      exact hx hself.1
    obtain ⟨hdx, hvx, -⟩ := hsame x hxi
    rw [State.type, hdx] at hx
    rw [State.nlink, hdx] at hlx
    have := hc.dead x hx hlx
    rw [hvx]
    rwa [List.count_cons_of_ne (Ne.symm hxi)] at this
  · intro x hx
    have hxi : x ≠ i := by
      rintro rfl
      exact hx hself.1
    rw [State.type, (hsame x hxi).1] at hx
    rw [State.nlink, (hsame x hxi).1]
    exact hc.shorts x hx
  · refine hc.files.of_file (by simp [s₂, hs', State.setRef]) fun x hx => ?_
    have hxi : x ≠ i := by
      rintro rfl
      omega
    rw [State.type, (hsame x hxi).1, State.type]

theorem wp_iput (hc : Cache hold (i :: own) [] s)
    (hQ : ∀ s', Drops i s s' → Stays own s s' → Cache hold own [] s' → Q () h s') :
    Prog.wp (iput i) Q (fun e _ => Tolerable t a e) h s := by
  have hri := hc.refs i
  simp only [List.count_cons_self, List.count_nil] at hri
  simp only [iput, iputLocked, Prog.wp_bind, Prog.wp_lock, Prog.wp_read, Prog.wp_ite, Prog.wp_pure,
    Prog.wp_unlock, wp_iunref, List.erase_cons_head]
  -- an inode that stays has another reference
  have hkeep : ¬ ((s.valid i && s.nlink i == 0) = true ∧ s.ref i = 1) →
      Q () h (s.setRef i (s.ref i - 1)) := fun hno => by
    obtain ⟨hq, hc'⟩ := hc.unref (i := i) own [] (fun x => by simp)
      (fun x hx hl => by
        have hdead := hc.dead x hx hl
        by_cases hxi : x = i
        · subst hxi
          have : s.ref x ≠ 1 := fun h => hno ⟨by simp [hdead.2, hl], h⟩
          omega
        · rw [List.count_cons_of_ne (Ne.symm hxi)] at hdead
          exact hdead.1)
    exact hQ _ (Or.inl hq) (fun _ _ => id) hc'
  split_ifs with hh hdead hr
  · trivial
  · simp only [Bool.and_eq_true, beq_iff_eq] at hdead
    obtain ⟨hty, hco⟩ := hc.valid i hdead.1
    refine wp_ifree hc.exact hc.noHoles hco hty fun s' hf => ?_
    have hc' := hc.free hr hf
    obtain ⟨⟨d, as, bm, lg, hd, hs'⟩, -, -, hl⟩ := hf
    have hl' : Logs [s.sb.iblock i] s (s'.setRef i (s'.ref i - 1)) := hl
    rw [List.erase_cons_head]
    refine hQ _ (Or.inr ⟨hty, hdead.2, hr, hl', _, _, d, _, bm, lg, hd, by rw [hs']; rfl⟩)
      (fun x hx hv => ?_) hc'
    have hxi : x ≠ i := by
      rintro rfl
      have := List.count_pos_iff.mpr hx
      omega
    simpa [State.setRef, hs', hxi] using hv
  · exact hkeep fun h => hr h.2
  · exact hkeep fun h => hdead h.1

/-- A walk leaves every inode as it is. -/
theorem wp_iput_walk (hc : Cache hold own (i :: walk) s)
    (hQ : ∀ s', Quiet s s' → Cache hold own walk s' → Q () h s') :
    Prog.wp (iput i) Q (fun e _ => Tolerable t a e) h s := by
  have hri := hc.refs i
  simp only [List.count_cons_self] at hri
  have hlive : ¬ ((s.valid i && s.nlink i == 0) = true ∧ s.ref i = 1) := by
    rintro ⟨hdead, hr⟩
    simp only [Bool.and_eq_true, beq_iff_eq] at hdead
    have := (hc.dead i (hc.valid i hdead.1).1 hdead.2).1
    omega
  obtain ⟨hq, hc'⟩ := hc.unref (i := i) own walk (fun x => by
    rw [List.count_cons, List.count_append, List.count_cons]
    omega) fun x hx hl => (hc.dead x hx hl).1
  simp only [iput, iputLocked, Prog.wp_bind, Prog.wp_lock, Prog.wp_read, Prog.wp_ite, Prog.wp_pure,
    Prog.wp_unlock, wp_iunref, List.erase_cons_head]
  split_ifs with hh hdead hr
  · trivial
  · exact absurd ⟨hdead, hr⟩ hlive
  · exact hQ _ hq hc'
  · exact hQ _ hq hc'

theorem wp_iunlockput (hi : i ∈ h) (hc : Cache hold (i :: own) [] s)
    (hQ : ∀ s', Drops i s s' → Stays own s s' → Cache hold own [] s' → Q () (h.erase i) s') :
    Prog.wp (iunlockput i) Q (fun e _ => Tolerable t a e) h s := by
  rw [iunlockput, Prog.wp_bind]
  exact wp_iunlock hi (hc.ref_pos_of_mem (Or.inl List.mem_cons_self)) (wp_iput hc hQ)

theorem wp_iunlockput_walk (hi : i ∈ h) (hc : Cache hold own (i :: walk) s)
    (hQ : ∀ s', Quiet s s' → Cache hold own walk s' → Q () (h.erase i) s') :
    Prog.wp (iunlockput i) Q (fun e _ => Tolerable t a e) h s := by
  rw [iunlockput, Prog.wp_bind]
  exact wp_iunlock hi (hc.ref_pos_of_mem (Or.inr List.mem_cons_self)) (wp_iput_walk hc hQ)

/-- A lookup finds what is in the directory, and takes a reference. -/
theorem wp_dirlookup {Q : Option (ℕ × ℕ) → List ℕ → State P → Prop} {dp : ℕ} {name : Name}
    (hc : Cache hold own walk s)
    (hnone : (s.dinode dp).lookup name = none → s.type dp = .dir → Q none h s)
    (hsome : ∀ k c s', (s.dinode dp).lookup name = some (k, c) → s.type dp = .dir → Quiet s s' →
      Stays (own ++ walk) s s' → Cache hold own (c :: walk) s' → Q (some (k, c)) h s') :
    Prog.wp (dirlookup dp name) Q (fun e _ => Tolerable t a e) h s := by
  simp only [dirlookup, inode, Prog.wp_bind, Prog.wp_read, Prog.wp_ite, Prog.wp_fail]
  split_ifs with hd
  · trivial
  · cases hk : (s.dinode dp).lookup name with
    | none => exact hnone hk (not_not.mp hd)
    | some r =>
      obtain ⟨k, c⟩ := r
      simp only [Prog.wp_bind]
      exact wp_iget hc fun s' hq hst hc' => hsome k c s' hk (not_not.mp hd) hq hst hc'

end Inodes

end Xv6.Fs
