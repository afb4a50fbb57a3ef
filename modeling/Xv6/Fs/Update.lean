import Xv6.Fs.Path

/-!
# Changing inodes

A call run on its own, once more: what it does to the inodes that it has locked,
and what it passes to `log_write` on the way.
-/

namespace Xv6.Fs

open Finset Function

variable {P : Type}

/-- From `s` to `s'` only inodes change, and only blocks in `l` and bitmap blocks are passed to
`log_write`. -/
structure Inside (l : List ℕ) (s s' : State P) : Prop where
  sb : s'.sb = s.sb
  file : s'.file = s.file
  ofile : s'.ofile = s.ofile
  cwd : s'.cwd = s.cwd
  proc : s'.proc = s.proc
  sections : s'.sections = s.sections
  logs : Logs l s s'

section Inside

variable {s s' s'' : State P} {l l' : List ℕ} {i : ℕ}

theorem Inside.trans (h : Inside l s s') (h' : Inside l' s' s'') : Inside (l ++ l') s s'' :=
  ⟨h'.sb.trans h.sb, h'.file.trans h.file, h'.ofile.trans h.ofile, h'.cwd.trans h.cwd,
    h'.proc.trans h.proc, h'.sections.trans h.sections, h.logs.trans h'.logs h.sb⟩

theorem Inside.mono (h : Inside l s s') (hl : l ⊆ l') : Inside l' s s' :=
  { h with logs := h.logs.mono hl }

/-- The second stretch passes no new blocks. -/
theorem Inside.trans' (h : Inside l s s') (h' : Inside l' s' s'') (hl : l' ⊆ l) :
    Inside l s s'' :=
  (h.trans h').mono (by simpa using hl)

theorem Quiet.inside (h : Quiet s s') : Inside [] s s' := by
  obtain ⟨r, v, a, rfl⟩ := h
  exact ⟨rfl, rfl, rfl, rfl, rfl, rfl, .refl s⟩

theorem Drops.inside (h : Drops i s s') : Inside [s.sb.iblock i] s s' := by
  rcases h with hq | ⟨-, -, -, hl, r, v, d, a, bm, lg, -, rfl⟩
  · exact hq.inside.mono (by simp)
  · exact ⟨rfl, rfl, rfl, rfl, rfl, rfl, hl⟩

end Inside

section Changes

variable {t a : Prop} {hold : ℕ → ℕ} {own walk : List ℕ} {s s' : State P} {h : List ℕ} {i dp : ℕ}
  {Q : Unit → List ℕ → State P → Prop} {type : IType}

/-- An inode changes, but not its type. -/
theorem Cache.setInode (hc : Cache hold own walk s) {d : Dinode} {as : ℕ → ℕ} {bm : ℕ → Bool}
    {w : ℕ → ℕ → ℕ} {lg : List ℕ}
    (hs' : s' = { s with
      dinode := update s.dinode i d, addrs := update s.addrs i as, bitmap := bm, word := w,
      logged := lg })
    (ht : d.type = s.type i) (ha : as = d.addrs) (hexact : s'.toImage.Exact)
    (hholes : s'.toImage.NoHoles)
    (hdead : d.nlink = 0 → 0 < hold i + own.count i ∧ s.valid i = true)
    (hshort : short d.nlink = d.nlink) : Cache hold own walk s' := by
  have htype : s'.type = s.type := by
    funext x
    rw [hs']
    by_cases hx : x = i
    · rw [State.type, hx]
      simpa using ht
    · simp [State.type, hx]
  have hvalid : s'.valid = s.valid := by rw [hs']
  constructor
  · exact hexact
  · exact hholes
  · intro x
    rw [← hc.refs, hs']
  · rw [htype]
    exact hc.alloc
  · intro x hx
    rw [hvalid] at hx
    rw [htype]
    refine ⟨(hc.valid x hx).1, ?_⟩
    rw [hs']
    by_cases hxi : x = i
    · simp [hxi, ha]
    · simpa [hxi] using (hc.valid x hx).2
  · intro x hx hlx
    rw [htype] at hx
    rw [hvalid]
    rw [State.nlink, hs'] at hlx
    by_cases hxi : x = i
    · subst hxi
      exact hdead (by simpa using hlx)
    · exact hc.dead x hx (by simpa [State.nlink, hxi] using hlx)
  · intro x hx
    rw [htype] at hx
    rw [State.nlink, hs']
    by_cases hxi : x = i
    · simpa [hxi] using hshort
    · simpa [State.nlink, hxi] using hc.shorts x hx
  · exact hc.files.of_file (by rw [hs']) fun x _ => by rw [htype]

/-- Fields of a locked inode change other than type, size and addresses. -/
theorem wp_iupdate {f : Dinode → Dinode} {H : Stop ℕ Panic → State P → Prop}
    (hc : Cache hold own walk s) (hv : s.valid i = true) (hft : (f (s.dinode i)).type = s.type i)
    (hfa : (f (s.dinode i)).addrs = (s.dinode i).addrs)
    (hfs : (f (s.dinode i)).size = (s.dinode i).size)
    (hdead : (f (s.dinode i)).nlink = 0 → 0 < hold i + own.count i)
    (hshort : short (f (s.dinode i)).nlink = (f (s.dinode i)).nlink) (hQ : ∀ s', s' = { s with
        dinode := update s.dinode i (f (s.dinode i)), logged := s.sb.iblock i :: s.logged } →
      Cache hold own walk s' → Inside [s.sb.iblock i] s s' → Q () h s') :
    Prog.wp (iupdate i f) Q H h s := by
  obtain ⟨htype, hco⟩ := hc.valid i hv
  rw [iupdate, wp_prog_atomic, wp_store]
  have hd : ({ f (s.dinode i) with addrs := s.addrs i } : Dinode) = f (s.dinode i) := by
    rw [hco, ← hfa]
  simp only [hd]
  set s' : State P := { s with
    dinode := update s.dinode i (f (s.dinode i)), logged := s.sb.iblock i :: s.logged }
  have hself : s'.dinode i = f (s.dinode i) := update_self _ _ _
  have hother : ∀ j ≠ i, s'.dinode j = s.dinode j := fun j hj => update_of_ne hj _ _
  have hptr : s'.toImage.ptr = s.toImage.ptr := by
    rw [← flush_eq hco]
    exact flush_ptr_eq rfl hft (hfa.trans hco.symm) rfl
  have hs' : s' = { s with
      dinode := update s.dinode i (f (s.dinode i)), addrs := update s.addrs i (s.addrs i),
      logged := s.sb.iblock i :: s.logged } := by
    rw [update_eq_self]
  refine hQ s' rfl (hc.setInode hs' hft (hco.trans hfa.symm) ?_ ?_
    (fun hl => ⟨hdead hl, hv⟩) hshort)
    ⟨rfl, rfl, rfl, rfl, rfl, rfl, fun x hx => ?_⟩
  · rw [Image.Exact, hptr]
    exact hc.exact
  · intro j hj bn hbn
    rw [hptr]
    by_cases hji : j = i
    · subst hji
      rw [hself, hfs] at hbn
      exact hc.noHoles j htype bn hbn
    · rw [hother j hji] at hj hbn
      exact hc.noHoles j hj bn hbn
  · rcases List.mem_cons.mp hx with rfl | hx
    · exact Or.inr (Or.inr List.mem_cons_self)
    · exact Or.inl hx

theorem putEntry_length {es es' : List Dirent} {slot : ℕ} {de : Dirent}
    (hp : putEntry es slot de = some es') : slot ≤ es.length ∧
      slot * DIRENT + DIRENT ≤ MAXFILE * BSIZE ∧ es'.length = max es.length (slot + 1) := by
  unfold putEntry at hp
  split_ifs at hp with h1 h2
  · cases hp
    refine ⟨by omega, by omega, ?_⟩
    simp only [List.length_append, List.length_cons, List.length_nil]
    omega
  · cases hp
    refine ⟨by omega, by omega, ?_⟩
    simp only [List.length_set]
    omega

/-- An entry of a locked directory is written. -/
theorem wp_writeEntry {slot : ℕ} {de : Dirent} {e : Panic} (hc : Cache hold own walk s)
    (hv : s.valid dp = true) (hd : s.type dp = .dir) (he : Tolerable t a (.failed e))
    (hQ : ∀ s' es as, putEntry (s.dinode dp).entries slot de = some es →
      s'.dinode = update s.dinode dp { s.dinode dp with entries := es, addrs := as } →
      s'.valid = s.valid → Cache hold own walk s' → (∃ x y, Inside [s.sb.iblock dp, x, y] s s') →
      Q () h s') :
    Prog.wp (writeEntry dp slot de e) Q (fun e _ => Tolerable t a e) h s := by
  obtain ⟨htype, hco⟩ := hc.valid dp hv
  simp only [writeEntry, wp_prog_atomic, wp_bind, wp_get]
  cases hp : putEntry (s.dinode dp).entries slot de with
  | none => exact he
  | some es =>
    obtain ⟨hslot, hmax, hlen⟩ := putEntry_length hp
    have hsize : (s.dinode dp).size = DIRENT * (s.dinode dp).entries.length := if_pos hd
    refine wp_writeContents trivial hc.exact hc.noHoles hco htype ?_ hmax rfl rfl ?_
      fun s' hw hlogs => ?_
    · rw [hsize, Nat.mul_comm]
      exact Nat.mul_le_mul_left _ hslot
    · have hd' : (s.dinode dp).type = .dir := hd
      simp only [Dinode.size, if_pos hd', hlen]
      rw [Nat.mul_comm slot, ← Nat.mul_succ]
      exact Nat.mul_max_mul_left _ _ _ |>.symm
    · obtain ⟨l, hl, hlogs⟩ := hlogs
      obtain ⟨⟨as, bm, w, lg, hs'⟩, hexact, hholes⟩ := hw
      refine hQ s' es as hp (by rw [hs']) (by rw [hs']) ?_ ?_
      · exact hc.setInode hs' rfl rfl hexact hholes
          (fun hl0 => ⟨(hc.dead dp htype hl0).1, hv⟩) (hc.shorts dp htype)
      · -- an entry does not cross the end of a block
        have hone : (blocksOf (slot * DIRENT) DIRENT).length = 1 := by
          have h0 : DIRENT ≠ 0 := by decide
          rw [blocksOf, if_neg h0, List.length_range']
          simp only [DIRENT, BSIZE]
          omega
        rw [hone] at hl
        obtain ⟨x, y, hxy⟩ : ∃ x y, l ⊆ [x, y] := by
          rcases l with _ | ⟨x, _ | ⟨y, rest⟩⟩
          · exact ⟨0, 0, by simp⟩
          · exact ⟨x, x, by simp⟩
          · obtain rfl : rest = [] := by
              simp only [List.length_cons] at hl
              exact List.length_eq_zero_iff.mp (by omega)
            exact ⟨x, y, by simp⟩
        exact ⟨x, y, by rw [hs'], by rw [hs'], by rw [hs'], by rw [hs'], by rw [hs'], by rw [hs'],
          hlogs.mono (List.cons_subset_cons _ hxy)⟩

/-- `dirlink` fails if the name is there, and adds an entry otherwise. -/
theorem wp_dirlink {name : Name} {Q : ℤ → List ℕ → State P → Prop} (hc : Cache hold own walk s)
    (hv : s.valid dp = true)
    (hfound : ∀ k c s', (s.dinode dp).lookup name = some (k, c) → Quiet s s' →
    Cache hold own walk s' →
      Q (-1) h s')
    (hnew : ∀ s' es as, (s.dinode dp).lookup name = none → s.type dp = .dir →
      putEntry (s.dinode dp).entries (emptySlot (s.dinode dp).entries) ⟨i % 65536, name⟩ = some es →
      s'.dinode = update s.dinode dp { s.dinode dp with entries := es, addrs := as } →
      s'.valid = s.valid → Cache hold own walk s' → (∃ x y, Inside [s.sb.iblock dp, x, y] s s') →
      Q 0 h s') :
    Prog.wp (dirlink dp name i) Q (fun e _ => Tolerable t a e) h s := by
  rw [dirlink, Prog.wp_bind]
  refine wp_dirlookup hc (fun hk hd => ?_) fun k c s₁ hk _ hq _ hc₁ => ?_
  · simp only [inode, Prog.wp_bind, Prog.wp_read]
    exact wp_writeEntry hc hv hd trivial fun s' es as hes hdn hvalid hc' hin =>
      hnew s' es as hk hd hes hdn hvalid hc' hin
  · simp only [Prog.wp_bind]
    exact wp_iput_walk hc₁ fun s₂ hq₂ hc₂ => hfound k c s₂ hk (hq.trans hq₂) hc₂

/-- The dinode that `create` makes, before any entry. -/
def Dinode.fresh (type : IType) (major minor : ℤ) : Dinode :=
  { Dinode.zero with type := type, major := major, minor := minor, nlink := 1 }

/-- Inode `i`, free before, is in use. -/
def State.withFresh (s : State P) (i : ℕ) (d : Dinode) : State P :=
  { s with
    dinode := update s.dinode i d, ref := update s.ref i 1, valid := update s.valid i true,
    addrs := update s.addrs i fun _ => 0,
    logged := s.sb.iblock i :: s.sb.iblock i :: s.logged }

theorem Cache.withFresh (hc : Cache hold own [] s) {major minor : ℤ} (hfree : s.type i = .free)
    (hi : i ∉ own) (htype : type ≠ .free) :
    Cache hold (i :: own) [] (s.withFresh i (.fresh type major minor)) := by
  set d := Dinode.fresh type major minor
  set s' := s.withFresh i d
  have hself : s'.dinode i = d := update_self _ _ _
  have hother : ∀ j ≠ i, s'.dinode j = s.dinode j := fun j hj => update_of_ne hj _ _
  have hty : s'.type i = type := by rw [State.type, hself]; rfl
  have hnone : hold i = 0 := by
    by_contra hne
    exact hc.alloc i (Nat.pos_of_ne_zero hne) hfree
  -- the new inode has no blocks
  have hptr : s'.toImage.ptr = s.toImage.ptr := by
    funext x
    by_cases hx : x.inode = i
    · cases x with
      | addr i' k =>
        obtain rfl : i' = i := hx
        have h0 : s'.toImage.ptr (.addr i' k) = 0 := by
          rw [Image.ptr, hself]
          exact ite_self 0
        rw [h0, Image.ptr]
        exact (if_pos (Or.inl hfree)).symm
      | entry i' j =>
        obtain rfl : i' = i := hx
        have h0 : s'.toImage.ptr (.entry i' j) = 0 := by
          rw [Image.ptr, hself]
          exact if_pos (Or.inr (Or.inr rfl))
        rw [h0, Image.ptr]
        exact (if_pos (Or.inl hfree)).symm
    · exact Image.ptr_congr (hother _ hx) fun _ => rfl
  constructor
  · rw [Image.Exact, hptr]
    exact hc.exact
  · intro j hj bn hbn
    rw [hptr]
    by_cases hji : j = i
    · rw [hji, hself] at hbn
      have : d.size = 0 := by
        simp only [d, Dinode.size, Dinode.fresh, Dinode.zero]
        split_ifs <;> rfl
      omega
    · rw [hother j hji] at hj hbn
      exact hc.noHoles j hj bn hbn
  · intro x
    by_cases hx : x = i
    · subst hx
      rw [hnone, List.count_cons_self, List.count_eq_zero.mpr hi]
      simp [s', State.withFresh]
    · have := hc.refs x
      rw [List.count_cons_of_ne (Ne.symm hx)]
      simpa [s', State.withFresh, hx] using this
  · intro x hx
    have hxi : x ≠ i := by
      rintro rfl
      omega
    rw [State.type, hother x hxi]
    exact hc.alloc x hx
  · intro x hx
    by_cases hxi : x = i
    · subst hxi
      refine ⟨by rwa [hty], ?_⟩
      rw [hself]
      simp [s', State.withFresh, d, Dinode.fresh, Dinode.zero]
    · rw [State.type, hother x hxi]
      simp only [s', State.withFresh, update_of_ne hxi] at hx ⊢
      exact hc.valid x hx
  · intro x hx hlx
    have hxi : x ≠ i := by
      rintro rfl
      rw [State.nlink, hself] at hlx
      exact absurd hlx (by simp [d, Dinode.fresh])
    rw [State.type, hother x hxi] at hx
    rw [State.nlink, hother x hxi] at hlx
    have := hc.dead x hx hlx
    rw [List.count_cons_of_ne (Ne.symm hxi)]
    simpa [s', State.withFresh, hxi] using this
  · intro x hx
    by_cases hxi : x = i
    · rw [hxi, State.nlink, hself]
      rfl
    · rw [State.type, hother x hxi] at hx
      rw [State.nlink, hother x hxi]
      exact hc.shorts x hx
  · refine hc.files.of_file rfl fun x hx => ?_
    have hxi : x ≠ i := by
      rintro rfl
      omega
    rw [State.type, hother x hxi, State.type]

/-- The scan of `ialloc` takes a free inode. -/
theorem wp_iallocFrom {n k : ℕ} {Q : ℕ → List ℕ → State P → Prop} (hc : Cache hold own [] s)
    (hown : ∀ x ∈ own, s.type x ≠ .free) (hQ : ∀ i, k ≤ i → i < k + n → s.type i = .free →
      Q i h { s with
        dinode := update s.dinode i { Dinode.zero with type := type }, ref := update s.ref i 1,
        valid := update s.valid i false, logged := s.sb.iblock i :: s.logged }) :
    Prog.wp (iallocFrom type n k) Q (fun e _ => Tolerable t a e) h s := by
  induction n generalizing k with
  | zero => trivial
  | succ n ih =>
    simp only [iallocFrom, Prog.wp_bind, wp_prog_atomic, wp_bind, wp_get, wp_ite, wp_set,
      wp_logWrite, wp_pure, Prog.wp_ite]
    by_cases hfree : s.type k = .free
    · rw [if_pos hfree]
      -- nobody refers to a free inode
      have href : s.ref k = 0 := by
        have h1 : hold k = 0 := by
          by_contra hne
          exact hc.alloc k (Nat.pos_of_ne_zero hne) hfree
        have h2 : own.count k = 0 := List.count_eq_zero.mpr fun hk => hown k hk hfree
        rw [hc.refs, h1, h2, List.count_nil]
      simp only [if_true, iget, wp_prog_atomic, wp_bind, wp_get, wp_ite, wp_set, wp_throw,
        Prog.wp_pure]
      split_ifs with h1 h2
      · simp only [State.setDinode, href] at h1
        omega
      · trivial
      · exact hQ k le_rfl (by omega) hfree
    · rw [if_neg hfree]
      exact ih fun i h1 h2 => hQ i (by omega) (by omega)

/-- `create` allocates, locks and fills in an inode. -/
theorem wp_newInode {major minor : ℤ} {Q : ℕ → List ℕ → State P → Prop} (hc : Cache hold own [] s)
    (hown : ∀ x ∈ own, s.type x ≠ .free) (htype : type ≠ .free)
    (hQ : ∀ i, 0 < i → i < s.sb.ninodes → s.type i = .free →
      Cache hold (i :: own) [] (s.withFresh i (.fresh type major minor)) →
      Q i (i :: h) (s.withFresh i (.fresh type major minor))) :
    Prog.wp (ialloc type)
      (fun i => Prog.wp (ilock i)
        (fun _ => Prog.wp (iupdate i fun d => { d with major := major, minor := minor, nlink := 1 })
          (fun _ => Q i) fun e _ => Tolerable t a e)
        fun e _ => Tolerable t a e)
      (fun e _ => Tolerable t a e) h s := by
  simp only [ialloc, Prog.wp_bind, Prog.wp_read]
  refine wp_iallocFrom hc hown fun i h1 h2 hfree => ?_
  have hi : i ∉ own := fun hm => hown i hm hfree
  have hnew := hQ i (by omega) (by omega) hfree (hc.withFresh hfree hi htype)
  simp only [ilock, iload, Prog.wp_bind, Prog.wp_read, Prog.wp_ite, Prog.wp_fail, Prog.wp_lock,
    wp_prog_atomic, wp_bind, wp_get, wp_ite, wp_set, wp_throw, wp_pure, update_self]
  split_ifs with h3 h4 h5 h6
  · omega
  · trivial
  · exact absurd h5 (by simp)
  · simp only [State.type, update_self] at h6
    exact absurd h6 htype
  · rw [iupdate, wp_prog_atomic, wp_store]
    simp only [State.setAddrs, State.setValid, update_self, update_idem]
    exact hnew

end Changes

end Xv6.Fs
