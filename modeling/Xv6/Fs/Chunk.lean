import Mathlib.Data.Finset.Card
import Xv6.Fs.Calls

/-!
# The chunks of filewrite

How many blocks one round of the loop of `filewrite` passes to `log_write` when every
allocation may come from a bitmap block of its own: one bitmap block for each block that
was not there, one for the indirect block, the blocks themselves, and the inode. A chunk that
does not start at the beginning of a block starts in a block that is there.
-/

namespace Xv6.Fs

open Bytes (overwrite)
open Function

variable {P : Type}

/-! ### One chunk -/

section Chunk

variable {s s' : State P} {i ip off n : ℕ} {f : Fin NFILE} {h : List ℕ}
  {H : Stop ℕ Panic → State P → Prop} {Q : Unit → List ℕ → State P → Prop}

/-- At most three blocks of a chunk are not there. -/
theorem missing_blocksOf_le (hn : s.toImage.NoHoles) (hco : s.addrs i = (s.dinode i).addrs)
    (ht : s.type i ≠ .free) (hoff : off ≤ (s.dinode i).size) (hlen : n ≤ maxWrite) :
    missing s i (blocksOf off n) ≤ 3 := by
  have hmax : maxWrite = 1536 := by decide
  by_cases h0 : n = 0
  · rw [blocksOf, if_pos h0]
    exact Nat.zero_le 3
  have hcount : (off + n - 1) / BSIZE + 1 - off / BSIZE ≤ 4 := by
    rw [BSIZE]
    omega
  have hpos : 0 < (off + n - 1) / BSIZE + 1 - off / BSIZE := by
    rw [BSIZE]
    omega
  rw [blocksOf, if_neg h0]
  obtain ⟨c, hc⟩ := Nat.exists_eq_succ_of_ne_zero hpos.ne'
  by_cases halign : off % BSIZE = 0
  · -- a chunk from the beginning of a block has three blocks
    refine (List.length_filter_le _ _).trans ?_
    rw [List.length_range']
    rw [BSIZE] at halign ⊢
    omega
  · -- the first block holds bytes before the offset
    have hfirst : (s.flush i).ptr (.block i (off / BSIZE)) ≠ 0 := by
      rw [flush_eq hco]
      refine hn i ht _ (lt_of_lt_of_le ?_ hoff)
      have := Nat.div_add_mod off BSIZE
      rw [Nat.mul_comm]
      omega
    have hzero : missing s i [off / BSIZE] = 0 := by simp [missing, hfirst]
    rw [hc, List.range'_succ, missing_cons, hzero, Nat.zero_add]
    refine (List.length_filter_le _ _).trans ?_
    rw [List.length_range']
    omega

/-- The inode block comes on top. -/
theorem Spent.card_le {m d : ℕ} (hspent : Spent i m d s s') (h0 : s.logged = [])
    (hmd : m + d + 2 ≤ MAXOPBLOCKS) (x : ℕ) : (x :: s'.logged).toFinset.card ≤ MAXOPBLOCKS := by
  obtain ⟨bits, data, -, hbits, hdata, hlog⟩ := hspent
  have hin : (x :: s'.logged).toFinset ⊆ (x :: s'.addrs i NDIRECT :: (bits ++ data)).toFinset := by
    intro y hy
    simp only [List.mem_toFinset, List.mem_cons, List.mem_append] at hy ⊢
    obtain hy | hy := hy
    · exact Or.inl hy
    · obtain hy | hy | hy | hy := hlog y hy
      · rw [h0] at hy
        cases hy
      · exact Or.inr (Or.inr (Or.inl hy))
      · exact Or.inr (Or.inr (Or.inr hy))
      · exact Or.inr (Or.inl hy.2)
  calc (x :: s'.logged).toFinset.card
      ≤ (x :: s'.addrs i NDIRECT :: (bits ++ data)).toFinset.card := Finset.card_le_card hin
    _ ≤ (x :: s'.addrs i NDIRECT :: (bits ++ data)).length := List.toFinset_card_le _
    _ ≤ MAXOPBLOCKS := by
      simp only [List.length_cons, List.length_append]
      omega

/-- The blocks of a whole write. -/
theorem wp_writeContents_card {g : Dinode → Dinode} {H : Panic → Prop} (hH : H .balloc)
    (hs : s.toImage.Exact) (hn : s.toImage.NoHoles) (hco : s.addrs i = (s.dinode i).addrs)
    (ht : s.type i ≠ .free) (hoff : off ≤ (s.dinode i).size) (hmax : off + n ≤ MAXFILE * BSIZE)
    (hlen : n ≤ maxWrite) (h0 : s.logged = []) :
    wp (writeContents i off n g) (fun _ s' => s'.logged.toFinset.card ≤ MAXOPBLOCKS) H s := by
  have hbound : missing s i (blocksOf off n) + lacks s i + (blocksOf off n).length + 2 ≤
      MAXOPBLOCKS := by
    have hmiss := missing_blocksOf_le hn hco ht hoff hlen
    have hcount : (blocksOf off n).length ≤ 4 := blocksOf_length hlen
    have hlacks : lacks s i ≤ 1 := by
      rw [lacks]
      split <;> omega
    rw [MAXOPBLOCKS]
    omega
  simp only [writeContents, wp_bind, wp_get, wp_ite, wp_set]
  refine wp_writeBlocks hH (by rwa [flush_eq hco]) ht (fun bn => lt_maxfile_of_mem hmax)
    fun s₁ hg _ hspent => ?_
  have hcard := hspent.card_le h0 hbound (s₁.sb.iblock i)
  split_ifs
  · exact hcard
  · refine (Finset.card_le_card fun x hx => ?_).trans hcard
    exact List.mem_toFinset.mpr (List.mem_cons_of_mem _ (List.mem_toFinset.mp hx))

/-- A regular file of a consistent file system. -/
structure Ready (ip : ℕ) (s : State P) : Prop where
  exact : s.toImage.Exact
  noHoles : s.toImage.NoHoles
  type : s.type ip = .file
  coherent : s.valid ip = true → s.addrs ip = (s.dinode ip).addrs

theorem wp_ilock_ready (hs : Ready ip s) (hH : ∀ e s', H e s')
    (hQ : ∀ s', Ready ip s' → s'.addrs ip = (s'.dinode ip).addrs → s'.logged = s.logged →
      s'.sections = s.sections → Q () (ip :: h) s') :
    Prog.wp (ilock ip) Q H h s := by
  simp only [ilock, iload, Prog.wp_bind, Prog.wp_read, Prog.wp_ite, Prog.wp_fail, Prog.wp_lock,
    wp_prog_atomic, wp_bind, wp_get, wp_ite, wp_set, wp_throw, wp_pure]
  split_ifs with hr hh hv hf
  · exact hH _ _
  · exact hH _ _
  · exact hQ s hs (hs.coherent hv) rfl rfl
  · exact hH _ _
  · have haddrs : (State.setValid (s.setAddrs ip (s.dinode ip).addrs) ip true).addrs ip =
        (s.dinode ip).addrs := update_self _ _ _
    exact hQ _ ⟨hs.exact, hs.noHoles, hs.type, fun _ => haddrs⟩ haddrs rfl rfl

theorem wp_writei_card {src : List UInt8} {Q : ℤ → List ℕ → State P → Prop} (hs : Ready ip s)
    (hco : s.addrs ip = (s.dinode ip).addrs) (h0 : s.logged = []) (hsrc : src.length ≤ maxWrite)
    (hH : ∀ e s', H e s') (hQ : ∀ r s', Ready ip s' → s'.sections = s.sections →
      s'.logged.toFinset.card ≤ MAXOPBLOCKS → Q r h s') :
    Prog.wp (writei ip off src) Q H h s := by
  have htype : (s.dinode ip).type = .file := hs.type
  have hfree : s.type ip ≠ .free := by
    rw [hs.type]
    decide
  have hempty : s.logged.toFinset.card ≤ MAXOPBLOCKS := by
    rw [h0]
    exact Nat.zero_le _
  simp only [writei, inode, Prog.wp_bind, Prog.wp_read, Prog.wp_ite, Prog.wp_pure, wp_prog_atomic,
    htype]
  rw [if_neg (by decide)]
  split_ifs with hoff hmax
  · exact hQ _ s hs rfl hempty
  · exact hQ _ s hs rfl hempty
  have hwrite : (s.dinode ip).write off src =
      { s.dinode ip with data := overwrite (s.dinode ip).data off src } :=
    if_neg (by rw [htype]; decide)
  have hsize : ((s.dinode ip).write off src).size = max (s.dinode ip).size (off + src.length) :=
    Dinode.size_write (by rw [htype]; decide) (not_lt.mp hoff)
  have hwrote := wp_writeContents (H := fun _ => True) trivial hs.exact hs.noHoles hco hfree
    (not_lt.mp hoff) (not_lt.mp hmax) (f := fun d => d.write off src) (by rw [hwrite]; rfl)
    (by rw [hwrite]) hsize (Q := fun _ s' => Wrote ip ((s.dinode ip).write off src) s s')
    fun s' hw _ => hw
  have hcard := wp_writeContents_card (H := fun _ => True) (g := fun d => d.write off src) trivial
    hs.exact hs.noHoles hco hfree (not_lt.mp hoff) (not_lt.mp hmax) hsrc h0
  refine (hwrote.and hcard).mono (fun _ s' hs' => ?_) fun e _ => hH _ _
  obtain ⟨⟨⟨a, bm, w, lg, hframe⟩, hexact, hholes⟩, hlog⟩ := hs'
  have hself : s'.dinode ip = { (s.dinode ip).write off src with addrs := a } := by
    rw [hframe]
    exact update_self _ _ _
  have haddrs : s'.addrs ip = a := by
    rw [hframe]
    exact update_self _ _ _
  refine hQ _ s' ⟨hexact, hholes, ?_, fun _ => ?_⟩ (by rw [hframe]) hlog
  · rw [State.type, hself, hwrite]
    exact htype
  · rw [haddrs, hself]

/-- The sections from `s` to `s'` pass at most `MAXOPBLOCKS` blocks to `log_write` each. -/
def Fits (s s' : State P) : Prop :=
  ∃ new, s'.sections = new ++ s.sections ∧ ∀ lg ∈ new, lg.toFinset.card ≤ MAXOPBLOCKS

theorem Fits.refl (s : State P) : Fits s s := ⟨[], rfl, fun _ h => nomatch h⟩

theorem Fits.trans {s'' : State P} (h : Fits s s') (h' : Fits s' s'') : Fits s s'' := by
  obtain ⟨new, hnew, hall⟩ := h
  obtain ⟨new', hnew', hall'⟩ := h'
  refine ⟨new' ++ new, by rw [hnew', hnew, List.append_assoc], fun lg hlg => ?_⟩
  obtain hlg | hlg := List.mem_append.mp hlg
  · exact hall' lg hlg
  · exact hall lg hlg

/-- The section ends, with the lock given up. -/
theorem wp_finish (hs : Ready ip s') (hsec : s'.sections = s.sections)
    (hcard : s'.logged.toFinset.card ≤ MAXOPBLOCKS) (hH : ∀ e s', H e s') (r : ℤ)
    (hQ : ∀ s'', Ready ip s'' → Fits s s'' → Q () h s'') :
    Prog.wp (setOff f r) (fun _ h' s' =>
    Prog.wp (iunlock ip) (fun _ h' s' => Prog.wp endOp Q H h' s')
      H h' s') H (ip :: h) s' := by
  have hend : ∀ s₃ : State P, Ready ip s₃ → s₃.logged = s'.logged → s₃.sections = s'.sections →
      Prog.wp (iunlock ip) (fun _ h' s' => Prog.wp endOp Q H h' s') H (ip :: h) s₃ := by
    intro s₃ hs₃ hlog₃ hsec₃
    simp only [iunlock, Prog.wp_bind, Prog.wp_isHeld, Prog.wp_read, Prog.wp_ite, Prog.wp_fail,
      Prog.wp_unlock, wp_endOp, List.erase_cons_head]
    split_ifs
    · exact hH _ _
    · refine hQ s₃.ended ⟨hs₃.exact, hs₃.noHoles, hs₃.type, hs₃.coherent⟩
        ⟨[s₃.logged], ?_, fun lg hlg => ?_⟩
      · change s₃.logged :: s₃.sections = _
        rw [hsec₃, hsec]
        rfl
      · rwa [List.mem_singleton.mp hlg, hlog₃]
  simp only [setOff, wp_prog_atomic, wp_bind, wp_get, wp_ite, wp_set, wp_pure]
  split_ifs
  · exact hend _ ⟨hs.exact, hs.noHoles, hs.type, hs.coherent⟩ rfl rfl
  · exact hend _ hs rfl rfl

/-- Each round of the loop of `filewrite` passes at most `MAXOPBLOCKS` blocks to `log_write`,
whatever the number of bitmap blocks. -/
theorem chunk_fits_log (hs : Ready ip s) (f : Fin NFILE) (n : ℕ) (src : List UInt8) (h : List ℕ) :
    Prog.wp (filewriteFrom f ip n src) (fun _ _ s' => Fits s s') (fun _ _ => True) h s := by
  induction n generalizing s src h with
  | zero => exact .refl s
  | succ n ih =>
    unfold filewriteFrom
    rw [Prog.wp_ite]
    split_ifs
    · exact .refl s
    simp only [Prog.wp_bind, wp_beginOp, Prog.wp_read]
    refine wp_ilock_ready (s := s.begun) ⟨hs.exact, hs.noHoles, hs.type, hs.coherent⟩
      (fun _ _ => trivial) fun s₁ hs₁ hco h0 hsec₁ => ?_
    refine wp_writei_card hs₁ hco h0 (List.length_take_le _ _) (fun _ _ => trivial)
      fun r s₂ hs₂ hsec₂ hcard => ?_
    refine wp_finish hs₂ (hsec₂.trans hsec₁) hcard (fun _ _ => trivial) r fun s₃ hs₃ hfits => ?_
    rw [Prog.wp_ite, Prog.wp_ite]
    split_ifs
    · exact hfits
    · trivial
    · exact (ih hs₃ _ _).imp fun _ _ s' hs' => Fits.trans hfits hs'

end Chunk

/-- The file of the tour, inode 3, is written to. -/
theorem chunk_fits_log_tour :
    (filewriteFrom 0 3 1 [7]).returns [] (tour.state 2) = some true ∧
      Prog.wp (filewriteFrom 0 3 1 [7]) (fun _ _ s' => Fits (tour.state 2) s') (fun _ _ => True) []
        (tour.state 2) := by
  have hs := steady_run (t := False) (a := False) mkfs_wellFormed tour rfl False.elim
    False.elim (k := 2) (by decide)
  have htype : (tour.state 2).type 3 = .file := by decide +kernel
  have hready : Ready 3 (tour.state 2) :=
    ⟨hs.cache.exact, hs.cache.noHoles, htype, fun hv => (hs.cache.valid 3 hv).2⟩
  refine ⟨by decide +kernel, ?_⟩
  -- the state is not to be computed any further
  generalize tour.state 2 = s at hready
  exact chunk_fits_log hready 0 1 [7] []

end Xv6.Fs
