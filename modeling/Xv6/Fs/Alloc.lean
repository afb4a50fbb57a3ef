import Mathlib.Data.List.Basic
import Mathlib.Data.Nat.Basic
import Mathlib.Order.Basic
import Mathlib.Tactic.Common
import Xv6.Fs.Block
import Xv6.Lib.Alloc

/-!
# Blocks are allocated exactly

The pointers on disk are the addresses of inodes in use and the words of their
indirect blocks. Between an allocation and the `iupdate` that follows it, the
pointers that count are those that an `iupdate` would leave (`flush`).
-/

namespace Xv6.Fs

open Function

variable {P : Type}

/-- A place on disk that may refer to a block. -/
inductive Pointer where
  | addr (i k : ℕ)
  /-- word `j` of the indirect block of inode `i` -/
  | entry (i j : ℕ)
  deriving DecidableEq

def Pointer.inode : Pointer → ℕ
  | addr i _ => i
  | entry i _ => i

/-- The pointer to block `bn` of the data. -/
def Pointer.block (i bn : ℕ) : Pointer :=
  if bn < NDIRECT then .addr i bn else .entry i (bn - NDIRECT)

theorem Pointer.block_inode (i bn : ℕ) : (Pointer.block i bn).inode = i := by
  unfold Pointer.block
  split_ifs <;> rfl

namespace Image

/-- The block that a pointer refers to; zero if there is none. -/
def ptr (img : Image) : Pointer → ℕ
  | .addr i k =>
    if (img.dinode i).type = .free ∨ NDIRECT < k then 0 else (img.dinode i).addrs k
  | .entry i j =>
    if (img.dinode i).type = .free ∨ NINDIRECT ≤ j ∨ (img.dinode i).addrs NDIRECT = 0 then 0
    else img.word ((img.dinode i).addrs NDIRECT) j

/-- A bit is set if the block holds metadata or a pointer refers to it; only one does. -/
def Exact (img : Image) : Prop :=
  AllocExact (img.sb.size - img.sb.nblocks) img.sb.size img.ptr img.bitmap

/-- Every inode has the blocks below its size. -/
def NoHoles (img : Image) : Prop :=
  ∀ i, (img.dinode i).type ≠ .free → ∀ bn, bn * BSIZE < (img.dinode i).size →
    img.ptr (.block i bn) ≠ 0

end Image

/-- What an `iupdate` of inode `i` would leave on disk. -/
def State.flush (s : State P) (i : ℕ) : Image :=
  (s.setDinode i { s.dinode i with addrs := s.addrs i }).toImage

/-- Between `s` and `s'`, only blocks in `l` and bitmap blocks were passed to `log_write`. -/
def Logs (l : List ℕ) (s s' : State P) : Prop :=
  ∀ x ∈ s'.logged, x ∈ s.logged ∨ (∃ b < s.sb.size, x = s.sb.bblock b) ∨ x ∈ l

section Pointers

variable {s s' : State P} {img img' : Image} {i : ℕ} {x : Pointer}

/-- A pointer depends on its inode and on the indirect block of that. -/
theorem Image.ptr_congr (hd : img'.dinode x.inode = img.dinode x.inode)
    (hw : (img.dinode x.inode).addrs NDIRECT ≠ 0 →
      img'.word ((img.dinode x.inode).addrs NDIRECT) =
        img.word ((img.dinode x.inode).addrs NDIRECT)) :
    img'.ptr x = img.ptr x := by
  cases x with
  | addr i k =>
    simp only [Pointer.inode] at hd
    simp only [Image.ptr, hd]
  | entry i j =>
    simp only [Pointer.inode] at hd hw
    simp only [Image.ptr, hd]
    split_ifs with h
    · rfl
    · rw [hw fun h0 => h (Or.inr (Or.inr h0))]

theorem flush_dinode_of_ne {j : ℕ} (h : j ≠ i) : (s.flush i).dinode j = s.dinode j :=
  update_of_ne h _ _

theorem flush_dinode_self : (s.flush i).dinode i = { s.dinode i with addrs := s.addrs i } :=
  update_self _ _ _

theorem flush_type_self : ((s.flush i).dinode i).type = s.type i := by
  rw [flush_dinode_self]
  rfl

theorem flush_addrs_self : ((s.flush i).dinode i).addrs = s.addrs i := by
  rw [flush_dinode_self]

theorem flush_ptr_addr {k : ℕ} (ht : s.type i ≠ .free) (hk : k ≤ NDIRECT) :
    (s.flush i).ptr (.addr i k) = s.addrs i k := by
  rw [Image.ptr, flush_dinode_self]
  exact if_neg (by rintro (h | h); exacts [ht h, absurd hk (Nat.not_le.mpr h)])

theorem flush_ptr_entry {j : ℕ} (ht : s.type i ≠ .free) (hj : j < NINDIRECT)
    (h0 : s.addrs i NDIRECT ≠ 0) :
    (s.flush i).ptr (.entry i j) = s.word (s.addrs i NDIRECT) j := by
  rw [Image.ptr, flush_dinode_self]
  exact if_neg (by rintro (h | h | h); exacts [ht h, absurd hj (Nat.not_lt.mpr h), h0 h])

/-- With the pointers on disk there is nothing to flush. -/
theorem flush_eq (h : s.addrs i = (s.dinode i).addrs) : s.flush i = s.toImage := by
  rw [State.flush, h, State.setDinode, update_eq_self]

/-- The addresses of inodes in use are pointers. -/
theorem Image.ptr_indirect (img : Image) (ht : (img.dinode i).type ≠ .free) :
    img.ptr (.addr i NDIRECT) = (img.dinode i).addrs NDIRECT :=
  if_neg (by rintro (h | h); exacts [ht h, absurd h (Nat.lt_irrefl _)])

/-- A block without pointers is not an indirect block: it may be written over. -/
theorem Image.ptr_zero_block (img : Image) {b : ℕ} {w : ℕ → ℕ} {bm : ℕ → Bool}
    (hb : ∀ x, img.ptr x ≠ b) :
    ({ img with word := update img.word b w, bitmap := bm } : Image).ptr = img.ptr := by
  funext x
  cases x with
  | addr i k => rfl
  | entry i j =>
    simp only [Image.ptr]
    split_ifs with h
    · rfl
    · push Not at h
      have hne : (img.dinode i).addrs NDIRECT ≠ b := fun he =>
        hb (.addr i NDIRECT) ((img.ptr_indirect h.1).trans he)
      rw [update_of_ne hne]

/-- An address of the inode is set. The new indirect block, if it is one, has no pointers yet. -/
theorem flush_setAddr {k b : ℕ} (ht : s.type i ≠ .free) (hk : k ≤ NDIRECT)
    (hind : k = NDIRECT → s.addrs i k = 0 ∧ s.word b = fun _ => 0) :
    ((s.setAddr i k b).flush i).ptr = update (s.flush i).ptr (.addr i k) b := by
  have ht' : (s.setAddr i k b).type i ≠ .free := ht
  have haddrs : (s.setAddr i k b).addrs i = update (s.addrs i) k b := update_self _ _ _
  funext x
  by_cases hi : x.inode = i
  · cases x with
    | addr i' k' =>
      obtain rfl : i' = i := hi
      by_cases hk' : NDIRECT < k'
      · have hne : Pointer.addr i' k' ≠ .addr i' k := by
          rintro ⟨⟩
          omega
        rw [update_of_ne hne, Image.ptr, Image.ptr, if_pos (Or.inr hk'), if_pos (Or.inr hk')]
      · rw [flush_ptr_addr ht' (by omega), haddrs]
        by_cases hkk : k' = k
        · rw [hkk, update_self, update_self]
        · rw [update_of_ne hkk, update_of_ne (by simpa using hkk), flush_ptr_addr ht (by omega)]
    | entry i' j =>
      obtain rfl : i' = i := hi
      rw [update_of_ne (by simp)]
      simp only [Image.ptr, flush_dinode_self, haddrs]
      by_cases hkn : k = NDIRECT
      · obtain ⟨h0, hw⟩ := hind hkn
        subst hkn
        rw [if_pos (Or.inr (Or.inr h0)), update_self]
        split_ifs
        · rfl
        · exact congrFun hw j
      · rw [update_of_ne (Ne.symm hkn)]
        rfl
  · have hne : x ≠ .addr i k := fun h => hi (by rw [h]; rfl)
    rw [update_of_ne hne]
    have hd : ((s.setAddr i k b).flush i).dinode x.inode = (s.flush i).dinode x.inode :=
      (flush_dinode_of_ne (s := s.setAddr i k b) hi).trans (flush_dinode_of_ne (s := s) hi).symm
    exact Image.ptr_congr hd fun _ => rfl

/-- A word of the indirect block of the inode is set. -/
theorem flush_setWord {j b : ℕ}
    (hinj : ∀ x y, (s.flush i).ptr x ≠ 0 → (s.flush i).ptr x = (s.flush i).ptr y → x = y)
    (ht : s.type i ≠ .free) (hj : j < NINDIRECT) (h0 : s.addrs i NDIRECT ≠ 0) :
    ((s.setWord (s.addrs i NDIRECT) j b).flush i).ptr = update (s.flush i).ptr (.entry i j) b := by
  set ind := s.addrs i NDIRECT
  have ht' : (s.setWord ind j b).type i ≠ .free := ht
  have hword : (s.setWord ind j b).word ind = update (s.word ind) j b := update_self _ _ _
  have hptr : (s.flush i).ptr (.addr i NDIRECT) = ind := flush_ptr_addr ht (Nat.le_refl _)
  funext x
  cases x with
  | addr i' k' => rfl
  | entry i' j' =>
    by_cases hi : i' = i
    · subst hi
      by_cases hj' : NINDIRECT ≤ j'
      · have hne : Pointer.entry i' j' ≠ .entry i' j := by
          rintro ⟨⟩
          omega
        rw [update_of_ne hne, Image.ptr, Image.ptr, if_pos (Or.inr (Or.inl hj')),
          if_pos (Or.inr (Or.inl hj'))]
      · rw [flush_ptr_entry ht' (by omega) h0]
        change (s.setWord ind j b).word ind j' = _
        rw [hword]
        by_cases hjj : j' = j
        · rw [hjj, update_self, update_self]
        · rw [update_of_ne hjj, update_of_ne (by simpa using hjj), flush_ptr_entry ht (by omega) h0]
    · rw [update_of_ne (by simp [hi])]
      simp only [Image.ptr]
      have hd : ((s.setWord ind j b).flush i).dinode i' = (s.flush i).dinode i' := rfl
      rw [hd]
      split_ifs with h
      · rfl
      · push Not at h
        -- two inodes do not share an indirect block
        have hne : ((s.flush i).dinode i').addrs NDIRECT ≠ ind := fun he => by
          have hp := (s.flush i).ptr_indirect h.1
          have := hinj (.addr i' NDIRECT) (.addr i NDIRECT) (by rw [hp]; exact h.2.2)
            (by rw [hp, hptr, he])
          exact hi (Pointer.addr.inj this).1
        change (update s.word ind _) _ j' = s.word _ j'
        rw [update_of_ne hne]

end Pointers

/-! ### Log writes -/

section Logs

variable {s s' s'' : State P} {l l' : List ℕ}

theorem Logs.refl (s : State P) : Logs [] s s := fun _ hx => Or.inl hx

theorem Logs.trans (h : Logs l s s') (h' : Logs l' s' s'') (hsb : s'.sb = s.sb) :
    Logs (l ++ l') s s'' := fun x hx => by
  rcases h' x hx with hx | hx | hx
  · rcases h x hx with hx | hx | hx
    · exact Or.inl hx
    · exact Or.inr (Or.inl hx)
    · exact Or.inr (Or.inr (List.mem_append_left l' hx))
  · rw [hsb] at hx
    exact Or.inr (Or.inl hx)
  · exact Or.inr (Or.inr (List.mem_append_right l hx))

theorem Logs.mono (h : Logs l s s') (hl : l ⊆ l') : Logs l' s s' := fun x hx =>
  (h x hx).imp id (Or.imp id fun hm => hl hm)

end Logs

/-! ### Blocks of one inode -/

/-- Inode `i` has got blocks. -/
structure Grows (i : ℕ) (s s' : State P) : Prop where
  frame : ∃ a bm w lg,
    s' = { s with addrs := update s.addrs i a, bitmap := bm, word := w, logged := lg }
  exact : (s'.flush i).Exact
  keeps : ∀ x, (s.flush i).ptr x ≠ 0 → (s'.flush i).ptr x = (s.flush i).ptr x
  others : ∀ x, x.inode ≠ i → (s'.flush i).ptr x = (s.flush i).ptr x

/-- How many of the blocks `bns` inode `i` does not have. -/
def missing (s : State P) (i : ℕ) (bns : List ℕ) : ℕ :=
  (bns.filter fun bn => (s.flush i).ptr (.block i bn) = 0).length

/-- 1 if inode `i` has no indirect block. -/
def lacks (s : State P) (i : ℕ) : ℕ := if s.addrs i NDIRECT = 0 then 1 else 0

/-- Blocks of the bitmap. -/
def Bitmap (s : State P) (bits : List ℕ) : Prop := ∀ x ∈ bits, ∃ b < s.sb.size, x = s.sb.bblock b

/-- Between `s` and `s'`, at most `m` bitmap blocks and `d` other blocks were passed to
`log_write`, and the indirect block of inode `i`. -/
def Spent (i m d : ℕ) (s s' : State P) : Prop :=
  ∃ bits data : List ℕ, Bitmap s bits ∧ bits.length ≤ m ∧ data.length ≤ d ∧
    ∀ x ∈ s'.logged, x ∈ s.logged ∨ x ∈ bits ∨ x ∈ data ∨ x ≠ 0 ∧ x = s'.addrs i NDIRECT

section Grows

variable {s s' s'' : State P} {i k bn m m' d d' : ℕ} {bns : List ℕ} {H : Panic → Prop}
  {Q : Unit → State P → Prop}

theorem Grows.refl (h : (s.flush i).Exact) : Grows i s s :=
  ⟨⟨s.addrs i, s.bitmap, s.word, s.logged, by rw [update_eq_self]⟩, h, fun _ _ => rfl,
    fun _ _ => rfl⟩

section

variable (h : Grows i s s')
include h

theorem Grows.trans (h' : Grows i s' s'') : Grows i s s'' := by
  refine ⟨?_, h'.exact, fun x hx => ?_, fun x hx => (h'.others x hx).trans (h.others x hx)⟩
  · obtain ⟨a, bm, w, lg, rfl⟩ := h.frame
    obtain ⟨a', bm', w', lg', rfl⟩ := h'.frame
    exact ⟨a', bm', w', lg', by rw [update_idem]⟩
  · have heq := h.keeps x hx
    rw [h'.keeps x (heq ▸ hx), heq]

theorem Grows.logged (lg : List ℕ) : Grows i s { s' with logged := lg } := by
  obtain ⟨a, bm, w, lg', rfl⟩ := h.frame
  exact ⟨⟨a, bm, w, lg, rfl⟩, h.exact, h.keeps, h.others⟩

theorem Grows.sb : s'.sb = s.sb := by
  obtain ⟨a, bm, w, lg, rfl⟩ := h.frame
  rfl

theorem Grows.dinode : s'.dinode = s.dinode := by
  obtain ⟨a, bm, w, lg, rfl⟩ := h.frame
  rfl

theorem Grows.type : s'.type i = s.type i := by
  rw [State.type, h.dinode, State.type]

end

theorem Bitmap.append {bits bits' : List ℕ} (h : Bitmap s bits) (h' : Bitmap s bits') :
    Bitmap s (bits ++ bits') := fun x hx => (List.mem_append.mp hx).elim (h x) (h' x)

theorem Bitmap.congr {bits : List ℕ} (h : Bitmap s' bits) (hsb : s'.sb = s.sb) : Bitmap s bits :=
  fun x hx => hsb ▸ h x hx

theorem Spent.refl (i : ℕ) (s : State P) : Spent i 0 0 s s :=
  ⟨[], [], by simp [Bitmap], le_rfl, le_rfl, fun _ hx => Or.inl hx⟩

theorem Spent.mono (h : Spent i m d s s') (hm : m ≤ m') (hd : d ≤ d') : Spent i m' d' s s' := by
  obtain ⟨bits, data, hmap, hbits, hdata, hlog⟩ := h
  exact ⟨bits, data, hmap, hbits.trans hm, hdata.trans hd, hlog⟩

/-- The indirect block is one of the others. -/
theorem Spent.logs (h : Spent i m d s s') : ∃ l : List ℕ, l.length ≤ d + 1 ∧ Logs l s s' := by
  obtain ⟨bits, data, hmap, -, hdata, hlog⟩ := h
  refine ⟨s'.addrs i NDIRECT :: data, Nat.succ_le_succ hdata, fun x hx => ?_⟩
  simp only [List.mem_cons]
  obtain hx | hx | hx | ⟨-, hx⟩ := hlog x hx
  · exact Or.inl hx
  · exact Or.inr (Or.inl (hmap x hx))
  · exact Or.inr (Or.inr (Or.inr hx))
  · exact Or.inr (Or.inr (Or.inl hx))

/-- An indirect block that is there stays. -/
theorem Spent.trans (h : Spent i m d s s') (h' : Spent i m' d' s' s'')
    (hkeep : s'.addrs i NDIRECT ≠ 0 → s''.addrs i NDIRECT = s'.addrs i NDIRECT)
    (hsb : s'.sb = s.sb) : Spent i (m + m') (d + d') s s'' := by
  obtain ⟨bits, data, hmap, hbits, hdata, hlog⟩ := h
  obtain ⟨bits', data', hmap', hbits', hdata', hlog'⟩ := h'
  refine ⟨bits ++ bits', data ++ data', hmap.append (hmap'.congr hsb), ?_, ?_, fun x hx => ?_⟩
  · rw [List.length_append]
    omega
  · rw [List.length_append]
    omega
  simp only [List.mem_append]
  obtain hx | hx | hx | hx := hlog' x hx
  · obtain hx | hx | hx | ⟨h0, hx⟩ := hlog x hx
    · exact Or.inl hx
    · exact Or.inr (Or.inl (Or.inl hx))
    · exact Or.inr (Or.inr (Or.inl (Or.inl hx)))
    · exact Or.inr (Or.inr (Or.inr ⟨h0, hx.trans (hkeep (hx ▸ h0)).symm⟩))
  · exact Or.inr (Or.inl (Or.inr hx))
  · exact Or.inr (Or.inr (Or.inl (Or.inr hx)))
  · exact Or.inr (Or.inr (Or.inr hx))

theorem Grows.indirect (h : Grows i s s') (ht : s.type i ≠ .free) (h0 : s.addrs i NDIRECT ≠ 0) :
    s'.addrs i NDIRECT = s.addrs i NDIRECT := by
  have hptr := flush_ptr_addr ht (le_refl NDIRECT)
  have hkeep := h.keeps (.addr i NDIRECT) (by rwa [hptr])
  rwa [flush_ptr_addr (by rwa [h.type]) le_rfl, hptr] at hkeep

/-- Blocks that are there stay. -/
theorem Grows.missing_le (h : Grows i s s') (bns : List ℕ) :
    missing s' i bns ≤ missing s i bns := by
  refine (List.monotone_filter_right bns fun bn hbn => ?_).length_le
  rw [decide_eq_true_eq] at hbn ⊢
  by_contra h0
  exact h0 ((h.keeps _ h0).symm.trans hbn)

theorem missing_cons (s : State P) (i bn : ℕ) (bns : List ℕ) :
    missing s i (bn :: bns) = missing s i [bn] + missing s i bns := by
  rw [missing, ← List.singleton_append, List.filter_append, List.length_append, missing, missing]

theorem missing_of_ptr (h : (s.flush i).ptr (.block i bn) = 0) : missing s i [bn] = 1 := by
  simp [missing, h]

theorem wp_logWrite {b : ℕ} :
    wp (logWrite b) Q H = fun s => Q () { s with logged := b :: s.logged } := rfl

theorem wp_store {f : Dinode → Dinode} : wp (store i f) Q H = fun s => Q () { s with
      dinode := update s.dinode i { f (s.dinode i) with addrs := s.addrs i },
      logged := s.sb.iblock i :: s.logged } := rfl

/-- `balloc` has taken block `b`. -/
abbrev State.taken (s : State P) (b : ℕ) (lg : List ℕ) : State P :=
  { s with bitmap := update s.bitmap b true, word := update s.word b fun _ => 0, logged := lg }

theorem wp_balloc {Q : ℕ → State P → Prop} (hH : H .balloc)
    (hQ : ∀ b < s.sb.size, s.bitmap b = false →
      Q b (s.taken b (b :: s.sb.bblock b :: s.logged))) : wp balloc Q H s := by
  simp only [balloc, wp_bind, wp_get]
  cases hf : (List.range s.sb.size).find? fun b => !s.bitmap b with
  | none => exact hH
  | some b =>
    have hb := List.mem_range.mp (List.mem_of_find?_eq_some hf)
    have hbit := List.find?_some hf
    exact hQ b hb (by simpa using hbit)

/-- A block in use can be freed. -/
theorem wp_bfree {b : ℕ} (hbit : s.bitmap b = true)
    (hQ : Q () { s with bitmap := update s.bitmap b false, logged := s.sb.bblock b :: s.logged }) :
    wp (bfree b) Q H s := by
  simp only [bfree, wp_bind, wp_get, wp_ite, hbit, wp_modify]
  exact hQ

section Taken

variable {b : ℕ} (hs : (s.flush i).Exact) (hb : b < s.sb.size) (hbit : s.bitmap b = false)
include hs hb hbit

theorem flush_taken (lg : List ℕ) : ((s.taken b lg).flush i).ptr = (s.flush i).ptr :=
  (s.flush i).ptr_zero_block (hs.ptr_ne hb hbit)

/-- A pointer that is zero gets the block. -/
theorem Grows.attach {x : Pointer} (hx : (s.flush i).ptr x = 0) (hxi : x.inode = i)
    (hptr : (s'.flush i).ptr = update (s.flush i).ptr x b) (hframe : ∃ a w lg, s' = { s with
      addrs := update s.addrs i a, bitmap := update s.bitmap b true, word := w, logged := lg }) :
    Grows i s s' := by
  obtain ⟨a, w, lg, hs'⟩ := hframe
  refine ⟨⟨a, _, w, lg, hs'⟩, ?_, fun y hne => ?_, fun y hyi => ?_⟩
  · rw [Image.Exact, hptr, hs']
    exact AllocExact.attach hs hx hb hbit
  · rw [hptr, update_of_ne fun h => hne (by rw [h, hx])]
  · rw [hptr, update_of_ne fun h => hyi (by rw [h, hxi])]

/-- An address that is zero gets a block. -/
theorem Grows.addr (ht : s.type i ≠ .free) (hk : k ≤ NDIRECT) (h0 : s.addrs i k = 0)
    (lg : List ℕ) : Grows i s ((s.taken b lg).setAddr i k b) := by
  refine .attach hs hb hbit ((flush_ptr_addr ht hk).trans h0) rfl ?_ ⟨_, _, _, rfl⟩
  rw [← flush_taken hs hb hbit lg]
  exact flush_setAddr ht hk fun hk' => ⟨h0, update_self _ _ _⟩

/-- A word of the indirect block that is zero gets a block. -/
theorem Grows.word {j : ℕ} (ht : s.type i ≠ .free) (hj : j < NINDIRECT)
    (hind : s.addrs i NDIRECT ≠ 0) (h0 : s.word (s.addrs i NDIRECT) j = 0) (lg : List ℕ) :
    Grows i s ((s.taken b lg).setWord (s.addrs i NDIRECT) j b) ∧
      (((s.taken b lg).setWord (s.addrs i NDIRECT) j b).flush i).ptr (.entry i j) = b := by
  have htaken := flush_taken hs hb hbit lg
  have hptr : (((s.taken b lg).setWord (s.addrs i NDIRECT) j b).flush i).ptr =
      update (s.flush i).ptr (.entry i j) b := by
    rw [← htaken]
    exact flush_setWord (by rw [htaken]; exact hs.inj) ht hj hind
  exact ⟨.attach hs hb hbit ((flush_ptr_entry ht hj hind).trans h0) rfl hptr
    ⟨s.addrs i, _, _, by rw [update_eq_self]; rfl⟩, by rw [hptr, update_self]⟩

end Taken

section Bmap

variable (hH : H .balloc) (hs : (s.flush i).Exact) (ht : s.type i ≠ .free)
include hH hs ht

/-- An address is looked up: a bitmap block is written if there is no block yet. -/
theorem wp_bmapAddr {Q : ℕ → State P → Prop} (hk : k ≤ NDIRECT)
    (hQ : ∀ b s' (bits : List ℕ), Grows i s s' → s'.addrs i k = b → b ≠ 0 →
      (s.addrs i k ≠ 0 → s' = s ∧ bits = []) → Bitmap s bits → bits.length ≤ 1 →
      (∀ x ∈ s'.logged, x ∈ s.logged ∨ x ∈ bits ∨ x = b) → Q b s') :
    wp (bmapAddr i k) Q H s := by
  simp only [bmapAddr, wp_bind, wp_get, wp_ite, wp_pure, wp_modify]
  split_ifs with h0
  · refine wp_balloc hH fun b hb hbit => ?_
    refine hQ b _ [s.sb.bblock b] (.addr hs hb hbit ht hk h0 _) ?_ ?_ (fun h => absurd h0 h)
      (fun x hx => ⟨b, hb, List.mem_singleton.mp hx⟩) le_rfl fun x hx => ?_
    · simp [State.setAddr, State.setAddrs]
    · have hlo := hs.le_of_bit hb hbit
      have hpos := hs.lo_pos
      omega
    · simp only [State.setAddr, State.setAddrs, List.mem_cons] at hx
      obtain hx | hx | hx := hx
      · exact Or.inr (Or.inr hx)
      · exact Or.inr (Or.inl (List.mem_singleton.mpr hx))
      · exact Or.inl hx
  · exact hQ _ s [] (.refl hs) rfl h0 (fun _ => ⟨rfl, rfl⟩) (by simp [Bitmap]) (Nat.zero_le 1)
      fun x hx => Or.inl hx

theorem wp_bmapWord {j : ℕ} {Q : ℕ → State P → Prop} (hj : j < NINDIRECT)
    (hind : s.addrs i NDIRECT ≠ 0)
    (hQ : ∀ b s' (bits : List ℕ), Grows i s s' → (s'.flush i).ptr (.entry i j) ≠ 0 →
      s'.addrs = s.addrs → Bitmap s bits →
      bits.length ≤ (if (s.flush i).ptr (.entry i j) = 0 then 1 else 0) →
      (∀ x ∈ s'.logged, x ∈ s.logged ∨ x ∈ bits ∨ x = b ∨ x = s.addrs i NDIRECT) → Q b s') :
    wp (bmapWord (s.addrs i NDIRECT) j) Q H s := by
  have hptr := flush_ptr_entry ht hj hind
  simp only [bmapWord, wp_bind, wp_get, wp_ite, wp_pure, wp_modify, wp_logWrite]
  split_ifs with h0
  · refine wp_balloc hH fun b hb hbit => ?_
    obtain ⟨hg, hb'⟩ := Grows.word hs hb hbit ht hj hind h0 (b :: s.sb.bblock b :: s.logged)
    refine hQ b _ [s.sb.bblock b] (hg.logged _) (fun h => ?_) rfl
      (fun x hx => ⟨b, hb, List.mem_singleton.mp hx⟩) ?_ fun x hx => ?_
    · have hb0 : b = 0 := hb'.symm.trans h
      have hlo := hs.le_of_bit hb hbit
      have hpos := hs.lo_pos
      omega
    · rw [if_pos (hptr.trans h0)]
      rfl
    · simp only [State.setWord, List.mem_cons] at hx
      obtain hx | hx | hx | hx := hx
      · exact Or.inr (Or.inr (Or.inr hx))
      · exact Or.inr (Or.inr (Or.inl hx))
      · exact Or.inr (Or.inl (List.mem_singleton.mpr hx))
      · exact Or.inl hx
  · refine hQ _ s [] (.refl hs) (by rwa [hptr]) rfl (by simp [Bitmap]) (Nat.zero_le _)
      fun x hx => Or.inl hx

/-- What is passed to `log_write` for one block, besides the block itself. -/
theorem wp_bmap {Q : ℕ → State P → Prop} (hbn : bn < MAXFILE)
    (hQ : ∀ b s' (bits : List ℕ), Grows i s s' → (s'.flush i).ptr (.block i bn) ≠ 0 →
      Bitmap s bits → bits.length + lacks s' i ≤ missing s i [bn] + lacks s i →
      (∀ x ∈ s'.logged, x ∈ s.logged ∨ x ∈ bits ∨ x = b ∨ x ≠ 0 ∧ x = s'.addrs i NDIRECT) →
      Q b s') : wp (bmap i bn) Q H s := by
  simp only [bmap, wp_ite, wp_bind, wp_throw]
  split_ifs with hdir hind
  · have hblock : Pointer.block i bn = .addr i bn := if_pos hdir
    refine wp_bmapAddr hH hs ht hdir.le fun b s' bits hg hb hb0 hsame hmap hbits hlog => ?_
    refine hQ b s' bits hg ?_ hmap ?_ fun x hx => (hlog x hx).imp_right (Or.imp_right Or.inl)
    · rw [hblock, flush_ptr_addr (by rwa [hg.type]) hdir.le, hb]
      exact hb0
    · have hlacks : lacks s' i ≤ lacks s i := by
        by_cases h0 : s.addrs i NDIRECT = 0
        · rw [lacks, lacks, if_pos h0]
          split <;> omega
        · rw [lacks, lacks, hg.indirect ht h0]
      by_cases h0 : s.addrs i bn = 0
      · rw [missing_of_ptr (by rw [hblock, flush_ptr_addr ht hdir.le, h0])]
        omega
      · rw [(hsame h0).2, List.length_nil]
        omega
  · have hblock : Pointer.block i bn = .entry i (bn - NDIRECT) := if_neg hdir
    refine wp_bmapAddr hH hs ht le_rfl fun ind s₁ bits₁ hg₁ hb hb0 hsame hmap₁ hbits₁ hlog₁ => ?_
    subst hb
    have ht₁ : s₁.type i ≠ .free := by rwa [hg₁.type]
    refine wp_bmapWord hH hg₁.exact ht₁ hind hb0
      fun b s₂ bits₂ hg₂ hb' haddrs hmap₂ hbits₂ hlog₂ => ?_
    refine hQ b s₂ (bits₁ ++ bits₂) (hg₁.trans hg₂) (by rwa [hblock])
      (hmap₁.append (hmap₂.congr hg₁.sb)) ?_ fun x hx => ?_
    · have hlacks₂ : lacks s₂ i = 0 := by
        rw [lacks, haddrs, if_neg hb0]
      rw [List.length_append, hlacks₂]
      by_cases h0 : s.addrs i NDIRECT = 0
      · -- without an indirect block there is no data block either
        have hptr : (s.flush i).ptr (.entry i (bn - NDIRECT)) = 0 := by
          rw [Image.ptr, flush_dinode_self]
          exact if_pos (Or.inr (Or.inr h0))
        have hlacks : lacks s i = 1 := if_pos h0
        rw [missing_of_ptr (by rw [hblock, hptr]), hlacks]
        split at hbits₂ <;> omega
      · obtain ⟨rfl, rfl⟩ := hsame h0
        rw [List.length_nil]
        split at hbits₂
        · next hptr =>
          rw [missing_of_ptr (by rw [hblock, hptr])]
          omega
        · omega
    · have hind₂ : s₂.addrs i NDIRECT = s₁.addrs i NDIRECT := by rw [haddrs]
      rw [hind₂]
      simp only [List.mem_append]
      obtain hx | hx | hx | hx := hlog₂ x hx
      · obtain hx | hx | hx := hlog₁ x hx
        · exact Or.inl hx
        · exact Or.inr (Or.inl (Or.inl hx))
        · exact Or.inr (Or.inr (Or.inr ⟨hx ▸ hb0, hx⟩))
      · exact Or.inr (Or.inl (Or.inr hx))
      · exact Or.inr (Or.inr (Or.inl hx))
      · exact Or.inr (Or.inr (Or.inr ⟨hx ▸ hb0, hx⟩))
  · exact absurd (by unfold MAXFILE at hbn; omega) hind

/-- A bitmap block for each block that was not there and for the indirect block, and the blocks
themselves. -/
theorem wp_writeBlocks (hbns : ∀ bn ∈ bns, bn < MAXFILE)
    (hQ : ∀ s', Grows i s s' → (∀ bn ∈ bns, (s'.flush i).ptr (.block i bn) ≠ 0) →
      Spent i (missing s i bns + lacks s i) bns.length s s' → Q () s') :
    wp (writeBlocks i bns) Q H s := by
  induction bns generalizing s with
  | nil => exact hQ s (.refl hs) (by simp) ((Spent.refl i s).mono (Nat.zero_le _) le_rfl)
  | cons bn bns ih =>
    simp only [writeBlocks, wp_bind]
    refine wp_bmap hH hs ht (hbns bn List.mem_cons_self)
      fun b s₁ bits hg₁ hp₁ hmap hbits hlog => ?_
    rw [wp_logWrite]
    have hg₁' := hg₁.logged (b :: s₁.logged)
    have ht₁ : s₁.type i ≠ .free := by rwa [hg₁.type]
    refine ih hg₁'.exact (by rwa [hg₁'.type]) (fun x hx => hbns x (List.mem_cons_of_mem _ hx))
      fun s₂ hg₂ hp₂ hspent₂ => ?_
    have hspent₁ : Spent i bits.length 1 s { s₁ with logged := b :: s₁.logged } := by
      refine ⟨bits, [b], hmap, le_rfl, le_rfl, fun x hx => ?_⟩
      simp only [List.mem_singleton]
      obtain rfl | hx := List.mem_cons.mp hx
      · exact Or.inr (Or.inr (Or.inl rfl))
      · exact hlog x hx
    refine hQ s₂ (hg₁'.trans hg₂) (fun x hx => ?_)
      ((hspent₁.trans hspent₂ (hg₂.indirect ht₁) hg₁.sb).mono ?_ ?_)
    · obtain rfl | hx := List.mem_cons.mp hx
      · rw [hg₂.keeps _ hp₁]
        exact hp₁
      · exact hp₂ x hx
    · have hrest : missing { s₁ with logged := b :: s₁.logged } i bns ≤ missing s i bns :=
        hg₁'.missing_le bns
      have hlacks : lacks { s₁ with logged := b :: s₁.logged } i = lacks s₁ i := rfl
      rw [missing_cons, hlacks]
      omega
    · rw [List.length_cons]
      omega

end Bmap

/-- A block that is there is found. -/
theorem wp_bmap_of_ptr {Q : ℕ → State P → Prop} (ht : s.type i ≠ .free) (hbn : bn < MAXFILE)
    (h : (s.flush i).ptr (.block i bn) ≠ 0) (hQ : ∀ b, Q b s) : wp (bmap i bn) Q H s := by
  simp only [bmap, bmapAddr, bmapWord, wp_ite, wp_bind, wp_get, wp_throw, wp_pure]
  unfold Pointer.block at h
  split_ifs at h ⊢ with hdir h0 hind h0 hw
  · rw [flush_ptr_addr ht hdir.le] at h
    exact absurd h0 h
  · exact hQ _
  · exact absurd (by rw [Image.ptr, flush_dinode_self]; exact if_pos (Or.inr (Or.inr h0))) h
  · rw [flush_ptr_entry ht hind h0] at h
    exact absurd hw h
  · exact hQ _
  · exact absurd (by unfold MAXFILE at hbn; omega) hind

/-- With all blocks there, the loop of `writei` only passes them to `log_write`. -/
theorem wp_writeBlocks_of_ptr {bns : List ℕ} (ht : s.type i ≠ .free)
    (hbns : ∀ bn ∈ bns, bn < MAXFILE) (hp : ∀ bn ∈ bns, (s.flush i).ptr (.block i bn) ≠ 0)
    (hQ : ∀ l : List ℕ, l.length = bns.length → Q () { s with logged := l ++ s.logged }) :
    wp (writeBlocks i bns) Q H s := by
  induction bns generalizing s with
  | nil => exact hQ [] rfl
  | cons bn bns ih =>
    simp only [writeBlocks, wp_bind]
    refine wp_bmap_of_ptr ht (hbns bn List.mem_cons_self) (hp bn List.mem_cons_self) fun b => ?_
    rw [wp_logWrite]
    refine ih ht (fun x hx => hbns x (List.mem_cons_of_mem _ hx))
      (fun x hx => hp x (List.mem_cons_of_mem _ hx)) fun l hl => ?_
    have := hQ (l ++ [b]) (by simp [hl])
    simpa using this

end Grows

/-! ### Writing -/

section Write

variable {s : State P} {img img' : Image} {i off n : ℕ} {H : Panic → Prop}

/-- Pointers depend on which inodes are in use, and on the addresses of those. -/
theorem Image.ptr_eq (ht : ∀ i, (img'.dinode i).type = .free ↔ (img.dinode i).type = .free)
    (ha : ∀ i, (img.dinode i).type ≠ .free → (img'.dinode i).addrs = (img.dinode i).addrs)
    (hw : img'.word = img.word) : img'.ptr = img.ptr := by
  funext x
  cases x with
  | addr i k =>
    simp only [Image.ptr, ht]
    split_ifs with h
    · rfl
    · rw [ha i fun hf => h (Or.inl hf)]
  | entry i j =>
    simp only [Image.ptr, ht, hw]
    by_cases hf : (img.dinode i).type = .free
    · rw [if_pos (Or.inl hf), if_pos (Or.inl hf)]
    · rw [ha i hf]

/-- The pointers once inode `i` is written to disk with the addresses that it has in memory. -/
theorem flush_ptr_eq {d : Dinode} (hd : img.dinode = update s.dinode i d) (ht : d.type = s.type i)
    (ha : d.addrs = s.addrs i) (hw : img.word = s.word) : img.ptr = (s.flush i).ptr := by
  refine Image.ptr_eq (fun j => ?_) (fun j _ => ?_) hw
  · by_cases hj : j = i
    · rw [hj, hd, update_self, ht, flush_type_self]
    · rw [hd, update_of_ne hj, flush_dinode_of_ne hj]
  · by_cases hj : j = i
    · rw [hj, hd, update_self, ha, flush_addrs_self]
    · rw [hd, update_of_ne hj, flush_dinode_of_ne hj]

theorem lt_maxfile_of_mem (hmax : off + n ≤ MAXFILE * BSIZE) {bn : ℕ} (h : bn ∈ blocksOf off n) :
    bn < MAXFILE := by
  unfold blocksOf at h
  split_ifs at h with h0
  · simp at h
  · rw [List.mem_range'_1] at h
    have hd : (off + n - 1) / BSIZE < MAXFILE :=
      Nat.div_lt_of_lt_mul (by rw [Nat.mul_comm]; omega)
    omega

theorem mem_blocksOf {bn : ℕ} (h1 : off ≤ bn * BSIZE) (h2 : bn * BSIZE < off + n) :
    bn ∈ blocksOf off n := by
  have h0 : n ≠ 0 := by omega
  have hlo : off / BSIZE ≤ bn := Nat.div_le_of_le_mul (by rw [Nat.mul_comm]; exact h1)
  have hhi : bn ≤ (off + n - 1) / BSIZE := (Nat.le_div_iff_mul_le (by decide)).mpr (by omega)
  rw [blocksOf, if_neg h0, List.mem_range'_1]
  omega

theorem mul_lt_of_mem_blocksOf {bn : ℕ} (h : bn ∈ blocksOf off n) : bn * BSIZE < off + n := by
  unfold blocksOf at h
  split_ifs at h with h0
  · simp at h
  · rw [List.mem_range'_1] at h
    have hb : bn ≤ (off + n - 1) / BSIZE := by omega
    have := (Nat.le_div_iff_mul_le (by decide)).mp hb
    omega

/-- The contents of inode `i` have become those of `d`. -/
structure Wrote (i : ℕ) (d : Dinode) (s s' : State P) : Prop where
  frame : ∃ a bm w lg, s' = { s with
    dinode := update s.dinode i { d with addrs := a }, addrs := update s.addrs i a,
    bitmap := bm, word := w, logged := lg }
  exact : s'.toImage.Exact
  noHoles : s'.toImage.NoHoles

theorem wp_writeContents {f : Dinode → Dinode} {Q : Unit → State P → Prop} (hH : H .balloc)
    (hs : s.toImage.Exact) (hn : s.toImage.NoHoles) (hco : s.addrs i = (s.dinode i).addrs)
    (ht : s.type i ≠ .free) (hoff : off ≤ (s.dinode i).size) (hmax : off + n ≤ MAXFILE * BSIZE)
    (hft : (f (s.dinode i)).type = s.type i) (hfa : (f (s.dinode i)).addrs = (s.dinode i).addrs)
    (hfs : (f (s.dinode i)).size = max (s.dinode i).size (off + n))
    (hQ : ∀ s', Wrote i (f (s.dinode i)) s s' →
      (∃ l : List ℕ, l.length ≤ 2 * (blocksOf off n).length ∧ Logs (s.sb.iblock i :: l) s s') →
      Q () s') :
    wp (writeContents i off n f) Q H s := by
  have hflush := flush_eq hco
  have hbns : ∀ bn ∈ blocksOf off n, bn < MAXFILE := fun bn => lt_maxfile_of_mem hmax
  simp only [writeContents, wp_bind, wp_get, wp_ite, wp_set]
  by_cases hgrow : (s.dinode i).size < off + n
  · -- the inode grows, and the new addresses are written to disk
    refine wp_writeBlocks hH (by rwa [hflush]) ht hbns fun s₁ hg hp hspent => ?_
    obtain ⟨l, hlen, hl⟩ := hspent.logs
    have hpos : 0 < (blocksOf off n).length := by
      rw [blocksOf, if_neg (by omega), List.length_range', BSIZE]
      omega
    have hd := hg.dinode
    rw [if_pos (by rwa [hd])]
    simp only [store, wp_bind, wp_get, wp_set, wp_logWrite]
    rw [hd, hg.sb]
    set s' : State P := { s₁.setDinode i { f (s.dinode i) with addrs := s₁.addrs i } with
      logged := s.sb.iblock i :: s₁.logged }
    have hself : s'.dinode i = { f (s.dinode i) with addrs := s₁.addrs i } := update_self _ _ _
    have hother : ∀ j ≠ i, s'.dinode j = s.dinode j := fun j hj =>
      (update_of_ne hj _ _).trans (congrFun hd j)
    have hptr : s'.toImage.ptr = (s₁.flush i).ptr :=
      flush_ptr_eq rfl (hft.trans hg.type.symm) rfl rfl
    refine hQ s' ⟨?_, ?_, fun j hj bn hbn => ?_⟩ ⟨l, by omega, fun x hx => ?_⟩
    · obtain ⟨a, bm, w, lg, hs₁⟩ := hg.frame
      refine ⟨a, bm, w, s.sb.iblock i :: lg, ?_⟩
      simp only [s', State.setDinode, hs₁, update_self]
    · rw [Image.Exact, hptr]
      exact hg.exact
    · rw [hptr]
      by_cases hji : j = i
      · subst hji
        rw [hself] at hbn
        change bn * BSIZE < (f (s.dinode j)).size at hbn
        rw [hfs] at hbn
        -- below the old size the block was there, above it the loop went over it
        by_cases hold : bn * BSIZE < (s.dinode j).size
        · have := hn j ht bn hold
          rw [← hflush] at this
          rw [hg.keeps _ this]
          exact this
        · exact hp bn (mem_blocksOf (by omega) (by omega))
      · rw [hother j hji] at hj hbn
        rw [hg.others _ (by rwa [Pointer.block_inode]), hflush]
        exact hn j hj bn hbn
    · rcases List.mem_cons.mp hx with rfl | hx
      · exact Or.inr (Or.inr List.mem_cons_self)
      · exact (hl x hx).imp id (Or.imp id (List.mem_cons_of_mem _))
  · -- there are blocks for all that is written
    refine wp_writeBlocks_of_ptr ht hbns (fun bn hbn => ?_) fun l hl => ?_
    · rw [hflush]
      exact hn i ht bn (lt_of_lt_of_le (mul_lt_of_mem_blocksOf hbn) (not_lt.mp hgrow))
    · rw [if_neg hgrow]
      set s' : State P := State.setDinode { s with logged := l ++ s.logged } i (f (s.dinode i))
      have hself : s'.dinode i = f (s.dinode i) := update_self _ _ _
      have hother : ∀ j ≠ i, s'.dinode j = s.dinode j := fun j hj => update_of_ne hj _ _
      have hptr : s'.toImage.ptr = s.toImage.ptr := by
        rw [← hflush]
        exact flush_ptr_eq rfl hft (hfa.trans hco.symm) rfl
      refine hQ s' ⟨⟨s.addrs i, s.bitmap, s.word, l ++ s.logged, ?_⟩, ?_, fun j hj bn hbn => ?_⟩
        ⟨l, by omega, fun x hx => ?_⟩
      · rw [update_eq_self, hco, ← hfa]
        rfl
      · rw [Image.Exact, hptr]
        exact hs
      · rw [hptr]
        by_cases hji : j = i
        · subst hji
          rw [hself, hfs] at hbn
          exact hn j ht bn (by omega)
        · rw [hother j hji] at hj hbn
          exact hn j hj bn hbn
      · rcases List.mem_append.mp hx with hx | hx
        · exact Or.inr (Or.inr (List.mem_cons_of_mem _ hx))
        · exact Or.inl hx

end Write

/-! ### Freeing -/

/-- Blocks of inode `i` have been freed. -/
structure Shrinks (i : ℕ) (s s' : State P) : Prop where
  frame : ∃ a bm lg, s' = { s with addrs := update s.addrs i a, bitmap := bm, logged := lg }
  exact : (s'.flush i).Exact
  others : ∀ x, x.inode ≠ i → (s'.flush i).ptr x = (s.flush i).ptr x
  logs : Logs [] s s'

/-- The pointers without the first `m` words of the indirect block of inode `i`. -/
def cutEntries (i m : ℕ) (ptr : Pointer → ℕ) : Pointer → ℕ
  | .addr i' k => ptr (.addr i' k)
  | .entry i' j => if i' = i ∧ j < m then 0 else ptr (.entry i' j)

section Shrinks

variable {s s' s'' : State P} {i k m : ℕ} {H : Panic → Prop} {Q : Unit → State P → Prop}

theorem Shrinks.refl (h : (s.flush i).Exact) : Shrinks i s s :=
  ⟨⟨s.addrs i, s.bitmap, s.logged, by rw [update_eq_self]⟩, h, fun _ _ => rfl, .refl s⟩

theorem Shrinks.sb (h : Shrinks i s s') : s'.sb = s.sb := by
  obtain ⟨a, bm, lg, rfl⟩ := h.frame
  rfl

theorem Shrinks.dinode (h : Shrinks i s s') : s'.dinode = s.dinode := by
  obtain ⟨a, bm, lg, rfl⟩ := h.frame
  rfl

theorem Shrinks.type (h : Shrinks i s s') : s'.type i = s.type i := by
  rw [State.type, h.dinode, State.type]

theorem Shrinks.trans (h : Shrinks i s s') (h' : Shrinks i s' s'') : Shrinks i s s'' := by
  refine ⟨?_, h'.exact, fun x hx => (h'.others x hx).trans (h.others x hx),
    h.logs.trans h'.logs h.sb⟩
  obtain ⟨a, bm, lg, rfl⟩ := h.frame
  obtain ⟨a', bm', lg', rfl⟩ := h'.frame
  exact ⟨a', bm', lg', by rw [update_idem]⟩

theorem cutEntries_zero (ptr : Pointer → ℕ) : cutEntries i 0 ptr = ptr := by
  funext x
  cases x with
  | addr i' k => rfl
  | entry i' j => simp [cutEntries]

theorem cutEntries_succ (ptr : Pointer → ℕ) :
    cutEntries i (m + 1) ptr = update (cutEntries i m ptr) (.entry i m) 0 := by
  funext x
  cases x with
  | addr i' k =>
    rw [update_of_ne (by simp)]
    rfl
  | entry i' j =>
    by_cases hx : i' = i ∧ j = m
    · obtain ⟨rfl, rfl⟩ := hx
      simp [cutEntries]
    · rw [update_of_ne (by simpa using hx)]
      simp only [cutEntries]
      have hiff : (i' = i ∧ j < m + 1) ↔ (i' = i ∧ j < m) :=
        and_congr_right fun hi => by
          have : j ≠ m := fun hj => hx ⟨hi, hj⟩
          omega
      simp only [hiff]

/-- An address and its block go out of use, the last of the pointers that do. -/
theorem wp_dropAddr {ptr : Pointer → ℕ} {bm : ℕ → Bool} {lg : List ℕ}
    (hex : AllocExact (s.sb.size - s.sb.nblocks) s.sb.size ptr bm)
    (hptr : ptr (.addr i k) = s.addrs i k) (h0 : s.addrs i k ≠ 0)
    (hothers : ∀ x, x.inode ≠ i → ptr x = (s.flush i).ptr x)
    (hnew : ∀ bm lg, ((State.setAddr { s with bitmap := bm, logged := lg } i k 0).flush i).ptr =
      update ptr (.addr i k) 0) (hl : Logs [] s { s with bitmap := bm, logged := lg })
    (hQ : ∀ s', Shrinks i s s' → s'.addrs i = update (s.addrs i) k 0 → Q () s') :
    wp (bfree (s.addrs i k)) (fun _ s' => Q () (s'.setAddr i k 0)) H
      { s with bitmap := bm, logged := lg } := by
  rw [← hptr] at h0
  refine wp_bfree (by rw [← hptr]; exact hex.bit_ptr h0) (hQ _ ⟨⟨_, _, _, rfl⟩, ?_, fun x hxi => ?_,
    fun x hxl => ?_⟩ (update_self _ _ _))
  · rw [Image.Exact, hnew, ← hptr]
    exact hex.detach h0
  · rw [hnew, update_of_ne fun h => hxi (by rw [h]; rfl), hothers x hxi]
  · rcases List.mem_cons.mp hxl with rfl | hxl
    · exact Or.inr (Or.inl ⟨_, by rw [← hptr]; exact (hex.range _ h0).2, rfl⟩)
    · exact hl x hxl

/-- Without its indirect block the inode has none of the words any more. -/
theorem flush_dropIndirect (s : State P) : ((s.setAddr i NDIRECT 0).flush i).ptr =
    update (cutEntries i NINDIRECT (s.flush i).ptr) (.addr i NDIRECT) 0 := by
  have haddrs : (s.setAddr i NDIRECT 0).addrs i = update (s.addrs i) NDIRECT 0 := update_self _ _ _
  funext x
  by_cases hxi : x.inode = i
  · cases x with
    | addr i' k =>
      obtain rfl : i' = i := hxi
      rw [Image.ptr, flush_type_self, flush_addrs_self, haddrs]
      by_cases hk : k = NDIRECT
      · rw [hk, update_self, update_self, ite_self]
      · rw [update_of_ne hk, update_of_ne (by simpa using hk), cutEntries, Image.ptr,
          flush_type_self, flush_addrs_self]
        rfl
    | entry i' j =>
      obtain rfl : i' = i := hxi
      rw [Image.ptr, flush_addrs_self, haddrs, update_self, if_pos (Or.inr (Or.inr rfl)),
        update_of_ne (by simp), cutEntries]
      split_ifs with hj
      · rfl
      · rw [Image.ptr, if_pos (Or.inr (Or.inl (by omega)))]
  · have hd : ((s.setAddr i NDIRECT 0).flush i).dinode x.inode = (s.flush i).dinode x.inode :=
      (flush_dinode_of_ne (s := s.setAddr i NDIRECT 0) hxi).trans
        (flush_dinode_of_ne (s := s) hxi).symm
    rw [Image.ptr_congr hd fun _ => rfl, update_of_ne fun h => hxi (by rw [h]; rfl)]
    cases x with
    | addr i' k => rfl
    | entry i' j => exact (if_neg fun h => hxi h.1).symm

section Trunc

variable (hs : (s.flush i).Exact) (ht : s.type i ≠ .free)
include hs ht

theorem wp_truncAddr (hk : k < NDIRECT)
    (hQ : ∀ s', Shrinks i s s' → s'.addrs i = update (s.addrs i) k 0 → Q () s') :
    wp (truncAddr i k) Q H s := by
  simp only [truncAddr, wp_bind, wp_get, wp_ite, wp_pure, wp_modify]
  split_ifs with h0
  · exact wp_dropAddr hs (flush_ptr_addr ht hk.le) h0 (fun _ _ => rfl)
      (fun _ _ => flush_setAddr ht hk.le fun h => absurd h hk.ne) (fun _ => Or.inl) hQ
  · refine hQ s (.refl hs) ?_
    rw [← not_not.mp h0, update_eq_self]

theorem wp_truncDirect (hQ : ∀ s', Shrinks i s s' → (∀ k < NDIRECT, s'.addrs i k = 0) → Q () s') :
    wp (forRange NDIRECT (truncAddr i)) Q H s := by
  refine (wp_forRange (I := fun n s' => Shrinks i s s' ∧ ∀ k < n, s'.addrs i k = 0)
    ⟨.refl hs, by simp⟩ fun n hn s₁ ⟨h₁, hz⟩ => ?_).mono (fun _ s' h => hQ s' h.1 h.2) fun _ => id
  refine wp_truncAddr h₁.exact (by rwa [h₁.type]) hn fun s₂ h₂ ha => ⟨h₁.trans h₂, fun k hk => ?_⟩
  rw [ha]
  by_cases hkn : k = n
  · rw [hkn, update_self]
  · rw [update_of_ne hkn]
    exact hz k (by omega)

/-- The blocks of an indirect block go out of use one by one. -/
theorem wp_truncWords
    (hind : s.addrs i NDIRECT ≠ 0) (hQ : ∀ bm lg, AllocExact (s.sb.size - s.sb.nblocks) s.sb.size
        (cutEntries i NINDIRECT (s.flush i).ptr) bm →
      Logs [] s { s with bitmap := bm, logged := lg } →
      Q () { s with bitmap := bm, logged := lg }) :
    wp (forRange NINDIRECT (truncWord (s.addrs i NDIRECT))) Q H s := by
  refine (wp_forRange (I := fun n s' => ∃ bm lg, s' = { s with bitmap := bm, logged := lg } ∧
    AllocExact (s.sb.size - s.sb.nblocks) s.sb.size (cutEntries i n (s.flush i).ptr) bm ∧
      Logs [] s s') ⟨s.bitmap, s.logged, rfl, ?_, .refl s⟩ ?_).mono ?_ fun _ => id
  · rw [cutEntries_zero]
    exact hs
  · rintro n hn _ ⟨bm, lg, rfl, hex, hl⟩
    have hptr := flush_ptr_entry ht hn hind
    have hcut : cutEntries i n (s.flush i).ptr (.entry i n) = s.word (s.addrs i NDIRECT) n := by
      rw [cutEntries, if_neg (by omega), hptr]
    simp only [truncWord, wp_bind, wp_get, wp_ite, wp_pure]
    rw [cutEntries_succ]
    split_ifs with h0
    · have hx : cutEntries i n (s.flush i).ptr (.entry i n) ≠ 0 := by rwa [hcut]
      refine wp_bfree (by rw [← hcut]; exact hex.bit_ptr hx) ⟨_, _, rfl, ?_, fun x hxl => ?_⟩
      · have := hex.detach hx
        rwa [hcut] at this
      · rcases List.mem_cons.mp hxl with rfl | hxl
        · exact Or.inr (Or.inl ⟨_, by rw [← hcut]; exact (hex.range _ hx).2, rfl⟩)
        · exact hl x hxl
    · refine ⟨bm, lg, rfl, ?_, hl⟩
      rw [← not_not.mp h0, ← hcut, update_eq_self]
      exact hex
  · rintro _ _ ⟨bm, lg, rfl, hex, hl⟩
    exact hQ bm lg hex hl

/-- The indirect block goes out of use, and what it points at. -/
theorem wp_truncIndirect
    (hQ : ∀ s', Shrinks i s s' → s'.addrs i = update (s.addrs i) NDIRECT 0 → Q () s') :
    wp (truncIndirect i) Q H s := by
  simp only [truncIndirect, truncAddr, wp_bind, wp_get, wp_ite, wp_pure, wp_modify]
  split_ifs with h0
  · refine wp_truncWords hs ht h0 fun bm lg hex hl => ?_
    rw [if_pos h0]
    refine wp_dropAddr (s := s) hex (flush_ptr_addr ht le_rfl) h0 (fun x hxi => ?_)
      (fun _ _ => flush_dropIndirect _) hl hQ
    cases x with
    | addr i' k => rfl
    | entry i' j => exact if_neg fun h => hxi h.1
  · refine hQ s (.refl hs) ?_
    rw [← not_not.mp h0, update_eq_self]

end Trunc

/-- An inode without addresses has no pointers. -/
theorem flush_ptr_eq_zero (h : ∀ k ≤ NDIRECT, s.addrs i k = 0) {x : Pointer} (hx : x.inode = i) :
    (s.flush i).ptr x = 0 := by
  cases x with
  | addr i' k =>
    obtain rfl : i' = i := hx
    rw [Image.ptr, flush_addrs_self]
    split_ifs with hk
    · rfl
    · exact h k (not_lt.mp fun h => hk (Or.inr h))
  | entry i' j =>
    obtain rfl : i' = i := hx
    rw [Image.ptr, flush_addrs_self]
    exact if_pos (Or.inr (Or.inr (h NDIRECT le_rfl)))

/-- Inode `i` has been freed. -/
structure Freed (i : ℕ) (s s' : State P) : Prop where
  frame : ∃ d a bm lg, d.type = .free ∧ s' = { s with
    dinode := update s.dinode i d, addrs := update s.addrs i a, valid := update s.valid i false,
    bitmap := bm, logged := lg }
  exact : s'.toImage.Exact
  noHoles : s'.toImage.NoHoles
  logs : Logs [s.sb.iblock i] s s'

/-- `itrunc(ip); ip->type = 0; iupdate(ip); ip->valid = 0` does not panic. -/
theorem wp_freeInode (hs : s.toImage.Exact) (hn : s.toImage.NoHoles)
    (hco : s.addrs i = (s.dinode i).addrs) (ht : s.type i ≠ .free)
    (hQ : ∀ s', Freed i s s' → Q () s') : wp (do
      itrunc i
      store i fun d => { d with type := .free }
      modify fun s => s.setValid i false) Q H s := by
  have hflush := flush_eq hco
  simp only [itrunc, wp_bind, wp_store, wp_modify]
  refine wp_truncDirect (by rwa [hflush]) ht fun s₁ h₁ hz => ?_
  refine wp_truncIndirect h₁.exact (by rwa [h₁.type]) fun s₂ h₂ ha => ?_
  have h := h₁.trans h₂
  have hzero : ∀ k ≤ NDIRECT, s₂.addrs i k = 0 := fun k hk => by
    rw [ha]
    by_cases hkn : k = NDIRECT
    · rw [hkn, update_self]
    · rw [update_of_ne hkn]
      exact hz k (lt_of_le_of_ne hk hkn)
  simp only [update_self, update_idem, State.setValid]
  set s' : State P := { s₂ with
    dinode := update s₂.dinode i
      { s₂.dinode i with type := .free, entries := [], data := [], addrs := s₂.addrs i },
    valid := update s₂.valid i false, logged := s₂.sb.iblock i :: s₂.sb.iblock i :: s₂.logged }
  have hfree : (s'.dinode i).type = .free := by simp [s']
  have hother : ∀ j ≠ i, s'.dinode j = s.dinode j := fun j hj =>
    (update_of_ne hj _ _).trans (congrFun h.dinode j)
  have hptr : s'.toImage.ptr = (s₂.flush i).ptr := by
    funext x
    by_cases hx : x.inode = i
    · rw [flush_ptr_eq_zero hzero hx]
      cases x with
      | addr i' | entry i' =>
        obtain rfl : i' = i := hx
        exact if_pos (Or.inl hfree)
    · refine Image.ptr_congr ?_ fun _ => rfl
      rw [hother _ hx, flush_dinode_of_ne hx, h.dinode]
  refine hQ s' ⟨?_, ?_, fun j hj bn hbn => ?_, fun x hx => ?_⟩
  · obtain ⟨a, bm, lg, hs₂⟩ := h.frame
    refine ⟨_, a, bm, s.sb.iblock i :: s.sb.iblock i :: lg, hfree, ?_⟩
    simp only [s', hs₂, update_self]
  · rw [Image.Exact, hptr]
    exact h.exact
  · have hji : j ≠ i := fun e => hj (e ▸ hfree)
    rw [hother j hji] at hj hbn
    rw [hptr, h.others _ (by rwa [Pointer.block_inode]), hflush]
    exact hn j hj bn hbn
  · rw [← h.sb]
    rcases List.mem_cons.mp hx with rfl | hx
    · exact Or.inr (Or.inr (by simp))
    · rcases List.mem_cons.mp hx with rfl | hx
      · exact Or.inr (Or.inr (by simp))
      · have := h.logs x hx
        rw [← h.sb] at this
        exact this.imp id (Or.imp id (by simp))

end Shrinks

end Xv6.Fs
