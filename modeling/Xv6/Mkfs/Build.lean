import Mathlib.Algebra.Order.BigOperators.Group.Finset
import Xv6.Mkfs.Append

/-!
# Building the image
-/

namespace Xv6.Mkfs

open Fs (BSIZE NDIRECT NINDIRECT MAXFILE IPB DIRSIZ ROOTINO Pointer)
open Bytes Function

/-- Inodes of the types `ty` hold the bytes `c`. -/
structure Built (s : State) (ty : ℕ → ℕ) (c : ℕ → List UInt8) : Prop extends
    Rest s (table s.disk) c where
  sized : ∀ i, (table s.disk i).size = (c i).length
  type : ∀ i, (table s.disk i).type = ty i
  low : ∀ b < sb.inodestart, s.disk b = start.disk b

/-- There is no room for so many bytes. -/
def Overflows (c : ℕ → List UInt8) : Prop :=
  (∃ i, MAXFILE * BSIZE < (c i).length) ∨ FSSIZE < total c

section Steps

variable {s : State} {tab tab' : ℕ → Dinode} {ty : ℕ → ℕ} {c c' : ℕ → List UInt8} {i : ℕ}
  {p : List UInt8} {d : Dinode}

theorem total_mono (h : ∀ i, (c i).length ≤ (c' i).length) : total c ≤ total c' :=
  Nat.add_le_add_left (Finset.sum_le_sum fun i _ => cost_mono (blocksFor_mono (h i))) _

theorem Overflows.mono (hc : Overflows c) (h : ∀ i, (c i).length ≤ (c' i).length) :
    Overflows c' := by
  rcases hc with ⟨i, hi⟩ | ht
  · exact .inl ⟨i, hi.trans_le (h i)⟩
  · exact .inr (ht.trans_le (total_mono h))

/-- Only the addresses count. -/
theorem Rest.congr (h : Rest s tab c) (haddrs : ∀ j, (tab' j).addrs = (tab j).addrs)
    (hsmall : ∀ j, (tab' j).Small) : Rest s tab' c := by
  have hptr : ptr s.disk tab' = ptr s.disk tab := ptr_congr haddrs
  refine { h with
    alloc := hptr ▸ h.alloc, small := hsmall, blocks := hptr ▸ h.blocks, bytes := hptr ▸ h.bytes,
    count := ?_, indirect := fun j => ?_ }
  · simp only [haddrs]
    exact h.count
  · rw [haddrs]
    exact h.indirect j

/-- A block of the metadata is written. -/
theorem Rest.wsect (h : Rest s tab c) {a : Area} {x : ℕ} (hx : x < nmeta) (ha : a.Has x)
    (b : Block) : Rest (wsect a x b s) tab c := by
  have hmeta : nmeta ≤ FSSIZE := by decide
  have hlo := h.lo
  have hdisk : ∀ y, nmeta ≤ y → update s.disk x b y = s.disk y := fun y hy =>
    update_of_ne (by omega) _ _
  have hptr : ptr (update s.disk x b) tab = ptr s.disk tab :=
    ptr_setData fun i h0 => by
      have := (h.indirect_range h0).1
      omega
  simp only [Mkfs.wsect, sector_of_lt (hx.le.trans hmeta)]
  refine { h with
    size := ?_, alloc := hptr ▸ h.alloc, fresh := fun y hy hlt => ?_, blocks := hptr ▸ h.blocks,
    bytes := fun i n hn => ?_, written := ?_ }
  · simp only [h.size]
    omega
  · dsimp only at hy ⊢
    rw [hdisk y (by omega)]
    exact h.fresh y hy hlt
  · have hlt : n / BSIZE < blocksFor (c i).length :=
      Nat.div_lt_of_lt_mul (hn.trans_le (h.len i))
    dsimp only
    rw [hptr, hdisk _ (h.ptr_range (h.ptr_block_ne_zero hlt)).1, h.bytes i n hn]
  · simp only [List.mem_cons, forall_eq_or_imp]
    exact ⟨ha, h.written⟩

/-- The state after `winode`. -/
def State.putInode (s : State) (i : ℕ) (d : Dinode) : State :=
  wsect .inode (sb.iblock i) (putDinode (s.disk (sb.iblock i)) (i % IPB) d) s

theorem iblock_lt_nmeta (hi : i < room) : sb.iblock i < nmeta :=
  (iblock_lt hi).2.trans (by decide)

theorem winode_eq (hsize : s.size = FSSIZE) (hi : i < room) (d : Dinode) :
    winode i d s = .ok (s.putInode i d) := by
  rw [winode]
  simp only [rsect_of_lt ((iblock_lt_nmeta hi).trans (by decide)) hsize]
  rfl

theorem rinode_eq (hsize : s.size = FSSIZE) (hi : i < room) :
    rinode i s = .ok (table s.disk i) := by
  rw [rinode, table, if_pos hi]
  simp only [rsect_of_lt ((iblock_lt_nmeta hi).trans (by decide)) hsize]
  rfl

theorem table_putInode (hi : i < room) (hd : d.Small) :
    table (s.putInode i d).disk = update (table s.disk) i d := by
  rw [State.putInode, wsect, sector_iblock hi]
  exact table_update hi hd

theorem low_putInode (hi : i < room) {b : ℕ} (hb : b < sb.inodestart) :
    (s.putInode i d).disk b = s.disk b := by
  rw [State.putInode, wsect, sector_iblock hi]
  exact update_of_ne (hb.trans_le (iblock_lt hi).1).ne _ _

/-- An inode is written, with the addresses that it has got. -/
theorem Rest.putInode {d' : Dinode} (h : Rest s (update (table s.disk) i d) c) (hi : i < room)
    (hd : d'.Small) (haddrs : d'.addrs = d.addrs) :
    Rest (s.putInode i d') (table (s.putInode i d').disk) c := by
  rw [table_putInode hi hd]
  refine (h.wsect (a := .inode) (iblock_lt_nmeta hi) (iblock_lt hi) _).congr (fun j => ?_)
    fun j => ?_
  · by_cases hj : j = i
    · rw [hj, update_self, update_self, haddrs]
    · rw [update_of_ne hj, update_of_ne hj]
  · have := h.small j
    by_cases hj : j = i
    · rw [hj, update_self]
      exact hd
    · rw [update_of_ne hj] at this ⊢
      exact this

/-- The bytes of an inode have changed with it. -/
theorem Built.putInode {s₁ : State} (h : Built s ty c) (d' : Dinode)
    (h₁ : Rest s₁ (update (table s.disk) i d) c') (hi : i < room) (hkept : Kept s s₁)
    (hc : ∀ j ≠ i, c' j = c j) (hd : d'.Small) (haddrs : d'.addrs = d.addrs)
    (hsize : d'.size = (c' i).length) : Built (s₁.putInode i d') (update ty i d'.type) c' := by
  have htab₁ : table s₁.disk = table s.disk :=
    table_congr fun b hb => hkept.disk b (hb.trans (by decide))
  have htab := table_putInode (s := s₁) hi hd
  rw [htab₁] at htab
  rw [← htab₁] at h₁
  refine { h₁.putInode hi hd haddrs with
    sized := fun j => ?_, type := fun j => ?_, low := fun b hb => ?_ }
  · rw [htab]
    by_cases hj : j = i
    · rw [hj, update_self, hsize]
    · rw [update_of_ne hj, hc j hj, h.sized]
  · rw [htab]
    by_cases hj : j = i
    · rw [hj, update_self, update_self]
    · rw [update_of_ne hj, update_of_ne hj, h.type]
  · rw [low_putInode hi hb, hkept.disk b (hb.trans (by decide)), h.low b hb]

/-- No inode has more bytes than fit into its blocks. -/
theorem Rest.length_le (h : Rest s tab c) (i : ℕ) : (c i).length ≤ BSIZE * MAXFILE :=
  (h.len i).trans (Nat.mul_le_mul_left _ (h.bound i))

theorem iappend_spec (h : Built s ty c) (hi : i < room) (p : List UInt8) :
    (∃ s', iappend i p s = .ok s' ∧ Built s' ty (update c i (c i ++ p)) ∧
      s'.freeinode = s.freeinode) ∨
    ((∃ e, iappend i p s = .error e) ∧ Overflows (update c i (c i ++ p))) := by
  have hread := rinode_eq h.size hi
  rcases iappendLoop_spec (p := p) h.toRest hi with
    ⟨d, s₁, hloop, h₁, hkept, hlike⟩ | ⟨⟨e, he⟩, hfail⟩
  · have hlen := h₁.length_le i
    rw [update_self, List.length_append] at hlen
    have hsmall := h₁.small i
    rw [update_self] at hsmall
    have hsmall' : { d with size := (c i).length + p.length }.Small :=
      { hsmall with size := hlen.trans_lt (by decide) }
    have hbuilt := h.putInode { d with size := (c i).length + p.length } h₁ hi hkept
      (fun j hj => update_of_ne hj _ _) hsmall' rfl (by rw [update_self, List.length_append])
    refine .inl ⟨s₁.putInode i { d with size := (c i).length + p.length }, ?_, ?_,
      hkept.freeinode⟩
    · rw [iappend, hread]
      simp only [bind, Except.bind, h.sized i, hloop]
      exact winode_eq h₁.size hi _
    · have htype : update ty i d.type = ty := by
        rw [hlike.1, h.type, update_eq_self]
      rw [htype] at hbuilt
      exact hbuilt
  · refine .inr ⟨⟨e, ?_⟩, ?_⟩
    · rw [iappend, hread]
      simp only [bind, Except.bind, h.sized i, he]
    · rcases hfail with hlen | htotal
      · exact .inl ⟨i, by rwa [update_self, List.length_append]⟩
      · exact .inr htotal

theorem addrs_eq_zero (h : Rest s tab c) (hc : c i = []) : (tab i).addrs = fun _ => 0 := by
  funext k
  by_contra hk
  rcases Nat.lt_trichotomy k NDIRECT with hlt | rfl | hlt
  · have hptr : ptr s.disk tab (.block i k) ≠ 0 := by
      rw [Pointer.block, if_pos hlt]
      exact hk
    have := (h.blocks i k (hlt.trans (by decide))).mp hptr
    rw [hc] at this
    exact absurd this (by simp [blocksFor, BSIZE])
  · have := h.indirect i hk
    rw [hc] at this
    exact absurd this (by simp [blocksFor, BSIZE])
  · exact hk ((h.small i).addrs_zero k hlt)

/-- `ialloc` takes the next inode, which has no bytes. -/
theorem ialloc_spec (h : Built s ty c) (hi : s.freeinode < room) (hc : c s.freeinode = [])
    (type : ℕ) (htype : type < 2 ^ 16) :
    ∃ s', ialloc type s = .ok (s.freeinode, s') ∧ Built s' (update ty s.freeinode type) c ∧
      s'.freeinode = s.freeinode + 1 := by
  have hrest : Rest { s with freeinode := s.freeinode + 1 }
      (update (table s.disk) s.freeinode (table s.disk s.freeinode)) c := by
    rw [update_eq_self]
    exact { h.toRest with }
  have hsmall : { Dinode.zero with type := type, nlink := 1 }.Small :=
    { Dinode.small_zero with type := htype, nlink := (by decide : 1 < 2 ^ 16) }
  have hbuilt : Built { s with freeinode := s.freeinode + 1 } ty c := { h with }
  refine ⟨_, ?_, hbuilt.putInode { Dinode.zero with type := type, nlink := 1 } hrest hi (.refl _)
    (fun _ _ => rfl) hsmall (addrs_eq_zero h.toRest hc).symm (by rw [hc]; rfl), rfl⟩
  rw [ialloc]
  simp only [winode_eq (s := { s with freeinode := s.freeinode + 1 }) h.size hi]
  rfl

/-- The calls of `read` and `iappend` for one file. -/
theorem append_reads (h : Built s ty c) (hi : i < room) (reads : List (List UInt8)) :
    (∃ s', reads.foldlM (fun s p => iappend i p s) s = .ok s' ∧
      Built s' ty (update c i (c i ++ reads.flatten)) ∧ s'.freeinode = s.freeinode) ∨
    ((∃ e, reads.foldlM (fun s p => iappend i p s) s = .error e) ∧
      Overflows (update c i (c i ++ reads.flatten))) := by
  induction reads generalizing s c with
  | nil =>
    refine .inl ⟨s, rfl, ?_, rfl⟩
    rwa [List.flatten_nil, List.append_nil, update_eq_self]
  | cons p reads ih =>
    simp only [List.foldlM_cons]
    rcases iappend_spec h hi p with ⟨s₁, hp, h₁, hfree⟩ | ⟨⟨e, he⟩, hfail⟩
    · have hrest := ih h₁
      simp only [update_self, update_idem, List.append_assoc] at hrest
      rw [hp, List.flatten_cons]
      rcases hrest with ⟨s', hs', h', hfree'⟩ | hfail
      · exact .inl ⟨s', hs', h', hfree'.trans hfree⟩
      · exact .inr hfail
    · refine .inr ⟨⟨e, by rw [he]; rfl⟩, hfail.mono fun j => ?_⟩
      by_cases hj : j = i
      · rw [hj, update_self, update_self]
        simp
      · rw [update_of_ne hj, update_of_ne hj]

end Steps

/-! ### The files -/

/-- The entries of the root directory. -/
def entries (files : List File) : List UInt8 :=
  dirent ROOTINO [46] ++ (dirent ROOTINO [46, 46] ++
    (files.mapIdx fun k f => dirent (k + 2) f.entry).flatten)

/-- What the inodes hold when the files have been added. -/
def contents (files : List File) (i : ℕ) : List UInt8 :=
  if i = ROOTINO then entries files else if i < 2 then [] else (files[i - 2]?).elim [] File.content

def types (files : List File) (i : ℕ) : ℕ :=
  if i = ROOTINO then T_DIR else if 2 ≤ i ∧ i < files.length + 2 then T_FILE else 0

section Files

variable {s : State} {files : List File} {f : File}

theorem entries_append (files : List File) (f : File) :
    entries (files ++ [f]) = entries files ++ dirent (files.length + 2) f.entry := by
  simp [entries, List.mapIdx_append]

theorem contents_append (files : List File) (f : File) : contents (files ++ [f]) =
    update (update (contents files) ROOTINO
      (contents files ROOTINO ++ dirent (files.length + 2) f.entry))
      (files.length + 2) f.content := by
  have hne : files.length + 2 ≠ ROOTINO := by rw [ROOTINO]; omega
  funext i
  by_cases hi : i = files.length + 2
  · subst hi
    simp [contents, hne]
  · rw [update_of_ne hi]
    by_cases hroot : i = ROOTINO
    · subst hroot
      simp [contents, entries_append]
    · rw [update_of_ne hroot, contents, contents, if_neg hroot, if_neg hroot]
      by_cases h2 : i < 2
      · rw [if_pos h2, if_pos h2]
      · rw [if_neg h2, if_neg h2]
        rcases Nat.lt_or_gt_of_ne (show i - 2 ≠ files.length by omega) with hlt | hlt
        · rw [List.getElem?_append_left hlt]
        · rw [List.getElem?_eq_none (by simp; omega), List.getElem?_eq_none (by omega)]

theorem types_append (files : List File) (f : File) :
    types (files ++ [f]) = update (types files) (files.length + 2) T_FILE := by
  funext i
  by_cases hi : i = files.length + 2
  · subst hi
    rw [update_self, types, if_neg (by rw [ROOTINO]; omega), if_pos (by simp)]
  · rw [update_of_ne hi, types, types, List.length_append, List.length_singleton]
    congr 1
    exact if_congr (by omega) rfl rfl

theorem contents_of_ge {files : List File} {i : ℕ} (hi : files.length + 2 ≤ i) :
    contents files i = [] := by
  rw [contents, if_neg (by rw [ROOTINO]; omega), if_neg (by omega),
    List.getElem?_eq_none (by omega), Option.elim_none]

theorem length_contents_le (files rest : List File) (i : ℕ) :
    (contents files i).length ≤ (contents (files ++ rest) i).length := by
  rw [contents, contents]
  by_cases hroot : i = ROOTINO
  · rw [if_pos hroot, if_pos hroot, entries, entries, List.mapIdx_append, List.flatten_append]
    simp
  · rw [if_neg hroot, if_neg hroot]
    by_cases h2 : i < 2
    · rw [if_pos h2, if_pos h2]
    · rw [if_neg h2, if_neg h2]
      by_cases hlt : i - 2 < files.length
      · rw [List.getElem?_append_left hlt]
      · rw [List.getElem?_eq_none (Nat.le_of_not_lt hlt)]
        exact Nat.zero_le _

variable (h : Built s (types files) (contents files)) (hfree : s.freeinode = files.length + 2)
include h hfree

/-- A file is added. -/
theorem addFile_spec (hroom : files.length + 2 < room) :
    (∃ s', addFile ROOTINO s f = .ok s' ∧
      Built s' (types (files ++ [f])) (contents (files ++ [f])) ∧
      s'.freeinode = files.length + 3) ∨
    ((∃ e, addFile ROOTINO s f = .error e) ∧
      (47 ∈ f.name ∨ Overflows (contents (files ++ [f])))) := by
  by_cases hslash : 47 ∈ f.name
  · exact .inr ⟨⟨.slash, by rw [addFile, if_pos hslash]; rfl⟩, .inl hslash⟩
  have hroot : ROOTINO < room := by decide
  have hne : files.length + 2 ≠ ROOTINO := by rw [ROOTINO]; omega
  obtain ⟨s₁, hialloc, h₁, hfree₁⟩ := ialloc_spec h (hfree ▸ hroom)
    (contents_of_ge hfree.ge) T_FILE (by decide)
  rw [hfree, ← types_append files f] at h₁
  rw [hfree] at hialloc hfree₁
  have hadd : addFile ROOTINO s f = (do
      let s ← iappend ROOTINO (dirent (files.length + 2) f.entry) s₁
      f.reads.foldlM (fun s c => iappend (files.length + 2) c s) s) := by
    simp only [addFile, if_neg hslash, hialloc, bind, Except.bind]
  rw [hadd, contents_append]
  rcases iappend_spec h₁ hroot (dirent (files.length + 2) f.entry) with
    ⟨s₂, hentry, h₂, hfree₂⟩ | ⟨⟨e, he⟩, hfail⟩
  · have hreads := append_reads h₂ hroom f.reads
    rw [update_of_ne hne, contents_of_ge le_rfl, List.nil_append] at hreads
    rw [hentry]
    rcases hreads with ⟨s', hs', h', hfree'⟩ | ⟨he, hfail⟩
    · exact .inl ⟨s', hs', h', hfree'.trans (hfree₂.trans hfree₁)⟩
    · exact .inr ⟨he, .inr hfail⟩
  · refine .inr ⟨⟨e, by rw [he]; rfl⟩, .inr (hfail.mono fun j => ?_)⟩
    by_cases hj : j = files.length + 2
    · rw [hj, update_of_ne hne, contents_of_ge le_rfl]
      exact Nat.zero_le _
    · rw [update_of_ne hj]

/-- The loop over the files. -/
theorem addFiles_spec (rest : List File)
    (hroom : files.length + rest.length + 2 ≤ room) :
    (∃ s', rest.foldlM (addFile ROOTINO) s = .ok s' ∧
      Built s' (types (files ++ rest)) (contents (files ++ rest)) ∧
      s'.freeinode = files.length + rest.length + 2) ∨
    ((∃ e, rest.foldlM (addFile ROOTINO) s = .error e) ∧
      ((∃ f ∈ rest, 47 ∈ f.name) ∨ Overflows (contents (files ++ rest)))) := by
  induction rest generalizing s files with
  | nil =>
    refine .inl ⟨s, rfl, ?_, hfree⟩
    rwa [List.append_nil]
  | cons f rest ih =>
    rw [List.length_cons] at hroom
    rw [List.foldlM_cons]
    rcases addFile_spec (f := f) h hfree (by omega) with ⟨s₁, hadd, h₁, hfree₁⟩ | ⟨⟨e, he⟩, hfail⟩
    · have hrest := ih h₁ (by rw [hfree₁, List.length_append, List.length_singleton]) (by
        rw [List.length_append, List.length_singleton]
        omega)
      rw [List.append_assoc, List.singleton_append] at hrest
      rw [hadd]
      rcases hrest with ⟨s', hs', h', hfree'⟩ | ⟨he, hfail⟩
      · refine .inl ⟨s', hs', h', ?_⟩
        rw [hfree', List.length_append, List.length_singleton, List.length_cons]
        omega
      · exact .inr ⟨he, hfail.imp_left fun ⟨g, hg, hs⟩ => ⟨g, List.mem_cons_of_mem _ hg, hs⟩⟩
    · refine .inr ⟨⟨e, by rw [he]; rfl⟩, ?_⟩
      rcases hfail with hslash | hfail
      · exact .inl ⟨f, List.mem_cons_self, hslash⟩
      · refine .inr (hfail.mono fun i => ?_)
        have hle := length_contents_le (files ++ [f]) rest i
        rwa [List.append_assoc, List.singleton_append] at hle

end Files

/-! ### The start and the end -/

/-- The loop that clears the image. -/
theorem clear_loop {n : ℕ} (hn : n ≤ FSSIZE) {s s' : State} (hs : s.disk = fun _ => zeroes)
    (h0 : s.size = 0) (hw : s.written = [])
    (hs' : (List.range n).foldl (fun s i => wsect .clear i zeroes s) s = s') :
    s'.disk = (fun _ => zeroes) ∧ s'.size = n ∧ s'.freeinode = s.freeinode ∧
      s'.freeblock = s.freeblock ∧ ∀ x ∈ s'.written, x.1 = .clear := by
  induction n generalizing s' with
  | zero =>
    subst hs'
    exact ⟨hs, h0, rfl, rfl, by simp [hw]⟩
  | succ n ih =>
    rw [List.range_succ, List.foldl_append, List.foldl_cons, List.foldl_nil] at hs'
    obtain ⟨hdisk, hsize, hino, hblock, hwritten⟩ := ih (by omega) rfl
    subst hs'
    simp only [wsect, sector_of_lt (show n ≤ FSSIZE by omega)] at *
    refine ⟨?_, by omega, hino, hblock, ?_⟩
    · rw [hdisk]
      exact update_eq_self n (fun _ => zeroes)
    · simp only [List.mem_cons, forall_eq_or_imp]
      exact ⟨trivial, hwritten⟩

theorem start_eq : start.disk = update (fun _ => zeroes) 1 (.of (blit zeroes 0 sb.bytes)) ∧
    start.size = FSSIZE ∧ start.freeinode = 1 ∧ start.freeblock = nmeta ∧
    ∀ x ∈ start.written, x = (.super, 1) ∨ x.1 = .clear := by
  have hsec : sector 1 = 1 := sector_of_lt (by decide)
  rw [start]
  generalize hs : (List.range FSSIZE).foldl (fun s i => wsect .clear i zeroes s) _ = s
  have hloop := clear_loop (n := FSSIZE) (s := ⟨fun _ => zeroes, 0, 1, nmeta, []⟩) le_rfl rfl rfl
    rfl hs
  obtain ⟨hdisk, hsize, hino, hblock, hwritten⟩ := hloop
  simp only [wsect, hsec]
  refine ⟨by rw [hdisk], ?_, hino, hblock, ?_⟩
  · rw [hsize]
    decide
  · simp only [List.mem_cons, forall_eq_or_imp, true_or, true_and]
    exact fun x hx => .inr (hwritten x hx)

theorem table_start : table start.disk = fun _ => .zero := by
  funext i
  by_cases hi : i < room
  · have hne : sb.iblock i ≠ 1 := by
      have h : 32 ≤ sb.iblock i := (iblock_lt hi).1
      omega
    rw [table, if_pos hi, start_eq.1, update_of_ne hne]
    simp [getDinode, Block.half_zeroes, Block.word_zeroes, Dinode.zero]
  · rw [table, if_neg hi]

theorem built_start : Built start (fun _ => 0) fun _ => [] := by
  obtain ⟨hdisk, hsize, hino, hblock, hwritten⟩ := start_eq
  have htab := table_start
  have hptr : ∀ q, ptr start.disk (fun _ => .zero) q = 0 := by
    intro q
    cases q with
    | addr i k => rfl
    | entry i j => rw [ptr, if_pos (.inl rfl)]
  have hnone : blocksFor 0 = 0 := by decide
  have hrest : Rest start (fun _ => .zero) fun _ => [] := by
    constructor
    · constructor
      · exact hsize
      · rw [hblock]
        decide
      · constructor
        · decide
        · intro q hq
          exact absurd (hptr q) hq
        · intro q q' hq
          exact absurd (hptr q) hq
        · intro b _
          rw [hblock, decide_eq_true_iff]
          refine ⟨.inl, ?_⟩
          rintro (hb | ⟨q, rfl⟩)
          · exact hb
          · rw [hptr]
            decide
      · intro b hb _
        have hlo : 59 ≤ b := hblock.symm.le.trans hb
        rw [hdisk, update_of_ne (by omega)]
      · exact fun _ => Dinode.small_zero
      · intro i n _
        simp [hptr, hnone]
      · exact fun _ => by simp [hnone]
      · exact fun _ => Nat.zero_le _
      · intro i n hn
        exact absurd hn (Nat.not_lt_zero n)
      · simp [hblock, hnone, Dinode.zero]
      · intro x hx
        rcases hwritten x hx with rfl | hclear
        · rfl
        · rw [hclear]
          trivial
    · intro i hi
      exact absurd rfl hi
  refine { htab ▸ hrest with sized := fun i => ?_, type := fun i => ?_, low := fun _ _ => rfl }
  · rw [htab]
    rfl
  · rw [htab]
    rfl

/-- The image that `mkfs` leaves. -/
structure Finished (s : State) (files : List File) : Prop extends
    Rest s (table s.disk) (contents files) where
  type : ∀ i, (table s.disk i).type = types files i
  sized : ∀ i ≠ ROOTINO, (table s.disk i).size = (contents files i).length
  root : (table s.disk ROOTINO).size = ((contents files ROOTINO).length / BSIZE + 1) * BSIZE
  low : ∀ b < sb.inodestart, s.disk b = start.disk b
  bits : ∀ b < BSIZE * 8, bit (s.disk sb.bmapstart) b = decide (b < s.freeblock)
  freeinode : s.freeinode = files.length + 2

section End

variable {s : State} {files : List File}

/-- The size of the root directory is rounded up and the bitmap is written. -/
theorem finish_spec (h : Built s (types files) (contents files))
    (hfree : s.freeinode = files.length + 2) :
    ∃ s', finish ROOTINO s = .ok s' ∧ Finished s' files := by
  have hroot : ROOTINO < room := by decide
  have hlen := h.length_le ROOTINO
  generalize hd : { table s.disk ROOTINO with
    size := ((table s.disk ROOTINO).size / BSIZE + 1) * BSIZE } = d
  have hsmall : d.Small := by
    rw [← hd]
    refine { h.small ROOTINO with size := ?_ }
    rw [h.sized]
    rw [BSIZE, MAXFILE, NDIRECT, NINDIRECT, BSIZE] at *
    simp only
    omega
  have haddrs : d.addrs = (table s.disk ROOTINO).addrs := by rw [← hd]
  have htab := table_putInode (s := s) hroot hsmall
  have hput : Rest (s.putInode ROOTINO d) (table (s.putInode ROOTINO d).disk) (contents files) :=
    Rest.putInode (d := table s.disk ROOTINO) (by rw [update_eq_self]; exact h.toRest) hroot hsmall
      haddrs
  have hused : (s.putInode ROOTINO d).freeblock < BSIZE * 8 := hput.hi.trans_lt (by decide)
  have hsec : sector sb.bmapstart = sb.bmapstart := sector_of_lt (by decide)
  -- the bitmap block is none of the others
  have hdisk : ∀ b ≠ sb.bmapstart, (wsect .bitmap sb.bmapstart
      (bitmap (s.putInode ROOTINO d).freeblock) (s.putInode ROOTINO d)).disk b =
        (s.putInode ROOTINO d).disk b := fun b hb => by
    rw [wsect, hsec]
    exact update_of_ne hb _ _
  have htab' := table_congr fun b hb => hdisk b hb.ne
  refine ⟨_, ?_, { htab'.symm ▸ hput.wsect (a := .bitmap) (by decide) rfl _ with
    type := fun i => ?_, sized := fun i hi => ?_, root := ?_, low := fun b hb => ?_,
    bits := fun b hb => ?_, freeinode := ?_ }⟩
  · simp only [finish, rinode_eq h.size hroot, bind, Except.bind, hd,
      winode_eq h.size hroot, balloc,
      if_pos hused]
  · rw [htab', htab]
    by_cases hi : i = ROOTINO
    · rw [hi, update_self, ← hd]
      exact h.type ROOTINO
    · rw [update_of_ne hi, h.type]
  · rw [htab', htab, update_of_ne hi, h.sized]
  · rw [htab', htab, update_self, ← hd]
    simp only [h.sized]
  · rw [hdisk b (hb.trans (by decide)).ne, low_putInode hroot hb, h.low b hb]
  · rw [wsect, hsec]
    simp only [update_self]
    exact Block.bit_bitmap hb
  · exact hfree

theorem types_nil : types [] = update (fun _ => 0) ROOTINO T_DIR := by
  funext i
  by_cases hi : i = ROOTINO
  · rw [hi, update_self, types, if_pos rfl]
  · rw [update_of_ne hi, types, if_neg hi, if_neg (by rw [List.length_nil]; omega)]

theorem contents_nil :
    contents [] = update (fun _ => []) ROOTINO
    (dirent ROOTINO [46] ++ dirent ROOTINO [46, 46]) := by
  funext i
  by_cases hi : i = ROOTINO
  · rw [hi, update_self, contents, if_pos rfl, entries, List.mapIdx_nil, List.flatten_nil,
      List.append_nil]
  · rw [update_of_ne hi, contents, if_neg hi, List.getElem?_nil, Option.elim_none, ite_self]

theorem length_dirent (inum : ℕ) (name : List UInt8) : (dirent inum name).length = 16 := by
  rw [dirent, List.length_append, length_le, List.length_append, List.length_take,
    List.length_replicate, DIRSIZ]
  omega

theorem total_root_le {l : List UInt8} (hl : l.length ≤ 32) :
    total (update (fun _ => []) ROOTINO l) ≤ nmeta + size 32 := by
  have hsum := total_update (c := fun _ => []) (i := ROOTINO) (by decide) l
  have hstart : total (fun _ => []) = nmeta :=
    built_start.freeblock_eq.symm.trans start_eq.2.2.2.1
  have hsize : size l.length ≤ size 32 := cost_mono (blocksFor_mono hl)
  omega

/-- Two entries have room. -/
theorem not_overflows {l : List UInt8} (hl : l.length ≤ 32) :
    ¬ Overflows (update (fun _ => []) ROOTINO l) := by
  rintro (⟨i, hi⟩ | htotal)
  · by_cases hroot : i = ROOTINO
    · rw [hroot, update_self] at hi
      exact absurd hi (Nat.not_lt.mpr (hl.trans (by decide)))
    · rw [update_of_ne hroot] at hi
      exact absurd hi (Nat.not_lt_zero _)
  · have hle := total_root_le hl
    have h32 : nmeta + size 32 ≤ FSSIZE := by decide
    omega

theorem build_eq {s₁ s₂ s₃ : State} (hialloc : ialloc T_DIR s = .ok (ROOTINO, s₁))
    (hdot : iappend ROOTINO (dirent ROOTINO [46]) s₁ = .ok s₂)
    (hdotdot : iappend ROOTINO (dirent ROOTINO [46, 46]) s₂ = .ok s₃) :
    build files s = files.foldlM (addFile ROOTINO) s₃ >>= finish ROOTINO := by
  simp only [build, hialloc, if_neg (not_not.mpr rfl), hdot, hdotdot, bind, Except.bind]

/-- The root directory with its first two entries. -/
theorem main_root : ∃ s, Built s (types []) (contents []) ∧ s.freeinode = 2 ∧
    ∀ files, main files = files.foldlM (addFile ROOTINO) s >>= finish ROOTINO := by
  have hroot : ROOTINO < room := by decide
  have hino : start.freeinode = ROOTINO := start_eq.2.2.1
  obtain ⟨s₁, hialloc, h₁, hfree₁⟩ := ialloc_spec built_start (by rw [hino]; exact hroot) rfl
    T_DIR (by decide)
  rw [hino] at hialloc h₁ hfree₁
  rcases iappend_spec h₁ hroot (dirent ROOTINO [46]) with ⟨s₂, hs₂, h₂, hfree₂⟩ | ⟨-, hfail⟩
  · rcases iappend_spec h₂ hroot (dirent ROOTINO [46, 46]) with ⟨s₃, hs₃, h₃, hfree₃⟩ | ⟨-, hfail⟩
    · rw [update_self, update_idem, List.nil_append, ← contents_nil] at h₃
      exact ⟨s₃, types_nil ▸ h₃, by rw [hfree₃, hfree₂, hfree₁, ROOTINO],
        fun files => build_eq hialloc hs₂ hs₃⟩
    · rw [update_self, update_idem, List.nil_append] at hfail
      exact absurd hfail (not_overflows (by simp [length_dirent]))
  · exact absurd hfail (not_overflows (by simp [length_dirent]))

/-- `mkfs` gets to `exit(0)` unless a name has a slash or the files do not fit. -/
theorem main_spec (hroom : files.length + 2 ≤ room) :
    (∃ s, main files = .ok s ∧ Finished s files) ∨
    ((∃ e, main files = .error e) ∧
      ((∃ f ∈ files, 47 ∈ f.name) ∨ Overflows (contents files))) := by
  obtain ⟨s₀, h₀, hfree₀, hmain⟩ := main_root
  rw [hmain]
  have hfiles := addFiles_spec h₀ hfree₀ files (by simpa using hroom)
  rw [List.nil_append, List.length_nil, Nat.zero_add] at hfiles
  rcases hfiles with ⟨s, hs, h, hfree⟩ | ⟨⟨e, he⟩, hfail⟩
  · simp only [hs, bind, Except.bind]
    exact .inl (finish_spec h hfree)
  · rw [he]
    exact .inr ⟨⟨e, rfl⟩, hfail⟩

end End

end Xv6.Mkfs
