import Xv6.Data.Names
import Xv6.Mkfs.WellFormed

/-!
# Reading the image

The part of the kernel that reads a file system, on the image of `mkfs`: the
superblock and the recovery of the log when the system boots, `ilock`, `bmap`,
`readi`, `dirlookup` and `namex`. Where `bmap` finds no block it allocates one;
here that is a failure, `allocates`, since a block that `mkfs` has left out is not
read back. Nothing is written to a file system that is only read, so one
disk is enough.
-/

namespace Xv6.Mkfs

open Fs (BSIZE NDIRECT NINDIRECT MAXFILE IPB DIRSIZ DIRENT ROOTINO Pointer)
open Data (key namecmp namecmp_eq_zero skipelem)
open Bytes Function

/-- Why the kernel does not read on. -/
inductive Fault where
  /-- `panic("incorrect blockno")` -/
  | blockno
  /-- `panic("ilock: no type")` -/
  | noType
  /-- `panic("bmap: out of range")` -/
  | outOfRange
  /-- `panic("dirlookup not DIR")` -/
  | notDir
  /-- `panic("dirlookup read")` -/
  | dirlookupRead
  /-- `bmap` calls `balloc` -/
  | allocates
  /-- `readi` calls the driver of a device -/
  | device
  deriving DecidableEq

abbrev Disk := ℕ → Block

def T_DEV : ℕ := 3

def bread (disk : Disk) (b : ℕ) : Except Fault Block :=
  if b < FSSIZE then .ok (disk b) else .error .blockno

def readsb (disk : Disk) : Except Fault Superblock := do
  let bp ← bread disk 1
  return ⟨word bp 0, word bp 4, word bp 8, word bp 12, word bp 16, word bp 20, word bp 24⟩

/-- One round of `install_trans`: block `tail` of the log goes to its place. -/
def installBlock (logstart : ℕ) (head : Block) (disk : Disk) (tail : ℕ) : Except Fault Disk := do
  let lbuf ← bread disk (logstart + tail + 1)
  let _ ← bread disk (word head (4 + 4 * tail))
  return update disk (word head (4 + 4 * tail)) lbuf

/-- `recover_from_log`; the count in the header is an `int`. -/
def recoverFromLog (logstart : ℕ) (disk : Disk) : Except Fault Disk := do
  let head ← bread disk logstart
  let n := if word head 0 < 2 ^ 31 then word head 0 else 0
  let disk ← (List.range n).foldlM (installBlock logstart head) disk
  let buf ← bread disk logstart
  return update disk logstart (.of (blit buf 0 (le 4 0)))

/-- `iinit` and `initlog`. -/
def boot (disk : Disk) : Except Fault (Superblock × Disk) := do
  let sb ← readsb disk
  let disk ← recoverFromLog sb.logstart disk
  return (sb, disk)

/-- `ilock` of an inode that is not in the cache. -/
def ilock (sb : Superblock) (disk : Disk) (inum : ℕ) : Except Fault Dinode := do
  let bp ← bread disk (sb.iblock inum)
  let ip := getDinode bp (inum % IPB)
  if ip.type = 0 then throw .noType
  return ip

def bmap (disk : Disk) (ip : Dinode) (bn : ℕ) : Except Fault ℕ :=
  if bn < NDIRECT then
    if ip.addrs bn = 0 then .error .allocates else .ok (ip.addrs bn)
  else if bn - NDIRECT < NINDIRECT then
    if ip.addrs NDIRECT = 0 then .error .allocates
    else do
      let bp ← bread disk (ip.addrs NDIRECT)
      if word bp (4 * (bn - NDIRECT)) = 0 then throw .allocates
      return word bp (4 * (bn - NDIRECT))
  else .error .outOfRange

/-- The `for` of `readi`, with `n` bytes to go. -/
def readLoop (disk : Disk) (ip : Dinode) (off n : ℕ) : Except Fault (List UInt8) :=
  if n = 0 then .ok []
  else do
    let b ← bmap disk ip (off / BSIZE)
    let bp ← bread disk b
    let m := min n (BSIZE - off % BSIZE)
    let rest ← readLoop disk ip (off + m) (n - m)
    return slice bp (off % BSIZE) m ++ rest
termination_by n
decreasing_by
  have hlt : off % BSIZE < BSIZE := Nat.mod_lt _ (by decide)
  omega

/-- `readi`, with what it copies; `none` is a return of -1. -/
def readi (disk : Disk) (ip : Dinode) (off n : ℕ) : Except Fault (Option (List UInt8)) :=
  if ip.type = T_DEV then .error .device
  else if ip.size < off ∨ (off + n) % 2 ^ 32 < off then .ok none
  else do
    let n := if ip.size < (off + n) % 2 ^ 32 then ip.size - off else n
    let l ← readLoop disk ip off n
    return some l

/-- The `for` of `dirlookup`, over the offsets that are left. -/
def lookupLoop (disk : Disk) (dp : Dinode) (name : List UInt8) : List ℕ → Except Fault (Option ℕ)
  | [] => .ok none
  | off :: rest => do
    let r ← readi disk dp off DIRENT
    match r with
    | none => throw .dirlookupRead
    | some de =>
      if de.length ≠ DIRENT then throw .dirlookupRead
      if ofLE (de.take 2) = 0 then lookupLoop disk dp name rest
      else if namecmp name (de.drop 2) = 0 then return some (ofLE (de.take 2))
      else lookupLoop disk dp name rest

def dirlookup (disk : Disk) (dp : Dinode) (name : List UInt8) : Except Fault (Option ℕ) :=
  if dp.type ≠ T_DIR then .error .notDir
  else lookupLoop disk dp name
    ((List.range ((dp.size + (DIRENT - 1)) / DIRENT)).map fun k => DIRENT * k)

/-- The `while` of `namex`, with as many rounds as the path has bytes. -/
def namexLoop (sb : Superblock) (disk : Disk) :
    ℕ → ℕ → List UInt8 → List UInt8 → Except Fault (Option ℕ)
  | 0, inum, _, _ => .ok (some inum)
  | fuel + 1, inum, path, name =>
    match skipelem path name with
    | none => .ok (some inum)
    | some (path, name) => do
      let ip ← ilock sb disk inum
      if ip.type ≠ T_DIR then return none
      let next ← dirlookup disk ip name
      match next with
      | none => return none
      | some next => namexLoop sb disk fuel next path name

/-- `namei` by a process whose current directory is `cwd`; the buffer `name` holds whatever was
there. -/
def namei (sb : Superblock) (disk : Disk) (cwd : ℕ) (path name : List UInt8) :
    Except Fault (Option ℕ) :=
  namexLoop sb disk path.length (if path.head? = some 47 then ROOTINO else cwd) path name

/-! ### Inodes and their bytes -/

section Bytes

variable {s : State} {tab : ℕ → Dinode} {c : ℕ → List UInt8} {i n off : ℕ}

theorem bread_of_lt {disk : Disk} {b : ℕ} (hb : b < FSSIZE) : bread disk b = .ok (disk b) :=
  if_pos hb

theorem bmap_eq (h : Rest s tab c) (hn : n < blocksFor (c i).length) :
    bmap s.disk (tab i) n = .ok (ptr s.disk tab (.block i n)) := by
  have h0 := h.ptr_block_ne_zero hn
  have hmax := hn.trans_le (h.bound i)
  by_cases hdir : n < NDIRECT
  · rw [Pointer.block, if_pos hdir] at h0 ⊢
    rw [bmap, if_pos hdir]
    exact if_neg h0
  · have hind := indirect_of_lt h.toHolds (by omega : NDIRECT < blocksFor (c i).length)
    have hx := (h.indirect_range hind).2.trans_le h.hi
    have hword := ptr_entry (s := s) hind (Nat.le_of_not_lt hdir) hmax
    rw [hword] at h0 ⊢
    rw [MAXFILE] at hmax
    rw [bmap, if_neg hdir, if_pos (by omega), if_neg hind, bread_of_lt hx]
    simp only [bind, Except.bind, if_neg h0, pure, Except.pure]

/-- The loop of `readi` returns the bytes of the inode. -/
theorem readLoop_eq (h : Rest s tab c) (hle : off + n ≤ (c i).length) :
    readLoop s.disk (tab i) off n = .ok (((c i).drop off).take n) := by
  induction n using Nat.strong_induction_on generalizing off with
  | _ n ih =>
    by_cases h0 : n = 0
    · rw [readLoop, if_pos h0, h0, List.take_zero]
    have hmod : off % BSIZE < BSIZE := Nat.mod_lt _ (by decide)
    generalize hm : min n (BSIZE - off % BSIZE) = m
    have hlt : off / BSIZE < blocksFor (c i).length := by
      rw [lt_blocksFor]
      exact (Nat.div_mul_le_self _ _).trans_lt (by omega)
    have hx := (h.ptr_range (h.ptr_block_ne_zero hlt)).2.trans_le h.hi
    have hrest : readLoop s.disk (tab i) (off + m) (n - m) =
        .ok (((c i).drop (off + m)).take (n - m)) := ih (n - m) (by omega) (by omega)
    have hslice : slice (s.disk (ptr s.disk tab (.block i (off / BSIZE)))) (off % BSIZE) m =
        ((c i).drop off).take m := slice_block (h.bytes i) (by omega) (by omega)
    rw [readLoop, if_neg h0, bmap_eq h hlt]
    simp only [bind, Except.bind, bread_of_lt hx, hm, hrest, hslice, pure, Except.pure]
    rw [← List.drop_drop, ← List.take_add, Nat.add_sub_cancel' (by omega)]

/-- What `readi` returns for a file. -/
theorem readi_eq (h : Rest s tab c) (htype : (tab i).type ≠ T_DEV)
    (hsize : (tab i).size = (c i).length) (hoff : off < 2 ^ 32) (hn : n < 2 ^ 32) :
    readi s.disk (tab i) off n =
      .ok (if (c i).length < off ∨ 2 ^ 32 ≤ off + n then none
        else some (((c i).drop off).take n)) := by
  have hover : (off + n) % 2 ^ 32 < off ↔ 2 ^ 32 ≤ off + n := by omega
  rw [readi, if_neg htype, hsize]
  simp only [hover]
  split
  · rfl
  · next hno =>
    rw [not_or] at hno
    split
    · next hlt =>
      rw [readLoop_eq h (by omega)]
      simp only [bind, Except.bind, pure, Except.pure]
      rw [List.take_of_length_le (by simp), List.take_of_length_le (by simp; omega)]
    · rw [readLoop_eq h (by omega)]
      rfl

/-- `readi` inside what the inode holds, whose size may be larger. -/
theorem readi_inside (h : Rest s tab c) (htype : (tab i).type ≠ T_DEV)
    (hsize : (c i).length ≤ (tab i).size) (hle : off + n ≤ (c i).length) :
    readi s.disk (tab i) off n = .ok (some (((c i).drop off).take n)) := by
  have hlt : off + n < 2 ^ 32 := (hle.trans (h.length_le i)).trans_lt (by decide)
  rw [readi, if_neg htype, if_neg (by omega), if_neg (by omega)]
  simp only [readLoop_eq h hle]
  rfl

end Bytes

/-! ### Names -/

theorem ofLE_dirent (inum : ℕ) (name : List UInt8) :
    ofLE ((dirent inum name).take 2) = inum % 2 ^ 16 := by
  rw [dirent, List.take_left' (length_le 2 inum), ofLE_le]
  rfl

theorem key_dirent {name : List UInt8} (inum : ℕ) (h : 0 ∉ name) :
    key ((dirent inum name).drop 2) = name.take DIRSIZ := by
  have hpad : DIRSIZ - name.length = DIRSIZ - (name.take DIRSIZ).length := by
    rw [List.length_take]
    omega
  rw [dirent, List.drop_left' (length_le 2 inum), hpad]
  exact Data.key_pad (fun h' => h (List.mem_of_mem_take h')) (List.length_take_le _ _)

/-! ### The root directory -/

/-- The entries of the root directory, with the inodes that they name. -/
def names (files : List File) : List (ℕ × List UInt8) :=
  (ROOTINO, [46]) :: (ROOTINO, [46, 46]) :: files.mapIdx fun k f => (k + 2, f.entry)

theorem length_names (files : List File) : (names files).length = files.length + 2 := by
  simp [names]

theorem entries_eq (files : List File) :
    entries files = ((names files).map fun e => dirent e.1 e.2).flatten := by
  have hfiles : files.mapIdx (fun k f => dirent (k + 2) f.entry) =
      (files.mapIdx fun k f => (k + 2, f.entry)).map fun e => dirent e.1 e.2 :=
    List.ext_getElem (by simp) fun k _ _ => by simp
  simp [entries, names, hfiles]

theorem take_drop_dirents (l : List (ℕ × List UInt8)) {k : ℕ} (hk : k < l.length) :
    ((l.map fun e => dirent e.1 e.2).flatten.drop (DIRENT * k)).take DIRENT =
      dirent l[k].1 l[k].2 := by
  induction l generalizing k with
  | nil => exact absurd hk (Nat.not_lt_zero k)
  | cons e l ih =>
    have hlen : (dirent e.1 e.2).length = DIRENT := length_dirent _ _
    cases k with
    | zero => rw [Nat.mul_zero, List.drop_zero, List.map_cons, List.flatten_cons,
        List.take_left' hlen, List.getElem_cons_zero]
    | succ k =>
      rw [List.map_cons, List.flatten_cons, Nat.mul_succ, Nat.add_comm, ← List.drop_drop,
        List.drop_left' hlen, List.getElem_cons_succ]
      exact ih (by simpa using hk)

section Lookup

variable {s : State} {files : List File} {name : List UInt8} {k : ℕ}

/-- `dirlookup` reads an entry. -/
theorem readi_entry (h : Finished s files) (hk : k < (names files).length) :
    readi s.disk (table s.disk ROOTINO) (DIRENT * k) DIRENT =
      .ok (some (dirent (names files)[k].1 (names files)[k].2)) := by
  have hlen : (contents files ROOTINO).length = DIRENT * (names files).length := by
    rw [contents, if_pos rfl, length_entries, length_names]
  have hsize : (contents files ROOTINO).length ≤ (table s.disk ROOTINO).size := by
    rw [h.root]
    exact (lt_next _).le
  have htype : (table s.disk ROOTINO).type ≠ T_DEV := by
    rw [h.type, types, if_pos rfl]
    decide
  rw [readi_inside h.toRest htype hsize (by
    rw [hlen, ← Nat.mul_succ]
    exact Nat.mul_le_mul_left _ hk), contents, if_pos rfl, entries_eq, take_drop_dirents _ hk]

theorem File.slash_entry {f : File} (h : 47 ∉ f.name) : 47 ∉ f.entry := by
  rw [File.entry]
  split
  · exact fun hmem => h (List.mem_of_mem_tail hmem)
  · exact h

theorem File.nul_entry (f : File) : 0 ∉ f.entry := by
  rw [File.entry]
  split
  · exact fun h => f.nul (List.mem_of_mem_tail h)
  · exact f.nul

theorem names_nul {e : ℕ × List UInt8} (he : e ∈ names files) : 0 ∉ e.2 := by
  simp only [names, List.mem_cons, List.mem_mapIdx] at he
  rcases he with rfl | rfl | ⟨k, hk, rfl⟩
  · decide
  · decide
  · exact File.nul_entry _

/-- A round of the loop of `dirlookup`. -/
theorem lookupLoop_entry (h : Finished s files) (hk : k < (names files).length) (rest : List ℕ) :
    lookupLoop s.disk (table s.disk ROOTINO) name (DIRENT * k :: rest) =
      if (names files)[k].1 % 2 ^ 16 = 0 then lookupLoop s.disk (table s.disk ROOTINO) name rest
      else if key name = (names files)[k].2.take DIRSIZ then
        .ok (some ((names files)[k].1 % 2 ^ 16))
      else lookupLoop s.disk (table s.disk ROOTINO) name rest := by
  have hlen : (dirent (names files)[k].1 (names files)[k].2).length = DIRENT := length_dirent _ _
  rw [lookupLoop, readi_entry h hk]
  simp only [bind, Except.bind, if_neg (not_not.mpr hlen), ofLE_dirent, namecmp_eq_zero,
    key_dirent _ (names_nul (List.getElem_mem hk))]
  rfl

/-- Entries with other names are passed over. -/
theorem lookupLoop_skips (h : Finished s files) (l : List ℕ)
    (hl : ∀ j ∈ l, ∃ hj : j < (names files).length,
      key name ≠ (names files)[j].2.take DIRSIZ) (rest : List ℕ) :
    lookupLoop s.disk (table s.disk ROOTINO) name (l.map (fun k => DIRENT * k) ++ rest) =
      lookupLoop s.disk (table s.disk ROOTINO) name rest := by
  induction l with
  | nil => rfl
  | cons j l ih =>
    obtain ⟨hj, hne⟩ := hl j List.mem_cons_self
    rw [List.map_cons, List.cons_append, lookupLoop_entry h hj, if_neg hne, ite_self]
    exact ih fun j' hj' => hl j' (List.mem_cons_of_mem _ hj')

/-- `dirlookup` finds the first entry with the name. -/
theorem dirlookup_eq (h : Finished s files) (hk : k < (names files).length)
    (heq : key name = (names files)[k].2.take DIRSIZ)
    (hfirst : ∀ j (hj : j < k), key name ≠ (names files)[j].2.take DIRSIZ)
    (hinum : (names files)[k].1 % 2 ^ 16 ≠ 0) :
    dirlookup s.disk (table s.disk ROOTINO) name = .ok (some ((names files)[k].1 % 2 ^ 16)) := by
  have htype : (table s.disk ROOTINO).type = T_DIR := by rw [h.type, types, if_pos rfl]
  -- the offsets up to the entry, and the others
  obtain ⟨rest, hrest⟩ : ∃ rest,
    (List.range (((table s.disk ROOTINO).size + (DIRENT - 1)) / DIRENT)).map
      (fun k => DIRENT * k) = (List.range k).map (fun k => DIRENT * k) ++ DIRENT * k :: rest := by
    have hlt : k < ((table s.disk ROOTINO).size + (DIRENT - 1)) / DIRENT := by
      rw [h.root_eq]
      rw [length_names] at hk
      rw [DIRENT, BSIZE]
      omega
    obtain ⟨m, hm⟩ := Nat.exists_eq_add_of_lt hlt
    refine ⟨(List.range m).map fun j => DIRENT * (k + 1 + j), ?_⟩
    rw [hm, show k + m + 1 = k + 1 + m by omega, List.range_add, List.range_succ]
    simp [Function.comp_def]
  rw [dirlookup, if_neg (not_not.mpr htype), hrest]
  rw [lookupLoop_skips h (List.range k) (fun j hj => ?_)]
  · rw [lookupLoop_entry h hk, if_neg hinum, if_pos heq]
  · have hlt := List.mem_range.mp hj
    exact ⟨hlt.trans hk, hfirst j hlt⟩

end Lookup

/-! ### Booting and finding a file -/

section Boot

variable {s : State} {files : List File}

theorem readsb_eq (h : Finished s files) : readsb s.disk = .ok sb := by
  have hblock : s.disk 1 = .of (blit zeroes 0 sb.bytes) := by
    rw [h.low 1 (by decide), start_eq.1, update_self]
  have hword : ∀ k, k + 4 ≤ 28 → word (s.disk 1) k = ofLE ((sb.bytes.drop k).take 4) := by
    intro k hk
    have hread := word_blit (b := zeroes) (k := 0) (l := sb.bytes) hk
    rw [Nat.zero_add] at hread
    rw [hblock, Block.word_of (by rw [BSIZE]; omega), hread]
  rw [readsb, bread_of_lt (by decide)]
  simp only [bind, Except.bind, hword 0 (by decide), hword 4 (by decide), hword 8 (by decide),
    hword 12 (by decide), hword 16 (by decide), hword 20 (by decide), hword 24 (by decide)]
  rfl

theorem zeroes_head : Block.of (blit zeroes 0 (le 4 0)) = zeroes := by
  have hle : le 4 0 = List.replicate 4 0 := rfl
  have hzero : blit zeroes 0 (le 4 0) = fun _ => 0 := by
    funext i
    rw [blit, if_pos (Nat.zero_le i), Block.zeroes_apply, hle, List.getElem?_replicate]
    split <;> rfl
  rw [hzero]
  rfl

/-- There is nothing in the log. -/
theorem recoverFromLog_eq (h : Finished s files) :
    recoverFromLog sb.logstart s.disk = .ok s.disk := by
  have hhead : s.disk sb.logstart = zeroes := by
    rw [h.low _ (by decide), start_eq.1, update_of_ne (by decide)]
  have hblock : bread s.disk sb.logstart = .ok zeroes := by
    rw [bread_of_lt (by decide), hhead]
  rw [recoverFromLog, hblock]
  simp only [bind, Except.bind, Block.word_zeroes, ite_self, List.range_zero, List.foldlM_nil, pure,
    Except.pure, hblock, zeroes_head]
  rw [← hhead, update_eq_self]

theorem boot_eq (h : Finished s files) : boot s.disk = .ok (sb, s.disk) := by
  rw [boot, readsb_eq h]
  simp only [bind, Except.bind, recoverFromLog_eq h]
  rfl

theorem ilock_eq (h : Finished s files) {i : ℕ} (hi : i < room) (htype : types files i ≠ 0) :
    ilock sb s.disk i = .ok (table s.disk i) := by
  have htable : getDinode (s.disk (sb.iblock i)) (i % IPB) = table s.disk i := by
    rw [table, if_pos hi]
  rw [← h.type] at htype
  rw [ilock, bread_of_lt ((iblock_lt_nmeta hi).trans (by decide))]
  simp only [bind, Except.bind, htable, if_neg htype]
  rfl

theorem skipelem_entry {e : List UInt8} (hnul : 0 ∉ e) (hne : e ≠ []) (hslash : 47 ∉ e)
    (name : List UInt8) :
    ∃ name', skipelem (47 :: e) name = some ([], name') ∧ key name' = e.take DIRSIZ := by
  have hcomp : Data.components (47 :: e) = [e] := by
    rw [Data.components_cons_slash, Data.components_single hne hslash]
  have hpath : 0 ∉ 47 :: e := by simpa using hnul
  rcases Data.skipelem_cases hpath name with
    ⟨hnil, -⟩ | ⟨e', rest, name', heq, hskip, hkey, hrest, -⟩
  · rw [hcomp] at hnil
    cases hnil
  · rw [hcomp] at heq
    obtain ⟨rfl, h⟩ := List.cons.inj heq
    obtain rfl := hrest.mpr h.symm
    exact ⟨name', hskip, hkey⟩

/-- `namei` finds the first entry of the root directory with the name. -/
theorem namei_entry (h : Finished s files) {e : List UInt8} {k : ℕ} (cwd : ℕ) (name : List UInt8)
    (hnul : 0 ∉ e) (hne : e ≠ []) (hslash : 47 ∉ e) (hk : k < (names files).length)
    (heq : e.take DIRSIZ = (names files)[k].2.take DIRSIZ)
    (hfirst : ∀ j (hj : j < k), e.take DIRSIZ ≠ (names files)[j].2.take DIRSIZ)
    (hinum : (names files)[k].1 % 2 ^ 16 ≠ 0) :
    namei sb s.disk cwd (47 :: e) name = .ok (some ((names files)[k].1 % 2 ^ 16)) := by
  have htypes : types files ROOTINO = T_DIR := by rw [types, if_pos rfl]
  have htype : (table s.disk ROOTINO).type = T_DIR := (h.type _).trans htypes
  have hlock := ilock_eq h (i := ROOTINO) (by decide) (by rw [htypes]; decide)
  obtain ⟨name', hskip, hkey⟩ := skipelem_entry hnul hne hslash name
  rw [← hkey] at heq hfirst
  rw [namei, List.length_cons, List.head?_cons, if_pos rfl, namexLoop, hskip]
  simp only [bind, Except.bind, hlock, if_neg (not_not.mpr htype),
    dirlookup_eq h hk heq hfirst hinum]
  cases e.length with
  | zero => rfl
  | succ n => rfl

end Boot

/-- The kernel reads back what `mkfs` has written: every file is found under its name, with its
size, and every read returns its bytes. -/
theorem read_back {files : List File} {s : State} (h : main files = .ok s)
    (hcount : files.length ≤ NINODES - 2) (hne : ∀ f ∈ files, f.entry ≠ [])
    (hdots : ∀ f ∈ files, f.entry.take DIRSIZ ≠ [46] ∧ f.entry.take DIRSIZ ≠ [46, 46])
    (hdistinct : (files.map fun f => f.entry.take DIRSIZ).Nodup) :
    ∃ sb disk, boot s.disk = .ok (sb, disk) ∧ ∀ f ∈ files, ∀ cwd name, ∃ inum ip,
      namei sb disk cwd (47 :: f.entry) name = .ok (some inum) ∧ ilock sb disk inum = .ok ip ∧
      ip.type = T_FILE ∧ ip.size = f.content.length ∧
      ∀ off n, off < 2 ^ 32 → n < 2 ^ 32 → readi disk ip off n =
        .ok (if f.content.length < off ∨ 2 ^ 32 ≤ off + n then none
          else some ((f.content.drop off).take n)) := by
  have hroom : files.length + 2 ≤ room := by
    have hle : files.length ≤ 198 := hcount
    have hroom : room = 208 := rfl
    omega
  obtain ⟨s', hs', hfin⟩ | ⟨⟨e, he⟩, -⟩ := main_spec hroom
  · obtain rfl : s' = s := Except.ok.inj (hs'.symm.trans h)
    refine ⟨sb, s'.disk, boot_eq hfin, fun f hf cwd name => ?_⟩
    have hslash := File.slash_entry (main_slash h f hf)
    obtain ⟨k, hk, rfl⟩ := List.getElem_of_mem hf
    have hlt : k + 2 < (names files).length := by
      rw [length_names]
      omega
    have hname : (names files)[k + 2] = (k + 2, files[k].entry) := by simp [names]
    have hsmall : (k + 2) % 2 ^ 16 = k + 2 := Nat.mod_eq_of_lt (by
      have hroom : files.length + 2 ≤ 208 := hroom
      omega)
    -- the entries before it have other names
    have hfirst : ∀ j (hj : j < k + 2),
        files[k].entry.take DIRSIZ ≠ (names files)[j].2.take DIRSIZ := by
      intro j hj
      rcases j with _ | _ | j
      · exact (hdots _ hf).1
      · exact (hdots _ hf).2
      · have hother : (names files)[j + 2].2 = files[j].entry := by simp [names]
        rw [hother]
        intro he
        refine List.nodup_iff_getElem?_ne_getElem?.mp hdistinct j k
          (by omega) (by simpa using hk) ?_
        rw [List.getElem?_map, List.getElem?_map, List.getElem?_eq_getElem hk,
          List.getElem?_eq_getElem (by omega : j < files.length),
          Option.map_some, Option.map_some, he]
    have hfound := namei_entry hfin cwd name (files[k]).nul_entry (hne _ hf) hslash hlt
      (by rw [hname]) hfirst (by rw [hname, hsmall]; omega)
    rw [hname, hsmall] at hfound
    have hroot : k + 2 ≠ ROOTINO := by rw [ROOTINO]; omega
    have htypes : types files (k + 2) = T_FILE := by
      rw [types, if_neg hroot, if_pos ⟨by omega, by omega⟩]
    have hcontents : contents files (k + 2) = files[k].content := by
      rw [contents, if_neg hroot, if_neg (by omega), Nat.add_sub_cancel,
        List.getElem?_eq_getElem hk]
      rfl
    have hsize := hfin.sized (k + 2) hroot
    refine ⟨k + 2, table s'.disk (k + 2), hfound,
      ilock_eq hfin (by omega) (by rw [htypes]; decide), (hfin.type _).trans htypes,
      by rw [hsize, hcontents], fun off n hoff hn => ?_⟩
    have hread :=
      readi_eq hfin.toRest (i := k + 2) (by rw [hfin.type, htypes]; decide) hsize hoff hn
    rwa [hcontents] at hread
  · rw [he] at h
    cases h

theorem read_back_twoLines : ∃ s sb disk inum ip, main [twoLines] = .ok s ∧
    boot s.disk = .ok (sb, disk) ∧ namei sb disk 0 [47, 97] [] = .ok (some inum) ∧
    ilock sb disk inum = .ok ip ∧ readi disk ip 1 5 = .ok (some [10, 98, 10]) := by
  obtain ⟨s, hs, -⟩ := main_ok [twoLines] (by decide) (by decide) (by decide) (by decide +kernel)
  obtain ⟨sb, disk, hboot, hfiles⟩ := read_back hs (by decide) (by decide) (by decide) (by decide)
  obtain ⟨inum, ip, hnamei, hilock, -, -, hreadi⟩ := hfiles twoLines List.mem_cons_self 0 []
  have hread := hreadi 1 5 (by decide) (by decide)
  rw [if_neg (by decide)] at hread
  exact ⟨s, sb, disk, inum, ip, hs, hboot, hnamei, hilock, hread⟩

end Xv6.Mkfs
