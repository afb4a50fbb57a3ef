import Mathlib.Data.List.DropRight
import Xv6.Data.Names

/-!
# Inodes, directories and paths

The part of `fs.c` above the blocks: the inode cache with its reference counts and
sleep-locks, directories, and path names. A call is a program that takes the locks
of inodes (`Xv6.Lib.Prog`); what the code does under a spin lock, on one locked
buffer, or on the blocks of one locked inode is an atomic section.
-/

namespace Xv6.Fs

variable {P : Type}

/-! ### Inodes -/

/-- The caller has a reference to inode `i` from now on. -/
def iget (i : ℕ) : Op P Unit :=
  .atomic do
    let s ← get
    if 0 < s.ref i then set (s.setRef i (s.ref i + 1))
    else if s.full then throw .iget
    else set ((s.setRef i 1).setValid i false)

def idup (i : ℕ) : Op P Unit :=
  .atomic do
    let s ← get
    set (s.setRef i (s.ref i + 1))

/-- The fields of a locked inode. -/
def inode (i : ℕ) : Op P Dinode := .read (·.dinode i)

/-- An assignment to fields of a locked inode, with the `iupdate` after it. -/
def iupdate (i : ℕ) (f : Dinode → Dinode) : Op P Unit := .atomic (store i f)

/-- Reading the inode from disk, the first time its cache entry is locked. -/
def iload (i : ℕ) : Op P Unit :=
  .atomic do
    let s ← get
    if s.valid i then pure ()
    else if s.type i = .free then throw .noType
    else set ((s.setAddrs i (s.dinode i).addrs).setValid i true)

def ilock (i : ℕ) : Op P Unit := do
  let ref ← .read (·.ref i)
  if ref < 1 then .fail .ilock
  else
    .lock i .ilock
    iload i

def iunlock (i : ℕ) : Op P Unit := do
  let held ← .isHeld i
  let ref ← .read (·.ref i)
  if !held || ref < 1 then .fail .iunlock
  else .unlock i

/-- `itrunc(ip); ip->type = 0; iupdate(ip); ip->valid = 0`, with the inode locked. -/
def ifree (i : ℕ) : Op P Unit :=
  .atomic do
    itrunc i
    store i fun d => { d with type := .free }
    modify fun s => s.setValid i false

/-- `ip->ref--` -/
def iunref (i : ℕ) : Op P Unit :=
  .atomic do
    let s ← get
    set (s.setRef i (s.ref i - 1))

/-- What `iput` does with the inode locked: free it if it has no links and no other references. -/
def iputLocked (i : ℕ) : Op P Unit := do
  let dead ← .read fun s => s.valid i && s.nlink i == 0
  if dead then
    let r ← .read (·.ref i)
    if r = 1 then ifree i else pure ()
  else pure ()

def iput (i : ℕ) : Op P Unit := do
  .lock i .iput
  iputLocked i
  .unlock i
  iunref i

def iunlockput (i : ℕ) : Op P Unit := do
  iunlock i
  iput i

/-- `ialloc` from inode `i` on, with `n` inodes left to look at. -/
def iallocFrom (type : IType) : ℕ → ℕ → Op P ℕ
  | 0, _ => .fail .ialloc
  | n + 1, i => do
    let found ← .atomic (do
      let s ← get
      if s.type i = .free then
        set (s.setDinode i { Dinode.zero with type := type })
        logWrite (s.sb.iblock i)
        pure true
      else pure false : Section P Bool)
    if found then
      iget i
      pure i
    else iallocFrom type n (i + 1)

def ialloc (type : IType) : Op P ℕ := do
  let n ← .read (·.sb.ninodes)
  iallocFrom type (n - 1) 1

/-! ### Directories -/

/-- The first entry in use with the name, and its slot; slots are counted from `k`. -/
def lookupFrom (name : Name) : ℕ → List Dirent → Option (ℕ × ℕ)
  | _, [] => none
  | k, e :: es =>
    if e.inum ≠ 0 ∧ e.name = name then some (k, e.inum) else lookupFrom name (k + 1) es

def Dinode.lookup (d : Dinode) (name : Name) : Option (ℕ × ℕ) := lookupFrom name 0 d.entries

/-- The first empty slot, or the one after the last. -/
def emptySlot : List Dirent → ℕ
  | [] => 0
  | e :: es => if e.inum = 0 then 0 else emptySlot es + 1

/-- `writei(dp, &de, slot * sizeof(de), sizeof(de))` on the contents; `none` is -1. -/
def putEntry (es : List Dirent) (slot : ℕ) (de : Dirent) : Option (List Dirent) :=
  if es.length < slot ∨ MAXFILE * BSIZE < slot * DIRENT + DIRENT then none
  else if slot = es.length then some (es ++ [de])
  else some (es.set slot de)

/-- Write an entry of the locked directory `dp`, or panic. -/
def writeEntry (dp slot : ℕ) (de : Dirent) (e : Panic) : Op P Unit :=
  .atomic do
    let s ← get
    match putEntry (s.dinode dp).entries slot de with
    | none => throw e
    | some es => writeContents dp (slot * DIRENT) DIRENT fun d => { d with entries := es }

/-- The slot and the inode of an entry; the caller gets a reference to the inode. -/
def dirlookup (dp : ℕ) (name : Name) : Op P (Option (ℕ × ℕ)) := do
  let d ← inode dp
  if d.type ≠ .dir then .fail .dirlookup
  else
    match d.lookup name with
    | none => pure none
    | some (slot, i) =>
      iget i
      pure (some (slot, i))

def dirlink (dp : ℕ) (name : Name) (i : ℕ) : Op P ℤ := do
  match ← dirlookup dp name with
  | some (_, ip) =>
    iput ip
    pure (-1)
  | none =>
    let d ← inode dp
    -- `de.inum` is a `ushort`
    writeEntry dp (emptySlot d.entries) ⟨i % 65536, name⟩ .dirlink
    pure 0

/-! ### Paths -/

/-- The first element of a path and what follows it, without leading slashes. -/
def skipelem (path : List Char) : Option (Name × List Char) :=
  match path.dropWhile (· = '/') with
  | [] => none
  | c :: cs =>
    some (.cut (c :: cs.takeWhile (· ≠ '/')), (cs.dropWhile (· ≠ '/')).dropWhile (· = '/'))

def elementsFrom : ℕ → List Char → List Name
  | 0, _ => []
  | n + 1, path =>
    match skipelem path with
    | none => []
    | some (name, rest) => name :: elementsFrom n rest

/-- The elements that the calls of `skipelem` in the loop of `namex` give. -/
def elements (path : List Char) : List Name := elementsFrom path.length path

/-- The loop of `namex` over the elements that are left, with the name read last. -/
def walk (nameiparent : Bool) : ℕ → Name → List Name → Op P (Option (ℕ × Name))
  | ip, name, [] =>
    if nameiparent then do
      iput ip
      pure none
    else pure (some (ip, name))
  | ip, _, name :: rest => do
    ilock ip
    let d ← inode ip
    if d.type ≠ .dir then
      iunlockput ip
      pure none
    else if nameiparent && rest.isEmpty then
      -- stop one level early
      iunlock ip
      pure (some (ip, name))
    else
      match ← dirlookup ip name with
      | none =>
        iunlockput ip
        pure none
      | some (_, next) =>
        iunlockput ip
        walk nameiparent next name rest

/-- `myproc()->cwd` -/
def cwd (p : P) : Op P ℕ := .read fun s => (s.cwd p).getD 0

def namex (p : P) (path : List Char) (nameiparent : Bool) : Op P (Option (ℕ × Name)) := do
  if path.head? = some '/' then
    iget ROOTINO
    walk nameiparent ROOTINO (.cut []) (elements path)
  else
    let ip ← cwd p
    idup ip
    walk nameiparent ip (.cut []) (elements path)

def namei (p : P) (path : List Char) : Op P (Option ℕ) := do
  let r ← namex p path false
  pure (r.map (·.1))

def nameiparent (p : P) (path : List Char) : Op P (Option (ℕ × Name)) := namex p path true

/-! ### The elements of a path -/

/-- The characters of a string. -/
def chars (s : List UInt8) : List Char := s.map Char.ofUInt8

theorem ofUInt8_eq_slash (c : UInt8) : Char.ofUInt8 c = '/' ↔ c = 47 := by
  rw [Char.ext_iff, ← UInt8.toNat_inj, ← UInt32.toNat_inj]
  rfl

theorem dropWhile_chars (path : List UInt8) :
    (chars path).dropWhile (· = '/') = chars (path.dropWhile (· = 47)) := by
  rw [chars, List.dropWhile_map]
  simp only [Function.comp_def, ofUInt8_eq_slash]
  rfl

theorem skipelem_chars {c : UInt8} {e r path : List UInt8} (he : 47 ∉ e)
    (hr : r = [] ∨ ∃ r', r = 47 :: r') (hp : path.dropWhile (· = 47) = c :: e ++ r) :
    skipelem (chars path) = some (.cut (chars (c :: e)), chars (r.dropWhile (· = 47))) := by
  have hall : ∀ c ∈ chars e, decide (c ≠ '/') = true := by
    intro c hc
    obtain ⟨x, hx, rfl⟩ := List.mem_map.mp hc
    have hne : x ≠ 47 := fun h => he (h ▸ hx)
    simpa [ofUInt8_eq_slash] using hne
  have hstop : (chars r).takeWhile (· ≠ '/') = [] ∧ (chars r).dropWhile (· ≠ '/') = chars r := by
    rcases hr with rfl | ⟨r', rfl⟩ <;> simp [chars, ofUInt8_eq_slash]
  have hcons : chars (c :: e ++ r) = Char.ofUInt8 c :: (chars e ++ chars r) := List.map_append
  rw [skipelem, dropWhile_chars, hp, hcons]
  simp only
  rw [List.takeWhile_append_of_pos hall, List.dropWhile_append_of_pos hall, hstop.1, hstop.2,
    List.append_nil, dropWhile_chars]
  rfl

theorem elementsFrom_chars {n : ℕ} {path : List UInt8} (hn : path.length ≤ n) :
    elementsFrom n (chars path) = (Data.components path).map fun e => .cut (chars e) := by
  induction n generalizing path with
  | zero =>
    rw [List.length_eq_zero_iff.mp (Nat.le_zero.mp hn)]
    rfl
  | succ n ih =>
    have hlen := (List.dropWhile_sublist (l := path) (· = 47)).length_le
    rw [elementsFrom]
    rcases Data.components_cases path with ⟨hnil, hcomp⟩ | ⟨e, r, he, hne, hslash, hr, hcomp⟩
    · rw [skipelem, dropWhile_chars, hnil, hcomp]
      rfl
    · obtain ⟨c, e, rfl⟩ := List.exists_cons_of_ne_nil hne
      have hlen' := (List.dropWhile_sublist (l := r) (· = 47)).length_le
      rw [he, List.length_append, List.length_cons] at hlen
      rw [skipelem_chars (fun h => hslash (List.mem_cons_of_mem c h)) hr he, hcomp]
      simp only
      rw [ih (by omega), List.map_cons]

/-- The elements of a path are the components of the string, of which `DIRSIZ` bytes count. -/
theorem elements_chars (path : List UInt8) :
    elements (chars path) = (Data.components path).map fun e => .cut (chars e) :=
  elementsFrom_chars (List.length_map _).ge

example : elements ['/', '/', 'a', '/', 'b', '/', '/'] = [.cut ['a'], .cut ['b']] := by decide

end Xv6.Fs
