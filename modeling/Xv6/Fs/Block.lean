import Mathlib.Data.Int.Notation
import Mathlib.Logic.Function.Basic
import Xv6.Lib.Prog

/-!
# The state of the file system, and its blocks

What the kernel keeps of the file system, on disk and in memory, and the lowest
layer of `fs.c`: the bitmap, the pointers of inodes to their blocks, and which
blocks a transaction passes to `log_write`.

An inode is named by its number. Its dinode and its cached copy are one record,
since the code writes every change of a field through with `iupdate` before it
gives the lock up. The pointers are the exception: `bmap` changes those of the
cached copy (`addrs`), and they reach the dinode only with the next `iupdate`. Of
the blocks in the data area the model keeps the words of indirect blocks; what
the other blocks hold is kept with the inode, as the entries of a directory or the
bytes of a file.
-/

namespace Xv6.Fs

open Function

abbrev NFILE : ℕ := 100
abbrev NOFILE : ℕ := 16
def NINODE : ℕ := 50
def ROOTINO : ℕ := 1
def DIRSIZ : ℕ := 14
def BSIZE : ℕ := 512
def NDIRECT : ℕ := 12
/-- `BSIZE / sizeof(uint)` -/
def NINDIRECT : ℕ := BSIZE / 4
def MAXFILE : ℕ := NDIRECT + NINDIRECT
/-- `sizeof(struct dirent)` -/
def DIRENT : ℕ := 16
/-- Inodes per block: `BSIZE / sizeof(struct dinode)`. -/
def IPB : ℕ := BSIZE / 64
/-- Bitmap bits per block. -/
def BPB : ℕ := BSIZE * 8
def MAXOPBLOCKS : ℕ := 10
/-- The major number of the console, the only device of `devsw`. -/
def CONSOLE : ℤ := 1

/-- A file name as a directory keeps it. Names are equal when `namecmp` says so. -/
def Name : Type := { n : List Char // n.length ≤ DIRSIZ }
  deriving DecidableEq

/-- `strncpy(.., cs, DIRSIZ)` -/
def Name.cut (cs : List Char) : Name := ⟨cs.take DIRSIZ, List.length_take_le DIRSIZ cs⟩

def dot : Name := .cut ['.']
def dotdot : Name := .cut ['.', '.']

/-- `type` of an inode; zero marks a free dinode. -/
inductive IType where
  | free
  | dir
  | file
  | dev
  deriving DecidableEq

/-- `struct dirent`; a slot with `inum = 0` is empty. -/
structure Dirent where
  inum : ℕ
  name : Name
  deriving DecidableEq

/-- What `memset(&de, 0, sizeof(de))` leaves. -/
def Dirent.empty : Dirent := ⟨0, .cut []⟩

/-- `struct dinode`, with what its data blocks hold. -/
structure Dinode where
  type : IType
  major : ℤ
  minor : ℤ
  nlink : ℤ
  /-- the contents of a directory -/
  entries : List Dirent
  /-- the contents of a file -/
  data : List UInt8
  /-- `addrs[NDIRECT]` is the indirect block -/
  addrs : ℕ → ℕ

/-- What `memset(dip, 0, sizeof(*dip))` leaves. -/
def Dinode.zero : Dinode := ⟨.free, 0, 0, 0, [], [], fun _ => 0⟩

def Dinode.size (d : Dinode) : ℕ :=
  if d.type = .dir then DIRENT * d.entries.length else d.data.length

/-- A value stored in a `short`. -/
def short (n : ℤ) : ℤ := n.bmod 65536

/-- The fields of `struct superblock` that are used. -/
structure Superblock where
  size : ℕ
  nblocks : ℕ
  ninodes : ℕ
  inodestart : ℕ
  bmapstart : ℕ

/-- `IBLOCK(i, sb)` -/
def Superblock.iblock (sb : Superblock) (i : ℕ) : ℕ := i / IPB + sb.inodestart

/-- `BBLOCK(b, sb)` -/
def Superblock.bblock (sb : Superblock) (b : ℕ) : ℕ := b / BPB + sb.bmapstart

/-- What is on disk. -/
structure Image where
  sb : Superblock
  dinode : ℕ → Dinode
  bitmap : ℕ → Bool
  /-- the words of an indirect block -/
  word : ℕ → ℕ → ℕ

/-- `type` of a file, with the pipe or inode that goes with it. -/
inductive FileType where
  | none
  | pipe (k : ℕ)
  | inode (ip : ℕ)
  deriving DecidableEq

/-- `struct file` -/
structure File where
  ref : ℕ
  type : FileType
  readable : Bool
  writable : Bool
  off : ℕ
  deriving DecidableEq

def File.closed : File := ⟨0, .none, false, false, 0⟩

/-- A page that `pipealloc` got. Each gets a number of its own, also after `kfree`. -/
structure Pipe where
  readopen : Bool
  writeopen : Bool
  deriving DecidableEq

/-- `state` of a process, as far as its files go. -/
inductive Slot where
  | unused
  | embryo
  | live
  | zombie
  deriving DecidableEq

structure State (P : Type) extends Image where
  ref : ℕ → ℕ
  valid : ℕ → Bool
  /-- `addrs` of the cached copy -/
  addrs : ℕ → ℕ → ℕ
  file : Fin NFILE → File
  npipes : ℕ
  pipe : ℕ → Pipe
  proc : P → Slot
  ofile : P → Fin NOFILE → Option (Fin NFILE)
  cwd : P → Option ℕ
  /-- the blocks passed to `log_write` since the last `begin_op` -/
  logged : List ℕ
  /-- the blocks of each section that is over, the last section first -/
  sections : List (List ℕ)

/-- The calls of `panic`. -/
inductive Panic where
  | balloc
  | bfree
  | bmap
  | iget
  | ilock
  | noType
  | iunlock
  | ialloc
  | dirlookup
  | dirlink
  | nlink
  | unlinkWritei
  | createDots
  | createDirlink
  | filedup
  | fileclose
  | fileread
  | filewrite
  | shortFilewrite
  deriving DecidableEq

/-- Where `acquiresleep` is called for the lock of an inode. -/
inductive Site where
  | ilock
  | iput
  deriving DecidableEq

/-- Code of the file system that returns an `α`. -/
abbrev Op (P : Type) : Type → Type := Prog (State P) ℕ Site Panic

/-- A section under `icache.lock` or `ftable.lock`, on one locked buffer, or on the blocks of one
locked inode. -/
abbrev Section (P : Type) : Type → Type := StateT (State P) (Except Panic)

namespace State

variable {P : Type}

def type (s : State P) (i : ℕ) : IType := (s.dinode i).type

def nlink (s : State P) (i : ℕ) : ℤ := (s.dinode i).nlink

def setDinode (s : State P) (i : ℕ) (d : Dinode) : State P :=
  { s with dinode := update s.dinode i d }

def setRef (s : State P) (i r : ℕ) : State P :=
  { s with ref := update s.ref i r }

def setValid (s : State P) (i : ℕ) (v : Bool) : State P :=
  { s with valid := update s.valid i v }

def setAddrs (s : State P) (i : ℕ) (v : ℕ → ℕ) : State P :=
  { s with addrs := update s.addrs i v }

def setAddr (s : State P) (i k b : ℕ) : State P :=
  s.setAddrs i (update (s.addrs i) k b)

def setWord (s : State P) (b j v : ℕ) : State P :=
  { s with word := update s.word b (update (s.word b) j v) }

def setFile (s : State P) (f : Fin NFILE) (v : File) : State P :=
  { s with file := update s.file f v }

/-- Every entry of the inode cache is in use. -/
def full (s : State P) : Prop :=
  NINODE ≤ ((List.range s.sb.ninodes).filter (0 < s.ref ·)).length

instance (s : State P) : Decidable s.full := inferInstanceAs (Decidable (_ ≤ _))

end State

variable {P : Type}

/-! ### Blocks -/

/-- `log_write` -/
def logWrite (b : ℕ) : Section P Unit := modify fun s => { s with logged := b :: s.logged }

/-- Allocate a zeroed block. -/
def balloc : Section P ℕ := do
  let s ← get
  match (List.range s.sb.size).find? fun b => !s.bitmap b with
  | none => throw .balloc
  | some b =>
    modify fun s => { s with bitmap := update s.bitmap b true }
    logWrite (s.sb.bblock b)
    -- `bzero`
    modify fun s => { s with word := update s.word b fun _ => 0 }
    logWrite b
    pure b

def bfree (b : ℕ) : Section P Unit := do
  let s ← get
  if s.bitmap b = false then throw .bfree
  else
    modify fun s => { s with bitmap := update s.bitmap b false }
    logWrite (s.sb.bblock b)

/-- `if((addr = ip->addrs[k]) == 0) ip->addrs[k] = addr = balloc(ip->dev)` -/
def bmapAddr (i k : ℕ) : Section P ℕ := do
  let s ← get
  if s.addrs i k = 0 then
    let b ← balloc
    modify fun s => s.setAddr i k b
    pure b
  else pure (s.addrs i k)

/-- The same for word `j` of the indirect block `ind`. -/
def bmapWord (ind j : ℕ) : Section P ℕ := do
  let s ← get
  if s.word ind j = 0 then
    let b ← balloc
    modify fun s => s.setWord ind j b
    logWrite ind
    pure b
  else pure (s.word ind j)

/-- The block of inode `i` that holds its `bn`th block of data. -/
def bmap (i bn : ℕ) : Section P ℕ :=
  if bn < NDIRECT then bmapAddr i bn
  else if bn - NDIRECT < NINDIRECT then do
    let ind ← bmapAddr i NDIRECT
    bmapWord ind (bn - NDIRECT)
  else throw .bmap

/-- An assignment to fields of the inode, with the `iupdate` after it. -/
def store (i : ℕ) (f : Dinode → Dinode) : Section P Unit := do
  let s ← get
  set (s.setDinode i { f (s.dinode i) with addrs := s.addrs i })
  logWrite (s.sb.iblock i)

/-- `if(ip->addrs[k]){ bfree(ip->dev, ip->addrs[k]); ip->addrs[k] = 0; }` -/
def truncAddr (i k : ℕ) : Section P Unit := do
  let s ← get
  if s.addrs i k ≠ 0 then
    bfree (s.addrs i k)
    modify fun s => s.setAddr i k 0
  else pure ()

def truncWord (ind j : ℕ) : Section P Unit := do
  let s ← get
  if s.word ind j ≠ 0 then bfree (s.word ind j) else pure ()

/-- `itrunc` on the indirect block. -/
def truncIndirect (i : ℕ) : Section P Unit := do
  let s ← get
  if s.addrs i NDIRECT ≠ 0 then
    forRange NINDIRECT (truncWord (s.addrs i NDIRECT))
  else pure ()
  truncAddr i NDIRECT

def itrunc (i : ℕ) : Section P Unit := do
  forRange NDIRECT (truncAddr i)
  truncIndirect i
  store i fun d => { d with entries := [], data := [] }

/-- The blocks that the loop of `writei` goes over. -/
def blocksOf (off n : ℕ) : List ℕ :=
  if n = 0 then [] else List.range' (off / BSIZE) ((off + n - 1) / BSIZE + 1 - off / BSIZE)

/-- The loop of `writei`. -/
def writeBlocks (i : ℕ) : List ℕ → Section P Unit
  | [] => pure ()
  | bn :: bns => do
    let b ← bmap i bn
    logWrite b
    writeBlocks i bns

/-- `writei` once its arguments are checked; `f` is what it makes of the contents. -/
def writeContents (i off n : ℕ) (f : Dinode → Dinode) : Section P Unit := do
  writeBlocks i (blocksOf off n)
  let s ← get
  if (s.dinode i).size < off + n then store i f
  else set (s.setDinode i (f (s.dinode i)))

/-! ### Transactions -/

def beginOp : Op P Unit := .atomic (modify fun s => { s with logged := [] })

/-- The section is over, and its blocks are committed. -/
def endOp : Op P Unit := .atomic (modify fun s => { s with sections := s.logged :: s.sections })

end Xv6.Fs
