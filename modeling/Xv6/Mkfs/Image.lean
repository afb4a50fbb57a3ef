import Xv6.Fs.Block
import Xv6.Lib.Bytes

/-!
# mkfs

`mkfs.c` as a function of the files that it is given. The image is a file of the
host: blocks beyond its end cannot be read, and `wsect` makes it longer. `written`
is for the specification: which function has written which block. `int` is as wide
as the code asserts and the host stores its lowest byte first, so `xint` and
`xshort` change nothing. The host's `open`, `lseek` and `write` do what they are asked
to do; a failure of theirs is an `exit(1)`.
-/

namespace Xv6.Mkfs

open Fs (BSIZE NDIRECT NINDIRECT MAXFILE IPB DIRSIZ ROOTINO)
open Bytes

def FSSIZE : ℕ := 1000
def LOGSIZE : ℕ := Fs.MAXOPBLOCKS * 3
def NINODES : ℕ := 200

def nbitmap : ℕ := FSSIZE / (BSIZE * 8) + 1
def ninodeblocks : ℕ := NINODES / IPB + 1
def nlog : ℕ := LOGSIZE
/-- boot, superblock, log, inode and bitmap blocks -/
def nmeta : ℕ := 2 + nlog + ninodeblocks + nbitmap
def nblocks : ℕ := FSSIZE - nmeta

def T_DIR : ℕ := 1
def T_FILE : ℕ := 2

structure Block where
  bytes : Vector UInt8 BSIZE

/-- The block with the first `BSIZE` of the given bytes. -/
def Block.of (f : ℕ → UInt8) : Block := ⟨Vector.ofFn fun i => f i⟩

/-- The byte at a position, which is 0 after the end. -/
def Block.get (b : Block) (i : ℕ) : UInt8 := b.bytes[i]?.getD 0

instance : CoeFun Block fun _ => ℕ → UInt8 := ⟨Block.get⟩

def zeroes : Block := .of fun _ => 0

structure Superblock where
  size : ℕ
  nblocks : ℕ
  ninodes : ℕ
  nlog : ℕ
  logstart : ℕ
  inodestart : ℕ
  bmapstart : ℕ

def Superblock.bytes (sb : Superblock) : List UInt8 :=
  le 4 sb.size ++ (le 4 sb.nblocks ++ (le 4 sb.ninodes ++ (le 4 sb.nlog ++
    (le 4 sb.logstart ++ (le 4 sb.inodestart ++ le 4 sb.bmapstart)))))

/-- `IBLOCK(i, sb)` -/
def Superblock.iblock (sb : Superblock) (i : ℕ) : ℕ := i / IPB + sb.inodestart

def sb : Superblock where
  size := FSSIZE
  nblocks := nblocks
  ninodes := NINODES
  nlog := nlog
  logstart := 2
  inodestart := 2 + nlog
  bmapstart := 2 + nlog + ninodeblocks

/-- `struct dinode`; `addrs[NDIRECT]` is the last address. -/
structure Dinode where
  type : ℕ
  major : ℕ
  minor : ℕ
  nlink : ℕ
  size : ℕ
  addrs : ℕ → ℕ

def Dinode.zero : Dinode := ⟨0, 0, 0, 0, 0, fun _ => 0⟩

def Dinode.bytes (d : Dinode) : List UInt8 :=
  le 2 d.type ++ (le 2 d.major ++ (le 2 d.minor ++ (le 2 d.nlink ++ (le 4 d.size ++
    (List.range (NDIRECT + 1)).flatMap fun k => le 4 (d.addrs k)))))

/-- The `j`th `struct dinode` of a block. -/
def getDinode (b : Block) (j : ℕ) : Dinode where
  type := half b (64 * j)
  major := half b (64 * j + 2)
  minor := half b (64 * j + 4)
  nlink := half b (64 * j + 6)
  size := word b (64 * j + 8)
  addrs k := if k ≤ NDIRECT then word b (64 * j + 12 + 4 * k) else 0

def putDinode (b : Block) (j : ℕ) (d : Dinode) : Block := .of (blit b (64 * j) d.bytes)

/-- `struct dirent`, with the name as `strncpy` leaves it in a zeroed field. -/
def dirent (inum : ℕ) (name : List UInt8) : List UInt8 :=
  le 2 inum ++ (name.take DIRSIZ ++ List.replicate (DIRSIZ - name.length) 0)

/-- Which function writes a block. -/
inductive Area where
  | clear
  | super
  | inode
  | bitmap
  | data
  deriving DecidableEq

structure State where
  disk : ℕ → Block
  /-- how many blocks the image file has -/
  size : ℕ
  freeinode : ℕ
  freeblock : ℕ
  written : List (Area × ℕ)

/-- How `mkfs` ends if it does not get to `exit(0)`: a failed `assert`, or the `perror` of
`rsect`. -/
inductive Failure where
  | rootino
  | slash
  | maxfile
  | used
  | read
  deriving DecidableEq

/-- The sector that `lseek` goes to; the offset is an `uint`. -/
def sector (sec : ℕ) : ℕ := sec * BSIZE % 2 ^ 32 / BSIZE

def rsect (sec : ℕ) (s : State) : Except Failure Block :=
  if sector sec < s.size then .ok (s.disk (sector sec)) else .error .read

def wsect (a : Area) (sec : ℕ) (b : Block) (s : State) : State :=
  { s with
    disk := Function.update s.disk (sector sec) b
    size := max s.size (sector sec + 1)
    written := (a, sector sec) :: s.written }

def winode (inum : ℕ) (din : Dinode) (s : State) : Except Failure State := do
  let bn := sb.iblock inum
  let buf ← rsect bn s
  return wsect .inode bn (putDinode buf (inum % IPB) din) s

def rinode (inum : ℕ) (s : State) : Except Failure Dinode := do
  let buf ← rsect (sb.iblock inum) s
  return getDinode buf (inum % IPB)

def ialloc (type : ℕ) (s : State) : Except Failure (ℕ × State) := do
  let inum := s.freeinode
  let s := { s with freeinode := s.freeinode + 1 }
  let s ← winode inum { Dinode.zero with type := type, nlink := 1 } s
  return (inum, s)

/-- The loop of `balloc`. -/
def bitmap (used : ℕ) : Block := (List.range used).foldl (fun b i => .of (setBit b i)) zeroes

def balloc (used : ℕ) (s : State) : Except Failure State :=
  if used < BSIZE * 8 then
    .ok (wsect .bitmap sb.bmapstart (bitmap used) s)
  else .error .used

/-- The entry of an indirect block, which gets a block from `freeblock` if it has none. -/
def entryFor (fbn : ℕ) (din : Dinode) (s : State) : Except Failure (ℕ × Dinode × State) := do
  let indirect ← rsect (din.addrs NDIRECT) s
  if word indirect (4 * (fbn - NDIRECT)) = 0 then
    return (s.freeblock, din, wsect .data (din.addrs NDIRECT)
      (.of (blit indirect (4 * (fbn - NDIRECT)) (le 4 s.freeblock)))
      { s with freeblock := s.freeblock + 1 })
  else return (word indirect (4 * (fbn - NDIRECT)), din, s)

/-- The block for `fbn`: the part of the loop of `iappend` before anything is copied. -/
def blockFor (fbn : ℕ) (din : Dinode) (s : State) : Except Failure (ℕ × Dinode × State) :=
  if fbn < NDIRECT then
    if din.addrs fbn = 0 then
      .ok (s.freeblock, { din with addrs := Function.update din.addrs fbn s.freeblock },
        { s with freeblock := s.freeblock + 1 })
    else .ok (din.addrs fbn, din, s)
  else if din.addrs NDIRECT = 0 then
    entryFor fbn { din with addrs := Function.update din.addrs NDIRECT s.freeblock }
      { s with freeblock := s.freeblock + 1 }
  else entryFor fbn din s

/-- One round of the `while` of `iappend`, which copies the first `n1` bytes of `p`. -/
def iappendRound (off n1 : ℕ) (p : List UInt8) (din : Dinode) (s : State) :
    Except Failure (Dinode × State) := do
  let fbn := off / BSIZE
  if ¬ fbn < MAXFILE then throw .maxfile
  let (x, din, s) ← blockFor fbn din s
  let buf ← rsect x s
  return (din, wsect .data x (.of (blit buf (off - fbn * BSIZE) (p.take n1))) s)

theorem lt_next (off : ℕ) : off < (off / BSIZE + 1) * BSIZE := by
  rw [BSIZE]
  omega

def iappendLoop (off : ℕ) (p : List UInt8) (din : Dinode) (s : State) :
    Except Failure (ℕ × Dinode × State) :=
  if p = [] then .ok (off, din, s)
  else do
    let n1 := min p.length ((off / BSIZE + 1) * BSIZE - off)
    let (din, s) ← iappendRound off n1 p din s
    iappendLoop (off + n1) (p.drop n1) din s
termination_by p.length
decreasing_by
  have hlt := lt_next off
  have hpos := List.length_pos_iff.mpr ‹¬ p = []›
  rw [List.length_drop]
  omega

def iappend (inum : ℕ) (p : List UInt8) (s : State) : Except Failure State := do
  let din ← rinode inum s
  let (off, din, s) ← iappendLoop din.size p din s
  winode inum { din with size := off } s

/-- A file of the host: its name, and what the calls of `read` return before the one that
returns 0. -/
structure File where
  name : List UInt8
  reads : List (List UInt8)
  nul : 0 ∉ name
  reads_ne : ∀ c ∈ reads, c ≠ []
  reads_le : ∀ c ∈ reads, c.length ≤ BSIZE

def File.content (f : File) : List UInt8 := f.reads.flatten

/-- The name without a leading `_`. -/
def File.entry (f : File) : List UInt8 := if f.name.head? = some 95 then f.name.tail else f.name

/-- One round of the loop over the files. -/
def addFile (rootino : ℕ) (s : State) (f : File) : Except Failure State := do
  if 47 ∈ f.name then throw .slash
  let (inum, s) ← ialloc T_FILE s
  let s ← iappend rootino (dirent inum f.entry) s
  f.reads.foldlM (fun s c => iappend inum c s) s

/-- The image after the superblock has been written. -/
def start : State :=
  let s : State := ⟨fun _ => zeroes, 0, 1, nmeta, []⟩
  let s := (List.range FSSIZE).foldl (fun s i => wsect .clear i zeroes s) s
  wsect .super 1 (.of (blit zeroes 0 sb.bytes)) s

/-- The size of the root directory is fixed and the bitmap is written. -/
def finish (rootino : ℕ) (s : State) : Except Failure State := do
  let din ← rinode rootino s
  let off := (din.size / BSIZE + 1) * BSIZE
  let s ← winode rootino { din with size := off } s
  balloc s.freeblock s

/-- `main` from the root directory on. -/
def build (files : List File) (s : State) : Except Failure State := do
  let (rootino, s) ← ialloc T_DIR s
  if rootino ≠ ROOTINO then throw .rootino
  let s ← iappend rootino (dirent rootino [46]) s
  let s ← iappend rootino (dirent rootino [46, 46]) s
  let s ← files.foldlM (addFile rootino) s
  finish rootino s

def main (files : List File) : Except Failure State := build files start

end Xv6.Mkfs
