import Xv6.Lib.Halt
import Xv6.Mkfs.ReadBack

/-!
# Inodes and their data

The kernel's side of `fs.c`, down to the bytes of the blocks: `balloc`, `bmap`,
`iupdate`, `readi` and `writei` of one process, on the blocks as the buffer cache
and the log show them. An inode that a process works with is a copy in memory, and
reaches the disk with `iupdate`.
-/

namespace Xv6.Data

open Fs (BSIZE NDIRECT NINDIRECT MAXFILE IPB BPB)
open Mkfs (Block Dinode Superblock getDinode putDinode zeroes T_DEV)
open Bytes Function

/-- The superblock, and the blocks. -/
structure State where
  sb : Superblock
  disk : ℕ → Block

/-- `struct inode`, once it is loaded. -/
structure Inode where
  inum : ℕ
  din : Dinode

/-- Why a function does not return. -/
inductive Panic where
  /-- `panic("balloc: out of blocks")` -/
  | balloc
  /-- `panic("bmap: out of range")` -/
  | bmap
  /-- `panic("ilock: no type")` -/
  | noType
  /-- `panic("dirlookup not DIR")` -/
  | dirlookup
  /-- `panic("dirlookup read")` -/
  | dirlookupRead
  /-- `panic("dirlink read")` -/
  | dirlinkRead
  /-- `panic("dirlink")` -/
  | dirlink
  /-- `panic("unlink: writei")` -/
  | unlinkWritei
  /-- `panic("iget: no inodes")` -/
  | iget
  /-- `panic("ilock")` -/
  | ilock
  /-- `panic("iunlock")` -/
  | iunlock
  /-- `iput` frees an inode without links, which is not modelled here -/
  | frees
  /-- the driver of a device is called, which is not modelled -/
  | device
  deriving DecidableEq

abbrev M : Type → Type := StateT State (Except Panic)

/-- `BBLOCK(b, sb)` -/
def bblock (sb : Superblock) (b : ℕ) : ℕ := b / BPB + sb.bmapstart

/-- Is block `b` marked in the bitmap? -/
def State.used (s : State) (b : ℕ) : Bool := bit (s.disk (bblock s.sb b)) (b % BPB)

def bread (b : ℕ) : M Block := return (← get).disk b

def State.setBlock (s : State) (b : ℕ) (v : Block) : State :=
  { s with disk := update s.disk b v }

/-- The buffer of a block is changed and passed to `log_write`, whose
`panic("too big a transaction")` is left out. -/
def bwrite (b : ℕ) (v : Block) : M Unit := modify fun s => s.setBlock b v

/-- Allocate a zeroed block. -/
def balloc : M ℕ := do
  let s ← get
  match (List.range s.sb.size).find? fun b => !s.used b with
  | none => throw .balloc
  | some b =>
    bwrite (bblock s.sb b) (.of (setBit (s.disk (bblock s.sb b)) (b % BPB)))
    bwrite b zeroes
    pure b

def Inode.setAddr (ip : Inode) (k b : ℕ) : Inode :=
  { ip with din := { ip.din with addrs := update ip.din.addrs k b } }

def Inode.setSize (ip : Inode) (n : ℕ) : Inode := { ip with din := { ip.din with size := n } }

/-- `if((addr = ip->addrs[k]) == 0) ip->addrs[k] = addr = balloc(ip->dev)` -/
def bmapAddr (ip : Inode) (k : ℕ) : M (Inode × ℕ) := do
  if ip.din.addrs k = 0 then
    let b ← balloc
    pure (ip.setAddr k b, b)
  else pure (ip, ip.din.addrs k)

/-- The same for entry `j` of the indirect block `ind`. -/
def bmapEntry (ind j : ℕ) : M ℕ := do
  let bp ← bread ind
  if word bp (4 * j) = 0 then
    let b ← balloc
    -- `bp` is the buffer, which `balloc` does not change
    let bp ← bread ind
    bwrite ind (.of (blit bp (4 * j) (le 4 b)))
    pure b
  else pure (word bp (4 * j))

/-- The block of the inode that holds its `bn`th block of data. -/
def bmap (ip : Inode) (bn : ℕ) : M (Inode × ℕ) := do
  if bn < NDIRECT then bmapAddr ip bn
  else if bn - NDIRECT < NINDIRECT then
    let (ip, ind) ← bmapAddr ip NDIRECT
    let b ← bmapEntry ind (bn - NDIRECT)
    pure (ip, b)
  else throw .bmap

def iupdate (ip : Inode) : M Unit := do
  let s ← get
  let b := s.sb.iblock ip.inum
  bwrite b (putDinode (s.disk b) (ip.inum % IPB) ip.din)

theorem mod_BSIZE_lt (off : ℕ) : off % BSIZE < BSIZE := Nat.mod_lt _ (by decide)

/-- The `for` of `readi`, with `n` bytes to go. -/
def readLoop (ip : Inode) (off n : ℕ) : M (Inode × List UInt8) := do
  if n = 0 then pure (ip, [])
  else
    let (ip, b) ← bmap ip (off / BSIZE)
    let bp ← bread b
    let m := min n (BSIZE - off % BSIZE)
    let (ip, rest) ← readLoop ip (off + m) (n - m)
    pure (ip, slice bp (off % BSIZE) m ++ rest)
termination_by n
decreasing_by
  have hlt := mod_BSIZE_lt off
  omega

/-- `readi`, with what it copies; `none` is a return of -1. -/
def readi (ip : Inode) (off n : ℕ) : M (Inode × Option (List UInt8)) := do
  if ip.din.type = T_DEV then throw .device
  else if ip.din.size < off ∨ (off + n) % 2 ^ 32 < off then pure (ip, none)
  else
    let n := if ip.din.size < (off + n) % 2 ^ 32 then ip.din.size - off else n
    let (ip, l) ← readLoop ip off n
    pure (ip, some l)

/-- The `for` of `writei`, with the bytes to go. -/
def writeLoop (ip : Inode) (off : ℕ) (src : List UInt8) : M (Inode × ℕ) := do
  if src = [] then pure (ip, off)
  else
    let (ip, b) ← bmap ip (off / BSIZE)
    let bp ← bread b
    let m := min src.length (BSIZE - off % BSIZE)
    bwrite b (.of (blit bp (off % BSIZE) (src.take m)))
    writeLoop ip (off + m) (src.drop m)
termination_by src.length
decreasing_by
  have hlt := mod_BSIZE_lt off
  have hpos := List.length_pos_iff.mpr ‹¬ src = []›
  rw [List.length_drop]
  omega

def writei (ip : Inode) (off : ℕ) (src : List UInt8) : M (Inode × ℤ) := do
  let n := src.length
  if ip.din.type = T_DEV then throw .device
  else if ip.din.size < off ∨ (off + n) % 2 ^ 32 < off then pure (ip, -1)
  else if MAXFILE * BSIZE < (off + n) % 2 ^ 32 then pure (ip, -1)
  else
    let (ip, off) ← writeLoop ip off src
    if 0 < n ∧ ip.din.size < off then
      let ip := ip.setSize off
      iupdate ip
      pure (ip, n)
    else pure (ip, n)

end Xv6.Data
