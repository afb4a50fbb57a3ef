import Mathlib.Data.List.FinRange
import Xv6.Fs.Inode
import Xv6.Lib.Bytes

/-!
# File system calls

Open files (`file.c`), the ends of pipes (`pipe.c`) and the system calls on them
(`sysfile.c`, and what `fork`, `exit` and `exec` do with files). Arguments have
been fetched from the user's memory. What a call depends on beyond the file system
is part of the call: what the console or a pipe gives to `read`, whether `kalloc`
finds a page, the slot that `allocproc` finds, and whether `exec` likes the file.
-/

namespace Xv6.Fs

open Bytes (overwrite length_overwrite)

variable {P : Type}

/-! ### Contents -/

/-- The bytes of a directory entry on disk. -/
def Dirent.bytes (e : Dirent) : List UInt8 :=
  [UInt8.ofNat e.inum, UInt8.ofNat (e.inum / 256)] ++
    e.name.val.map (fun c => UInt8.ofNat c.toNat) ++ List.replicate (DIRSIZ - e.name.val.length) 0

/-- The entry that bytes on disk are read as. -/
def Dirent.ofBytes (bs : List UInt8) : Dirent :=
  ⟨(bs.getD 0 0).toNat + 256 * (bs.getD 1 0).toNat,
    .cut (((bs.drop 2).takeWhile (· ≠ 0)).map fun b => Char.ofNat b.toNat)⟩

/-- What a write leaves. The bytes of a directory are read back as entries. -/
def Dinode.write (d : Dinode) (off : ℕ) (src : List UInt8) : Dinode :=
  if d.type = .dir then
    let bs := overwrite (d.entries.flatMap Dirent.bytes) off src
    { d with entries := (List.range (bs.length / DIRENT)).map fun k =>
        .ofBytes ((bs.drop (DIRENT * k)).take DIRENT) }
  else { d with data := overwrite d.data off src }

theorem Dinode.size_write {d : Dinode} {off : ℕ} {src : List UInt8} (hdir : d.type ≠ .dir)
    (hoff : off ≤ d.size) : (d.write off src).size = max d.size (off + src.length) := by
  rw [Dinode.size, if_neg hdir] at hoff
  rw [Dinode.write, if_neg hdir, Dinode.size, Dinode.size, if_neg hdir, if_neg hdir,
    length_overwrite hoff]

/-- `consoleread` and `consolewrite` sleep with the inode unlocked. -/
def console (ip : ℕ) (r : ℤ) : Op P ℤ := do
  iunlock ip
  ilock ip
  pure r

/-- The number of bytes read; `input` is what the console would return. -/
def readi (ip off n : ℕ) (input : ℤ) : Op P ℤ := do
  let d ← inode ip
  if d.type = .dev then
    if d.major = CONSOLE then console ip input else pure (-1)
  else if d.size < off then pure (-1)
  else pure (min n (d.size - off) : ℕ)

def writei (ip off : ℕ) (src : List UInt8) : Op P ℤ := do
  let d ← inode ip
  if d.type = .dev then
    if d.major = CONSOLE then console ip src.length else pure (-1)
  else if d.size < off then pure (-1)
  else if MAXFILE * BSIZE < off + src.length then pure (-1)
  else
    .atomic (writeContents ip off src.length fun d => d.write off src)
    pure src.length

/-! ### Open files -/

def filealloc : Op P (Option (Fin NFILE)) :=
  .atomic do
    let s ← get
    match (List.finRange NFILE).find? fun f => (s.file f).ref = 0 with
    | none => pure none
    | some f =>
      set (s.setFile f { s.file f with ref := 1 })
      pure (some f)

def filedup (f : Fin NFILE) : Op P Unit :=
  .atomic do
    let s ← get
    if (s.file f).ref < 1 then throw .filedup
    else set (s.setFile f { s.file f with ref := (s.file f).ref + 1 })

/-- The end of a pipe that a file was. -/
def pipeclose (k : ℕ) (writable : Bool) : Op P Unit :=
  .atomic do
    let s ← get
    let v := s.pipe k
    let v := if writable then { v with writeopen := false } else { v with readopen := false }
    set { s with pipe := Function.update s.pipe k v }

/-- `fileclose` under `ftable.lock`; what the file was, if this was the last reference. -/
def fileunref (f : Fin NFILE) : Op P (FileType × Bool) :=
  .atomic do
    let s ← get
    let v := s.file f
    if v.ref < 1 then throw .fileclose
    else if 1 < v.ref then
      set (s.setFile f { v with ref := v.ref - 1 })
      pure (.none, false)
    else
      set (s.setFile f { v with ref := 0, type := .none })
      pure (v.type, v.writable)

def fileclose (f : Fin NFILE) : Op P Unit := do
  match ← fileunref f with
  | (.none, _) => pure ()
  | (.pipe k, writable) => pipeclose k writable
  | (.inode ip, _) =>
    beginOp
    iput ip
    endOp

def setOff (f : Fin NFILE) (r : ℤ) : Op P Unit :=
  .atomic do
    let s ← get
    if 0 < r then set (s.setFile f { s.file f with off := (s.file f).off + r.toNat })
    else pure ()

/-- What `filestat` copies out is not modelled. -/
def filestat (f : Fin NFILE) : Op P ℤ := do
  match ← .read fun s => (s.file f).type with
  | .inode ip =>
    ilock ip
    iunlock ip
    pure 0
  | _ => pure (-1)

/-- What goes through a pipe is not modelled here: `input` is what `piperead` returns. -/
def fileread (f : Fin NFILE) (n : ℕ) (input : ℤ) : Op P ℤ := do
  let v ← .read (·.file f)
  if v.readable = false then pure (-1)
  else
    match v.type with
    | .none => .fail .fileread
    | .pipe _ => pure input
    | .inode ip =>
      ilock ip
      let off ← .read fun s => (s.file f).off
      let r ← readi ip off n input
      setOff f r
      iunlock ip
      pure r

/-- `((MAXOPBLOCKS-1-1-2) / 2) * 512` -/
def maxWrite : ℕ := (MAXOPBLOCKS - 1 - 1 - 2) / 2 * 512

/-- The loop of `filewrite`; every round but the last writes `maxWrite` bytes. -/
def filewriteFrom (f : Fin NFILE) (ip : ℕ) : ℕ → List UInt8 → Op P Bool
  | 0, src => pure src.isEmpty
  | n + 1, src =>
    if src.isEmpty then pure true
    else do
      beginOp
      ilock ip
      let off ← .read fun s => (s.file f).off
      let r ← writei ip off (src.take maxWrite)
      setOff f r
      iunlock ip
      endOp
      if r < 0 then pure false
      else if r ≠ (src.take maxWrite).length then .fail .shortFilewrite
      else filewriteFrom f ip n (src.drop maxWrite)

/-- `input` is what `pipewrite` returns. -/
def filewrite (f : Fin NFILE) (src : List UInt8) (input : ℤ) : Op P ℤ := do
  let v ← .read (·.file f)
  if v.writable = false then pure (-1)
  else
    match v.type with
    | .none => .fail .filewrite
    | .pipe _ => pure input
    | .inode ip =>
      let all ← filewriteFrom f ip src.length src
      pure (if all then src.length else -1)

/-- `argfd`: the open file behind a descriptor. -/
def argfd (p : P) (fd : ℤ) : Op P (Option (Fin NOFILE × Fin NFILE)) :=
  .read fun s =>
    if h : 0 ≤ fd ∧ fd.toNat < NOFILE then
      (s.ofile p ⟨fd.toNat, h.2⟩).map fun f => (⟨fd.toNat, h.2⟩, f)
    else none

variable [DecidableEq P]

def setOfile (p : P) (fd : Fin NOFILE) (f : Option (Fin NFILE)) : Op P Unit :=
  .atomic do
    let s ← get
    set { s with ofile := Function.update s.ofile p (Function.update (s.ofile p) fd f) }

def setCwd (p : P) (ip : Option ℕ) : Op P Unit :=
  .atomic do
    let s ← get
    set { s with cwd := Function.update s.cwd p ip }

def setProc (p : P) (v : Slot) : Op P Unit :=
  .atomic do
    let s ← get
    set { s with proc := Function.update s.proc p v }

def fdalloc (p : P) (f : Fin NFILE) : Op P (Option (Fin NOFILE)) := do
  let fd ← .read fun s => (List.finRange NOFILE).find? fun fd => (s.ofile p fd).isNone
  match fd with
  | none => pure none
  | some fd =>
    setOfile p fd (some f)
    pure (some fd)

/-- The assignments to the fields of a file that the caller has just allocated. -/
def setFile (f : Fin NFILE) (type : FileType) (readable writable : Bool) (off : ℕ → ℕ) :
    Op P Unit :=
  .atomic do
    let s ← get
    let v := s.file f
    set (s.setFile f
      { v with type := type, readable := readable, writable := writable, off := off v.off })

/-- `kalloc`, and the assignments to the fields of the new pipe. -/
def newPipe : Op P ℕ :=
  .atomic do
    let s ← get
    set { s with npipes := s.npipes + 1, pipe := Function.update s.pipe s.npipes ⟨true, true⟩ }
    pure s.npipes

/-- `mem` says whether `kalloc` finds a page. -/
def pipealloc (mem : Bool) : Op P (Option (Fin NFILE × Fin NFILE)) := do
  match ← filealloc with
  | none => pure none
  | some f0 =>
    match ← filealloc with
    | none =>
      fileclose f0
      pure none
    | some f1 =>
      if mem then
        let k ← newPipe
        setFile f0 (.pipe k) true false id
        setFile f1 (.pipe k) false true id
        pure (some (f0, f1))
      else
        fileclose f0
        fileclose f1
        pure none

/-! ### Calls -/

def sysDup (p : P) (fd : ℤ) : Op P ℤ := do
  match ← argfd p fd with
  | none => pure (-1)
  | some (_, f) =>
    match ← fdalloc p f with
    | none => pure (-1)
    | some fd =>
      filedup f
      pure fd.val

def sysRead (p : P) (fd : ℤ) (n : ℕ) (input : ℤ) : Op P ℤ := do
  match ← argfd p fd with
  | none => pure (-1)
  | some (_, f) => fileread f n input

def sysWrite (p : P) (fd : ℤ) (src : List UInt8) (input : ℤ) : Op P ℤ := do
  match ← argfd p fd with
  | none => pure (-1)
  | some (_, f) => filewrite f src input

def sysClose (p : P) (fd : ℤ) : Op P ℤ := do
  match ← argfd p fd with
  | none => pure (-1)
  | some (fd, f) =>
    setOfile p fd none
    fileclose f
    pure 0

def sysFstat (p : P) (fd : ℤ) : Op P ℤ := do
  match ← argfd p fd with
  | none => pure (-1)
  | some (_, f) => filestat f

def sysPipe (p : P) (mem : Bool) : Op P ℤ := do
  match ← pipealloc mem with
  | none => pure (-1)
  | some (rf, wf) =>
    match ← fdalloc p rf with
    | none =>
      fileclose rf
      fileclose wf
      pure (-1)
    | some fd0 =>
      match ← fdalloc p wf with
      | none =>
        setOfile p fd0 none
        fileclose rf
        fileclose wf
        pure (-1)
      | some _ => pure 0

/-- `sys_link` after the label `bad`. -/
def linkBad (ip : ℕ) : Op P ℤ := do
  ilock ip
  iupdate ip fun d => { d with nlink := short (d.nlink - 1) }
  iunlockput ip
  endOp
  pure (-1)

/-- `sys_link` once the link count of `ip` is raised. -/
def linkTo (p : P) (ip : ℕ) (new : List Char) : Op P ℤ := do
  match ← nameiparent p new with
  | none => linkBad ip
  | some (dp, name) =>
    ilock dp
    let r ← dirlink dp name ip
    if r < 0 then
      iunlockput dp
      linkBad ip
    else
      iunlockput dp
      iput ip
      endOp
      pure 0

def sysLink (p : P) (old new : List Char) : Op P ℤ := do
  beginOp
  match ← namei p old with
  | none =>
    endOp
    pure (-1)
  | some ip =>
    ilock ip
    let d ← inode ip
    if d.type = .dir then
      iunlockput ip
      endOp
      pure (-1)
    else
      iupdate ip fun d => { d with nlink := short (d.nlink + 1) }
      iunlock ip
      linkTo p ip new

/-- Is a directory with these entries empty except for "." and ".."? -/
def isdirempty (es : List Dirent) : Bool := (es.drop 2).all (·.inum = 0)

/-- The link that the ".." of a directory was. -/
def dropUp (dp : ℕ) (type : IType) : Op P Unit :=
  if type = .dir then iupdate dp fun d => { d with nlink := short (d.nlink - 1) } else pure ()

/-- `sys_unlink` once the entry of `ip` in `dp` can go. -/
def unlinkEntry (dp ip slot : ℕ) (type : IType) : Op P ℤ := do
  writeEntry dp slot .empty .unlinkWritei
  dropUp dp type
  iunlockput dp
  iupdate ip fun d => { d with nlink := short (d.nlink - 1) }
  iunlockput ip
  endOp
  pure 0

/-- `sys_unlink` after the label `bad`. -/
def unlinkBad (dp : ℕ) : Op P ℤ := do
  iunlockput dp
  endOp
  pure (-1)

def sysUnlink (p : P) (path : List Char) : Op P ℤ := do
  beginOp
  match ← nameiparent p path with
  | none =>
    endOp
    pure (-1)
  | some (dp, name) =>
    ilock dp
    if name = dot ∨ name = dotdot then unlinkBad dp
    else
      match ← dirlookup dp name with
      | none => unlinkBad dp
      | some (slot, ip) =>
        ilock ip
        let d ← inode ip
        if d.nlink < 1 then .fail .nlink
        else if d.type = .dir && !isdirempty d.entries then
          iunlockput ip
          unlinkBad dp
        else unlinkEntry dp ip slot d.type

/-- The entries "." and ".." of a new directory `ip` in `dp`. -/
def createDots (dp ip : ℕ) (type : IType) : Op P Unit :=
  if type = .dir then do
    iupdate dp fun d => { d with nlink := short (d.nlink + 1) }
    let r ← dirlink ip dot ip
    if r < 0 then .fail .createDots
    else
      let r ← dirlink ip dotdot dp
      if r < 0 then .fail .createDots else pure ()
  else pure ()

/-- `create` in the locked directory `dp`, which has no entry with the name. -/
def createIn (dp : ℕ) (name : Name) (type : IType) (major minor : ℤ) : Op P (Option ℕ) := do
  let ip ← ialloc type
  ilock ip
  iupdate ip fun d => { d with major := major, minor := minor, nlink := 1 }
  createDots dp ip type
  let r ← dirlink dp name ip
  if r < 0 then .fail .createDirlink
  else
    iunlockput dp
    pure (some ip)

/-- The inode is locked when it is returned. -/
def create (p : P) (path : List Char) (type : IType) (major minor : ℤ) : Op P (Option ℕ) := do
  match ← nameiparent p path with
  | none => pure none
  | some (dp, name) =>
    ilock dp
    match ← dirlookup dp name with
    | some (_, ip) =>
      iunlockput dp
      ilock ip
      let d ← inode ip
      if type = .file ∧ d.type = .file then pure (some ip)
      else
        iunlockput ip
        pure none
    | none => createIn dp name type major minor

def O_WRONLY : ℕ := 0x001
def O_RDWR : ℕ := 0x002
def O_CREATE : ℕ := 0x200

/-- `sys_open` with the inode locked. -/
def openInode (p : P) (ip omode : ℕ) : Op P ℤ := do
  match ← filealloc with
  | none =>
    iunlockput ip
    endOp
    pure (-1)
  | some f =>
    match ← fdalloc p f with
    | none =>
      fileclose f
      iunlockput ip
      endOp
      pure (-1)
    | some fd =>
      iunlock ip
      endOp
      setFile f (.inode ip) (omode &&& O_WRONLY = 0)
        (omode &&& O_WRONLY ≠ 0 ∨ omode &&& O_RDWR ≠ 0) fun _ => 0
      pure fd.val

def sysOpen (p : P) (path : List Char) (omode : ℕ) : Op P ℤ := do
  beginOp
  if omode &&& O_CREATE ≠ 0 then
    match ← create p path .file 0 0 with
    | none =>
      endOp
      pure (-1)
    | some ip => openInode p ip omode
  else
    match ← namei p path with
    | none =>
      endOp
      pure (-1)
    | some ip =>
      ilock ip
      let d ← inode ip
      if d.type = .dir ∧ omode ≠ 0 then
        iunlockput ip
        endOp
        pure (-1)
      else openInode p ip omode

/-- `sys_mkdir` and `sys_mknod`. -/
def sysMake (p : P) (path : List Char) (type : IType) (major minor : ℤ) : Op P ℤ := do
  beginOp
  match ← create p path type major minor with
  | none =>
    endOp
    pure (-1)
  | some ip =>
    iunlockput ip
    endOp
    pure 0

def sysMkdir (p : P) (path : List Char) : Op P ℤ := sysMake p path .dir 0 0

def sysMknod (p : P) (path : List Char) (major minor : ℤ) : Op P ℤ :=
  sysMake p path .dev (short major) (short minor)

def sysChdir (p : P) (path : List Char) : Op P ℤ := do
  beginOp
  match ← namei p path with
  | none =>
    endOp
    pure (-1)
  | some ip =>
    ilock ip
    let d ← inode ip
    if d.type ≠ .dir then
      iunlockput ip
      endOp
      pure (-1)
    else
      iunlock ip
      let old ← cwd p
      iput old
      endOp
      setCwd p (some ip)
      pure 0

/-- The reads of `exec`: offset, length, and what the console would return. -/
def readAll (ip : ℕ) : List (ℕ × ℕ × ℤ) → Op P Unit
  | [] => pure ()
  | (off, n, input) :: rest => do
    let _ ← readi ip off n input
    readAll ip rest

/-- `exec` as far as the file goes: which parts of it are read before it is run or refused
(`loads`) is left open. -/
def exec (p : P) (path : List Char) (reads : List (ℕ × ℕ × ℤ)) (loads : Bool) : Op P ℤ := do
  beginOp
  match ← namei p path with
  | none =>
    endOp
    pure (-1)
  | some ip =>
    ilock ip
    readAll ip reads
    iunlockput ip
    endOp
    pure (if loads then 0 else -1)

/-- `allocproc` takes the slot `child`, if it is free. -/
def allocproc (child : P) : Op P Bool :=
  .atomic do
    let s ← get
    if s.proc child = .unused then
      set { s with proc := Function.update s.proc child .embryo }
      pure true
    else pure false

/-- The loop of `fork` over the descriptors. -/
def forkFiles (p child : P) : List (Fin NOFILE) → Op P Unit
  | [] => pure ()
  | fd :: fds => do
    match ← .read (·.ofile p fd) with
    | none => forkFiles p child fds
    | some f =>
      filedup f
      setOfile child fd (some f)
      forkFiles p child fds

/-- What `fork` does for the child in slot `child` of the process table; `mem` says whether there is
memory for it. -/
def fork (p child : P) (mem : Bool) : Op P ℤ := do
  if ← allocproc child then
    if mem then
      forkFiles p child (List.finRange NOFILE)
      let ip ← cwd p
      idup ip
      setCwd child (some ip)
      setProc child .live
      pure 0
    else
      setProc child .unused
      pure (-1)
  else pure (-1)

/-- `set_prio` is a copy of `fork` that sets the priority of the child. -/
def setPrio (p child : P) (mem : Bool) : Op P ℤ := fork p child mem

/-- The loop of `exit` over the descriptors. -/
def exitFrom (p : P) : List (Fin NOFILE) → Op P Unit
  | [] => pure ()
  | fd :: fds => do
    match ← .read (·.ofile p fd) with
    | none => exitFrom p fds
    | some f =>
      fileclose f
      setOfile p fd none
      exitFrom p fds

def exit (p : P) : Op P ℤ := do
  exitFrom p (List.finRange NOFILE)
  beginOp
  let ip ← cwd p
  iput ip
  endOp
  setCwd p none
  setProc p .zombie
  pure 0

/-- What `wait`, `wait2` and `wait3` do with the slot of a zombie. -/
def wait (child : P) : Op P ℤ :=
  .atomic do
    let s ← get
    if s.proc child = .zombie then
      set { s with proc := Function.update s.proc child .unused }
      pure 0
    else pure (-1)

/-- A call with its arguments. -/
inductive Call (P : Type) where
  | open (path : List Char) (omode : ℕ)
  | mkdir (path : List Char)
  | mknod (path : List Char) (major minor : ℤ)
  | link (old new : List Char)
  | unlink (path : List Char)
  | chdir (path : List Char)
  | exec (path : List Char) (reads : List (ℕ × ℕ × ℤ)) (loads : Bool)
  | read (fd : ℤ) (n : ℕ) (input : ℤ)
  | write (fd : ℤ) (src : List UInt8) (input : ℤ)
  | close (fd : ℤ)
  | fstat (fd : ℤ)
  | dup (fd : ℤ)
  | pipe (mem : Bool)
  | fork (child : P) (mem : Bool)
  | setPrio (child : P) (mem : Bool)
  | exit
  | wait (child : P)

/-- The code of a call. -/
def syscall (p : P) : Call P → Op P ℤ
  | .open path omode => sysOpen p path omode
  | .mkdir path => sysMkdir p path
  | .mknod path major minor => sysMknod p path major minor
  | .link old new => sysLink p old new
  | .unlink path => sysUnlink p path
  | .chdir path => sysChdir p path
  | .exec path reads loads => exec p path reads loads
  | .read fd n input => sysRead p fd n input
  | .write fd src input => sysWrite p fd src input
  | .close fd => sysClose p fd
  | .fstat fd => sysFstat p fd
  | .dup fd => sysDup p fd
  | .pipe mem => sysPipe p mem
  | .fork child mem => fork p child mem
  | .setPrio child mem => setPrio p child mem
  | .exit => exit p
  | .wait child => wait child

end Xv6.Fs
