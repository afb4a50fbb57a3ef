import Mathlib.Logic.Function.Basic
import Xv6.Lib.Bytes
import Xv6.Lib.Halt

/-!
# Page tables

`kalloc.c` and `vm.c`, down to the bytes of the pages. A page is named by the address at which the
kernel sees it. The list of the free pages is kept beside the memory, where the kernel has it in
the pages themselves; and `kalloc` may refuse at any call, whether pages are left or not. Numbers
are those of 32 bits. A `for` has a number of rounds as fuel, more than a C program can make
before its counter is back where it was.
-/

namespace Xv6.Vm

open Bytes Function

def PGSIZE : ℕ := 4096
def EXTMEM : ℕ := 0x100000
def PHYSTOP : ℕ := 0xE000000
def DEVSPACE : ℕ := 0xFE000000
def KERNBASE : ℕ := 0x80000000
def KERNLINK : ℕ := KERNBASE + EXTMEM

def V2P (a : ℕ) : ℕ := (a + (2 ^ 32 - KERNBASE)) % 2 ^ 32
def P2V (a : ℕ) : ℕ := (a + KERNBASE) % 2 ^ 32

def PDX (va : ℕ) : ℕ := va / 2 ^ 22 % 1024
def PTX (va : ℕ) : ℕ := va / 2 ^ 12 % 1024
def PGADDR (d t o : ℕ) : ℕ := (d * 2 ^ 22 + t * 2 ^ 12 + o) % 2 ^ 32

def PGROUNDUP (sz : ℕ) : ℕ := (sz + PGSIZE - 1) % 2 ^ 32 / PGSIZE * PGSIZE
def PGROUNDDOWN (a : ℕ) : ℕ := a / PGSIZE * PGSIZE

def PTE_P : ℕ := 1
def PTE_W : ℕ := 2
def PTE_U : ℕ := 4

def PTE_ADDR (pte : ℕ) : ℕ := pte / 2 ^ 12 * 2 ^ 12
def PTE_FLAGS (pte : ℕ) : ℕ := pte % 2 ^ 12

/-- Where the linker puts the kernel's data and the end of the kernel. -/
structure Layout where
  data : ℕ
  stop : ℕ
  data_aligned : data % PGSIZE = 0
  data_gt : KERNLINK < data
  data_le : data ≤ stop
  stop_lt : stop < KERNBASE + PHYSTOP

structure State where
  /-- the bytes of each page -/
  mem : ℕ → ℕ → UInt8
  /-- `kmem.freelist` -/
  freelist : List ℕ
  /-- which of the coming calls of `kalloc` fail -/
  refuse : ℕ → Bool

/-- Why a function does not return. -/
inductive Panic where
  /-- `panic("kfree")` -/
  | kfree
  /-- `panic("remap")` -/
  | remap
  /-- `panic("PHYSTOP too high")` -/
  | physTop
  /-- `panic("freevm: no pgdir")` -/
  | freevm
  /-- `panic("copyuvm: pte should exist")` -/
  | copyuvmPte
  /-- `panic("copyuvm: page not present")` -/
  | copyuvmPage
  /-- `panic("switchuvm: no kstack")` -/
  | switchuvmKstack
  /-- `panic("switchuvm: no pgdir")` -/
  | switchuvmPgdir
  /-- a `for` does not end -/
  | loops
  deriving DecidableEq

abbrev M : Type → Type := StateT State (Except Panic)

/-! ### Memory -/

/-- Entry `i` of a page directory or a page table. -/
def State.entry (s : State) (pg i : ℕ) : ℕ := word (s.mem pg) (4 * i)

/-- `memmove(pg + off, bytes, ...)` -/
def State.write (s : State) (pg off : ℕ) (bytes : List UInt8) : State :=
  { s with mem := update s.mem pg (blit (s.mem pg) off bytes) }

def State.setEntry (s : State) (pg i w : ℕ) : State := s.write pg (4 * i) (le 4 w)

/-- `memset(pg, b, PGSIZE)` -/
def State.fill (s : State) (pg : ℕ) (b : UInt8) : State :=
  { s with mem := update s.mem pg fun _ => b }

/-- `memmove(dst, src, PGSIZE)` -/
def State.copy (s : State) (dst src : ℕ) : State := { s with mem := update s.mem dst (s.mem src) }

/-! ### The allocator -/

variable (L : Layout)

/-- Null is `none`. -/
def kalloc : M (Option ℕ) := do
  let s ← get
  let refuse := fun k => s.refuse (k + 1)
  match s.refuse 0, s.freelist with
  | false, r :: l =>
    set { s with freelist := l, refuse := refuse }
    return some r
  | _, _ =>
    set { s with refuse := refuse }
    return none

/-- The page is filled with junk. -/
def State.give (s : State) (v : ℕ) : State := { s.fill v 1 with freelist := v :: s.freelist }

def kfree (v : ℕ) : M Unit :=
  if v % PGSIZE ≠ 0 ∨ v < L.stop ∨ PHYSTOP ≤ V2P v then throw .kfree
  else modify (State.give · v)

/-! ### Page tables -/

/-- A pointer to an entry is a page table and an index. -/
def walkpgdir (pgdir va : ℕ) (alloc : Bool) : M (Option (ℕ × ℕ)) := do
  let s ← get
  let pde := s.entry pgdir (PDX va)
  if pde &&& PTE_P ≠ 0 then return some (P2V (PTE_ADDR pde), PTX va)
  else if !alloc then return none
  else
    match ← kalloc with
    | none => return none
    | some pgtab =>
      modify fun s =>
        (s.fill pgtab 0).setEntry pgdir (PDX va) (V2P pgtab ||| PTE_P ||| PTE_W ||| PTE_U)
      return some (pgtab, PTX va)

/-- The `for` of `mappages`. -/
def mapLoop (pgdir last perm : ℕ) : ℕ → ℕ → ℕ → M ℤ
  | 0, _, _ => throw .loops
  | fuel + 1, a, pa => do
    match ← walkpgdir pgdir a true with
    | none => return -1
    | some (pgtab, i) =>
      let s ← get
      if s.entry pgtab i &&& PTE_P ≠ 0 then throw .remap
      else
        set (s.setEntry pgtab i (pa ||| perm ||| PTE_P))
        if a = last then return 0
        else mapLoop pgdir last perm fuel ((a + PGSIZE) % 2 ^ 32) ((pa + PGSIZE) % 2 ^ 32)

/-- More rounds than there are pages. -/
def rounds : ℕ := 2 ^ 20 + 1

def mappages (pgdir va size pa perm : ℕ) : M ℤ :=
  mapLoop pgdir (PGROUNDDOWN ((va + size + (2 ^ 32 - 1)) % 2 ^ 32)) perm rounds (PGROUNDDOWN va) pa

/-! ### Address spaces -/

/-- The body of the `for` of `deallocuvm`, with the `a` that it ends with. -/
def deallocPage (pgdir a : ℕ) : M ℕ := do
  match ← walkpgdir pgdir a false with
  | none => return (PGADDR (PDX a + 1) 0 0 + (2 ^ 32 - PGSIZE)) % 2 ^ 32
  | some (pgtab, i) =>
    let s ← get
    let pte := s.entry pgtab i
    if pte &&& PTE_P ≠ 0 then
      if PTE_ADDR pte = 0 then throw .kfree
      else
        kfree L (P2V (PTE_ADDR pte))
        modify (State.setEntry · pgtab i 0)
        return a
    else return a

def deallocLoop (pgdir oldsz : ℕ) : ℕ → ℕ → M Unit
  | 0, _ => throw .loops
  | fuel + 1, a =>
    if a < oldsz then do
      let a ← deallocPage L pgdir a
      deallocLoop pgdir oldsz fuel ((a + PGSIZE) % 2 ^ 32)
    else return ()

def deallocuvm (pgdir oldsz newsz : ℕ) : M ℕ :=
  if oldsz ≤ newsz then return oldsz
  else do
    deallocLoop L pgdir oldsz rounds (PGROUNDUP newsz)
    return newsz

/-- The body of the `for` of `freevm`. -/
def freeTable (pgdir i : ℕ) : M Unit := do
  let s ← get
  if s.entry pgdir i &&& PTE_P ≠ 0 then kfree L (P2V (PTE_ADDR (s.entry pgdir i)))
  else return ()

def freevm (pgdir : ℕ) : M Unit :=
  if pgdir = 0 then throw .freevm
  else do
    let _ ← deallocuvm L pgdir KERNBASE 0
    forRange 1024 (freeTable L pgdir)
    kfree L pgdir

structure Kmap where
  virt : ℕ
  phys_start : ℕ
  phys_end : ℕ
  perm : ℕ

def kmap : List Kmap :=
  [⟨KERNBASE, 0, EXTMEM, PTE_W⟩,
    ⟨KERNLINK, V2P KERNLINK, V2P L.data, 0⟩,
    ⟨L.data, V2P L.data, PHYSTOP, PTE_W⟩,
    ⟨DEVSPACE, DEVSPACE, 0, PTE_W⟩]

/-- The `for` of `setupkvm`; `false` once a mapping has failed and all is freed. -/
def kmapLoop (pgdir : ℕ) : List Kmap → M Bool
  | [] => return true
  | k :: ks => do
    let size := (k.phys_end + (2 ^ 32 - k.phys_start)) % 2 ^ 32
    if (← mappages pgdir k.virt size k.phys_start k.perm) < 0 then
      freevm L pgdir
      return false
    else kmapLoop pgdir ks

def setupkvm : M (Option ℕ) := do
  match ← kalloc with
  | none => return none
  | some pgdir =>
    modify (State.fill · pgdir 0)
    if DEVSPACE < P2V PHYSTOP then throw .physTop
    else if ← kmapLoop L pgdir (kmap L) then return some pgdir
    else return none

/-- The `for` of `allocuvm`; `false` when memory has run out. -/
def allocLoop (pgdir oldsz newsz : ℕ) : ℕ → ℕ → M Bool
  | 0, _ => throw .loops
  | fuel + 1, a =>
    if a < newsz then do
      match ← kalloc with
      | none =>
        let _ ← deallocuvm L pgdir newsz oldsz
        return false
      | some mem =>
        modify (State.fill · mem 0)
        if (← mappages pgdir a PGSIZE (V2P mem) (PTE_W ||| PTE_U)) < 0 then
          let _ ← deallocuvm L pgdir newsz oldsz
          kfree L mem
          return false
        else allocLoop pgdir oldsz newsz fuel ((a + PGSIZE) % 2 ^ 32)
    else return true

def allocuvm (pgdir oldsz newsz : ℕ) : M ℕ :=
  if KERNBASE ≤ newsz then return 0
  else if newsz < oldsz then return oldsz
  else do
    if ← allocLoop L pgdir oldsz newsz rounds (PGROUNDUP oldsz) then return newsz
    else return 0

/-- The `for` of `copyuvm`; `false` for `goto bad`. -/
def copyLoop (pgdir sz d : ℕ) : ℕ → ℕ → M Bool
  | 0, _ => throw .loops
  | fuel + 1, i =>
    if i < sz then do
      match ← walkpgdir pgdir i false with
      | none => throw .copyuvmPte
      | some (pgtab, j) =>
        let pte := (← get).entry pgtab j
        if pte &&& PTE_P = 0 then throw .copyuvmPage
        else
          match ← kalloc with
          | none => return false
          | some mem =>
            modify (State.copy · mem (P2V (PTE_ADDR pte)))
            if (← mappages d i PGSIZE (V2P mem) (PTE_FLAGS pte)) < 0 then
              kfree L mem
              return false
            else copyLoop pgdir sz d fuel ((i + PGSIZE) % 2 ^ 32)
    else return true

def copyuvm (pgdir sz : ℕ) : M (Option ℕ) := do
  match ← setupkvm L with
  | none => return none
  | some d =>
    if ← copyLoop L pgdir sz d rounds 0 then return some d
    else
      freevm L d
      return none

/-- The page that an entry refers to. -/
def link (w : ℕ) : Option ℕ := if w &&& PTE_P ≠ 0 then some (P2V (PTE_ADDR w)) else none

/-- Table `d` of the directory. -/
def tab (s : State) (pgdir d : ℕ) : Option ℕ := link (s.entry pgdir d)

/-- The entry for the virtual page `v`. -/
def pte (s : State) (pgdir v : ℕ) : ℕ :=
  match tab s pgdir (v / 1024) with
  | none => 0
  | some t => s.entry t (v % 1024)

/-! ### sbrk -/

/-- What is read here of a process. -/
structure Proc where
  sz : ℕ
  pgdir : ℕ
  kstack : ℕ

/-- The registers of the processor are left out. -/
def switchuvm (p : Proc) : M Unit :=
  if p.kstack = 0 then throw .switchuvmKstack
  else if p.pgdir = 0 then throw .switchuvmPgdir
  else return ()

/-- The end of `growproc`. -/
def resize (curproc : Proc) (sz : ℕ) : M (ℤ × Proc) := do
  switchuvm { curproc with sz := sz }
  return (0, { curproc with sz := sz })

/-- The result, and the process as it is then. -/
def growproc (curproc : Proc) (n : ℤ) : M (ℤ × Proc) :=
  let newsz := ((curproc.sz + n) % 2 ^ 32).toNat
  if 0 < n then do
    let sz ← allocuvm L curproc.pgdir curproc.sz newsz
    if sz = 0 then return (-1, curproc) else resize curproc sz
  else if n < 0 then do
    let sz ← deallocuvm L curproc.pgdir curproc.sz newsz
    if sz = 0 then return (-1, curproc) else resize curproc sz
  else resize curproc curproc.sz

end Xv6.Vm
