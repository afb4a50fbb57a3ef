import Mathlib.Algebra.Order.Ring.Int
import Xv6.Vm.Paging

/-!
# The allocator of user programs

`umalloc.c`. Memory is seen in units of 8 bytes, the size of a header, by address; addresses
are those of the program, and arithmetic on them is that of 32 bits. The loops have a number of
rounds as fuel, and `none` means that it did not suffice. The kernel gives memory at the end of
the process, at a distance of its choice from what it has given before, or refuses; what it is
asked for is an `int`, and it may be negative.
-/

namespace Xv6.Malloc

open Function

open Vm (KERNBASE)

/-- `union header` -/
structure Header where
  ptr : ℕ
  size : ℕ
  deriving DecidableEq, Inhabited

structure State where
  mem : ℕ → Header
  freep : ℕ
  /-- the end of the process -/
  top : ℕ
  /-- how many times `sbrk` has been called, and how many units it has given -/
  calls : ℕ
  got : ℕ

/-- `p->s.ptr` and `p->s.size` -/
def State.next (s : State) (p : ℕ) : ℕ := (s.mem p).ptr
def State.size (s : State) (p : ℕ) : ℕ := (s.mem p).size

def State.setNext (s : State) (p q : ℕ) : State :=
  { s with mem := update s.mem p { s.mem p with ptr := q } }

def State.setSize (s : State) (p n : ℕ) : State :=
  { s with mem := update s.mem p { s.mem p with size := n } }

def State.setFreep (s : State) (p : ℕ) : State := { s with freep := p }

/-- `p + n` for a pointer to a header -/
def add (p n : ℕ) : ℕ := (p + 8 * n) % 2 ^ 32

section Set

variable (s : State) (p q n : ℕ)

@[simp] theorem next_setNext : (s.setNext p q).next = update s.next p q := by
  funext x
  by_cases h : x = p
  · subst h
    simp [State.setNext, State.next]
  · simp [State.setNext, State.next, h]

@[simp] theorem size_setNext : (s.setNext p q).size = s.size := by
  funext x
  by_cases h : x = p
  · subst h
    simp [State.setNext, State.size]
  · simp [State.setNext, State.size, h]

@[simp] theorem next_setSize : (s.setSize p n).next = s.next := by
  funext x
  by_cases h : x = p
  · subst h
    simp [State.setSize, State.next]
  · simp [State.setSize, State.next, h]

@[simp] theorem size_setSize : (s.setSize p n).size = update s.size p n := by
  funext x
  by_cases h : x = p
  · subst h
    simp [State.setSize, State.size]
  · simp [State.setSize, State.size, h]

@[simp] theorem next_setFreep : (s.setFreep p).next = s.next := rfl
@[simp] theorem size_setFreep : (s.setFreep p).size = s.size := rfl
@[simp] theorem freep_setFreep : (s.setFreep p).freep = p := rfl
@[simp] theorem freep_setNext : (s.setNext p q).freep = s.freep := rfl
@[simp] theorem freep_setSize : (s.setSize p n).freep = s.freep := rfl

end Set

/-- The `for` of `free`: the block after which `bp` belongs. -/
def freeLoop (s : State) (bp : ℕ) : ℕ → ℕ → Option ℕ
  | 0, _ => none
  | fuel + 1, p =>
    if p < bp ∧ bp < s.next p then some p
    else if s.next p ≤ p ∧ (p < bp ∨ bp < s.next p) then some p
    else freeLoop s bp fuel (s.next p)

/-- `bp` is joined with the block behind it, or linked to it. -/
def joinUpper (s : State) (bp p : ℕ) : State :=
  if add bp (s.size bp) = s.next p then
    let s := s.setSize bp ((s.size bp + s.size (s.next p)) % 2 ^ 32)
    s.setNext bp (s.next (s.next p))
  else s.setNext bp (s.next p)

/-- `bp` is joined with the block before it, or linked from it. -/
def joinLower (s : State) (bp p : ℕ) : State :=
  if add p (s.size p) = bp then
    let s := s.setSize p ((s.size p + s.size bp) % 2 ^ 32)
    s.setNext p (s.next bp)
  else s.setNext p bp

def free (fuel ap : ℕ) (s : State) : Option State :=
  let bp := (ap + (2 ^ 32 - 8)) % 2 ^ 32
  match freeLoop s bp fuel s.freep with
  | none => none
  | some p => some ((joinLower (joinUpper s bp p) bp p).setFreep p)

/-- `growproc(n)` on a process of size `sz`, where `n` stands for an `int`: the new size. There
may be too little memory. -/
def growproc (enough : Bool) (sz n : ℕ) : Option ℕ :=
  if n = 0 then some sz
  else if n < 2 ^ 31 then
    if enough ∧ sz + n < KERNBASE then some (sz + n) else none
  else
    -- `n` is negative; `deallocuvm` leaves a size alone that would not get smaller
    let newsz := if sz ≤ (sz + n) % 2 ^ 32 then sz else (sz + n) % 2 ^ 32
    if newsz = 0 then none else some newsz

/-- `sbrk(n)`: the answer to the `k`th call is a distance from the end of the process, in
units, or that there is no memory. -/
def sbrk (answer : ℕ → Option ℕ) (n : ℕ) (s : State) : Option ℕ × State :=
  let sz := s.top + 8 * (answer s.calls).getD 0
  match growproc (answer s.calls).isSome sz n with
  | none => (none, { s with calls := s.calls + 1 })
  | some newsz =>
    (some sz, { s with calls := s.calls + 1, top := newsz, got := s.got + (newsz - sz) / 8 })

/-- A return of 0 is a failure. -/
def morecore (answer : ℕ → Option ℕ) (fuel nu : ℕ) (s : State) : Option (ℕ × State) :=
  let nu := if nu < 4096 then 4096 else nu
  match sbrk answer (nu * 8 % 2 ^ 32) s with
  | (none, s) => some (0, s)
  | (some hp, s) =>
    match free fuel (add hp 1) (s.setSize hp nu) with
    | none => none
    | some s => some (s.freep, s)

/-- `malloc` takes `nunits` units of the block `p`, which is after `prevp`. -/
def carve (nunits prevp p : ℕ) (s : State) : ℕ × State :=
  if s.size p = nunits then (add p 1, (s.setNext prevp (s.next p)).setFreep prevp)
  else
    let s := s.setSize p (s.size p - nunits)
    let p := add p (s.size p)
    (add p 1, (s.setSize p nunits).setFreep prevp)

/-- The `for` of `malloc`. -/
def mallocLoop (answer : ℕ → Option ℕ) (nunits : ℕ) : ℕ → ℕ → ℕ → State → Option (ℕ × State)
  | 0, _, _, _ => none
  | fuel + 1, prevp, p, s =>
    if nunits ≤ s.size p then some (carve nunits prevp p s)
    else if p = s.freep then
      match morecore answer fuel nunits s with
      | none => none
      | some (p, s) =>
        if p = 0 then some (0, s) else mallocLoop answer nunits fuel p (s.next p) s
    else mallocLoop answer nunits fuel p (s.next p) s

/-- How many units a block of `nbytes` bytes takes, with its header. -/
def units (nbytes : ℕ) : ℕ := (nbytes + 8 - 1) % 2 ^ 32 / 8 + 1

/-- The first call makes the free list, with `base` alone. -/
def State.start (s : State) (base : ℕ) : State :=
  if s.freep = 0 then ((s.setNext base base).setSize base 0).setFreep base else s

def malloc (base : ℕ) (answer : ℕ → Option ℕ) (fuel nbytes : ℕ) (s : State) :
    Option (ℕ × State) :=
  let s := s.start base
  mallocLoop answer (units nbytes) fuel s.freep (s.next s.freep) s

end Xv6.Malloc
