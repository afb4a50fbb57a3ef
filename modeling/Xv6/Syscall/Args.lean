import Mathlib.Data.Nat.Find
import Mathlib.Tactic.Common
import Xv6.Vm.Paging

/-!
# Arguments of system calls

How a system call gets at its arguments: `fetchint` to `argstr` of `syscall.c`, and
the calls that go on to use memory of the caller. An `int` and a `uint` are the same
word; a comparison says which of the two it is. Next to its result, a piece of code has the
ranges of user memory that it reads or writes.
-/

namespace Xv6.Args

open Bytes

open Vm (KERNBASE)

def MAXARG : ℕ := 32
def NOFILE : ℕ := 16

abbrev Word := BitVec 32

/-- What of the calling process the checks look at. -/
structure Process where
  sz : Word
  /-- `tf->esp` -/
  esp : Word
  mem : ℕ → UInt8
  /-- which descriptors are open -/
  ofile : ℕ → Bool
  sz_lt : sz.toNat < KERNBASE

/-- The `len` bytes from `start` on. -/
structure Range where
  start : ℕ
  len : ℕ
  deriving DecidableEq

/-- A result, which is `none` for -1, and the ranges of user memory that the code dereferences. -/
structure Fetched (α : Type) where
  value : Option α
  ranges : List Range

namespace Fetched

variable {α β : Type}

/-- The code returns -1. -/
def fail : Fetched α := ⟨none, []⟩

/-- Memory is used. -/
def touch (start len : ℕ) : Fetched Unit := ⟨some (), [⟨start, len⟩]⟩

def bind (x : Fetched α) (f : α → Fetched β) : Fetched β :=
  match x.value with
  | none => ⟨none, x.ranges⟩
  | some a => ⟨(f a).value, x.ranges ++ (f a).ranges⟩

instance : Monad Fetched where
  pure a := ⟨some a, []⟩
  bind := bind

/-- Everything that is dereferenced is below `sz`. -/
def Within (sz : ℕ) (x : Fetched α) : Prop := ∀ r ∈ x.ranges, r.start + r.len ≤ sz

@[simp] theorem value_pure (a : α) : (pure a : Fetched α).value = some a := rfl

@[simp] theorem value_fail : (fail : Fetched α).value = none := rfl

@[simp] theorem value_touch (start len : ℕ) : (touch start len).value = some () := rfl

@[simp] theorem value_bind (x : Fetched α) (f : α → Fetched β) :
    (x >>= f).value = x.value.bind fun a => (f a).value := by
  change (bind x f).value = _
  rw [bind]
  cases x.value <;> rfl

@[simp] theorem within_pure (sz : ℕ) (a : α) : Within sz (pure a) := by
  intro r hr
  cases hr

@[simp] theorem within_fail (sz : ℕ) : Within sz (fail : Fetched α) := by
  intro r hr
  cases hr

theorem within_touch {sz start len : ℕ} (h : start + len ≤ sz) : Within sz (touch start len) := by
  intro r hr
  rw [List.mem_singleton.mp hr]
  exact h

/-- What follows is only run on a result of what comes before. -/
theorem Within.bind {sz : ℕ} {x : Fetched α} {f : α → Fetched β} (hx : Within sz x)
    (hf : ∀ a, x.value = some a → Within sz (f a)) : Within sz (x >>= f) := by
  change Within sz (Fetched.bind x f)
  rw [Fetched.bind]
  cases ha : x.value with
  | none => exact hx
  | some a =>
    intro r hr
    obtain hr | hr := List.mem_append.mp hr
    · exact hx r hr
    · exact hf a ha r hr

theorem Within.ite {sz : ℕ} {x y : Fetched α} {c : Prop} [Decidable c] (hx : c → Within sz x)
    (hy : ¬ c → Within sz y) : Within sz (if c then x else y) := by
  split
  · exact hx ‹_›
  · exact hy ‹_›

end Fetched

open Fetched

variable (p : Process)

/-- `*(int*)addr` -/
def Process.load (addr : Word) : Word := .ofNat 32 (word p.mem addr.toNat)

def fetchint (addr : Word) : Fetched Word :=
  if p.sz ≤ addr ∨ p.sz < addr + 4 then fail
  else do
    touch addr.toNat 4
    return p.load addr

/-- The `for` of `fetchstr`, with `left` bytes between `s` and the end of memory. -/
def scan (start : ℕ) : ℕ → ℕ → Fetched ℕ
  | 0, _ => fail
  | left + 1, s => do
    touch s 1
    if p.mem s = 0 then return s - start
    else scan start left (s + 1)

/-- The length of the string at `addr`. -/
def fetchstr (addr : Word) : Fetched ℕ :=
  if p.sz ≤ addr then fail
  else scan p addr.toNat (p.sz.toNat - addr.toNat) addr.toNat

/-- The address of the `n`th argument. -/
def argAddr (n : Word) : Word := p.esp + 4 + 4 * n

def argint (n : Word) : Fetched Word := fetchint p (argAddr p n)

def argptr (n size : Word) : Fetched Word := do
  let i ← argint p n
  if size.toInt < 0 ∨ p.sz ≤ i ∨ p.sz < i + size then fail
  else return i

/-- The string that is the `n`th argument, and its length. -/
def argstr (n : Word) : Fetched (Word × ℕ) := do
  let addr ← argint p n
  let len ← fetchstr p addr
  return (addr, len)

def argfd (n : Word) : Fetched Word := do
  let fd ← argint p n
  if fd.toInt < 0 ∨ (NOFILE : ℤ) ≤ fd.toInt ∨ p.ofile fd.toNat = false then fail
  else return fd

/-! ### The calls -/

/-- `sys_read` and `sys_write`: what they hand on to `fileread` and `filewrite`, which copy at
most as many bytes. -/
def sysReadWrite : Fetched Unit := do
  let _ ← argfd p 0
  let n ← argint p 2
  let q ← argptr p 1 n
  touch q.toNat n.toNat

/-- `struct stat` has 20 bytes, with the padding after its shorts. -/
def sysFstat : Fetched Unit := do
  let _ ← argfd p 0
  let st ← argptr p 1 20
  touch st.toNat 20

def sysPipe : Fetched Unit := do
  let fd ← argptr p 0 8
  touch fd.toNat 4
  touch (fd.toNat + 4) 4

def sysWait2 : Fetched Unit := do
  let retime ← argptr p 0 4
  let rutime ← argptr p 1 4
  let stime ← argptr p 2 4
  touch retime.toNat 4
  touch rutime.toNat 4
  touch stime.toNat 4

def sysWait3 : Fetched Unit := do
  let prio ← argptr p 0 4
  touch prio.toNat 4

/-- The `for` of `sys_exec` from element `i` on, with `left` elements of `argv` to fill. -/
def argvLoop (uargv : Word) : ℕ → ℕ → Fetched (List (Word × ℕ))
  | 0, _ => fail
  | left + 1, i => do
    let uarg ← fetchint p (uargv + 4 * .ofNat 32 i)
    if uarg = 0 then return []
    else do
      let len ← fetchstr p uarg
      let rest ← argvLoop uargv left (i + 1)
      return (uarg, len) :: rest

/-- `exec` reads strings up to their NUL. -/
def readStrings : List (Word × ℕ) → Fetched Unit
  | [] => pure ()
  | (s, len) :: rest => do
    touch s.toNat (len + 1)
    readStrings rest

def sysExec : Fetched Unit := do
  let path ← argstr p 0
  let uargv ← argint p 1
  let argv ← argvLoop p uargv MAXARG 0
  readStrings (path :: argv)

/-- The calls that use memory of the caller. -/
inductive Call where
  | read
  | write
  | fstat
  | pipe
  | wait2
  | wait3
  | exec
  deriving DecidableEq

def Call.run : Call → Fetched Unit
  | read => sysReadWrite p
  | write => sysReadWrite p
  | fstat => sysFstat p
  | pipe => sysPipe p
  | wait2 => sysWait2 p
  | wait3 => sysWait3 p
  | exec => sysExec p

/-! ### The checks -/

variable {p} {addr n size q : Word}

theorem Process.sz_bound (p : Process) : p.sz.toNat < 2 ^ 31 := p.sz_lt

/-- The four bytes at `addr` are memory of the process. -/
theorem fetchint_guard :
    ¬ (p.sz ≤ addr ∨ p.sz < addr + 4) ↔ addr.toNat + 4 ≤ p.sz.toNat := by
  have hsz := p.sz_bound
  have hfour : BitVec.toNat (4 : Word) = 4 := rfl
  rw [BitVec.le_def, BitVec.lt_def, BitVec.toNat_add, hfour]
  omega

theorem value_fetchint :
    (fetchint p addr).value = some q ↔ addr.toNat + 4 ≤ p.sz.toNat ∧ q = p.load addr := by
  rw [← fetchint_guard, fetchint]
  split
  · next h => exact iff_of_false (by simp) fun hq => hq.1 h
  · next h =>
    rw [value_bind, value_touch, Option.bind_some, value_pure, Option.some_inj]
    exact ⟨fun hq => ⟨h, hq.symm⟩, fun hq => hq.2.symm⟩

theorem within_fetchint : Within p.sz.toNat (fetchint p addr) :=
  .ite (fun _ => within_fail _) fun h =>
    (within_touch (fetchint_guard.mp h)).bind fun _ _ => within_pure _ _

/-- A pointer and a size that is not negative do not wrap around. -/
theorem argptr_guard :
    ¬ (size.toInt < 0 ∨ p.sz ≤ q ∨ p.sz < q + size) ↔
      0 ≤ size.toInt ∧ q.toNat < p.sz.toNat ∧ q.toNat + size.toInt ≤ p.sz.toNat := by
  have hsz := p.sz_bound
  have hsize := size.isLt
  rw [BitVec.le_def, BitVec.lt_def, BitVec.toNat_add, BitVec.toInt_eq_toNat_cond]
  split <;> omega

theorem value_argptr :
    (argptr p n size).value = some q ↔
      ((argAddr p n).toNat + 4 ≤ p.sz.toNat ∧ q = p.load (argAddr p n)) ∧
        0 ≤ size.toInt ∧ q.toNat < p.sz.toNat ∧ q.toNat + size.toInt ≤ p.sz.toNat := by
  rw [argptr, value_bind, Option.bind_eq_some_iff, ← argptr_guard]
  constructor
  · rintro ⟨i, hi, h⟩
    split at h
    · cases h
    · cases h
      exact ⟨value_fetchint.mp hi, ‹_›⟩
  · rintro ⟨hq, h⟩
    exact ⟨q, value_fetchint.mpr hq, by rw [if_neg h, value_pure]⟩

theorem within_argint : Within p.sz.toNat (argint p n) := within_fetchint

theorem within_argptr : Within p.sz.toNat (argptr p n size) :=
  within_argint.bind fun _ _ => .ite (fun _ => within_fail _) fun _ => within_pure _ _

theorem within_argfd : Within p.sz.toNat (argfd p n) :=
  within_argint.bind fun _ _ => .ite (fun _ => within_fail _) fun _ => within_pure _ _

/-- What `argptr` returns may be used for as many bytes as were asked for. -/
theorem touch_of_argptr (h : (argptr p n size).value = some q) :
    Within p.sz.toNat (touch q.toNat size.toNat) := by
  obtain ⟨-, h0, -, hle⟩ := value_argptr.mp h
  have hsize := size.isLt
  refine within_touch ?_
  rw [BitVec.toInt_eq_toNat_cond] at h0 hle
  split at h0 <;> omega

/-! ### Strings -/

/-- The string at `start` has length `len` and ends inside the memory of the process. -/
structure Process.Str (p : Process) (start len : ℕ) : Prop where
  inside : start + len < p.sz.toNat
  nul : p.mem (start + len) = 0
  chars : ∀ k < len, p.mem (start + k) ≠ 0

theorem Process.Str.unique {start len len' : ℕ} (h : p.Str start len) (h' : p.Str start len') :
    len = len' := by
  by_contra hne
  obtain hlt | hlt := Nat.lt_or_gt_of_ne hne
  · exact h'.chars len hlt h.nul
  · exact h.chars len' hlt h'.nul

/-- There is a string wherever a NUL follows. -/
theorem Process.exists_str {start : ℕ} :
    (∃ len, p.Str start len) ↔ ∃ k, start ≤ k ∧ k < p.sz.toNat ∧ p.mem k = 0 := by
  constructor
  · rintro ⟨len, h⟩
    exact ⟨start + len, Nat.le_add_right _ _, h.inside, h.nul⟩
  · rintro ⟨k, hk, hlt, h0⟩
    have hex : ∃ d, p.mem (start + d) = 0 := ⟨k - start, by rwa [Nat.add_sub_cancel' hk]⟩
    have hle : Nat.find hex ≤ k - start := Nat.find_min' hex (by rwa [Nat.add_sub_cancel' hk])
    exact ⟨Nat.find hex, by omega, Nat.find_spec hex, fun d hd => Nat.find_min hex hd⟩

/-- From `s` on, with no NUL before it, the loop finds the first NUL. -/
theorem value_scan {start s left len : ℕ} (hs : start ≤ s) (hend : s + left = p.sz.toNat)
    (hchars : ∀ k, start + k < s → p.mem (start + k) ≠ 0) :
    (scan p start left s).value = some len ↔ p.Str start len := by
  induction left generalizing s with
  | zero =>
    refine iff_of_false (by simp [scan]) fun h => ?_
    have hlt := h.inside
    exact hchars len (by omega) h.nul
  | succ left ih =>
    rw [scan, value_bind, value_touch, Option.bind_some]
    by_cases h0 : p.mem s = 0
    · have hstr : p.Str start (s - start) :=
        ⟨by omega, by rwa [Nat.add_sub_cancel' hs], fun k hk => hchars k (by omega)⟩
      rw [if_pos h0, value_pure, Option.some_inj]
      exact ⟨fun h => h ▸ hstr, fun h => hstr.unique h⟩
    · rw [if_neg h0]
      refine ih (by omega) (by omega) fun k hk => ?_
      by_cases hlast : start + k = s
      · rwa [hlast]
      · exact hchars k (by omega)

theorem within_scan {start s left : ℕ} (hend : s + left = p.sz.toNat) :
    Within p.sz.toNat (scan p start left s) := by
  induction left generalizing s with
  | zero => exact within_fail _
  | succ left ih =>
    refine (within_touch (by omega)).bind fun _ _ => ?_
    exact .ite (fun _ => within_pure _ _) fun _ => ih (by omega)

theorem value_fetchstr {len : ℕ} :
    (fetchstr p addr).value = some len ↔ p.Str addr.toNat len := by
  rw [fetchstr]
  split
  · next hle =>
    rw [BitVec.le_def] at hle
    refine iff_of_false (by simp) fun h => ?_
    have hlt := h.inside
    omega
  · next hlt =>
    rw [BitVec.le_def] at hlt
    exact value_scan le_rfl (by omega) fun k hk => by omega

theorem within_fetchstr : Within p.sz.toNat (fetchstr p addr) := by
  refine .ite (fun _ => within_fail _) fun h => within_scan ?_
  rw [BitVec.le_def] at h
  omega

theorem value_argstr {len : ℕ} :
    (argstr p n).value = some (q, len) ↔
      ((argAddr p n).toNat + 4 ≤ p.sz.toNat ∧ q = p.load (argAddr p n)) ∧ p.Str q.toNat len := by
  simp only [argstr, value_bind, value_pure, Option.bind_eq_some_iff, Option.some_inj,
    Prod.mk.injEq]
  constructor
  · rintro ⟨i, hi, len', hlen, rfl, rfl⟩
    exact ⟨value_fetchint.mp hi, value_fetchstr.mp hlen⟩
  · rintro ⟨hq, hlen⟩
    exact ⟨q, value_fetchint.mpr hq, len, value_fetchstr.mpr hlen, rfl, rfl⟩

theorem within_argstr : Within p.sz.toNat (argstr p n) :=
  within_argint.bind fun _ _ => within_fetchstr.bind fun _ _ => within_pure _ _

/-! ### Memory that the calls use -/

theorem within_argvLoop {uargv : Word} (left i : ℕ) :
    Within p.sz.toNat (argvLoop p uargv left i) := by
  induction left generalizing i with
  | zero => exact within_fail _
  | succ left ih =>
    refine within_fetchint.bind fun uarg _ => ?_
    refine .ite (fun _ => within_pure _ _) fun _ => ?_
    exact within_fetchstr.bind fun _ _ => (ih _).bind fun _ _ => within_pure _ _

/-- Every element of `argv` that the loop of `sys_exec` returns is a string of the process. -/
theorem str_of_argvLoop {uargv : Word} {left i : ℕ} {argv : List (Word × ℕ)}
    (h : (argvLoop p uargv left i).value = some argv) :
    ∀ e ∈ argv, p.Str e.1.toNat e.2 := by
  induction left generalizing i argv with
  | zero => simp [argvLoop] at h
  | succ left ih =>
    rw [argvLoop, value_bind, Option.bind_eq_some_iff] at h
    obtain ⟨uarg, -, h⟩ := h
    split at h
    · cases h
      intro e he
      cases he
    · simp only [value_bind, value_pure, Option.bind_eq_some_iff, Option.some_inj] at h
      obtain ⟨len, hlen, rest, hrest, rfl⟩ := h
      intro e he
      obtain rfl | he := List.mem_cons.mp he
      · exact value_fetchstr.mp hlen
      · exact ih hrest e he

theorem within_readStrings {l : List (Word × ℕ)} (h : ∀ e ∈ l, p.Str e.1.toNat e.2) :
    Within p.sz.toNat (readStrings l) := by
  induction l with
  | nil => exact within_pure _ _
  | cons e rest ih =>
    have hstr := (h e (List.mem_cons_self ..)).inside
    refine (within_touch (by omega)).bind fun _ _ => ih fun e' he' => ?_
    exact h e' (List.mem_cons_of_mem _ he')

theorem within_sysReadWrite : Within p.sz.toNat (sysReadWrite p) :=
  within_argfd.bind fun _ _ => within_argint.bind fun _ _ =>
    within_argptr.bind fun _ hq => touch_of_argptr hq

theorem within_sysFstat : Within p.sz.toNat (sysFstat p) :=
  within_argfd.bind fun _ _ => within_argptr.bind fun _ hst => touch_of_argptr hst

theorem within_sysPipe : Within p.sz.toNat (sysPipe p) := by
  refine within_argptr.bind fun fd hfd => ?_
  have hall := touch_of_argptr hfd ⟨fd.toNat, 8⟩ (List.mem_singleton.mpr rfl)
  refine (within_touch ?_).bind fun _ _ => within_touch ?_
  · exact Nat.le_trans (by simp) hall
  · rwa [Nat.add_assoc]

theorem within_sysWait2 : Within p.sz.toNat (sysWait2 p) :=
  within_argptr.bind fun _ h1 => within_argptr.bind fun _ h2 => within_argptr.bind fun _ h3 =>
    (touch_of_argptr h1).bind fun _ _ => (touch_of_argptr h2).bind fun _ _ => touch_of_argptr h3

theorem within_sysWait3 : Within p.sz.toNat (sysWait3 p) :=
  within_argptr.bind fun _ h => touch_of_argptr h

theorem within_sysExec : Within p.sz.toNat (sysExec p) := by
  refine within_argstr.bind fun path hpath => within_argint.bind fun uargv _ => ?_
  refine (within_argvLoop _ _).bind fun argv hargv => within_readStrings fun e he => ?_
  obtain rfl | he := List.mem_cons.mp he
  · exact (value_argstr.mp hpath).2
  · exact str_of_argvLoop hargv e he

theorem Call.within (c : Call) : Within p.sz.toNat (c.run p) := by
  cases c with
  | read => exact within_sysReadWrite
  | write => exact within_sysReadWrite
  | fstat => exact within_sysFstat
  | pipe => exact within_sysPipe
  | wait2 => exact within_sysWait2
  | wait3 => exact within_sysWait3
  | exec => exact within_sysExec

/-- The checks of arguments are sound and complete: `argptr` returns the pointers to blocks of
memory of the process, `fetchstr` and `argstr` the strings that end in it, and no call
dereferences anything else. -/
theorem argument_checks_sound (p : Process) :
    (∀ n size q, (argptr p n size).value = some q ↔
      ((argAddr p n).toNat + 4 ≤ p.sz.toNat ∧ q = p.load (argAddr p n)) ∧
        0 ≤ size.toInt ∧ q.toNat < p.sz.toNat ∧ q.toNat + size.toInt ≤ p.sz.toNat) ∧
    (∀ addr, (fetchstr p addr).value.isSome ↔
      ∃ k, addr.toNat ≤ k ∧ k < p.sz.toNat ∧ p.mem k = 0) ∧
    (∀ addr len, (fetchstr p addr).value = some len ↔ p.Str addr.toNat len) ∧
    (∀ n q len, (argstr p n).value = some (q, len) ↔
      ((argAddr p n).toNat + 4 ≤ p.sz.toNat ∧ q = p.load (argAddr p n)) ∧ p.Str q.toNat len) ∧
    ∀ c : Call, Within p.sz.toNat (c.run p) := by
  refine ⟨fun n size q => value_argptr, fun addr => ?_, fun addr len => value_fetchstr,
    fun n q len => value_argstr, fun c => c.within⟩
  rw [Option.isSome_iff_exists, ← Process.exists_str]
  exact exists_congr fun len => value_fetchstr

end Xv6.Args
