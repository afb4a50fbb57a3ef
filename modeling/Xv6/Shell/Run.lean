import Xv6.Shell.Parser
import Mathlib.Data.List.Basic
import Mathlib.Data.List.Nodup
import Mathlib.Logic.Function.Basic
import Mathlib.Logic.Relation
import Mathlib.Tactic.Common

/-!
# Running commands

`runcmd` as the system calls that it makes, and the processes that make them. A process has a
table of descriptors, in which a call takes the lowest number that is free, and a parent. Calls
of different processes interleave in any way; `open`, `pipe`, `dup` and `fork` succeed. What is
behind a descriptor is a file of the start, a file that was opened for a redirection, or an end
of a pipe. A pipe is named by the place in the tree of the command that makes it.
-/

namespace Xv6.Shell

open Function

/-- The way down in a tree. -/
inductive Dir
  | left
  | right
  | inner
  deriving DecidableEq

abbrev Path := List Dir

/-- A descriptor of a call, which may be in `p[0]` or `p[1]`. -/
inductive Fd
  | lit (fd : ℕ)
  | p0
  | p1

variable {W : Type} {n i : ℕ} {P : Path → Prop} {made : List Path} {todo : ℕ → List Path} {π : Path}

/-- The calls that a process has before it. -/
inductive Code (W : Type)
  | close (fd : Fd) (k : Code W)
  | dup (fd : Fd) (k : Code W)
  | pipe (π : Path) (k : Code W)
  | openFile (file : W) (r : Redir) (k : Code W)
  /-- the child may be on a side of a pipe -/
  | fork (side : Option Path) (child k : Code W)
  | wait (k : Code W)
  /-- it goes on if `exec` fails -/
  | exec (argv : List W) (k : Code W)
  | exit
  /-- another program runs -/
  | program
  /-- the process has exited -/
  | dead

def runcmd (π : Path) : Cmd W → Code W
  | .exec [] => .exit
  | .exec (arg :: args) => .exec (arg :: args) .exit
  | .redir cmd file r => .close (.lit r.fd) (.openFile file r (runcmd (π ++ [.inner]) cmd))
  | .list left right =>
    .fork none (runcmd (π ++ [.left]) left) (.wait (runcmd (π ++ [.right]) right))
  | .pipe left right =>
    .pipe π
      (.fork (some π)
        (.close (.lit 1) (.dup .p1 (.close .p0 (.close .p1 (runcmd (π ++ [.left]) left)))))
      (.fork (some π)
        (.close (.lit 0) (.dup .p0 (.close .p0 (.close .p1 (runcmd (π ++ [.right]) right)))))
      (.close .p0 (.close .p1 (.wait (.wait .exit))))))
  | .back cmd => .fork none (runcmd (π ++ [.inner]) cmd) .exit

/-! ### Processes -/

/-- What a descriptor stands for. -/
inductive Target (W : Type)
  | start (fd : ℕ)
  | file (file : W) (r : Redir)
  | readEnd (π : Path)
  | writeEnd (π : Path)

/-- The pipe that it is an end of. -/
def Target.pipe : Target W → Option Path
  | .readEnd π => some π
  | .writeEnd π => some π
  | _ => none

abbrev Fds (W : Type) := ℕ → Option (Target W)

def NOFILE : ℕ := 16

/-- The lowest descriptor that is free. -/
def fdalloc (fds : Fds W) : Option ℕ := (List.range NOFILE).find? fun fd => (fds fd).isNone

def alloc (fds : Fds W) (t : Target W) : Fds W :=
  match fdalloc fds with
  | some fd => update fds fd (some t)
  | none => fds

/-- What calls change of a process. -/
structure Env (W : Type) where
  fds : Fds W
  /-- `p[0]` and `p[1]` -/
  p : ℕ × ℕ
  /-- the files that have been opened, in this order -/
  opened : List (W × Redir)
  /-- the pipes on a side of which the process is -/
  sides : List Path
  /-- the pipe of `p` -/
  own : Option Path

def Env.fd (e : Env W) : Fd → ℕ
  | .lit fd => fd
  | .p0 => e.p.1
  | .p1 => e.p.2

def Env.close (e : Env W) (fd : Fd) : Env W := { e with fds := update e.fds (e.fd fd) none }

def Env.dup (e : Env W) (fd : Fd) : Env W :=
  { e with fds :=
      match e.fds (e.fd fd) with
      | some t => alloc e.fds t
      | none => e.fds }

def Env.openFile (e : Env W) (file : W) (r : Redir) : Env W :=
  { e with fds := alloc e.fds (.file file r), opened := e.opened ++ [(file, r)] }

def Env.pipe (e : Env W) (π : Path) : Env W :=
  let fds := alloc e.fds (.readEnd π)
  { e with
    fds := alloc fds (.writeEnd π)
    p := ((fdalloc e.fds).getD 0, (fdalloc fds).getD 0)
    own := some π }

/-- A child with the same descriptors. -/
def Env.forked (e : Env W) (side : Option Path) : Env W :=
  { e with sides := side.toList ++ e.sides }

def Env.closeAll (e : Env W) : Env W := { e with fds := fun _ => none }

structure Proc (W : Type) where
  parent : ℕ
  env : Env W
  code : Code W

structure State (W : Type) where
  procs : ℕ → Option (Proc W)
  /-- the pipes that have been made -/
  made : List Path

def State.set (s : State W) (i : ℕ) (q : Proc W) : State W :=
  { s with procs := update s.procs i (some q) }

def State.clear (s : State W) (i : ℕ) : State W := { s with procs := update s.procs i none }

/-- The children of `i` get the first process, which has the number 0, for a parent. -/
def State.orphan (s : State W) (i : ℕ) : State W :=
  { s with
    procs := fun j => (s.procs j).map fun q => if q.parent = i then { q with parent := 0 } else q }

/-- A step of one process. -/
inductive Step : State W → State W → Prop
  | close {s : State W} {i n : ℕ} {e : Env W} {fd : Fd} {k : Code W}
      (h : s.procs i = some ⟨n, e, .close fd k⟩) : Step s (s.set i ⟨n, e.close fd, k⟩)
  | dup {s : State W} {i n : ℕ} {e : Env W} {fd : Fd} {k : Code W}
      (h : s.procs i = some ⟨n, e, .dup fd k⟩) : Step s (s.set i ⟨n, e.dup fd, k⟩)
  | openFile {s : State W} {i n : ℕ} {e : Env W} {file : W} {r : Redir} {k : Code W}
      (h : s.procs i = some ⟨n, e, .openFile file r k⟩) :
      Step s (s.set i ⟨n, e.openFile file r, k⟩)
  | pipe {s : State W} {i n : ℕ} {e : Env W} {π : Path} {k : Code W}
      (h : s.procs i = some ⟨n, e, .pipe π k⟩) :
      Step s { s.set i ⟨n, e.pipe π, k⟩ with made := s.made ++ [π] }
  | fork {s : State W} {i j n : ℕ} {e : Env W} {side : Option Path} {child k : Code W}
      (h : s.procs i = some ⟨n, e, .fork side child k⟩) (hj : s.procs j = none) (h0 : j ≠ 0) :
      Step s ((s.set i ⟨n, e, k⟩).set j ⟨i, e.forked side, child⟩)
  | wait {s : State W} {i j n : ℕ} {e e' : Env W} {k : Code W}
      (h : s.procs i = some ⟨n, e, .wait k⟩) (hj : s.procs j = some ⟨i, e', .dead⟩) :
      Step s ((s.set i ⟨n, e, k⟩).clear j)
  /-- `wait` fails -/
  | noChild {s : State W} {i n : ℕ} {e : Env W} {k : Code W}
      (h : s.procs i = some ⟨n, e, .wait k⟩) (hno : ∀ j q, s.procs j = some q → q.parent ≠ i) :
      Step s (s.set i ⟨n, e, k⟩)
  | exec {s : State W} {i n : ℕ} {e : Env W} {argv : List W} {k : Code W}
      (h : s.procs i = some ⟨n, e, .exec argv k⟩) : Step s (s.set i ⟨n, e, .program⟩)
  /-- `exec` fails -/
  | execFails {s : State W} {i n : ℕ} {e : Env W} {argv : List W} {k : Code W}
      (h : s.procs i = some ⟨n, e, .exec argv k⟩) : Step s (s.set i ⟨n, e, k⟩)
  | exit {s : State W} {i n : ℕ} {e : Env W} {k : Code W} (h : s.procs i = some ⟨n, e, k⟩)
      (hk : k = .exit ∨ k = .program) : Step s ((s.set i ⟨n, e.closeAll, .dead⟩).orphan i)
  /-- what a program does with the descriptors it has: `close`, `dup` and `fork` -/
  | programClose {s : State W} {i n : ℕ} {e : Env W} (h : s.procs i = some ⟨n, e, .program⟩)
      (fd : ℕ) : Step s (s.set i ⟨n, e.close (.lit fd), .program⟩)
  | programDup {s : State W} {i n : ℕ} {e : Env W} (h : s.procs i = some ⟨n, e, .program⟩)
      (fd : ℕ) : Step s (s.set i ⟨n, e.dup (.lit fd), .program⟩)
  | programFork {s : State W} {i j n : ℕ} {e : Env W} (h : s.procs i = some ⟨n, e, .program⟩)
      (hj : s.procs j = none) (h0 : j ≠ 0) : Step s (s.set j ⟨i, e.forked none, .program⟩)

/-- A process with the descriptors 0, 1 and 2 is about to run the command. -/
def Env.start : Env W := ⟨fun fd => if fd < 3 then some (.start fd) else none, (0, 0), [], [], none⟩

def State.start (cmd : Cmd W) : State W :=
  ⟨fun i => if i = 1 then some ⟨0, .start, runcmd [] cmd⟩ else none, []⟩

/-! ### What is asked of the descriptors -/

/-- What the descriptors of a command inside the tree should be: those of the tree, with 1 on
the write end of a pipe on its left side, 0 on the read end on its right side, and those of the
redirections on the way, where what is further inside prevails. -/
inductive Expects : Path → Cmd W → Fds W → List W → Fds W → Prop
  | exec (π : Path) (argv : List W) (fds : Fds W) : Expects π (.exec argv) fds argv fds
  | redir {π : Path} {cmd : Cmd W} {file : W} {r : Redir} {fds fds' : Fds W} {argv : List W}
      (h : Expects (π ++ [.inner]) cmd (update fds r.fd (some (.file file r))) argv fds') :
      Expects π (.redir cmd file r) fds argv fds'
  | pipeLeft {π : Path} {left right : Cmd W} {fds fds' : Fds W} {argv : List W}
      (h : Expects (π ++ [.left]) left (update fds 1 (some (.writeEnd π))) argv fds') :
      Expects π (.pipe left right) fds argv fds'
  | pipeRight {π : Path} {left right : Cmd W} {fds fds' : Fds W} {argv : List W}
      (h : Expects (π ++ [.right]) right (update fds 0 (some (.readEnd π))) argv fds') :
      Expects π (.pipe left right) fds argv fds'
  | listLeft {π : Path} {left right : Cmd W} {fds fds' : Fds W} {argv : List W}
      (h : Expects (π ++ [.left]) left fds argv fds') : Expects π (.list left right) fds argv fds'
  | listRight {π : Path} {left right : Cmd W} {fds fds' : Fds W} {argv : List W}
      (h : Expects (π ++ [.right]) right fds argv fds') :
      Expects π (.list left right) fds argv fds'
  | back {π : Path} {cmd : Cmd W} {fds fds' : Fds W} {argv : List W}
      (h : Expects (π ++ [.inner]) cmd fds argv fds') : Expects π (.back cmd) fds argv fds'

/-- All the pipes that a process has an end of are among those. -/
def Env.Holds (e : Env W) (P : Path → Prop) : Prop :=
  ∀ (fd : ℕ) (t : Target W), e.fds fd = some t → ∀ π ∈ t.pipe, P π

/-- The pipes of which it has an end are those on a side of which it is; but one that it has
made it may still have itself. -/
def Env.Owns (e : Env W) : Prop := e.Holds fun π => π ∈ e.sides ∨ e.own = some π
def Env.Tidy (e : Env W) : Prop := e.Holds (· ∈ e.sides)

/-- The process forks at most, and then closes both ends of its pipe. -/
def Code.Closes : Code W → Prop
  | .fork _ _ k => k.Closes
  | .close .p0 (.close .p1 _) => True
  | .close .p1 _ => True
  | _ => False

/-- What a process has of pipes: those on a side of which it is, and the one that it has made
until it has closed it. -/
def Guard (c : Code W) (e : Env W) : Prop := e.Tidy ∨ c.Closes ∧ e.Owns

/-- The calls keep the descriptors in order, and `exec` finds what `X` asks for. -/
def Safe (X : List W → Fds W → Prop) : Code W → Env W → Prop
  | .close fd k, e => Guard (.close fd k) e ∧ Safe X k (e.close fd)
  | .dup fd k, e => Guard (.dup fd k) e ∧ Safe X k (e.dup fd)
  | .pipe π k, e => Guard (.pipe π k) e ∧ Safe X k (e.pipe π)
  | .openFile file r k, e => Guard (.openFile file r k) e ∧ Safe X k (e.openFile file r)
  | .fork side child k, e => Guard (.fork side child k) e ∧
      Safe X child (e.forked side) ∧ Safe X k e
  | .wait k, e => e.Tidy ∧ Safe X k e
  | .exec argv k, e => e.Tidy ∧ X argv e.fds ∧ Safe X k e
  | .exit, e => e.Tidy
  | .program, e => e.Tidy
  | .dead, e => ∀ fd, e.fds fd = none

theorem Env.close_fds (e : Env W) (fd : Fd) : (e.close fd).fds = update e.fds (e.fd fd) none := rfl

theorem Env.dup_fds {e : Env W} {fd : Fd} {t : Target W} (h : e.fds (e.fd fd) = some t) :
    (e.dup fd).fds = alloc e.fds t := by
  rw [Env.dup, h]

theorem Env.Holds.close {e : Env W} (h : e.Holds P) (fd : Fd) : (e.close fd).Holds P := by
  intro fd' t ht
  rw [Env.close_fds] at ht
  by_cases hfd : fd' = e.fd fd
  · subst hfd
    rw [update_self] at ht
    exact absurd ht (by simp)
  · rw [update_of_ne hfd] at ht
    exact h fd' t ht

/-- A descriptor more, for something that is held or is no pipe. -/
theorem holds_alloc {e : Env W} (h : e.Holds P) {t : Target W} (ht : ∀ π ∈ t.pipe, P π) (fd : ℕ)
    (t' : Target W) (h' : alloc e.fds t fd = some t') : ∀ π ∈ t'.pipe, P π := by
  cases hfree : fdalloc e.fds with
  | none =>
    rw [alloc, hfree] at h'
    exact h fd t' h'
  | some fd₁ =>
    rw [alloc, hfree] at h'
    by_cases hfd : fd = fd₁
    · subst hfd
      simp only [update_self, Option.some.injEq] at h'
      subst h'
      exact ht
    · simp only [update_of_ne hfd] at h'
      exact h fd t' h'

theorem Env.Holds.dup {e : Env W} (h : e.Holds P) (fd : Fd) : (e.dup fd).Holds P := by
  intro fd' t' h'
  cases ht : e.fds (e.fd fd) with
  | none =>
    rw [Env.dup, ht] at h'
    exact h fd' t' h'
  | some t =>
    rw [Env.dup_fds ht] at h'
    exact holds_alloc h (h _ t ht) fd' t' h'

theorem Env.Holds.mono {e : Env W} {Q : Path → Prop} (h : e.Holds P) (hPQ : ∀ π, P π → Q π) :
    e.Holds Q := fun fd t ht π hπ => hPQ π (h fd t ht π hπ)

theorem State.set_procs (s : State W) (i : ℕ) (q : Proc W) :
    (s.set i q).procs = update s.procs i (some q) := rfl

theorem State.clear_procs (s : State W) (i : ℕ) : (s.clear i).procs = update s.procs i none := rfl

/-- Every process of a state is safe. -/
def State.Safe (X : List W → Fds W → Prop) (s : State W) : Prop :=
  ∀ i q, s.procs i = some q → Shell.Safe X q.code q.env

theorem State.Safe.set {X : List W → Fds W → Prop} {s : State W} (h : s.Safe X) {q : Proc W}
    (hq : Shell.Safe X q.code q.env) : (s.set i q).Safe X := by
  intro j q' hj
  by_cases hij : j = i
  · subst hij
    rw [State.set_procs, update_self, Option.some.injEq] at hj
    subst hj
    exact hq
  · rw [State.set_procs, update_of_ne hij] at hj
    exact h j q' hj

theorem State.Safe.clear {X : List W → Fds W → Prop} {s : State W} (h : s.Safe X) (i : ℕ) :
    (s.clear i).Safe X := by
  intro j q hj
  by_cases hij : j = i
  · subst hij
    rw [State.clear_procs, update_self] at hj
    exact absurd hj (by simp)
  · rw [State.clear_procs, update_of_ne hij] at hj
    exact h j q hj

theorem State.Safe.orphan {X : List W → Fds W → Prop} {s : State W} (h : s.Safe X) (i : ℕ) :
    (s.orphan i).Safe X := by
  intro j q hj
  simp only [State.orphan, Option.map_eq_some_iff] at hj
  obtain ⟨q', hq', rfl⟩ := hj
  split
  · exact h j q' hq'
  · exact h j q' hq'

/-- **What is asked of the calls before a process is asked of those that are left after a step,
and of the child.** -/
theorem State.Safe.step {X : List W → Fds W → Prop} {s s' : State W} (h : s.Safe X)
    (hstep : Step s s') : s'.Safe X := by
  cases hstep with
  | close hi | dup hi | openFile hi | pipe hi | noChild hi => exact h.set (h _ _ hi).2
  | fork hi hj h0 => exact (h.set (h _ _ hi).2.2).set (h _ _ hi).2.1
  | wait hi hj => exact (h.set (h _ _ hi).2).clear _
  | exec hi => exact h.set (h _ _ hi).1
  | execFails hi => exact h.set (h _ _ hi).2.2
  | exit hi hk =>
    refine State.Safe.orphan (h.set ?_) _
    exact fun _ => rfl
  | programClose hi fd => exact h.set (Env.Holds.close (h _ _ hi) _)
  | programDup hi fd => exact h.set (Env.Holds.dup (h _ _ hi) _)
  | programFork hi hj h0 =>
    have htidy := h _ _ hi
    exact h.set htidy

/-! ### The calls of `runcmd` -/

/-- The descriptors 0, 1 and 2 are open and no others. -/
def Standard (fds : Fds W) : Prop := ∀ fd, (fds fd).isSome = true ↔ fd < 3

theorem fdalloc_eq {fds : Fds W} (hn : n < NOFILE) (hfree : fds n = none)
    (hbelow : ∀ m < n, (fds m).isSome = true) : fdalloc fds = some n := by
  rw [fdalloc, List.find?_range_eq_some]
  refine ⟨by simp [hfree], List.mem_range.mpr hn, fun m hm => ?_⟩
  simpa using hbelow m hm

theorem alloc_eq {fds : Fds W} (hn : n < NOFILE) (hfree : fds n = none)
    (hbelow : ∀ m < n, (fds m).isSome = true) (t : Target W) :
    alloc fds t = update fds n (some t) := by
  rw [alloc, fdalloc_eq hn hfree hbelow]

/-- A descriptor of the three that is closed is the one that is taken next. -/
theorem Standard.alloc_close {fds : Fds W} (h : Standard fds) (hn : n < 3) (t : Target W) :
    alloc (update fds n none) t = update fds n (some t) := by
  rw [alloc_eq (n := n) (by rw [NOFILE]; omega) (by simp), update_idem]
  intro m hm
  rw [update_of_ne (by omega)]
  exact (h m).mpr (by omega)

theorem Standard.update_some {fds : Fds W} (h : Standard fds) (hn : n < 3) (t : Target W) :
    Standard (update fds n (some t)) := by
  intro fd
  by_cases hfd : fd = n
  · subst hfd
    simp [hn]
  · rw [update_of_ne hfd]
    exact h fd

theorem Standard.eq_none {fds : Fds W} (h : Standard fds) {fd : ℕ} (hfd : 3 ≤ fd) :
    fds fd = none := by
  have hs := mt (h fd).mp (by omega)
  simpa using hs

theorem Redir.fd_lt (r : Redir) : r.fd < 3 := by
  cases r <;> decide

theorem Standard.pipe_fds {e : Env W} (h : Standard e.fds) (π : Path) :
    (e.pipe π).fds = update (update e.fds 3 (some (.readEnd π))) 4 (some (.writeEnd π)) ∧
      (e.pipe π).p = (3, 4) := by
  have h3 : ∀ m < 3, (e.fds m).isSome = true := fun m hm => (h m).mpr hm
  have h4 : ∀ m < 4, (update e.fds 3 (some (Target.readEnd π)) m).isSome = true := by
    intro m hm
    by_cases hm3 : m = 3
    · subst hm3
      simp
    · rw [update_of_ne hm3]
      exact h3 m (by omega)
  have hfree : update e.fds 3 (some (Target.readEnd π)) 4 = none := by
    rw [update_of_ne (by decide)]
    exact h.eq_none (by decide)
  have halloc : alloc e.fds (.readEnd π) = update e.fds 3 (some (.readEnd π)) :=
    alloc_eq (by decide) (h.eq_none (Nat.le_refl 3)) h3 _
  constructor
  · rw [Env.pipe]
    simp only [halloc, alloc_eq (by decide) hfree h4]
  · rw [Env.pipe]
    simp only [halloc, fdalloc_eq (by decide) hfree h4,
      fdalloc_eq (by decide) (h.eq_none (Nat.le_refl 3)) h3, Option.getD_some]

theorem Env.Tidy.close {e : Env W} (h : e.Tidy) (fd : Fd) : (e.close fd).Tidy :=
  Env.Holds.close h fd

theorem Env.Tidy.dup {e : Env W} (h : e.Tidy) (fd : Fd) : (e.dup fd).Tidy := Env.Holds.dup h fd

/-- What a child of the pipe has: both ends, of a pipe on a side of which it is. -/
theorem Standard.pipe_forked {e : Env W} (h : Standard e.fds) (ht : e.Tidy) (π : Path) :
    (e.pipe π).Owns ∧ ((e.pipe π).forked (some π)).Tidy := by
  have hends : (e.pipe π).Holds fun κ => κ = π ∨ κ ∈ e.sides := by
    intro fd t hfd κ hκ
    rw [(h.pipe_fds π).1] at hfd
    by_cases h4 : fd = 4
    · subst h4
      rw [update_self, Option.some.injEq] at hfd
      subst hfd
      exact .inl (Option.some.inj hκ).symm
    rw [update_of_ne h4] at hfd
    by_cases h3 : fd = 3
    · subst h3
      rw [update_self, Option.some.injEq] at hfd
      subst hfd
      exact .inl (Option.some.inj hκ).symm
    rw [update_of_ne h3] at hfd
    exact .inr (ht fd t hfd κ hκ)
  constructor
  · refine hends.mono fun κ hκ => ?_
    rcases hκ with rfl | hκ
    · exact .inr rfl
    · exact .inl hκ
  · refine fun fd t hfd κ hκ => ?_
    rcases hends fd t hfd κ hκ with rfl | hmem
    · exact List.mem_cons_self
    · exact List.mem_cons_of_mem _ hmem

/-- `close` of `n`, `dup` of one end and `close` of both. -/
def Env.wire (e : Env W) (n : ℕ) (fd : Fd) : Env W :=
  (((e.close (.lit n)).dup fd).close .p0).close .p1

theorem safe_wire {X : List W → Fds W → Prop} {e : Env W} (h : e.Tidy) {fd : Fd} {k : Code W}
    (hk : Safe X k (e.wire n fd)) :
    Safe X (.close (.lit n) (.dup fd (.close .p0 (.close .p1 k)))) e :=
  ⟨.inl h, .inl (h.close _), .inl ((h.close _).dup _), .inl (((h.close _).dup _).close _), hk⟩

/-- The descriptors that a side of a pipe begins with. -/
theorem Standard.wire_fds {e : Env W} (h : Standard e.fds) (π : Path) (fd : Fd) (hn : n < 3)
    {t : Target W} (hne : ((e.pipe π).forked (some π)).fd fd ≠ n)
    (ht : (e.pipe π).fds (((e.pipe π).forked (some π)).fd fd) = some t) :
    (((e.pipe π).forked (some π)).wire n fd).fds = update e.fds n (some t) := by
  obtain ⟨hfds, hp⟩ := h.pipe_fds π
  have hdup : ((((e.pipe π).forked (some π)).close (.lit n)).dup fd).fds =
      update (e.pipe π).fds n (some t) := by
    have htarget : (((e.pipe π).forked (some π)).close (.lit n)).fds
        ((((e.pipe π).forked (some π)).close (.lit n)).fd fd) = some t := by
      refine Eq.trans ?_ ht
      exact update_of_ne hne _ _
    have hopen : ∀ m < n, (update (e.pipe π).fds n none m).isSome = true := by
      intro m hm
      rw [update_of_ne (by omega), hfds, update_of_ne (by omega), update_of_ne (by omega)]
      exact (h m).mpr (by omega)
    rw [Env.dup_fds htarget]
    refine (alloc_eq (by rw [NOFILE]; omega) (update_self ..) hopen t).trans ?_
    exact update_idem ..
  have hclose : (((e.pipe π).forked (some π)).wire n fd).fds =
      update (update (update (e.pipe π).fds n (some t)) 3 none) 4 none := by
    have h3 : (e.pipe π).p.1 = 3 := by rw [hp]
    have h4 : (e.pipe π).p.2 = 4 := by rw [hp]
    rw [← hdup, ← h3, ← h4]
    rfl
  have hnone : ∀ fd, 3 ≤ fd → e.fds fd = none := fun fd hfd => h.eq_none hfd
  rw [hclose, hfds]
  funext x
  by_cases h4 : x = 4
  · subst h4
    rw [update_self, update_of_ne (by omega), hnone 4 (by omega)]
  by_cases h3 : x = 3
  · subst h3
    rw [update_of_ne h4, update_self, update_of_ne (by omega), hnone 3 (by omega)]
  rw [update_of_ne h4, update_of_ne h3]
  by_cases hx : x = n
  · subst hx
    rw [update_self, update_self]
  · rw [update_of_ne hx, update_of_ne hx, update_of_ne h4, update_of_ne h3]

/-- What `runcmd` leaves of the descriptors of the pipe. -/
theorem Standard.closed_fds {e : Env W} (h : Standard e.fds) (π : Path) :
    (((e.pipe π).close .p0).close .p1).fds = e.fds := by
  obtain ⟨hfds, hp⟩ := h.pipe_fds π
  have hclose : (((e.pipe π).close .p0).close .p1).fds =
      update (update (e.pipe π).fds (e.pipe π).p.1 none) (e.pipe π).p.2 none := rfl
  rw [hclose, hp, hfds]
  funext x
  by_cases h4 : x = 4
  · subst h4
    rw [update_self, h.eq_none (by omega)]
  by_cases h3 : x = 3
  · subst h3
    rw [update_of_ne h4, update_self, h.eq_none (by omega)]
  rw [update_of_ne h4, update_of_ne h3, update_of_ne h4, update_of_ne h3]

theorem Env.Tidy.openFile {e : Env W} (h : e.Tidy) (file : W) (r : Redir) :
    (e.openFile file r).Tidy := by
  intro fd t ht
  exact holds_alloc h (t := .file file r) (by simp [Target.pipe]) fd t ht

theorem Env.Tidy.wire {e : Env W} (h : e.Tidy) (n : ℕ) (fd : Fd) : (e.wire n fd).Tidy :=
  (((h.close _).dup _).close _).close _

/-- **The calls of a command are safe where the descriptors 0, 1 and 2 are open.** -/
theorem safe_runcmd {X : List W → Fds W → Prop} {c : Cmd W} {e : Env W} (he : Standard e.fds)
    (ht : e.Tidy) (hX : ∀ argv fds, Standard fds → Expects π c e.fds argv fds → X argv fds) :
    Safe X (runcmd π c) e := by
  induction c generalizing π e with
  | exec argv =>
    cases argv with
    | nil => exact ht
    | cons a as => exact ⟨ht, hX _ _ he (.exec π _ _), ht⟩
  | redir cmd file r ih =>
    have hfds : ((e.close (.lit r.fd)).openFile file r).fds =
        update e.fds r.fd (some (.file file r)) :=
      he.alloc_close r.fd_lt _
    refine ⟨.inl ht, .inl (ht.close _), ih ?_ ?_ fun argv fds hs hx => hX argv fds hs (.redir ?_)⟩
    · rw [hfds]
      exact he.update_some r.fd_lt _
    · exact (ht.close _).openFile file r
    · rwa [hfds] at hx
  | pipe left right ihl ihr =>
    obtain ⟨howns, htidy⟩ := he.pipe_forked ht π
    obtain ⟨hfds, hp⟩ := he.pipe_fds π
    have hleft := he.wire_fds π .p1 (n := 1) (t := .writeEnd π) (by decide)
      (by simp [Env.fd, Env.forked, hp]) (by simp [Env.fd, Env.forked, hp, hfds])
    have hright := he.wire_fds π .p0 (n := 0) (t := .readEnd π) (by decide)
      (by simp [Env.fd, Env.forked, hp]) (by simp [Env.fd, Env.forked, hp, hfds])
    have hend : (((e.pipe π).close .p0).close .p1).Tidy := by
      intro fd t hfd
      rw [he.closed_fds] at hfd
      exact ht fd t hfd
    refine ⟨.inl ht, .inr ⟨trivial, howns⟩,
      safe_wire htidy (ihl ?_ (htidy.wire _ _) fun argv fds hs hx =>
      hX argv fds hs (.pipeLeft ?_)), .inr ⟨trivial, howns⟩,
      safe_wire htidy (ihr ?_ (htidy.wire _ _) fun argv fds hs hx =>
      hX argv fds hs (.pipeRight ?_)), .inr ⟨trivial, howns⟩,
      .inr ⟨trivial, howns.close _⟩, hend, hend, hend⟩
    · rw [hleft]
      exact he.update_some (by decide) _
    · rwa [hleft] at hx
    · rw [hright]
      exact he.update_some (by decide) _
    · rwa [hright] at hx
  | list left right ihl ihr =>
    exact ⟨.inl ht, ihl he ht fun argv fds hs hx => hX argv fds hs (.listLeft hx), ht,
      ihr he ht fun argv fds hs hx => hX argv fds hs (.listRight hx)⟩
  | back cmd ih =>
    exact ⟨.inl ht, ih he ht fun argv fds hs hx => hX argv fds hs (.back hx), ht⟩

theorem Env.start_standard : Standard (Env.start (W := W)).fds := by
  intro fd
  by_cases h : fd < 3
  · simp [Env.start, h]
  · simp [Env.start, h]

theorem Env.start_tidy : (Env.start (W := W)).Tidy := by
  intro fd t ht π hπ
  simp only [Env.start] at ht
  split at ht
  · cases ht
    exact absurd hπ (by simp [Target.pipe])
  · exact absurd ht (by simp)

/-- **In every state of a run of a command the processes are safe.** -/
theorem safe_of_reachable {cmd : Cmd W} {s : State W}
    (h : Relation.ReflTransGen Step (State.start cmd) s) :
    s.Safe fun argv fds => Standard fds ∧ Expects [] cmd Env.start.fds argv fds := by
  induction h with
  | refl =>
    intro i q hq
    simp only [State.start] at hq
    split at hq
    · cases hq
      exact safe_runcmd Env.start_standard Env.start_tidy fun argv fds hs hx => ⟨hs, hx⟩
    · exact absurd hq (by simp)
  | tail _ hstep ih => exact ih.step hstep

theorem Safe.guard {X : List W → Fds W → Prop} {c : Code W} {e : Env W} (h : Safe X c e) :
    Guard c e := by
  cases c with
  | close fd k => exact h.1
  | dup fd k => exact h.1
  | pipe π k => exact h.1
  | openFile file r k => exact h.1
  | fork side child k => exact h.1
  | wait k => exact .inl h.1
  | exec argv k => exact .inl h.1
  | exit => exact .inl h
  | program => exact .inl h
  | dead =>
    refine .inl fun fd t ht => ?_
    rw [h fd] at ht
    exact absurd ht (by simp)

/-! ### A pipe for each place -/

/-- The pipes that are yet to be made. -/
def Code.pipes : Code W → List Path
  | .close _ k | .dup _ k | .openFile _ _ k | .wait k | .exec _ k => k.pipes
  | .pipe π k => π :: k.pipes
  | .fork _ child k => child.pipes ++ k.pipes
  | .exit | .program | .dead => []

/-- Those of a command are at places below its own. -/
theorem prefix_of_mem_pipes {c : Cmd W} {κ : Path} (h : κ ∈ (runcmd π c).pipes) : π <+: κ := by
  induction c generalizing π with
  | exec argv => cases argv <;> exact absurd h List.not_mem_nil
  | redir cmd file r ih => exact (List.prefix_append _ _).trans (ih h)
  | pipe left right ihl ihr =>
    simp only [runcmd, Code.pipes, List.append_nil, List.mem_cons, List.mem_append] at h
    rcases h with rfl | h | h
    · exact List.prefix_rfl
    · exact (List.prefix_append _ _).trans (ihl h)
    · exact (List.prefix_append _ _).trans (ihr h)
  | list left right ihl ihr =>
    rcases List.mem_append.mp h with h | h
    · exact (List.prefix_append _ _).trans (ihl h)
    · exact (List.prefix_append _ _).trans (ihr h)
  | back cmd ih =>
    rcases List.mem_append.mp h with h | h
    · exact (List.prefix_append _ _).trans (ih h)
    · exact absurd h List.not_mem_nil

theorem left_right_disjoint {left right : Cmd W} {κ : Path}
    (hl : κ ∈ (runcmd (π ++ [.left]) left).pipes) : κ ∉ (runcmd (π ++ [.right]) right).pipes := by
  intro hr
  obtain ⟨_, rfl⟩ := prefix_of_mem_pipes hl
  obtain ⟨_, h⟩ := prefix_of_mem_pipes hr
  simp at h

theorem not_mem_below {c : Cmd W} (d : Dir) : π ∉ (runcmd (π ++ [d]) c).pipes := by
  intro h
  have hle := (prefix_of_mem_pipes h).length_le
  rw [List.length_append, List.length_singleton] at hle
  omega

theorem nodup_pipes (c : Cmd W) (π : Path) : (runcmd π c).pipes.Nodup := by
  induction c generalizing π with
  | exec argv => cases argv <;> exact List.nodup_nil
  | redir cmd file r ih => exact ih _
  | pipe left right ihl ihr =>
    simp only [runcmd, Code.pipes, List.append_nil, List.nodup_cons, List.mem_append, not_or]
    refine ⟨⟨not_mem_below _, not_mem_below _⟩, ?_⟩
    exact List.nodup_append'.mpr ⟨ihl _, ihr _, fun κ hl hr => left_right_disjoint hl hr⟩
  | list left right ihl ihr =>
    exact List.nodup_append'.mpr ⟨ihl _, ihr _, fun κ hl hr => left_right_disjoint hl hr⟩
  | back cmd ih =>
    simp only [runcmd, Code.pipes, List.append_nil]
    exact ih _

/-- The pipes that the process `i` is yet to make. -/
def State.toMake (s : State W) (i : ℕ) : List Path :=
  match s.procs i with
  | some q => q.code.pipes
  | none => []

/-- Every pipe is made at most once: by one process, if it has not been made. -/
structure Once (todo : ℕ → List Path) (made : List Path) : Prop where
  nodup_made : made.Nodup
  nodup : ∀ i, (todo i).Nodup
  fresh : ∀ i, ∀ π ∈ todo i, π ∉ made
  apart : ∀ i j, i ≠ j → ∀ π ∈ todo i, π ∉ todo j

theorem Once.mono {todo' : ℕ → List Path} (h : Once todo made)
    (hle : ∀ i, (todo' i).Sublist (todo i)) : Once todo' made where
  nodup_made := h.nodup_made
  nodup i := (hle i).nodup (h.nodup i)
  fresh i π hπ := h.fresh i π ((hle i).subset hπ)
  apart i j hij π hi hj := h.apart i j hij π ((hle i).subset hi) ((hle j).subset hj)

theorem Once.make (h : Once todo made) {ks : List Path} (hi : todo i = π :: ks) :
    Once (update todo i ks) (made ++ [π]) := by
  have hmono : Once (update todo i ks) made := by
    refine h.mono fun j => ?_
    by_cases hj : j = i
    · subst hj
      rw [update_self, hi]
      exact List.sublist_cons_self _ _
    · rw [update_of_ne hj]
  have hmem : π ∈ todo i := hi ▸ List.mem_cons_self
  refine ⟨?_, hmono.nodup, fun j κ hκ => ?_, hmono.apart⟩
  · refine List.nodup_append'.mpr ⟨h.nodup_made, List.nodup_singleton π, ?_⟩
    intro κ hκ hπ
    obtain rfl := List.mem_singleton.mp hπ
    exact h.fresh i _ hmem hκ
  · rw [List.mem_append, List.mem_singleton, not_or]
    refine ⟨hmono.fresh j κ hκ, ?_⟩
    rintro rfl
    by_cases hj : j = i
    · subst hj
      rw [update_self] at hκ
      exact (List.nodup_cons.mp (hi ▸ h.nodup j)).1 hκ
    · rw [update_of_ne hj] at hκ
      exact h.apart j i hj κ hκ hmem

theorem Once.split (h : Once todo made) {j : ℕ} {cs ks : List Path} (hi : todo i = cs ++ ks)
    (hj : todo j = []) : Once (update (update todo i ks) j cs) made := by
  obtain ⟨hcs, hks, hdis⟩ := List.nodup_append'.mp (hi ▸ h.nodup i)
  -- a pipe of one of the processes was one of the first process or is one of another process
  have hsub : ∀ m, ∀ κ ∈ update (update todo i ks) j cs m,
      (m = j ∧ κ ∈ cs) ∨ (m ≠ j ∧ m = i ∧ κ ∈ ks) ∨ (m ≠ j ∧ m ≠ i ∧ κ ∈ todo m) := by
    intro m κ hκ
    by_cases hmj : m = j
    · subst hmj
      exact .inl ⟨rfl, by rwa [update_self] at hκ⟩
    rw [update_of_ne hmj] at hκ
    by_cases hmi : m = i
    · subst hmi
      exact .inr (.inl ⟨hmj, rfl, by rwa [update_self] at hκ⟩)
    · rw [update_of_ne hmi] at hκ
      exact .inr (.inr ⟨hmj, hmi, hκ⟩)
  have hcs' : ∀ κ ∈ cs, κ ∈ todo i := fun κ hκ => hi ▸ List.mem_append_left _ hκ
  have hks' : ∀ κ ∈ ks, κ ∈ todo i := fun κ hκ => hi ▸ List.mem_append_right _ hκ
  refine ⟨h.nodup_made, fun m => ?_, fun m κ hκ => ?_, fun m n hmn κ hm hn => ?_⟩
  · by_cases hmj : m = j
    · subst hmj
      rwa [update_self]
    rw [update_of_ne hmj]
    by_cases hmi : m = i
    · subst hmi
      rwa [update_self]
    · rw [update_of_ne hmi]
      exact h.nodup m
  · rcases hsub m κ hκ with ⟨-, hκ⟩ | ⟨-, -, hκ⟩ | ⟨-, -, hκ⟩
    · exact h.fresh i κ (hcs' κ hκ)
    · exact h.fresh i κ (hks' κ hκ)
    · exact h.fresh m κ hκ
  · rcases hsub m κ hm with ⟨rfl, hκ⟩ | ⟨hmj, rfl, hκ⟩ | ⟨hmj, hmi, hκ⟩ <;>
      rcases hsub n κ hn with ⟨rfl, hκ'⟩ | ⟨hnj, rfl, hκ'⟩ | ⟨hnj, hni, hκ'⟩
    · exact hmn rfl
    · exact hdis hκ hκ'
    · exact h.apart n i hni κ hκ' (hcs' κ hκ)
    · exact hdis hκ' hκ
    · exact hmn rfl
    · exact h.apart n m hni κ hκ' (hks' κ hκ)
    · exact h.apart m i hmi κ hκ (hcs' κ hκ')
    · exact h.apart m n hmi κ hκ (hks' κ hκ')
    · exact h.apart m n hmn κ hκ hκ'

theorem State.toMake_set (s : State W) (i : ℕ) (q : Proc W) :
    (s.set i q).toMake = update s.toMake i q.code.pipes := by
  funext j
  by_cases hj : j = i
  · subst hj
    rw [State.toMake, State.set_procs, update_self, update_self]
  · rw [State.toMake, State.set_procs, update_of_ne hj, update_of_ne hj]
    rfl

theorem State.toMake_clear (s : State W) (i j : ℕ) :
    ((s.clear i).toMake j).Sublist (s.toMake j) := by
  by_cases hj : j = i
  · subst hj
    rw [State.toMake, State.clear_procs, update_self]
    exact List.nil_sublist _
  · rw [State.toMake, State.clear_procs, update_of_ne hj]
    exact List.Sublist.refl _

theorem State.toMake_orphan (s : State W) (i : ℕ) : (s.orphan i).toMake = s.toMake := by
  funext j
  simp only [State.toMake, State.orphan]
  cases s.procs j with
  | none => rfl
  | some q =>
    simp only [Option.map_some]
    split <;> rfl

theorem State.toMake_eq {s : State W} {q : Proc W} (h : s.procs i = some q) :
    s.toMake i = q.code.pipes := by
  rw [State.toMake, h]

theorem Once.set {s : State W} (h : Once s.toMake s.made) {q : Proc W}
    (hle : q.code.pipes.Sublist (s.toMake i)) : Once (s.set i q).toMake s.made := by
  rw [State.toMake_set]
  refine h.mono fun j => ?_
  by_cases hj : j = i
  · subst hj
    rwa [update_self]
  · rw [update_of_ne hj]

theorem Once.step {s s' : State W} (h : Once s.toMake s.made) (hstep : Step s s') :
    Once s'.toMake s'.made := by
  cases hstep with
  | close hi | dup hi | openFile hi | noChild hi | execFails hi =>
    exact h.set (State.toMake_eq hi ▸ List.Sublist.refl _)
  | @pipe i n e π k hi =>
    have hmake := h.make (State.toMake_eq hi)
    rwa [← State.toMake_set s i ⟨n, e.pipe π, k⟩] at hmake
  | @fork i j n e side child k hi hj h0 =>
    have hnone : s.toMake j = [] := by rw [State.toMake, hj]
    have hsplit := h.split (State.toMake_eq hi) hnone
    rwa [← State.toMake_set s i ⟨n, e, k⟩,
      ← State.toMake_set _ j ⟨i, e.forked side, child⟩] at hsplit
  | @wait i j n e e' k hi hj =>
    have hset : Once (s.set i ⟨n, e, k⟩).toMake s.made :=
      h.set (State.toMake_eq hi ▸ List.Sublist.refl _)
    exact hset.mono fun m => State.toMake_clear _ _ m
  | exit hi hk =>
    rw [State.toMake_orphan]
    exact h.set (List.nil_sublist _)
  | exec | programClose | programDup | programFork => exact h.set (List.nil_sublist _)

/-- **No pipe is made twice**, so a place of the tree is a name for one pipe. -/
theorem once_of_reachable {cmd : Cmd W} {s : State W}
    (h : Relation.ReflTransGen Step (State.start cmd) s) : Once s.toMake s.made := by
  induction h with
  | refl =>
    have hone : ∀ i ≠ 1, (State.start cmd).toMake i = [] := by
      intro i hi
      simp [State.toMake, State.start, hi]
    refine ⟨List.nodup_nil, fun i => ?_, fun i π _ => List.not_mem_nil, fun i j hij π hi hj => ?_⟩
    · by_cases hi : i = 1
      · subst hi
        exact nodup_pipes cmd []
      · rw [hone i hi]
        exact List.nodup_nil
    · by_cases h1 : i = 1
      · rw [hone j (by omega)] at hj
        exact List.not_mem_nil hj
      · rw [hone i h1] at hi
        exact List.not_mem_nil hi
  | tail _ hstep ih => exact ih.step hstep

/-! ### The descriptors of a run -/

/-- **The shell wires descriptors correctly and leaks none**, for every tree of commands and
every order of the steps. A process that reaches `exec` has just the descriptors 0, 1 and 2,
on what the tree says. When every process on a side of a pipe has exited and the process that
made it is past its two calls of `close`, nobody has an end of it. -/
theorem wires_and_leaks {cmd : Cmd W} {s : State W}
    (h : Relation.ReflTransGen Step (State.start cmd) s) :
    s.made.Nodup ∧
    (∀ i n e argv k, s.procs i = some ⟨n, e, .exec argv k⟩ →
      Standard e.fds ∧ Expects [] cmd Env.start.fds argv e.fds) ∧
    ∀ κ, (∀ i q, s.procs i = some q → κ ∈ q.env.sides → q.code = .dead) →
      (∀ i q, s.procs i = some q → q.env.own = some κ → ¬ q.code.Closes) →
      ∀ i q fd t, s.procs i = some q → q.env.fds fd = some t → t.pipe ≠ some κ := by
  have hsafe := safe_of_reachable h
  refine ⟨(once_of_reachable h).nodup_made, fun i n e argv k hi => ?_, ?_⟩
  · exact (hsafe i _ hi).2.1
  intro κ hdead hmaker i q fd t hi hfd hκ
  -- a process that has exited has no descriptors
  have hside : κ ∉ q.env.sides := by
    intro hmem
    have hq := hsafe i q hi
    rw [hdead i q hi hmem] at hq
    rw [hq fd] at hfd
    exact absurd hfd (by simp)
  rcases (hsafe i q hi).guard with htidy | ⟨hcloses, howns⟩
  · exact hside (htidy fd t hfd κ hκ)
  · exact hmaker i q hi ((howns fd t hfd κ hκ).resolve_left hside) hcloses

/-- Both sides of `0 | 1` have exited before the process that made the pipe gets to run again: it
still has both ends. -/
theorem maker_has_both_ends : ∃ s : State ℕ,
    Relation.ReflTransGen Step (State.start (.pipe (.exec [0]) (.exec [1]))) s ∧
      (∀ i q, s.procs i = some q → [] ∈ q.env.sides → q.code = .dead) ∧
      ∃ q, s.procs 1 = some q ∧ q.env.fds 3 = some (.readEnd []) ∧
        q.env.fds 4 = some (.writeEnd []) := by
  -- process 1 makes the pipe and both sides
  have h := Relation.ReflTransGen.single
    (Step.pipe (s := State.start (.pipe (.exec [0]) (.exec [1]))) (i := 1) rfl)
  have h := h.tail (Step.fork (i := 1) (j := 2) rfl rfl (by decide))
  have h := h.tail (Step.fork (i := 1) (j := 3) rfl rfl (by decide))
  -- the left side runs to its end, then the right side
  have h := h.tail (Step.close (i := 2) rfl)
  have h := h.tail (Step.dup (i := 2) rfl)
  have h := h.tail (Step.close (i := 2) rfl)
  have h := h.tail (Step.close (i := 2) rfl)
  have h := h.tail (Step.exec (i := 2) rfl)
  have h := h.tail (Step.exit (i := 2) rfl (.inr rfl))
  have h := h.tail (Step.close (i := 3) rfl)
  have h := h.tail (Step.dup (i := 3) rfl)
  have h := h.tail (Step.close (i := 3) rfl)
  have h := h.tail (Step.close (i := 3) rfl)
  have h := h.tail (Step.exec (i := 3) rfl)
  have h := h.tail (Step.exit (i := 3) rfl (.inr rfl))
  refine ⟨_, h, fun i q hi hq => ?_, _, rfl, rfl, rfl⟩
  match i, hi with
  | 1, hi =>
    cases hi
    exact absurd hq List.not_mem_nil
  | 2, hi => exact Option.some.inj hi ▸ rfl
  | 3, hi => exact Option.some.inj hi ▸ rfl
  | 0, hi | i + 4, hi =>
    have hnone : none = some q := hi
    exact absurd hnone (by simp)

/-- The left side of `0 | 1`. -/
theorem wires_and_leaks_left : ∃ (s : State ℕ) (n : ℕ) (e : Env ℕ) (k : Code ℕ),
    Relation.ReflTransGen Step (State.start (.pipe (.exec [0]) (.exec [1]))) s ∧
      s.procs 2 = some ⟨n, e, .exec [0] k⟩ ∧ Standard e.fds := by
  have h₁ := Step.pipe (s := State.start (.pipe (.exec [0]) (.exec [1]))) (i := 1) rfl
  have h₂ :=
    (Relation.ReflTransGen.single h₁).tail (Step.fork (i := 1) (j := 2) rfl rfl (by decide))
  have h₃ := h₂.tail (Step.close (i := 2) rfl)
  have h₄ := h₃.tail (Step.dup (i := 2) rfl)
  have h₅ := h₄.tail (Step.close (i := 2) rfl)
  have hrun := h₅.tail (Step.close (i := 2) rfl)
  exact ⟨_, _, _, _, hrun, rfl, ((wires_and_leaks hrun).2.1 2 _ _ [0] _ rfl).1⟩

end Xv6.Shell
