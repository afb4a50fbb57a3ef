import Xv6.Data.Directory

/-!
# Resolving a path

`namex` goes from directory to directory along the elements of a path. Its two modes,
`namei` and `nameiparent`, are one loop that stops at the end or one element before it. The
tree does not change meanwhile. The loop holds a reference to the directory it is at and, for a
moment, one to the next inode as well, so that two entries of the inode cache have to be unused.
-/

namespace Xv6.Data

open Fs (BSIZE DIRSIZ DIRENT NINODE ROOTINO)
open Mkfs (Dinode T_DIR T_FILE)
open Function

theorem skipelem_length {path name rest name' : List UInt8}
    (h : skipelem path name = some (rest, name')) : rest.length < path.length := by
  have hlen := (List.dropWhile_sublist (l := path) (· = 47)).length_le
  simp only [skipelem] at h
  split at h
  · cases h
  · next h0 =>
    have hne : path.dropWhile (· = 47) ≠ [] := fun hnil => h0 (by rw [hnil]; rfl)
    have hslash := List.head_dropWhile_not (p := (· = 47)) (l := path) hne
    cases hp : path.dropWhile (· = 47) with
    | nil => exact absurd hp hne
    | cons c p =>
      simp only [hp, List.head_cons, List.headD_cons, List.length_cons] at *
      rw [List.dropWhile_cons_of_pos (by simpa [h0] using hslash)] at h
      cases h
      have h1 := (List.dropWhile_sublist (l := p) fun c => c ≠ 47 ∧ c ≠ 0).length_le
      have h2 := (List.dropWhile_sublist (l := p.dropWhile fun c => c ≠ 47 ∧ c ≠ 0)
        (· = 47)).length_le
      omega

/-- The `while` of `namex` from inode `ip` on, with the rest of the path. -/
def namexLoop (nameiparent : Bool) (ip : ℕ) (path name : List UInt8) : Op (Option ℕ × List UInt8) :=
  match _h : skipelem path name with
  | none => do
    if nameiparent then
      iput ip
      pure (none, name)
    else pure (some ip, name)
  | some (path, name) => do
    let dp ← ilock ip
    if dp.din.type ≠ T_DIR then
      iunlockput ip
      pure (none, name)
    else if nameiparent ∧ path.headD 0 = 0 then
      iunlock ip
      pure (some ip, name)
    else
      let (_, next) ← dirlookup dp name
      iunlockput ip
      match next with
      | none => pure (none, name)
      | some (inum, _) => namexLoop nameiparent inum path name
termination_by path.length
decreasing_by exact skipelem_length ‹_›

/-- `name` is a buffer of the caller. -/
def namex (cwd : ℕ) (path : List UInt8) (nameiparent : Bool) (name : List UInt8) :
    Op (Option ℕ × List UInt8) := do
  if path.headD 0 = 47 then
    iget ROOTINO
    namexLoop nameiparent ROOTINO path name
  else
    idup cwd
    namexLoop nameiparent cwd path name

/-- The buffer on the stack holds whatever was there. -/
def namei (cwd : ℕ) (path name : List UInt8) : Op (Option ℕ) := do
  let (ip, _) ← namex cwd path false name
  pure ip

def nameiparent (cwd : ℕ) (path name : List UInt8) : Op (Option ℕ × List UInt8) :=
  namex cwd path true name

/-- What `create` and `sys_unlink` begin with: the last element is looked up in the directory of
the others. -/
def lookupLast (cwd : ℕ) (path name : List UInt8) : Op (Option ℕ) := do
  let (dp, name) ← nameiparent cwd path name
  match dp with
  | none => pure none
  | some d => do
    let dp ← ilock d
    let (_, r) ← dirlookup dp name
    pure (r.map Prod.fst)

/-! ### Names and inodes -/

/-- The elements of a path, of which `DIRSIZ` bytes count. -/
def elements (path : List UInt8) : List (List UInt8) := (components path).map (·.take DIRSIZ)

/-- The inode with this name in directory `i`. -/
def State.child (s : State) (i : ℕ) (name : List UInt8) : Option ℕ :=
  if (s.table i).type = T_DIR then (s.lookup i name).map Prod.fst else none

/-- The names are looked up one after the other. -/
def State.resolve (s : State) (i : ℕ) (names : List (List UInt8)) : Option ℕ :=
  names.foldlM s.child i

/-- The directory in which the last of the names is looked up. -/
def State.parent (s : State) (i : ℕ) (names : List (List UInt8)) : Option ℕ :=
  if names = [] then none
  else (s.resolve i names.dropLast).filter fun d => (s.table d).type = T_DIR

/-- Inode `n` is in use, and giving up a reference does not free it. -/
def Cached.Lives (c : Cached) (n : ℕ) : Prop :=
  (c.fs.table n).type ≠ 0 ∧ ((c.fs.table n).nlink ≠ 0 ∨ n ∈ c.refs)

/-- Every directory is one, and its names are those of inodes that live. -/
structure Tree (c : Cached) : Prop where
  consistent : Consistent c.fs
  directory : ∀ i, (c.fs.table i).type = T_DIR → Directory c.fs i
  named : ∀ i name n, c.fs.child i name = some n → c.Lives n
  root : c.Lives ROOTINO

section Resolve

variable {s : State} {i : ℕ} {name : List UInt8} {names : List (List UInt8)}

@[simp] theorem resolve_nil : s.resolve i [] = some i := rfl

@[simp] theorem resolve_cons :
    s.resolve i (name :: names) = (s.child i name).bind fun n => s.resolve n names := by
  rw [State.resolve, List.foldlM_cons]
  rfl

theorem parent_singleton :
    s.parent i [name] = if (s.table i).type = T_DIR then some i else none := by
  rw [State.parent, if_neg (by simp), List.dropLast_singleton, resolve_nil]
  by_cases h : (s.table i).type = T_DIR
  · rw [Option.filter_some_pos (by simpa using h), if_pos h]
  · rw [Option.filter_some_neg (by simpa using h), if_neg h]

theorem parent_cons (h : names ≠ []) :
    s.parent i (name :: names) = (s.child i name).bind fun n => s.parent n names := by
  rw [State.parent, if_neg (List.cons_ne_nil _ _), List.dropLast_cons_of_ne_nil h, resolve_cons]
  cases s.child i name with
  | none => rfl
  | some n =>
    rw [Option.bind_some, Option.bind_some, State.parent, if_neg h]

/-- The last name is looked up in the directory of the others. -/
theorem resolve_eq_parent (h : names ≠ []) :
    s.resolve i names = (s.parent i names).bind fun d => s.child d (names.getLast h) := by
  have hsplit := List.dropLast_append_getLast h
  have hresolve : s.resolve i names =
      (s.resolve i names.dropLast).bind fun d => s.child d (names.getLast h) := by
    conv_lhs => rw [← hsplit]
    rw [State.resolve, List.foldlM_append]
    simp only [List.foldlM_cons, List.foldlM_nil, bind_pure]
    rfl
  rw [hresolve, State.parent, if_neg h]
  cases s.resolve i names.dropLast with
  | none => rfl
  | some d =>
    by_cases hd : (s.table d).type = T_DIR
    · rw [Option.filter_some_pos (by simpa using hd)]
    · rw [Option.filter_some_neg (by simpa using hd), Option.bind_some, State.child, if_neg hd]
      rfl

end Resolve

/-! ### The loop -/

/-- During the walk: a reference to `refs` more, and other inodes are in memory. -/
def Cached.holding (c : Cached) (refs : List ℕ) (valid : ℕ → Bool) : Cached :=
  { c with refs := refs ++ c.refs, valid := valid }

section Loop

variable {c : Cached} {i n : ℕ} {v : ℕ → Bool} {path name : List UInt8}
  {H : Stop ℕ Panic → Cached → Prop} {Q : Option ℕ × List UInt8 → List ℕ → Cached → Prop}

theorem get_eq_holding (c : Cached) (n : ℕ) : c.get n = c.holding [n] (c.get n).valid := rfl

theorem Cached.Lives.stays (hi : c.Lives i) (r : List ℕ) : (c.holding (r ++ [i]) v).Stays i := by
  intro _
  rcases hi.2 with hlink | hmem
  · refine .inl ?_
    rwa [Cached.holding, dinode_eq hi.1]
  · have hcount := List.count_pos_iff.mpr hmem
    refine .inr ?_
    simp only [Cached.holding, List.count_append, List.count_singleton_self]
    omega

theorem hasRoom_holding (hfree : c.refs.toFinset.card + 2 ≤ NINODE) (i n : ℕ) :
    (c.holding [i] v).HasRoom n := by
  refine .inr ?_
  have hcard := Finset.card_insert_le i c.refs.toFinset
  rw [Cached.holding, List.singleton_append, List.toFinset_cons]
  omega

theorem wp_ilock_holding {Q : Inode → List ℕ → Cached → Prop} (hi : c.Lives i)
    (hQ : ∀ v', Q ⟨i, c.fs.table i⟩ [i] (c.holding [i] v')) :
    Prog.wp (ilock i) Q H [] (c.holding [i] v) := by
  refine wp_ilock List.mem_cons_self List.not_mem_nil ?_ ?_
  · rw [Cached.holding, dinode_eq hi.1]
    exact hi.1
  · rw [Cached.holding, dinode_eq hi.1]
    exact hQ _

/-- The directory is left, with a reference to `r` in hand. -/
theorem wp_iunlockput_holding {Q : Unit → List ℕ → Cached → Prop} (hi : c.Lives i)
    (r : Option ℕ) (hQ : Q () [] (c.holding r.toList v)) :
    Prog.wp (iunlockput i) Q H [i] (c.holding (r.toList ++ [i]) v) := by
  have hmem : i ∈ (c.holding (r.toList ++ [i]) v).refs := by
    rw [Cached.holding]
    simp
  have herase : (r.toList ++ [i] ++ c.refs).erase i = r.toList ++ c.refs := by
    cases r with
    | none => exact List.erase_cons_head i c.refs
    | some n =>
      by_cases hn : n = i
      · rw [hn]
        exact List.erase_cons_head i (i :: c.refs)
      · change (n :: i :: c.refs).erase i = n :: c.refs
        rw [List.erase_cons_tail (by simpa using hn), List.erase_cons_head]
  rw [iunlockput, Prog.wp_bind]
  refine wp_iunlock hmem List.mem_cons_self ?_
  rw [List.erase_cons_head]
  refine wp_iput List.not_mem_nil (hi.stays r.toList) ?_
  rw [Cached.holding, herase]
  exact hQ

variable (ht : Tree c) (hfree : c.refs.toFinset.card + 2 ≤ NINODE)
include ht hfree

/-- One round: the next name is looked up in a directory. -/
theorem wp_round {Q : Inode × Option (ℕ × ℕ) → List ℕ → Cached → Prop}
    (hdir : (c.fs.table i).type = T_DIR)
    (hQ : ∀ r v', r.map Prod.fst = c.fs.child i (key name) →
      Q (⟨i, c.fs.table i⟩, r) [i] (c.holding ((r.map Prod.fst).toList ++ [i]) v')) :
    Prog.wp (dirlookup ⟨i, c.fs.table i⟩ name) Q H [i] (c.holding [i] v) := by
  have hchild : c.fs.child i (key name) = (c.fs.lookup i (key name)).map Prod.fst := by
    rw [State.child, if_pos hdir]
  have hd := ht.directory i hdir
  cases hname : c.fs.lookup i (key name) with
  | none =>
    exact wp_dirlookup_of_none (c := c.holding [i] v) ht.consistent hd hname
      (hQ none v (by rw [hchild, hname]))
  | some e =>
    refine wp_dirlookup_of_some (c := c.holding [i] v) ht.consistent hd hname ?_
    exact wp_iget (hasRoom_holding hfree i e.1) (hQ (some e) _ (by rw [hchild, hname]))

variable (hi : c.Lives i) (hpath : 0 ∉ path)
include hi hpath

/-- `namei` looks up all the elements. -/
theorem wp_namexLoop (hQ : ∀ b v', Q (c.fs.resolve i (elements path), b) []
      (c.holding (c.fs.resolve i (elements path)).toList v')) :
    Prog.wp (namexLoop false i path name) Q H [] (c.holding [i] v) := by
  induction hn : path.length using Nat.strong_induction_on generalizing i v path name with
  | _ n ih =>
    subst hn
    rw [namexLoop]
    rcases skipelem_cases hpath name with
      ⟨hcomp, hskip⟩ | ⟨e, rest, name', hcomp, hskip, hkey, -, hlt, h0⟩
    · split
      · rw [elements, hcomp] at hQ
        exact hQ name v
      · next heq => simp [hskip] at heq
    split
    · next heq => simp [hskip] at heq
    next p b heq =>
    rw [hskip] at heq
    cases heq
    rw [elements, hcomp, List.map_cons] at hQ
    simp only [resolve_cons, ← hkey] at hQ
    rw [Prog.wp_bind]
    refine wp_ilock_holding hi fun v => ?_
    by_cases hdir : (c.fs.table i).type = T_DIR
    · simp only [hdir, ne_eq, not_true_eq_false, if_false, Bool.false_eq_true, false_and,
        Prog.wp_bind]
      refine wp_round ht hfree hdir fun r v hr => wp_iunlockput_holding hi _ ?_
      rw [← hr] at hQ
      cases r with
      | none => exact hQ _ v
      | some r => exact ih rest.length hlt (ht.named i (key name') r.1 hr.symm) h0 hQ rfl
    · simp only [ne_eq, hdir, not_false_eq_true, if_true, Prog.wp_bind]
      rw [State.child, if_neg hdir] at hQ
      exact wp_iunlockput_holding hi none (hQ _ v)

/-- `nameiparent` looks up all the elements but the last, which is left in the buffer. -/
theorem wp_namexLoop_parent (hQ : ∀ b v', (∀ d, c.fs.parent i (elements path) = some d →
        c.Lives d ∧ (elements path).getLast? = some (key b)) →
      Q (c.fs.parent i (elements path), b) []
        (c.holding (c.fs.parent i (elements path)).toList v')) :
    Prog.wp (namexLoop true i path name) Q H [] (c.holding [i] v) := by
  induction hn : path.length using Nat.strong_induction_on generalizing i v path name with
  | _ n ih =>
    subst hn
    rw [namexLoop]
    rcases skipelem_cases hpath name with
      ⟨hcomp, hskip⟩ | ⟨e, rest, name', hcomp, hskip, hkey, hrest, hlt, h0⟩
    · split
      · rw [elements, hcomp] at hQ
        simp only [if_true, Prog.wp_bind]
        refine wp_iput List.not_mem_nil (hi.stays []) ?_
        have hres := hQ name v fun d hd => by cases hd
        rwa [Cached.holding, List.singleton_append, List.erase_cons_head]
      · next heq => simp [hskip] at heq
    split
    · next heq => simp [hskip] at heq
    next p b heq =>
    rw [hskip] at heq
    cases heq
    have helem : elements path = key name' :: elements rest := by
      rw [elements, hcomp, List.map_cons, hkey]
      rfl
    rw [helem] at hQ
    rw [Prog.wp_bind]
    refine wp_ilock_holding hi fun v => ?_
    have hlast : rest.headD 0 = 0 ↔ elements rest = [] := by
      rw [elements, List.map_eq_nil_iff, ← hrest]
      refine ⟨fun h => ?_, fun h => by rw [h]; rfl⟩
      cases rest with
      | nil => rfl
      | cons c r => exact absurd (h ▸ List.mem_cons_self) h0
    by_cases hdir : (c.fs.table i).type = T_DIR
    · simp only [hdir, ne_eq, not_true_eq_false, if_false, true_and]
      by_cases hend : elements rest = []
      · -- the last element: the loop stops one level early
        rw [if_pos (hlast.mpr hend), Prog.wp_bind]
        rw [hend, parent_singleton, if_pos hdir] at hQ
        refine wp_iunlock List.mem_cons_self List.mem_cons_self ?_
        rw [List.erase_cons_head]
        refine hQ name' v fun d hd => ?_
        cases hd
        exact ⟨hi, rfl⟩
      · rw [if_neg (mt hlast.mp hend)]
        simp only [Prog.wp_bind]
        refine wp_round ht hfree hdir fun r v hr => wp_iunlockput_holding hi _ ?_
        rw [parent_cons hend, ← hr] at hQ
        cases r with
        | none => exact hQ name' v fun d hd => by cases hd
        | some r =>
          refine ih rest.length hlt (ht.named i (key name') r.1 hr.symm) h0 (fun b v hb => ?_) rfl
          refine hQ b v fun d hd => ?_
          rw [List.getLast?_cons_of_ne_nil hend]
          exact hb d hd
    · simp only [ne_eq, hdir, not_false_eq_true, if_true, Prog.wp_bind]
      have hnone : c.fs.parent i (key name' :: elements rest) = none := by
        by_cases hend : elements rest = []
        · rw [hend, parent_singleton, if_neg hdir]
        · rw [parent_cons hend, State.child, if_neg hdir]
          rfl
      rw [hnone] at hQ
      exact wp_iunlockput_holding hi none (hQ name' v fun d hd => by cases hd)

end Loop

/-! ### Paths -/

/-- The call returns `a` with a reference to the inode `r`, and leaves everything else as it is. -/
def Gives {α : Type} (m : Op α) (c : Cached) (a : α) (r : Option ℕ) : Prop :=
  ∃ v, m.exec [] c = .ok (a, [], c.holding r.toList v)

section Paths

variable {c : Cached} {cwd : ℕ} {path name : List UInt8}
  {Q : Option ℕ × List UInt8 → List ℕ → Cached → Prop} {H : Stop ℕ Panic → Cached → Prop}

/-- Where the walk starts. -/
def start (cwd : ℕ) (path : List UInt8) : ℕ := if path.headD 0 = 47 then ROOTINO else cwd

theorem Tree.start_lives (ht : Tree c) (hcwd : cwd ∈ c.refs) (htype : (c.fs.table cwd).type ≠ 0)
    (path : List UInt8) : c.Lives (start cwd path) := by
  rw [start]
  split
  · exact ht.root
  · exact ⟨htype, .inr hcwd⟩

theorem wp_namex {b : Bool} (hfree : c.refs.toFinset.card + 2 ≤ NINODE)
    (hQ : ∀ v, Prog.wp (namexLoop b (start cwd path) path name) Q H []
      (c.holding [start cwd path] v)) :
    Prog.wp (namex cwd path b name) Q H [] c := by
  rw [namex, Prog.wp_ite, start] at *
  split
  · next hroot =>
    rw [if_pos hroot] at hQ
    rw [Prog.wp_bind]
    exact wp_iget (.inr (by omega)) (hQ _)
  · next hroot =>
    rw [if_neg hroot] at hQ
    rw [Prog.wp_bind, idup, wp_prog_atomic]
    exact hQ c.valid

theorem parent_dir {s : State} {i d : ℕ} {names : List (List UInt8)}
    (h : s.parent i names = some d) : names ≠ [] ∧ (s.table d).type = T_DIR := by
  rw [State.parent] at h
  split at h
  · cases h
  · next hne => exact ⟨hne, of_decide_eq_true (Option.filter_eq_some_iff.mp h).2⟩

/-- From a directory in the cache, a name whose inode finds no entry there. -/
theorem namei_full {rest name' : List UInt8} {n off : ℕ} (ht : Tree c) (hroot : ROOTINO ∈ c.refs)
    (hslash : path.headD 0 = 47) (hskip : skipelem path name = some (rest, name'))
    (hdir : (c.fs.table ROOTINO).type = T_DIR)
    (hname : c.fs.lookup ROOTINO (key name') = some (n, off)) (hfull : ¬ c.HasRoom n) :
    (namei cwd path name).stops [] c = some (.failed .iget) := by
  refine Prog.stops_of_wp ?_
  rw [namei, namex, if_pos hslash]
  simp only [Prog.wp_bind]
  refine wp_iget (.inl hroot) ?_
  rw [get_eq_holding, namexLoop]
  generalize (c.get ROOTINO).valid = v
  split
  · next heq => simp [hskip] at heq
  next p b heq =>
  rw [hskip] at heq
  cases heq
  simp only [Prog.wp_bind]
  refine wp_ilock_holding ht.root fun v => ?_
  simp only [hdir, ne_eq, not_true_eq_false, if_false, Bool.false_eq_true, false_and, Prog.wp_bind]
  refine wp_dirlookup_of_some (c := c.holding [ROOTINO] v) ht.consistent (ht.directory _ hdir) hname
    (wp_iget_full ?_ rfl)
  have hne : n ≠ ROOTINO := fun heq => hfull (.inl (heq ▸ hroot))
  simpa [Cached.HasRoom, Cached.holding, hroot, hne] using hfull

/-- Slashes that are doubled. -/
theorem elements_double (p q : List UInt8) :
    elements (p ++ 47 :: 47 :: q) = elements (p ++ 47 :: q) := by
  rw [elements, elements, components_append, components_append, components_cons_slash]

theorem elements_concat_slash (p : List UInt8) : elements (p ++ [47]) = elements p := by
  rw [elements, elements, components_append, components_nil, List.append_nil]

theorem start_append (p : List UInt8) {q q' : List UInt8} (h : q.headD 0 = q'.headD 0) :
    start cwd (p ++ q) = start cwd (p ++ q') := by
  cases p with
  | nil => rw [List.nil_append, List.nil_append, start, start, h]
  | cons c p => rfl

section Resolution

variable (ht : Tree c) (hcwd : cwd ∈ c.refs) (htype : (c.fs.table cwd).type ≠ 0)
  (hfree : c.refs.toFinset.card + 2 ≤ NINODE) (hpath : 0 ∉ path)
include ht hcwd htype hfree hpath

theorem namei_gives (name : List UInt8) :
    Gives (namei cwd path name) c (c.fs.resolve (start cwd path) (elements path))
      (c.fs.resolve (start cwd path) (elements path)) := by
  have hwp : Prog.wp (namei cwd path name)
      (fun r h' c' => r = c.fs.resolve (start cwd path) (elements path) ∧ h' = [] ∧
        ∃ v, c' = c.holding (c.fs.resolve (start cwd path) (elements path)).toList v)
      (fun _ _ => False) [] c := by
    rw [namei, Prog.wp_bind]
    exact wp_namex hfree fun v => wp_namexLoop ht hfree (ht.start_lives hcwd htype path) hpath
      fun b v' => ⟨rfl, rfl, v', rfl⟩
  obtain ⟨r, h', c', hexec, rfl, rfl, v, rfl⟩ := Prog.exists_of_wp hwp
  exact ⟨v, hexec⟩

theorem wp_nameiparent (hQ : ∀ b v, (∀ d, c.fs.parent (start cwd path) (elements path) = some d →
        c.Lives d ∧ (elements path).getLast? = some (key b)) →
      Q (c.fs.parent (start cwd path) (elements path), b) []
        (c.holding (c.fs.parent (start cwd path) (elements path)).toList v)) :
    Prog.wp (nameiparent cwd path name) Q H [] c :=
  wp_namex hfree fun _ =>
    wp_namexLoop_parent ht hfree (ht.start_lives hcwd htype path) hpath hQ

theorem nameiparent_gives (name : List UInt8) :
    ∃ b, Gives (nameiparent cwd path name) c
        (c.fs.parent (start cwd path) (elements path), b)
        (c.fs.parent (start cwd path) (elements path)) ∧
      ∀ d, c.fs.parent (start cwd path) (elements path) = some d →
        (elements path).getLast? = some (key b) := by
  have hwp : Prog.wp (nameiparent cwd path name)
      (fun r h' c' => (r.1 = c.fs.parent (start cwd path) (elements path) ∧
        ∀ d, c.fs.parent (start cwd path) (elements path) = some d →
          (elements path).getLast? = some (key r.2)) ∧ h' = [] ∧
        ∃ v, c' = c.holding (c.fs.parent (start cwd path) (elements path)).toList v)
      (fun _ _ => False) [] c :=
    wp_nameiparent ht hcwd htype hfree hpath fun b v hb =>
      ⟨⟨rfl, fun d hd => (hb d hd).2⟩, rfl, v, rfl⟩
  obtain ⟨⟨r, b⟩, h', c', hexec, ⟨rfl, hb⟩, rfl, v, rfl⟩ := Prog.exists_of_wp hwp
  exact ⟨b, ⟨v, hexec⟩, hb⟩

/-- The last element is found in the directory of the others. -/
theorem lookupLast_returns (name : List UInt8) (hne : elements path ≠ []) :
    (lookupLast cwd path name).returns [] c =
      some (c.fs.resolve (start cwd path) (elements path)) := by
  have hwp : Prog.wp (lookupLast cwd path name)
      (fun r _ _ => r = c.fs.resolve (start cwd path) (elements path)) (fun _ _ => False) [] c := by
    rw [lookupLast, Prog.wp_bind]
    refine wp_nameiparent ht hcwd htype hfree hpath fun b v hb => ?_
    rw [resolve_eq_parent hne]
    cases hd : c.fs.parent (start cwd path) (elements path) with
    | none => rfl
    | some d =>
      obtain ⟨hlive, hlast⟩ := hb d hd
      have hkey : (elements path).getLast hne = key b := by
        rw [List.getLast?_eq_some_getLast hne] at hlast
        exact Option.some.inj hlast
      rw [hkey, Option.bind_some]
      simp only [Prog.wp_bind]
      refine wp_ilock_holding hlive fun v => ?_
      exact wp_round ht hfree (parent_dir hd).2 fun r v hr => hr
  obtain ⟨r, h', c', hexec, rfl⟩ := Prog.exists_of_wp hwp
  rw [Prog.returns, hexec]
  rfl

/-- For every path, `namei` looks up the elements one after the other, and `nameiparent` all but
the last, which it returns; so the first is a lookup in the second, and slashes do not count
except for the first. -/
theorem path_resolution (name : List UInt8) :
    Gives (namei cwd path name) c (c.fs.resolve (start cwd path) (elements path))
      (c.fs.resolve (start cwd path) (elements path)) ∧
    (∃ b, Gives (nameiparent cwd path name) c
        (c.fs.parent (start cwd path) (elements path), b)
        (c.fs.parent (start cwd path) (elements path)) ∧
      ∀ d, c.fs.parent (start cwd path) (elements path) = some d →
        (elements path).getLast? = some (key b)) ∧
    (elements path ≠ [] →
      (lookupLast cwd path name).returns [] c = (namei cwd path name).returns [] c) ∧
    ∀ path', (∃ p q, path = p ++ 47 :: q ∧ path' = p ++ 47 :: 47 :: q) ∨
        path ≠ [] ∧ path' = path ++ [47] →
      (∃ r, Gives (namei cwd path' name) c r r ∧ Gives (namei cwd path name) c r r) ∧
      ∃ d b b', Gives (nameiparent cwd path' name) c (d, b) d ∧
        Gives (nameiparent cwd path name) c (d, b') d ∧ (d ≠ none → key b = key b') := by
  have hnamei := namei_gives ht hcwd htype hfree hpath name
  refine ⟨hnamei, nameiparent_gives ht hcwd htype hfree hpath name,
    fun hne => ?_, fun path' h => ?_⟩
  · obtain ⟨v, hexec⟩ := hnamei
    rw [lookupLast_returns ht hcwd htype hfree hpath name hne, Prog.returns, hexec]
    rfl
  -- the result depends on the elements and the start only
  obtain ⟨hpath', helem, hstart⟩ : 0 ∉ path' ∧ elements path' = elements path ∧
      start cwd path' = start cwd path := by
    rcases h with ⟨p, q, rfl, rfl⟩ | ⟨hne, rfl⟩
    · refine ⟨?_, elements_double p q, start_append p rfl⟩
      simp only [List.mem_append, List.mem_cons, not_or] at hpath ⊢
      exact ⟨hpath.1, hpath.2.1, hpath.2⟩
    · refine ⟨by simpa using hpath, elements_concat_slash path, ?_⟩
      obtain ⟨c, p, rfl⟩ := List.exists_cons_of_ne_nil hne
      rfl
  have hnamei' := namei_gives ht hcwd htype hfree hpath' name
  obtain ⟨b, hb, hlast⟩ := nameiparent_gives ht hcwd htype hfree hpath' name
  obtain ⟨b', hb', hlast'⟩ := nameiparent_gives ht hcwd htype hfree hpath name
  rw [helem, hstart] at hnamei' hb hlast
  refine ⟨⟨_, hnamei', hnamei⟩, _, b, b', hb, hb', fun hne => ?_⟩
  obtain ⟨d, hd⟩ := Option.ne_none_iff_exists'.mp hne
  exact Option.some.inj ((hlast d hd).symm.trans (hlast' d hd))

end Resolution

end Paths

theorem lives_small {c : Cached} {n i : ℕ} (hfs : c.fs = small n) (h1 : 1 ≤ i) (h56 : i < 56) :
    c.Lives i := by
  rw [Cached.Lives, hfs, table_small]
  split
  · exact ⟨by decide, .inl (by decide)⟩
  · rw [if_pos (by omega)]
    exact ⟨by decide, .inl (by decide)⟩

theorem child_small (n : ℕ) : (small n).child 1 [65] = some 1 ∧
    (small n).child 1 [66] = some 2 := by
  simp only [State.child, if_pos (directory_small n).type, lookup_small, Option.map_some, and_self]

/-- On the small disk a name leads back to the root or to a file. -/
theorem tree_small {c : Cached} (hfs : c.fs = small 0) : Tree c where
  consistent := hfs ▸ consistent_small (by decide)
  directory i hi := by
    rw [hfs] at hi ⊢
    by_cases h1 : i = 1
    · exact h1 ▸ directory_small 0
    · rw [table_small, if_neg h1] at hi
      split at hi <;> cases hi
  named i name n hn := by
    rw [hfs, State.child] at hn
    split at hn
    · next hi =>
      have h1 : i = 1 := by
        by_contra h1
        rw [table_small, if_neg h1] at hi
        split at hi <;> cases hi
      subst h1
      obtain ⟨⟨n', off⟩, hlookup, rfl⟩ := Option.map_eq_some_iff.mp hn
      obtain ⟨⟨v, k⟩, hk, heq⟩ := Option.map_eq_some_iff.mp hlookup
      cases heq
      have hentry := Slots.entry_of_lookup hk
      have hlt := Slots.lt_of_entry hentry
      rw [slots_small] at hentry hlt
      rw [List.length_map, List.length_range] at hlt
      simp only [Slots.entry, List.getElem?_map, List.getElem?_range hlt, Option.map_some,
        Option.join_some, Option.some.injEq, Prod.mk.injEq] at hentry
      exact lives_small hfs (by omega) (by omega)
    · cases hn
  root := lives_small hfs (by decide) (by decide)

/-- The path `/A//B/`, which names a file. -/
theorem path_resolution_small : Tree (someInodes 0) ∧ 1 ∈ (someInodes 0).refs ∧
    ((small 0).table 1).type ≠ 0 ∧ (someInodes 0).refs.toFinset.card + 2 ≤ NINODE ∧
    Gives (namei 1 [47, 65, 47, 47, 66, 47] (List.replicate 14 0)) (someInodes 0) (some 2)
      (some 2) := by
  have ht := tree_small (c := someInodes 0) rfl
  have htype := (directory_small 0).type_ne.1
  have hpath : (0 : UInt8) ∉ [47, 65, 47, 47, 66, 47] := by decide
  have hgives := (path_resolution ht List.mem_cons_self htype (by decide) hpath
    (List.replicate 14 0)).1
  refine ⟨ht, List.mem_cons_self, htype, by decide, ?_⟩
  have hstart : start 1 [47, 65, 47, 47, 66, 47] = 1 := by decide
  have helem : elements [47, 65, 47, 47, 66, 47] = [[65], [66]] := by decide
  have hfs : (someInodes 0).fs = small 0 := rfl
  have hchild := child_small 0
  rw [hstart, helem, hfs, resolve_cons, hchild.1, Option.bind_some, resolve_cons, hchild.2,
    Option.bind_some, resolve_nil] at hgives
  exact hgives

/-- With 50 inodes in use, of which `B` is none, `namei` of `/B` panics. -/
theorem namei_full_cache : Tree (allInodes 0) ∧ 1 ∈ (allInodes 0).refs ∧
    ((small 0).table 1).type ≠ 0 ∧ (small 0).resolve 1 (elements [47, 66]) = some 2 ∧
    (namei 1 [47, 66] (List.replicate 14 0)).stops [] (allInodes 0) = some (.failed .iget) := by
  have ht := tree_small (c := allInodes 0) rfl
  have hskip : skipelem [47, 66] (List.replicate 14 0) = some ([], oneByte 66) := by decide
  have helem : elements [47, 66] = [[66]] := by decide
  have hname : (allInodes 0).fs.lookup ROOTINO (key (oneByte 66)) = some (2, DIRENT) := by
    rw [show key (oneByte 66) = [66] by decide]
    exact (lookup_small 0).2.1
  have hfull : ¬ (allInodes 0).HasRoom 2 := not_or.mpr (by decide +kernel)
  refine ⟨ht, List.mem_cons_self, (directory_small 0).type_ne.1, ?_,
    namei_full ht List.mem_cons_self rfl hskip (directory_small 0).type hname hfull⟩
  rw [helem, resolve_cons, (child_small 0).2, Option.bind_some, resolve_nil]

end Xv6.Data
