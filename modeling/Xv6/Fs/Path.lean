import Xv6.Fs.Refs

/-!
# Path lookup

What `namei` and `nameiparent` find when a call runs on its own: the directory
entries one after the other, with no change to the file system. Two conditions on
the image are followed from call to call: where `t` holds, that the directories are
consistent, and where `a` holds as well, that a directory without links hangs on one
with links, so that its ".." leads somewhere.
-/

namespace Xv6.Fs

open Finset Function

variable {P : Type}

/-- Follow the elements of a path from a directory; with `nameiparent`, up to the last one. -/
def route (dn : ℕ → Dinode) (nameiparent : Bool) : ℕ → Name → List Name → Option (ℕ × Name)
  | ip, name, [] => if nameiparent then none else some (ip, name)
  | ip, _, name :: rest =>
    if (dn ip).type ≠ .dir then none
    else if nameiparent && rest.isEmpty then some (ip, name)
    else
      match (dn ip).lookup name with
      | none => none
      | some (_, next) => route dn nameiparent next name rest

/-- Where a path starts. -/
def State.start (s : State P) (p : P) (path : List Char) : ℕ :=
  if path.head? = some '/' then ROOTINO else (s.cwd p).getD 0

/-- The inode of a path. -/
def State.find (s : State P) (p : P) (path : List Char) : Option ℕ :=
  (route s.dinode false (s.start p path) (.cut []) (elements path)).map (·.1)

/-- The directory that a path ends in, and the last element. -/
def State.parent (s : State P) (p : P) (path : List Char) : Option (ℕ × Name) :=
  route s.dinode true (s.start p path) (.cut []) (elements path)

/-- A directory without links calls one with links "..". -/
def Anchored (dn : ℕ → Dinode) : Prop :=
  ∀ d, (dn d).type = .dir → ¬ (dn d).Live → (dn (dn d).up).Live

/-- Where `t` holds the image is consistent up to the entries owed, and where `a` holds as well it
is anchored. -/
structure Names (t a : Prop) (pend : ℕ → ℕ) (s : State P) : Prop where
  tree : t → Tree s.dinode s.sb.ninodes pend
  anchored : t → a → Anchored s.dinode

section Names

variable {t a : Prop} {pend : ℕ → ℕ} {s s' : State P}

theorem Names.of_dinode (hs : Names t a pend s) (hd : s'.dinode = s.dinode) (hsb : s'.sb = s.sb) :
    Names t a pend s' := by
  constructor
  · rw [hd, hsb]
    exact hs.tree
  · rw [hd]
    exact hs.anchored

theorem Names.quiet (hs : Names t a pend s) (hq : Quiet s s') : Names t a pend s' :=
  hs.of_dinode hq.dinode hq.sb

/-- No directory loses its last link. -/
theorem Anchored.mono {dn dn' : ℕ → Dinode} (h : Anchored dn)
    (hdead : ∀ x, (dn' x).type = .dir → ¬ (dn' x).Live →
      (dn x).type = .dir ∧ ¬ (dn x).Live ∧ (dn' x).up = (dn x).up)
    (hlive : ∀ x, (dn x).Live → (dn' x).Live) : Anchored dn' := fun x hx hxl => by
  obtain ⟨hty, hl, hup⟩ := hdead x hx hxl
  rw [hup]
  exact hlive _ (h x hty hl)

/-- Only fields that do not matter here change. -/
theorem Names.congr (hs : Names t a pend s) (h : ∀ x, (s.dinode x).Alike (s'.dinode x))
    (hsb : s'.sb = s.sb) : Names t a pend s' := by
  constructor
  · intro ht
    rw [hsb]
    exact (hs.tree ht).congr h
  · intro ht ha
    refine (hs.anchored ht ha).mono (fun x hx hl => ?_) fun x hl => (h x).live.mpr hl
    rw [(h x).1] at hx
    rw [(h x).live] at hl
    exact ⟨hx, hl, (h x).up⟩

/-- Freeing an inode without links keeps the image consistent. -/
theorem Names.drops (hs : Names t a pend s) {i : ℕ} (hd : Drops i s s') : Names t a pend s' := by
  rcases hd with hq | ⟨hfree, hl, -, -, r, v, d, as, bm, lg, hdf, rfl⟩
  · exact hs.quiet hq
  · have hnl : ¬ (s.dinode i).Live := fun h => by
      have := h.2
      rw [State.nlink] at hl
      omega
    constructor
    · exact fun ht => (hs.tree ht).free hfree hl hdf
    · intro ht ha
      refine (hs.anchored ht ha).mono (fun x hx hxl => ?_) fun x hx => ?_
      · change (update s.dinode i d x).type = .dir at hx
        change ¬ (update s.dinode i d x).Live at hxl
        have hxi : x ≠ i := by
          rintro rfl
          rw [update_self, hdf] at hx
          exact absurd hx (by decide)
        rw [update_of_ne hxi] at hx hxl
        exact ⟨hx, hxl, congrArg Dinode.up (update_of_ne hxi _ _)⟩
      · have hxi : x ≠ i := by
          rintro rfl
          exact hnl hx
        change (update s.dinode i d x).Live
        rwa [update_of_ne hxi]

/-- In an anchored image every entry of a directory names an inode in use. -/
theorem Names.entry_ne_free (hs : Names t a pend s) (ht : t) (ha : a) {d : ℕ} (hd : s.type d = .dir)
    {e : Dirent} (he : e ∈ (s.dinode d).entries) (h0 : e.inum ≠ 0) : s.type e.inum ≠ .free := by
  have htree := hs.tree ht
  obtain ⟨rest, hes, hplain⟩ := htree.shape d hd
  have hup : (s.dinode (s.dinode d).up).Live := by
    by_cases hl : (s.dinode d).Live
    · exact htree.up d hl
    · exact hs.anchored ht ha d hd hl
  have he' := he
  rw [hes] at he
  simp only [List.mem_cons] at he
  obtain rfl | rfl | he := he
  · rw [hd]
    decide
  · exact Tree.not_free_of_live hup
  · obtain ⟨h1, h2⟩ := hplain e he h0
    by_cases hl : (s.dinode d).Live
    · exact (htree.child d hl e he' h0 h1 h2).1
    · rcases htree.dead d hd hl e he' h0 with h | h
      · exact absurd h h1
      · exact absurd h h2

theorem Names.lookup_ne_free (hs : Names t a pend s) (ht : t) (ha : a) {d k c : ℕ} {name : Name}
    (hd : s.type d = .dir) (hk : (s.dinode d).lookup name = some (k, c)) : s.type c ≠ .free := by
  obtain ⟨hget, hc⟩ := Dinode.lookup_some hk
  exact hs.entry_ne_free ht ha hd (List.mem_of_getElem? hget) hc

end Names

variable {t a : Prop} {hold : ℕ → ℕ} {own : List ℕ} {pend : ℕ → ℕ} {s : State P}

/-- The loop of `namex` follows the route. -/
theorem wp_walk {nameiparent : Bool} {ip : ℕ} {name : Name} {es : List Name}
    {Q : Option (ℕ × Name) → List ℕ → State P → Prop} (hs : Names t a pend s)
    (hc : Cache hold own [ip] s) (hip : t → a → s.type ip ≠ .free)
    (hnone : ∀ s', route s.dinode nameiparent ip name es = none →
    Quiet s s' → Cache hold own [] s' →
      Q none [] s')
    (hsome : ∀ i last s', route s.dinode nameiparent ip name es = some (i, last) → Quiet s s' →
      Cache hold own [i] s' → (t → a → s.type i ≠ .free) → Q (some (i, last)) [] s') :
    Prog.wp (walk nameiparent ip name es) Q (fun e _ => Tolerable t a e) [] s := by
  induction es generalizing ip name s with
  | nil =>
    unfold walk
    cases nameiparent with
    | true =>
      simp only [if_true, Prog.wp_bind]
      exact wp_iput_walk hc fun s' hq hc' => hnone s' rfl hq hc'
    | false => exact hsome ip name s rfl (Quiet.refl s) hc hip
  | cons next rest ih =>
    unfold walk
    rw [Prog.wp_bind]
    refine wp_ilock hc hip fun s₁ hq₁ _ hc₁ _ hfree _ => ?_
    have htype : (s₁.dinode ip).type = s.type ip := by rw [hq₁.dinode, State.type]
    have hmem : ip ∈ [ip] := List.mem_singleton_self ip
    have herase : [ip].erase ip = [] := List.erase_cons_head ip []
    simp only [inode, Prog.wp_bind, Prog.wp_read, Prog.wp_ite]
    split_ifs with hdir hlast
    · -- not a directory
      refine wp_iunlockput_walk hmem hc₁ fun s₂ hq₂ hc₂ => ?_
      rw [herase]
      exact hnone s₂ (by rw [route, if_pos (by rwa [htype] at hdir)]) (hq₁.trans hq₂) hc₂
    · refine wp_iunlock hmem (hc₁.ref_pos_of_mem (Or.inr hmem)) ?_
      rw [herase]
      refine hsome ip next s₁ ?_ hq₁ hc₁ hip
      rw [route, if_neg (by rwa [htype] at hdir), if_pos hlast]
    · refine wp_dirlookup hc₁ (fun hk _ => ?_) fun k c s₂ hk hd hq₂ _ hc₂ => ?_
      · simp only [Prog.wp_bind]
        refine wp_iunlockput_walk hmem hc₁ fun s₂ hq₂ hc₂ => ?_
        rw [herase]
        rw [hq₁.dinode] at hk
        refine hnone s₂ ?_ (hq₁.trans hq₂) hc₂
        rw [route, if_neg (by rwa [htype] at hdir), if_neg hlast, hk]
      · have hroute : route s.dinode nameiparent ip name (next :: rest) =
            route s.dinode nameiparent c next rest := by
          rw [hq₁.dinode] at hk
          rw [route, if_neg (by rwa [htype] at hdir), if_neg hlast, hk]
        have hs₁ := hs.quiet hq₁
        simp only [Prog.wp_bind]
        refine wp_iunlockput_walk hmem (hc₂.perm (.refl _) (.swap _ _ _)) fun s₃ hq₃ hc₃ => ?_
        rw [herase]
        have hq := (hq₁.trans hq₂).trans hq₃
        have hdn : s₃.dinode = s.dinode := hq.dinode
        refine ih (hs.quiet hq) hc₃ (fun ht ha => ?_) (fun s' hr hq' hc' => ?_)
          fun i last s' hr hq' hc' hi => ?_
        · rw [hq.type, ← hq₁.type]
          exact hs₁.lookup_ne_free ht ha hd hk
        · rw [hdn] at hr
          exact hnone s' (hroute.trans hr) (hq.trans hq') hc'
        · rw [hdn] at hr
          rw [hq.type] at hi
          exact hsome i last s' (hroute.trans hr) (hq.trans hq') hc' hi

/-- With `nameiparent` the route ends in a directory. -/
theorem route_parent {dn : ℕ → Dinode} {ip i : ℕ} {name last : Name} {es : List Name}
    (h : route dn true ip name es = some (i, last)) : (dn i).type = .dir := by
  induction es generalizing ip name with
  | nil => simp [route] at h
  | cons next rest ih =>
    unfold route at h
    split_ifs at h with hdir hlast
    · obtain ⟨rfl, -⟩ := Prod.mk.inj (Option.some.inj h)
      exact not_not.mp hdir
    · cases hk : (dn ip).lookup next with
      | none => simp [hk] at h
      | some r => exact ih (by simpa [hk] using h)

section Namex

variable {p : P} {path : List Char} {Q : Option (ℕ × Name) → List ℕ → State P → Prop}
  (hs : Names t a pend s) (hc : Cache hold own [] s) (hp : s.type ((s.cwd p).getD 0) ≠ .free)
include hs hc hp

theorem wp_namex {nameiparent : Bool}
    (hnone : ∀ s', route s.dinode nameiparent (s.start p path) (.cut []) (elements path) = none →
      Quiet s s' → Cache hold own [] s' → Q none [] s')
    (hsome : ∀ i last s',
      route s.dinode nameiparent (s.start p path) (.cut []) (elements path) = some (i, last) →
      Quiet s s' → Cache hold own [i] s' → (t → a → s.type i ≠ .free) → Q (some (i, last)) [] s') :
    Prog.wp (namex p path nameiparent) Q (fun e _ => Tolerable t a e) [] s := by
  -- from the inode that the path starts with, when a reference to it is taken
  have hwalk : ∀ s₁, Quiet s s₁ → Cache hold own [s.start p path] s₁ →
      (t → a → s.type (s.start p path) ≠ .free) →
      Prog.wp (walk nameiparent (s.start p path) (.cut []) (elements path)) Q
        (fun e _ => Tolerable t a e) [] s₁ :=
    fun s₁ hq₁ hc₁ hfree => by
      have hdn := hq₁.dinode
      refine wp_walk (hs.quiet hq₁) hc₁ (by rwa [hq₁.type]) (fun s' hr hq hc' => ?_)
        fun i last s' hr hq hc' hi => ?_
      · rw [hdn] at hr
        exact hnone s' hr (hq₁.trans hq) hc'
      · rw [hdn] at hr
        rw [hq₁.type] at hi
        exact hsome i last s' hr (hq₁.trans hq) hc' hi
  unfold namex
  rw [Prog.wp_ite]
  split_ifs with habs
  · have hstart : s.start p path = ROOTINO := if_pos habs
    rw [hstart] at hwalk
    rw [Prog.wp_bind]
    exact wp_iget hc fun s₁ hq₁ _ hc₁ => hwalk s₁ hq₁ hc₁ fun ht _ =>
      Tree.not_free_of_live (hs.tree ht).root.1
  · have hstart : s.start p path = (s.cwd p).getD 0 := if_neg habs
    rw [hstart] at hwalk
    simp only [cwd, Prog.wp_bind, Prog.wp_read]
    exact wp_idup hc fun s₁ hq₁ hc₁ => hwalk s₁ hq₁ hc₁ fun _ _ => hp

theorem wp_namei {Q : Option ℕ → List ℕ → State P → Prop}
    (hnone : ∀ s', s.find p path = none → Quiet s s' → Cache hold own [] s' → Q none [] s')
    (hsome : ∀ i s', s.find p path = some i → Quiet s s' → Cache hold own [i] s' →
      (t → a → s.type i ≠ .free) → Q (some i) [] s') :
    Prog.wp (namei p path) Q (fun e _ => Tolerable t a e) [] s := by
  rw [namei, Prog.wp_bind]
  refine wp_namex hs hc hp (fun s' hr hq hc' => ?_) fun i last s' hr hq hc' hi => ?_
  · exact hnone s' (by rw [State.find, hr]; rfl) hq hc'
  · exact hsome i s' (by rw [State.find, hr]; rfl) hq hc' hi

theorem wp_nameiparent
    (hnone : ∀ s', s.parent p path = none → Quiet s s' → Cache hold own [] s' → Q none [] s')
    (hsome : ∀ d name s', s.parent p path = some (d, name) → Quiet s s' → Cache hold own [d] s' →
      s.type d = .dir → Q (some (d, name)) [] s') :
    Prog.wp (nameiparent p path) Q (fun e _ => Tolerable t a e) [] s :=
  wp_namex hs hc hp hnone fun d name s' hr hq hc' _ => hsome d name s' hr hq hc' (route_parent hr)

end Namex

end Xv6.Fs
