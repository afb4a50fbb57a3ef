import Xv6.Fs.Path
import Xv6.Fs.Syscall

/-!
# Changes to the name space

What each change to entries and link counts does to a consistent image. An entry
and the link count it stands for change at different moments of a call; in between
the entry is owed (`pend`).
-/

namespace Xv6.Fs

open Finset Function

variable {P : Type} {t a : Prop} {pend pend' as : ℕ → ℕ} {s s' : State P} {i d dp c : ℕ}
  {es : List Dirent} {name : Name}

/-! ### Link counts -/

theorem short_short (n : ℤ) : short (short n) = short n := Int.bmod_bmod

theorem short_bounds {n : ℤ} (h : short n = n) : -32768 ≤ n ∧ n ≤ 32767 := by
  have h1 := Int.le_bmod (x := n) (m := 65536) (by decide)
  have h2 := Int.bmod_lt (x := n) (m := 65536) (by decide)
  rw [short] at h
  omega

theorem short_eq {n : ℤ} (h1 : -32768 ≤ n) (h2 : n ≤ 32767) : short n = n :=
  Int.bmod_eq_of_le (by omega) (by omega)

/-- A link that is added and taken away again leaves the count as it was. -/
theorem short_back (n : ℤ) : short (short (n + 1) - 1) = short n := by
  unfold short
  rw [Int.sub_eq_add_neg, Int.bmod_add_bmod]
  congr 1
  omega

/-! ### Consistency -/

/-- Nothing is said of an image that is not tracked. -/
theorem Names.of_not (h : ¬ t) : Names t a pend s := ⟨fun ht => absurd ht h, fun ht => absurd ht h⟩

section

variable (hn : Names t a pend s)
include hn

/-- The link count changes of an inode that is not a directory. -/
theorem Names.relink {k : ℤ} (hdn : s'.dinode = update s.dinode i { s.dinode i with nlink := k })
    (hsb : s'.sb = s.sb)
    (hfree : s.type i ≠ .free) (hdir : s.type i ≠ .dir)
    (hk : t → k + pend i = s.nlink i + pend' i) (hrest : ∀ x ≠ i, pend' x = pend x) :
    Names t a pend' s' := by
  have hsame : ∀ x, (s'.dinode x).type = .dir ∨ (s.dinode x).type = .dir →
      s'.dinode x = s.dinode x := fun x hx => by
    rw [hdn] at hx ⊢
    refine update_of_ne (fun hxi => ?_) _ _
    subst hxi
    rw [update_self, or_self] at hx
    exact hdir hx
  constructor
  · intro ht
    rw [hdn, hsb]
    exact (hn.tree ht).relink hfree hdir (hk ht) hrest
  · intro ht ha
    refine (hn.anchored ht ha).mono (fun x hx hl => ?_) fun x hx => ?_
    · have hsx := hsame x (Or.inl hx)
      rw [hsx] at hx hl ⊢
      exact ⟨hx, hl, rfl⟩
    · rw [hsame x (Or.inr hx.1)]
      exact hx

/-- The entries of a directory change after the first two. -/
theorem Names.entries
    (hdn : s'.dinode = update s.dinode d { s.dinode d with entries := es, addrs := as })
    (hsb : s'.sb = s.sb)
    (htree : t → Tree (update s.dinode d { s.dinode d with entries := es }) s.sb.ninodes pend' ∧
      Dinode.up { s.dinode d with entries := es } = (s.dinode d).up) : Names t a pend' s' := by
  have hrow : ∀ x, (update s.dinode d { s.dinode d with entries := es } x).Alike (s'.dinode x) ∧
      ((s'.dinode x).Live ↔ (s.dinode x).Live) ∧ (s'.dinode x).type = (s.dinode x).type := by
    intro x
    rw [hdn]
    by_cases hx : x = d <;> simp [Dinode.Alike, Dinode.Live, hx]
  constructor
  · intro ht
    rw [hsb]
    exact (htree ht).1.congr fun x => (hrow x).1
  · intro ht ha
    refine (hn.anchored ht ha).mono (fun x hx hl => ?_) fun x hx => (hrow x).2.1.mpr hx
    obtain ⟨halike, hlive, htype⟩ := hrow x
    refine ⟨htype ▸ hx, fun h => hl (hlive.mpr h), halike.up.trans ?_⟩
    by_cases hxd : x = d
    · rw [hxd, update_self]
      exact (htree ht).2
    · rw [update_of_ne hxd]

/-- `dirlink` writes an entry that is owed. -/
theorem Names.dirlink (hlook : (s.dinode d).lookup name = none)
    (hes : putEntry (s.dinode d).entries (emptySlot (s.dinode d).entries)
    ⟨i % 65536, name⟩ = some es)
    (hdn : s'.dinode = update s.dinode d { s.dinode d with entries := es, addrs := as })
    (hsb : s'.sb = s.sb) (hd : t → (s.dinode d).Live) (hfree : s.type i ≠ .free)
    (hup : t → s.type i = .dir → (s.dinode i).up = d) (hpend : pend' i + 1 = pend i)
    (hrest : ∀ x ≠ i, pend' x = pend x) : Names t a pend' s' := by
  refine hn.entries hdn hsb fun ht => ?_
  have htree := hn.tree ht
  obtain ⟨h1, h2⟩ := htree.name_ne_dots (hd ht) hlook
  have hi : i % 65536 = i :=
    Nat.mod_eq_of_lt (lt_of_lt_of_le (htree.bound i hfree).2 htree.inums)
  rw [hi] at hes
  exact htree.insert (hd ht) h1 h2 hfree (hup ht) hes hpend hrest

/-- An inode that was free is a file or a device, whose entry is owed. -/
theorem Names.allocFile {v : Dinode} (hdn : s'.dinode = update s.dinode i v) (hsb : s'.sb = s.sb)
    (hi : 0 < i ∧ i < s.sb.ninodes) (hold : s.type i = .free) (hfree : v.type ≠ .free)
    (hdir : v.type ≠ .dir) (hlink : v.nlink = 1) : Names t a (update pend i 1) s' := by
  have hnl : ¬ (s.dinode i).Live := fun h => Tree.not_free_of_live h hold
  constructor
  · intro ht
    rw [hdn, hsb]
    exact (hn.tree ht).allocFile hi hold hfree hdir hlink
  · intro ht ha
    rw [hdn]
    refine (hn.anchored ht ha).mono (fun x hx hl => ?_) fun x hx => ?_
    · have hxi : x ≠ i := by
        rintro rfl
        rw [update_self] at hx
        exact hdir hx
      rw [update_of_ne hxi] at hx hl ⊢
      exact ⟨hx, hl, rfl⟩
    · have hxi : x ≠ i := by
        rintro rfl
        exact hnl hx
      rwa [update_of_ne hxi]

/-- An inode that was free is a directory in `dp`, whose entry is owed. -/
theorem Names.allocDir (hsb : s'.sb = s.sb) (hi : 0 < i ∧ i < s.sb.ninodes)
    (hold : s.type i = .free) (hdp : t → (s.dinode dp).Live)
    (hroom : t → short (s.nlink dp + 1) = s.nlink dp + 1)
    (hnew : Dinode.Alike ⟨.dir, 0, 0, 1, [⟨i % 65536, dot⟩, ⟨dp % 65536, dotdot⟩], [], fun _ => 0⟩
      (s'.dinode i))
    (hup : Dinode.Alike { s.dinode dp with nlink := short (s.nlink dp + 1) } (s'.dinode dp))
    (hother : ∀ x ≠ i, x ≠ dp → s'.dinode x = s.dinode x) :
    Names t a (update pend i 1) s' := by
  by_cases ht : t
  swap
  · exact .of_not ht
  have htree := hn.tree ht
  have hdp := hdp ht
  have hne : dp ≠ i := by
    rintro rfl
    exact Tree.not_free_of_live hdp hold
  have hmod : ∀ x < s.sb.ninodes, x % 65536 = x := fun x hx =>
    Nat.mod_eq_of_lt (lt_of_lt_of_le hx htree.inums)
  rw [hmod i hi.2, hmod dp (htree.lt_of_live hdp)] at hnew
  have hroom := hroom ht
  rw [hroom] at hup
  constructor
  · intro _
    rw [hsb]
    refine (htree.allocDir (v := ⟨.dir, 0, 0, 1, [⟨i, dot⟩, ⟨dp, dotdot⟩], [], fun _ => 0⟩)
      hi hold hdp rfl rfl rfl).congr fun x => ?_
    by_cases hxi : x = i
    · rw [hxi, update_self]
      exact hnew
    · rw [update_of_ne hxi]
      by_cases hxd : x = dp
      · rw [hxd, update_self]
        exact hup
      · rw [update_of_ne hxd, hother x hxi hxd]
        exact ⟨rfl, rfl, rfl⟩
  · intro _ ha
    have hlive : (s'.dinode dp).Live := hup.live.mpr ⟨hdp.1, by
      have := hdp.2
      simp only [State.nlink]
      omega⟩
    have hlive' : (s'.dinode i).Live := hnew.live.mpr ⟨rfl, le_rfl⟩
    refine (hn.anchored ht ha).mono (fun x hx hl => ?_) fun x hx => ?_
    · have hxi : x ≠ i := by
        rintro rfl
        exact hl hlive'
      have hxd : x ≠ dp := by
        rintro rfl
        exact hl hlive
      rw [hother x hxi hxd] at hx hl ⊢
      exact ⟨hx, hl, rfl⟩
    · by_cases hxi : x = i
      · rwa [hxi]
      by_cases hxd : x = dp
      · rwa [hxd]
      · rwa [hother x hxi hxd]

end

/-- The entry that a lookup found is cleared, and the inode still has a link too many. -/
theorem Names.erase (hn : Names t a (fun _ => 0) s) {k : ℕ} (hty : s.type d = .dir)
    (h1 : name ≠ dot) (h2 : name ≠ dotdot) (hk : (s.dinode d).lookup name = some (k, c))
    (hes : putEntry (s.dinode d).entries k .empty = some es)
    (hdn : s'.dinode = update s.dinode d { s.dinode d with entries := es, addrs := as })
    (hsb : s'.sb = s.sb) : Names t a (update (fun _ => 0) c 1) s' :=
  hn.entries hdn hsb fun ht =>
    (hn.tree ht).erase ((hn.tree ht).live_of_lookup hty hk h1 h2) h1 h2 hk hes
      (by rw [update_self]) fun x hx => update_of_ne hx _ _

/-- The link counts of an empty directory that has lost its entry, and of the directory it is in. -/
theorem Names.kill_links (hn : Names t a (update (fun _ => 0) c 1) s) (ht : t)
    (hc : (s.dinode c).Live) (hdp : (s.dinode dp).Live) (hup : (s.dinode c).up = dp) (hne : c ≠ dp)
    (hempty : isdirempty (s.dinode c).entries = true) :
    Tree (update (update s.dinode dp { s.dinode dp with nlink := s.nlink dp - 1 }) c
      { s.dinode c with nlink := s.nlink c - 1 }) s.sb.ninodes (fun _ => 0) ∧ s.nlink c = 1 ∧
      2 ≤ s.nlink dp := by
  have htree := hn.tree ht
  have hroot : c ≠ ROOTINO := by
    rintro rfl
    exact hne (htree.root.2.symm.trans hup)
  refine htree.kill hc hdp hup hne hroot (by simpa [isdirempty] using hempty) fun x => ?_
  by_cases hx : x = c
  · simp [hx]
  · simp [hx]

/-- The links of an empty directory go, which has lost its entry in `dp`. -/
theorem Names.kill (hn : Names t a (update (fun _ => 0) c 1) s) (ht : t) (hc : (s.dinode c).Live)
    (hdp : (s.dinode dp).Live) (hup : (s.dinode c).up = dp) (hne : c ≠ dp)
    (hempty : isdirempty (s.dinode c).entries = true) (hsb : s'.sb = s.sb)
    (hshort : short (s.nlink dp) = s.nlink dp)
    (halone : a → ∀ x, s.type x = .dir → ¬ (s.dinode x).Live → (s.dinode x).up ≠ c)
    (hc' : Dinode.Alike { s.dinode c with nlink := short (s.nlink c - 1) } (s'.dinode c))
    (hdp' : Dinode.Alike { s.dinode dp with nlink := short (s.nlink dp - 1) } (s'.dinode dp))
    (hother : ∀ x ≠ c, x ≠ dp → s'.dinode x = s.dinode x) : Names t a (fun _ => 0) s' := by
  obtain ⟨hkill, hclink, hdplink⟩ := hn.kill_links ht hc hdp hup hne hempty
  have hshort' : short (s.nlink dp - 1) = s.nlink dp - 1 := by
    have := short_bounds hshort
    exact short_eq (by omega) (by omega)
  have hshortc : short (s.nlink c - 1) = s.nlink c - 1 := by
    rw [hclink]
    rfl
  rw [hshortc] at hc'
  rw [hshort'] at hdp'
  have halike : ∀ x, (update (update s.dinode dp { s.dinode dp with nlink := s.nlink dp - 1 }) c
      { s.dinode c with nlink := s.nlink c - 1 } x).Alike (s'.dinode x) := fun x => by
    by_cases hxc : x = c
    · rw [hxc, update_self]
      exact hc'
    · rw [update_of_ne hxc]
      by_cases hxd : x = dp
      · rw [hxd, update_self]
        exact hdp'
      · rw [update_of_ne hxd, hother x hxc hxd]
        exact ⟨rfl, rfl, rfl⟩
  have hlive : (s'.dinode dp).Live := hdp'.live.mpr ⟨hdp.1, by simp only; omega⟩
  constructor
  · intro _
    rw [hsb]
    exact hkill.congr halike
  · intro _ ha x hx hl
    by_cases hxc : x = c
    · rw [hxc, hc'.up]
      change (s'.dinode (s.dinode c).up).Live
      rwa [hup]
    have hxd : x ≠ dp := by
      rintro rfl
      exact hl hlive
    rw [hother x hxc hxd] at hx hl ⊢
    have hupc := halone ha x hx hl
    by_cases hupd : (s.dinode x).up = dp
    · rwa [hupd]
    · rw [hother _ hupc hupd]
      exact hn.anchored ht ha x hx hl

/-! ### Lookups -/

/-- Lookups do not depend on link counts. -/
theorem route_congr {dn dn' : ℕ → Dinode} (htype : ∀ x, (dn' x).type = (dn x).type)
    (hes : ∀ x, (dn' x).entries = (dn x).entries) (nameiparent : Bool) (ip : ℕ) (name : Name)
    (es : List Name) : route dn' nameiparent ip name es = route dn nameiparent ip name es := by
  induction es generalizing ip name with
  | nil => rfl
  | cons next rest ih => simp only [route, Dinode.lookup, htype, hes, ih]

/-- A path names what its parent has under the last element. -/
theorem route_false {dn : ℕ → Dinode} {ip : ℕ} {last : Name} {es : List Name}
    (h : route dn true ip name es = some (d, last)) :
    (route dn false ip name es).map (·.1) = ((dn d).lookup last).map (·.2) := by
  induction es generalizing ip name with
  | nil => simp [route] at h
  | cons next rest ih =>
    unfold route at h
    split_ifs at h with hdir hlast
    · obtain ⟨rfl, rfl⟩ := Prod.mk.inj (Option.some.inj h)
      simp only [Bool.true_and, List.isEmpty_iff] at hlast
      subst hlast
      rw [route, if_neg hdir, if_neg (by simp)]
      cases (dn ip).lookup next with
      | none => rfl
      | some r => rfl
    · rw [route, if_neg hdir, if_neg (by simp)]
      cases hk : (dn ip).lookup next with
      | none => simp [hk] at h
      | some r => exact ih (by simpa [hk] using h)

theorem State.find_of_parent {p : P} {path : List Char} (h : s.parent p path = some (d, name)) :
    s.find p path = ((s.dinode d).lookup name).map (·.2) :=
  route_false h

end Xv6.Fs
