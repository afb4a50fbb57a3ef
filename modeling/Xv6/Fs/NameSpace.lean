import Xv6.Fs.Descriptor
import Xv6.Fs.Names

/-!
# Calls on the name space

The calls that look paths up and change directories, each run on its own. Every
exit is followed: where a call fails it has put back what it had changed, except
that `sys_open` leaves the file it has created when there is no descriptor for it.
-/

namespace Xv6.Fs

open Finset Function

variable {P : Type}

/-- Entries, link counts, contents, descriptors and current directories are as they were. -/
structure Same (s s' : State P) : Prop where
  dinode : s'.dinode = s.dinode
  ofile : s'.ofile = s.ofile
  cwd : s'.cwd = s.cwd

/-- The path leads to directory `d`, which has no entry of its last name yet: what is made under
this path gets one there. -/
def Creates (s : State P) (p : P) (path : List Char) (d : ℕ) : Prop :=
  ∃ name, s.parent p path = some (d, name) ∧ (s.dinode d).lookup name = none

/-- `sys_unlink` removes directory `i`: the path ends in a name of its own, and it is empty. -/
def Removes (s : State P) (p : P) (path : List Char) (i : ℕ) : Prop :=
  ∃ d name slot, s.parent p path = some (d, name) ∧ name ≠ dot ∧ name ≠ dotdot ∧
    (s.dinode d).lookup name = some (slot, i) ∧ s.type i = .dir ∧
    isdirempty (s.dinode i).entries = true

/-- The link count of the inode can be raised. -/
def Room (s : State P) (i : ℕ) : Prop := s.nlink i ≠ 32767

/-- No directory without links calls the inode "..". -/
def Alone (s : State P) (i : ℕ) : Prop :=
  ∀ d, s.type d = .dir → ¬ (s.dinode d).Live → (s.dinode d).up ≠ i

section Calls

variable {t a : Prop} {s s' s₁ : State P} {p : P} {ip dp : ℕ}

theorem Quiet.same (hq : Quiet s.begun s') : Same s s'.ended :=
  ⟨hq.dinode, hq.ofile, hq.cwd⟩

/-! ### Links -/

section Link

variable [Fintype P]

/-- `sys_link` has raised the link count of `ip`. -/
structure Raised (s : State P) (ip : ℕ) (s' : State P) : Prop where
  type : s.type ip ≠ .free ∧ s.type ip ≠ .dir
  dinode : s'.dinode = update s.dinode ip { s.dinode ip with nlink := short (s.nlink ip + 1) }
  cache : Cache (holders s) [ip] [] s'
  inside : Inside [s.sb.iblock ip] s.begun s'

theorem Raised.type_eq (hr : Raised s ip s') (x : ℕ) : s'.type x = s.type x := by
  rw [State.type, hr.dinode]
  by_cases hx : x = ip
  · simp [hx, State.type]
  · simp [hx, State.type]

theorem Raised.entries (hr : Raised s ip s') (x : ℕ) :
    (s'.dinode x).entries = (s.dinode x).entries := by
  rw [hr.dinode]
  by_cases hx : x = ip
  · simp [hx]
  · simp [hx]

theorem Raised.quiet (hr : Raised s ip s₁) (hq : Quiet s₁ s') (hc : Cache (holders s) [ip] [] s') :
    Raised s ip s' :=
  ⟨hr.type, hq.dinode.trans hr.dinode, hc, hr.inside.trans' hq.inside (by simp)⟩

variable (hs : Steady t a s)
include hs

/-- The link count is lowered again, and the call fails. -/
theorem wp_linkBad (hr : Raised s ip s₁) :
    Prog.wp (linkBad ip) (fun r h s' => h = [] ∧ Done t a s s' ∧ (r = -1 → Same s s'))
      (fun e _ => Tolerable t a e) [] s₁ := by
  simp only [linkBad, Prog.wp_bind]
  refine wp_ilock hr.cache (fun _ _ => hr.type_eq ip ▸ hr.type.1) fun s₂ hq _ hc₂ _ _ hv => ?_
  have hr₂ := hr.quiet hq hc₂
  have hshort := hs.cache.shorts ip hr.type.1
  have hback : short (short (s.nlink ip + 1) - 1) = s.nlink ip := by rw [short_back, hshort]
  refine wp_iupdate hc₂ hv rfl rfl rfl (fun _ => by simp) (short_short _) fun s₃ hs₃ hc₃ hin => ?_
  have hdn : s₃.dinode = s.dinode := by
    rw [hs₃]
    simp only [hr₂.dinode, update_self, update_idem, hback]
    exact update_eq_self ip s.dinode
  have hin₃ : Inside [s.sb.iblock ip] s.begun s₃ := by
    refine hr₂.inside.trans' hin ?_
    rw [hr₂.inside.sb]
    simp [State.begun]
  -- the inode is as it was before the call, and so is what keeps it alive
  have hkept : s₃.type ip ≠ .free → s₃.nlink ip = 0 →
      0 < holders s ip + ([] : List ℕ).count ip := by
    rw [State.type, State.nlink, hdn]
    exact fun h1 h2 => (hs.cache.dead ip h1 h2).1
  refine wp_iunlockput_walk List.mem_cons_self (hc₃.lend hkept) fun s₄ hq₄ hc₄ => ?_
  simp only [wp_endOp, Prog.wp_pure, List.erase_cons_head]
  have hin₄ : Inside [s.sb.iblock ip] s.begun s₄ := hin₃.trans' hq₄.inside (by simp)
  have hdn₄ : s₄.dinode = s.dinode := hq₄.dinode.trans hdn
  refine ⟨trivial, hs.ended hin₄ (by simp [MAXOPBLOCKS]) hc₄ ?_, fun _ => ?_⟩
  · exact hs.names.of_dinode hdn₄ hin₄.sb
  · exact ⟨hdn₄, hin₄.ofile, hin₄.cwd⟩

variable (hp : s.proc p = .live)
include hp

/-- The new entry is written, or the call fails. -/
theorem wp_linkTo (hr : Raised s ip s₁)
    (hn : Names t a (update (fun _ => 0) ip 1) s₁) {new : List Char}
    (hlive : t → ∀ d, Creates s p new d → (s.dinode d).Live) :
    Prog.wp (linkTo p ip new) (fun r h s' => h = [] ∧ Done t a s s' ∧ (r = -1 → Same s s'))
      (fun e _ => Tolerable t a e) [] s₁ := by
  unfold linkTo
  rw [Prog.wp_bind]
  have hcwd : s₁.cwd = s.cwd := hr.inside.cwd
  have hfree : s₁.type ((s₁.cwd p).getD 0) ≠ .free := by
    rw [hr.type_eq, hcwd]
    exact hs.cwd_ne_free hp
  have hparent : s₁.parent p new = s.parent p new := by
    rw [State.parent, State.parent, State.start, State.start, hcwd]
    exact route_congr hr.type_eq hr.entries _ _ _ _
  refine wp_nameiparent hn hr.cache hfree
    (fun s₂ _ hq hc₂ => wp_linkBad hs (hr.quiet hq hc₂)) fun dp name s₂ hd hq₂ hc₂ hdir => ?_
  rw [hparent] at hd
  simp only [Prog.wp_bind]
  refine wp_ilock hc₂ (fun _ _ => ?_) fun s₃ hq₃ _ hc₃ _ _ hv => ?_
  · rw [hq₂.type, hdir]
    decide
  have hq := hq₂.trans hq₃
  have hdn₃ : s₃.dinode = s₁.dinode := hq.dinode
  refine wp_dirlink hc₃ hv (fun k c s₄ _ hq₄ hc₄ => ?_)
    fun s₄ es as hlook _ hes hdn _ hc₄ hin => ?_
  · rw [if_pos (by decide)]
    simp only [Prog.wp_bind]
    refine wp_iunlockput_walk List.mem_cons_self hc₄ fun s₅ hq₅ hc₅ => ?_
    rw [List.erase_cons_head]
    exact wp_linkBad hs (hr.quiet ((hq.trans hq₄).trans hq₅) hc₅)
  · obtain ⟨x, y, hin⟩ := hin
    rw [if_neg (by decide)]
    simp only [Prog.wp_bind]
    refine wp_iunlockput_walk List.mem_cons_self hc₄ fun s₅ hq₅ hc₅ => ?_
    rw [List.erase_cons_head]
    refine wp_iput hc₅ fun s₆ hd₆ _ hc₆ => ?_
    simp only [wp_endOp, Prog.wp_pure]
    have hne : dp ≠ ip := by
      rintro rfl
      exact hr.type.2 (by rw [← hr.type_eq, hdir])
    -- the parent is as it was
    have hdp₃ : s₃.dinode dp = s.dinode dp := by rw [hdn₃, hr.dinode, update_of_ne hne]
    have hparlive : t → (s₃.dinode dp).Live := fun ht => by
      rw [hdp₃] at hlook ⊢
      exact hlive ht dp ⟨name, hd, hlook⟩
    have hn₄ : Names t a (fun _ => 0) s₄ :=
      (hn.quiet hq).dirlink hlook hes hdn hin.sb hparlive
        (by rw [hq.type, hr.type_eq]; exact hr.type.1)
        (fun _ h => absurd (by rwa [hq.type, hr.type_eq] at h) hr.type.2)
        (by rw [update_self]) fun x hx => by rw [update_of_ne hx]
    have hin₃ : Inside [s.sb.iblock ip] s.begun s₃ := hr.inside.trans' hq.inside (by simp)
    have hin₅ : Inside ([s.sb.iblock ip] ++ [s₃.sb.iblock dp, x, y]) s.begun s₅ :=
      (hin₃.trans hin).trans' hq₅.inside (by simp)
    have hin₆ : Inside ([s.sb.iblock ip] ++ [s₃.sb.iblock dp, x, y]) s.begun s₆ := by
      refine hin₅.trans' hd₆.inside ?_
      rw [hin₅.sb]
      simp [State.begun]
    refine ⟨trivial, hs.ended hin₆ (by simp [MAXOPBLOCKS]) hc₆ ?_, fun h => absurd h (by decide)⟩
    exact (hn₄.quiet hq₅).drops hd₆

theorem ends_link {old new : List Char}
    (hk : t → ∀ i, s.find p old = some i → s.type i ≠ .dir →
      Room s i ∧ ∀ d, Creates s p new d → (s.dinode d).Live) :
    Ends t a s (sysLink p old new) fun r s' => r = -1 → Same s s' := by
  unfold Ends sysLink
  simp only [Prog.wp_bind, wp_beginOp]
  refine wp_namei hs.names.begun hs.cache.begun (hs.cwd_ne_free hp)
    (fun s₁ _ hq hc₁ => ⟨rfl, hs.ended_quiet hq hc₁, fun _ => hq.same⟩)
    fun ip s₁ hfind hq₁ hc₁ hfree => ?_
  simp only [Prog.wp_bind]
  refine wp_ilock hc₁ (by rwa [hq₁.type]) fun s₂ hq₂ _ hc₂ _ hfree₂ hv => ?_
  have hq := hq₁.trans hq₂
  have hdn₂ : s₂.dinode = s.dinode := hq.dinode
  simp only [inode, Prog.wp_read, Prog.wp_ite, Prog.wp_bind]
  split_ifs with hdir
  · refine wp_iunlockput_walk List.mem_cons_self hc₂ fun s₃ hq₃ hc₃ => ?_
    simp only [wp_endOp, Prog.wp_pure, List.erase_cons_head]
    exact ⟨trivial, hs.ended_quiet (hq.trans hq₃) hc₃, fun _ => (hq.trans hq₃).same⟩
  · rw [hdn₂] at hdir
    have hty : s.type ip ≠ .free := by rwa [hq₁.type] at hfree₂
    refine wp_iupdate hc₂.keep hv rfl rfl rfl (fun _ => by simp) (short_short _)
      fun s₃ hs₃ hc₃ hin => ?_
    have hin₃ : Inside [s.sb.iblock ip] s.begun s₃ := by
      have := hq.inside.trans hin
      rwa [hq.sb, List.nil_append] at this
    have hdn₃ : s₃.dinode =
        update s.dinode ip { s.dinode ip with nlink := short (s.nlink ip + 1) } := by
      rw [hs₃]
      simp only [hdn₂]
      rfl
    refine wp_iunlock List.mem_cons_self
      (hc₃.ref_pos_of_mem (Or.inl (List.mem_singleton_self ip))) ?_
    rw [List.erase_cons_head]
    refine wp_linkTo hs hp ⟨⟨hty, hdir⟩, hdn₃, hc₃, hin₃⟩ ?_ fun ht => (hk ht ip hfind hdir).2
    refine hs.names.relink hdn₃ hin₃.sb hty hdir (fun ht => ?_) fun x hx => update_of_ne hx _ _
    have hbounds := short_bounds (hs.cache.shorts ip hty)
    have hroom := (hk ht ip hfind hdir).1
    rw [short_eq (by omega) (by rw [Room] at hroom; omega), update_self]
    simp

end Link

/-! ### Unlinking -/

section Unlink

variable {hold : ℕ → ℕ} {own : List ℕ} {h : List ℕ}

theorem wp_dropUp {type : IType} {Q : Unit → List ℕ → State P → Prop} (hc : Cache hold own [] s)
    (hv : s.valid dp = true) (hown : dp ∈ own)
    (hQ : ∀ s', s'.dinode = update s.dinode dp { s.dinode dp with
        nlink := if type = .dir then short (s.nlink dp - 1) else s.nlink dp } →
      s'.valid = s.valid → Cache hold own [] s' → Inside [s.sb.iblock dp] s s' → Q () h s') :
    Prog.wp (dropUp dp type) Q (fun e _ => Tolerable t a e) h s := by
  unfold dropUp
  rw [Prog.wp_ite]
  split_ifs with htype
  · refine wp_iupdate hc hv rfl rfl rfl (fun _ => ?_) (short_short _) fun s' hs' hc' hin => ?_
    · have := List.count_pos_iff.mpr hown
      omega
    · refine hQ s' ?_ (by rw [hs']) hc' hin
      rw [hs', if_pos htype]
      rfl
  · refine hQ s ?_ rfl hc ((Quiet.refl s).inside.mono (by simp))
    rw [if_neg htype]
    exact (update_eq_self dp s.dinode).symm

variable [Fintype P]

theorem wp_unlinkBad (hs : Steady t a s) (hq : Quiet s.begun s₁)
    (hc : Cache (holders s) [] [dp] s₁) :
    Prog.wp (unlinkBad dp) (fun r h s' => h = [] ∧ Done t a s s' ∧ (r = -1 → Same s s'))
      (fun e _ => Tolerable t a e) [dp] s₁ := by
  simp only [unlinkBad, Prog.wp_bind]
  refine wp_iunlockput_walk List.mem_cons_self hc fun s₂ hq₂ hc₂ => ?_
  simp only [wp_endOp, Prog.wp_pure, List.erase_cons_head]
  exact ⟨trivial, hs.ended_quiet (hq.trans hq₂) hc₂, fun _ => (hq.trans hq₂).same⟩

/-- The entry goes, and the links that it stood for. -/
theorem wp_unlinkEntry (hs : Steady t a s) (hq : Quiet s.begun s₁)
    (hc : Cache (holders s) [dp, ip] [] s₁) (hvd : s₁.valid dp = true) (hvi : s₁.valid ip = true)
    (hne : ip ≠ dp) (hty : s.type dp = .dir) {name : Name} {slot : ℕ} (h1 : name ≠ dot)
    (h2 : name ≠ dotdot) (hk : (s.dinode dp).lookup name = some (slot, ip))
    (hlink : 1 ≤ s.nlink ip)
    (hempty : s.type ip = .dir → isdirempty (s.dinode ip).entries = true)
    (halone : t → a → s.type ip = .dir → Alone s ip) :
    Prog.wp (unlinkEntry dp ip slot (s.type ip))
      (fun r h s' => h = [] ∧ Done t a s s' ∧ (r = -1 → Same s s'))
      (fun e _ => Tolerable t a e) [ip, dp] s₁ := by
  have hdn₁ : s₁.dinode = s.dinode := hq.dinode
  have hsb₁ : s₁.sb = s.sb := hq.sb
  have hfree : s.type ip ≠ .free := by
    have := (hc.valid ip hvi).1
    rwa [hq.type] at this
  simp only [unlinkEntry, Prog.wp_bind]
  refine wp_writeEntry hc hvd (by rw [hq.type]; exact hty) trivial
    fun s₂ es as hes hdn₂ hvalid₂ hc₂ hin₂ => ?_
  obtain ⟨x, y, hin₂⟩ := hin₂
  rw [hdn₁] at hes hdn₂
  rw [hsb₁] at hin₂
  have hsb₂ : s₂.sb = s.sb := hin₂.sb.trans hsb₁
  have hin₂ : Inside [s.sb.iblock dp, x, y] s.begun s₂ := hq.inside.trans hin₂
  have hdp₂ : s₂.dinode dp = { s.dinode dp with entries := es, addrs := as } := by
    rw [hdn₂, update_self]
  have hip₂ : s₂.dinode ip = s.dinode ip := by rw [hdn₂, update_of_ne hne]
  refine wp_dropUp hc₂ (by rwa [hvalid₂]) (by simp) fun s₃ hdn₃ hvalid₃ hc₃ hin₃ => ?_
  rw [hsb₂] at hin₃
  have hip₃ : s₃.dinode ip = s.dinode ip := by rw [hdn₃, update_of_ne hne, hip₂]
  have hin₃ : Inside [s.sb.iblock dp, x, y] s.begun s₃ := hin₂.trans' hin₃ (by simp)
  refine wp_iunlockput (by simp) hc₃ fun s₄ hd₄ hst hc₄ => ?_
  have hlocks : [ip, dp].erase dp = [ip] := by rw [List.erase_cons_tail (by simpa using hne)]; simp
  rw [hlocks]
  have hip₄ : s₄.dinode ip = s.dinode ip := by rw [hd₄.other hne, hip₃]
  have hv₄ : s₄.valid ip = true := hst ip (by simp) (by rw [hvalid₃, hvalid₂]; exact hvi)
  have hsb₃ : s₃.sb = s.sb := hin₃.sb
  have hd₄in := hd₄.inside
  rw [hsb₃] at hd₄in
  have hin₄ : Inside [s.sb.iblock dp, x, y] s.begun s₄ := hin₃.trans' hd₄in (by simp)
  have hsb₄ : s₄.sb = s.sb := hin₄.sb
  refine wp_iupdate hc₄ hv₄ rfl rfl rfl (fun _ => by simp) (short_short _)
    fun s₅ hs₅ hc₅ hin₅ => ?_
  rw [hsb₄] at hin₅
  have hdn₅ : s₅.dinode =
      update s₄.dinode ip { s.dinode ip with nlink := short (s.nlink ip - 1) } := by
    rw [hs₅]
    simp only [hip₄]
    rfl
  have hin₅ := hin₄.trans hin₅
  have hsb₅ : s₅.sb = s.sb := hin₅.sb
  refine wp_iunlockput List.mem_cons_self hc₅ fun s₆ hd₆ _ hc₆ => ?_
  simp only [wp_endOp, Prog.wp_pure, List.erase_cons_head]
  have hd₆in := hd₆.inside
  rw [hsb₅] at hd₆in
  have hin₆ := hin₅.trans' hd₆in (by simp)
  refine ⟨trivial, hs.ended hin₆ (by simp [MAXOPBLOCKS]) hc₆ (Names.drops ?_ hd₆),
    fun h => absurd h (by decide)⟩
  by_cases ht : t
  swap
  · exact .of_not ht
  have hn₂ : Names t a (update (fun _ => 0) ip 1) s₂ := hs.names.erase hty h1 h2 hk hes hdn₂ hsb₂
  have htree := hs.names.tree ht
  have hlive := htree.live_of_lookup hty hk h1 h2
  by_cases hdir : s.type ip = .dir
  · -- a directory: both link counts are lowered before the image is consistent again
    have hlive₂ : (s₂.dinode dp).Live := by
      rw [hdp₂]
      exact hlive
    have hlivei : (s₂.dinode ip).Live := by
      rw [hip₂]
      exact ⟨hdir, hlink⟩
    obtain ⟨hget, h0⟩ := Dinode.lookup_some hk
    have hup : (s₂.dinode ip).up = dp := by
      rw [hip₂]
      exact (htree.child dp hlive _ (List.mem_of_getElem? hget) h0 h1 h2).2 hdir
    have hempty₂ : isdirempty (s₂.dinode ip).entries = true := by
      rw [hip₂]
      exact hempty hdir
    obtain ⟨-, -, hdplink⟩ := hn₂.kill_links ht hlivei hlive₂ hup hne hempty₂
    have hshort : short (s₂.nlink dp) = s₂.nlink dp := by
      rw [State.nlink, hdp₂]
      exact hs.cache.shorts dp (Tree.not_free_of_live hlive)
    have hdp₃ : s₃.dinode dp = { s₂.dinode dp with nlink := short (s₂.nlink dp - 1) } := by
      rw [hdn₃, update_self, if_pos hdir]
    have hquiet : Quiet s₃ s₄ := hd₄.quiet (by
      have := short_bounds hshort
      rw [State.nlink, hdp₃]
      simp only
      rw [short_eq (by omega) (by omega)]
      omega)
    have hdn₄ : s₄.dinode = s₃.dinode := hquiet.dinode
    refine hn₂.kill ht hlivei hlive₂ hup hne hempty₂ (hsb₅.trans hsb₂.symm) hshort
      (fun ha d hd hdl => ?_) ?_ ?_ fun z hz1 hz2 => ?_
    · have hold : s.type d = .dir ∧ ¬ (s.dinode d).Live ∧ (s₂.dinode d).up = (s.dinode d).up := by
        have hdd : d ≠ dp := by
          rintro rfl
          exact hdl hlive₂
        have hsame : s₂.dinode d = s.dinode d := by rw [hdn₂, update_of_ne hdd]
        rw [State.type, hsame] at hd
        rw [hsame] at hdl ⊢
        exact ⟨hd, hdl, rfl⟩
      rw [hold.2.2]
      exact halone ht ha hdir d hold.1 hold.2.1
    · rw [hdn₅, update_self]
      simp [Dinode.Alike, State.nlink, hip₂]
    · rw [hdn₅, update_of_ne hne.symm, hdn₄, hdp₃]
      exact ⟨rfl, rfl, rfl⟩
    · rw [hdn₅, update_of_ne hz1, hdn₄, hdn₃, update_of_ne hz2]
  · -- otherwise only the link count of the inode is
    have hdn₃ : s₃.dinode = s₂.dinode := by
      rw [hdn₃, if_neg hdir]
      exact update_eq_self dp s₂.dinode
    have hn₄ : Names t a (update (fun _ => 0) ip 1) s₄ :=
      (hn₂.of_dinode hdn₃ (hsb₃.trans hsb₂.symm)).drops hd₄
    rw [← hip₄] at hdn₅
    refine hn₄.relink hdn₅ (hsb₅.trans hsb₄.symm) ?_ ?_ (fun _ => ?_)
      fun z hz => by rw [update_of_ne hz]
    · rw [State.type, hip₄]
      exact hfree
    · rw [State.type, hip₄]
      exact hdir
    · have := short_bounds (hs.cache.shorts ip hfree)
      rw [short_eq (by omega) (by omega), update_self, State.nlink, State.nlink, hip₄]
      simp

theorem ends_unlink (hs : Steady t a s) (hp : s.proc p = .live) {path : List Char}
    (halone : t → a → ∀ i, Removes s p path i → Alone s i) :
    Ends t a s (sysUnlink p path) fun r s' => r = -1 → Same s s' := by
  unfold Ends sysUnlink
  simp only [Prog.wp_bind, wp_beginOp]
  refine wp_nameiparent hs.names.begun hs.cache.begun (hs.cwd_ne_free hp)
    (fun s₁ _ hq hc₁ => ⟨rfl, hs.ended_quiet hq hc₁, fun _ => hq.same⟩)
    fun dp name s₁ hparent hq₁ hc₁ hdir => ?_
  have hparent : s.parent p path = some (dp, name) := hparent
  have hdir : s.type dp = .dir := hdir
  simp only [Prog.wp_bind]
  refine wp_ilock hc₁ (fun _ _ => ?_) fun s₂ hq₂ _ hc₂ _ _ hvd => ?_
  · rw [hq₁.type]
    change s.type dp ≠ .free
    rw [hdir]
    decide
  have hq := hq₁.trans hq₂
  rw [Prog.wp_ite]
  split_ifs with hdots
  · exact wp_unlinkBad hs hq hc₂
  obtain ⟨h1, h2⟩ := not_or.mp hdots
  rw [Prog.wp_bind]
  refine wp_dirlookup hc₂ (fun _ _ => wp_unlinkBad hs hq hc₂) fun slot ip s₃ hk _ hq₃ hst hc₃ => ?_
  have hq' := hq.trans hq₃
  have hk : (s.dinode dp).lookup name = some (slot, ip) := by rwa [hq.dinode] at hk
  simp only [Prog.wp_bind]
  refine wp_ilock hc₃ (fun ht ha => ?_) fun s₄ hq₄ hmono hc₄ hnot hfree hvi => ?_
  · rw [hq'.type]
    exact hs.names.lookup_ne_free ht ha hdir hk
  have hq'' := hq'.trans hq₄
  have hdn : s₄.dinode = s.dinode := hq''.dinode
  have hne : ip ≠ dp := by simpa using hnot
  simp only [inode, Prog.wp_read, Prog.wp_ite, Prog.wp_fail, Prog.wp_bind, hdn]
  split_ifs with hlt hfull
  · -- an entry of a live directory has a link
    intro ht
    have htree := hs.names.tree ht
    obtain ⟨hget, h0⟩ := Dinode.lookup_some hk
    have hpos := htree.nlink_pos (htree.live_of_lookup hdir hk h1 h2) (List.mem_of_getElem? hget)
      h0 h1 h2
    simp only at hpos
    omega
  · refine wp_iunlockput_walk List.mem_cons_self hc₄ fun s₅ hq₅ hc₅ => ?_
    rw [List.erase_cons_head]
    exact wp_unlinkBad hs (hq''.trans hq₅) hc₅
  · have hc₅ : Cache (holders s) [dp, ip] [] s₄ := hc₄.keep.keep
    have hempty : s.type ip = .dir → isdirempty (s.dinode ip).entries = true := fun hty => by
      by_contra hno
      have hty : (s.dinode ip).type = .dir := hty
      exact hfull (by simp [hty, hno])
    exact wp_unlinkEntry hs hq'' hc₅ (hmono dp (hst dp (by simp) hvd)) hvi hne hdir h1 h2 hk
      (not_lt.mp hlt) hempty fun ht ha hty =>
        halone ht ha ip ⟨dp, name, slot, hparent, h1, h2, hk, hty, hempty hty⟩

end Unlink

/-! ### Creating -/

section Create

variable {hold : ℕ → ℕ} {h : List ℕ} {type : IType} {major minor : ℤ}
  {Q : Option ℕ → List ℕ → State P → Prop}

/-- `create` has allocated inode `ip` and filled it in, as far as its entry in `dp`. -/
structure Fresh (t a : Prop) (hold : ℕ → ℕ) (type : IType) (dp ip : ℕ) (s s' : State P) : Prop where
  type_eq : s'.type ip = type
  nlink_eq : s'.nlink ip = 1
  up : t → type = .dir → (s'.dinode ip).up = dp
  entries : (s'.dinode dp).entries = (s.dinode dp).entries
  live : t → (s'.dinode dp).Live
  valid : s'.valid dp = true
  cache : Cache hold [ip, dp] [] s'
  names : Names t a (update (fun _ => 0) ip 1) s'
  inside : ∃ x y z w, Inside [s.sb.iblock ip, s.sb.iblock dp, x, y, z, w] s s'

/-- A directory also gets "." and "..", and `dp` a link. -/
theorem wp_createDots {Q : Unit → List ℕ → State P → Prop} (hn : Names t a (fun _ => 0) s)
    (hlive : t → (s.dinode dp).Live) (hroom : t → type = .dir → Room s dp) (hne : dp ≠ ip)
    (hshort : short (s.nlink dp) = s.nlink dp) (hi : 0 < ip ∧ ip < s.sb.ninodes)
    (hfree : s.type ip = .free) (htype : type ≠ .free) (hv : s.valid dp = true)
    (hc : Cache hold [ip, dp] [] (s.withFresh ip (.fresh type major minor)))
    (hQ : ∀ s', Fresh t a hold type dp ip s s' → Q () h s') :
    Prog.wp (createDots dp ip type) Q (fun e _ => Tolerable t a e) h
      (s.withFresh ip (.fresh type major minor)) := by
  set s₁ := s.withFresh ip (.fresh type major minor)
  have hip₁ : s₁.dinode ip = .fresh type major minor := update_self _ _ _
  have hother₁ : ∀ x ≠ ip, s₁.dinode x = s.dinode x := fun x hx => update_of_ne hx _ _
  have hvi : s₁.valid ip = true := update_self _ _ _
  have hvd : s₁.valid dp = true := (update_of_ne hne _ _).trans hv
  have hin₁ : Inside [s.sb.iblock ip] s s₁ := by
    refine ⟨rfl, rfl, rfl, rfl, rfl, rfl, fun x hx => ?_⟩
    simp only [s₁, State.withFresh, List.mem_cons] at hx
    obtain rfl | rfl | hx := hx
    · exact Or.inr (Or.inr List.mem_cons_self)
    · exact Or.inr (Or.inr List.mem_cons_self)
    · exact Or.inl hx
  unfold createDots
  rw [Prog.wp_ite]
  split_ifs with hdir
  swap
  · refine hQ s₁ ⟨by rw [State.type, hip₁]; rfl, by rw [State.nlink, hip₁]; rfl,
      fun _ h => absurd h hdir, by rw [hother₁ dp hne], by rwa [hother₁ dp hne], hvd, hc, ?_,
      0, 0, 0, 0, hin₁.mono (by simp)⟩
    exact hn.allocFile rfl rfl hi hfree htype hdir rfl
  subst hdir
  simp only [Prog.wp_bind]
  refine wp_iupdate hc hvd rfl rfl rfl (fun _ => by simp [hne]) (short_short _)
    fun s₂ hs₂ hc₂ hin₂ => ?_
  have hip₂ : s₂.dinode ip = .fresh .dir major minor := by
    rw [hs₂]
    exact (update_of_ne hne.symm _ _).trans hip₁
  have hdp₂ : s₂.dinode dp = { s.dinode dp with nlink := short (s.nlink dp + 1) } := by
    rw [hs₂, State.nlink, ← hother₁ dp hne]
    exact update_self _ _ _
  have hvalid₂ : s₂.valid = s₁.valid := by rw [hs₂]
  have hin₂ := hin₁.trans hin₂
  refine wp_dirlink hc₂ (by rwa [hvalid₂]) (fun _ _ _ _ _ _ => trivial)
    fun s₃ es₃ as₃ _ _ hes₃ hdn₃ hvalid₃ hc₃ hin₃ => ?_
  obtain ⟨x, y, hin₃⟩ := hin₃
  have hin₃ := hin₂.trans hin₃
  have hes₃ : es₃ = [⟨ip % 65536, dot⟩] := by
    rw [eq_insertEntry hes₃, hip₂]
    rfl
  have hip₃ :
      s₃.dinode ip = { Dinode.fresh .dir major minor with entries := es₃, addrs := as₃ } := by
    rw [hdn₃, update_self, hip₂]
  have hdp₃ : s₃.dinode dp = s₂.dinode dp := by rw [hdn₃, update_of_ne hne]
  simp only [show ¬ (0 : ℤ) < 0 by decide, if_false, Prog.wp_bind]
  refine wp_dirlink hc₃ (by rwa [hvalid₃, hvalid₂]) (fun _ _ _ _ _ _ => trivial)
    fun s₄ es₄ as₄ _ _ hes₄ hdn₄ hvalid₄ hc₄ hin₄ => ?_
  obtain ⟨z, w, hin₄⟩ := hin₄
  have hin₄ := hin₃.trans hin₄
  have hip₄ :
      s₄.dinode ip = { Dinode.fresh .dir major minor with entries := es₄, addrs := as₄ } := by
    rw [hdn₄, update_self, hip₃]
  have hdp₄ : s₄.dinode dp = { s.dinode dp with nlink := short (s.nlink dp + 1) } := by
    rw [hdn₄, update_of_ne hne, hdp₃, hdp₂]
  -- the first entry is in use
  have hes₄ : t → es₄ = [⟨ip % 65536, dot⟩, ⟨dp % 65536, dotdot⟩] := fun ht => by
    have hlt := (hn.tree ht).inums
    have h0 : ip % 65536 ≠ 0 := by
      rw [Nat.mod_eq_of_lt (by omega)]
      omega
    rw [eq_insertEntry hes₄, hip₃, hes₃]
    simp [insertEntry, h0]
  have hup : t → dp % 65536 = dp := fun ht =>
    Nat.mod_eq_of_lt (lt_of_lt_of_le ((hn.tree ht).lt_of_live (hlive ht)) (hn.tree ht).inums)
  have hraised : t → short (s.nlink dp + 1) = s.nlink dp + 1 := fun ht => by
    have := short_bounds hshort
    have hroom := hroom ht rfl
    rw [Room] at hroom
    exact short_eq (by omega) (by omega)
  refine hQ s₄ ⟨by rw [State.type, hip₄]; rfl, by rw [State.nlink, hip₄]; rfl, fun ht _ => ?_,
    by rw [hdp₄], fun ht => ?_, by rw [hvalid₄, hvalid₃, hvalid₂, hvd], hc₄, ?_, x, y, z, w, ?_⟩
  · rw [hip₄, Dinode.up, hes₄ ht, hup ht]
    rfl
  · rw [hdp₄]
    have hpos : 1 ≤ s.nlink dp := (hlive ht).2
    refine ⟨(hlive ht).1, ?_⟩
    rw [hraised ht]
    change 1 ≤ s.nlink dp + 1
    omega
  · by_cases ht : t
    swap
    · exact .of_not ht
    refine hn.allocDir hin₄.sb hi hfree hlive hraised ?_ ?_ fun v hvi hvd => ?_
    · rw [hip₄, hes₄ ht]
      exact ⟨rfl, rfl, rfl⟩
    · rw [hdp₄]
      exact ⟨rfl, rfl, rfl⟩
    · rw [hdn₄, update_of_ne hvi, hdn₃, update_of_ne hvi, hs₂]
      exact (update_of_ne hvd _ _).trans (hother₁ v hvi)
  · have hsb₂ : s₂.sb = s.sb := hin₂.sb
    have hsb₃ : s₃.sb = s.sb := hin₃.sb
    refine hin₄.mono ?_
    rw [hsb₂, hsb₃]
    simp [s₁, State.withFresh]

/-- `create` makes a new inode and its entry. -/
theorem wp_createIn {name : Name} (hn : Names t a (fun _ => 0) s) (hc : Cache hold [dp] [] s)
    (hv : s.valid dp = true) (htype : type ≠ .free) (hlive : t → (s.dinode dp).Live)
    (hroom : t → type = .dir → Room s dp)
    (hQ : ∀ ip s', s.type ip = .free → s'.type ip = type → s'.nlink ip = 1 →
      Cache hold [ip] [] s' → Names t a (fun _ => 0) s' →
      (∃ l, l.length + 1 ≤ MAXOPBLOCKS ∧ s.sb.iblock ip ∈ l ∧ Inside l s s') →
      Q (some ip) [ip] s') :
    Prog.wp (createIn dp name type major minor) Q (fun e _ => Tolerable t a e) [dp] s := by
  have hfree := (hc.valid dp hv).1
  simp only [createIn, Prog.wp_bind]
  refine wp_newInode hc (by simpa using hfree) htype fun ip h0 hlt hip hc₁ => ?_
  have hne : dp ≠ ip := by
    rintro rfl
    exact hfree hip
  refine wp_createDots hn hlive hroom hne (hc.shorts dp hfree) ⟨h0, hlt⟩ hip htype hv hc₁
    fun s₂ hf => ?_
  obtain ⟨x, y, z, w, hin₂⟩ := hf.inside
  refine wp_dirlink hf.cache hf.valid (fun _ _ _ _ _ _ => trivial)
    fun s₃ es as hlook₃ _ hes hdn₃ _ hc₃ hin₃ => ?_
  obtain ⟨x', y', hin₃⟩ := hin₃
  simp only [show ¬ (0 : ℤ) < 0 by decide, if_false, Prog.wp_bind]
  have hn₃ : Names t a (fun _ => 0) s₃ :=
    hf.names.dirlink hlook₃ hes hdn₃ hin₃.sb hf.live (by rw [hf.type_eq]; exact htype)
      (fun ht hd => hf.up ht (by rwa [hf.type_eq] at hd)) (by rw [update_self])
      fun x hx => by rw [update_of_ne hx]
  refine wp_iunlockput (by simp) (hc₃.perm (.swap _ _ _) (.refl _)) fun s₄ hd₄ _ hc₄ => ?_
  have hlocks : [ip, dp].erase dp = [ip] := by
    rw [List.erase_cons_tail (by simpa using hne.symm)]
    simp
  rw [hlocks]
  have hip₄ : s₄.dinode ip = s₂.dinode ip := by
    rw [hd₄.other hne.symm, hdn₃, update_of_ne hne.symm]
  have hin₄ := (hin₂.trans hin₃).trans hd₄.inside
  refine hQ ip s₄ hip (by rw [State.type, hip₄]; exact hf.type_eq)
    (by rw [State.nlink, hip₄]; exact hf.nlink_eq) hc₄ (hn₃.drops hd₄)
    ⟨[s.sb.iblock ip, s.sb.iblock dp, x, y, z, w, x', y'], by simp [MAXOPBLOCKS], by simp,
      hin₄.mono ?_⟩
  have hsb₂ : s₂.sb = s.sb := hin₂.sb
  rw [hin₃.sb, hsb₂]
  simp

/-- `create` finds a file, makes a new inode, or fails. -/
theorem wp_create {path : List Char} (hn : Names t a (fun _ => 0) s) (hc : Cache hold [] [] s)
    (hp : s.type ((s.cwd p).getD 0) ≠ .free) (htype : type ≠ .free)
    (hlive : t → ∀ d, Creates s p path d → (s.dinode d).Live ∧ (type = .dir → Room s d))
    (hnone : ∀ s', (¬ ∃ d, Creates s p path d) → Quiet s s' → Cache hold [] [] s' → Q none [] s')
    (hfile : ∀ ip s', (¬ ∃ d, Creates s p path d) → type = .file → s.type ip = .file →
      Quiet s s' → Cache hold [] [ip] s' → Q (some ip) [ip] s')
    (hnew : ∀ ip s', (∃ d, Creates s p path d) → s.type ip = .free → s'.type ip = type →
      s'.nlink ip = 1 → Cache hold [ip] [] s' → Names t a (fun _ => 0) s' →
      (∃ l, l.length + 1 ≤ MAXOPBLOCKS ∧ s.sb.iblock ip ∈ l ∧ Inside l s s') →
      Q (some ip) [ip] s') :
    Prog.wp (create p path type major minor) Q (fun e _ => Tolerable t a e) [] s := by
  unfold create
  rw [Prog.wp_bind]
  refine wp_nameiparent hn hc hp
    (fun s₁ hparent hq hc₁ => hnone s₁ (fun ⟨d, _, hd, _⟩ => ?_) hq hc₁)
    fun dp name s₁ hparent hq₁ hc₁ hdir => ?_
  · rw [hparent] at hd
    exact absurd hd (by simp)
  simp only [Prog.wp_bind]
  refine wp_ilock hc₁ (fun _ _ => by rw [hq₁.type, hdir]; decide) fun s₂ hq₂ _ hc₂ _ _ hv => ?_
  have hq := hq₁.trans hq₂
  have hdn : s₂.dinode = s.dinode := hq.dinode
  refine wp_dirlookup hc₂ (fun hk _ => ?_) fun slot ip s₃ hk _ hq₃ _ hc₃ => ?_
  · rw [hdn] at hk
    have hcreates : Creates s p path dp := ⟨name, hparent, hk⟩
    refine wp_createIn (hn.quiet hq) hc₂.keep hv htype (fun ht => ?_) (fun ht hty => ?_)
      fun ip s' h0 h1 h2 hc' hn' hin => ?_
    · rw [hdn]
      exact (hlive ht dp hcreates).1
    · rw [Room, hq.nlink]
      exact (hlive ht dp hcreates).2 hty
    · obtain ⟨l, hl, hmem, hin⟩ := hin
      rw [hq.type] at h0
      exact hnew ip s' ⟨dp, hcreates⟩ h0 h1 h2 hc' hn'
        ⟨l, hl, by rwa [hq.sb] at hmem, hq.inside.trans hin⟩
  · rw [hdn] at hk
    have hno : ¬ ∃ d, Creates s p path d := by
      rintro ⟨d, name', hd, hlook⟩
      obtain ⟨rfl, rfl⟩ := Prod.mk.inj (Option.some.inj (hparent.symm.trans hd))
      exact absurd (hk.symm.trans hlook) (by simp)
    have hq' := hq.trans hq₃
    simp only [Prog.wp_bind]
    refine wp_iunlockput_walk List.mem_cons_self (hc₃.perm (.refl _) (.swap _ _ _))
      fun s₄ hq₄ hc₄ => ?_
    have hq'' := hq'.trans hq₄
    rw [List.erase_cons_head]
    refine wp_ilock hc₄ (fun ht ha => ?_) fun s₅ hq₅ _ hc₅ _ _ _ => ?_
    · rw [hq''.type]
      exact hn.lookup_ne_free ht ha hdir hk
    have hq₅' := hq''.trans hq₅
    simp only [inode, Prog.wp_read, Prog.wp_ite, Prog.wp_pure, Prog.wp_bind]
    split_ifs with hboth
    · refine hfile ip s₅ hno hboth.1 ?_ hq₅' hc₅
      rw [← hq₅'.type]
      exact hboth.2
    · refine wp_iunlockput_walk List.mem_cons_self hc₅ fun s₆ hq₆ hc₆ => ?_
      rw [List.erase_cons_head]
      exact hnone s₆ hno (hq₅'.trans hq₆) hc₆

end Create

section Ends

variable [Fintype P] {path : List Char} (hs : Steady t a s)
include hs

theorem ends_make (hp : s.proc p = .live) {type : IType} {major minor : ℤ}
    (hfree : type ≠ .free) (hfile : type ≠ .file)
    (hlive : t → ∀ d, Creates s p path d → (s.dinode d).Live ∧ (type = .dir → Room s d)) :
    Ends t a s (sysMake p path type major minor) fun r s' => r = -1 → Same s s' := by
  unfold Ends sysMake
  simp only [Prog.wp_bind, wp_beginOp]
  refine wp_create hs.names.begun hs.cache.begun (hs.cwd_ne_free hp) hfree hlive
    (fun s₁ _ hq hc₁ => ⟨rfl, hs.ended_quiet hq hc₁, fun _ => hq.same⟩)
    (fun _ _ _ h => absurd h hfile) fun ip s₁ _ _ _ hlink hc₁ hn₁ hin => ?_
  obtain ⟨l, hl, hmem, hin⟩ := hin
  simp only [Prog.wp_bind]
  refine wp_iunlockput List.mem_cons_self hc₁ fun s₂ hd hst hc₂ => ?_
  simp only [wp_endOp, Prog.wp_pure, List.erase_cons_head]
  have hin₂ : Inside l s.begun s₂ := by
    refine hin.trans' hd.inside ?_
    rw [hin.sb]
    simpa using hmem
  exact ⟨trivial, hs.ended hin₂ hl hc₂ (hn₁.drops hd), fun h => absurd h (by decide)⟩

variable [DecidableEq P]

/-- Neither a file nor a descriptor is free. -/
def NoDescriptor (s : State P) (p : P) : Prop :=
  (∀ f, (s.file f).ref ≠ 0) ∨ ∀ fd, s.ofile p fd ≠ none

/-- `sys_open` will create a file, and find no descriptor for it. -/
def CreatesInVain (s : State P) (p : P) (path : List Char) (omode : ℕ) : Prop :=
  omode &&& O_CREATE ≠ 0 ∧ (∃ d, Creates s p path d) ∧ NoDescriptor s p

/-- `sys_open` once it has the inode, which may be new. -/
theorem wp_openInode {l : List ℕ} {omode : ℕ} {R : ℤ → State P → Prop}
    (hc : Cache (holders s) [] [ip] s₁) (hn : Names t a (fun _ => 0) s₁)
    (hin : Inside l s.begun s₁) (hl : l.length + 1 ≤ MAXOPBLOCKS) (hfree : s₁.type ip ≠ .free)
    (hdir : s₁.type ip = .dir → omode = 0)
    (hfail : NoDescriptor s p → ∀ s', Quiet s₁ s' → R (-1) s'.ended)
    (hok : ∀ r s', 0 ≤ r → R r s') :
    Prog.wp (openInode p ip omode) (fun r h s' => h = [] ∧ Done t a s s' ∧ R r s')
      (fun e _ => Tolerable t a e) [ip] s₁ := by
  have hhold : holders s = holders s₁ := holders_congr hin.file.symm hin.cwd.symm
  -- on the exits where there is no descriptor
  have hexit : ∀ {Q : Unit → List ℕ → State P → Prop}, NoDescriptor s p →
      (∀ s', [] = ([] : List ℕ) ∧ Done t a s s'.ended ∧ R (-1) s'.ended → Q () [] s') →
      Prog.wp (iunlockput ip) Q (fun e _ => Tolerable t a e) [ip] s₁ := fun hno hQ => by
    refine wp_iunlockput_walk List.mem_cons_self hc fun s₂ hq hc₂ => ?_
    rw [List.erase_cons_head]
    refine hQ s₂ ⟨rfl, hs.ended (hin.trans' hq.inside (by simp)) hl hc₂ (hn.quiet hq),
      hfail hno s₂ hq⟩
  unfold openInode
  rw [Prog.wp_bind]
  refine wp_filealloc (hhold ▸ hc) (fun hno => ?_) fun f h0 hty hc₂ => ?_
  · simp only [Prog.wp_bind, wp_endOp, Prog.wp_pure]
    exact hexit (Or.inl (hin.file ▸ hno)) fun _ h => h
  set s₂ := s₁.setFile f { s₁.file f with ref := 1 }
  have hself : s₂.file f = { s₁.file f with ref := 1 } := update_self _ _ _
  simp only [Prog.wp_bind]
  refine wp_fdalloc (fun hno => ?_) fun fd _ => ?_
  · simp only [Prog.wp_bind, wp_endOp, Prog.wp_pure]
    refine wp_fileclose_none (by rw [hself]) (by rw [hself]; exact hty) ?_
    have hback : s₂.setFile f { s₂.file f with ref := 0, type := .none } = s₁ := by
      have : ({ s₂.file f with ref := 0, type := .none } : File) = s₁.file f := by
        rw [hself, ← h0, ← hty]
      rw [this]
      simp [s₂, State.setFile]
    rw [hback]
    have hofile : s₂.ofile = s.ofile := hin.ofile
    exact hexit (Or.inr (hofile ▸ hno)) fun _ h => h
  · set s₃ : State P := { s₂ with ofile := update s₂.ofile p (update (s₂.ofile p) fd (some f)) }
    have hc₃ : Cache (holders s₃) [ip] [] s₃ := hc₂.keep.setOfile _
    simp only [Prog.wp_bind, wp_endOp, Prog.wp_pure]
    refine wp_iunlock List.mem_cons_self
      (hc₃.ref_pos_of_mem (Or.inl (List.mem_singleton_self ip))) ?_
    simp only [setFile, wp_prog_atomic, wp_bind, wp_get, wp_set, List.erase_cons_head]
    have hself₃ : s₃.ended.file f = { s₁.file f with ref := 1 } := hself
    have hlater := Later.of_inside hin hl
    refine ⟨trivial, hs.done (hc₃.ended.moveFile (fun h => ?_) (fun i => ?_)
      fun i hi => ⟨?_, fun hw => ?_⟩)
      (hn.of_dinode rfl rfl) ⟨hlater.sb, hlater.cwd, hlater.proc, hlater.sections⟩,
      hok _ _ (Int.natCast_nonneg _)⟩
    · rw [hself₃] at h
      exact absurd h Nat.one_ne_zero
    · rw [hself₃]
      simp [hty, List.count_cons]
    · obtain rfl : ip = i := by simpa using hi
      exact hfree
    · obtain rfl : ip = i := by simpa using hi
      intro hd
      rw [hdir hd] at hw
      simp at hw

variable (hp : s.proc p = .live)
include hp

theorem ends_chdir :
    Ends t a s (sysChdir p path) fun r s' => r = -1 → Same s s' := by
  unfold Ends sysChdir
  simp only [Prog.wp_bind, wp_beginOp]
  refine wp_namei hs.names.begun hs.cache.begun (hs.cwd_ne_free hp)
    (fun s₁ _ hq hc₁ => ⟨rfl, hs.ended_quiet hq hc₁, fun _ => hq.same⟩)
    fun ip s₁ _ hq₁ hc₁ hfree => ?_
  simp only [Prog.wp_bind]
  refine wp_ilock hc₁ (by rwa [hq₁.type]) fun s₂ hq₂ _ hc₂ _ hfree₂ _ => ?_
  have hq := hq₁.trans hq₂
  simp only [inode, cwd, Prog.wp_read, Prog.wp_ite, Prog.wp_bind]
  split_ifs
  · refine wp_iunlockput_walk List.mem_cons_self hc₂ fun s₃ hq₃ hc₃ => ?_
    simp only [wp_endOp, Prog.wp_pure, List.erase_cons_head]
    exact ⟨trivial, hs.ended_quiet (hq.trans hq₃) hc₃, fun _ => (hq.trans hq₃).same⟩
  · refine wp_iunlock List.mem_cons_self
      (hc₂.ref_pos_of_mem (Or.inr (List.mem_singleton_self ip))) ?_
    obtain ⟨old, hold⟩ := Option.ne_none_iff_exists'.mp ((hs.procs p).mpr hp)
    have hcwd₂ : s₂.cwd = s.cwd := hq.cwd
    simp only [hcwd₂, hold, Option.getD_some, List.erase_cons_head]
    -- the reference of the old current directory is the call's to give up
    have hhold : holders s = holders s₂ := holders_congr hq.file.symm hq.cwd.symm
    have hc₃ := (hhold ▸ hc₂.keep : Cache (holders s₂) [ip] [] s₂).takeCwd (by rw [hcwd₂, hold])
    have hty₂ : s₂.type ip ≠ .free := by rwa [hq₂.type]
    refine wp_iput hc₃ fun s₃ hd _ hc₄ => ?_
    simp only [wp_endOp, wp_setCwd, Prog.wp_pure]
    have hin : Inside [s.sb.iblock old] s.begun s₃ := by
      have := hq.inside.trans hd.inside
      rwa [hq.sb, List.nil_append] at this
    have hty₃ : s₃.type ip ≠ .free := by
      by_cases hne : ip = old
      · rcases hd with hq₃ | ⟨-, -, href, -⟩
        · rwa [hq₃.type]
        · have hrefs := hc₃.refs ip
          simp only [hne, List.count_cons_self, List.count_nil] at hrefs
          omega
      · rw [State.type, hd.other hne]
        exact hty₂
    have hhold' : holders { s₂ with cwd := update s₂.cwd p none } =
        holders { s₃.ended with cwd := update s₃.ended.cwd p none } :=
      holders_congr hd.inside.file.symm (congrArg (update · p none) hd.inside.cwd.symm)
    have hlater := Later.of_inside hin (by simp [MAXOPBLOCKS])
    refine ⟨trivial, ⟨⟨(hhold' ▸ hc₄.ended).setCwd hty₃, ?_, fun q => ?_⟩, hlater.sb,
      hlater.sections⟩, fun h => absurd h (by decide)⟩
    · exact ((hs.names.begun.quiet hq).drops hd).of_dinode rfl rfl
    · simp only [hlater.cwd, hlater.proc]
      by_cases hqp : q = p
      · simp [hqp, hp]
      · simpa [hqp] using hs.procs q

theorem ends_open {omode : ℕ}
    (hlive : t → omode &&& O_CREATE ≠ 0 → ∀ d, Creates s p path d → (s.dinode d).Live) :
    Ends t a s (sysOpen p path omode) fun r s' =>
      r = -1 → (Same s s' ↔ ¬ CreatesInVain s p path omode) := by
  -- if nothing is created, nothing has changed on an exit with -1
  have hsame : ∀ {s₁}, ¬ (omode &&& O_CREATE ≠ 0 ∧ ∃ d, Creates s p path d) → Quiet s.begun s₁ →
      (-1 : ℤ) = -1 → (Same s s₁.ended ↔ ¬ CreatesInVain s p path omode) :=
    fun hno hq _ => iff_of_true hq.same fun h => hno ⟨h.1, h.2.1⟩
  have hok : ∀ (r : ℤ) (s' : State P), 0 ≤ r → r = -1 →
      (Same s s' ↔ ¬ CreatesInVain s p path omode) := fun r s' h0 h1 => by omega
  unfold Ends sysOpen
  simp only [Prog.wp_bind, wp_beginOp, Prog.wp_ite]
  split_ifs with hcreate
  · refine wp_create hs.names.begun hs.cache.begun (hs.cwd_ne_free hp) (by decide)
      (fun ht d hd => ⟨hlive ht hcreate d hd, fun h => absurd h (by decide)⟩)
      (fun s₁ hno hq hc₁ => ⟨rfl, hs.ended_quiet hq hc₁, hsame (fun h => hno h.2) hq⟩)
      (fun ip s₁ hno _ hty hq hc₁ => ?_) fun ip s₁ hnew hfree hty hlink hc₁ hn₁ hin => ?_
    · have hty₁ : s₁.type ip = .file := by rw [hq.type]; exact hty
      exact wp_openInode hs hc₁ (hs.names.begun.quiet hq) hq.inside (by simp [MAXOPBLOCKS])
        (by rw [hty₁]; decide) (fun h => absurd (hty₁.symm.trans h) (by decide))
        (fun _ _ hq' => hsame (fun h => hno h.2) (hq.trans hq')) hok
    · obtain ⟨l, hl, -, hin⟩ := hin
      refine wp_openInode hs (hc₁.lend fun _ h0 => ?_) hn₁ hin hl (by rw [hty]; decide)
        (fun h => absurd (hty.symm.trans h) (by decide))
        (fun hno s' hq' _ => iff_of_false (fun h => ?_) fun h => h ⟨hcreate, hnew, hno⟩) hok
      · rw [hlink] at h0
        exact absurd h0 one_ne_zero
      · -- the inode was free and is a file
        have hs' : s'.dinode = s.dinode := h.dinode
        have hfile : s'.type ip = .file := (congrFun hq'.type ip).trans hty
        rw [State.type, hs'] at hfile
        exact absurd (hfree.symm.trans hfile) (by decide)
  · have hno : ¬ (omode &&& O_CREATE ≠ 0 ∧ ∃ d, Creates s p path d) := fun h => hcreate h.1
    refine wp_namei hs.names.begun hs.cache.begun (hs.cwd_ne_free hp)
      (fun s₁ _ hq hc₁ => ⟨rfl, hs.ended_quiet hq hc₁, hsame hno hq⟩)
      fun ip s₁ _ hq₁ hc₁ hfree => ?_
    simp only [Prog.wp_bind]
    refine wp_ilock hc₁ (by rwa [hq₁.type]) fun s₂ hq₂ _ hc₂ _ hfree₂ _ => ?_
    have hq := hq₁.trans hq₂
    simp only [inode, Prog.wp_read, Prog.wp_ite, Prog.wp_bind]
    split_ifs with hdir
    · refine wp_iunlockput_walk List.mem_cons_self hc₂ fun s₃ hq₃ hc₃ => ?_
      simp only [wp_endOp, Prog.wp_pure, List.erase_cons_head]
      exact ⟨trivial, hs.ended_quiet (hq.trans hq₃) hc₃, fun _ => hsame hno (hq.trans hq₃) rfl⟩
    · exact wp_openInode hs hc₂ (hs.names.begun.quiet hq) hq.inside (by simp [MAXOPBLOCKS])
        (by rwa [hq₂.type]) (fun hd => not_not.mp fun h0 => hdir ⟨hd, h0⟩)
        (fun _ _ hq' => hsame hno (hq.trans hq')) hok

end Ends

end Calls

end Xv6.Fs
