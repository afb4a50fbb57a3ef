import Xv6.Vm.Space

/-!
# Growing and shrinking

`allocuvm` adds pages of zeroes, or undoes what it has done when memory runs out in between.
`growproc` takes the size 0 that `deallocuvm` returns for a failure, and a size below 0 for a
large one, with which `deallocuvm` does nothing.
-/

namespace Xv6.Vm

open Bytes Function

/-- The entry of a page that is mapped, and what is in the page. -/
def view (s : State) (pgdir u : ℕ) : Option (ℕ × (ℕ → UInt8)) :=
  (link (pte s pgdir u)).map fun x => (pte s pgdir u, s.mem x)

/-- There are pages of zeroes from `lo` to `hi`, where there were none, and the others are as
they were. -/
structure Grown (s s' : State) (pgdir lo hi : ℕ) : Prop where
  empty : ∀ u, lo ≤ u → u < hi → pte s pgdir u % 2 = 0
  old : ∀ u < 2 ^ 20, ¬(lo ≤ u ∧ u < hi) → pte s' pgdir u = pte s pgdir u
  new : ∀ u, lo ≤ u → u < hi → ∃ x, link (pte s' pgdir u) = some x ∧
    PTE_FLAGS (pte s' pgdir u) = PTE_W ||| PTE_U ||| PTE_P ∧ s'.mem x = fun _ => 0
  user : ∀ u < 2 ^ 19, ∀ x, link (pte s pgdir u) = some x → s'.mem x = s.mem x
  high : ∀ d, 512 ≤ d → tab s' pgdir d = tab s pgdir d

/-- There are no pages from `lo` to `hi`, and the others are as they were. -/
structure Kept (s s' : State) (pgdir lo hi : ℕ) : Prop where
  empty : ∀ u, lo ≤ u → u < hi → pte s pgdir u % 2 = 0
  old : ∀ u < 2 ^ 20, ¬(lo ≤ u ∧ u < hi) → pte s' pgdir u = pte s pgdir u
  none : ∀ u, lo ≤ u → u < hi → pte s' pgdir u % 2 = 0
  user : ∀ u < 2 ^ 19, ∀ x, link (pte s pgdir u) = some x → s'.mem x = s.mem x
  high : ∀ d, 512 ≤ d → tab s' pgdir d = tab s pgdir d

section Grow

variable {L : Layout} {s s' s₁ s₂ s₃ : State} {pgdir v lo hi x u : ℕ} {held : Multiset ℕ}
  {R : Finset ℕ}

theorem ne_of_link {w : ℕ} (hx : link u = some x) (hw : w % 2 = 0) : u ≠ w := by
  rintro rfl
  rw [link_of_even hw] at hx
  cases hx

theorem Grown.refl (s : State) (pgdir lo : ℕ) : Grown s s pgdir lo lo :=
  ⟨fun u hu hu' => by omega, fun _ _ _ => rfl, fun u hu hu' => by omega, fun _ _ _ _ => rfl,
    fun _ _ => rfl⟩

/-- A page that was mapped still is. -/
theorem Grown.link_eq (hg : Grown s s₁ pgdir lo v) (hu : u < 2 ^ 19)
    (hx : link (pte s pgdir u) = some x) : link (pte s₁ pgdir u) = some x := by
  rw [hg.old u (by omega) fun hin => ne_of_link hx (hg.empty u hin.1 hin.2) rfl]
  exact hx

/-- A state with the same entries and the same user pages. -/
theorem Grown.carry (hg : Grown s s₁ pgdir lo v) (hv : v ≤ 2 ^ 19)
    (hpte : ∀ u < 2 ^ 20, pte s₂ pgdir u = pte s₁ pgdir u)
    (huser : ∀ u < 2 ^ 19, ∀ y, link (pte s₁ pgdir u) = some y → s₂.mem y = s₁.mem y)
    (hhigh : ∀ d, 512 ≤ d → tab s₂ pgdir d = tab s₁ pgdir d) : Grown s s₂ pgdir lo v where
  empty := hg.empty
  old u hu hno := by rw [hpte u hu, hg.old u hu hno]
  new u hu hu' := by
    obtain ⟨y, hy, hflags, hy0⟩ := hg.new u hu hu'
    rw [hpte u (by omega)]
    exact ⟨y, hy, hflags, (huser u (by omega) y hy).trans hy0⟩
  user u hu y hy := by rw [huser u hu y (hg.link_eq hu hy), hg.user u hu y hy]
  high d hd := (hhigh d hd).trans (hg.high d hd)

/-- The user pages are neither free nor a part of the tables. -/
theorem Space.user_mem (h : Space L s₁ pgdir held R) (hfree : s₁.freelist = x :: s₂.freelist)
    (hmem : ∀ y ≠ x, s₂.mem y = s₁.mem y) (hext : Ext s₂ s₃ pgdir) {y : ℕ} (hu : u < 2 ^ 19)
    (hy : link (pte s₁ pgdir u) = some y) : s₃.mem y = s₁.mem y := by
  obtain ⟨h₂, hpte₂⟩ := h.take hfree hmem
  have hyx : y ≠ x := fun he => (h.user hu hy).2.1 (by simp [hfree, he])
  have hout := (h₂.user hu (by rw [hpte₂ u (by omega), hy])).2.1
  simp only [Multiset.mem_add, Multiset.mem_coe, Multiset.mem_singleton, not_or] at hout
  rw [hext.frame y hout.1.2 (by simp [hout]), hmem y hyx]

/-- A page of zeroes is added. -/
theorem Grown.add (hg : Grown s s₁ pgdir lo v) (h : Space L s₁ pgdir held R) (hlo : lo ≤ v)
    (hv : v < 2 ^ 19) (heven : pte s pgdir v % 2 = 0) (hfree : s₁.freelist = x :: s₂.freelist)
    (hmem : ∀ y ≠ x, s₂.mem y = s₁.mem y) (hzero : s₂.mem x = fun _ => 0)
    (hext : Ext s₂ s₃ pgdir) (hhigh : ∀ d, 512 ≤ d → tab s₃ pgdir d = tab s₁ pgdir d)
    (hpte : ∀ u < 2 ^ 20, pte s₃ pgdir u =
      if u = v then mkpte (V2P x) (PTE_W ||| PTE_U) else pte s₁ pgdir u) :
    Grown s s₃ pgdir lo (v + 1) := by
  obtain ⟨h₂, hpte₂⟩ := h.take hfree hmem
  have hx : KPage L x := h₂.page x (h₂.mem.mpr (.inr (.inr (by simp))))
  have huser : ∀ u < 2 ^ 19, ∀ y, link (pte s₁ pgdir u) = some y → s₃.mem y = s₁.mem y :=
    fun u hu y hy => h.user_mem hfree hmem hext hu hy
  refine ⟨fun u hu hu' => ?_, fun u hu hno => ?_, fun u hu hu' => ?_, fun u hu y hy => ?_,
    fun d hd => (hhigh d hd).trans (hg.high d hd)⟩
  · by_cases huv : u = v
    · rw [huv, heven]
    · exact hg.empty u hu (by omega)
  · rw [hpte u hu, if_neg (by omega), hg.old u hu (by omega)]
  · by_cases huv : u = v
    · rw [hpte u (by omega), if_pos huv]
      refine ⟨x, link_mkpte hx (by decide), PTE_FLAGS_mkpte hx.V2P_aligned (by decide), ?_⟩
      rw [h₂.frame hext (.inr (by simp)), hzero]
    · obtain ⟨y, hy, hflags, hy0⟩ := hg.new u hu (by omega)
      rw [hpte u (by omega), if_neg huv]
      exact ⟨y, hy, hflags, (huser u (by omega) y hy).trans hy0⟩
  · rw [huser u hu y (hg.link_eq hu hy), hg.user u hu y hy]

/-- What has been added is taken away again. -/
theorem Grown.undo (hg : Grown s s₁ pgdir lo v) (h : Space L s₁ pgdir held R) (hv : v ≤ hi)
    (hhi : hi ≤ 2 ^ 19) (hempty : ∀ u, lo ≤ u → u < hi → pte s pgdir u % 2 = 0)
    (hf : Freed s₁ s₂ pgdir lo hi) : Kept s s₂ pgdir lo hi where
  empty := hempty
  old u hu hno := by
    rw [hf.pte u hu, if_neg (by omega), hg.old u hu (by omega)]
  none u hu hu' := by
    rw [hf.pte u (by omega)]
    split_ifs <;> omega
  user u hu x hx := by
    have hx₁ := hg.link_eq hu hx
    have hout := (h.user hu hx₁).2.1
    rw [← hg.user u hu x hx]
    refine hf.frame x (fun ht => hout (Multiset.mem_add.mpr (.inr ht))) fun w hw hw' he => ?_
    have huw : u = w := h.user_inj hu (by omega) hx₁ he
    exact ne_of_link hx (hempty w hw hw') (by rw [huw])
  high d hd := by rw [tab_congr hf.dir, hg.high d hd]

theorem Kept.give (hk : Kept s s₁ pgdir lo hi) (h : Space L s₁ pgdir ({x} + held) R)
    (hhi : hi ≤ 2 ^ 19) : Kept s (s₁.give x) pgdir lo hi := by
  obtain ⟨-, hpte⟩ := h.give
  refine ⟨hk.empty, fun u hu hno => (hpte u hu).trans (hk.old u hu hno),
    fun u hu hu' => (hpte u (by omega)).symm ▸ hk.none u hu hu', fun u hu y hy => ?_,
    fun d hd => ?_⟩
  · have hy₁ : link (pte s₁ pgdir u) = some y := by
      rw [hk.old u (by omega) fun hin => ne_of_link hy (hk.empty u hin.1 hin.2) rfl]
      exact hy
    have hyx : y ≠ x := fun he => (h.user hu hy₁).2.2 (by simp [he])
    have hgive : (s₁.give x).mem y = s₁.mem y := mem_fill_of_ne s₁ hyx
    rw [hgive, hk.user u hu y hy]
  · have hdx : pgdir ≠ x := fun he => (h.outside (x := x) (.inr (by simp))).1 (by simp [he])
    have hdir : (s₁.give x).mem pgdir = s₁.mem pgdir := mem_fill_of_ne s₁ hdx
    rw [tab_congr hdir, hk.high d hd]

section Alloc

variable {oldsz newsz : ℕ} (hnew : newsz < KERNBASE)
  (hempty : ∀ u, npages oldsz ≤ u → u < npages newsz → pte s pgdir u % 2 = 0)
include hnew hempty

/-- `allocuvm` undoes what it has done. -/
theorem wp_rollback (h : Space L s₁ pgdir held R) (hg : Grown s s₁ pgdir (npages oldsz) v)
    (hold : oldsz < newsz) (hhi : v ≤ npages newsz) :
    wp (deallocuvm L pgdir newsz oldsz) (fun _ s' => Space L s' pgdir held R ∧
      Kept s s' pgdir (npages oldsz) (npages newsz) ∧
      ∀ x, x ∉ R ∨ x ∈ held → s'.mem x = s₁.mem x) (fun _ => False) s₁ := by
  refine (wp_deallocuvm h hnew.le hold).mono ?_ fun _ => id
  rintro _ s' ⟨-, h', hf⟩
  have hle := npages_le hnew.le
  exact ⟨h', hg.undo h hhi hle hempty hf, fun x hx => h.freed_frame hf hle hx⟩

/-- The pages are added one after the other, or none is. -/
theorem wp_allocLoop {fuel : ℕ} (h : Space L s₁ pgdir held R)
    (hg : Grown s s₁ pgdir (npages oldsz) v) (hframe : ∀ x, x ∉ R ∨ x ∈ held → s₁.mem x = s.mem x)
    (hold : oldsz ≤ newsz) (hlo : npages oldsz ≤ v) (hhi : v ≤ npages newsz)
    (hfuel : npages newsz - v < fuel) :
    wp (allocLoop L pgdir oldsz newsz fuel (PGSIZE * v)) (fun r s' =>
      (∀ x, x ∉ R ∨ x ∈ held → s'.mem x = s.mem x) ∧ Space L s' pgdir held R ∧
      if r then Grown s s' pgdir (npages oldsz) (npages newsz)
      else Kept s s' pgdir (npages oldsz) (npages newsz) ∧ (s₁.Willing →
        (∀ u < 2 ^ 19, npages newsz ≤ u → pte s pgdir u % 2 = 0) →
        R.card ≤ held.card + 1026 + npages newsz)) (fun _ => False) s₁ := by
  have hle := npages_le hnew.le
  induction fuel generalizing s₁ v with
  | zero => omega
  | succ fuel ih =>
    rw [allocLoop]
    by_cases hv : v < npages newsz
    · have hsz : oldsz < newsz := by
        by_contra hge
        have heq : oldsz = newsz := by omega
        rw [heq] at hlo
        omega
      rw [if_pos (lt_npages.mpr hv), wp_bind]
      refine wp_kalloc (fun s₂ hmem hfree hw hnil => ?_) fun x s₂ hmem hfree hw => ?_
      · -- there is no page
        have hpte : ∀ u < 2 ^ 20, pte s₂ pgdir u = pte s₁ pgdir u := fun u _ =>
          pte_congr (by rw [hmem]) fun t _ => by rw [hmem]
        have h₂ : Space L s₂ pgdir held R :=
          h.ext (Ext.of_mem hfree hmem hw) fun u hu => hpte u (by omega)
        have hg₂ : Grown s s₂ pgdir (npages oldsz) v :=
          hg.carry (by omega) hpte (fun u _ y _ => by rw [hmem]) fun d _ =>
            congrFun (tab_congr (congrFun hmem pgdir)) d
        simp only [wp_bind]
        refine (wp_rollback hnew hempty h₂ hg₂ hsz hhi).mono ?_ fun _ => id
        rintro _ s₃ ⟨h₃, hkept, hout⟩
        refine ⟨fun y hy => by rw [hout y hy, hmem, hframe y hy], h₃, hkept, fun h₀ htop => ?_⟩
        have hshort := h₂.short (m := npages newsz) (hnil h₀) fun u hu hge => by
          rw [hg₂.old u (by omega) (by omega), htop u hu hge]
        omega
      · have hmem₂ : ∀ y ≠ x, (s₂.fill x 0).mem y = s₁.mem y := fun y hy => by
          rw [mem_fill_of_ne _ hy, hmem]
        have hzero : (s₂.fill x 0).mem x = fun _ => 0 := update_self ..
        have hfree₂ : s₁.freelist = x :: (s₂.fill x 0).freelist := hfree
        obtain ⟨h₂, hpte₂⟩ := h.take hfree₂ hmem₂
        have hxd : pgdir ≠ x := (h.tree.free_ne (by simp [hfree])).1.symm
        have htabs₂ : tab (s₂.fill x 0) pgdir = tab s₁ pgdir := tab_congr (hmem₂ pgdir hxd)
        have heven : pte s₁ pgdir v % 2 = 0 := by
          rw [hg.old v (by omega) (by omega), hempty v hlo hv]
        -- the pages outside and those in hand, up to the end of `mappages`
        have hout₂ : ∀ y, y ∉ R ∨ y ∈ held → (s₂.fill x 0).mem y = s.mem y := fun y hy => by
          have hyx : y ≠ x := fun he => (h.outside hy).1 (by simp [hfree, he])
          rw [hmem₂ y hyx, hframe y hy]
        have hheld : ∀ y, y ∉ R ∨ y ∈ held → y ∉ R ∨ y ∈ ({x} + held : Multiset ℕ) := fun y hy =>
          hy.imp_right fun hy => Multiset.mem_add.mpr (.inr hy)
        simp only [wp_bind, wp_modify]
        refine (h₂.mapUser (by omega) (by decide) (by rw [hpte₂ v (by omega), heven])).mono ?_
          fun _ => id
        rintro r s₃ ⟨hext, hhigh, ⟨rfl, h₃, hpte₃⟩ | ⟨rfl, h₃, hpte₃, hfull⟩⟩
        · have hg₃ : Grown s s₃ pgdir (npages oldsz) (v + 1) :=
            hg.add h hlo (by omega) (hempty v hlo hv) hfree₂ hmem₂ hzero hext
              (fun d hd => by rw [hhigh d hd, htabs₂]) fun u hu => by rw [hpte₃ u hu, hpte₂ u hu]
          rw [if_neg (by decide), next_page v (by omega)]
          refine (ih h₃ hg₃ (fun y hy => by rw [h₂.frame hext (hheld y hy), hout₂ y hy]) (by omega)
            (by omega) (by omega)).mono ?_ fun _ => id
          rintro r s₄ ⟨hframe₄, h₄, hres⟩
          cases r with
          | true => exact ⟨hframe₄, h₄, hres⟩
          | false => exact ⟨hframe₄, h₄, hres.1, fun h₀ => hres.2 (hext.willing (hw h₀))⟩
        · have hg₃ : Grown s s₃ pgdir (npages oldsz) v :=
            hg.carry (by omega) (fun u hu => by rw [hpte₃ u hu, hpte₂ u hu])
              (fun u hu y hy => h.user_mem hfree₂ hmem₂ hext hu hy)
              fun d hd => by rw [hhigh d hd, htabs₂]
          rw [if_pos (by decide)]
          simp only [wp_bind]
          refine (wp_rollback hnew hempty h₃ hg₃ hsz hhi).mono ?_ fun _ => id
          rintro _ s₄ ⟨h₄, hkept, hout₄⟩
          have hx : KPage L x := h₄.page x (h₄.mem.mpr (.inr (.inr (by simp))))
          rw [wp_kfree hx]
          refine ⟨fun y hy => ?_, h₄.give.1, hkept.give h₄ hle, fun h₀ htop => ?_⟩
          swap
          · have hshort := h₃.short (m := npages newsz) (hfull (hw h₀)) fun u hu hge => by
              rw [hg₃.old u (by omega) (by omega), htop u hu hge]
            rw [Multiset.card_add, Multiset.card_singleton] at hshort
            omega
          have hyx : y ≠ x := fun he => (h.outside hy).1 (by simp [hfree, he])
          have hgive : (s₄.give x).mem y = s₄.mem y := mem_fill_of_ne s₄ hyx
          rw [hgive, hout₄ y (hheld y hy), h₂.frame hext (hheld y hy), hout₂ y hy]
    · rw [if_neg (mt lt_npages.mp hv)]
      have heq : v = npages newsz := by omega
      exact ⟨hframe, h, heq ▸ hg⟩

/-- Pages of zeroes up to the new size, or nothing and 0. -/
theorem wp_allocuvm (h : Space L s pgdir held R) (hold : oldsz ≤ newsz) :
    wp (allocuvm L pgdir oldsz newsz) (fun r s' =>
      (∀ x, x ∉ R ∨ x ∈ held → s'.mem x = s.mem x) ∧ Space L s' pgdir held R ∧
      (r = newsz ∧ Grown s s' pgdir (npages oldsz) (npages newsz) ∨
        r = 0 ∧ Kept s s' pgdir (npages oldsz) (npages newsz) ∧ (s.Willing →
          (∀ u < 2 ^ 19, npages newsz ≤ u → pte s pgdir u % 2 = 0) →
          R.card ≤ held.card + 1026 + npages newsz))) (fun _ => False) s := by
  have hmono : npages oldsz ≤ npages newsz := by
    rw [npages, npages, PGSIZE]
    omega
  have hle := npages_le hnew.le
  rw [allocuvm, if_neg (by omega), if_neg (by omega), wp_bind, PGROUNDUP_eq (by omega)]
  refine (wp_allocLoop hnew hempty h (Grown.refl s pgdir _) (fun _ _ => rfl) hold (le_refl _) hmono
    (by rw [rounds]; omega)).mono ?_ fun _ => id
  rintro r s' ⟨hframe, h', hres⟩
  cases r with
  | true => exact ⟨hframe, h', .inl ⟨rfl, hres⟩⟩
  | false => exact ⟨hframe, h', .inr ⟨rfl, hres⟩⟩

end Alloc

/-! ### What is seen of the user part -/

theorem view_eq_none (h : pte s pgdir u % 2 = 0) : view s pgdir u = none := by
  rw [view, link_of_even h, Option.map_none]

theorem view_isSome : (view s pgdir u).isSome ↔ (link (pte s pgdir u)).isSome := by
  rw [view, Option.isSome_map]

/-- A page with the same entry and the same contents. -/
theorem view_congr (hpte : pte s' pgdir u = pte s pgdir u)
    (hmem : ∀ x, link (pte s pgdir u) = some x → s'.mem x = s.mem x) :
    view s' pgdir u = view s pgdir u := by
  rw [view, view, hpte]
  cases hx : link (pte s pgdir u) with
  | none => rfl
  | some x => rw [Option.map_some, Option.map_some, hmem x hx]

theorem Grown.view_old (hg : Grown s s' pgdir lo hi) (hu : u < 2 ^ 19) (hno : ¬(lo ≤ u ∧ u < hi)) :
    view s' pgdir u = view s pgdir u :=
  view_congr (hg.old u (by omega) hno) fun x hx => hg.user u hu x hx

theorem Grown.view_new (hg : Grown s s' pgdir lo hi) (hu : lo ≤ u) (hu' : u < hi) :
    ∃ w, PTE_FLAGS w = PTE_W ||| PTE_U ||| PTE_P ∧ view s' pgdir u = some (w, fun _ => 0) := by
  obtain ⟨x, hx, hflags, hzero⟩ := hg.new u hu hu'
  exact ⟨_, hflags, by rw [view, hx, Option.map_some, hzero]⟩

theorem Kept.view_eq (hk : Kept s s' pgdir lo hi) (hu : u < 2 ^ 19) :
    view s' pgdir u = view s pgdir u := by
  by_cases hin : lo ≤ u ∧ u < hi
  · rw [view_eq_none (hk.none u hin.1 hin.2), view_eq_none (hk.empty u hin.1 hin.2)]
  · exact view_congr (hk.old u (by omega) hin) fun x hx => hk.user u hu x hx

theorem Freed.view_old (h : Space L s pgdir held R) (hf : Freed s s' pgdir lo hi)
    (hhi : hi ≤ 2 ^ 19) (hu : u < 2 ^ 19) (hno : ¬(lo ≤ u ∧ u < hi)) :
    view s' pgdir u = view s pgdir u := by
  refine view_congr ?_ fun x hx => ?_
  · rw [hf.pte u (by omega), if_neg fun hin => hno ⟨hin.1, hin.2.1⟩]
  · have hout := (h.user hu hx).2.1
    refine hf.frame x (fun ht => hout (Multiset.mem_add.mpr (.inr ht))) fun w hw hw' he => ?_
    have huw : u = w := h.user_inj hu (by omega) hx he
    omega

theorem Freed.view_new (hf : Freed s s' pgdir lo hi) (hu : lo ≤ u) (hu' : u < hi)
    (hhi : hi ≤ 2 ^ 19) : view s' pgdir u = none := by
  refine view_eq_none ?_
  rw [hf.pte u (by omega)]
  split_ifs <;> omega

end Grow

/-! ### growproc -/

/-- A process whose pages are those below its size. -/
structure UserSpace (L : Layout) (s : State) (p : Proc) (R : Finset ℕ) : Prop where
  space : Space L s p.pgdir 0 R
  kstack : p.kstack ≠ 0
  sz_lt : p.sz < KERNBASE
  mapped : ∀ u < 2 ^ 19, (view s p.pgdir u).isSome ↔ u < npages p.sz

/-- The size is `n` more, with pages of zeroes for what is new. -/
structure Resized (s s' : State) (p p' : Proc) (n : ℤ) : Prop where
  sz : (p'.sz : ℤ) = p.sz + n
  pgdir : p'.pgdir = p.pgdir
  mapped : ∀ u < 2 ^ 19, (view s' p.pgdir u).isSome ↔ u < npages p'.sz
  old : ∀ u < 2 ^ 19, u < npages p.sz → u < npages p'.sz → view s' p.pgdir u = view s p.pgdir u
  new : ∀ u < 2 ^ 19, npages p.sz ≤ u → u < npages p'.sz →
    ∃ w, PTE_FLAGS w = PTE_W ||| PTE_U ||| PTE_P ∧ view s' p.pgdir u = some (w, fun _ => 0)

/-- `growproc(n)` is exact or has no effect. -/
def GrowsExactly (L : Layout) (s : State) (p : Proc) (n : ℤ) : Prop :=
  wp (growproc L p n) (fun r s' =>
    (r.1 = 0 ∧ Resized s s' p r.2 n ∨
      r.1 = -1 ∧ r.2 = p ∧ ∀ u < 2 ^ 19, view s' p.pgdir u = view s p.pgdir u) ∧
    (p.sz + n < 0 ∨ KERNBASE ≤ p.sz + n → r.1 = -1)) (fun _ => False) s

/-- What `growproc(n)` can do. A size below 0 is taken for a large one, and the call succeeds; a
size of 0 is taken for a failure, when the pages are gone. -/
inductive GrowCase (s : State) (p : Proc) (n : ℤ) (R : Finset ℕ) : ℤ × Proc → State → Prop
  | exact {s' : State} {p' : Proc} (hn : 0 ≤ n ∨ 0 < p.sz + n) (hlt : p.sz + n < KERNBASE)
      (hr : Resized s s' p p' n) (hk : p'.kstack = p.kstack) : GrowCase s p n R (0, p') s'
  | refused {s' : State} (hview : ∀ u < 2 ^ 19, view s' p.pgdir u = view s p.pgdir u)
      (hwhy : n < 0 ∧ p.sz = 0 ∨ KERNBASE ≤ p.sz + n ∨
        0 < n ∧ (s.Willing → R.card ≤ 1026 + npages (p.sz + n).toNat)) :
      GrowCase s p n R (-1, p) s'
  | below (hpos : 0 < p.sz) (hneg : p.sz + n < 0) : GrowCase s p n R (0, p) s
  | emptied {s' : State} (hpos : 0 < p.sz) (hzero : p.sz + n = 0)
      (hnone : view s' p.pgdir 0 = none) : GrowCase s p n R (-1, p) s'

section Growproc

variable {L : Layout} {s s' : State} {p : Proc} {R : Finset ℕ} {n : ℤ}

theorem wp_resize (h : UserSpace L s p R) {sz : ℕ} {Q : ℤ × Proc → State → Prop}
    {H : Panic → Prop} : wp (resize p sz) Q H s' = Q (0, { p with sz := sz }) s' := by
  simp only [resize, switchuvm, wp_bind]
  rw [if_neg h.kstack, if_neg h.space.tree.dir_page.ne_zero]
  rfl

/-- There is nothing at and above the size. -/
theorem UserSpace.empty (h : UserSpace L s p R) {u : ℕ} (hu : u < 2 ^ 19) (hle : npages p.sz ≤ u) :
    pte s p.pgdir u % 2 = 0 := by
  by_contra hodd
  have hsome : (view s p.pgdir u).isSome := by
    rw [view_isSome, link_of_odd (by omega)]
    rfl
  have hlt := (h.mapped u hu).mp hsome
  omega

theorem npages_mono {a b : ℕ} (h : a ≤ b) : npages a ≤ npages b := by
  rw [npages, npages, PGSIZE]
  omega

/-- The process gets larger. -/
theorem UserSpace.grown (h : UserSpace L s p R) {newsz : ℕ} (hnew : (newsz : ℤ) = p.sz + n)
    (hle : p.sz ≤ newsz) (hg : Grown s s' p.pgdir (npages p.sz) (npages newsz)) :
    Resized s s' p { p with sz := newsz } n := by
  have hmono := npages_mono hle
  refine ⟨hnew, rfl, fun u hu => ?_, fun u hu hlt _ => hg.view_old hu (by omega),
    fun u _ hge hlt => hg.view_new hge hlt⟩
  by_cases hin : npages p.sz ≤ u ∧ u < npages newsz
  · obtain ⟨w, -, hw⟩ := hg.view_new hin.1 hin.2
    rw [hw]
    exact ⟨fun _ => hin.2, fun _ => rfl⟩
  · rw [hg.view_old hu hin, h.mapped u hu]
    simp only
    omega

/-- The process gets smaller. -/
theorem UserSpace.freed (h : UserSpace L s p R) {newsz : ℕ} (hnew : (newsz : ℤ) = p.sz + n)
    (hlt : newsz < p.sz) (hf : Freed s s' p.pgdir (npages newsz) (npages p.sz)) :
    Resized s s' p { p with sz := newsz } n := by
  have hle := npages_le h.sz_lt.le
  have hmono := npages_mono hlt.le
  refine ⟨hnew, rfl, fun u hu => ?_, fun u hu _ hlt => ?_, fun u hu hge hlt => ?_⟩
  · by_cases hin : npages newsz ≤ u ∧ u < npages p.sz
    · rw [hf.view_new hin.1 hin.2 hle]
      simp only [Option.isSome_none, Bool.false_eq_true, false_iff]
      omega
    · rw [hf.view_old h.space hle hu hin, h.mapped u hu]
      simp only
      omega
  · exact hf.view_old h.space hle hu fun hin => absurd hlt (not_lt.mpr hin.1)
  · simp only at hlt
    omega

theorem wp_growproc (h : UserSpace L s p R) (hmin : -2 ^ 31 ≤ n) (hmax : n < 2 ^ 31) :
    wp (growproc L p n) (fun r s' => Space L s' p.pgdir 0 R ∧ (∀ x ∉ R, s'.mem x = s.mem x) ∧
      GrowCase s p n R r s') (fun _ => False) s := by
  have hsz := h.sz_lt
  have hbase : KERNBASE = 2 ^ 31 := rfl
  obtain ⟨newsz, hsum⟩ : ∃ newsz, ((p.sz + n) % 2 ^ 32).toNat = newsz := ⟨_, rfl⟩
  simp only [growproc, hsum]
  rcases lt_trichotomy n 0 with hneg | rfl | hpos
  · rw [if_neg (by omega), if_pos hneg, wp_bind]
    by_cases hge : p.sz ≤ newsz
    · rw [deallocuvm, if_pos hge, wp_pure]
      split
      · next h0 => exact ⟨h.space, fun _ _ => rfl, .refused (fun _ _ => rfl) (.inl ⟨hneg, h0⟩)⟩
      · rw [wp_resize h]
        exact ⟨h.space, fun _ _ => rfl, .below (by omega) (by omega)⟩
    · have hle := npages_le hsz.le
      refine (wp_deallocuvm h.space hsz.le (not_le.mp hge)).mono ?_ fun _ => id
      rintro r s' ⟨rfl, h', hf⟩
      have hframe : ∀ x ∉ R, s'.mem x = s.mem x := fun x hx =>
        h.space.freed_frame hf hle (.inl hx)
      split
      · next h0 =>
        have hnone := hf.view_new (u := 0) (by rw [h0]; rfl) (lt_npages.mp (by omega)) hle
        exact ⟨h', hframe, .emptied (by omega) (by omega) hnone⟩
      · rw [wp_resize h]
        have hr := h.freed (n := n) (by omega) (not_le.mp hge) hf
        exact ⟨h', hframe, .exact (.inr (by omega)) (by omega) hr rfl⟩
  · rw [if_neg (lt_irrefl 0), if_neg (lt_irrefl 0), wp_resize h]
    have hr : Resized s s p p 0 := ⟨by simp, rfl, h.mapped, fun _ _ _ _ => rfl,
      fun u _ hge hlt => absurd hlt (not_lt.mpr hge)⟩
    exact ⟨h.space, fun _ _ => rfl, .exact (.inl le_rfl) (by omega) hr rfl⟩
  · rw [if_pos hpos, wp_bind]
    by_cases hbig : KERNBASE ≤ newsz
    · rw [allocuvm, if_pos hbig, wp_pure, if_pos rfl]
      exact ⟨h.space, fun _ _ => rfl, .refused (fun _ _ => rfl) (.inr (.inl (by omega)))⟩
    · have hle : npages newsz ≤ 2 ^ 19 := npages_le (by omega)
      have hnew : (newsz : ℤ) = p.sz + n := by omega
      refine (wp_allocuvm (by omega) (fun u hu hu' => h.empty (by omega) hu) h.space
        (by omega)).mono ?_ fun _ => id
      rintro r s' ⟨hframe, h', ⟨rfl, hg⟩ | ⟨rfl, hk, hshort⟩⟩
      · rw [if_neg (by omega), wp_resize h]
        have hr := h.grown hnew (by omega) hg
        exact ⟨h', fun x hx => hframe x (.inl hx), .exact (.inl hpos.le) (by omega) hr rfl⟩
      · rw [if_pos rfl]
        refine ⟨h', fun x hx => hframe x (.inl hx), .refused (fun u hu => hk.view_eq hu)
          (.inr (.inr ⟨hpos, fun hw => ?_⟩))⟩
        have hcard := hshort hw fun u hu hge => h.empty hu ((npages_mono (by omega)).trans hge)
        rw [Multiset.card_zero, zero_add] at hcard
        rwa [← hnew, Int.toNat_natCast]

theorem not_growsExactly (h : UserSpace L s p R) (hmin : -2 ^ 31 ≤ n) (hpos : 0 < p.sz)
    (hle : p.sz + n ≤ 0) : ¬GrowsExactly L s p n := by
  intro hexact
  obtain ⟨r, s', -, ⟨hres, hfail⟩, -, -, hcase⟩ := exists_of_wp
    ((hexact.and (wp_growproc h hmin (by omega))).mono (fun _ _ => id) fun _ => And.left)
  cases hcase with
  | exact hn => omega
  | refused _ hwhy =>
    have hbase : KERNBASE = 2 ^ 31 := rfl
    omega
  | below _ hneg => cases hfail (.inl hneg)
  | emptied _ _ hnone =>
    have hsome : (view s p.pgdir 0).isSome :=
      (h.mapped 0 (by decide)).mpr (lt_npages.mp (by omega))
    rcases hres with ⟨h0, -⟩ | ⟨-, -, hsame⟩
    · cases h0
    · rw [← hsame 0 (by decide), hnone] at hsome
      cases hsome

/-- `growproc` is exact or has no effect if and only if the process does not shrink, stays
larger than nothing, or is nothing already. -/
theorem growproc_exact_iff (h : UserSpace L s p R) (hmin : -2 ^ 31 ≤ n) (hmax : n < 2 ^ 31) :
    GrowsExactly L s p n ↔ 0 ≤ n ∨ 0 < p.sz + n ∨ p.sz = 0 := by
  refine ⟨fun hexact => by_contra fun hno =>
    not_growsExactly h hmin (by omega) (by omega) hexact, fun hn => ?_⟩
  refine (wp_growproc h hmin hmax).mono ?_ fun _ => id
  rintro r s' ⟨-, -, hcase⟩
  cases hcase with
  | exact _ hlt hr =>
    have hsz := hr.sz
    exact ⟨.inl ⟨rfl, hr⟩, fun hout => by omega⟩
  | refused hview => exact ⟨.inr ⟨rfl, rfl, hview⟩, fun _ => rfl⟩
  | below => omega
  | emptied => omega

end Growproc

/-! ### A process of one page -/

def smallLayout : Layout where
  data := 0x80101000
  stop := 0x80102000
  data_aligned := by decide
  data_gt := by decide
  data_le := by decide
  stop_lt := by decide

/-- A directory without entries, a free page for a table, and a page in hand. -/
def smallStart : State := ⟨fun _ _ => 0, [0x80201000], fun _ => false⟩

/-- The page in hand is mapped at 0. -/
def smallMap : Option (ℤ × State) :=
  ((mappages 0x80200000 (PGSIZE * 0) PGSIZE (V2P 0x80202000) (PTE_W ||| PTE_U)).run
    (smallStart.fill 0x80200000 0)).toOption

def smallState : State := (smallMap.getD (0, smallStart)).2

def smallProc : Proc := ⟨PGSIZE, 0x80200000, 0x80203000⟩

def smallPages : Finset ℕ := {0x80200000, 0x80201000, 0x80202000}

theorem smallStart_free :
    Free smallLayout smallStart ({0x80200000} + ({0x80202000} + 0)) smallPages where
  sum := by decide
  page x hx := by
    simp only [smallPages, Finset.mem_insert, Finset.mem_singleton] at hx
    rcases hx with rfl | rfl | rfl <;> exact ⟨by decide, by decide, by decide⟩

theorem smallProc_space : UserSpace smallLayout smallState smallProc smallPages := by
  obtain ⟨hspace, -, hzero⟩ := smallStart_free.newDir
  have heven : pte (smallStart.fill 0x80200000 0) 0x80200000 0 % 2 = 0 := by rw [hzero]
  obtain ⟨r, s', hrun, -, -, hres⟩ := exists_of_wp (hspace.mapUser (v := 0) (by decide)
    (show PTE_W ||| PTE_U < PGSIZE by decide) heven)
  have hr : smallMap.map (·.1) = some 0 := by decide +kernel
  have hs : smallState = s' := by rw [smallState, smallMap, hrun]; rfl
  rw [smallMap, hrun] at hr
  rcases hres with ⟨-, h', hpte⟩ | ⟨hneg, -⟩
  · rw [hs]
    refine ⟨h', by decide, by decide, fun u hu => ?_⟩
    rw [view_isSome]
    change (link (pte s' 0x80200000 u)).isSome ↔ u < 1
    rw [hpte u (by omega), hzero]
    by_cases hu0 : u = 0
    · rw [if_pos hu0, link_of_odd (mkpte_odd _ _)]
      simp [hu0]
    · rw [if_neg hu0, link_of_even rfl]
      simp [hu0]
  · have hr : r = 0 := Option.some.inj hr
    omega

/-! ### Free pages beside it -/

def roomyPage (k : ℕ) : ℕ := 0x80204000 + PGSIZE * k

theorem roomyPage_injective : Injective roomyPage := by
  intro i j h
  rw [roomyPage, roomyPage, PGSIZE] at h
  omega

def roomyPages (n : ℕ) : Finset ℕ := (Finset.range n).map ⟨roomyPage, roomyPage_injective⟩

theorem card_roomyPages (n : ℕ) : (roomyPages n).card = n := by
  rw [roomyPages, Finset.card_map, Finset.card_range]

theorem roomy_page {n x : ℕ} (hn : n ≤ 50000) (hx : x ∈ roomyPages n) : KPage smallLayout x := by
  obtain ⟨k, hk, rfl⟩ := Finset.mem_map.mp hx
  have hlt := Finset.mem_range.mp hk
  refine ⟨?_, ?_, ?_⟩ <;> simp only [Embedding.coeFn_mk, roomyPage, smallLayout, PGSIZE, KERNBASE,
    PHYSTOP] <;> omega

theorem smallPages_disjoint (n : ℕ) :
    Disjoint (insert smallProc.kstack smallPages) (roomyPages n) := by
  refine Finset.disjoint_left.mpr fun x hx hr => ?_
  obtain ⟨k, -, rfl⟩ := Finset.mem_map.mp hr
  simp only [smallPages, smallProc, Finset.mem_insert, Finset.mem_singleton, Embedding.coeFn_mk,
    roomyPage] at hx
  omega

/-- The process of one page, and `n` free pages. -/
def smallRoomy (n : ℕ) : State := { smallState with freelist := (List.range n).map roomyPage }

theorem smallRoomy_pte (n u : ℕ) :
    pte (smallRoomy n) smallProc.pgdir u = pte smallState smallProc.pgdir u :=
  pte_congr rfl fun _ _ => rfl

theorem smallRoomy_pages (n : ℕ) :
    tables (smallRoomy n) smallProc.pgdir = tables smallState smallProc.pgdir ∧
      users (smallRoomy n) smallProc.pgdir = users smallState smallProc.pgdir := by
  have htab : tab (smallRoomy n) smallProc.pgdir = tab smallState smallProc.pgdir := tab_congr rfl
  exact ⟨by rw [tables, tables, htab], shares_congr fun u _ => by rw [smallRoomy_pte]⟩

theorem smallRoomy_space {n : ℕ} (hn : n ≤ 50000) :
    UserSpace smallLayout (smallRoomy n) smallProc (smallPages.disjUnion (roomyPages n)
      (Finset.disjoint_of_subset_left (Finset.subset_insert _ _) (smallPages_disjoint n))) := by
  have h := smallProc_space
  have hnil : smallState.freelist = [] := by decide +kernel
  have hsum := h.space.sum
  obtain ⟨htables, husers⟩ := smallRoomy_pages n
  refine ⟨⟨?_, fun x hx => ?_⟩, h.kstack, h.sz_lt, fun u hu => ?_⟩
  · rw [hnil, Multiset.coe_nil, zero_add] at hsum
    rw [htables, husers, Finset.disjUnion_val, ← hsum]
    have hroomy : ((smallRoomy n).freelist : Multiset ℕ) = (roomyPages n).val := rfl
    rw [hroomy]
    ac_rfl
  · rcases Finset.mem_disjUnion.mp hx with hx | hx
    · exact h.space.page x hx
    · exact roomy_page hn hx
  · rw [view_isSome, smallRoomy_pte, ← view_isSome]
    exact h.mapped u hu

/-- The process grows by one byte, for which it gets the page that is free. -/
theorem growproc_exact_iff_small : GrowsExactly smallLayout (smallRoomy 1) smallProc 1 ∧
    ((growproc smallLayout smallProc 1).run (smallRoomy 1)).toOption.map
      (fun r => (r.1.1, link (pte r.2 smallProc.pgdir 1))) = some (0, some 0x80204000) :=
  ⟨(growproc_exact_iff (smallRoomy_space (by decide)) (by decide) (by decide)).mpr
    (.inl (by decide)), by decide +kernel⟩

/-- Two pages less than one page. -/
theorem growproc_below_zero : UserSpace smallLayout smallState smallProc smallPages ∧
    ¬GrowsExactly smallLayout smallState smallProc (-8192) :=
  ⟨smallProc_space, not_growsExactly smallProc_space (by decide) (by decide) (by decide)⟩

end Xv6.Vm
