import Xv6.Lib.Shares
import Xv6.Vm.Paging

/-!
# A page directory and its tables

What a page directory maps is a function from the numbers of the virtual pages to entries. The
pages that it takes up are itself, its tables, and the pages that its entries in the user part
refer to. Making an entry takes at most one page from the free list, for a table.
-/

namespace Xv6.Vm

open Bytes Function

/-! ### Entries -/

theorem and_PTE_P (w : ℕ) : w &&& PTE_P ≠ 0 ↔ w % 2 = 1 := by
  rw [PTE_P, Nat.and_one_is_mod]
  omega

/-- The entry that `mappages` makes. -/
def mkpte (pa perm : ℕ) : ℕ := pa ||| perm ||| PTE_P

theorem mkpte_odd (pa perm : ℕ) : mkpte pa perm % 2 = 1 := by
  rw [← and_PTE_P, mkpte, Nat.and_or_distrib_right]
  simp [PTE_P]

section Mkpte

variable {pa perm : ℕ} (hpa : pa % PGSIZE = 0) (hperm : perm < PGSIZE)

theorem perm_or_lt (hperm : perm < PGSIZE) : perm ||| PTE_P < PGSIZE :=
  Nat.or_lt_two_pow (n := 12) hperm (by decide)

include hpa hperm

theorem mkpte_eq : mkpte pa perm = pa + (perm ||| PTE_P) := by
  have hlt := perm_or_lt hperm
  rw [PGSIZE] at hpa hlt
  have hmul : pa = 2 ^ 12 * (pa / 4096) := by omega
  rw [mkpte, Nat.lor_assoc]
  nth_rewrite 1 [hmul]
  nth_rewrite 2 [hmul]
  exact (Nat.two_pow_add_eq_or_of_lt hlt _).symm

theorem PTE_ADDR_mkpte : PTE_ADDR (mkpte pa perm) = pa := by
  have hlt := perm_or_lt hperm
  rw [PGSIZE] at hpa hlt
  rw [mkpte_eq hpa hperm, PTE_ADDR]
  omega

theorem PTE_FLAGS_mkpte : PTE_FLAGS (mkpte pa perm) = perm ||| PTE_P := by
  have hlt := perm_or_lt hperm
  rw [PGSIZE] at hpa hlt
  rw [mkpte_eq hpa hperm, PTE_FLAGS]
  omega

theorem mkpte_lt (hlt : pa < 2 ^ 32) : mkpte pa perm < 2 ^ 32 := by
  have hor := perm_or_lt hperm
  rw [PGSIZE] at hpa hor
  rw [mkpte_eq hpa hperm]
  omega

end Mkpte

/-- A page that `kfree` accepts. -/
structure KPage (L : Layout) (x : ℕ) : Prop where
  aligned : x % PGSIZE = 0
  above : L.stop ≤ x
  below : x < KERNBASE + PHYSTOP

section KPage

variable {L : Layout} {x : ℕ}

section

variable (h : KPage L x)
include h

theorem KPage.bounds : x % 4096 = 0 ∧ 0x80100000 < x ∧ x < 0x8E000000 := by
  have h1 := L.data_gt
  have h2 := L.data_le
  obtain ⟨h3, h4, h5⟩ := h
  rw [KERNLINK, KERNBASE, EXTMEM] at h1
  rw [KERNBASE, PHYSTOP] at h5
  rw [PGSIZE] at h3
  omega

theorem KPage.V2P_eq : V2P x = x - 0x80000000 := by
  have hb := h.bounds
  rw [V2P, KERNBASE]
  omega

theorem KPage.P2V_V2P : P2V (V2P x) = x := by
  have hb := h.bounds
  rw [h.V2P_eq, P2V, KERNBASE]
  omega

theorem KPage.V2P_aligned : V2P x % PGSIZE = 0 := by
  have hb := h.bounds
  rw [h.V2P_eq, PGSIZE]
  omega

theorem KPage.V2P_lt : V2P x < PHYSTOP := by
  have hb := h.bounds
  rw [h.V2P_eq, PHYSTOP]
  omega

theorem KPage.ne_zero : x ≠ 0 := by
  have hb := h.bounds
  omega

/-- `kfree` accepts it. -/
theorem wp_kfree {Q : Unit → State → Prop} {H : Panic → Prop} {s : State} :
    wp (kfree L x) Q H s = Q () (s.give x) := by
  have hno : ¬(x % PGSIZE ≠ 0 ∨ x < L.stop ∨ PHYSTOP ≤ V2P x) := by
    have h1 := h.aligned
    have h2 := h.above
    have h3 := h.V2P_lt
    omega
  rw [kfree, if_neg hno, wp_modify]

end

end KPage

/-! ### Memory -/

section Memory

variable (s : State) {pg pg' i j w : ℕ} {b : UInt8}

theorem entry_setEntry_self (hw : w < 2 ^ 32) : (s.setEntry pg i w).entry pg i = w := by
  simp only [State.setEntry, State.write, State.entry, update_self]
  exact word_blit_le hw

theorem entry_setEntry_of_ne (h : i ≠ j) : (s.setEntry pg i w).entry pg j = s.entry pg j := by
  simp only [State.setEntry, State.write, State.entry, update_self]
  exact word_blit_of_disjoint (by rw [length_le]; omega)

theorem mem_setEntry_of_ne (h : pg' ≠ pg) : (s.setEntry pg i w).mem pg' = s.mem pg' := by
  simp [State.setEntry, State.write, h]

theorem mem_fill_of_ne (h : pg' ≠ pg) : (s.fill pg b).mem pg' = s.mem pg' := by
  simp [State.fill, h]

theorem mem_copy_self : (s.copy pg pg').mem pg = s.mem pg' := update_self ..

theorem mem_copy_of_ne {src : ℕ} (h : pg' ≠ pg) : (s.copy pg src).mem pg' = s.mem pg' :=
  update_of_ne h ..

theorem entry_fill_zero : (s.fill pg 0).entry pg i = 0 := by
  simp [State.fill, State.entry, word, slice, ofLE, List.range_succ]

variable {s}

theorem entry_congr {s' : State} (h : s'.mem pg = s.mem pg) : s'.entry pg = s.entry pg := by
  funext i
  rw [State.entry, h, State.entry]

end Memory

/-! ### Directories -/

def tables (s : State) (pgdir : ℕ) : Multiset ℕ := shares 1024 (tab s pgdir)

def users (s : State) (pgdir : ℕ) : Multiset ℕ := shares (2 ^ 19) fun v => link (pte s pgdir v)

/-- The pages of the directory and the free pages are all different, and known to `kfree`. -/
structure Tree (L : Layout) (s : State) (pgdir : ℕ) : Prop where
  nodup : (↑s.freelist + {pgdir} + tables s pgdir : Multiset ℕ).Nodup
  page : ∀ x ∈ (↑s.freelist + {pgdir} + tables s pgdir : Multiset ℕ), KPage L x

section Directory

variable {L : Layout} {s s' : State} {pgdir d d' t v w x : ℕ} {H : Panic → Prop}

theorem link_of_even (h : w % 2 = 0) : link w = none :=
  if_neg fun hp => by
    have hodd := (and_PTE_P w).mp hp
    omega

theorem link_of_odd (h : w % 2 = 1) : link w = some (P2V (PTE_ADDR w)) :=
  if_pos ((and_PTE_P w).mpr h)

theorem link_mkpte {perm : ℕ} (hx : KPage L x) (hperm : perm < PGSIZE) :
    link (mkpte (V2P x) perm) = some x := by
  rw [link_of_odd (mkpte_odd _ _), PTE_ADDR_mkpte hx.V2P_aligned hperm, hx.P2V_V2P]

namespace Tree

variable (h : Tree L s pgdir)
include h

theorem dir_page : KPage L pgdir := h.page pgdir (by simp)

theorem free_page (hx : x ∈ s.freelist) : KPage L x := h.page x (by simp [hx])

theorem tab_page (hd : d < 1024) (ht : tab s pgdir d = some t) : KPage L t :=
  h.page t (Multiset.mem_add.mpr (.inr (mem_shares.mpr ⟨d, hd, ht⟩)))

theorem tab_ne_dir (hd : d < 1024) (ht : tab s pgdir d = some t) : t ≠ pgdir := by
  rintro rfl
  have hnodup := (Multiset.nodup_add.mp h.nodup).2.2
  exact Multiset.disjoint_left.mp hnodup (by simp) (mem_shares.mpr ⟨d, hd, ht⟩)

theorem tab_inj (hd : d < 1024) (hd' : d' < 1024) (ht : tab s pgdir d = some t)
    (ht' : tab s pgdir d' = some t) : d = d' :=
  shares_inj (Multiset.nodup_add.mp h.nodup).2.1 hd hd' ht ht'

theorem free_ne (hx : x ∈ s.freelist) : x ≠ pgdir ∧ ∀ d < 1024, tab s pgdir d ≠ some x := by
  have hnodup := h.nodup
  constructor
  · rintro rfl
    have hleft := (Multiset.nodup_add.mp (Multiset.nodup_add.mp hnodup).1).2.2
    exact Multiset.disjoint_left.mp hleft (Multiset.mem_coe.mpr hx) (by simp)
  · intro d hd ht
    exact Multiset.disjoint_left.mp (Multiset.nodup_add.mp hnodup).2.2 (by simp [hx])
      (mem_shares.mpr ⟨d, hd, ht⟩)

end Tree

/-- Only the directory and its tables count. -/
theorem tab_congr (h : s'.mem pgdir = s.mem pgdir) : tab s' pgdir = tab s pgdir := by
  funext d
  rw [tab, entry_congr h, tab]

theorem pte_congr (h : s'.mem pgdir = s.mem pgdir)
    (ht : ∀ t, tab s pgdir (v / 1024) = some t → s'.mem t = s.mem t) :
    pte s' pgdir v = pte s pgdir v := by
  rw [pte, pte, tab_congr h]
  cases hd : tab s pgdir (v / 1024) with
  | none => rfl
  | some t => simp only [entry_congr (ht t hd)]

/-- An entry is written. -/
theorem pte_setEntry (hne : t ≠ pgdir) (hinj : ∀ d < 1024, tab s pgdir d = some t → d = v / 1024)
    (ht : tab s pgdir (v / 1024) = some t) (hw : w < 2 ^ 32) {u : ℕ} (hu : u < 2 ^ 20) :
    pte (s.setEntry t (v % 1024) w) pgdir u = if u = v then w else pte s pgdir u := by
  have hdir : (s.setEntry t (v % 1024) w).mem pgdir = s.mem pgdir :=
    mem_setEntry_of_ne s hne.symm
  split
  · next heq =>
    rw [heq, pte, tab_congr hdir, ht]
    exact entry_setEntry_self s hw
  · next hne =>
    by_cases hd : u / 1024 = v / 1024
    · have hi : v % 1024 ≠ u % 1024 := by omega
      rw [pte, pte, tab_congr hdir, hd, ht]
      exact entry_setEntry_of_ne s hi
    · refine pte_congr hdir fun t' ht' => mem_setEntry_of_ne s ?_
      rintro rfl
      exact hd (hinj _ (by omega) ht')

/-- No call of `kalloc` is refused while there are free pages. -/
def State.Willing (s : State) : Prop := ∀ k, s.refuse k = false

/-- Making entries may take free pages for tables, and writes to the directory and its tables. -/
structure Ext (s s' : State) (pgdir : ℕ) : Prop where
  sum : (↑s'.freelist + tables s' pgdir : Multiset ℕ) = ↑s.freelist + tables s pgdir
  frame : ∀ x ≠ pgdir, x ∉ (↑s.freelist + tables s pgdir : Multiset ℕ) → s'.mem x = s.mem x
  tab_mono : ∀ d < 1024, ∀ t, tab s pgdir d = some t → tab s' pgdir d = some t
  willing : s.Willing → s'.Willing

theorem Ext.refl (s : State) (pgdir : ℕ) : Ext s s pgdir :=
  ⟨rfl, fun _ _ _ => rfl, fun _ _ _ => id, id⟩

theorem Ext.trans {s₂ : State} (h : Ext s s' pgdir) (h' : Ext s' s₂ pgdir) : Ext s s₂ pgdir where
  sum := h'.sum.trans h.sum
  frame x hne hx := (h'.frame x hne (h.sum ▸ hx)).trans (h.frame x hne hx)
  tab_mono d hd t ht := h'.tab_mono d hd t (h.tab_mono d hd t ht)
  willing hw := h'.willing (h.willing hw)

theorem Tree.ext (h : Tree L s pgdir) (he : Ext s s' pgdir) : Tree L s' pgdir := by
  have heq : (↑s'.freelist + {pgdir} + tables s' pgdir : Multiset ℕ) =
      ↑s.freelist + {pgdir} + tables s pgdir := by
    rw [add_right_comm, he.sum, add_right_comm]
  exact ⟨heq ▸ h.nodup, heq ▸ h.page⟩

/-- The rest of the state is not looked at. -/
theorem Ext.of_mem (hfree : s'.freelist = s.freelist) (hmem : s'.mem = s.mem)
    (hw : s.Willing → s'.Willing) : Ext s s' pgdir := by
  have htab : tab s' pgdir = tab s pgdir := tab_congr (by rw [hmem])
  exact ⟨by rw [hfree, tables, tables, htab], fun x _ _ => by rw [hmem],
    fun d _ t ht => by rwa [htab], hw⟩

theorem tables_setEntry (h : Tree L s pgdir) (hd : d < 1024) (ht : tab s pgdir d = some t) (i : ℕ) :
    tables (s.setEntry t i w) pgdir = tables s pgdir := by
  rw [tables, tables, tab_congr (mem_setEntry_of_ne s (h.tab_ne_dir hd ht).symm)]

theorem Ext.setEntry (h : Tree L s pgdir) (hd : d < 1024) (ht : tab s pgdir d = some t) (i : ℕ) :
    Ext s (s.setEntry t i w) pgdir where
  sum := by rw [tables_setEntry h hd ht]; rfl
  frame x hne hx := mem_setEntry_of_ne s fun he => hx
    (Multiset.mem_add.mpr (.inr (mem_shares.mpr ⟨d, hd, he ▸ ht⟩)))
  tab_mono d' _ t' ht' := by rwa [tab_congr (mem_setEntry_of_ne s (h.tab_ne_dir hd ht).symm)]
  willing := id

/-! ### walkpgdir -/

theorem PDX_lt (va : ℕ) : PDX va < 1024 := Nat.mod_lt _ (by decide)

@[simp] theorem wp_walkpgdir_read {va : ℕ} {Q : Option (ℕ × ℕ) → State → Prop} :
    wp (walkpgdir pgdir va false) Q H s = Q ((tab s pgdir (PDX va)).map (·, PTX va)) s := by
  simp only [walkpgdir, wp_bind, wp_get, tab, link]
  split <;> rfl

/-- The first free page, unless the call is refused. -/
theorem wp_kalloc {Q : Option ℕ → State → Prop}
    (hnone : ∀ s', s'.mem = s.mem → s'.freelist = s.freelist → (s.Willing → s'.Willing) →
      (s.Willing → s'.freelist = []) → Q none s')
    (hsome : ∀ r s', s'.mem = s.mem → s.freelist = r :: s'.freelist → (s.Willing → s'.Willing) →
      Q (some r) s') : wp kalloc Q H s := by
  simp only [kalloc, wp_bind, wp_get]
  split
  · next r l _ hl => exact hsome r _ rfl hl fun hw k => hw (k + 1)
  · next hno =>
    refine hnone _ rfl rfl (fun hw k => hw (k + 1)) fun hw => ?_
    cases hl : s.freelist with
    | nil => rfl
    | cons r l => exact absurd hl (hno r l (hw 0))

/-- The state once the page `t` has become table `d`. -/
def State.addTable (s : State) (pgdir d t : ℕ) : State :=
  (s.fill t 0).setEntry pgdir d (V2P t ||| PTE_P ||| PTE_W ||| PTE_U)

theorem link_pde (ht : KPage L t) : link (V2P t ||| PTE_P ||| PTE_W ||| PTE_U) = some t := by
  have heq : V2P t ||| PTE_P ||| PTE_W ||| PTE_U = mkpte (V2P t) (PTE_W ||| PTE_U) := by
    rw [mkpte, Nat.lor_assoc, Nat.lor_assoc, Nat.lor_assoc]
    rfl
  rw [heq, link_mkpte ht (by decide)]

section AddTable

variable (h : Tree L s pgdir) (hfree : s.freelist = t :: s'.freelist) (hmem : s'.mem = s.mem)
include h hfree hmem

theorem tab_addTable (e : ℕ) :
    tab (s'.addTable pgdir d t) pgdir e = if e = d then some t else tab s pgdir e := by
  have ht : KPage L t := h.free_page (by simp [hfree])
  have hne : pgdir ≠ t := (h.free_ne (by simp [hfree])).1.symm
  have hlt : V2P t ||| PTE_P ||| PTE_W ||| PTE_U < 2 ^ 32 := by
    have hV : V2P t < 2 ^ 32 := Nat.mod_lt _ (by decide)
    exact Nat.or_lt_two_pow (Nat.or_lt_two_pow (Nat.or_lt_two_pow hV (by decide)) (by decide))
      (by decide)
  rw [tab, State.addTable]
  split
  · next heq =>
    rw [heq, entry_setEntry_self _ hlt, link_pde ht]
  · next hed =>
    rw [entry_setEntry_of_ne _ (Ne.symm hed), entry_congr (mem_fill_of_ne s' hne), tab, State.entry,
      hmem, State.entry]

/-- The new table is empty. -/
theorem pte_addTable (hnone : tab s pgdir d = none) {u : ℕ} (hu : u < 2 ^ 20) :
    pte (s'.addTable pgdir d t) pgdir u = pte s pgdir u := by
  have hfresh := h.free_ne (x := t) (by simp [hfree])
  rw [pte, pte, tab_addTable h hfree hmem]
  split
  · next t' ht' =>
    split at ht'
    · cases ht'
    · rw [ht']
  · next t' ht' =>
    split at ht'
    · next heq =>
      cases ht'
      rw [heq, hnone, State.addTable, entry_congr (mem_setEntry_of_ne _ hfresh.1), entry_fill_zero]
    · rw [ht']
      have htd : t' ≠ pgdir := h.tab_ne_dir (by omega) ht'
      have htt : t' ≠ t := fun he => hfresh.2 _ (by omega) (he ▸ ht')
      rw [State.addTable, entry_congr (mem_setEntry_of_ne _ htd),
        entry_congr (mem_fill_of_ne _ htt),
        State.entry, hmem]
      rfl

theorem Ext.addTable (hd : d < 1024) (hnone : tab s pgdir d = none) (hw : s.Willing → s'.Willing) :
    Ext s (s'.addTable pgdir d t) pgdir where
  sum := by
    have htables : tables (s'.addTable pgdir d t) pgdir = tables s pgdir + {t} :=
      shares_add hd hnone (by rw [tab_addTable h hfree hmem, if_pos rfl])
        fun e he hne => by rw [tab_addTable h hfree hmem, if_neg hne]
    rw [htables, hfree, ← Multiset.cons_coe, ← Multiset.singleton_add]
    change (↑s'.freelist + _ : Multiset ℕ) = _
    rw [← add_assoc, add_comm, ← add_assoc]
  frame x hne hx := by
    have hxt : x ≠ t := fun he => hx (by simp [hfree, he])
    rw [State.addTable, mem_setEntry_of_ne _ hne, mem_fill_of_ne _ hxt, hmem]
  tab_mono e he t' ht' := by
    rw [tab_addTable h hfree hmem, if_neg (fun heq => by
      rw [heq, hnone] at ht'
      cases ht')]
    exact ht'
  willing := hw

end AddTable

/-- The table for an address is found or made, or memory runs out. -/
theorem wp_walkpgdir (h : Tree L s pgdir) (va : ℕ) :
    wp (walkpgdir pgdir va true) (fun r s' => Ext s s' pgdir ∧
      (∀ d ≠ PDX va, tab s' pgdir d = tab s pgdir d) ∧
      (∀ u < 2 ^ 20, pte s' pgdir u = pte s pgdir u) ∧
      (∀ p, r = some p → p.2 = PTX va ∧ tab s' pgdir (PDX va) = some p.1) ∧
      (r = none → s.Willing → s'.freelist = [])) H s := by
  simp only [walkpgdir, wp_bind, wp_get]
  by_cases hp : s.entry pgdir (PDX va) &&& PTE_P ≠ 0
  · rw [if_pos hp]
    have hsome : tab s pgdir (PDX va) = some (P2V (PTE_ADDR (s.entry pgdir (PDX va)))) := if_pos hp
    refine ⟨Ext.refl s pgdir, fun _ _ => rfl, fun _ _ => rfl, fun p hr => ?_, by simp⟩
    rw [← Option.some.inj hr]
    exact ⟨rfl, hsome⟩
  · have hnone : tab s pgdir (PDX va) = none := if_neg hp
    rw [if_neg hp]
    simp only [Bool.not_true, Bool.false_eq_true, if_false, wp_bind]
    refine wp_kalloc (fun s' hmem hfree hw hnil => ?_) fun t s' hmem hfree hw => ?_
    · refine ⟨Ext.of_mem hfree hmem hw, fun d _ => congrFun (tab_congr (congrFun hmem pgdir)) d,
        fun u _ => pte_congr (by rw [hmem]) fun t _ => by rw [hmem], ?_, fun _ => hnil⟩
      rintro p ⟨⟩
    · have hd := PDX_lt va
      refine ⟨Ext.addTable h hfree hmem hd hnone hw, fun e he => ?_,
        fun u hu => pte_addTable h hfree hmem hnone hu, ?_, by simp⟩
      · exact (tab_addTable h hfree hmem e).trans (if_neg he)
      intro p hr
      rw [← Option.some.inj hr]
      exact ⟨rfl, (tab_addTable h hfree hmem _).trans (if_pos rfl)⟩

/-! ### mappages -/

/-- The entries once `k` pages from `v` on are mapped. -/
def mapped (f : ℕ → ℕ) (v k : ℕ) (e : ℕ → ℕ) (u : ℕ) : ℕ :=
  if v ≤ u ∧ u < v + k then e (u - v) else f u

/-- What `mappages` does: `n` pages from `v` on get their entries, or only some of them. -/
structure MapsTo (s s' : State) (pgdir v n : ℕ) (e : ℕ → ℕ) (r : ℤ) : Prop where
  ext : Ext s s' pgdir
  tab : ∀ d, ¬(v / 1024 ≤ d ∧ d ≤ (v + n - 1) / 1024) → tab s' pgdir d = tab s pgdir d
  pte : ∃ k, (∀ u < 2 ^ 20, pte s' pgdir u =
      if v ≤ u ∧ u < v + k then e (u - v) else pte s pgdir u) ∧ (r = 0 ∧ k = n ∨ r = -1 ∧ k < n)
  full : r = -1 → s.Willing → s'.freelist = []

/-- One page has been mapped, and then the others. -/
theorem MapsTo.cons {s₂ : State} {n : ℕ} {e : ℕ → ℕ} {r : ℤ} (hext : Ext s s₂ pgdir)
    (htabs : ∀ d ≠ v / 1024, Vm.tab s₂ pgdir d = Vm.tab s pgdir d)
    (hset : ∀ u < 2 ^ 20, Vm.pte s₂ pgdir u = if u = v then e 0 else Vm.pte s pgdir u)
    (h : MapsTo s₂ s' pgdir (v + 1) n (fun i => e (i + 1)) r) (hn : 0 < n) :
    MapsTo s s' pgdir v (n + 1) e r := by
  obtain ⟨hext₃, htabs₃, ⟨k, hk, hr⟩, hfull₃⟩ := h
  refine ⟨hext.trans hext₃, fun d hd => ?_, ⟨k + 1, fun u hu => ?_, by omega⟩, fun hr hw =>
    hfull₃ hr (hext.willing hw)⟩
  · rw [htabs₃ d (by omega), htabs d (by omega)]
  rw [hk u hu]
  by_cases huv : u = v
  · rw [if_neg (by omega), hset u hu, if_pos huv, if_pos (by omega), huv, Nat.sub_self]
  by_cases hin : v + 1 ≤ u ∧ u < v + 1 + k
  · rw [if_pos hin, if_pos (by omega)]
    congr 1
    omega
  · rw [if_neg hin, hset u hu, if_neg huv, if_neg (by omega)]

theorem PDX_page (hv : v < 2 ^ 20) : PDX (PGSIZE * v) = v / 1024 := by
  rw [PDX, PGSIZE]
  omega

theorem PTX_page (v : ℕ) : PTX (PGSIZE * v) = v % 1024 := by
  rw [PTX, PGSIZE]
  omega

/-- The entry for page `i` of those that `mappages` maps; physical addresses may wrap around. -/
def entryAt (pa perm i : ℕ) : ℕ := mkpte ((pa + PGSIZE * i) % 2 ^ 32) perm

theorem entryAt_zero {pa : ℕ} (hpa : pa < 2 ^ 32) (perm : ℕ) :
    entryAt pa perm 0 = mkpte pa perm := by
  rw [entryAt, Nat.mul_zero, Nat.add_zero, Nat.mod_eq_of_lt hpa]

theorem entryAt_succ (pa perm : ℕ) :
    entryAt ((pa + PGSIZE) % 2 ^ 32) perm = fun i => entryAt pa perm (i + 1) := by
  funext i
  have haddr : ((pa + PGSIZE) % 2 ^ 32 + PGSIZE * i) % 2 ^ 32 =
      (pa + PGSIZE * (i + 1)) % 2 ^ 32 := by
    rw [PGSIZE]
    omega
  rw [entryAt, entryAt, haddr]

section Mappages

variable {n pa perm : ℕ} (h : Tree L s pgdir) (hn : 0 < n) (hv : v + n ≤ 2 ^ 20)
  (hpa : pa % PGSIZE = 0) (hperm : perm < PGSIZE)
include h hn hv hpa hperm

theorem wp_mapLoop {fuel : ℕ} (hfuel : n ≤ fuel) (hlt : pa < 2 ^ 32)
    (hfree : ∀ u, v ≤ u → u < v + n → pte s pgdir u % 2 = 0) :
    wp (mapLoop pgdir (PGSIZE * (v + n - 1)) perm fuel (PGSIZE * v) pa)
      (fun r s' => MapsTo s s' pgdir v n (entryAt pa perm) r) (fun _ => False) s := by
  induction n generalizing s v pa fuel with
  | zero => omega
  | succ n ih =>
    obtain ⟨fuel, rfl⟩ := Nat.exists_eq_add_one_of_ne_zero (show fuel ≠ 0 by omega)
    rw [mapLoop, wp_bind]
    refine (wp_walkpgdir h (PGSIZE * v)).mono ?_ fun _ => id
    rintro r s₁ ⟨hext, htabs, hpte, hr, hfull⟩
    rw [PDX_page (by omega)] at htabs
    cases r with
    | none =>
      exact ⟨hext, fun d hd => htabs d (by omega),
        ⟨0, fun u hu => by rw [if_neg (by omega), hpte u hu],
        .inr ⟨rfl, Nat.zero_lt_succ n⟩⟩, fun _ => hfull rfl⟩
    | some p =>
      obtain ⟨t, i⟩ := p
      obtain ⟨hi, htab⟩ := hr (t, i) rfl
      rw [PTX_page] at hi
      rw [PDX_page (by omega)] at htab
      simp only at hi htab
      subst hi
      have h₁ := h.ext hext
      -- the entry is the one of `v`, which is empty
      have hentry : s₁.entry t (v % 1024) = pte s₁ pgdir v := by rw [pte, htab]
      have heven : ¬s₁.entry t (v % 1024) &&& PTE_P ≠ 0 := fun hp => by
        have hodd := (and_PTE_P _).mp hp
        rw [hentry, hpte v (by omega), hfree v (by omega) (by omega)] at hodd
        omega
      have hset : ∀ u < 2 ^ 20, pte (s₁.setEntry t (v % 1024) (mkpte pa perm)) pgdir u =
          if u = v then entryAt pa perm 0 else pte s pgdir u := fun u hu => by
        rw [pte_setEntry (h₁.tab_ne_dir (by omega) htab)
          (fun d hd ht => h₁.tab_inj hd (by omega) ht htab) htab (mkpte_lt hpa hperm hlt) hu,
          hpte u hu, entryAt_zero hlt]
      have hext₂ : Ext s (s₁.setEntry t (v % 1024) (mkpte pa perm)) pgdir :=
        hext.trans (Ext.setEntry h₁ (by omega) htab _)
      have htabs₂ : ∀ d ≠ v / 1024,
          tab (s₁.setEntry t (v % 1024) (mkpte pa perm)) pgdir d = tab s pgdir d := fun d hd => by
        rw [tab_congr (mem_setEntry_of_ne s₁ (h₁.tab_ne_dir (by omega) htab).symm), htabs d hd]
      simp only [wp_bind, wp_get]
      rw [if_neg heven]
      simp only [wp_bind, wp_set]
      change wp _ _ _ (s₁.setEntry t (v % 1024) (mkpte pa perm))
      generalize s₁.setEntry t (v % 1024) (mkpte pa perm) = s₂ at *
      by_cases hn0 : n = 0
      · rw [if_pos (by rw [hn0]; rfl)]
        refine ⟨hext₂, fun d hd => htabs₂ d (by omega), ⟨1, fun u hu => ?_, .inl ⟨rfl, by omega⟩⟩,
          by simp⟩
        rw [hset u hu]
        by_cases huv : u = v
        · rw [if_pos huv, if_pos (by omega), huv, Nat.sub_self]
        · rw [if_neg huv, if_neg (by omega)]
      · have hne : PGSIZE * v ≠ PGSIZE * (v + (n + 1) - 1) := by
          rw [PGSIZE]
          omega
        have ha : (PGSIZE * v + PGSIZE) % 2 ^ 32 = PGSIZE * (v + 1) := by
          rw [PGSIZE]
          omega
        have hlast : v + (n + 1) - 1 = v + 1 + n - 1 := by omega
        rw [if_neg hne, ha, hlast]
        have haligned : (pa + PGSIZE) % 2 ^ 32 % PGSIZE = 0 := by rw [PGSIZE] at hpa ⊢; omega
        have hempty : ∀ u, v + 1 ≤ u → u < v + 1 + n → pte s₂ pgdir u % 2 = 0 := fun u hu hu' => by
          rw [hset u (by omega), if_neg (by omega)]
          exact hfree u (by omega) (by omega)
        refine (ih (h.ext hext₂) (by omega) (by omega) haligned (by omega)
          (Nat.mod_lt _ (by decide)) hempty).mono ?_ fun _ => id
        intro r s₃ hmaps
        rw [entryAt_succ] at hmaps
        exact hmaps.cons hext₂ htabs₂ hset (by omega)

/-- `n` pages from `v` on, of which the last need not be a whole one. -/
theorem wp_mappages_size {size : ℕ} (hlo : PGSIZE * (n - 1) < size) (hhi : size ≤ PGSIZE * n)
    (hlt : pa < 2 ^ 32) (hfree : ∀ u, v ≤ u → u < v + n → pte s pgdir u % 2 = 0) :
    wp (mappages pgdir (PGSIZE * v) size pa perm)
      (fun r s' => MapsTo s s' pgdir v n (entryAt pa perm) r) (fun _ => False) s := by
  have hlast : PGROUNDDOWN ((PGSIZE * v + size + (2 ^ 32 - 1)) % 2 ^ 32) =
      PGSIZE * (v + n - 1) := by
    rw [PGSIZE] at hlo hhi
    rw [PGROUNDDOWN, PGSIZE]
    omega
  have hdown : PGROUNDDOWN (PGSIZE * v) = PGSIZE * v := by
    rw [PGROUNDDOWN, PGSIZE]
    omega
  rw [mappages, hlast, hdown]
  exact wp_mapLoop h hn hv hpa hperm (by rw [rounds]; omega) hlt hfree

theorem wp_mappages (hlt : pa + PGSIZE * n ≤ 2 ^ 32)
    (hfree : ∀ u, v ≤ u → u < v + n → pte s pgdir u % 2 = 0) :
    wp (mappages pgdir (PGSIZE * v) (PGSIZE * n) pa perm)
      (fun r s' => MapsTo s s' pgdir v n (fun i => mkpte (pa + PGSIZE * i) perm) r)
      (fun _ => False) s := by
  have hlo : PGSIZE * (n - 1) < PGSIZE * n := by
    rw [PGSIZE]
    omega
  have hpalt : pa < 2 ^ 32 := by
    rw [PGSIZE] at hlt
    omega
  refine (wp_mappages_size h hn hv hpa hperm hlo (Nat.le_refl _) hpalt hfree).mono ?_ fun _ => id
  rintro r s' ⟨hext, htabs, ⟨k, hk, hr⟩, hfull⟩
  refine ⟨hext, htabs, ⟨k, fun u hu => ?_, hr⟩, hfull⟩
  rw [hk u hu]
  by_cases hin : v ≤ u ∧ u < v + k
  · rw [if_pos hin, if_pos hin, entryAt, Nat.mod_eq_of_lt]
    rw [PGSIZE] at hlt ⊢
    omega
  · rw [if_neg hin, if_neg hin]

end Mappages

end Directory

end Xv6.Vm
