import Xv6.Vm.Grow

/-!
# Copying an address space

`copyuvm` goes through two directories at once. That of the parent is only read, and none of its
pages is free; that of the child is made of free pages alone, so no page of the parent is written
to. If memory runs out, what the child has got so far goes back.
-/

namespace Xv6.Vm

open Bytes Function

/-- The pages below `sz` are there, and nothing of the address space is among the pages of `R`. -/
structure Parent (s : State) (pgdir sz : ℕ) (R : Finset ℕ) : Prop where
  dir : pgdir ∉ R
  table : ∀ d < 1024, ∀ t, tab s pgdir d = some t → t ∉ R
  page : ∀ u < npages sz, ∃ x, link (pte s pgdir u) = some x ∧ x ∉ R

/-- The pages below `v` are copied from `pgdir` to `d`, which has nothing else but the mappings of
the kernel. -/
structure Copied (L : Layout) (s s' : State) (pgdir d v : ℕ) (R : Finset ℕ) : Prop where
  space : Space L s' d 0 R
  page : ∀ u < v, ∃ x y, link (pte s pgdir u) = some x ∧ link (pte s' d u) = some y ∧
    PTE_FLAGS (pte s' d u) = PTE_FLAGS (pte s pgdir u) ∧ s'.mem y = s.mem x
  rest : ∀ u < 2 ^ 20, v ≤ u → pte s' d u = kpte L u
  frame : ∀ x ∉ R, s'.mem x = s.mem x

theorem PTE_FLAGS_lt (w : ℕ) : PTE_FLAGS w < PGSIZE := Nat.mod_lt _ (by decide)

theorem or_PTE_P {w : ℕ} (h : w % 2 = 1) : w ||| PTE_P = w := by
  refine Nat.eq_of_testBit_eq fun i => ?_
  rw [Nat.testBit_or, PTE_P]
  cases i with
  | zero => simp [Nat.testBit_zero, h]
  | succ i => simp [Nat.testBit_succ]

section Copy

variable {L : Layout} {s s' s₂ s₃ : State} {pgdir d v sz x y : ℕ} {R : Finset ℕ}

/-- The parent's entries are as they were. -/
theorem Parent.pte_eq (hp : Parent s pgdir sz R) (hframe : ∀ x ∉ R, s'.mem x = s.mem x) {u : ℕ}
    (hu : u < 2 ^ 20) : pte s' pgdir u = pte s pgdir u :=
  pte_congr (hframe pgdir hp.dir) fun t ht => hframe t (hp.table _ (by omega) t ht)

/-- One more page is copied. -/
theorem Copied.add (hc : Copied L s s' pgdir d v R) (hv : v < 2 ^ 19)
    (hx : link (pte s pgdir v) = some x) (hxR : x ∉ R) (hfree : s'.freelist = y :: s₂.freelist)
    (hmem : ∀ z ≠ y, s₂.mem z = s'.mem z) (hcopy : s₂.mem y = s'.mem x)
    (hext : Ext s₂ s₃ d) (h₃ : Space L s₃ d 0 R)
    (hpte : ∀ u < 2 ^ 20, pte s₃ d u =
      if u = v then mkpte (V2P y) (PTE_FLAGS (pte s pgdir v)) else pte s' d u) :
    Copied L s s₃ pgdir d (v + 1) R := by
  obtain ⟨h₂, -⟩ := hc.space.take hfree hmem
  have hy : y ∈ R := h₂.mem.mpr (.inr (.inr (by simp)))
  have hyp : KPage L y := h₂.page y hy
  refine ⟨h₃, fun u hu => ?_, fun u hu hle => ?_, fun z hz => ?_⟩
  · by_cases huv : u = v
    · subst huv
      have hodd : PTE_FLAGS (pte s pgdir u) % 2 = 1 := by
        have hne : ¬pte s pgdir u % 2 = 0 := fun h0 => ne_of_link hx h0 rfl
        rw [PTE_FLAGS]
        omega
      have hlt := PTE_FLAGS_lt (pte s pgdir u)
      refine ⟨x, y, hx, ?_, ?_, ?_⟩
      · rw [hpte u (by omega), if_pos rfl, link_mkpte hyp hlt]
      · rw [hpte u (by omega), if_pos rfl, PTE_FLAGS_mkpte hyp.V2P_aligned hlt, or_PTE_P hodd]
      · rw [h₂.frame hext (.inr (by simp)), hcopy, hc.frame x hxR]
    · obtain ⟨x', y', hx', hy', hflags, hcont⟩ := hc.page u (by omega)
      refine ⟨x', y', hx', ?_, ?_, ?_⟩
      · rw [hpte u (by omega), if_neg huv, hy']
      · rw [hpte u (by omega), if_neg huv, hflags]
      · rw [hc.space.user_mem hfree hmem hext (by omega) hy', hcont]
  · rw [hpte u hu, if_neg (by omega), hc.rest u hu (by omega)]
  · have hzy : z ≠ y := fun he => hz (he ▸ hy)
    rw [h₂.frame hext (.inl hz), hmem z hzy, hc.frame z hz]

theorem wp_copyLoop {fuel : ℕ} (hp : Parent s pgdir sz R) (hsz : sz < KERNBASE)
    (hc : Copied L s s' pgdir d v R) (hv : v ≤ npages sz) (hfuel : npages sz - v < fuel) :
    wp (copyLoop L pgdir sz d fuel (PGSIZE * v)) (fun r s'' =>
      if r then Copied L s s'' pgdir d (npages sz) R
      else Space L s'' d 0 R ∧ (∀ x ∉ R, s''.mem x = s.mem x) ∧
        (s'.Willing → R.card ≤ 1026 + npages sz)) (fun _ => False) s' := by
  have hle := npages_le hsz.le
  induction fuel generalizing s' v with
  | zero => omega
  | succ fuel ih =>
    rw [copyLoop]
    by_cases hlt : v < npages sz
    · obtain ⟨x, hx, hxR⟩ := hp.page v hlt
      have hpte := hp.pte_eq hc.frame (show v < 2 ^ 20 by omega)
      rw [if_pos (lt_npages.mpr hlt), wp_bind, wp_walkpgdir_read, PDX_page (by omega), PTX_page]
      -- the entry of the parent's page
      cases ht : tab s' pgdir (v / 1024) with
      | none =>
        have h0 : pte s pgdir v % 2 = 0 := by
          rw [← hpte]
          simp only [pte, ht]
        exact absurd rfl (ne_of_link hx h0)
      | some t =>
        have hentry : s'.entry t (v % 1024) = pte s pgdir v := by rw [← hpte, pte, ht]
        have hpres : ¬pte s pgdir v &&& PTE_P = 0 := fun h0 => by
          rw [link, if_neg (not_not.mpr h0)] at hx
          cases hx
        have haddr : P2V (PTE_ADDR (pte s pgdir v)) = x := by
          rw [link, if_pos hpres] at hx
          exact Option.some.inj hx
        simp only [Option.map_some, wp_bind, wp_get, hentry]
        have hrest : ∀ u < 2 ^ 19, v ≤ u → pte s' d u % 2 = 0 := fun u hu hge => by
          rw [hc.rest u (by omega) hge, kpte_user hu]
        rw [if_neg hpres, wp_bind]
        refine wp_kalloc (fun s₂ hmem hfree hw hnil => ?_) fun y s₂ hmem hfree hw => ?_
        · have hpte₂ : ∀ u, pte s₂ d u = pte s' d u := fun u =>
            pte_congr (by rw [hmem]) fun t _ => by rw [hmem]
          have h₂ : Space L s₂ d 0 R := hc.space.ext (Ext.of_mem hfree hmem hw) fun u _ => hpte₂ u
          refine ⟨h₂, fun z hz => by rw [hmem, hc.frame z hz], fun h₀ => ?_⟩
          have hshort := h₂.short (m := npages sz) (hnil h₀) fun u hu hge => by
            rw [hpte₂, hrest u hu (by omega)]
          rw [Multiset.card_zero] at hshort
          omega
        · -- the page is copied, before it is mapped
          have hyR : y ∈ R := hc.space.mem.mpr (.inl (by simp [hfree]))
          have hfree₂ : s'.freelist = y :: (s₂.copy y x).freelist := hfree
          have hmem₂ : ∀ z ≠ y, (s₂.copy y x).mem z = s'.mem z := fun z hz => by
            rw [mem_copy_of_ne _ hz, hmem]
          have hcopy : (s₂.copy y x).mem y = s'.mem x := by rw [mem_copy_self, hmem]
          obtain ⟨h₂, hpte₂⟩ := hc.space.take hfree₂ hmem₂
          have heven : pte (s₂.copy y x) d v % 2 = 0 := by
            rw [hpte₂ v (by omega), hrest v (by omega) (le_refl v)]
          simp only [wp_bind, wp_modify, haddr]
          refine (h₂.mapUser (by omega) (PTE_FLAGS_lt _) heven).mono ?_ fun _ => id
          rintro r s₃ ⟨hext, -, ⟨rfl, h₃, hpte₃⟩ | ⟨rfl, h₃, hpte₃, hfull⟩⟩
          · have hc₃ : Copied L s s₃ pgdir d (v + 1) R :=
              hc.add (by omega) hx hxR hfree₂ hmem₂ hcopy hext h₃ fun u hu => by
                rw [hpte₃ u hu, hpte₂ u hu]
            rw [if_neg (by decide), next_page v (by omega)]
            refine (ih hc₃ (by omega) (by omega)).mono ?_ fun _ => id
            intro r s₄ hr
            cases r with
            | true => exact hr
            | false => exact ⟨hr.1, hr.2.1, fun h₀ => hr.2.2 (hext.willing (hw h₀))⟩
          · rw [if_pos (by decide), wp_bind, wp_kfree (h₃.page y hyR)]
            refine ⟨h₃.give.1, fun z hz => ?_, fun h₀ => ?_⟩
            swap
            · have hshort := h₃.short (m := npages sz) (hfull (hw h₀)) fun u hu hge => by
                rw [hpte₃ u (by omega), hpte₂ u (by omega), hrest u hu (by omega)]
              rw [Multiset.card_add, Multiset.card_singleton, Multiset.card_zero] at hshort
              omega
            have hzy : z ≠ y := fun he => hz (he ▸ hyR)
            have hgive : (s₃.give y).mem z = s₃.mem z := mem_fill_of_ne s₃ hzy
            rw [hgive, h₂.frame hext (.inl hz), hmem₂ z hzy, hc.frame z hz]
    · rw [if_neg (mt lt_npages.mp hlt)]
      have heq : v = npages sz := by omega
      exact heq ▸ hc

/-- The copy, or nothing. -/
theorem wp_copyuvm (h : Free L s 0 R) (hp : Parent s pgdir sz R) (hsz : sz < KERNBASE) :
    wp (copyuvm L pgdir sz) (fun r s' =>
      match r with
      | some d => Copied L s s' pgdir d (npages sz) R
      | none => Free L s' 0 R ∧ (∀ x ∉ R, s'.mem x = s.mem x) ∧
        (s.Willing → R.card ≤ 1026 + npages sz)) (fun _ => False) s := by
  have hle := npages_le hsz.le
  rw [copyuvm, wp_bind]
  refine (wp_setupkvm h).mono ?_ fun _ => id
  rintro r s₁ ⟨hframe, hres⟩
  cases r with
  | none =>
    refine ⟨hres.1, fun x hx => hframe x (.inl hx), fun hw => ?_⟩
    have hcard := hres.2 hw
    rw [Multiset.card_zero] at hcard
    omega
  | some d =>
    have hc : Copied L s s₁ pgdir d 0 R :=
      ⟨hres.1, fun u hu => absurd hu (Nat.not_lt_zero u), fun u hu _ => hres.2.1 u hu,
        fun x hx => hframe x (.inl hx)⟩
    simp only [wp_bind]
    refine (wp_copyLoop hp hsz hc (Nat.zero_le _) (by rw [rounds]; omega)).mono ?_ fun _ => id
    intro r s₂ hr
    cases r with
    | true => exact hr
    | false =>
      obtain ⟨h₂, hframe₂, hcard⟩ := hr
      rw [if_neg Bool.false_ne_true, wp_bind]
      refine (wp_freevm h₂).mono ?_ fun _ => id
      rintro _ s₃ ⟨h₃, hframe₃⟩
      exact ⟨h₃, fun x hx => (hframe₃ x (.inl hx)).trans (hframe₂ x hx),
        fun hw => hcard (hres.2.2.2 hw)⟩

/-- `copyuvm` makes an exact copy of the pages below `sz` on pages that were free, each of which it
uses once, with nothing else in the user part and the kernel's mappings; or it returns null and the
same pages are free as before. If `kalloc` refuses no call, it is enough that there are 1027 free
pages more than the pages to be copied. Nothing else in memory changes, and there is no panic. -/
theorem copyuvm_exact (hnodup : s.freelist.Nodup) (hpage : ∀ x ∈ s.freelist, KPage L x)
    (hp : Parent s pgdir sz s.freelist.toFinset) (hsz : sz < KERNBASE) :
    wp (copyuvm L pgdir sz) (fun r s' => (∀ x ∉ s.freelist, s'.mem x = s.mem x) ∧
      match r with
      | none => s'.freelist.Perm s.freelist ∧
        (s.Willing → s.freelist.length ≤ 1026 + npages sz)
      | some d =>
        (∀ u < npages sz, ∃ x y, link (pte s pgdir u) = some x ∧ link (pte s' d u) = some y ∧
          PTE_FLAGS (pte s' d u) = PTE_FLAGS (pte s pgdir u) ∧ s'.mem y = s.mem x) ∧
        (∀ u < 2 ^ 19, npages sz ≤ u → pte s' d u = 0) ∧
        (∀ u < 2 ^ 20, 2 ^ 19 ≤ u → pte s' d u = kpte L u) ∧
        (↑s'.freelist + ({d} + tables s' d + users s' d) : Multiset ℕ) = ↑s.freelist)
      (fun _ => False) s := by
  have hval : s.freelist.toFinset.val = ↑s.freelist := by
    rw [List.toFinset_val, hnodup.dedup]
  have hfree : Free L s 0 s.freelist.toFinset :=
    ⟨by rw [hval, add_zero], fun x hx => hpage x (List.mem_toFinset.mp hx)⟩
  have hle := npages_le hsz.le
  refine (wp_copyuvm hfree hp hsz).mono ?_ fun _ => id
  intro r s' hr
  cases r with
  | none =>
    obtain ⟨h', hframe, hcard⟩ := hr
    refine ⟨fun x hx => hframe x (mt List.mem_toFinset.mp hx), ?_, fun hw => ?_⟩
    · rw [← Multiset.coe_eq_coe, ← hval, ← h'.sum, add_zero]
    · rw [← List.toFinset_card_of_nodup hnodup]
      exact hcard hw
  | some d =>
    have hsum := hr.space.sum
    refine ⟨fun x hx => hr.frame x (mt List.mem_toFinset.mp hx), hr.page, fun u hu hle => ?_,
      fun u hu hge => hr.rest u hu (by omega), ?_⟩
    · rw [hr.rest u (by omega) hle, kpte_user hu]
    · rw [← hval, ← hsum, add_zero]
      ac_rfl

end Copy

/-- None of the pages of the process of one page is free. -/
theorem smallRoomy_parent (n : ℕ) :
    Parent (smallRoomy n) smallProc.pgdir smallProc.sz (roomyPages n) := by
  have h := smallProc_space
  have hout : ∀ x ∈ smallPages, x ∉ roomyPages n := fun x hx =>
    Finset.disjoint_left.mp (smallPages_disjoint n) (Finset.mem_insert_of_mem hx)
  have htab : tab (smallRoomy n) smallProc.pgdir = tab smallState smallProc.pgdir := tab_congr rfl
  refine ⟨hout _ (by decide), fun d hd t ht => ?_, fun u hu => ?_⟩
  · rw [htab] at ht
    exact hout t (h.space.mem.mpr
      (.inl (Multiset.mem_add.mpr (.inr (mem_shares.mpr ⟨d, hd, ht⟩)))))
  · have hu' : u < 2 ^ 19 := lt_of_lt_of_le hu (npages_le h.sz_lt.le)
    have hsome := (h.mapped u hu').mpr hu
    rw [view_isSome] at hsome
    obtain ⟨x, hx⟩ := Option.isSome_iff_exists.mp hsome
    exact ⟨x, by rw [smallRoomy_pte, hx], hout x (h.space.mem.mpr (.inr (.inl (mem_shares.mpr
      ⟨u, hu', hx⟩))))⟩

theorem smallRoomy_freelist (n : ℕ) : (smallRoomy n).freelist.Nodup ∧
    (smallRoomy n).freelist.toFinset = roomyPages n ∧ (smallRoomy n).freelist.length = n := by
  refine ⟨List.nodup_range.map roomyPage_injective, Finset.ext fun x => ?_, ?_⟩
  · simp [smallRoomy, roomyPages]
  · simp [smallRoomy]

/-- With enough free pages, the process of one page is copied. -/
theorem copyuvm_exact_small :
    wp (copyuvm smallLayout smallProc.pgdir smallProc.sz) (fun r s' => ∃ d y, r = some d ∧
      link (pte s' d 0) = some y ∧ s'.mem y = smallState.mem 0x80202000) (fun _ => False)
      (smallRoomy 1100) := by
  generalize hn : 1100 = n
  obtain ⟨hnodup, hset, hlen⟩ := smallRoomy_freelist n
  refine (copyuvm_exact hnodup (fun x hx => roomy_page (n := n) (by omega) ?_)
    (hset ▸ smallRoomy_parent n) (by decide)).mono ?_ fun _ => id
  · rwa [← hset, List.mem_toFinset]
  rintro r s' ⟨-, hr⟩
  cases r with
  | none =>
    have hshort := hr.2 fun _ => rfl
    rw [hlen, ← hn] at hshort
    exact absurd hshort (by decide)
  | some d =>
    obtain ⟨x, y, hx, hy, -, hmem⟩ := hr.1 0 (by decide)
    have hlink : link (pte smallState smallProc.pgdir 0) = some 0x80202000 := by decide +kernel
    rw [smallRoomy_pte, hlink] at hx
    cases hx
    exact ⟨d, y, rfl, hy, hmem⟩

end Xv6.Vm
