import Xv6.Vm.Grow

/-!
# The translation of addresses

What the processor makes of a page directory is a map from virtual to physical addresses.
`mappages` extends this map by a range of addresses, or by a part of the range when memory runs
out, and leaves the rest of it alone. What it takes from the free list are tables of the
directory, so that `freevm` finds them.
-/

namespace Xv6.Vm

open Function

/-- What the processor makes of an address: a physical address, and the flags of the entry. -/
def translate (s : State) (pgdir va : ℕ) : Option (ℕ × ℕ) :=
  let w := pte s pgdir (va / PGSIZE)
  if w &&& PTE_P ≠ 0 then some (PTE_ADDR w + va % PGSIZE, PTE_FLAGS w) else none

/-- A range of addresses that ends at the latest where the addresses end, of which no page is
there. -/
structure Mappable (s : State) (pgdir va size pa perm : ℕ) : Prop where
  va_aligned : va % PGSIZE = 0
  pa_aligned : pa % PGSIZE = 0
  pa_lt : pa < 2 ^ 32
  size_pos : 1 ≤ size
  fits : va + size ≤ 2 ^ 32
  perm_lt : perm < PGSIZE
  absent : ∀ a, va ≤ a → a < va + size → translate s pgdir a = none

/-- A directory made by `setupkvm`, `allocuvm` and `mappages`, each of which may have run out of
memory. The pages of `held` are in hand: those that are mapped in the user part are no longer. -/
inductive Built (L : Layout) (R : Finset ℕ) (d : ℕ) : Multiset ℕ → State → Prop
  | setupkvm {held : Multiset ℕ} {s s' : State} (h : Free L s held R)
      (hrun : (setupkvm L).run s = .ok (some d, s')) : Built L R d held s'
  | allocuvm {held : Multiset ℕ} {s s' : State} {oldsz newsz r : ℕ} (h : Built L R d held s)
      (hempty : ∀ u, npages oldsz ≤ u → u < npages newsz → pte s d u % 2 = 0)
      (hrun : (allocuvm L d oldsz newsz).run s = .ok (r, s')) : Built L R d held s'
  /-- anything in the kernel's part -/
  | mapKernel {held : Multiset ℕ} {s s' : State} {va size pa perm : ℕ} {r : ℤ}
      (h : Built L R d held s) (hm : Mappable s d va size pa perm) (hva : KERNBASE ≤ va)
      (hrun : (mappages d va size pa perm).run s = .ok (r, s')) : Built L R d held s'
  /-- pages in hand -/
  | mapUser {held : Multiset ℕ} {s s' : State} {va size pa perm : ℕ} {r : ℤ}
      (h : Built L R d ((Multiset.range (npages size)).map
        (fun i => P2V ((pa + PGSIZE * i) % 2 ^ 32)) + held) s)
      (hm : Mappable s d va size pa perm) (hva : va + size ≤ KERNBASE)
      (hrun : (mappages d va size pa perm).run s = .ok (r, s')) :
      Built L R d (((Multiset.range (npages size)).filter
        fun i => pte s' d (va / PGSIZE + i) % 2 = 0).map
        (fun i => P2V ((pa + PGSIZE * i) % 2 ^ 32)) + held) s'

section

variable {L : Layout} {s s' : State} {pgdir va size pa perm : ℕ}

theorem translate_eq_none {a : ℕ} (h : translate s pgdir a = none) :
    pte s pgdir (a / PGSIZE) % 2 = 0 := by
  by_contra hodd
  rw [translate, if_pos ((and_PTE_P _).mpr (by omega))] at h
  cases h

theorem translate_congr {a : ℕ} (h : pte s' pgdir (a / PGSIZE) = pte s pgdir (a / PGSIZE)) :
    translate s' pgdir a = translate s pgdir a := by
  rw [translate, translate, h]

/-- An address of a page that `mappages` has mapped. -/
theorem translate_of_entryAt {a v i : ℕ} (hpa : pa % PGSIZE = 0) (hperm : perm < PGSIZE)
    (ha : a / PGSIZE = v + i) (h : pte s pgdir (a / PGSIZE) = entryAt pa perm i) :
    translate s pgdir a = some ((pa + (a - PGSIZE * v)) % 2 ^ 32, perm ||| PTE_P) := by
  have haligned : (pa + PGSIZE * i) % 2 ^ 32 % PGSIZE = 0 := by
    rw [PGSIZE] at hpa ⊢
    omega
  have haddr : (pa + PGSIZE * i) % 2 ^ 32 + a % PGSIZE = (pa + (a - PGSIZE * v)) % 2 ^ 32 := by
    rw [PGSIZE] at hpa ha ⊢
    omega
  rw [translate, h, entryAt, if_pos ((and_PTE_P _).mpr (mkpte_odd _ _)),
    PTE_ADDR_mkpte haligned hperm, PTE_FLAGS_mkpte haligned hperm, haddr]

namespace Mappable

variable (hm : Mappable s pgdir va size pa perm)
include hm

theorem va_eq : va = PGSIZE * (va / PGSIZE) := by
  have h := hm.va_aligned
  rw [PGSIZE] at h ⊢
  omega

theorem npages_pos : 0 < npages size := by
  have h := hm.size_pos
  rw [npages, PGSIZE]
  omega

theorem last_le : va / PGSIZE + npages size ≤ 2 ^ 20 := by
  have h := hm.fits
  have h' := hm.va_aligned
  rw [PGSIZE] at h' ⊢
  rw [npages, PGSIZE]
  omega

theorem empty {u : ℕ} (hu : va / PGSIZE ≤ u) (hu' : u < va / PGSIZE + npages size) :
    pte s pgdir u % 2 = 0 := by
  have h' := hm.va_aligned
  have habsent := hm.absent (PGSIZE * u) (by rw [PGSIZE] at h' hu ⊢; omega) (by
    rw [npages] at hu'
    rw [PGSIZE] at h' hu' ⊢
    omega)
  have heven := translate_eq_none habsent
  rwa [PGSIZE, Nat.mul_div_cancel_left u (by decide)] at heven

/-- **The entries that `mappages` makes.** -/
theorem wp_mappages (h : Tree L s pgdir) :
    wp (Vm.mappages pgdir va size pa perm) (fun r s' =>
      MapsTo s s' pgdir (va / PGSIZE) (npages size) (entryAt pa perm) r) (fun _ => False) s := by
  have hlo : PGSIZE * (npages size - 1) < size := by
    have hpos := hm.size_pos
    rw [npages, PGSIZE]
    omega
  have hhi : size ≤ PGSIZE * npages size := by
    rw [npages, PGSIZE]
    omega
  have hwp := wp_mappages_size h hm.npages_pos hm.last_le hm.pa_aligned hm.perm_lt hlo hhi hm.pa_lt
    fun u hu hu' => hm.empty hu hu'
  rwa [← hm.va_eq] at hwp

end Mappable

/-! ### What a directory owns -/

section Built

variable {held : Multiset ℕ} {R : Finset ℕ} {v n k : ℕ} {r : ℤ}

/-- The entries of a range in the kernel's part are not counted. -/
theorem Space.mapsTo_kernel {e : ℕ → ℕ} (h : Space L s pgdir held R)
    (hmaps : MapsTo s s' pgdir v n e r) (hv : 2 ^ 19 ≤ v) : Space L s' pgdir held R := by
  obtain ⟨k, hk, -⟩ := hmaps.pte
  refine h.ext hmaps.ext fun u hu => ?_
  rw [hk u (by omega), if_neg (by omega)]

/-- Pages in hand that have been mapped in the user part belong to the directory. -/
theorem Space.mapsTo_user {e : ℕ → ℕ} {x : ℕ → ℕ}
    (h : Space L s pgdir ((Multiset.range n).map x + held) R)
    (hmaps : MapsTo s s' pgdir v n e r) (hv : v + n ≤ 2 ^ 19) (he : ∀ i, link (e i) = some (x i))
    (hempty : ∀ u, v ≤ u → u < v + n → pte s pgdir u % 2 = 0) :
    Space L s' pgdir
      (((Multiset.range n).filter fun i => pte s' pgdir (v + i) % 2 = 0).map x + held) R := by
  obtain ⟨k, hk, hr⟩ := hmaps.pte
  have hkn : k ≤ n := by omega
  have hodd : ∀ i, e i % 2 = 1 := by
    intro i
    by_contra hne
    have hi := he i
    rw [link_of_even (by omega)] at hi
    cases hi
  have husers : users s' pgdir = users s pgdir + (Multiset.range k).map x := by
    refine shares_add_range (v := v) (by omega) (fun i hi => ?_) (fun i hi => ?_) fun u hu hno => ?_
    · exact link_of_even (hempty _ (by omega) (by omega))
    · rw [hk _ (by omega), if_pos (by omega), Nat.add_sub_cancel_left, he]
    · rw [hk u (by omega), if_neg hno]
  -- of the pages in hand, the first `k` have been mapped
  have hfilter : ((Multiset.range n).filter fun i => pte s' pgdir (v + i) % 2 = 0) =
      (Multiset.range n).filter fun i => ¬i < k := by
    refine Multiset.filter_congr fun i hi => ?_
    have hin := Multiset.mem_range.mp hi
    rw [hk _ (by omega)]
    by_cases hik : i < k
    · rw [if_pos (by omega), Nat.add_sub_cancel_left, hodd i]
      simp [hik]
    · rw [if_neg (by omega), hempty _ (by omega) (by omega)]
      simp [hik]
  have hfirst : ((Multiset.range n).filter fun i => i < k) = Multiset.range k := by
    refine (Multiset.Nodup.ext ((Multiset.nodup_range n).filter _) (Multiset.nodup_range k)).mpr
      fun i => ?_
    rw [Multiset.mem_filter, Multiset.mem_range, Multiset.mem_range]
    omega
  have hsplit : (Multiset.range n).map x = (Multiset.range k).map x +
      ((Multiset.range n).filter fun i => ¬i < k).map x := by
    rw [← Multiset.map_add, ← hfirst, Multiset.filter_add_not]
  refine ⟨?_, h.page⟩
  rw [← h.sum, husers, hfilter, hsplit, add_right_comm (s'.freelist : Multiset ℕ), hmaps.ext.sum,
    add_right_comm (s.freelist : Multiset ℕ)]
  ac_rfl

theorem link_entryAt (hpa : pa % PGSIZE = 0) (hperm : perm < PGSIZE) (i : ℕ) :
    link (entryAt pa perm i) = some (P2V ((pa + PGSIZE * i) % 2 ^ 32)) := by
  have haligned : (pa + PGSIZE * i) % 2 ^ 32 % PGSIZE = 0 := by
    rw [PGSIZE] at hpa ⊢
    omega
  rw [entryAt, link_of_odd (mkpte_odd _ _), PTE_ADDR_mkpte haligned hperm]

theorem Space.allocuvm_run {oldsz newsz r : ℕ} (h : Space L s pgdir held R)
    (hempty : ∀ u, npages oldsz ≤ u → u < npages newsz → pte s pgdir u % 2 = 0)
    (hrun : (allocuvm L pgdir oldsz newsz).run s = .ok (r, s')) : Space L s' pgdir held R := by
  by_cases hbig : KERNBASE ≤ newsz
  · rw [allocuvm, if_pos hbig] at hrun
    cases hrun
    exact h
  by_cases hless : newsz < oldsz
  · rw [allocuvm, if_neg hbig, if_pos hless] at hrun
    cases hrun
    exact h
  · exact (wp_of_run_ok (wp_allocuvm (by omega) hempty h (by omega)) hrun).2.1

/-- **A directory owns its pages, and only them**, whatever it was built by. -/
theorem Built.space {d : ℕ} (h : Built L R d held s) : Space L s d held R := by
  induction h with
  | setupkvm h hrun => exact (wp_of_run_ok (wp_setupkvm h) hrun).2.1
  | allocuvm _ hempty hrun ih => exact ih.allocuvm_run hempty hrun
  | mapKernel _ hm hva hrun ih =>
    have hmaps := wp_of_run_ok (hm.wp_mappages ih.tree) hrun
    refine ih.mapsTo_kernel hmaps ?_
    rw [KERNBASE] at hva
    rw [PGSIZE]
    omega
  | @mapUser held s s' va size pa perm r _ hm hva hrun ih =>
    have hle : va / PGSIZE + npages size ≤ 2 ^ 19 := by
      have h' := hm.va_aligned
      rw [KERNBASE] at hva
      rw [npages]
      rw [PGSIZE] at h' ⊢
      omega
    have hmaps := wp_of_run_ok (hm.wp_mappages ih.tree) hrun
    exact ih.mapsTo_user hmaps hle (link_entryAt hm.pa_aligned hm.perm_lt)
      fun u hu hu' => hm.empty hu hu'

/-- `freevm` puts the pages of a directory on the free list. -/
theorem Space.freevm_exact {d : ℕ} (h : Space L s d held R) :
    wp (freevm L d) (fun _ s' => (↑s'.freelist : Multiset ℕ) = ↑s.freelist + pages s d ∧
      s'.freelist.Nodup) (fun _ => False) s := by
  refine (wp_freevm h).mono ?_ fun _ => id
  rintro _ s' ⟨hfree, -⟩
  have hsum : (↑s'.freelist + held : Multiset ℕ) = ↑s.freelist + pages s d + held := by
    rw [hfree.sum, ← h.sum, pages]
    ac_rfl
  refine ⟨add_right_cancel hsum, ?_⟩
  have hnodup : (↑s'.freelist + held : Multiset ℕ).Nodup := hfree.sum ▸ R.nodup
  exact Multiset.coe_nodup.mp (Multiset.nodup_add.mp hnodup).1

end Built

/-! ### The map before and after -/

/-- **`mappages` refines the translation of addresses, and `freevm` gives back what was taken.**
It returns; with 0, the pages of the range are translated to the pages from `pa` on with the
flags asked for; with -1, some of them may be. All other addresses are translated as before, and
the pages taken from the free list are tables of the directory. What `freevm` adds to the free
list are the pages of the directory, each once. -/
theorem mappages_refines (h : Tree L s pgdir) (hm : Mappable s pgdir va size pa perm) :
    wp (mappages pgdir va size pa perm) (fun r s' =>
      (r = 0 ∧ (∀ a, va ≤ a → a < va + PGSIZE * npages size →
          translate s' pgdir a = some ((pa + (a - va)) % 2 ^ 32, perm ||| PTE_P)) ∨ r = -1) ∧
      (∀ a < 2 ^ 32, ¬(va ≤ a ∧ a < va + PGSIZE * npages size) →
        translate s' pgdir a = translate s pgdir a) ∧
      (↑s'.freelist + tables s' pgdir : Multiset ℕ) = ↑s.freelist + tables s pgdir)
      (fun _ => False) s ∧
    ∀ (R : Finset ℕ) (d : ℕ) (held : Multiset ℕ) (s₁ : State), Built L R d held s₁ →
      wp (freevm L d) (fun _ s₂ => (↑s₂.freelist : Multiset ℕ) = ↑s₁.freelist + pages s₁ d ∧
        s₂.freelist.Nodup) (fun _ => False) s₁ := by
  refine ⟨(hm.wp_mappages h).mono ?_ fun _ => id, fun R d held s₁ hb => hb.space.freevm_exact⟩
  rintro r s' ⟨hext, -, ⟨k, hk, hr⟩, -⟩
  have hva := hm.va_eq
  have hlast := hm.last_le
  refine ⟨?_, fun a ha hno => ?_, hext.sum⟩
  · rcases hr with ⟨hr, rfl⟩ | ⟨hr, -⟩
    · refine .inl ⟨hr, fun a ha ha' => ?_⟩
      have hpage : va / PGSIZE ≤ a / PGSIZE ∧ a / PGSIZE < va / PGSIZE + npages size := by
        rw [PGSIZE] at hva ha' ⊢
        omega
      have hpte := hk (a / PGSIZE) (by omega)
      rw [if_pos hpage] at hpte
      have htrans := translate_of_entryAt hm.pa_aligned hm.perm_lt
        (Nat.add_sub_cancel' hpage.1).symm hpte
      rwa [← hva] at htrans
    · exact .inr hr
  · have hpage : ¬(va / PGSIZE ≤ a / PGSIZE ∧ a / PGSIZE < va / PGSIZE + k) := by
      rw [PGSIZE] at hva hno ⊢
      omega
    have hlt : a / PGSIZE < 2 ^ 20 := by
      rw [PGSIZE]
      omega
    exact translate_congr (by rw [hk _ hlt, if_neg hpage])

end

/-! ### A machine with free pages -/

/-- `n` pages are free. -/
def roomy (n : ℕ) : State := ⟨fun _ _ => 0, (List.range n).map roomyPage, fun _ => false⟩

theorem roomy_free {n : ℕ} (hn : n ≤ 50000) : Free smallLayout (roomy n) 0 (roomyPages n) where
  sum := by rw [add_zero]; rfl
  page _ hx := roomy_page hn hx

theorem roomy_willing (n : ℕ) : (roomy n).Willing := fun _ => rfl

/-- There is room for the mappings of the kernel. -/
theorem roomy_setupkvm {n : ℕ} (hn : 1025 < n) (hn' : n ≤ 50000) :
    ∃ d s, Built smallLayout (roomyPages n) d 0 s := by
  have hfree := roomy_free hn'
  obtain ⟨r, s, hrun, -, hres⟩ := exists_of_wp (wp_setupkvm hfree)
  cases r with
  | none =>
    have hcard := hres.2 (roomy_willing n)
    rw [card_roomyPages, Multiset.card_zero] at hcard
    omega
  | some d => exact ⟨d, s, .setupkvm hfree hrun⟩

/-- One byte is mapped in a directory without entries, and a directory with the mappings of the
kernel is freed. -/
theorem mappages_refines_byte : ∃ s', (mappages 0x80200000 0 1 0 PTE_W).run
      (smallStart.fill 0x80200000 0) = .ok (0, s') ∧
    translate s' 0x80200000 0xfff = some (0xfff, PTE_W ||| PTE_P) ∧
    ∃ d s₁ s₂, (freevm smallLayout d).run s₁ = .ok ((), s₂) ∧
      (↑s₂.freelist : Multiset ℕ) = ↑s₁.freelist + pages s₁ d := by
  obtain ⟨hspace, -, hzero⟩ := smallStart_free.newDir
  have hm : Mappable (smallStart.fill 0x80200000 0) 0x80200000 0 1 0 PTE_W := by
    refine ⟨by decide, by decide, by decide, by decide, by decide, by decide, fun a _ _ => ?_⟩
    rw [translate, hzero]
    rfl
  obtain ⟨hmap, hfree⟩ := mappages_refines hspace.tree hm
  obtain ⟨r, s', hrun, hres, -⟩ := exists_of_wp hmap
  have hr : ((mappages 0x80200000 0 1 0 PTE_W).run (smallStart.fill 0x80200000 0)).toOption.map
      (·.1) = some 0 := by decide +kernel
  rw [hrun] at hr
  obtain rfl : r = 0 := Option.some.inj hr
  rcases hres with ⟨-, htrans⟩ | hneg
  · obtain ⟨d, s₁, hb⟩ := roomy_setupkvm (n := 1026) (by decide) (by decide)
    obtain ⟨_, s₂, hrun₂, hsum, -⟩ := exists_of_wp (hfree _ d 0 s₁ hb)
    exact ⟨s', hrun, htrans 0xfff (by decide) (by decide), d, s₁, s₂, hrun₂, hsum⟩
  · omega

end Xv6.Vm
