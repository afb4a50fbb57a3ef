import Mathlib.Tactic.SplitIfs
import Xv6.Vm.Tables

/-!
# Address spaces

The pages of an address space and the free pages make up a fixed set of pages, whatever is done
to the address space: what `deallocuvm` takes out of it is free again, and `freevm` gives all of
it back.
-/

namespace Xv6.Vm

open Bytes Function

/-- The free pages, the pages of the directory and those in hand are the pages of `R`. -/
structure Space (L : Layout) (s : State) (pgdir : ℕ) (held : Multiset ℕ) (R : Finset ℕ) :
    Prop where
  sum : (↑s.freelist + {pgdir} + tables s pgdir + users s pgdir + held : Multiset ℕ) = R.val
  page : ∀ x ∈ R, KPage L x

section Space

variable {L : Layout} {s s' : State} {pgdir v x : ℕ} {held : Multiset ℕ} {R : Finset ℕ}

section

variable (h : Space L s pgdir held R)
include h

theorem Space.nodup :
    (↑s.freelist + {pgdir} + tables s pgdir + users s pgdir + held : Multiset ℕ).Nodup :=
  h.sum ▸ R.nodup

theorem Space.mem : x ∈ R ↔
    x ∈ (↑s.freelist + {pgdir} + tables s pgdir : Multiset ℕ) ∨ x ∈ users s pgdir ∨ x ∈ held := by
  rw [← Finset.mem_val, ← h.sum, Multiset.mem_add, Multiset.mem_add, or_assoc]

/-- What is not in `R`, or in hand, is neither free nor a part of the address space. -/
theorem Space.outside (hx : x ∉ R ∨ x ∈ held) :
    x ∉ (↑s.freelist + {pgdir} + tables s pgdir : Multiset ℕ) ∧ x ∉ users s pgdir := by
  rcases hx with hx | hx
  · exact ⟨fun hc => hx (h.mem.mpr (.inl hc)), fun hc => hx (h.mem.mpr (.inr (.inl hc)))⟩
  · have hdisj := Multiset.disjoint_right.mp (Multiset.nodup_add.mp h.nodup).2.2 hx
    rw [Multiset.mem_add] at hdisj
    exact ⟨fun hc => hdisj (.inl hc), fun hc => hdisj (.inr hc)⟩

theorem Space.tree : Tree L s pgdir where
  nodup := (Multiset.nodup_add.mp (Multiset.nodup_add.mp h.nodup).1).1
  page x hx := h.page x (h.mem.mpr (.inl hx))

/-- A user page is none of the others. -/
theorem Space.user (hv : v < 2 ^ 19) (hx : link (pte s pgdir v) = some x) :
    KPage L x ∧ x ∉ (↑s.freelist + {pgdir} + tables s pgdir : Multiset ℕ) ∧ x ∉ held := by
  have hmem : x ∈ users s pgdir := mem_shares.mpr ⟨v, hv, hx⟩
  have hnodup := Multiset.nodup_add.mp h.nodup
  refine ⟨h.page x (h.mem.mpr (.inr (.inl hmem))), fun hx' => ?_, fun hx' => ?_⟩
  · exact Multiset.disjoint_left.mp (Multiset.nodup_add.mp hnodup.1).2.2 hx' hmem
  · exact Multiset.disjoint_left.mp hnodup.2.2 (Multiset.mem_add.mpr (.inr hmem)) hx'

theorem Space.user_inj {u : ℕ} (hv : v < 2 ^ 19) (hu : u < 2 ^ 19)
    (hx : link (pte s pgdir v) = some x) (hx' : link (pte s pgdir u) = some x) : v = u :=
  shares_inj (f := fun v => link (pte s pgdir v))
    (Multiset.nodup_add.mp (Multiset.nodup_add.mp h.nodup).1).2.1 hv hu hx hx'

end

/-- What `deallocuvm` does to the pages from `lo` to `hi`. -/
structure Freed (s s' : State) (pgdir lo hi : ℕ) : Prop where
  dir : s'.mem pgdir = s.mem pgdir
  pte : ∀ u < 2 ^ 20, pte s' pgdir u =
    if lo ≤ u ∧ u < hi ∧ pte s pgdir u % 2 = 1 then 0 else pte s pgdir u
  frame : ∀ x ∉ tables s pgdir, (∀ u, lo ≤ u → u < hi → link (Vm.pte s pgdir u) ≠ some x) →
    s'.mem x = s.mem x

theorem Freed.tables_eq {lo hi : ℕ} (h : Freed s s' pgdir lo hi) :
    tables s' pgdir = tables s pgdir := by
  rw [tables, tab_congr h.dir, tables]

/-- Nothing to do. -/
theorem Freed.of_even {lo hi : ℕ} (h : ∀ u, lo ≤ u → u < hi → Vm.pte s pgdir u % 2 = 0) :
    Freed s s pgdir lo hi := by
  refine ⟨rfl, fun u _ => (if_neg ?_).symm, fun _ _ _ => rfl⟩
  rintro ⟨hlo, hhi, hodd⟩
  have heven := h u hlo hhi
  omega

theorem Freed.trans {s₂ : State} {lo mid hi : ℕ} (h : Freed s s' pgdir lo mid)
    (h' : Freed s' s₂ pgdir mid hi) (hlo : lo ≤ mid) (hhi : hi ≤ 2 ^ 20)
    (heven : ∀ u, hi ≤ u → u < mid → Vm.pte s pgdir u % 2 = 0) : Freed s s₂ pgdir lo hi where
  dir := h'.dir.trans h.dir
  pte u hu := by
    have hu' := heven u
    rw [h'.pte u hu, h.pte u hu]
    split_ifs <;> omega
  frame x hx hlink := by
    rw [h'.frame x (h.tables_eq ▸ hx) fun u hu hu' => ?_,
      h.frame x hx fun u hu hu' => ?_]
    · by_cases hlt : u < hi
      · exact hlink u hu hlt
      · rw [link_of_even (heven u (by omega) hu')]
        exact Option.some_ne_none x ∘ Eq.symm
    · rw [h.pte u (by omega), if_neg (by omega)]
      exact hlink u (by omega) hu'

/-! ### deallocuvm -/

/-- The state once the page `x` is freed and its entry cleared. -/
def State.unmap (s : State) (x t i : ℕ) : State := (s.give x).setEntry t i 0

section Unmap

variable {t : ℕ} (h : Space L s pgdir held R) (hv : v < 2 ^ 19)
  (ht : tab s pgdir (v / 1024) = some t)
  (hx : link (pte s pgdir v) = some x)
include h hv ht hx

theorem freed_unmap : Freed s (s.unmap x t (v % 1024)) pgdir v (v + 1) := by
  have htree := h.tree
  obtain ⟨hpage, hnot, -⟩ := h.user hv hx
  have htab : ∀ d < 1024, tab s pgdir d ≠ some x := fun d hd he =>
    hnot (Multiset.mem_add.mpr (.inr (mem_shares.mpr ⟨d, hd, he⟩)))
  have hxd : pgdir ≠ x := fun he => hnot (by simp [he])
  have hdt : pgdir ≠ t := (htree.tab_ne_dir (by omega) ht).symm
  have hgive : ∀ y ≠ x, (s.give x).mem y = s.mem y := fun y hy => mem_fill_of_ne s hy
  have htab' : tab (s.give x) pgdir = tab s pgdir := tab_congr (hgive pgdir hxd)
  have hpte' : ∀ u < 2 ^ 20, pte (s.give x) pgdir u = pte s pgdir u := fun u hu =>
    pte_congr (hgive pgdir hxd) fun t' ht' => hgive t' fun he => htab _ (by omega) (he ▸ ht')
  have hodd : pte s pgdir v % 2 = 1 := by
    by_contra he
    rw [link_of_even (by omega)] at hx
    cases hx
  refine ⟨?_, fun u hu => ?_, fun y hy hlink => ?_⟩
  · rw [State.unmap, mem_setEntry_of_ne _ hdt, hgive pgdir hxd]
  · rw [State.unmap, pte_setEntry hdt.symm (fun d hd hd' => ?_) (htab' ▸ ht) (by decide) hu,
      hpte' u hu]
    · by_cases huv : u = v
      · rw [if_pos huv, if_pos ⟨by omega, by omega, huv ▸ hodd⟩]
      · rw [if_neg huv, if_neg (by omega)]
    · rw [htab'] at hd'
      exact htree.tab_inj hd (by omega) hd' ht
  · have hyx : y ≠ x := fun he => hlink v (le_refl v) (by omega) (he ▸ hx)
    have hyt : y ≠ t := fun he => hy (mem_shares.mpr ⟨v / 1024, by omega, he ▸ ht⟩)
    rw [State.unmap, mem_setEntry_of_ne _ hyt, hgive y hyx]

theorem Space.unmap : Space L (s.unmap x t (v % 1024)) pgdir held R where
  sum := by
    have hfreed := freed_unmap h hv ht hx
    have husers : users s pgdir = users (s.unmap x t (v % 1024)) pgdir + {x} := by
      refine shares_add hv ?_ hx fun u hu hne => ?_
      · rw [hfreed.pte v (by omega)]
        split
        · exact link_of_even rfl
        · next hno => exact link_of_even (by omega)
      · rw [hfreed.pte u (by omega), if_neg (by omega)]
    rw [← h.sum, husers, hfreed.tables_eq]
    change ((x :: s.freelist : List ℕ) + _ + _ + _ + _ : Multiset ℕ) = _
    rw [← Multiset.cons_coe, ← Multiset.singleton_add]
    ac_rfl
  page := h.page

end Unmap

/-- The first page of the next table. -/
theorem skip_table (v : ℕ) (hv : v < 2 ^ 19) :
    ((PGADDR (v / 1024 + 1) 0 0 + (2 ^ 32 - PGSIZE)) % 2 ^ 32 + PGSIZE) % 2 ^ 32 =
      PGSIZE * (1024 * (v / 1024 + 1)) := by
  rw [PGADDR, PGSIZE]
  omega

theorem next_page (v : ℕ) (hv : v < 2 ^ 19) :
    (PGSIZE * v + PGSIZE) % 2 ^ 32 = PGSIZE * (v + 1) := by
  rw [PGSIZE]
  omega

/-- One round: the page `v`, or the rest of a table that is not there. -/
theorem wp_deallocPage (h : Space L s pgdir held R) (hv : v < 2 ^ 19) :
    wp (deallocPage L pgdir (PGSIZE * v)) (fun a s' => ∃ w, v < w ∧
      (a + PGSIZE) % 2 ^ 32 = PGSIZE * w ∧ Space L s' pgdir held R ∧ Freed s s' pgdir v w ∧
      ∀ u, v < u → u < w → pte s pgdir u % 2 = 0) (fun _ => False) s := by
  simp only [deallocPage, wp_bind, wp_walkpgdir_read]
  rw [PDX_page (by omega), PTX_page]
  cases ht : tab s pgdir (v / 1024) with
  | none =>
    have hnone : ∀ u, v ≤ u → u < 1024 * (v / 1024 + 1) → pte s pgdir u % 2 = 0 := by
      intro u hu hu'
      have hd : u / 1024 = v / 1024 := by omega
      simp only [pte, hd, ht]
    simp only [Option.map_none, wp_pure]
    exact ⟨1024 * (v / 1024 + 1), by omega, skip_table v hv, h, Freed.of_even hnone,
      fun u hu => hnone u hu.le⟩
  | some t =>
    have hentry : s.entry t (v % 1024) = pte s pgdir v := by rw [pte, ht]
    simp only [Option.map_some, wp_bind, wp_get, hentry]
    by_cases hp : pte s pgdir v &&& PTE_P ≠ 0
    · have hx : link (pte s pgdir v) = some (P2V (PTE_ADDR (pte s pgdir v))) := if_pos hp
      have hpage := (h.user hv hx).1
      have hne : PTE_ADDR (pte s pgdir v) ≠ 0 := fun h0 => by
        have hb := hpage.bounds
        rw [h0, P2V, KERNBASE] at hb
        omega
      rw [if_pos hp, if_neg hne, wp_bind, wp_kfree hpage]
      exact ⟨v + 1, by omega, next_page v hv, h.unmap hv ht hx, freed_unmap h hv ht hx,
        fun u hu hu' => by omega⟩
    · rw [if_neg hp]
      refine ⟨v + 1, by omega, next_page v hv, h, Freed.of_even fun u hu hu' => ?_,
        fun u hu hu' => by omega⟩
      have huv : u = v := by omega
      have heven := mt (and_PTE_P (pte s pgdir v)).mpr hp
      rw [huv]
      omega

/-- How many pages there are below an address. -/
def npages (sz : ℕ) : ℕ := (sz + (PGSIZE - 1)) / PGSIZE

theorem lt_npages {sz : ℕ} : PGSIZE * v < sz ↔ v < npages sz := by
  rw [npages, PGSIZE]
  omega

theorem PGROUNDUP_eq {sz : ℕ} (h : sz ≤ KERNBASE) : PGROUNDUP sz = PGSIZE * npages sz := by
  rw [KERNBASE] at h
  rw [PGROUNDUP, npages, PGSIZE]
  omega

theorem npages_le {sz : ℕ} (h : sz ≤ KERNBASE) : npages sz ≤ 2 ^ 19 := by
  rw [KERNBASE] at h
  rw [npages, PGSIZE]
  omega

theorem wp_deallocLoop {oldsz fuel : ℕ} (h : Space L s pgdir held R) (hsz : oldsz ≤ KERNBASE)
    (hfuel : npages oldsz - v < fuel) :
    wp (deallocLoop L pgdir oldsz fuel (PGSIZE * v))
      (fun _ s' => Space L s' pgdir held R ∧ Freed s s' pgdir v (npages oldsz))
      (fun _ => False) s := by
  have hle := npages_le hsz
  induction fuel generalizing s v with
  | zero => omega
  | succ fuel ih =>
    rw [deallocLoop]
    by_cases hv : v < npages oldsz
    · rw [if_pos (lt_npages.mpr hv), wp_bind]
      refine (wp_deallocPage h (by omega)).mono ?_ fun _ => id
      rintro a s₁ ⟨w, hvw, ha, h₁, hfreed, hskip⟩
      rw [ha]
      refine (ih h₁ (by omega)).mono ?_ fun _ => id
      rintro _ s₂ ⟨h₂, hfreed₂⟩
      exact ⟨h₂, hfreed.trans hfreed₂ hvw.le (by omega) fun u hu hu' => hskip u (by omega) hu'⟩
    · rw [if_neg (mt lt_npages.mp hv)]
      exact ⟨h, Freed.of_even fun u hu hu' => by omega⟩

theorem wp_deallocuvm {oldsz newsz : ℕ} (h : Space L s pgdir held R) (hold : oldsz ≤ KERNBASE)
    (hnew : newsz < oldsz) :
    wp (deallocuvm L pgdir oldsz newsz) (fun r s' => r = newsz ∧ Space L s' pgdir held R ∧
      Freed s s' pgdir (npages newsz) (npages oldsz)) (fun _ => False) s := by
  have hle := npages_le hold
  rw [deallocuvm, if_neg (by omega), wp_bind, PGROUNDUP_eq (by omega)]
  refine (wp_deallocLoop h hold (by rw [rounds]; omega)).mono ?_ fun _ => id
  rintro _ s' ⟨h', hfreed⟩
  exact ⟨rfl, h', hfreed⟩

/-! ### freevm -/

/-- The tables from `i` on. -/
def tablesFrom (s : State) (pgdir i : ℕ) : Multiset ℕ :=
  shares 1024 fun d => if i ≤ d then tab s pgdir d else none

/-- The tables before `i` are freed. -/
structure Emptied (s s' : State) (pgdir i : ℕ) (held : Multiset ℕ) (R : Finset ℕ) : Prop where
  dir : s'.mem pgdir = s.mem pgdir
  sum : (↑s'.freelist + {pgdir} + tablesFrom s pgdir i + held : Multiset ℕ) = R.val
  frame : ∀ x ∉ tables s pgdir, s'.mem x = s.mem x

theorem wp_freeTable {s₀ : State} {i : ℕ} (h : Tree L s₀ pgdir) (hi : i < 1024)
    (he : Emptied s₀ s pgdir i held R) :
    wp (freeTable L pgdir i) (fun _ s' => Emptied s₀ s' pgdir (i + 1) held R)
    (fun _ => False) s := by
  have hother : ∀ d < 1024, d ≠ i → (if i ≤ d then tab s₀ pgdir d else none) =
      if i + 1 ≤ d then tab s₀ pgdir d else none := fun d _ hd => by
    have hiff : i ≤ d ↔ i + 1 ≤ d := by omega
    simp only [hiff]
  simp only [freeTable, wp_bind, wp_get, entry_congr he.dir]
  by_cases hp : s₀.entry pgdir i &&& PTE_P ≠ 0
  · have ht : tab s₀ pgdir i = some (P2V (PTE_ADDR (s₀.entry pgdir i))) := if_pos hp
    rw [if_pos hp]
    generalize P2V (PTE_ADDR (s₀.entry pgdir i)) = t at ht ⊢
    rw [wp_kfree (h.tab_page hi ht)]
    refine ⟨?_, ?_, fun x hx => ?_⟩
    · rw [← he.dir]
      exact mem_fill_of_ne s (h.tab_ne_dir hi ht).symm
    · have hfrom : tablesFrom s₀ pgdir i = tablesFrom s₀ pgdir (i + 1) + {t} :=
        shares_add hi (if_neg (by omega)) (by rw [if_pos (le_refl i), ht]) hother
      rw [← he.sum, hfrom]
      change ((t :: s.freelist : List ℕ) + _ + _ + _ : Multiset ℕ) = _
      rw [← Multiset.cons_coe, ← Multiset.singleton_add]
      ac_rfl
    · rw [← he.frame x hx]
      exact mem_fill_of_ne s fun heq => hx (mem_shares.mpr ⟨i, hi, heq ▸ ht⟩)
  · have ht : tab s₀ pgdir i = none := if_neg hp
    have hfrom : tablesFrom s₀ pgdir i = tablesFrom s₀ pgdir (i + 1) := by
      refine shares_congr fun d hd => ?_
      by_cases hdi : d = i
      · rw [hdi, ht, ite_self, ite_self]
      · exact hother d hd hdi
    rw [if_neg hp]
    exact ⟨he.dir, hfrom ▸ he.sum, he.frame⟩

/-- The free pages and those in hand are the pages of `R`. -/
structure Free (L : Layout) (s : State) (held : Multiset ℕ) (R : Finset ℕ) : Prop where
  sum : (↑s.freelist + held : Multiset ℕ) = R.val
  page : ∀ x ∈ R, KPage L x

section

variable (h : Space L s pgdir held R)
include h

/-- The directory goes back to the free list with all that belongs to it. -/
theorem wp_freevm : wp (freevm L pgdir) (fun _ s' => Free L s' held R ∧
      ∀ x, x ∉ R ∨ x ∈ held → s'.mem x = s.mem x) (fun _ => False) s := by
  have hdir := h.tree.dir_page
  rw [freevm, if_neg hdir.ne_zero, wp_bind]
  refine (wp_deallocuvm h (le_refl KERNBASE) (by decide)).mono ?_ fun _ => id
  rintro _ s₁ ⟨-, h₁, hfreed⟩
  have huser : users s₁ pgdir = 0 := by
    refine shares_eq_zero fun u hu => link_of_even ?_
    have hu' : npages 0 ≤ u ∧ u < npages KERNBASE := ⟨Nat.zero_le u, hu⟩
    rw [hfreed.pte u (by omega)]
    split_ifs <;> omega
  have hstart : Emptied s₁ s₁ pgdir 0 held R := by
    have hall : tablesFrom s₁ pgdir 0 = tables s₁ pgdir := shares_congr fun d _ => if_pos d.zero_le
    refine ⟨rfl, ?_, fun _ _ => rfl⟩
    rw [hall, ← h₁.sum, huser, add_zero]
  rw [wp_bind]
  refine (wp_forRange hstart fun i hi s₂ he => wp_freeTable h₁.tree hi he).mono ?_ fun _ => id
  rintro _ s₂ ⟨-, hsum, hframe⟩
  rw [wp_kfree hdir]
  have hnone : tablesFrom s₁ pgdir 1024 = 0 := shares_eq_zero fun d hd => if_neg (by omega)
  refine ⟨⟨?_, h.page⟩, fun x hx => ?_⟩
  · rw [← hsum, hnone, add_zero]
    change ((pgdir :: s₂.freelist : List ℕ) + _ : Multiset ℕ) = _
    rw [← Multiset.cons_coe, ← Multiset.singleton_add]
    ac_rfl
  · obtain ⟨hx, hu⟩ := h.outside hx
    simp only [Multiset.mem_add, Multiset.mem_coe, Multiset.mem_singleton, not_or] at hx
    obtain ⟨⟨-, hx⟩, ht⟩ := hx
    have hgive : (s₂.give pgdir).mem x = s₂.mem x := mem_fill_of_ne s₂ hx
    rw [hgive, hframe x (hfreed.tables_eq ▸ ht), hfreed.frame x ht fun u _ hu' he => ?_]
    exact hu (mem_shares.mpr ⟨u, hu', he⟩)

/-! ### setupkvm -/

/-- Entries that are made outside the user part. -/
theorem Space.ext (he : Ext s s' pgdir) (hpte : ∀ u < 2 ^ 19, pte s' pgdir u = pte s pgdir u) :
    Space L s' pgdir held R where
  sum := by
    have husers : users s' pgdir = users s pgdir := shares_congr fun u hu => by rw [hpte u hu]
    rw [← h.sum, husers, add_right_comm (s'.freelist : Multiset ℕ), he.sum,
      add_right_comm (s.freelist : Multiset ℕ)]
  page := h.page

theorem Space.frame (he : Ext s s' pgdir) (hx : x ∉ R ∨ x ∈ held) : s'.mem x = s.mem x := by
  have hout := (h.outside hx).1
  simp only [Multiset.mem_add, Multiset.mem_coe, Multiset.mem_singleton, not_or] at hout
  refine he.frame x hout.1.2 ?_
  simp [hout]

/-- Without a free page, the pages are those in hand, the tables and the user pages. -/
theorem Space.short {m : ℕ} (hnil : s.freelist = [])
    (hempty : ∀ u < 2 ^ 19, m ≤ u → pte s pgdir u % 2 = 0) : R.card ≤ held.card + 1025 + m := by
  have htables : (tables s pgdir).card ≤ 1024 := card_shares_le fun i hi hge => by omega
  have husers : (users s pgdir).card ≤ m := card_shares_le fun u hu hge =>
    link_of_even (hempty u hu hge)
  have hcard := congrArg Multiset.card h.sum
  simp only [hnil, Multiset.card_add, Multiset.coe_nil, Multiset.card_zero, Multiset.card_singleton,
    Finset.card_val] at hcard
  omega

end

/-- The pages that an entry of `kmap` covers. -/
def Kmap.first (k : Kmap) : ℕ := k.virt / PGSIZE
def Kmap.count (k : Kmap) : ℕ := (k.phys_end + (2 ^ 32 - k.phys_start)) % 2 ^ 32 / PGSIZE

/-- Table `d` is needed for it. -/
def Kmap.Covers (k : Kmap) (d : ℕ) : Prop :=
  k.first / 1024 ≤ d ∧ d ≤ (k.first + k.count - 1) / 1024

/-- It consists of whole pages of the kernel's part. -/
structure Kmap.Good (k : Kmap) : Prop where
  virt : k.virt = PGSIZE * k.first
  size : (k.phys_end + (2 ^ 32 - k.phys_start)) % 2 ^ 32 = PGSIZE * k.count
  count_pos : 0 < k.count
  first_ge : 2 ^ 19 ≤ k.first
  last_le : k.first + k.count ≤ 2 ^ 20
  aligned : k.phys_start % PGSIZE = 0
  phys_le : k.phys_start + PGSIZE * k.count ≤ 2 ^ 32
  perm_lt : k.perm < PGSIZE

/-- The entry for `n` pages from page `v` on, at frame `p` of the memory. -/
def Kmap.span (v p n perm : ℕ) : Kmap := ⟨PGSIZE * v, PGSIZE * p, PGSIZE * (p + n) % 2 ^ 32, perm⟩

section

variable {v p n perm : ℕ}

theorem Kmap.span_first : (span v p n perm).first = v :=
  Nat.mul_div_cancel_left v (by decide)

theorem Kmap.span_size (hn : n < 2 ^ 20) (hp : p + n ≤ 2 ^ 20) :
    ((span v p n perm).phys_end + (2 ^ 32 - (span v p n perm).phys_start)) % 2 ^ 32 =
      PGSIZE * n := by
  simp only [span, PGSIZE]
  omega

theorem Kmap.span_count (hn : n < 2 ^ 20) (hp : p + n ≤ 2 ^ 20) :
    (span v p n perm).count = n := by
  rw [count, span_size hn hp]
  exact Nat.mul_div_cancel_left n (by decide)

theorem Kmap.span_good (hpos : 0 < n) (hv : 2 ^ 19 ≤ v) (hle : v + n ≤ 2 ^ 20)
    (hp : p + n ≤ 2 ^ 20) (hperm : perm < PGSIZE) : (span v p n perm).Good where
  virt := by rw [span_first, span]
  size := by rw [span_size (by omega) hp, span_count (by omega) hp]
  count_pos := by rwa [span_count (by omega) hp]
  first_ge := by rwa [span_first]
  last_le := by rwa [span_first, span_count (by omega) hp]
  aligned := Nat.mul_mod_right ..
  phys_le := by
    rw [span_count (by omega) hp]
    simp only [span, PGSIZE]
    omega
  perm_lt := hperm

end

/-- The entries of `kmap`, where the kernel's data begin with page `d`. -/
theorem exists_kmap (L : Layout) : ∃ d, 2 ^ 19 + 256 < d ∧ d < 2 ^ 19 + 57344 ∧
    kmap L = [.span (2 ^ 19) 0 256 PTE_W, .span (2 ^ 19 + 256) 256 (d - 2 ^ 19 - 256) 0,
      .span d (d - 2 ^ 19) (2 ^ 19 + 57344 - d) PTE_W, .span 1040384 1040384 8192 PTE_W] := by
  have h1 := L.data_aligned
  have h2 := L.data_gt
  have h3 := L.data_le
  have h4 := L.stop_lt
  simp only [PGSIZE, KERNLINK, KERNBASE, EXTMEM, PHYSTOP] at h1 h2 h4
  obtain ⟨d, hd⟩ : ∃ d, L.data = 4096 * d := ⟨L.data / 4096, by omega⟩
  refine ⟨d, by omega, by omega, ?_⟩
  simp only [kmap, Kmap.span, hd, PGSIZE, KERNLINK, KERNBASE, EXTMEM, PHYSTOP, DEVSPACE, V2P,
    List.cons.injEq, Kmap.mk.injEq, and_true, true_and]
  omega

theorem kmap_good : ∀ k ∈ kmap L, k.Good := by
  obtain ⟨d, hlo, hhi, heq⟩ := exists_kmap L
  simp only [heq, List.mem_cons, List.not_mem_nil, or_false]
  rintro k (rfl | rfl | rfl | rfl) <;>
    exact Kmap.span_good (by omega) (by omega) (by omega) (by omega) (by decide)

/-- The pages of the entries. -/
theorem exists_spans (L : Layout) : ∃ d, 2 ^ 19 + 256 < d ∧ d < 2 ^ 19 + 57344 ∧
    (kmap L).map (fun k => (k.first, k.count)) = [(2 ^ 19, 256),
      (2 ^ 19 + 256, d - 2 ^ 19 - 256), (d, 2 ^ 19 + 57344 - d), (1040384, 8192)] := by
  obtain ⟨d, hlo, hhi, heq⟩ := exists_kmap L
  refine ⟨d, hlo, hhi, ?_⟩
  rw [heq]
  simp only [List.map_cons, List.map_nil, Kmap.span_first]
  rw [Kmap.span_count (by omega) (by omega), Kmap.span_count (by omega) (by omega),
    Kmap.span_count (by omega) (by omega), Kmap.span_count (by omega) (by omega)]

/-- The entries of `kmap` are in the order of the addresses. -/
theorem kmap_sorted : (kmap L).Pairwise fun k l => k.first + k.count ≤ l.first := by
  obtain ⟨d, hlo, hhi, heq⟩ := exists_spans L
  have h : ((kmap L).map fun k => (k.first, k.count)).Pairwise fun a b => a.1 + a.2 ≤ b.1 := by
    rw [heq]
    simp only [List.pairwise_cons, List.mem_cons, List.not_mem_nil, or_false, forall_eq_or_imp,
      forall_eq, List.Pairwise.nil, and_true, false_imp_iff, implies_true]
    omega
  exact List.pairwise_map.mp h

/-- The entries once those of `ks` are made. -/
def kmapped (f : ℕ → ℕ) (ks : List Kmap) : ℕ → ℕ :=
  ks.foldl (fun f k => mapped f k.first k.count fun i => mkpte (k.phys_start + PGSIZE * i) k.perm) f

/-- The mappings of the kernel. -/
def kpte (L : Layout) : ℕ → ℕ := kmapped (fun _ => 0) (kmap L)

theorem kmapped_congr {f g : ℕ → ℕ} (hfg : ∀ u < 2 ^ 20, f u = g u) (ks : List Kmap) :
    ∀ u < 2 ^ 20, kmapped f ks u = kmapped g ks u := by
  induction ks generalizing f g with
  | nil => exact hfg
  | cons k ks ih =>
    refine ih fun u hu => ?_
    simp only [mapped, hfg u hu]

theorem kmapped_eq {f : ℕ → ℕ} {ks : List Kmap} {u : ℕ}
    (h : ∀ k ∈ ks, ¬(k.first ≤ u ∧ u < k.first + k.count)) : kmapped f ks u = f u := by
  induction ks generalizing f with
  | nil => rfl
  | cons k ks ih =>
    rw [kmapped, List.foldl_cons]
    refine (ih fun l hl => h l (List.mem_cons_of_mem k hl)).trans ?_
    exact if_neg (h k List.mem_cons_self)

/-- There is nothing of the kernel in the user part. -/
theorem kpte_user {u : ℕ} (hu : u < 2 ^ 19) : kpte L u = 0 :=
  kmapped_eq fun k hk hin => by
    have hge := (kmap_good k hk).first_ge
    omega

/-- The mappings are made one after the other, or all is freed. -/
theorem wp_kmapLoop {ks : List Kmap} (h : Space L s pgdir held R) (hgood : ∀ k ∈ ks, k.Good)
    (hsorted : ks.Pairwise fun k l => k.first + k.count ≤ l.first)
    (hempty : ∀ k ∈ ks, ∀ u, k.first ≤ u → u < 2 ^ 20 → pte s pgdir u % 2 = 0) :
    wp (kmapLoop L pgdir ks) (fun r s' => (∀ x, x ∉ R ∨ x ∈ held → s'.mem x = s.mem x) ∧
      if r then Space L s' pgdir held R ∧
        (∀ u < 2 ^ 20, pte s' pgdir u = kmapped (pte s pgdir) ks u) ∧
        (∀ d, (∀ k ∈ ks, ¬k.Covers d) → tab s' pgdir d = tab s pgdir d) ∧
        (s.Willing → s'.Willing)
      else Free L s' held R ∧ (s.Willing → (∀ u < 2 ^ 19, pte s pgdir u % 2 = 0) →
        R.card ≤ held.card + 1025)) (fun _ => False) s := by
  induction ks generalizing s with
  | nil => exact ⟨fun _ _ => rfl, h, fun _ _ => rfl, fun _ _ => rfl, id⟩
  | cons k ks ih =>
    have hk := hgood k List.mem_cons_self
    rw [List.pairwise_cons] at hsorted
    have hge := hk.first_ge
    have hle := hk.last_le
    simp only [kmapLoop, wp_bind]
    rw [hk.size, hk.virt]
    refine (wp_mappages h.tree hk.count_pos hle hk.aligned hk.perm_lt hk.phys_le fun u hu hu' =>
      hempty k List.mem_cons_self u hu (by omega)).mono ?_ fun _ => id
    rintro r s₁ ⟨hext, htabs, ⟨j, hj, hr⟩, hfull⟩
    have huser : ∀ u < 2 ^ 19, pte s₁ pgdir u = pte s pgdir u := fun u hu => by
      rw [hj u (by omega)]
      exact if_neg (by omega)
    have h₁ : Space L s₁ pgdir held R := h.ext hext huser
    rcases hr with ⟨rfl, rfl⟩ | ⟨rfl, -⟩
    · rw [if_neg (by decide)]
      refine (ih h₁ (fun l hl => hgood l (List.mem_cons_of_mem k hl)) hsorted.2
        fun l hl u hu hu' => ?_).mono ?_ fun _ => id
      · have hlt := hsorted.1 l hl
        rw [hj u hu', if_neg (by omega)]
        exact hempty k List.mem_cons_self u (by omega) hu'
      · rintro r s₂ ⟨hframe, hres⟩
        refine ⟨fun x hx => (hframe x hx).trans (h.frame hext hx), ?_⟩
        cases r with
        | true =>
          refine ⟨hres.1, fun u hu => (hres.2.1 u hu).trans (kmapped_congr hj ks u hu),
            fun d hd => ?_,
            fun hw => hres.2.2.2 (hext.willing hw)⟩
          rw [hres.2.2.1 d fun l hl => hd l (List.mem_cons_of_mem k hl),
            htabs d (hd k List.mem_cons_self)]
        | false =>
          exact ⟨hres.1, fun hw hempty => hres.2 (hext.willing hw) fun u hu => by
            rw [huser u hu, hempty u hu]⟩
    · rw [if_pos (by decide), wp_bind]
      refine (wp_freevm h₁).mono ?_ fun _ => id
      rintro _ s₂ ⟨hfree, hframe⟩
      refine ⟨fun x hx => (hframe x hx).trans (h.frame hext hx), hfree, fun hw hempty => ?_⟩
      exact h₁.short (m := 0) (hfull rfl hw) fun u hu _ => by rw [huser u hu, hempty u hu]

/-- There are no tables for the user part, nor between the memory and the devices. -/
theorem kmap_covers {d : ℕ} (hd : d < 512 ∨ 568 ≤ d ∧ d < 1016) : ∀ k ∈ kmap L, ¬k.Covers d := by
  obtain ⟨n, hlo, hhi, heq⟩ := exists_spans L
  intro k hk
  have hmem := List.mem_map_of_mem (f := fun k : Kmap => (k.first, k.count)) hk
  simp only [heq, List.mem_cons, List.not_mem_nil, or_false, Prod.mk.injEq] at hmem
  rw [Kmap.Covers]
  omega

theorem Free.kalloc (h : Free L s held R) {r : ℕ} (hfree : s.freelist = r :: s'.freelist) :
    Free L s' ({r} + held) R where
  sum := by
    rw [← h.sum, hfree, ← Multiset.cons_coe, ← Multiset.singleton_add]
    ac_rfl
  page := h.page

/-- A page that is in hand and all zero is a directory without entries. -/
theorem Free.newDir (h : Free L s ({pgdir} + held) R) : Space L (s.fill pgdir 0) pgdir held R ∧
    (∀ d, tab (s.fill pgdir 0) pgdir d = none) ∧ ∀ u, pte (s.fill pgdir 0) pgdir u = 0 := by
  have htab : ∀ d, tab (s.fill pgdir 0) pgdir d = none := fun d => by
    rw [tab, entry_fill_zero]
    rfl
  have hpte : ∀ u, pte (s.fill pgdir 0) pgdir u = 0 := fun u => by rw [pte, htab]
  have htables : tables (s.fill pgdir 0) pgdir = 0 := shares_eq_zero fun d _ => htab d
  have husers : users (s.fill pgdir 0) pgdir = 0 := shares_eq_zero fun u _ => by rw [hpte]; rfl
  refine ⟨⟨?_, h.page⟩, htab, hpte⟩
  rw [htables, husers, ← h.sum, add_zero, add_zero, add_assoc]
  rfl

/-- A directory with the mappings of the kernel and nothing else, or no memory. -/
theorem wp_setupkvm (h : Free L s held R) :
    wp (setupkvm L) (fun r s' => (∀ x, x ∉ R ∨ x ∈ held → s'.mem x = s.mem x) ∧
      match r with
      | some pgdir => Space L s' pgdir held R ∧ (∀ u < 2 ^ 20, pte s' pgdir u = kpte L u) ∧
        (∀ d, d < 512 ∨ 568 ≤ d ∧ d < 1016 → tab s' pgdir d = none) ∧ (s.Willing → s'.Willing)
      | none => Free L s' held R ∧ (s.Willing → R.card ≤ held.card + 1025)) (fun _ => False) s := by
  rw [setupkvm, wp_bind]
  refine wp_kalloc (fun s₁ hmem hfree _ hnil => ?_) fun pgdir s₁ hmem hfree hw => ?_
  · have hsum : (↑s₁.freelist + held : Multiset ℕ) = R.val := by rw [hfree, h.sum]
    refine ⟨fun x _ => by rw [hmem], ⟨hsum, h.page⟩, fun hw => ?_⟩
    have hcard := congrArg Multiset.card hsum
    rw [hnil hw, Multiset.coe_nil, zero_add, Finset.card_val] at hcard
    omega
  · have h₁ := h.kalloc hfree
    obtain ⟨h₂, hnone, hzero⟩ := h₁.newDir
    have hnew : ∀ x, x ∉ R ∨ x ∈ held → (s₁.fill pgdir 0).mem x = s.mem x := fun x hx => by
      have hne : x ≠ pgdir := fun he => (h₂.outside hx).1 (by simp [he])
      rw [mem_fill_of_ne _ hne, hmem]
    simp only [wp_bind, wp_modify]
    rw [if_neg (by decide), wp_bind]
    refine (wp_kmapLoop h₂ kmap_good kmap_sorted fun k _ u _ _ => by rw [hzero]).mono ?_ fun _ => id
    rintro r s₃ ⟨hframe, hres⟩
    cases r with
    | true =>
      refine ⟨fun x hx => (hframe x hx).trans (hnew x hx), hres.1, fun u hu => ?_, fun d hd => ?_,
        fun h₀ => hres.2.2.2 (hw h₀)⟩
      · exact (hres.2.1 u hu).trans (kmapped_congr (fun u _ => hzero u) (kmap L) u hu)
      · rw [hres.2.2.1 d (kmap_covers hd), hnone]
    | false =>
      exact ⟨fun x hx => (hframe x hx).trans (hnew x hx), hres.1,
        fun h₀ => hres.2 (hw h₀) fun u _ => by
        rw [hzero]⟩

/-! ### A page is added -/

/-- A free page is taken and written to. -/
theorem Space.take (h : Space L s pgdir held R) (hfree : s.freelist = x :: s'.freelist)
    (hmem : ∀ y ≠ x, s'.mem y = s.mem y) :
    Space L s' pgdir ({x} + held) R ∧ ∀ u < 2 ^ 20, pte s' pgdir u = pte s pgdir u := by
  obtain ⟨hdir, htab⟩ := h.tree.free_ne (x := x) (by simp [hfree])
  have hpte : ∀ u < 2 ^ 20, pte s' pgdir u = pte s pgdir u := fun u hu =>
    pte_congr (hmem pgdir hdir.symm) fun t ht => hmem t fun he => htab _ (by omega) (he ▸ ht)
  have htables : tables s' pgdir = tables s pgdir := by
    rw [tables, tab_congr (hmem pgdir hdir.symm), tables]
  have husers : users s' pgdir = users s pgdir := shares_congr fun u hu => by
    rw [hpte u (by omega)]
  refine ⟨⟨?_, h.page⟩, hpte⟩
  rw [htables, husers, ← h.sum, hfree, ← Multiset.cons_coe, ← Multiset.singleton_add]
  ac_rfl

/-- A page in hand is freed. -/
theorem Space.give (h : Space L s pgdir ({x} + held) R) :
    Space L (s.give x) pgdir held R ∧ ∀ u < 2 ^ 20, pte (s.give x) pgdir u = pte s pgdir u := by
  have hout := (h.outside (x := x) (.inr (by simp))).1
  simp only [Multiset.mem_add, Multiset.mem_coe, Multiset.mem_singleton, not_or] at hout
  have hmem : ∀ y ≠ x, (s.give x).mem y = s.mem y := fun y hy => mem_fill_of_ne s hy
  have hdir : (s.give x).mem pgdir = s.mem pgdir := hmem pgdir (Ne.symm hout.1.2)
  have hpte : ∀ u < 2 ^ 20, pte (s.give x) pgdir u = pte s pgdir u := fun u hu =>
    pte_congr hdir fun t ht => hmem t fun he =>
      hout.2 (mem_shares.mpr ⟨u / 1024, by omega, he ▸ ht⟩)
  have htables : tables (s.give x) pgdir = tables s pgdir := by rw [tables, tab_congr hdir, tables]
  have husers : users (s.give x) pgdir = users s pgdir := shares_congr fun u hu => by
    rw [hpte u (by omega)]
  refine ⟨⟨?_, h.page⟩, hpte⟩
  rw [htables, husers, ← h.sum]
  change ((x :: s.freelist : List ℕ) + _ + _ + _ + _ : Multiset ℕ) = _
  rw [← Multiset.cons_coe, ← Multiset.singleton_add]
  ac_rfl

theorem Space.freed_frame {lo hi : ℕ} (h : Space L s pgdir held R) (hf : Freed s s' pgdir lo hi)
    (hhi : hi ≤ 2 ^ 19) (hx : x ∉ R ∨ x ∈ held) : s'.mem x = s.mem x := by
  obtain ⟨hx, hu⟩ := h.outside hx
  refine hf.frame x (fun ht => hx (Multiset.mem_add.mpr (.inr ht))) fun u _ hu' he => ?_
  exact hu (mem_shares.mpr ⟨u, by omega, he⟩)

/-- A page in hand is mapped in the user part, or stays in hand. -/
theorem Space.mapUser {perm : ℕ} (h : Space L s pgdir ({x} + held) R) (hv : v < 2 ^ 19)
    (hperm : perm < PGSIZE) (heven : pte s pgdir v % 2 = 0) :
    wp (mappages pgdir (PGSIZE * v) PGSIZE (V2P x) perm) (fun r s' => Ext s s' pgdir ∧
      (∀ d, 512 ≤ d → tab s' pgdir d = tab s pgdir d) ∧
      (r = 0 ∧ Space L s' pgdir held R ∧
          (∀ u < 2 ^ 20, pte s' pgdir u = if u = v then mkpte (V2P x) perm else pte s pgdir u) ∨
        r = -1 ∧ Space L s' pgdir ({x} + held) R ∧ (∀ u < 2 ^ 20, pte s' pgdir u = pte s pgdir u) ∧
          (s.Willing → s'.freelist = [])))
      (fun _ => False) s := by
  have hx : KPage L x := h.page x (h.mem.mpr (.inr (.inr (by simp))))
  have hlt : V2P x + PGSIZE * 1 ≤ 2 ^ 32 := by
    have hV := hx.V2P_lt
    rw [PHYSTOP] at hV
    rw [PGSIZE]
    omega
  refine (wp_mappages (n := 1) h.tree (by decide) (by omega) hx.V2P_aligned hperm hlt
    fun u hu hu' => ?_).mono ?_ fun _ => id
  · have huv : u = v := by omega
    rw [huv, heven]
  rintro r s' ⟨hext, htabs, ⟨k, hk, hr⟩, hfull⟩
  refine ⟨hext, fun d hd => htabs d (by omega), ?_⟩
  rcases hr with ⟨rfl, rfl⟩ | ⟨rfl, hk0⟩
  · have hpte : ∀ u < 2 ^ 20,
        pte s' pgdir u = if u = v then mkpte (V2P x) perm else pte s pgdir u := fun u hu => by
      rw [hk u hu]
      by_cases huv : u = v
      · rw [if_pos (by omega), if_pos huv, huv, Nat.sub_self, Nat.mul_zero, Nat.add_zero]
      · rw [if_neg (by omega), if_neg huv]
    refine .inl ⟨rfl, ⟨?_, h.page⟩, hpte⟩
    have husers : users s' pgdir = users s pgdir + {x} := by
      refine shares_add hv (link_of_even heven) ?_ fun u hu hne => ?_
      · rw [hpte v (by omega), if_pos rfl, link_mkpte hx hperm]
      · rw [hpte u (by omega), if_neg hne]
    have hsum := h.sum
    rw [add_right_comm (s.freelist : Multiset ℕ), ← hext.sum] at hsum
    rw [← hsum, husers]
    ac_rfl
  · have hk0 : k = 0 := by omega
    subst hk0
    have hpte : ∀ u < 2 ^ 20, pte s' pgdir u = pte s pgdir u := fun u hu =>
      (hk u hu).trans (if_neg (by omega))
    exact .inr ⟨rfl, h.ext hext fun u hu => hpte u (by omega), hpte, hfull rfl⟩

/-! ### The pages of a directory -/

/-- The directory, its tables and the user pages. -/
def pages (s : State) (pgdir : ℕ) : Multiset ℕ := {pgdir} + tables s pgdir + users s pgdir

theorem mem_pages : x ∈ pages s pgdir ↔ x = pgdir ∨ x ∈ tables s pgdir ∨ x ∈ users s pgdir := by
  rw [pages, Multiset.mem_add, Multiset.mem_add, Multiset.mem_singleton, or_assoc]

/-- A directory whose pages are as they were. -/
theorem pages_congr (h : ∀ x ∈ pages s pgdir, s'.mem x = s.mem x) :
    tab s' pgdir = tab s pgdir ∧ (∀ u < 2 ^ 20, pte s' pgdir u = pte s pgdir u) ∧
      pages s' pgdir = pages s pgdir := by
  have hdir : s'.mem pgdir = s.mem pgdir := h pgdir (mem_pages.mpr (.inl rfl))
  have htab : tab s' pgdir = tab s pgdir := tab_congr hdir
  have hpte : ∀ u < 2 ^ 20, pte s' pgdir u = pte s pgdir u := fun u hu =>
    pte_congr hdir fun t ht => h t (mem_pages.mpr (.inr (.inl (mem_shares.mpr
      ⟨u / 1024, by omega, ht⟩))))
  have husers : users s' pgdir = users s pgdir := shares_congr fun u hu => by
    rw [hpte u (by omega)]
  exact ⟨htab, hpte, by rw [pages, tables, htab, husers, pages, tables]⟩

/-- Seen from outside, the pages of a directory are in hand. -/
theorem Space.free (h : Space L s pgdir held R) : Free L s (pages s pgdir + held) R where
  sum := by
    rw [← h.sum, pages]
    ac_rfl
  page := h.page

theorem Free.space (h : Free L s (pages s pgdir + held) R) : Space L s pgdir held R where
  sum := by
    rw [← h.sum, pages]
    ac_rfl
  page := h.page

end Space

end Xv6.Vm
