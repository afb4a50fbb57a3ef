import Mathlib.Algebra.BigOperators.Group.List.Basic
import Mathlib.Data.List.Pairwise
import Mathlib.Order.Nat
import Xv6.Lib.Links
import Xv6.User.Malloc

/-!
# The heap is sound

The free list is a cycle in the order of the addresses, in which no block touches the next; all
blocks, free or not, are apart; and they make up what `sbrk` has given. `free` keeps this: where
a block is joined with one behind it, that block first goes to the one being freed, which is then
either put into the list or given to the one before it.
-/

namespace Xv6.Malloc

open Function Links

open Vm (KERNBASE)

/-- The two blocks have no unit in common. -/
def Apart (s : State) (a b : ℕ) : Prop := a + 8 * s.size a ≤ b ∨ b + 8 * s.size b ≤ a

/-- A block of memory that `sbrk` has given. -/
structure Block (base : ℕ) (s : State) (b : ℕ) : Prop where
  aligned : b % 8 = 0
  above : base + 8 ≤ b
  pos : 0 < s.size b
  below : b + 8 * s.size b ≤ s.top

/-- Where `base` and the end of the process are. -/
structure Place (base : ℕ) (s : State) : Prop where
  base_pos : 0 < base
  above : base + 8 ≤ s.top
  top_aligned : s.top % 8 = 0
  top_le : s.top ≤ KERNBASE

theorem Place.congr {base : ℕ} {s s' : State} (h : Place base s) (htop : s'.top = s.top) :
    Place base s' :=
  ⟨h.base_pos, htop ▸ h.above, htop ▸ h.top_aligned, htop ▸ h.top_le⟩

theorem Block.congr {base b : ℕ} {s s' : State} (h : Block base s b) (hsize : s'.size b = s.size b)
    (htop : s'.top = s.top) : Block base s' b :=
  ⟨h.aligned, h.above, by rw [hsize]; exact h.pos, by rw [hsize, htop]; exact h.below⟩

/-- The free list is `c`, and the program has the blocks `live`, each for so many bytes. -/
structure Heap (base : ℕ) (s : State) (c : List ℕ) (live : List (ℕ × ℕ)) : Prop where
  place : Place base s
  closed : Closed s.next c
  head : c.head? = some base
  freep : s.freep ∈ c
  sorted : c.Pairwise fun a b => a + 8 * s.size a < b
  base_size : s.size base = 0
  block : ∀ b ∈ c, b ≠ base → Block base s b
  live_block : ∀ b ∈ live, Block base s b.1 ∧ b.2 + 8 ≤ 8 * s.size b.1
  apart : ∀ a ∈ c, ∀ b ∈ live, Apart s a b.1
  live_apart : live.Pairwise fun a b => Apart s a.1 b.1
  count : (c.map s.size).sum + (live.map fun b => s.size b.1).sum = s.got

namespace Heap

variable {base : ℕ} {s s' : State} {c A B : List ℕ} {live : List (ℕ × ℕ)} {bp n p q r : ℕ}

theorem lt (h : Heap base s c live) : c.Pairwise (· < ·) :=
  h.sorted.imp fun hab => by omega

theorem base_mem (h : Heap base s c live) : base ∈ c := List.mem_of_head? h.head

theorem apart_live (h : Heap base s c ((bp, n) :: live)) {b : ℕ × ℕ} (hb : b ∈ live) :
    Apart s bp b.1 ∧ 0 < s.size b.1 ∧ 0 < s.size bp :=
  ⟨(List.pairwise_cons.mp h.live_apart).1 b hb,
    (h.live_block b (List.mem_cons_of_mem _ hb)).1.pos, (h.live_block _ List.mem_cons_self).1.pos⟩

/-- Free blocks do not touch. -/
theorem apart_free (h : Heap base s c live) (hp : p ∈ c) (hq : q ∈ c) (hne : p ≠ q) :
    p + 8 * s.size p < q ∨ q + 8 * s.size q < p := by
  have hor : c.Pairwise fun a b => a + 8 * s.size a < b ∨ b + 8 * s.size b < a :=
    h.sorted.imp Or.inl
  have hsymm : Std.Symm fun a b => a + 8 * s.size a < b ∨ b + 8 * s.size b < a :=
    ⟨fun _ _ => Or.symm⟩
  exact hor.forall hp hq hne

section

variable (h : Heap base s c ((bp, n) :: live))
include h

/-- A block that the program has is none of the others. -/
theorem ne_live {b : ℕ × ℕ} (hb : b ∈ live) : b.1 ≠ bp := by
  obtain ⟨hapart, hpos, hpos'⟩ := h.apart_live hb
  rintro rfl
  rcases hapart with h1 | h1 <;> omega

theorem notMem : bp ∉ c := by
  intro hmem
  have hpos : 0 < s.size bp := (h.live_block _ List.mem_cons_self).1.pos
  have hself : Apart s bp bp := h.apart bp hmem _ List.mem_cons_self
  rcases hself with h1 | h1 <;> omega

theorem base_lt : base < bp := by
  have habove := (h.live_block _ List.mem_cons_self).1.above
  simp only at habove
  omega

end

/-- The first node stays the first. -/
theorem head_append (h : (A ++ q :: B).head? = some base) (B' : List ℕ) :
    (A ++ q :: B').head? = some base := by
  cases A with
  | nil => exact h
  | cons a A => exact h

/-- Only the headers of the blocks count. -/
theorem congr (h : Heap base s c live) (hnext : ∀ x ∈ c, s'.next x = s.next x)
    (hsize : ∀ x ∈ c, s'.size x = s.size x) (hlive : ∀ b ∈ live, s'.size b.1 = s.size b.1)
    (hfreep : s'.freep ∈ c) (htop : s'.top = s.top) (hgot : s'.got = s.got) :
    Heap base s' c live where
  place := h.place.congr htop
  closed := h.closed.congr hnext
  head := h.head
  freep := hfreep
  sorted := h.sorted.imp_of_mem fun {a b} ha _ hab => by rwa [hsize a ha]
  base_size := by rw [hsize base h.base_mem, h.base_size]
  block b hb hne := (h.block b hb hne).congr (hsize b hb) htop
  live_block b hb := by
    obtain ⟨hblock, hroom⟩ := h.live_block b hb
    exact ⟨hblock.congr (hlive b hb) htop, by rwa [hlive b hb]⟩
  apart a ha b hb := by
    rw [Apart, hsize a ha, hlive b hb]
    exact h.apart a ha b hb
  live_apart := h.live_apart.imp_of_mem fun {a b} ha hb hab => by
    rwa [Apart, hlive a ha, hlive b hb]
  count := by
    rw [hgot, ← h.count, List.map_congr_left hsize, List.map_congr_left hlive]

section

variable (hfreep : s'.freep = q) (htop : s'.top = s.top) (hgot : s'.got = s.got)
include hfreep htop hgot

/-- The block `r` behind `bp` becomes a part of it. -/
theorem absorb (h : Heap base s (A ++ q :: r :: B) ((bp, n) :: live)) (hr : r ≠ base)
    (hend : bp + 8 * s.size bp = r) (hq : s'.next q = s.next r)
    (hnext : ∀ x ∈ B ++ A, s'.next x = s.next x) (hbp : s'.size bp = s.size bp + s.size r)
    (hsize : ∀ x ≠ bp, s'.size x = s.size x) : Heap base s' (A ++ q :: B) ((bp, n) :: live) := by
  have hsub : (A ++ q :: B).Sublist (A ++ q :: r :: B) :=
    List.Sublist.append_left ((List.sublist_cons_self r B).cons_cons q) A
  have hbpc := h.notMem
  have hsize' : ∀ x ∈ A ++ q :: B, s'.size x = s.size x := fun x hx =>
    hsize x fun he => hbpc (he ▸ hsub.subset hx)
  have hlive' : ∀ b ∈ live, s'.size b.1 = s.size b.1 := fun b hb => hsize _ (h.ne_live hb)
  have hrblock := h.block r (by simp) hr
  have hbblock := (h.live_block _ List.mem_cons_self).1
  have hroom := (h.live_block _ List.mem_cons_self).2
  have hrpos := hrblock.pos
  have hsorted := h.sorted
  rw [List.pairwise_append, List.pairwise_cons, List.pairwise_cons] at hsorted
  obtain ⟨-, ⟨hqr, hrB, -⟩, hA⟩ := hsorted
  refine ⟨h.place.congr htop, ?_, head_append h.head B, by rw [hfreep]; simp, ?_, ?_,
    fun b hb hne => (h.block b (hsub.subset hb) hne).congr (hsize' b hb) htop,
    fun b hb => ?_, fun a ha b hb => ?_, ?_, ?_⟩
  · have hturn : Closed s.next (q :: r :: (B ++ A)) := h.closed.turn
    exact Closed.turn (hturn.remove hq hnext)
  · exact (h.sorted.sublist hsub).imp_of_mem fun {a b} ha _ hab => by rwa [hsize' a ha]
  · rw [hsize base (Nat.ne_of_lt h.base_lt), h.base_size]
  · rcases List.mem_cons.mp hb with rfl | hb
    · have hbelow := hrblock.below
      simp only at hroom ⊢
      refine ⟨⟨hbblock.aligned, hbblock.above, ?_, ?_⟩, ?_⟩ <;> rw [hbp] <;> omega
    · obtain ⟨hblock, hroom⟩ := h.live_block b (List.mem_cons_of_mem _ hb)
      exact ⟨hblock.congr (hlive' b hb) htop, by rwa [hlive' b hb]⟩
  · have hold := h.apart a (hsub.subset ha) b hb
    rcases List.mem_cons.mp hb with rfl | hb
    · rw [Apart, hsize' a ha]
      simp only [Apart, hbp] at hold ⊢
      have hplace : a + 8 * s.size a < r ∨ r + 8 * s.size r < a := by
        simp only [List.mem_append, List.mem_cons] at ha
        rcases ha with ha | rfl | ha
        · exact .inl (hA a ha r (by simp))
        · exact .inl (hqr r List.mem_cons_self)
        · exact .inr (hrB a ha)
      omega
    · rwa [Apart, hsize' a ha, hlive' b hb]
  · rw [List.pairwise_cons]
    refine ⟨fun b hb => ?_, ?_⟩
    · obtain ⟨hold, hpos, -⟩ := h.apart_live hb
      have hrb := h.apart r (by simp) b (List.mem_cons_of_mem _ hb)
      simp only [Apart] at hold hrb ⊢
      rw [hlive' b hb, hbp]
      omega
    · exact (List.pairwise_cons.mp h.live_apart).2.imp_of_mem fun {a b} ha hb hab => by
        rwa [Apart, hlive' a ha, hlive' b hb]
  · have hcount := h.count
    rw [hgot, List.map_congr_left hsize', List.map_cons, List.map_congr_left hlive']
    simp only [List.map_append, List.map_cons, List.sum_append, List.sum_cons, hbp] at hcount ⊢
    omega

/-- `bp` goes into the list, after `q`. -/
theorem insert (h : Heap base s (A ++ q :: B) ((bp, n) :: live)) (hqbp : q + 8 * s.size q < bp)
    (hB : ∀ x ∈ B, bp + 8 * s.size bp < x) (hq : s'.next q = bp) (hbp : s'.next bp = s.next q)
    (hnext : ∀ x ∈ B ++ A, s'.next x = s.next x) (hsize : s'.size = s.size) :
    Heap base s' (A ++ q :: bp :: B) live := by
  have hmem : ∀ x, x ∈ A ++ q :: bp :: B ↔ x ∈ A ++ q :: B ∨ x = bp := fun x => by
    simp only [List.mem_append, List.mem_cons]
    tauto
  have hsorted := h.sorted
  rw [List.pairwise_append, List.pairwise_cons] at hsorted
  obtain ⟨hAA, ⟨hqB, hBB⟩, hAB⟩ := hsorted
  have hblock : ∀ b, Block base s b → Block base s' b := fun b hb =>
    hb.congr (congrFun hsize b) htop
  refine ⟨h.place.congr htop, ?_, head_append h.head _, by rw [hfreep]; simp, ?_,
    by rw [hsize, h.base_size], fun b hb hne => ?_, fun b hb => ?_, fun a ha b hb => ?_, ?_, ?_⟩
  · have hturn : Closed s.next (q :: (B ++ A)) := h.closed.turn
    exact Closed.turn (hturn.insert hq hbp hnext)
  · rw [hsize, List.pairwise_append, List.pairwise_cons, List.pairwise_cons]
    refine ⟨hAA, ⟨fun x hx => ?_, hB, hBB⟩, fun a ha x hx => ?_⟩
    · rcases List.mem_cons.mp hx with rfl | hx
      · exact hqbp
      · exact hqB x hx
    · have haq := hAB a ha q List.mem_cons_self
      simp only [List.mem_cons] at hx
      rcases hx with rfl | rfl | hx
      · exact haq
      · omega
      · exact hAB a ha x (List.mem_cons_of_mem q hx)
  · rcases (hmem b).mp hb with hb | rfl
    · exact hblock b (h.block b hb hne)
    · exact hblock b (h.live_block _ List.mem_cons_self).1
  · obtain ⟨h1, h2⟩ := h.live_block b (List.mem_cons_of_mem _ hb)
    exact ⟨hblock _ h1, by rwa [hsize]⟩
  · rw [Apart, hsize]
    rcases (hmem a).mp ha with ha | rfl
    · exact h.apart a ha b (List.mem_cons_of_mem _ hb)
    · exact (h.apart_live hb).1
  · have hrest := (List.pairwise_cons.mp h.live_apart).2
    simpa only [Apart, hsize] using hrest
  · have hcount := h.count
    simp only [hsize, hgot, List.map_append, List.map_cons, List.sum_append,
      List.sum_cons] at hcount ⊢
    omega

/-- `bp` becomes a part of the block `q` before it. -/
theorem merge (h : Heap base s (A ++ q :: B) ((bp, n) :: live)) (hqb : q ≠ base)
    (hqbp : q + 8 * s.size q = bp) (hB : ∀ x ∈ B, bp + 8 * s.size bp < x)
    (hnext : ∀ x ∈ A ++ q :: B, s'.next x = s.next x) (hq : s'.size q = s.size q + s.size bp)
    (hsize : ∀ x ≠ q, s'.size x = s.size x) : Heap base s' (A ++ q :: B) live := by
  have hsorted := h.sorted
  rw [List.pairwise_append, List.pairwise_cons] at hsorted
  obtain ⟨hAA, ⟨hqB, hBB⟩, hAB⟩ := hsorted
  have hA : ∀ x ∈ A, s'.size x = s.size x := fun x hx => hsize x fun he => by
    have hlt := hAB x hx q List.mem_cons_self
    omega
  have hB' : ∀ x ∈ B, s'.size x = s.size x := fun x hx => hsize x fun he => by
    have hlt := hqB x hx
    omega
  have hqc : q ∈ A ++ q :: B := by simp
  have hqblock := h.block q hqc hqb
  have hqpos := hqblock.pos
  have hlive' : ∀ b ∈ live, s'.size b.1 = s.size b.1 := fun b hb => hsize _ fun he => by
    have hapart := h.apart q hqc b (List.mem_cons_of_mem _ hb)
    rw [Apart, he] at hapart
    omega
  have hbelow := (h.live_block _ List.mem_cons_self).1.below
  refine ⟨h.place.congr htop, h.closed.congr hnext, h.head, by rw [hfreep]; exact hqc, ?_,
    by rw [hsize base (Ne.symm hqb), h.base_size], fun b hb hne => ?_, fun b hb => ?_,
    fun a ha b hb => ?_, ?_, ?_⟩
  · rw [List.pairwise_append, List.pairwise_cons]
    refine ⟨hAA.imp_of_mem fun {a b} ha _ hab => by rwa [hA a ha], ⟨fun x hx => ?_, ?_⟩, ?_⟩
    · have hlt := hB x hx
      rw [hq]
      omega
    · exact hBB.imp_of_mem fun {a b} ha _ hab => by rwa [hB' a ha]
    · intro a ha x hx
      rw [hA a ha]
      exact hAB a ha x hx
  · by_cases hbq : b = q
    · subst hbq
      simp only at hbelow
      refine ⟨hqblock.aligned, hqblock.above, ?_, ?_⟩ <;> rw [hq] <;> omega
    · exact (h.block b hb hne).congr (hsize b hbq) htop
  · obtain ⟨hblock, hroom⟩ := h.live_block b (List.mem_cons_of_mem _ hb)
    exact ⟨hblock.congr (hlive' b hb) htop, by rwa [hlive' b hb]⟩
  · have hold := h.apart a ha b (List.mem_cons_of_mem _ hb)
    rw [Apart, hlive' b hb]
    by_cases haq : a = q
    · subst haq
      obtain ⟨hbpb, hpos, -⟩ := h.apart_live hb
      rw [Apart] at hold hbpb
      rw [hq]
      omega
    · rwa [hsize a haq]
  · have hrest := (List.pairwise_cons.mp h.live_apart).2
    exact hrest.imp_of_mem fun {a b} ha hb hab => by rwa [Apart, hlive' a ha, hlive' b hb]
  · have hcount := h.count
    simp only [hgot, List.map_append, List.map_cons, List.sum_append, List.sum_cons, hq,
      List.map_congr_left hA, List.map_congr_left hB', List.map_congr_left hlive'] at hcount ⊢
    omega

end

theorem exists_place (h : Heap base s c ((bp, n) :: live)) :
    ∃ A q B, c = A ++ q :: B ∧ (∀ x ∈ A, x < q) ∧ q < bp ∧ ∀ x ∈ B, bp < x := by
  obtain ⟨l, rfl⟩ : ∃ l, c = base :: l := by
    cases c with
    | nil => cases h.head
    | cons a l => exact ⟨l, by rw [Option.some.inj h.head]⟩
  exact exists_split h.lt h.base_lt fun hl => h.notMem (List.mem_cons_of_mem base hl)

/-- The end of a block is an address. -/
theorem add_live (h : Heap base s c ((bp, n) :: live)) :
    add bp (s.size bp) = bp + 8 * s.size bp := by
  have hbelow : bp + 8 * s.size bp ≤ s.top := (h.live_block _ List.mem_cons_self).1.below
  have htop := h.place.top_le
  rw [KERNBASE] at htop
  exact Nat.mod_eq_of_lt (by omega)

theorem below (h : Heap base s c live) (hp : p ∈ c) : p + 8 * s.size p ≤ s.top := by
  by_cases hpb : p = base
  · subst hpb
    have habove := h.place.above
    rw [h.base_size]
    omega
  · exact (h.block p hp hpb).below

theorem add_free (h : Heap base s c live) (hp : p ∈ c) : add p (s.size p) = p + 8 * s.size p := by
  have hbelow := h.below hp
  have htop := h.place.top_le
  rw [KERNBASE] at htop
  exact Nat.mod_eq_of_lt (by omega)

/-- The block after `q` is the next in the list, or `base` if `q` is the last. -/
theorem next_eq (h : Heap base s (A ++ q :: B) live) :
    (∃ r B', B = r :: B' ∧ s.next q = r) ∨ (B = [] ∧ s.next q = base) := by
  have hturn : Closed s.next (q :: (B ++ A)) := h.closed.turn
  cases B with
  | cons r B => exact .inl ⟨r, B, rfl, hturn.1⟩
  | nil =>
    refine .inr ⟨rfl, ?_⟩
    have hhead := h.head
    cases A with
    | nil => exact Eq.trans hturn (Option.some.inj hhead)
    | cons a A => exact hturn.1.trans (Option.some.inj hhead)

/-- What `joinUpper` leaves is the heap in which the block behind `bp` is a part of it if the two
touch, up to the link of `q`, which is not written yet. -/
theorem upper (h : Heap base s (A ++ q :: B) ((bp, n) :: live)) (hqbp : q < bp)
    (hB : ∀ x ∈ B, bp < x) : ∃ s₁ B₁, Heap base s₁ (A ++ q :: B₁) ((bp, n) :: live) ∧
      (∀ x ∈ B₁, bp + 8 * s₁.size bp < x) ∧ s.size bp ≤ s₁.size bp ∧
      (joinUpper s bp q).size = s₁.size ∧ (joinUpper s bp q).next bp = s₁.next q ∧
      (∀ x ∈ B₁ ++ A, (joinUpper s bp q).next x = s₁.next x) ∧
      (joinUpper s bp q).top = s₁.top ∧ (joinUpper s bp q).got = s₁.got := by
  have hbpc := h.notMem
  have hpos : 0 < s.size bp := (h.live_block _ List.mem_cons_self).1.pos
  have hapart : ∀ x ∈ B, bp + 8 * s.size bp ≤ x := fun x hx => by
    have hx' : Apart s x bp := h.apart x (by simp [hx]) _ List.mem_cons_self
    have hlt := hB x hx
    rw [Apart] at hx'
    omega
  have hne : ∀ x ∈ B ++ A, x ≠ bp := fun x hx he => hbpc (he ▸ by
    simp only [List.mem_append, List.mem_cons] at hx ⊢
    tauto)
  rw [joinUpper, h.add_live]
  split
  · next hend =>
    -- the two touch: the block behind is in the list, since `base` is before all others
    obtain ⟨r, B', rfl, hr⟩ | ⟨-, hbase⟩ := h.next_eq
    · rw [hr] at hend
      have hrb : r ≠ base := fun he => by
        have hlt := h.base_lt
        omega
      have hrblock := h.block r (by simp) hrb
      have hrbelow := hrblock.below
      have htop := h.place.top_le
      rw [KERNBASE] at htop
      have hmod : (s.size bp + s.size r) % 2 ^ 32 = s.size bp + s.size r :=
        Nat.mod_eq_of_lt (by omega)
      have hsorted := h.sorted
      rw [List.pairwise_append, List.pairwise_cons, List.pairwise_cons] at hsorted
      obtain ⟨-, ⟨hqr, hrB, -⟩, hA⟩ := hsorted
      have hqne : ∀ x ∈ B' ++ A, x ≠ q := fun x hx he => by
        rcases List.mem_append.mp hx with hx | hx
        · have hlt := hqr x (List.mem_cons_of_mem r hx)
          omega
        · have hlt := hA x hx q List.mem_cons_self
          omega
      refine ⟨((s.setSize bp (s.size bp + s.size r)).setNext q (s.next r)).setFreep q, B', ?_, ?_,
        ?_, ?_, ?_, fun x hx => ?_, rfl, rfl⟩
      · refine h.absorb (s := s) rfl rfl rfl hrb hend (by simp) (fun x hx => ?_) (by simp)
          fun x hx => ?_
        · simp [update_of_ne (hqne x hx)]
        · simp [update_of_ne hx]
      · intro x hx
        have hlt := hrB x hx
        simp
        omega
      · simp
      · simp only [size_setFreep, size_setNext, size_setSize, hr, hmod]
      · simp [hr]
      · have hxbp : x ≠ bp := hne x (by
          simp only [List.mem_append, List.mem_cons] at hx ⊢
          tauto)
        simp [update_of_ne hxbp, update_of_ne (hqne x hx)]
    · have hlt := h.base_lt
      omega
  · next hend =>
    refine ⟨s, B, h, fun x hx => ?_, le_rfl, by simp, by simp, fun x hx => ?_, rfl, rfl⟩
    · obtain ⟨r, B', rfl, hr⟩ | ⟨rfl, -⟩ := h.next_eq
      · have hle := hapart x hx
        rcases List.mem_cons.mp hx with rfl | hx
        · omega
        · have hsorted := h.sorted
          rw [List.pairwise_append, List.pairwise_cons, List.pairwise_cons] at hsorted
          have hlt := hsorted.2.1.2.1 x hx
          have hler := hapart r List.mem_cons_self
          omega
      · cases hx
    · simp [update_of_ne (hne x hx)]

/-- `joinLower` completes the heap. -/
theorem lower {s₁ : State} (h : Heap base s₁ (A ++ q :: B) ((bp, n) :: live)) (hqbp : q < bp)
    (hB : ∀ x ∈ B, bp + 8 * s₁.size bp < x) (hsize : s.size = s₁.size)
    (hbp : s.next bp = s₁.next q) (hnext : ∀ x ∈ B ++ A, s.next x = s₁.next x)
    (htop : s.top = s₁.top) (hgot : s.got = s₁.got) :
    ∃ c, Heap base ((joinLower s bp q).setFreep q) c live ∧
      ∃ p ∈ c, s₁.size bp ≤ ((joinLower s bp q).setFreep q).size p := by
  have hbpc := h.notMem
  have hqc : q ∈ A ++ q :: B := by simp
  have hpos : 0 < s₁.size bp := (h.live_block _ List.mem_cons_self).1.pos
  have hbelow : bp + 8 * s₁.size bp ≤ s₁.top := (h.live_block _ List.mem_cons_self).1.below
  have hktop := h.place.top_le
  rw [KERNBASE] at hktop
  have hne : ∀ x ∈ B ++ A, x ≠ bp ∧ x ≠ q := fun x hx => by
    refine ⟨fun he => hbpc (he ▸ by
      simp only [List.mem_append, List.mem_cons] at hx ⊢
      tauto), fun he => ?_⟩
    have hsorted := h.sorted
    rw [List.pairwise_append, List.pairwise_cons] at hsorted
    rcases List.mem_append.mp hx with hx | hx
    · have hlt := hsorted.2.1.1 x hx
      omega
    · have hlt := hsorted.2.2 x hx q List.mem_cons_self
      omega
  have hqapart : q + 8 * s₁.size q ≤ bp := by
    have happ : Apart s₁ q bp := h.apart q hqc _ List.mem_cons_self
    rw [Apart] at happ
    omega
  have hadd : add q (s.size q) = q + 8 * s₁.size q := by
    rw [hsize]
    exact h.add_free hqc
  rw [joinLower, hadd]
  split
  · next hend =>
    have hqb : q ≠ base := fun he => by
      rw [he, h.base_size] at hend
      omega
    have hmod : (s₁.size q + s₁.size bp) % 2 ^ 32 = s₁.size q + s₁.size bp :=
      Nat.mod_eq_of_lt (by omega)
    simp only [hsize, hmod]
    refine ⟨A ++ q :: B, ?_, q, hqc, by simp⟩
    refine h.merge rfl htop hgot hqb hend hB (fun x hx => ?_) (by simp) (fun x hx => ?_)
    · by_cases hxq : x = q
      · subst hxq
        simp [hbp]
      · have hx' : x ∈ B ++ A := by
          simp only [List.mem_append, List.mem_cons] at hx ⊢
          tauto
        simp [update_of_ne hxq, hnext x hx']
    · simp [update_of_ne hx, hsize]
  · next hend =>
    refine ⟨A ++ q :: bp :: B, ?_, bp, by simp, by simp [hsize]⟩
    refine h.insert rfl htop hgot (by omega) hB (by simp) ?_ (fun x hx => ?_) (by simp [hsize])
    · have hbq : bp ≠ q := by omega
      simp [update_of_ne hbq, hbp]
    · simp [update_of_ne (hne x hx).2, hnext x hx]

end Heap

/-! ### free -/

section Free

variable {base : ℕ} {s : State} {c : List ℕ} {live : List (ℕ × ℕ)} {bp n p q z fuel : ℕ}

/-- The loop of `free` stops at `p`. -/
def Stops (s : State) (bp p : ℕ) : Prop :=
  (p < bp ∧ bp < s.next p) ∨ (s.next p ≤ p ∧ (p < bp ∨ bp < s.next p))

theorem freeLoop_of_stops (h : Stops s bp p) (hfuel : 0 < fuel) :
    freeLoop s bp fuel p = some p := by
  obtain ⟨k, rfl⟩ := Nat.exists_eq_add_one_of_ne_zero hfuel.ne'
  rw [freeLoop]
  split_ifs with h1 h2
  · rfl
  · rfl
  · exact absurd h (not_or.mpr ⟨h1, h2⟩)

/-- The loop goes on until it stops. -/
theorem freeLoop_path {m : List ℕ} (hpath : Path s.next p m z) (hq : q ∈ p :: m)
    (hstop : Stops s bp q) (hgo : ∀ x ∈ p :: m, x ≠ q → ¬ Stops s bp x)
    (hfuel : m.length < fuel) : freeLoop s bp fuel p = some q := by
  induction m generalizing p fuel with
  | nil =>
    obtain rfl := List.mem_singleton.mp hq
    exact freeLoop_of_stops hstop hfuel
  | cons d m ih =>
    by_cases hpq : p = q
    · rw [hpq]
      exact freeLoop_of_stops hstop (by omega)
    · have hno := not_or.mp (hgo p List.mem_cons_self hpq)
      obtain ⟨k, rfl⟩ := Nat.exists_eq_add_one_of_ne_zero (Nat.ne_zero_of_lt hfuel)
      rw [freeLoop, if_neg hno.1, if_neg hno.2, hpath.1]
      refine ih hpath.2 ?_ (fun x hx => hgo x (List.mem_cons_of_mem p hx)) (by simpa using hfuel)
      exact (List.mem_cons.mp hq).resolve_left fun he => hpq he.symm

/-- It stops at the last block before `bp`, and at no other. -/
theorem Heap.stops_iff (h : Heap base s c ((bp, n) :: live)) (hq : q ∈ c) (hqbp : q < bp)
    (hmax : ∀ x ∈ c, x < bp → x ≤ q) (hp : p ∈ c) : Stops s bp p ↔ p = q := by
  have hne : ∀ x ∈ c, x ≠ bp := fun x hx he => h.notMem (he ▸ hx)
  obtain ⟨hmem, ⟨hlt, hgap⟩ | ⟨hlast, hfirst⟩⟩ := h.closed.next_cases h.lt hp
  · constructor
    · rintro (⟨h1, h2⟩ | ⟨h1, -⟩)
      · have hpq := hmax p hp h1
        rcases hgap q hq with h3 | h3 <;> omega
      · omega
    · rintro rfl
      refine .inl ⟨hqbp, ?_⟩
      by_contra hle
      have hnext := hmax (s.next p) hmem (lt_of_le_of_ne (not_lt.mp hle) (hne _ hmem))
      omega
  · have hqp := hlast q hq
    have hnq := hfirst q hq
    constructor
    · rintro (⟨h1, h2⟩ | ⟨-, h1 | h1⟩)
      · omega
      · have hpq := hmax p hp h1
        omega
      · omega
    · rintro rfl
      exact .inr ⟨hnq, .inl hqbp⟩

/-- `free` returns after one turn around the list at most, and keeps the heap. -/
theorem free_spec (h : Heap base s c ((bp, n) :: live)) : ∃ s' c',
    (∀ fuel, c.length ≤ fuel → free fuel (bp + 8) s = some s') ∧ Heap base s' c' live ∧
      ∃ p ∈ c', s.size bp ≤ s'.size p := by
  obtain ⟨A, q, B, rfl, hA, hqbp, hB⟩ := h.exists_place
  have hbelow : bp + 8 * s.size bp ≤ s.top := (h.live_block _ List.mem_cons_self).1.below
  have htop := h.place.top_le
  rw [KERNBASE] at htop
  have hbp : (bp + 8 + (2 ^ 32 - 8)) % 2 ^ 32 = bp := by omega
  have hqc : q ∈ A ++ q :: B := by simp
  have hmax : ∀ x ∈ A ++ q :: B, x < bp → x ≤ q := fun x hx hlt => by
    simp only [List.mem_append, List.mem_cons] at hx
    rcases hx with hx | rfl | hx
    · exact (hA x hx).le
    · exact le_rfl
    · have hgt := hB x hx
      omega
  have hloop : ∀ fuel, (A ++ q :: B).length ≤ fuel → freeLoop s bp fuel s.freep = some q := by
    intro fuel hfuel
    obtain ⟨m, hpath, hmem, hlen, -⟩ := h.closed.exists_turn h.freep
    refine freeLoop_path hpath ((hmem q).mpr hqc) ?_ (fun x hx hxq => ?_) (by omega)
    · exact (h.stops_iff hqc hqbp hmax hqc).mpr rfl
    · exact mt (h.stops_iff hqc hqbp hmax ((hmem x).mp hx)).mp hxq
  obtain ⟨s₁, B₁, h₁, hB₁, hle, hsize, hnbp, hnext, htop₁, hgot₁⟩ := h.upper hqbp hB
  obtain ⟨c', h', p, hp, hsp⟩ := h₁.lower hqbp hB₁ hsize hnbp hnext htop₁ hgot₁
  refine ⟨_, c', fun fuel hfuel => ?_, h', p, hp, hle.trans hsp⟩
  rw [free, hbp, hloop fuel hfuel]

end Free

end Xv6.Malloc
