import Xv6.User.Runs
import Xv6.Vm.Grow

/-!
# The sizes that `malloc` computes

`malloc` rounds a number of bytes up to units, `morecore` goes back to bytes, and `sbrk` takes
these for an `int`; the first two are arithmetic of 32 bits. Three ranges of `nbytes` are to be
told apart: those for which all is well, those for which `sbrk` gets a number that is not
positive, and the last seven, which are rounded up to nothing.
-/

namespace Xv6.Malloc

open Function Links

open Vm (KERNBASE)

/-- The `int` with the bits of `n`. -/
def toInt (n : ℕ) : ℤ := if n < 2 ^ 31 then n else n - 2 ^ 32

/-- `growproc` on the page tables of a process gives the new size that `sbrk` reckons with here, or
none where there is too little memory. -/
theorem growproc_of_tables {L : Vm.Layout} {s : Vm.State} {p : Vm.Proc} {R : Finset ℕ} {n : ℕ}
    (h : Vm.UserSpace L s p R) (hn : n < 2 ^ 32) :
    wp (Vm.growproc L p (toInt n)) (fun r _ => ∃ enough,
      growproc enough p.sz n = if r.1 = 0 then some r.2.sz else none) (fun _ => False) s := by
  have hsz := h.sz_lt
  have hbase : KERNBASE = 2 ^ 31 := rfl
  have hint : toInt n = n ∧ n < 2 ^ 31 ∨ toInt n = n - 2 ^ 32 ∧ ¬n < 2 ^ 31 := by
    rw [toInt]
    split <;> omega
  refine (Vm.wp_growproc h (by omega) (by omega)).mono ?_ fun _ => id
  rintro r s' ⟨-, -, hcase⟩
  cases hcase with
  | exact hpos hlt hr =>
    have hnew := hr.sz
    exact ⟨true, by grind [growproc]⟩
  | refused | below | emptied => exact ⟨false, by grind [growproc]⟩

/-- The units that `morecore` adds to the free list, and what it asks `sbrk` for. -/
def grown (nu : ℕ) : ℕ := if nu < 4096 then 4096 else nu
def increment (nu : ℕ) : ℤ := toInt (grown nu * 8 % 2 ^ 32)

/-- From `prevp` and `p` the loop of `malloc` comes to a call of `morecore`, in `s'`. -/
inductive Comes (answer : ℕ → Option ℕ) (nunits : ℕ) : ℕ → ℕ → State → State → Prop
  | here {prevp p : ℕ} {s : State} (hfit : s.size p < nunits) (hp : p = s.freep) :
      Comes answer nunits prevp p s s
  | next {prevp p : ℕ} {s s' : State} (hfit : s.size p < nunits) (hp : p ≠ s.freep)
      (h : Comes answer nunits p (s.next p) s s') : Comes answer nunits prevp p s s'
  | again {prevp p fuel q : ℕ} {s s₁ s' : State} (hfit : s.size p < nunits) (hp : p = s.freep)
      (hmore : morecore answer fuel nunits s = some (q, s₁)) (hq : q ≠ 0)
      (h : Comes answer nunits q (s₁.next q) s₁ s') : Comes answer nunits prevp p s s'

/-- The block that `malloc` returns has room for `nbytes` and is inside the process, and `sbrk`
is asked for a positive number that covers the units `morecore` adds. -/
structure Sized (base : ℕ) (answer : ℕ → Option ℕ) (nbytes : ℕ) (s : State) : Prop where
  room : ∀ fuel p s', malloc base answer fuel nbytes s = some (p, s') → p ≠ 0 →
    nbytes + 8 ≤ 8 * s'.size (p - 8) ∧ p - 8 + 8 * s'.size (p - 8) ≤ s'.top
  asks : ∀ s', Comes answer (units nbytes) (s.start base).freep
      ((s.start base).next (s.start base).freep) (s.start base) s' →
    0 < increment (units nbytes) ∧ 8 * (grown (units nbytes) : ℤ) ≤ increment (units nbytes)

section

variable {base : ℕ} {answer : ℕ → Option ℕ} {s s' : State} {c : List ℕ} {live : List (ℕ × ℕ)}
  {nbytes nunits prevp p f : ℕ}

theorem comes_of_path {m : List ℕ} (hpath : Path s.next prevp m f) (hfreep : s.freep = f)
    (hf : f ∉ m) (hall : ∀ x ∈ m ++ [f], s.size x < nunits) :
    Comes answer nunits prevp (s.next prevp) s s := by
  induction m generalizing prevp with
  | nil =>
    have hnext : s.next prevp = f := hpath
    exact .here (hall _ (by simp [hnext])) (hnext.trans hfreep.symm)
  | cons d m ih =>
    have hnext : s.next prevp = d := hpath.1
    rw [List.mem_cons, not_or] at hf
    refine .next (hall _ (by simp [hnext])) ?_ ?_
    · rw [hnext, hfreep]
      exact Ne.symm hf.1
    · rw [hnext]
      exact ih hpath.2 hf.2 fun x hx => hall x (List.mem_cons_of_mem d hx)

/-- Where no block is large enough `morecore` is called. -/
theorem Heap.comes (h : Heap base s c live) (hall : ∀ x ∈ c, s.size x < nunits) :
    Comes answer nunits s.freep (s.next s.freep) s s := by
  obtain ⟨m, hpath, hmem, -, hf⟩ := h.closed.exists_turn h.freep
  refine comes_of_path hpath rfl (hf (h.lt.imp fun hab => hab.ne)) fun x hx => hall x ?_
  rw [← hmem x, List.mem_cons]
  rw [List.mem_append, List.mem_singleton] at hx
  exact hx.symm

/-- There are no free blocks if and only if the list has one element. -/
theorem Heap.alone_iff (h : Heap base s c live) :
    (∀ x ∈ c, s.size x < 1) ↔ s.next s.freep = s.freep := by
  obtain ⟨m, hpath, hmem, -, hf⟩ := h.closed.exists_turn h.freep
  have hf := hf (h.lt.imp fun hab => hab.ne)
  constructor
  · intro hall
    have hbase : ∀ x ∈ c, x = base := by
      intro x hx
      by_contra hne
      have hpos := (h.block x hx hne).pos
      have hlt := hall x hx
      omega
    cases m with
    | nil => exact hpath
    | cons d m =>
      have hd : d = s.freep := (hbase d ((hmem d).mp (by simp))).trans (hbase _ h.freep).symm
      exact absurd (hd ▸ List.mem_cons_self) hf
  · intro hnext x hx
    have hm : m = [] := by
      cases m with
      | nil => rfl
      | cons d m =>
        have hd : d = s.freep := hpath.1.symm.trans hnext
        exact absurd (hd ▸ List.mem_cons_self) hf
    subst hm
    have hone : ∀ y ∈ c, y = s.freep := fun y hy => List.mem_singleton.mp ((hmem y).mpr hy)
    rw [hone x hx, ← hone base h.base_mem, h.base_size]
    exact Nat.one_pos

theorem start_alone_iff (base : ℕ) (s : State) :
    (s.start base).next (s.start base).freep = (s.start base).freep ↔
    s.freep = 0 ∨ s.next s.freep = s.freep := by
  rw [State.start]
  by_cases h : s.freep = 0
  · rw [if_pos h]
    simp [h]
  · rw [if_neg h]
    simp [h]

theorem sbrk_start (base n : ℕ) (s : State) :
    (sbrk answer n (s.start base)).1 = (sbrk answer n s).1 := by
  by_cases h : s.freep = 0
  · have htop : (s.start base).top = s.top := by rw [State.start, if_pos h]; rfl
    have hcalls : (s.start base).calls = s.calls := by rw [State.start, if_pos h]; rfl
    rw [sbrk, sbrk, htop, hcalls]
    split <;> rfl
  · rw [State.start, if_neg h]

/-! ### The three ranges -/

theorem units_of_lt (h : nbytes < 2 ^ 32 - 7) : units nbytes = (nbytes + 7) / 8 + 1 := by
  rw [units, Nat.mod_eq_of_lt (by omega)]
  rfl

/-- The last seven numbers are rounded up to nothing. -/
theorem units_of_ge (h : 2 ^ 32 - 7 ≤ nbytes) (h' : nbytes < 2 ^ 32) : units nbytes = 1 := by
  rw [units]
  omega

theorem increment_of_lt (h : nunits < 2 ^ 28) :
    0 < increment nunits ∧ increment nunits = 8 * (grown nunits : ℤ) := by
  have hgrown : 4096 ≤ grown nunits ∧ grown nunits < 2 ^ 28 := by
    rw [grown]
    split <;> omega
  rw [increment, toInt, Nat.mod_eq_of_lt (by omega), if_pos (by omega)]
  omega

theorem increment_of_ge (h : 2 ^ 28 ≤ nunits) (h' : nunits ≤ 2 ^ 29) : increment nunits ≤ 0 := by
  have hgrown : grown nunits = nunits := if_neg (by omega)
  rw [increment, hgrown, toInt]
  split <;> omega

theorem morecore_refused (fuel : ℕ) (h : (sbrk answer (grown nunits * 8 % 2 ^ 32) s).1 = none) :
    ∃ s', morecore answer fuel nunits s = some (0, s') := by
  obtain ⟨s₁, hs⟩ : ∃ s₁, sbrk answer (grown nunits * 8 % 2 ^ 32) s = (none, s₁) :=
    ⟨_, Prod.ext h rfl⟩
  refine ⟨s₁, ?_⟩
  rw [grown] at hs
  simp only [morecore, hs]

/-- A call returns the same with all fuel that suffices. -/
theorem malloc_unique {fuel n p' : ℕ} {s₁ s₂ : State}
    (h : malloc base answer fuel nbytes s = some (p, s₁))
    (heq : ∀ fuel, n ≤ fuel → malloc base answer fuel nbytes s = some (p', s₂)) :
    p = p' ∧ s₁ = s₂ := by
  have hmax : malloc base answer (max fuel n) nbytes s = some (p, s₁) :=
    mallocLoop_mono (le_max_left fuel n) h
  rw [heq _ (le_max_right fuel n)] at hmax
  cases hmax
  exact ⟨rfl, rfl⟩

theorem Sound.sized_of_le (h : Sound base s live) (hn : nbytes ≤ 2 ^ 31 - 16) :
    Sized base answer nbytes s := by
  obtain ⟨c, h'⟩ := h.start
  have hunits := units_of_lt (show nbytes < 2 ^ 32 - 7 by omega)
  have hlt : units nbytes < 2 ^ 28 := by omega
  have hroom : nbytes + 8 ≤ 8 * units nbytes := by omega
  obtain ⟨n, p, s', heq, hres⟩ := h'.mallocLoop_spec answer (by omega) hlt hroom
  constructor
  · intro fuel p' s₁ hcall hp'
    obtain ⟨rfl, rfl⟩ := malloc_unique hcall heq
    rcases hres with ⟨hp, -⟩ | ⟨b, c', rfl, hc⟩
    · exact absurd hp hp'
    · obtain ⟨hblock, hroom⟩ := hc.live_block _ List.mem_cons_self
      rw [Nat.add_sub_cancel]
      exact ⟨hroom, hblock.below⟩
  · intro s₁ _
    obtain ⟨hpos, hinc⟩ := increment_of_lt hlt
    exact ⟨hpos, hinc.ge⟩

/-- Where there is nothing to take a block of one unit from, nothing is returned. -/
theorem sized_of_refused (h : 2 ^ 32 - 7 ≤ nbytes) (hn : nbytes < 2 ^ 32)
    (hsound : Sound base s live) (halone : s.freep = 0 ∨ s.next s.freep = s.freep)
    (hnone : (sbrk answer 32768 s).1 = none) : Sized base answer nbytes s := by
  obtain ⟨c, h'⟩ := hsound.start
  have hunits := units_of_ge h hn
  have hnext := (start_alone_iff base s).mpr halone
  have hsmall := h'.alone_iff.mpr hnext _ h'.freep
  constructor
  · intro fuel p s' hcall hp
    cases fuel with
    | zero => cases hcall
    | succ fuel =>
      simp only [malloc, hunits, hnext, mallocLoop] at hcall
      rw [if_neg (by omega), if_true] at hcall
      rw [← sbrk_start base] at hnone
      obtain ⟨s₁, hmore⟩ :=
        morecore_refused fuel (show (sbrk answer (grown 1 * 8 % 2 ^ 32) _).1 = none from hnone)
      simp only [hmore, if_true, Option.some.injEq, Prod.mk.injEq] at hcall
      exact absurd hcall.1.symm hp
  · intro s₁ _
    obtain ⟨hpos, hinc⟩ := increment_of_lt (show units nbytes < 2 ^ 28 by omega)
    exact ⟨hpos, hinc.ge⟩

/-- **The sizes of a call of `malloc` do not wrap if and only if `nbytes` is at most
`2 ^ 31 - 16`, or it is one of the last seven numbers and there is neither a free block nor memory
for a new one**, for every sound heap. -/
theorem sized_iff (h : Sound base s live) (hn : nbytes < 2 ^ 32) :
    Sized base answer nbytes s ↔ nbytes ≤ 2 ^ 31 - 16 ∨
      2 ^ 32 - 7 ≤ nbytes ∧ (s.freep = 0 ∨ s.next s.freep = s.freep) ∧
        (sbrk answer 32768 s).1 = none := by
  constructor
  · intro hs
    obtain ⟨c, h'⟩ := h.start
    have htop := h'.place.top_le
    rw [KERNBASE] at htop
    by_cases hsmall : nbytes ≤ 2 ^ 31 - 16
    · exact .inl hsmall
    by_cases hlast : 2 ^ 32 - 7 ≤ nbytes
    · have hunits := units_of_ge hlast hn
      have hroom : 0 + 8 ≤ 8 * units nbytes := by omega
      obtain ⟨n, p, s', heq, hres⟩ := h'.mallocLoop_spec answer (by omega) (by omega) hroom
      rcases hres with ⟨-, -, hall, hnone⟩ | ⟨b, c', rfl, hc⟩
      · rw [hunits] at hall hnone
        exact .inr ⟨hlast, (start_alone_iff base s).mp (h'.alone_iff.mp hall),
          (sbrk_start base 32768 s).symm.trans hnone⟩
      · -- a block that has been returned is far too small
        have hbad := hs.room n (b + 8) s' (heq n (le_refl n)) (by omega)
        have htop' := hc.place.top_le
        rw [KERNBASE] at htop'
        omega
    · -- no block is so large, and `sbrk` is asked for a number that is not positive
      have hunits := units_of_lt (show nbytes < 2 ^ 32 - 7 by omega)
      have hall : ∀ x ∈ c, (s.start base).size x < units nbytes := by
        intro x hx
        have hbelow := h'.below hx
        have habove := h'.place.base_pos
        by_cases hxb : x = base
        · rw [hxb, h'.base_size]
          omega
        · have hx' := (h'.block x hx hxb).above
          omega
      have hpos := (hs.asks _ (h'.comes hall)).1
      have hneg := increment_of_ge (show 2 ^ 28 ≤ units nbytes by omega) (by omega)
      omega
  · rintro (hsmall | ⟨hlast, halone, hnone⟩)
    · exact h.sized_of_le hsmall
    · exact sized_of_refused hlast hn h halone hnone

end

/-- A program that has not called `malloc` yet, of two pages. -/
def fresh : State := ⟨fun _ => default, 0, 8192, 0, 0⟩

theorem fresh_sound : Sound 4096 fresh [] :=
  .inl ⟨⟨by decide, by decide, by decide, by decide⟩, rfl, rfl, rfl⟩

theorem sized_iff_fresh : Sound 4096 fresh [] ∧ Sized 4096 some 100 fresh :=
  ⟨fresh_sound, (sized_iff fresh_sound (by decide)).mpr (.inl (by decide))⟩

/-- `malloc(0xffffffff)` returns a block without any room, and for `malloc(0x80000000)` the kernel
is asked for a negative number: neither call is `Sized`. -/
theorem malloc_wraps :
    (malloc 4096 some 9 (2 ^ 32 - 1) fresh).map (fun r => (r.1, r.2.size (r.1 - 8))) =
      some (40960, 1) ∧
    Comes some (units (2 ^ 31)) 4096 4096 (fresh.start 4096) (fresh.start 4096) ∧
    increment (units (2 ^ 31)) < 0 ∧
    ¬ Sized 4096 some (2 ^ 32 - 1) fresh ∧ ¬ Sized 4096 some (2 ^ 31) fresh := by
  have hsize : (malloc 4096 some 9 (2 ^ 32 - 1) fresh).map (fun r => (r.1, r.2.size (r.1 - 8))) =
      some (40960, 1) := by decide +kernel
  have hcomes : Comes some (units (2 ^ 31)) 4096 4096 (fresh.start 4096) (fresh.start 4096) :=
    .here (by decide +kernel) rfl
  have hneg : increment (units (2 ^ 31)) < 0 := by decide +kernel
  refine ⟨hsize, hcomes, hneg, fun h => ?_, fun h => ?_⟩
  · obtain ⟨⟨p, s'⟩, hcall, heq⟩ := Option.map_eq_some_iff.mp hsize
    obtain ⟨rfl, hone⟩ := Prod.mk.inj heq
    have hone : s'.size (40960 - 8) = 1 := hone
    have hroom := (h.room 9 _ s' hcall (by decide)).1
    omega
  · exact absurd (h.asks _ hcomes).1 (not_lt.mpr hneg.le)

end Xv6.Malloc
