import Xv6.Lib.Run
import Xv6.User.Heap

/-!
# Runs of the allocator

`malloc` goes once around the free list, and once more when `morecore` has added a block that is
large enough. A run is a sequence of calls of `malloc` and `free`, between which the program
writes what it likes into the blocks it has.
-/

namespace Xv6.Malloc

open Function Links

open Vm (KERNBASE)

section Carve

variable {base : ℕ} {s : State} {c : List ℕ} {live : List (ℕ × ℕ)} {nbytes nunits prev p : ℕ}

/-- The block before `p` in the list. -/
theorem Heap.split_prev (h : Heap base s c live) (hprev : prev ∈ c) (hnext : s.next prev = p)
    (hp : p ≠ base) : ∃ A B, c = A ++ prev :: p :: B := by
  obtain ⟨A, B, rfl⟩ := List.append_of_mem hprev
  obtain ⟨r, B', rfl, hr⟩ | ⟨-, hb⟩ := h.next_eq
  · exact ⟨A, B', by rw [← hnext, hr]⟩
  · exact absurd (hnext.symm.trans hb) hp

/-- The whole block is taken out of the list. -/
theorem Heap.takeAll (h : Heap base s c live) (hprev : prev ∈ c) (hp : p ∈ c)
    (hnext : s.next prev = p) (hpb : p ≠ base) (hroom : nbytes + 8 ≤ 8 * s.size p) :
    ∃ c', Heap base ((s.setNext prev (s.next p)).setFreep prev) c' ((p, nbytes) :: live) := by
  obtain ⟨A, B, rfl⟩ := h.split_prev hprev hnext hpb
  have hsub : (A ++ prev :: B).Sublist (A ++ prev :: p :: B) :=
    List.Sublist.append_left ((List.sublist_cons_self p B).cons_cons prev) A
  have hsorted := h.sorted
  rw [List.pairwise_append, List.pairwise_cons, List.pairwise_cons] at hsorted
  obtain ⟨-, ⟨hprevB, hpB, -⟩, hA⟩ := hsorted
  have hpblock := h.block p hp hpb
  refine ⟨A ++ prev :: B, h.place.congr rfl, ?_, Heap.head_append h.head B, by simp, ?_, ?_,
    fun b hb hne => (h.block b (hsub.subset hb) hne).congr (by simp) rfl, fun b hb => ?_,
    fun a ha b hb => ?_, ?_, ?_⟩
  · have hturn : Closed s.next (prev :: p :: (B ++ A)) := h.closed.turn
    refine Closed.turn (hturn.remove (by simp) fun x hx => ?_)
    have hxp : x ≠ prev := fun he => by
      rcases List.mem_append.mp hx with hx | hx
      · have hlt := hprevB x (List.mem_cons_of_mem p hx)
        omega
      · have hlt := hA x hx prev List.mem_cons_self
        omega
    simp [update_of_ne hxp]
  · simpa using h.sorted.sublist hsub
  · simpa using h.base_size
  · rcases List.mem_cons.mp hb with rfl | hb
    · exact ⟨hpblock.congr (by simp) rfl, by simpa using hroom⟩
    · obtain ⟨hblock, hroom⟩ := h.live_block b hb
      exact ⟨hblock.congr (by simp) rfl, by simpa using hroom⟩
  · rcases List.mem_cons.mp hb with rfl | hb
    · simp only [Apart, size_setFreep, size_setNext]
      simp only [List.mem_append, List.mem_cons] at ha
      rcases ha with ha | rfl | ha
      · exact .inl (hA a ha p (by simp)).le
      · exact .inl (hprevB p List.mem_cons_self).le
      · exact .inr (hpB a ha).le
    · simpa [Apart] using h.apart a (hsub.subset ha) b hb
  · rw [List.pairwise_cons]
    refine ⟨fun b hb => ?_, by simpa [Apart] using h.live_apart⟩
    simpa [Apart] using h.apart p hp b hb
  · have hcount := h.count
    simp only [List.map_append, List.map_cons, List.sum_append, List.sum_cons, size_setFreep,
      size_setNext] at hcount ⊢
    change _ = s.got
    omega

/-- The end of the block is taken. -/
theorem Heap.takeEnd (h : Heap base s c live) (hprev : prev ∈ c) (hp : p ∈ c) (hpb : p ≠ base)
    (hlt : nunits < s.size p) (hroom : nbytes + 8 ≤ 8 * nunits) {x : ℕ}
    (hx : x = p + 8 * (s.size p - nunits)) :
    Heap base (((s.setSize p (s.size p - nunits)).setSize x nunits).setFreep prev) c
      ((x, nbytes) :: live) := by
  have hpblock := h.block p hp hpb
  have hbelow := hpblock.below
  have haligned := hpblock.aligned
  have habove := hpblock.above
  -- the new block lies within `p`, so it is none of the others
  have hxc : ∀ a ∈ c, a ≠ x := fun a ha he => by
    have hap : a ≠ p := by omega
    rcases h.apart_free ha hp hap with h1 | h1 <;> omega
  have hxl : ∀ b ∈ live, b.1 ≠ x ∧ b.1 ≠ p := fun b hb => by
    have hapart := h.apart p hp b hb
    have hpos := (h.live_block b hb).1.pos
    rw [Apart] at hapart
    constructor <;> rintro rfl <;> omega
  generalize hs' : ((s.setSize p (s.size p - nunits)).setSize x nunits).setFreep prev = s'
  have hsx : s'.size x = nunits := by simp [← hs']
  have hsp : s'.size p = s.size p - nunits := by simp [← hs', update_of_ne (hxc p hp)]
  have hso : ∀ a ≠ x, a ≠ p → s'.size a = s.size a := fun a h1 h2 => by
    simp [← hs', update_of_ne h1, update_of_ne h2]
  have hnext : s'.next = s.next := by simp [← hs']
  have htop : s'.top = s.top := by rw [← hs']; rfl
  have hle : ∀ a ∈ c, s'.size a ≤ s.size a := fun a ha => by
    by_cases hap : a = p
    · rw [hap, hsp]
      omega
    · rw [hso a (hxc a ha) hap]
  have hlive : ∀ b ∈ live, s'.size b.1 = s.size b.1 := fun b hb => hso _ (hxl b hb).1 (hxl b hb).2
  refine ⟨h.place.congr htop, hnext ▸ h.closed, h.head, by rw [← hs']; exact hprev, ?_, ?_,
    fun b hb hne => ?_, fun b hb => ?_, fun a ha b hb => ?_, ?_, ?_⟩
  · refine h.sorted.imp_of_mem fun {a b} ha _ hab => ?_
    have hsize := hle a ha
    omega
  · rw [hso base (hxc base h.base_mem) (Ne.symm hpb), h.base_size]
  · by_cases hbp : b = p
    · subst hbp
      exact ⟨haligned, habove, by omega, by omega⟩
    · exact (h.block b hb hne).congr (hso b (hxc b hb) hbp) htop
  · rcases List.mem_cons.mp hb with rfl | hb
    · simp only [hsx]
      exact ⟨⟨by omega, by omega, by simp only [hsx]; omega, by simp only [hsx]; omega⟩, hroom⟩
    · obtain ⟨hblock, hroom⟩ := h.live_block b hb
      exact ⟨hblock.congr (hlive b hb) htop, by rwa [hlive b hb]⟩
  · rcases List.mem_cons.mp hb with rfl | hb
    · simp only [Apart, hsx]
      by_cases hap : a = p
      · subst hap
        omega
      · rw [hso a (hxc a ha) hap]
        rcases h.apart_free ha hp hap with h1 | h1 <;> omega
    · have hold := h.apart a ha b hb
      have hsize := hle a ha
      rw [Apart, hlive b hb]
      rw [Apart] at hold
      omega
  · rw [List.pairwise_cons]
    refine ⟨fun b hb => ?_, ?_⟩
    · have hold := h.apart p hp b hb
      simp only [Apart, hsx, hlive b hb] at hold ⊢
      omega
    · exact h.live_apart.imp_of_mem fun {a b} ha hb hab => by
        rwa [Apart, hlive a ha, hlive b hb]
  · have hcount := h.count
    have hgot : s'.got = s.got := by rw [← hs']; rfl
    obtain ⟨A, B, rfl⟩ := List.append_of_mem hp
    have hnodup : (A ++ p :: B).Nodup := h.lt.imp fun hab => hab.ne
    have hother : ∀ l : List ℕ, l ⊆ A ++ p :: B → p ∉ l → l.map s'.size = l.map s.size :=
      fun l hl hpl => List.map_congr_left fun a ha =>
        hso a (hxc a (hl ha)) fun he => hpl (he ▸ ha)
    rw [List.nodup_append, List.nodup_cons] at hnodup
    have hA := hother A (List.subset_append_left _ _) fun hpA =>
      hnodup.2.2 p hpA p List.mem_cons_self rfl
    have hB := hother B (fun a ha => by simp [ha]) hnodup.2.1.1
    simp only [List.map_append, List.map_cons, List.sum_append, List.sum_cons, hA, hB, hsp, hsx,
      List.map_congr_left hlive, hgot] at hcount ⊢
    omega

/-- What `malloc` returns when it has found a block that is large enough. -/
theorem carve_spec (h : Heap base s c live) (hprev : prev ∈ c) (hp : p ∈ c)
    (hnext : s.next prev = p) (hn : 0 < nunits) (hle : nunits ≤ s.size p)
    (hroom : nbytes + 8 ≤ 8 * nunits) : ∃ b c', (carve nunits prev p s).1 = b + 8 ∧
      Heap base (carve nunits prev p s).2 c' ((b, nbytes) :: live) := by
  have hpb : p ≠ base := fun he => by
    rw [he, h.base_size] at hle
    omega
  have hbelow := (h.block p hp hpb).below
  have htop := h.place.top_le
  rw [KERNBASE] at htop
  rw [carve]
  split
  · next heq =>
    obtain ⟨c', h'⟩ := h.takeAll hprev hp hnext hpb (heq ▸ hroom)
    exact ⟨p, c', Nat.mod_eq_of_lt (by omega), h'⟩
  · next hne =>
    have hx : add p (s.size p - nunits) = p + 8 * (s.size p - nunits) :=
      Nat.mod_eq_of_lt (by omega)
    simp only [size_setSize, update_self]
    refine ⟨add p (s.size p - nunits), c, ?_, h.takeEnd hprev hp hpb (by omega) hroom hx⟩
    rw [hx]
    exact Nat.mod_eq_of_lt (by omega)

end Carve

/-! ### malloc -/

section Malloc

variable {base : ℕ} (answer : ℕ → Option ℕ) {s : State} {c : List ℕ} {live : List (ℕ × ℕ)}
  {nbytes nunits prevp f : ℕ}

/-- What the loop of `malloc` does when no block is large enough. -/
def refill (nunits fuel : ℕ) (s : State) : Option (ℕ × State) :=
  match morecore answer fuel nunits s with
  | none => none
  | some (p, s) => if p = 0 then some (0, s) else mallocLoop answer nunits fuel p (s.next p) s

/-- One turn around the list: a block is large enough, or the turn ends with `morecore`. -/
theorem mallocLoop_turn (nunits : ℕ) {m : List ℕ}
    (hpath : Path s.next prevp m f) (hfreep : s.freep = f)
    (hf : f ∉ m) :
    (∃ prev ∈ prevp :: m, ∃ p ∈ m ++ [f], s.next prev = p ∧ nunits ≤ s.size p ∧
      ∀ fuel, m.length < fuel →
        mallocLoop answer nunits fuel prevp (s.next prevp) s = some (carve nunits prev p s)) ∨
    ((∀ x ∈ m ++ [f], s.size x < nunits) ∧ ∀ k,
      mallocLoop answer nunits (m.length + 1 + k) prevp (s.next prevp) s =
        refill answer nunits k s) := by
  -- a block that is large enough ends the loop whatever the fuel
  have hfits : ∀ fuel p, 0 < fuel → nunits ≤ s.size p →
      mallocLoop answer nunits fuel prevp p s = some (carve nunits prevp p s) := by
    intro fuel p hfuel hfit
    obtain ⟨k, rfl⟩ := Nat.exists_eq_add_one_of_ne_zero hfuel.ne'
    rw [mallocLoop, if_pos hfit]
  induction m generalizing prevp with
  | nil =>
    have hnext : s.next prevp = f := hpath
    rw [hnext]
    by_cases hfit : nunits ≤ s.size f
    · exact .inl ⟨prevp, by simp, f, by simp, hnext, hfit,
        fun fuel hfuel => hfits fuel f hfuel hfit⟩
    · refine .inr ⟨fun x hx => ?_, fun k => ?_⟩
      · obtain rfl := List.mem_singleton.mp hx
        exact not_le.mp hfit
      · rw [List.length_nil, Nat.zero_add, Nat.add_comm, mallocLoop, if_neg hfit,
          if_pos hfreep.symm]
        rfl
  | cons d m ih =>
    have hnext : s.next prevp = d := hpath.1
    have hdf : d ≠ s.freep := fun he => hf (by rw [← hfreep, ← he]; exact List.mem_cons_self)
    rw [hnext]
    by_cases hfit : nunits ≤ s.size d
    · exact .inl ⟨prevp, by simp, d, by simp, hnext, hfit,
        fun fuel hfuel => hfits fuel d (by omega) hfit⟩
    have hstep : ∀ fuel, mallocLoop answer nunits (fuel + 1) prevp d s =
        mallocLoop answer nunits fuel d (s.next d) s := fun fuel => by
      rw [mallocLoop, if_neg hfit, if_neg hdf]
    have hfits' : ∀ fuel p, 0 < fuel → nunits ≤ s.size p →
        mallocLoop answer nunits fuel d p s = some (carve nunits d p s) := by
      intro fuel p hfuel hfit
      obtain ⟨k, rfl⟩ := Nat.exists_eq_add_one_of_ne_zero hfuel.ne'
      rw [mallocLoop, if_pos hfit]
    rcases ih hpath.2 (fun h => hf (List.mem_cons_of_mem d h)) hfits' with
      ⟨prev, hprev, p, hp, hnp, hle, heq⟩ | ⟨hall, heq⟩
    · refine .inl ⟨prev, List.mem_cons_of_mem prevp hprev, p, List.mem_cons_of_mem d hp, hnp, hle,
        fun fuel hfuel => ?_⟩
      obtain ⟨k, rfl⟩ := Nat.exists_eq_add_one_of_ne_zero (Nat.ne_zero_of_lt hfuel)
      rw [hstep]
      exact heq k (by simpa using hfuel)
    · refine .inr ⟨fun x hx => ?_, fun k => ?_⟩
      · rcases List.mem_cons.mp hx with rfl | hx
        · exact not_le.mp hfit
        · exact hall x hx
      · rw [List.length_cons, Nat.add_right_comm, hstep]
        exact heq k

/-- One turn from `freep`. -/
theorem Heap.malloc_turn (h : Heap base s c live) (hn : 0 < nunits)
    (hroom : nbytes + 8 ≤ 8 * nunits) :
    (∃ b c' s', (∀ fuel, c.length ≤ fuel →
        mallocLoop answer nunits fuel s.freep (s.next s.freep) s = some (b + 8, s')) ∧
      Heap base s' c' ((b, nbytes) :: live)) ∨
    ((∀ x ∈ c, s.size x < nunits) ∧ ∀ fuel, 2 * c.length ≤ fuel → ∃ k, c.length ≤ k ∧
      fuel ≤ k + c.length ∧
      mallocLoop answer nunits fuel s.freep (s.next s.freep) s = refill answer nunits k s) := by
  obtain ⟨m, hpath, hmem, hlen, hf⟩ := h.closed.exists_turn h.freep
  have hmem' : ∀ x, x ∈ m ++ [s.freep] ↔ x ∈ c := fun x => by
    rw [← hmem x, List.mem_append, List.mem_singleton, List.mem_cons, or_comm]
  rcases mallocLoop_turn answer nunits hpath rfl
      (hf (h.lt.imp fun hab => hab.ne)) with
    ⟨prev, hprev, p, hp, hnext, hle, heq⟩ | ⟨hall, heq⟩
  · obtain ⟨b, c', hb, h'⟩ := carve_spec h ((hmem prev).mp hprev) ((hmem' p).mp hp) hnext hn hle
      hroom
    refine .inl ⟨b, c', _, fun fuel hfuel => ?_, h'⟩
    rw [heq fuel (by omega), ← hb]
  · refine .inr ⟨fun x hx => hall x ((hmem' x).mpr hx), fun fuel hfuel => ?_⟩
    refine ⟨fuel - m.length - 1, by omega, by omega, ?_⟩
    rw [← heq]
    congr 1
    omega

theorem growproc_pos {n : ℕ} (hn : 0 < n) (hlt : n < 2 ^ 31) (enough : Bool) (sz : ℕ) :
    growproc enough sz n = if enough ∧ sz + n < KERNBASE then some (sz + n) else none := by
  rw [growproc, if_neg (Nat.ne_of_gt hn), if_pos hlt]

/-- What `sbrk` does for a positive number. -/
theorem sbrk_eq {n : ℕ} (hn : 0 < n) (hlt : n < 2 ^ 31) :
    sbrk answer n s = (none, { s with calls := s.calls + 1 }) ∨
    ∃ k, answer s.calls = some k ∧ s.top + 8 * k + n < KERNBASE ∧
      sbrk answer n s = (some (s.top + 8 * k),
        { s with calls := s.calls + 1, top := s.top + 8 * k + n, got := s.got + n / 8 }) := by
  cases hk : answer s.calls with
  | none =>
    left
    simp [sbrk, growproc_pos hn hlt, hk]
  | some k =>
    by_cases hle : s.top + 8 * k + n < KERNBASE
    · refine .inr ⟨k, rfl, hle, ?_⟩
      simp [sbrk, growproc_pos hn hlt, hk, hle]
    · left
      simp [sbrk, growproc_pos hn hlt, hk, hle]

/-- `sbrk` gives a block above all others, or nothing. -/
theorem sbrk_spec (h : Heap base s c live) {nu : ℕ} (hnu : 0 < nu) (hlt : nu < 2 ^ 28) :
    (∃ s', sbrk answer (nu * 8) s = (none, s') ∧ Heap base s' c live) ∨
    ∃ hp s', sbrk answer (nu * 8) s = (some hp, s') ∧ hp + 8 < 2 ^ 32 ∧
      (s'.setSize hp nu).size hp = nu ∧ Heap base (s'.setSize hp nu) c ((hp, 0) :: live) := by
  rcases sbrk_eq (s := s) answer (n := nu * 8) (by omega) (by omega) with
    hnone | ⟨k, -, hle, hsome⟩
  · rw [hnone]
    exact .inl ⟨_, rfl, h.congr (fun _ _ => rfl) (fun _ _ => rfl) (fun _ _ => rfl) h.freep rfl rfl⟩
  · rw [hsome]
    refine .inr ⟨s.top + 8 * k, _, rfl, ?_, by simp, ?_⟩
    · rw [KERNBASE] at hle
      omega
    generalize hhp : s.top + 8 * k = hp at *
    have hplace := h.place
    have hc : ∀ x ∈ c, x ≠ hp := fun x hx he => by
      have hbelow := h.below hx
      by_cases hxb : x = base
      · have habove := hplace.above
        omega
      · have hpos := (h.block x hx hxb).pos
        omega
    have hl : ∀ b ∈ live, b.1 ≠ hp := fun b hb he => by
      have hblock := (h.live_block b hb).1
      have hpos := hblock.pos
      have hbelow := hblock.below
      omega
    generalize hs' : State.setSize { s with
      calls := s.calls + 1, top := hp + nu * 8, got := s.got + nu * 8 / 8 } hp nu = s'
    have hsize : ∀ x ≠ hp, s'.size x = s.size x := fun x hx => by
      rw [← hs', size_setSize, update_of_ne hx]
      rfl
    have hhps : s'.size hp = nu := by rw [← hs', size_setSize, update_self]
    have htop : s'.top = hp + nu * 8 := by rw [← hs']; rfl
    have hnext : s'.next = s.next := by rw [← hs', next_setSize]; rfl
    have hblock : ∀ b ≠ hp, Block base s b → Block base s' b := by
      rintro b hb ⟨h1, h2, h3, h4⟩
      exact ⟨h1, h2, by rwa [hsize b hb], by rw [hsize b hb]; omega⟩
    have habove := hplace.above
    have haligned := hplace.top_aligned
    refine ⟨⟨hplace.base_pos, by omega, by omega, by omega⟩, hnext ▸ h.closed,
      h.head, by rw [← hs']; exact h.freep, ?_, ?_, fun b hb hne => hblock b (hc b hb)
        (h.block b hb hne), fun b hb => ?_, fun a ha b hb => ?_, ?_, ?_⟩
    · exact h.sorted.imp_of_mem fun {a b} ha _ hab => by rwa [hsize a (hc a ha)]
    · rw [hsize base (hc base h.base_mem), h.base_size]
    · rcases List.mem_cons.mp hb with rfl | hb
      · simp only [hhps]
        exact ⟨⟨by omega, by omega, by simpa only [hhps] using hnu,
          by simp only [hhps]; omega⟩, by omega⟩
      · obtain ⟨hb', hroom⟩ := h.live_block b hb
        exact ⟨hblock _ (hl b hb) hb', by rwa [hsize _ (hl b hb)]⟩
    · rcases List.mem_cons.mp hb with rfl | hb
      · have hbelow := h.below ha
        refine .inl ?_
        rw [hsize a (hc a ha)]
        simp only
        omega
      · rw [Apart, hsize a (hc a ha), hsize _ (hl b hb)]
        exact h.apart a ha b hb
    · rw [List.pairwise_cons]
      refine ⟨fun b hb => .inr ?_, ?_⟩
      · have hbelow := (h.live_block b hb).1.below
        simp only
        rw [hsize _ (hl b hb)]
        omega
      · exact h.live_apart.imp_of_mem fun {a b} ha hb hab => by
          rwa [Apart, hsize _ (hl a ha), hsize _ (hl b hb)]
    · have hcount := h.count
      have hgot : s'.got = s.got + nu * 8 / 8 := by rw [← hs']; rfl
      have hcs : c.map s'.size = c.map s.size := List.map_congr_left fun a ha => hsize a (hc a ha)
      have hls : live.map (fun b => s'.size b.1) = live.map fun b => s.size b.1 :=
        List.map_congr_left fun b hb => hsize _ (hl b hb)
      simp only [List.map_cons, List.sum_cons, hcs, hls, hhps, hgot] at hcount ⊢
      omega

/-- `morecore` adds a block of the size asked for to the free list, or fails. -/
theorem morecore_spec (h : Heap base s c live) (hn : nunits < 2 ^ 28) :
    (∃ s', (∀ fuel, c.length ≤ fuel → morecore answer fuel nunits s = some (0, s')) ∧
      Heap base s' c live ∧
      (sbrk answer ((if nunits < 4096 then 4096 else nunits) * 8) s).1 = none) ∨
    ∃ s' c', (∀ fuel, c.length ≤ fuel → morecore answer fuel nunits s = some (s'.freep, s')) ∧
      Heap base s' c' live ∧ ∃ p ∈ c', nunits ≤ s'.size p := by
  generalize hnu : (if nunits < 4096 then 4096 else nunits) = nu
  have hnu' : nunits ≤ nu ∧ 0 < nu ∧ nu < 2 ^ 28 := by
    split at hnu <;> omega
  have hmod : nu * 8 % 2 ^ 32 = nu * 8 := Nat.mod_eq_of_lt (by omega)
  rcases sbrk_spec answer h hnu'.2.1 hnu'.2.2 with
    ⟨s', hs', h'⟩ | ⟨hp, s₁, hs₁, hlt, hsize, h₁⟩
  · refine .inl ⟨s', fun fuel _ => ?_, h', by rw [hs']⟩
    simp only [morecore, hnu, hmod, hs']
  · obtain ⟨s', c', hfree, h', p, hpc, hle⟩ := free_spec h₁
    refine .inr ⟨s', c', fun fuel hfuel => ?_, h', p, hpc, by omega⟩
    have hadd : add hp 1 = hp + 8 := Nat.mod_eq_of_lt (by omega)
    simp only [morecore, hnu, hmod, hs₁, hadd, hfree fuel hfuel]

theorem Heap.freep_ne_zero (h : Heap base s c live) : s.freep ≠ 0 := fun h0 => by
  have hpos := h.place.base_pos
  have hmem := h.freep
  rw [h0] at hmem
  by_cases hb : 0 = base
  · omega
  · have habove := (h.block 0 hmem hb).above
    omega

/-- With enough fuel `malloc` returns 0, if no block was large enough and `sbrk` has refused, or
a new block. -/
theorem Heap.mallocLoop_spec (h : Heap base s c live) (hn : 0 < nunits) (hn' : nunits < 2 ^ 28)
    (hroom : nbytes + 8 ≤ 8 * nunits) : ∃ n p s', (∀ fuel, n ≤ fuel →
        mallocLoop answer nunits fuel s.freep (s.next s.freep) s = some (p, s')) ∧
      ((p = 0 ∧ (∃ c', Heap base s' c' live) ∧ (∀ x ∈ c, s.size x < nunits) ∧
          (sbrk answer ((if nunits < 4096 then 4096 else nunits) * 8) s).1 = none) ∨
        ∃ b c', p = b + 8 ∧ Heap base s' c' ((b, nbytes) :: live)) := by
  rcases h.malloc_turn answer hn hroom with ⟨b, c', s', heq, h'⟩ | ⟨hsmall, hturn⟩
  · exact ⟨c.length, b + 8, s', heq, .inr ⟨b, c', rfl, h'⟩⟩
  rcases morecore_spec answer h hn' with ⟨s₁, hmore, h₁, hnone⟩ | ⟨s₁, c₁, hmore, h₁, hfit⟩
  · refine ⟨2 * c.length, 0, s₁, fun fuel hfuel => ?_, .inl ⟨rfl, ⟨c, h₁⟩, hsmall, hnone⟩⟩
    obtain ⟨k, hk, -, heq⟩ := hturn fuel hfuel
    rw [heq, refill, hmore k hk]
    rfl
  · -- after `morecore` one more turn finds a block
    rcases h₁.malloc_turn answer hn hroom with ⟨b, c', s', heq₁, h'⟩ | ⟨hsmall, -⟩
    · refine ⟨2 * c.length + c₁.length, b + 8, s', fun fuel hfuel => ?_, .inr ⟨b, c', rfl, h'⟩⟩
      obtain ⟨k, hk, hle, heq⟩ := hturn fuel (by omega)
      rw [heq, refill, hmore k hk]
      simp only [if_neg h₁.freep_ne_zero]
      exact heq₁ k (by omega)
    · obtain ⟨p, hp, hle⟩ := hfit
      exact absurd (hsmall p hp) (not_lt.mpr hle)

/-- Nothing has happened yet, or there is a heap. -/
def Sound (base : ℕ) (s : State) (live : List (ℕ × ℕ)) : Prop :=
  (Place base s ∧ s.freep = 0 ∧ s.got = 0 ∧ live = []) ∨ ∃ c, Heap base s c live

/-- The first call of `malloc` makes a heap. -/
theorem Sound.start (h : Sound base s live) : ∃ c, Heap base (s.start base) c live := by
  rcases h with ⟨hplace, hfreep, hgot, rfl⟩ | ⟨c, h⟩
  · rw [State.start, if_pos hfreep]
    refine ⟨[base], hplace.congr rfl, by simp [Closed, Links.Path], rfl, by simp,
      List.pairwise_singleton _ _, by simp, ?_, by simp, by simp, List.Pairwise.nil, ?_⟩
    · intro b hb hne
      exact absurd (List.mem_singleton.mp hb) hne
    · change _ = s.got
      simpa using hgot.symm
  · rw [State.start, if_neg h.freep_ne_zero]
    exact ⟨c, h⟩

/-- With enough fuel `malloc` returns 0, or the start of a new block behind its header. -/
theorem malloc_spec (h : Sound base s live) (hn : nbytes < 2 ^ 30) :
    ∃ n p s', (∀ fuel, n ≤ fuel → malloc base answer fuel nbytes s = some (p, s')) ∧
      ((p = 0 ∧ Sound base s' live) ∨ 8 ≤ p ∧ Sound base s' ((p - 8, nbytes) :: live)) := by
  obtain ⟨c, h'⟩ := h.start
  have hunits : units nbytes = (nbytes + 7) / 8 + 1 := by
    rw [units, Nat.mod_eq_of_lt (by omega)]
    rfl
  have hroom : nbytes + 8 ≤ 8 * units nbytes := by omega
  obtain ⟨n, p, s', heq, hres⟩ := h'.mallocLoop_spec answer (by omega) (by omega) hroom
  refine ⟨n, p, s', heq, ?_⟩
  rcases hres with ⟨hp, hc, -⟩ | ⟨b, c', rfl, hc⟩
  · exact .inl ⟨hp, .inr hc⟩
  · exact .inr ⟨by omega, .inr ⟨c', hc⟩⟩

/-- The order of the blocks that the program has does not matter. -/
theorem Heap.perm (h : Heap base s c live) {live' : List (ℕ × ℕ)} (hp : live.Perm live') :
    Heap base s c live' := by
  exact { h with
    live_block := fun b hb => h.live_block b (hp.mem_iff.mpr hb)
    apart := fun a ha b hb => h.apart a ha b (hp.mem_iff.mpr hb)
    live_apart := hp.pairwise h.live_apart Or.symm
    count := by rw [← (hp.map _).sum_eq]; exact h.count }

/-- With enough fuel `free` returns. -/
theorem Sound.free_spec (h : Sound base s live) {b : ℕ × ℕ} (hb : b ∈ live) :
    ∃ n s', (∀ fuel, n ≤ fuel → free fuel (b.1 + 8) s = some s') ∧
      Sound base s' (live.erase b) := by
  rcases h with ⟨-, -, -, rfl⟩ | ⟨c, h⟩
  · exact absurd hb List.not_mem_nil
  · obtain ⟨s', c', heq, h', -⟩ := Malloc.free_spec (h.perm (List.perm_cons_erase hb))
    exact ⟨c.length, s', heq, .inr ⟨c', h'⟩⟩

end Malloc

/-! ### Runs -/

/-- The allocator, and the blocks that the program has with the bytes it has asked for. -/
structure Config where
  s : State
  live : List (ℕ × ℕ)

inductive Action where
  | malloc (fuel nbytes : ℕ)
  | free (fuel : ℕ) (b : ℕ × ℕ)
  /-- the program writes into a block that it has -/
  | write (a : ℕ) (v : Header)
  deriving Inhabited

/-- `a` is one of the units behind the header of `b`. -/
def Inside (a : ℕ) (b : ℕ × ℕ) : Prop := a % 8 = 0 ∧ b.1 + 8 ≤ a ∧ a < b.1 + 8 + b.2

instance (a : ℕ) (b : ℕ × ℕ) : Decidable (Inside a b) := inferInstanceAs (Decidable (_ ∧ _ ∧ _))

def step (base : ℕ) (answer : ℕ → Option ℕ) (c : Config) : Action → Option Config
  | .malloc fuel nbytes =>
    if nbytes < 2 ^ 30 then
      match malloc base answer fuel nbytes c.s with
      | none => none
      | some (p, s) => some ⟨s, if p = 0 then c.live else (p - 8, nbytes) :: c.live⟩
    else none
  | .free fuel b =>
    if b ∈ c.live then
      match free fuel (b.1 + 8) c.s with
      | none => none
      | some s => some ⟨s, c.live.erase b⟩
    else none
  | .write a v =>
    if ∃ b ∈ c.live, Inside a b then some { c with s.mem := update c.s.mem a v } else none

section Runs

variable {base : ℕ} {answer : ℕ → Option ℕ} {c c' : Config} {s : State}

/-- What the program writes into its blocks is no header. -/
theorem Heap.write {l : List ℕ} {live : List (ℕ × ℕ)} (h : Heap base s l live) {b : ℕ × ℕ}
    (hb : b ∈ live) {a : ℕ} (ha : Inside a b) (v : Header) :
    Heap base { s with mem := update s.mem a v } l live := by
  obtain ⟨-, hlo, hhi⟩ := ha
  have hroom := (h.live_block b hb).2
  have hother : ∀ x ≠ a, State.next { s with mem := update s.mem a v } x = s.next x ∧
      State.size { s with mem := update s.mem a v } x = s.size x := fun x hx => by
    simp [State.next, State.size, update_of_ne hx]
  have hfree : ∀ x ∈ l, x ≠ a := fun x hx he => by
    have hapart := h.apart x hx b hb
    by_cases hxb : x = base
    · have habove := (h.live_block b hb).1.above
      omega
    · have hpos := (h.block x hx hxb).pos
      rw [Apart] at hapart
      omega
  have hlive : ∀ x ∈ live, x.1 ≠ a := fun x hx he => by
    by_cases hxb : x = b
    · subst hxb
      omega
    · have hsymm : Std.Symm fun a b : ℕ × ℕ => Apart s a.1 b.1 := ⟨fun _ _ => Or.symm⟩
      have hapart := h.live_apart.forall hx hb hxb
      have hpos := (h.live_block x hx).1.pos
      rw [Apart] at hapart
      omega
  exact h.congr (fun x hx => (hother x (hfree x hx)).1) (fun x hx => (hother x (hfree x hx)).2)
    (fun x hx => (hother _ (hlive x hx)).2) h.freep rfl rfl

theorem freeLoop_mono {bp fuel fuel' p q : ℕ} (hle : fuel ≤ fuel')
    (h : freeLoop s bp fuel p = some q) : freeLoop s bp fuel' p = some q := by
  induction fuel generalizing fuel' p with
  | zero => cases h
  | succ fuel ih =>
    obtain ⟨k, rfl⟩ := Nat.exists_eq_add_one_of_ne_zero (show fuel' ≠ 0 by omega)
    rw [freeLoop] at h ⊢
    split
    · next hin => rwa [if_pos hin] at h
    · next hin =>
      rw [if_neg hin] at h
      split
      · next hend => rwa [if_pos hend] at h
      · next hend =>
        rw [if_neg hend] at h
        exact ih (by omega) h

/-- A call that returns with some fuel returns the same with more. -/
theorem free_mono {s' : State} {fuel fuel' ap : ℕ} (hle : fuel ≤ fuel')
    (h : free fuel ap s = some s') : free fuel' ap s = some s' := by
  simp only [free] at h ⊢
  split at h
  · cases h
  · next p hp => rwa [freeLoop_mono hle hp]

theorem morecore_mono {fuel fuel' nu : ℕ} {r : ℕ × State} (hle : fuel ≤ fuel')
    (h : morecore answer fuel nu s = some r) : morecore answer fuel' nu s = some r := by
  simp only [morecore] at h ⊢
  split at h
  · exact h
  · split at h
    · cases h
    · next s' hs' => rwa [free_mono hle hs']

theorem mallocLoop_mono {nunits fuel fuel' prevp p : ℕ} {r : ℕ × State} (hle : fuel ≤ fuel')
    (h : mallocLoop answer nunits fuel prevp p s = some r) :
    mallocLoop answer nunits fuel' prevp p s = some r := by
  induction fuel generalizing fuel' prevp p s with
  | zero => cases h
  | succ fuel ih =>
    obtain ⟨k, rfl⟩ := Nat.exists_eq_add_one_of_ne_zero (show fuel' ≠ 0 by omega)
    have hk : fuel ≤ k := by omega
    rw [mallocLoop] at h ⊢
    by_cases hfit : nunits ≤ s.size p
    · rwa [if_pos hfit] at h ⊢
    rw [if_neg hfit] at h ⊢
    by_cases hend : p = s.freep
    · rw [if_pos hend] at h ⊢
      cases hm : morecore answer fuel nunits s with
      | none => simp only [hm] at h; cases h
      | some r' =>
        simp only [hm] at h
        simp only [morecore_mono hk hm]
        split
        · next h0 => rwa [if_pos h0] at h
        · next h0 =>
          rw [if_neg h0] at h
          exact ih hk h
    · rw [if_neg hend] at h ⊢
      exact ih hk h

/-- One step keeps the heap sound. -/
theorem step_sound {a : Action} (h : step base answer c a = some c') (hc : Sound base c.s c.live) :
    Sound base c'.s c'.live := by
  cases a with
  | malloc fuel nbytes =>
    simp only [step] at h
    split at h
    · next hn =>
      obtain ⟨n, p, s', heq, hres⟩ := malloc_spec answer hc hn
      split at h
      · cases h
      · next p₁ s₁ hcall =>
        -- the call returns the same with the fuel for which the result is known
        have hmax : malloc base answer (max fuel n) nbytes c.s = some (p₁, s₁) :=
          mallocLoop_mono (le_max_left fuel n) hcall
        rw [heq _ (le_max_right fuel n)] at hmax
        cases hmax
        cases h
        rcases hres with ⟨rfl, hsound⟩ | ⟨hp, hsound⟩
        · exact hsound
        · simp only [if_neg (show p ≠ 0 by omega)]
          exact hsound
    · cases h
  | free fuel b =>
    simp only [step] at h
    split at h
    · next hb =>
      obtain ⟨n, s', heq, hres⟩ := hc.free_spec hb
      split at h
      · cases h
      · next s₁ hcall =>
        have hmax := free_mono (le_max_left fuel n) hcall
        rw [heq _ (le_max_right fuel n)] at hmax
        cases hmax
        cases h
        exact hres
    · cases h
  | write a v =>
    simp only [step] at h
    split at h
    · next hb =>
      obtain ⟨b, hb, ha⟩ := hb
      cases h
      rcases hc with ⟨-, -, -, hnil⟩ | ⟨l, hheap⟩
      · rw [hnil] at hb
        exact absurd hb List.not_mem_nil
      · exact .inr ⟨l, hheap.write hb ha v⟩
    · cases h

/-- In every run from a program that has not called `malloc` yet, with the answers of `sbrk`
whatever they are, the heap is sound at every point; and from there every call returns, `malloc`
with 0 or with a block, and leaves a sound heap. -/
theorem heap_sound (r : Run (step base answer)) (hplace : Place base (r.state 0).s)
    (hfreep : (r.state 0).s.freep = 0) (hgot : (r.state 0).s.got = 0)
    (hlive : (r.state 0).live = []) {k : ℕ} (hk : k ≤ r.length) :
    Sound base (r.state k).s (r.state k).live ∧
    (∀ nbytes < 2 ^ 30, ∃ n p s',
      (∀ fuel, n ≤ fuel → malloc base answer fuel nbytes (r.state k).s = some (p, s')) ∧
      ((p = 0 ∧ Sound base s' (r.state k).live) ∨
        8 ≤ p ∧ Sound base s' ((p - 8, nbytes) :: (r.state k).live))) ∧
    ∀ b ∈ (r.state k).live, ∃ n s',
      (∀ fuel, n ≤ fuel → free fuel (b.1 + 8) (r.state k).s = some s') ∧
      Sound base s' ((r.state k).live.erase b) := by
  have hsound : Sound base (r.state k).s (r.state k).live :=
    r.invariant (I := fun c => Sound base c.s c.live) (.inl ⟨hplace, hfreep, hgot, hlive⟩)
      (fun _ _ _ hc h => step_sound h hc) hk
  exact ⟨hsound, fun nbytes hn => malloc_spec answer hsound hn, fun b hb => hsound.free_spec hb⟩

/-- Two blocks, the first of which is written to and given back, and a block for which `sbrk` is
asked again. -/
def mixedActions : List Action :=
  [.malloc 9 100, .malloc 9 20, .write 32680 ⟨8, 1⟩, .free 9 (32672, 100), .malloc 9 40000]

/-- Each answer of `sbrk` is one unit farther from the end than the one before. -/
def mixedRun : Run (step 8 some) :=
  Run.ofActions ⟨⟨fun _ => default, 0, 16, 0, 0⟩, []⟩ mixedActions (by decide +kernel)

theorem heap_sound_mixed : (mixedRun.state 5).live = [(32792, 40000), (32640, 20)] ∧
    Sound 8 (mixedRun.state 5).s (mixedRun.state 5).live :=
  ⟨by decide +kernel,
    (heap_sound mixedRun ⟨by decide, by decide, by decide, by decide⟩ rfl rfl rfl (le_refl 5)).1⟩

end Runs

end Xv6.Malloc
