import Mathlib.Algebra.BigOperators.Group.Finset.Piecewise
import Mathlib.Algebra.GroupWithZero.Nat
import Xv6.Fs.Syscall
import Xv6.Lib.Threads

/-!
# Writing through a shared descriptor

Processes that share an open file (after `fork` or `dup`) and write to it at the
same time. The file is a regular one and nobody else writes to its inode. The code
is that of `filewrite` and `writei`, seen closer than in `Xv6.Fs.Syscall`: other
processes may run between any two blocks that `writei` fills, and between that and
the assignment to `f->off`. What keeps them out is the lock of the inode, which is
given up after every chunk.
-/

namespace Xv6.Fs.SharedWrite

open Bytes Function

/-- The open file and its inode. -/
structure File where
  off : ℕ
  size : ℕ
  /-- the bytes in the blocks of the inode; a block that it does not have yet counts as zeros, which
  is what `balloc` fills it with -/
  byte : ℕ → UInt8
  /-- the data of the calls so far, in the order in which they began -/
  calls : List (List UInt8)
  /-- a call has returned -1 -/
  failed : Bool

/-- The contents from `off` on. -/
def File.bytes (s : File) (off n : ℕ) : List UInt8 := slice s.byte off n

/-! ### The code -/

/-- The only lock is that of the inode. -/
abbrev Op : Type → Type := Prog File Unit Unit Panic

/-- The loop of `writei`; every round fills what it can of one block. -/
def writeBlocks : ℕ → ℕ → List UInt8 → Op Unit
  | 0, _, _ => pure ()
  | n + 1, off, src =>
    if src.isEmpty then pure ()
    else do
      let m := min src.length (BSIZE - off % BSIZE)
      .atomic (modify fun s => { s with byte := blit s.byte off (src.take m) })
      writeBlocks n (off + m) (src.drop m)

def writei (off : ℕ) (src : List UInt8) : Op ℤ := do
  let size ← .read (·.size)
  if size < off then pure (-1)
  else if MAXFILE * BSIZE < off + src.length then pure (-1)
  else
    writeBlocks src.length off src
    let size ← .read (·.size)
    if 0 < src.length ∧ size < off + src.length then
      .atomic (modify fun s => { s with size := off + src.length })
    else pure ()
    pure src.length

/-- A chunk is written where the file is at. -/
def writeChunk (src : List UInt8) : Op ℤ := do
  .lock () ()
  let off ← .read (·.off)
  let r ← writei off src
  if 0 < r then .atomic (modify fun s => { s with off := s.off + r.toNat }) else pure ()
  .unlock ()
  pure r

/-- The loop of `filewrite`. -/
def filewriteFrom : ℕ → List UInt8 → Op Bool
  | 0, src => pure src.isEmpty
  | n + 1, src =>
    if src.isEmpty then pure true
    else do
      let r ← writeChunk (src.take maxWrite)
      if r < 0 then pure false
      else if r ≠ (src.take maxWrite).length then .fail .shortFilewrite
      else filewriteFrom n (src.drop maxWrite)

def filewrite (src : List UInt8) : Op ℤ := do
  let all ← filewriteFrom src.length src
  pure (if all then src.length else -1)

/-- A call of `write` from beginning to end. -/
def write (src : List UInt8) : Op Unit := do
  .atomic (modify fun s => { s with calls := s.calls ++ [src] })
  let r ← filewrite src
  .atomic (modify fun s => { s with failed := s.failed || r < 0 })

/-- Processes start calls and run them, in any order. -/
def step {P : Type} [DecidableEq P] :
    Pool P File Unit Unit Panic Unit → Pool.Act P (List UInt8) →
      Option (Pool P File Unit Unit Panic Unit) :=
  Pool.step (fun _ => write) fun _ _ => true

/-! ### Chunks -/

def cutFrom : ℕ → List UInt8 → List (List UInt8)
  | 0, _ => []
  | n + 1, src => if src.isEmpty then [] else src.take maxWrite :: cutFrom n (src.drop maxWrite)

/-- The chunks of a call. -/
def cut (src : List UInt8) : List (List UInt8) := cutFrom src.length src

theorem length_drop_maxWrite (src : List UInt8) :
    (src.drop maxWrite).length ≤ src.length - 1 := by
  have hmax : 0 < maxWrite := by decide
  rw [List.length_drop]
  omega

theorem cutFrom_eq {m n : ℕ} {src : List UInt8} (hm : src.length ≤ m) (hn : src.length ≤ n) :
    cutFrom m src = cutFrom n src := by
  induction m generalizing n src with
  | zero =>
    rw [List.length_eq_zero_iff.mp (Nat.le_zero.mp hm)]
    cases n <;> rfl
  | succ m ih =>
    cases n with
    | zero =>
      rw [List.length_eq_zero_iff.mp (Nat.le_zero.mp hn)]
      rfl
    | succ n =>
      rw [cutFrom, cutFrom]
      have hdrop := length_drop_maxWrite src
      rw [ih (by omega) (by omega : (src.drop maxWrite).length ≤ n)]

@[simp] theorem cut_nil : cut [] = [] := rfl

theorem cut_of_ne_nil {src : List UInt8} (h : src ≠ []) :
    cut src = src.take maxWrite :: cut (src.drop maxWrite) := by
  have hpos := List.length_pos_iff.mpr h
  have hdrop := length_drop_maxWrite src
  obtain ⟨n, hn⟩ : ∃ n, src.length = n + 1 := ⟨src.length - 1, by omega⟩
  rw [cut, hn, cutFrom, if_neg (by simpa using h), cut,
    cutFrom_eq (by omega) (le_refl (src.drop maxWrite).length)]

/-- The chunks of a call are its data, in order. -/
theorem flatten_cut (src : List UInt8) : (cut src).flatten = src := by
  induction hn : src.length using Nat.strong_induction_on generalizing src with
  | _ n ih =>
    by_cases h : src = []
    · rw [h]
      rfl
    · have hpos := List.length_pos_iff.mpr h
      have hdrop := length_drop_maxWrite src
      rw [cut_of_ne_nil h, List.flatten_cons, ih _ (by omega) (src.drop maxWrite) rfl,
        List.take_append_drop]

theorem length_le_of_mem_cut {src c : List UInt8} (h : c ∈ cut src) : c.length ≤ maxWrite := by
  induction hn : src.length using Nat.strong_induction_on generalizing src with
  | _ n ih =>
    by_cases hsrc : src = []
    · rw [hsrc, cut_nil] at h
      simp at h
    · have hpos := List.length_pos_iff.mpr hsrc
      have hdrop := length_drop_maxWrite src
      rw [cut_of_ne_nil hsrc] at h
      rcases List.mem_cons.mp h with rfl | h
      · exact List.length_take_le _ _
      · exact ih _ (by omega) h rfl

/-- The chunks of call `id` among chunks of all calls. -/
def ofCall (id : ℕ) (L : List (ℕ × List UInt8)) : List (List UInt8) :=
  (L.filter (·.1 = id)).map (·.2)

/-- What the chunks are together. -/
def cat (L : List (ℕ × List UInt8)) : List UInt8 := L.flatMap (·.2)

section Chunks

variable {id id' : ℕ} {c : List UInt8} {L : List (ℕ × List UInt8)}

theorem ofCall_concat_self : ofCall id (L ++ [(id, c)]) = ofCall id L ++ [c] := by
  simp [ofCall]

theorem ofCall_concat_of_ne (h : id' ≠ id) : ofCall id (L ++ [(id', c)]) = ofCall id L := by
  simp [ofCall, h]

@[simp] theorem cat_concat : cat (L ++ [(id, c)]) = cat L ++ c := by
  simp [cat]

theorem ofCall_eq_nil (h : ∀ x ∈ L, x.1 < id) : ofCall id L = [] := by
  simp only [ofCall, List.map_eq_nil_iff, List.filter_eq_nil_iff, decide_eq_true_eq]
  intro x hx he
  have := h x hx
  omega

/-- The chunks of all calls are those of each call. -/
theorem length_cat {n : ℕ} (h : ∀ x ∈ L, x.1 < n) :
    (cat L).length = ∑ id ∈ Finset.range n, (ofCall id L).flatten.length := by
  induction L with
  | nil => simp [cat, ofCall]
  | cons x L ih =>
    have hx : x.1 ∈ Finset.range n := Finset.mem_range.mpr (h x List.mem_cons_self)
    have hcons : ∀ id, (ofCall id (x :: L)).flatten.length =
        (if x.1 = id then x.2.length else 0) + (ofCall id L).flatten.length := fun id => by
      by_cases hid : x.1 = id
      · simp [ofCall, hid]
      · simp [ofCall, hid]
    simp only [hcons, Finset.sum_add_distrib, Finset.sum_ite_eq, if_pos hx]
    rw [← ih fun y hy => h y (List.mem_cons_of_mem x hy), cat, List.flatMap_cons,
      List.length_append, cat]

theorem sum_length_getD (cs : List (List UInt8)) :
    ∑ id ∈ Finset.range cs.length, (cs.getD id []).length = (cs.map List.length).sum := by
  induction cs with
  | nil => rfl
  | cons c cs ih =>
    rw [List.length_cons, Finset.sum_range_succ', List.map_cons, List.sum_cons, ← ih, Nat.add_comm]
    rfl

end Chunks

/-! ### The proof -/

/-- What a process with the lock knows: the offset, the bytes that it has written there, and the
size. -/
structure Held where
  off : ℕ
  done : List UInt8
  size : ℕ

/-- What the proof knows of a process. -/
structure View where
  /-- its call, and the data that is left to write -/
  call : Option (ℕ × List UInt8)
  lock : Option Held

def View.idle : View := ⟨none, none⟩

/-- The file, with the chunks written so far, since it was `s₀`. -/
structure Inv {P : Type} (s₀ s : File) (o : Unit → Option P) (L : List (ℕ × List UInt8))
    (γ : P → View) : Prop where
  off : s.off = s₀.off + (cat L).length
  size : cat L ≠ [] → s.off ≤ s.size
  owner : ∀ p, o () = some p ↔ ((γ p).lock).isSome
  free : o () = none → s.byte = blit s₀.byte s₀.off (cat L)
  held : ∀ p k, (γ p).lock = some k →
    s.off = k.off ∧ s.byte = blit s₀.byte s₀.off (cat L ++ k.done) ∧ s.size = k.size
  known : ∀ x ∈ L, x.1 < s.calls.length
  calls : ∀ p id rest, (γ p).call = some (id, rest) →
    ∃ src, s.calls[id]? = some src ∧ ofCall id L ++ cut rest = cut src
  distinct : ∀ p q id rest rest', (γ p).call = some (id, rest) →
    (γ q).call = some (id, rest') → p = q
  ended : ∀ id src, s.calls[id]? = some src →
    s.failed = true ∨ (∃ p rest, (γ p).call = some (id, rest)) ∨ ofCall id L = cut src

/-- The processes keep `Inv`. -/
def logic (P : Type) (s₀ : File) :
    Logic P File Unit Unit Panic (List (ℕ × List UInt8)) View where
  inv s o L γ := Inv s₀ s o L γ
  guard _ _ := True
  ask _ _ _ := True
  fails _ := True

section Steps

variable {P : Type} {s₀ s : File} {o : Unit → Option P} {L : List (ℕ × List UInt8)} {γ : P → View}
  {p : P}

/-- The calls of the processes stay as they are. -/
theorem Inv.congr_calls (h : Inv s₀ s o L γ) {s' : File} {o' : Unit → Option P} {γ' : P → View}
    (hcall : ∀ q, (γ' q).call = (γ q).call) (hc : s'.calls = s.calls) (hf : s'.failed = s.failed)
    (hoff : s'.off = s.off) (hsize : s.size ≤ s'.size)
    (howner : ∀ q, o' () = some q ↔ ((γ' q).lock).isSome)
    (hfree : o' () = none → s'.byte = blit s₀.byte s₀.off (cat L))
    (hheld : ∀ q k, (γ' q).lock = some k →
      s'.off = k.off ∧ s'.byte = blit s₀.byte s₀.off (cat L ++ k.done) ∧ s'.size = k.size) :
    Inv s₀ s' o' L γ' where
  off := hoff.trans h.off
  size hL := by
    have := h.size hL
    omega
  owner := howner
  free := hfree
  held := hheld
  known := by rw [hc]; exact h.known
  calls q id rest hq := by
    rw [hc]
    exact h.calls q id rest (hcall q ▸ hq)
  distinct q q' id rest rest' hq hq' :=
    h.distinct q q' id rest rest' (hcall q ▸ hq) (hcall q' ▸ hq')
  ended id src hs := by
    rw [hf]
    simp only [hcall]
    exact h.ended id src (hc ▸ hs)

/-- Only the process itself has the lock. -/
theorem Inv.unlocked (h : Inv s₀ s o L γ) {q : P} (hp : ((γ p).lock).isSome) (hq : q ≠ p) :
    (γ q).lock = none := by
  by_contra hne
  have h1 := (h.owner p).mpr hp
  have h2 := (h.owner q).mpr (Option.ne_none_iff_isSome.mp hne)
  rw [h1] at h2
  exact hq (Option.some.inj h2).symm

variable [DecidableEq P] {g : View} {rest : List UInt8} {k : Held}

theorem call_setLock (γ : P → View) (p q : P) (k : Option Held) :
    (update γ p { γ p with lock := k } q).call = (γ q).call := by
  by_cases hqp : q = p
  · rw [hqp, update_self]
  · rw [update_of_ne hqp]

theorem lock_setCall (hp : (γ p).lock = none) (c : Option (ℕ × List UInt8)) (q : P) :
    (update γ p ⟨c, none⟩ q).lock = (γ q).lock := by
  by_cases hqp : q = p
  · rw [hqp, update_self, hp]
  · rw [update_of_ne hqp]

section

variable (h : Inv s₀ s o L γ)
include h

/-- The lock stays with the process. -/
theorem Inv.keeps (hp : ((γ p).lock).isSome) (hg : g.lock = some k) :
    o () ≠ none ∧ (∀ q, o () = some q ↔ ((update γ p g q).lock).isSome) ∧
      ∀ q k', (update γ p g q).lock = some k' → k' = k := by
  have howner := (h.owner p).mpr hp
  refine ⟨by rw [howner]; simp, fun q => ?_, fun q k' hq => ?_⟩
  · by_cases hqp : q = p
    · rw [hqp, update_self, hg]
      exact iff_of_true howner rfl
    · rw [update_of_ne hqp]
      exact h.owner q
  · by_cases hqp : q = p
    · rw [hqp, update_self, hg] at hq
      exact (Option.some.inj hq).symm
    · rw [update_of_ne hqp, h.unlocked hp hqp] at hq
      cases hq

/-- No two processes have the same call, if `p` gets one that no other has. -/
theorem Inv.distinct_update {id : ℕ} {k : Option Held}
    (hother : ∀ q id' r, q ≠ p → (γ q).call = some (id', r) → id ≠ id') (q q' : P) (id' : ℕ)
    (r r' : List UInt8) (hq : (update γ p ⟨some (id, rest), k⟩ q).call = some (id', r))
    (hq' : (update γ p ⟨some (id, rest), k⟩ q').call = some (id', r')) : q = q' := by
  by_cases hqp : q = p
  · by_cases hqp' : q' = p
    · rw [hqp, hqp']
    · rw [hqp, update_self] at hq
      rw [update_of_ne hqp'] at hq'
      exact absurd (Prod.mk.inj (Option.some.inj hq)).1 (hother q' id' r' hqp' hq')
  · rw [update_of_ne hqp] at hq
    by_cases hqp' : q' = p
    · rw [hqp', update_self] at hq'
      exact absurd (Prod.mk.inj (Option.some.inj hq')).1 (hother q id' r hqp hq)
    · rw [update_of_ne hqp'] at hq'
      exact h.distinct q q' id' r r' hq hq'

/-- What a process with the lock does or learns. -/
theorem Inv.hold (hp : γ p = g) (hlock : g.lock = some k) {b : ℕ → UInt8} (k' : Held)
    (hn : k.size ≤ k'.size) (hoff : k'.off = k.off)
    (hb : s.byte = blit s₀.byte s₀.off (cat L ++ k.done) →
      b = blit s₀.byte s₀.off (cat L ++ k'.done)) :
    Inv s₀ { s with byte := b, size := k'.size } o L (update γ p { g with lock := some k' }) := by
  subst hp
  obtain ⟨hoff', hbyte, hsize⟩ := h.held p k hlock
  have hsome : ((γ p).lock).isSome := by rw [hlock]; rfl
  obtain ⟨hfree, howner, honly⟩ := h.keeps hsome (g := { γ p with lock := some k' }) rfl
  refine h.congr_calls (call_setLock γ p · _) rfl rfl rfl (hsize ▸ hn) howner
    (fun hn => absurd hn hfree) fun q k₁ hq => ?_
  rw [honly q k₁ hq]
  exact ⟨hoff'.trans hoff.symm, hb hbyte, rfl⟩

/-- A process with the lock writes on. -/
theorem Inv.write (hp : γ p = g) (hlock : g.lock = some k) (src : List UInt8) :
    Inv s₀ { s with byte := blit s.byte (k.off + k.done.length) src } o L
      (update γ p { g with lock := some { k with done := k.done ++ src } }) := by
  have hk := h.held p k (hp ▸ hlock)
  have hs : ({ s with byte := blit s.byte (k.off + k.done.length) src } : File) =
      { s with byte := blit s.byte (k.off + k.done.length) src, size := k.size } := by
    rw [← hk.2.2]
  rw [hs]
  refine h.hold hp hlock { k with done := k.done ++ src } le_rfl rfl fun hb => ?_
  have hlen : k.off + k.done.length = s₀.off + (cat L ++ k.done).length := by
    rw [List.length_append, ← hk.1, h.off]
    omega
  rw [hb, hlen, blit_blit, List.append_assoc]

/-- A chunk is there when the offset is moved behind it. -/
theorem Inv.advance {id off n : ℕ} (hp : γ p = g) (hcall : g.call = some (id, rest))
    (hne : rest ≠ []) (hlock : g.lock = some ⟨off, rest.take maxWrite, n⟩)
    (hn : off + (rest.take maxWrite).length ≤ n) :
    Inv s₀ { s with off := s.off + (rest.take maxWrite).length } o (L ++ [(id, rest.take maxWrite)])
      (update γ p ⟨some (id, rest.drop maxWrite),
      some ⟨off + (rest.take maxWrite).length, [], n⟩⟩) := by
  subst hp
  obtain ⟨hoff, hbyte, hsize⟩ := h.held p _ hlock
  have hsome : ((γ p).lock).isSome := by rw [hlock]; rfl
  obtain ⟨src, hsrc, hcut⟩ := h.calls p id rest hcall
  have hid : id < s.calls.length := (List.getElem?_eq_some_iff.mp hsrc).1
  have hcut' : ofCall id (L ++ [(id, rest.take maxWrite)]) ++
      cut (rest.drop maxWrite) = cut src := by
    rw [ofCall_concat_self, List.append_assoc, List.singleton_append, ← cut_of_ne_nil hne, hcut]
  have hother : ∀ q id' rest', q ≠ p → (γ q).call = some (id', rest') → id ≠ id' := by
    rintro q id' rest' hq hq' rfl
    exact hq (h.distinct q p id rest' rest hq' hcall)
  obtain ⟨hfree, howner, honly⟩ := h.keeps hsome
    (g := ⟨some (id, rest.drop maxWrite), some ⟨off + (rest.take maxWrite).length, [], n⟩⟩) rfl
  constructor
  · change s.off + _ = _
    rw [h.off, cat_concat, List.length_append, Nat.add_assoc]
  · exact fun _ => by rw [hoff, hsize]; exact hn
  · exact howner
  · exact fun hn => absurd hn hfree
  · intro q k hq
    rw [honly q k hq]
    exact ⟨by rw [hoff], by rw [cat_concat, List.append_nil]; exact hbyte, hsize⟩
  · intro x hx
    rcases List.mem_append.mp hx with hx | hx
    · exact h.known x hx
    · rw [List.mem_singleton.mp hx]
      exact hid
  · intro q id' rest' hq
    by_cases hqp : q = p
    · rw [hqp, update_self] at hq
      obtain ⟨rfl, rfl⟩ := Prod.mk.inj (Option.some.inj hq)
      exact ⟨src, hsrc, hcut'⟩
    · rw [update_of_ne hqp] at hq
      rw [ofCall_concat_of_ne (hother q id' rest' hqp hq)]
      exact h.calls q id' rest' hq
  · exact h.distinct_update hother
  · intro id' src' hs
    by_cases hid' : id = id'
    · exact Or.inr (Or.inl ⟨p, rest.drop maxWrite, by rw [update_self, hid']⟩)
    · rw [ofCall_concat_of_ne hid']
      refine (h.ended id' src' hs).imp_right (Or.imp_left ?_)
      rintro ⟨q, r, hq⟩
      have hqp : q ≠ p := by
        rintro rfl
        rw [hcall] at hq
        exact hid' (Prod.mk.inj (Option.some.inj hq)).1
      exact ⟨q, r, by rwa [update_of_ne hqp]⟩

/-- A call begins. -/
theorem Inv.begin (hp : γ p = .idle) (src : List UInt8) :
    Inv s₀ { s with calls := s.calls ++ [src] } o L
      (update γ p ⟨some (s.calls.length, src), none⟩) := by
  have hlock := lock_setCall (γ := γ) (p := p) (by rw [hp]; rfl)
  have hget : ∀ {id' src'}, s.calls[id']? = some src' →
      id' < s.calls.length ∧ (s.calls ++ [src])[id']? = some src' := fun hs => by
    have hlt := (List.getElem?_eq_some_iff.mp hs).1
    exact ⟨hlt, by rwa [List.getElem?_append_left hlt]⟩
  have hlt : ∀ q id' rest, (γ q).call = some (id', rest) → id' < s.calls.length :=
    fun q id' rest hq => by
    obtain ⟨src', hs', -⟩ := h.calls q id' rest hq
    exact (hget hs').1
  constructor
  · exact h.off
  · exact h.size
  · intro q
    rw [hlock]
    exact h.owner q
  · exact h.free
  · intro q
    rw [hlock]
    exact h.held q
  · intro x hx
    have := h.known x hx
    rw [List.length_append]
    omega
  · intro q id' rest hq
    by_cases hqp : q = p
    · rw [hqp, update_self] at hq
      obtain ⟨rfl, rfl⟩ := Prod.mk.inj (Option.some.inj hq)
      exact ⟨src, List.getElem?_concat_length, by rw [ofCall_eq_nil h.known, List.nil_append]⟩
    · rw [update_of_ne hqp] at hq
      obtain ⟨src', hs', hcut⟩ := h.calls q id' rest hq
      exact ⟨src', (hget hs').2, hcut⟩
  · exact h.distinct_update fun q id' r _ hq => (hlt q id' r hq).ne'
  · intro id' src' hs
    change (s.calls ++ [src])[id']? = some src' at hs
    by_cases hid : id' < s.calls.length
    · rw [List.getElem?_append_left hid] at hs
      refine (h.ended id' src' hs).imp_right (Or.imp_left ?_)
      rintro ⟨q, r, hq⟩
      have hqp : q ≠ p := by
        rintro rfl
        rw [hp] at hq
        simp [View.idle] at hq
      exact ⟨q, r, by rwa [update_of_ne hqp]⟩
    · have heq : id' = s.calls.length := by
        have := (List.getElem?_eq_some_iff.mp hs).1
        rw [List.length_append, List.length_singleton] at this
        omega
      exact Or.inr (Or.inl ⟨p, src, by rw [update_self, heq]⟩)

/-- A call is over, with all data written or not. -/
theorem Inv.finish {id : ℕ} {fail : Bool} (hp : γ p = ⟨some (id, rest), none⟩)
    (hrest : fail = false → rest = []) :
    Inv s₀ { s with failed := s.failed || fail } o L (update γ p .idle) := by
  have hcall : (γ p).call = some (id, rest) := by rw [hp]
  have hlock : ∀ q, (update γ p .idle q).lock = (γ q).lock := lock_setCall (by rw [hp]) none
  have hkeep : ∀ q id' r, (update γ p View.idle q).call = some (id', r) →
      q ≠ p ∧ (γ q).call = some (id', r) := fun q id' r hq => by
    by_cases hqp : q = p
    · rw [hqp, update_self] at hq
      simp [View.idle] at hq
    · rw [update_of_ne hqp] at hq
      exact ⟨hqp, hq⟩
  constructor
  · exact h.off
  · exact h.size
  · intro q
    rw [hlock]
    exact h.owner q
  · exact h.free
  · intro q
    rw [hlock]
    exact h.held q
  · exact h.known
  · exact fun q id' r hq => h.calls q id' r (hkeep q id' r hq).2
  · exact fun q q' id' r r' hq hq' =>
      h.distinct q q' id' r r' (hkeep q id' r hq).2 (hkeep q' id' r' hq').2
  · intro id' src hs
    rcases h.ended id' src hs with hf | ⟨q, r, hq⟩ | hc
    · exact Or.inl (by simp [hf])
    · by_cases hqp : q = p
      · subst hqp
        rw [hcall] at hq
        obtain ⟨rfl, rfl⟩ := Prod.mk.inj (Option.some.inj hq)
        cases fail with
        | true => exact Or.inl (by simp)
        | false =>
          obtain ⟨src', hs', hcut⟩ := h.calls q id rest hcall
          rw [hrest rfl, cut_nil, List.append_nil] at hcut
          obtain rfl : src' = src := Option.some.inj (hs'.symm.trans hs)
          exact Or.inr (Or.inr hcut)
      · exact Or.inr (Or.inl ⟨q, r, by rwa [update_of_ne hqp]⟩)
    · exact Or.inr (Or.inr hc)

/-- A process takes the lock. -/
theorem Inv.lock (hp : γ p = g) (ho : o () = none) :
    Inv s₀ s (update o () (some p)) L (update γ p { g with lock := some ⟨s.off, [], s.size⟩ }) := by
  subst hp
  have hnone : ∀ q, (γ q).lock = none := fun q => by
    by_contra hne
    have := (h.owner q).mpr (Option.ne_none_iff_isSome.mp hne)
    rw [ho] at this
    exact absurd this (by simp)
  refine h.congr_calls (call_setLock γ p · _) rfl rfl rfl le_rfl (fun q => ?_) (fun hn => ?_)
    fun q k hq => ?_
  · rw [update_self]
    by_cases hqp : q = p
    · rw [hqp, update_self]
      exact iff_of_true rfl rfl
    · rw [update_of_ne hqp, hnone]
      exact iff_of_false (fun he => hqp (Option.some.inj he).symm) (by simp)
  · rw [update_self] at hn
    exact absurd hn (by simp)
  · by_cases hqp : q = p
    · rw [hqp, update_self] at hq
      cases hq
      exact ⟨rfl, by rw [List.append_nil]; exact h.free ho, rfl⟩
    · rw [update_of_ne hqp, hnone] at hq
      simp at hq

/-- A process gives the lock up, with no part of a chunk behind the offset. -/
theorem Inv.unlock (hp : γ p = g) (hlock : g.lock = some k) (hdone : k.done = []) :
    Inv s₀ s (update o () none) L (update γ p { g with lock := none }) := by
  subst hp
  have hsome : ((γ p).lock).isSome := by rw [hlock]; rfl
  have hnone : ∀ q, (update γ p { γ p with lock := none } q).lock = none := fun q => by
    by_cases hqp : q = p
    · rw [hqp, update_self]
    · rw [update_of_ne hqp]
      exact h.unlocked hsome hqp
  refine h.congr_calls (call_setLock γ p · _) rfl rfl rfl le_rfl (fun q => ?_) (fun _ => ?_)
    fun q k hq => ?_
  · rw [update_self, hnone]
    exact iff_of_false (by simp) (by simp)
  · have := (h.held p k hlock).2.1
    rwa [hdone, List.append_nil] at this
  · rw [hnone] at hq
    simp at hq

end

end Steps

/-! ### The calls keep the invariant -/

variable {P : Type} [DecidableEq P]

section Code

variable {s₀ : File} {p : P} {Q : ℤ → View → Prop}

theorem safe_writeBlocks {n : ℕ} (src : List UInt8) {k : Held} {g : View} {Q : Unit → View → Prop}
    (hn : src.length ≤ n) (hlock : g.lock = some k)
    (hQ : Q () { g with lock := some { k with done := k.done ++ src } }) :
    (logic P s₀).Safe p (writeBlocks n (k.off + k.done.length) src) Q g := by
  induction n generalizing k src g with
  | zero =>
    rw [List.length_eq_zero_iff.mp (Nat.le_zero.mp hn), List.append_nil, ← hlock] at hQ
    exact hQ
  | succ n ih =>
    rw [writeBlocks]
    refine Logic.safe_ite (fun hsrc => ?_) fun hsrc => ?_
    · rw [List.isEmpty_iff.mp hsrc, List.append_nil, ← hlock] at hQ
      exact hQ
    · have hpos : 0 < src.length := by simpa [List.length_pos_iff] using hsrc
      have hmod : (k.off + k.done.length) % BSIZE < BSIZE := Nat.mod_lt _ (by decide)
      set m := min src.length (BSIZE - (k.off + k.done.length) % BSIZE)
      have hm : (src.take m).length = m := by
        rw [List.length_take]
        omega
      refine .bind (Logic.safe_modify fun s o L γ hI hg _ =>
        ⟨L, _, hI.write hg hlock (src.take m), ?_⟩)
      have hrest := ih (src.drop m) (k := { k with done := k.done ++ src.take m })
        (g := { g with lock := some { k with done := k.done ++ src.take m } })
        (by rw [List.length_drop]; omega) rfl
        (by rw [List.append_assoc, List.take_append_drop]; exact hQ)
      rwa [List.length_append, hm, ← Nat.add_assoc] at hrest

/-- `writei` fails at once, or all bytes are there and below the size. -/
theorem safe_writei {off m : ℕ} {src : List UInt8} {g : View} (hlock : g.lock = some ⟨off, [], m⟩)
    (hsrc : src ≠ []) (hfail : Q (-1) g)
    (hQ : ∀ n, off + src.length ≤ n → Q src.length { g with lock := some ⟨off, src, n⟩ }) :
    (logic P s₀).Safe p (writei off src) Q g := by
  have hpos := List.length_pos_iff.mpr hsrc
  rw [writei]
  refine .bind (Logic.safe_read_const fun s o L γ hI hg => ?_)
  refine Logic.safe_ite (fun _ => hfail) fun _ => Logic.safe_ite (fun _ => hfail) fun _ => ?_
  refine .bind (safe_writeBlocks _ (k := ⟨off, [], m⟩) le_rfl hlock ?_)
  refine .bind (Logic.safe_read_const fun s o L γ hI hg => ?_)
  obtain ⟨-, -, hsize⟩ := hI.held p ⟨off, src, m⟩ (by rw [hg]; rfl)
  rw [hsize]
  by_cases hgrow : m < off + src.length
  · rw [if_pos ⟨hpos, hgrow⟩]
    refine .bind (Logic.safe_modify fun s o L γ hI hg _ => ⟨L, _, ?_, hQ _ le_rfl⟩)
    exact hI.hold (b := s.byte) hg rfl ⟨off, src, off + src.length⟩ hgrow.le rfl id
  · rw [if_neg fun h => hgrow h.2]
    exact hQ m (not_lt.mp hgrow)

/-- A chunk is written, or nothing is. -/
theorem safe_writeChunk {id : ℕ} {rest : List UInt8} (hne : rest ≠ [])
    (hfail : Q (-1) ⟨some (id, rest), none⟩)
    (hQ : Q (rest.take maxWrite).length ⟨some (id, rest.drop maxWrite), none⟩) :
    (logic P s₀).Safe p (writeChunk (rest.take maxWrite)) Q ⟨some (id, rest), none⟩ := by
  have hpos : 0 < (rest.take maxWrite).length := by
    have := List.length_pos_iff.mpr hne
    have hmax : 0 < maxWrite := by decide
    rw [List.length_take]
    omega
  rw [writeChunk]
  refine .bind (Logic.safe_lock trivial fun s o L γ hI hg ho => ⟨L, _, hI.lock hg ho, ?_⟩)
  generalize s.off = off
  generalize s.size = size
  refine .bind (Logic.safe_read_const fun s o L γ hI hg => ?_)
  have hread : s.off = off := (hI.held p ⟨off, [], size⟩ (by rw [hg])).1
  rw [hread]
  refine .bind (safe_writei rfl (List.length_pos_iff.mp hpos) ?_ fun n hn => ?_)
  · rw [if_neg (by decide)]
    change (logic P s₀).Safe p (.unlock () >>= fun _ => pure (-1)) Q _
    exact .bind (Logic.safe_unlock fun s o L γ hI hg => ⟨L, _, hI.unlock hg rfl rfl, hfail⟩)
  · rw [if_pos (by exact_mod_cast hpos)]
    refine .bind (Logic.safe_modify fun s o L γ hI hg _ =>
      ⟨_, _, hI.advance hg rfl hne rfl hn, ?_⟩)
    exact .bind (Logic.safe_unlock fun s o L γ hI hg => ⟨L, _, hI.unlock hg rfl rfl, hQ⟩)

theorem safe_filewriteFrom {n id : ℕ} {rest : List UInt8} {Q : Bool → View → Prop}
    (hn : rest.length ≤ n) (hfail : ∀ rest', Q false ⟨some (id, rest'), none⟩)
    (hQ : Q true ⟨some (id, []), none⟩) :
    (logic P s₀).Safe p (filewriteFrom n rest) Q ⟨some (id, rest), none⟩ := by
  induction n generalizing rest with
  | zero =>
    obtain rfl := List.length_eq_zero_iff.mp (Nat.le_zero.mp hn)
    exact hQ
  | succ n ih =>
    rw [filewriteFrom]
    refine Logic.safe_ite (fun hr => ?_) fun hr => ?_
    · obtain rfl := List.isEmpty_iff.mp hr
      exact hQ
    · have hne : rest ≠ [] := by simpa using hr
      have hpos := List.length_pos_iff.mpr hne
      have hdrop := length_drop_maxWrite rest
      refine .bind (safe_writeChunk hne (hfail rest) ?_)
      rw [if_neg (by omega), if_neg (by simp)]
      exact ih (by omega)

theorem safe_write (src : List UInt8) :
    (logic P s₀).Safe p (write src) (fun _ g => g = .idle) .idle := by
  rw [write]
  refine .bind (Logic.safe_modify fun s o L γ hI hg _ => ⟨L, _, hI.begin hg src, ?_⟩)
  rw [filewrite]
  refine .bind (.bind (safe_filewriteFrom le_rfl (fun rest' => ?_) ?_))
  · exact Logic.safe_modify fun s o L γ hI hg _ => ⟨L, _, hI.finish hg (by simp), rfl⟩
  · exact Logic.safe_modify fun s o L γ hI hg _ => ⟨L, _, hI.finish hg fun _ => rfl, rfl⟩

end Code

/-- At a time when no call is in progress and all have succeeded, the bytes from the first offset on
are the chunks of the calls, one after the other in some order in which the chunks of a call stand
as in the call. The offset has moved by the bytes of all calls, and nothing else has changed. -/
theorem shared_writes_in_order (r : Run (step (P := P))) (hcalls : (r.state 0).mem.calls = [])
    (hfree : (r.state 0).owner () = none) (hidle : ∀ p, (r.state 0).thread p = none) {k : ℕ}
    (hk : k ≤ r.length) (hdone : ∀ p, (r.state k).thread p = none)
    (hok : (r.state k).mem.failed = false) :
    ∃ L : List (ℕ × List UInt8),
      (∀ id, ofCall id L = cut ((r.state k).mem.calls.getD id [])) ∧
      (∀ x ∈ L, x.2.length ≤ 1536) ∧
      (r.state k).mem.bytes (r.state 0).mem.off (cat L).length = cat L ∧
      (r.state k).mem.off = (r.state 0).mem.off + ((r.state k).mem.calls.map List.length).sum ∧
      (cat L).length = ((r.state k).mem.calls.map List.length).sum ∧
      (cat L ≠ [] → (r.state k).mem.off ≤ (r.state k).mem.size) ∧
      ∀ x, x < (r.state 0).mem.off ∨ (r.state k).mem.off ≤ x →
        (r.state k).mem.byte x = (r.state 0).mem.byte x := by
  have h0 : Inv (r.state 0).mem (r.state 0).mem (r.state 0).owner [] fun _ : P => View.idle := by
    constructor
    · rfl
    · exact fun h => absurd rfl h
    · intro p
      rw [hfree]
      exact iff_of_false (by simp) (by simp [View.idle])
    · exact fun _ => blit_nil.symm
    · exact fun p k hp => by simp [View.idle] at hp
    · simp
    · exact fun p id rest hp => by simp [View.idle] at hp
    · exact fun p q id rest rest' hp => by simp [View.idle] at hp
    · simp [hcalls]
  obtain ⟨L, γ, hsound⟩ := Logic.Sound.run (L := logic P (r.state 0).mem) (fun g => g = .idle) r
    (fun s o L γ p src hI hg _ => ⟨L, .idle, by rwa [← hg, update_eq_self], safe_write src⟩)
    ⟨[], _, h0, fun p c hp => by simp [hidle] at hp, fun p _ => rfl⟩ (fun _ _ => trivial) hk
  have hI := hsound.inv
  have hγ : ∀ p, γ p = .idle := fun p => hsound.idle p (hdone p)
  have howner : (r.state k).owner () = none := by
    cases ho : (r.state k).owner () with
    | none => rfl
    | some p =>
      have := (hI.owner p).mp ho
      simp [hγ, View.idle] at this
  have hcut : ∀ id, ofCall id L = cut ((r.state k).mem.calls.getD id []) := fun id => by
    by_cases hid : id < (r.state k).mem.calls.length
    · have hget : (r.state k).mem.calls[id]? = some ((r.state k).mem.calls.getD id []) := by
        simp [hid]
      rcases hI.ended id _ hget with hf | ⟨p, rest, hp⟩ | hc
      · rw [hok] at hf
        exact absurd hf (by simp)
      · simp [hγ, View.idle] at hp
      · exact hc
    · rw [List.getD_eq_getElem?_getD, List.getElem?_eq_none (not_lt.mp hid),
        Option.getD_none, cut_nil]
      refine ofCall_eq_nil fun x hx => ?_
      have := hI.known x hx
      omega
  have hlen : (cat L).length = ((r.state k).mem.calls.map List.length).sum := by
    rw [length_cat hI.known]
    simp only [hcut, flatten_cut]
    exact sum_length_getD _
  have hbyte := hI.free howner
  have hoff := hI.off
  refine ⟨L, hcut, fun x hx => ?_, ?_, by rw [hoff, hlen], hlen, hI.size, fun x hx => ?_⟩
  · have hmem : x.2 ∈ ofCall x.1 L := List.mem_map.mpr ⟨x, by simpa using hx, rfl⟩
    rw [hcut] at hmem
    exact length_le_of_mem_cut hmem
  · rw [File.bytes, hbyte, slice_blit_self]
  · rw [hbyte]
    rcases hx with hx | hx
    · exact blit_of_lt hx
    · exact blit_of_ge (by omega)

instance : Inhabited (Pool.Act Bool (List UInt8)) := ⟨.step false⟩

/-- An empty file that nobody writes to. -/
def empty : Pool Bool File Unit Unit Panic Unit := ⟨⟨0, 0, fun _ => 0, [], false⟩, fun _ => none,
  fun _ => none⟩

/-- The second process starts while the first one has the lock. -/
def twoWriters : List (Pool.Act Bool (List UInt8)) :=
  .start false [1, 2] :: .start true [3] :: List.replicate 3 (.step false) ++ [.step true] ++
    List.replicate 8 (.step false) ++ List.replicate 10 (.step true)

def twoWritersRun : Run (step (P := Bool)) := Run.ofActions empty twoWriters (by decide +kernel)

theorem shared_writes_in_order_twoWriters : twoWritersRun.state 0 = empty ∧
    (twoWritersRun.state 24).mem.calls = [[1, 2], [3]] ∧
      ∃ L : List (ℕ × List UInt8), ofCall 0 L = cut [1, 2] ∧ ofCall 1 L = cut [3] ∧
        (twoWritersRun.state 24).mem.bytes 0 (cat L).length = cat L ∧
        (twoWritersRun.state 24).mem.off = 3 := by
  have hcalls : (twoWritersRun.state 24).mem.calls = [[1, 2], [3]] := by decide +kernel
  have hdone : ∀ p, (twoWritersRun.state 24).thread p = none := by decide +kernel
  obtain ⟨L, hcut, -, hbytes, hoff, -⟩ :=
    shared_writes_in_order twoWritersRun rfl rfl (fun _ => rfl)
    (k := 24) (by decide) hdone (by decide +kernel)
  rw [hcalls] at hcut hoff
  exact ⟨rfl, hcalls, L, hcut 0, hcut 1, hbytes, hoff⟩

end Xv6.Fs.SharedWrite
