import Mathlib.Data.Nat.Notation
import Mathlib.Data.Nat.Bitwise
import Mathlib.Logic.Function.Basic

/-!
# Bytes

Numbers as little-endian bytes, and memory as bytes by position: `slice` reads a
piece of it and `blit` copies a list into it.
-/

namespace Bytes

/-- The `w` bytes of a number, the lowest first. -/
def le : ℕ → ℕ → List UInt8
  | 0, _ => []
  | w + 1, v => UInt8.ofNat v :: le w (v / 256)

def ofLE : List UInt8 → ℕ
  | [] => 0
  | c :: l => c.toNat + 256 * ofLE l

/-- The `n` bytes from position `k` on. -/
def slice (b : ℕ → UInt8) (k n : ℕ) : List UInt8 := (List.range n).map fun i => b (k + i)

/-- `l` copied to position `k`. -/
def blit (b : ℕ → UInt8) (k : ℕ) (l : List UInt8) : ℕ → UInt8 :=
  fun i => if k ≤ i then (l[i - k]?).getD (b i) else b i

/-- The list with `src` written over it from `off` on. -/
def overwrite (bs : List UInt8) (off : ℕ) (src : List UInt8) : List UInt8 :=
  bs.take off ++ src ++ bs.drop (off + src.length)

/-- The two-byte and the four-byte number at a position. -/
def half (b : ℕ → UInt8) (k : ℕ) : ℕ := ofLE (slice b k 2)
def word (b : ℕ → UInt8) (k : ℕ) : ℕ := ofLE (slice b k 4)

@[simp] theorem length_le (w v : ℕ) : (le w v).length = w := by
  induction w generalizing v with
  | zero => rfl
  | succ w ih => simp [le, ih]

theorem drop_le {w n : ℕ} (v : ℕ) (h : w ≤ n) : (le w v).drop n = [] :=
  List.drop_eq_nil_of_le (by rwa [length_le])

theorem ofLE_le (w v : ℕ) : ofLE (le w v) = v % 256 ^ w := by
  induction w generalizing v with
  | zero => simp [le, ofLE, Nat.mod_one]
  | succ w ih =>
    have hlow : v % 2 ^ 8 = v % 256 := rfl
    rw [le, ofLE, ih, UInt8.toNat_ofNat', hlow, pow_succ', Nat.mod_mul]

theorem ofLE_le_of_lt {w v : ℕ} (h : v < 256 ^ w) : ofLE (le w v) = v := by
  rw [ofLE_le, Nat.mod_eq_of_lt h]

theorem ofLE_lt (l : List UInt8) : ofLE l < 256 ^ l.length := by
  induction l with
  | nil => simp [ofLE]
  | cons c l ih =>
    have hc := c.toNat_lt
    rw [ofLE, List.length_cons, pow_succ]
    omega

@[simp] theorem length_slice (b : ℕ → UInt8) (k n : ℕ) : (slice b k n).length = n := by
  simp [slice]

section Slice

variable {b b' : ℕ → UInt8} {k i n : ℕ} {l l' : List UInt8}

theorem getElem?_slice (h : i < n) : (slice b k n)[i]? = some (b (k + i)) := by
  simp [slice, h]

theorem word_lt (b : ℕ → UInt8) (k : ℕ) : word b k < 2 ^ 32 :=
  (ofLE_lt _).trans_le (by simp)

theorem half_lt (b : ℕ → UInt8) (k : ℕ) : half b k < 2 ^ 16 :=
  (ofLE_lt _).trans_le (by simp)

theorem slice_congr (h : ∀ i, k ≤ i → i < k + n → b i = b' i) : slice b k n = slice b' k n := by
  refine List.map_congr_left fun i hi => h _ (Nat.le_add_right k i) ?_
  have := List.mem_range.mp hi
  omega

theorem blit_of_lt (h : i < k) : blit b k l i = b i := if_neg (by omega)

theorem blit_of_ge (h : k + l.length ≤ i) : blit b k l i = b i := by
  rw [blit, if_pos (by omega), List.getElem?_eq_none (by omega), Option.getD_none]

theorem blit_add (h : i < l.length) : blit b k l (k + i) = l[i] := by
  rw [blit, if_pos (by omega), Nat.add_sub_cancel_left, List.getElem?_eq_getElem h,
    Option.getD_some]

/-- Inside what has been copied, it is what is read. -/
theorem slice_blit (h : i + n ≤ l.length) : slice (blit b k l) (k + i) n = (l.drop i).take n := by
  refine List.ext_getElem (by simp; omega) fun j hj _ => ?_
  rw [length_slice] at hj
  simp only [slice, List.getElem_map, List.getElem_range, List.getElem_take, List.getElem_drop]
  rw [Nat.add_assoc, blit_add (by omega)]

theorem slice_blit_of_disjoint (h : i + n ≤ k ∨ k + l.length ≤ i) :
    slice (blit b k l) i n = slice b i n := by
  refine slice_congr fun j hj hlt => ?_
  obtain h | h := h
  · exact blit_of_lt (by omega)
  · exact blit_of_ge (by omega)

@[simp] theorem slice_blit_self (b : ℕ → UInt8) (k : ℕ) (l : List UInt8) :
    slice (blit b k l) k l.length = l := by
  simpa using slice_blit (b := b) (k := k) (i := 0) (n := l.length) (l := l) (by simp)

@[simp] theorem blit_nil : blit b k [] = b := by
  funext x
  simp [blit]

/-- Writing on where a write ended. -/
theorem blit_blit : blit (blit b k l) (k + l.length) l' = blit b k (l ++ l') := by
  funext x
  simp only [blit]
  by_cases h : k ≤ x
  · rw [if_pos h, List.getElem?_append]
    by_cases hx : x - k < l.length
    · rw [if_neg (by omega), if_pos h, if_pos hx]
    · rw [if_pos (by omega), if_pos h, if_neg hx,
        List.getElem?_eq_none (by omega : l.length ≤ x - k),
        Option.getD_none, Nat.sub_add_eq]
  · rw [if_neg (by omega), if_neg h, if_neg h]

theorem half_blit (h : i + 2 ≤ l.length) :
    half (blit b k l) (k + i) = ofLE ((l.drop i).take 2) := by
  rw [half, slice_blit h]

theorem word_blit (h : i + 4 ≤ l.length) :
    word (blit b k l) (k + i) = ofLE ((l.drop i).take 4) := by
  rw [word, slice_blit h]

theorem word_blit_le {v : ℕ} (h : v < 2 ^ 32) : word (blit b k (le 4 v)) k = v := by
  have hread := slice_blit_self b k (le 4 v)
  rw [length_le] at hread
  rw [word, hread, ofLE_le_of_lt h]

theorem word_blit_of_disjoint (h : i + 4 ≤ k ∨ k + l.length ≤ i) :
    word (blit b k l) i = word b i := by
  rw [word, word, slice_blit_of_disjoint h]

end Slice

/-! ### Overwriting -/

section Overwrite

variable {bs src src' : List UInt8} {off k : ℕ}

theorem length_overwrite (h : off ≤ bs.length) :
    (overwrite bs off src).length = max bs.length (off + src.length) := by
  simp only [overwrite, List.length_append, List.length_take, List.length_drop]
  omega

theorem getElem?_overwrite (h : off ≤ bs.length) : (overwrite bs off src)[k]? =
    if k < off then bs[k]? else if k < off + src.length then src[k - off]? else bs[k]? := by
  have htake : (bs.take off).length = off := by
    rw [List.length_take]
    omega
  rw [overwrite, List.append_assoc]
  split
  · next hk =>
    rw [List.getElem?_append_left (by omega), List.getElem?_take_of_lt hk]
  · next hk =>
    rw [List.getElem?_append_right (by omega), htake]
    split
    · rw [List.getElem?_append_left (by omega)]
    · rw [List.getElem?_append_right (by omega), List.getElem?_drop]
      congr 1
      omega

theorem overwrite_length : overwrite bs bs.length src = bs ++ src := by
  simp [overwrite]

theorem overwrite_nil : overwrite bs off [] = bs := by
  simp [overwrite]

/-- Two pieces that follow each other are one. -/
theorem overwrite_append (h : off ≤ bs.length) :
    overwrite (overwrite bs off src) (off + src.length) src' = overwrite bs off (src ++ src') := by
  have h' : off + src.length ≤ (overwrite bs off src).length := by
    rw [length_overwrite h]
    omega
  refine List.ext_getElem? fun k => ?_
  rw [getElem?_overwrite h', getElem?_overwrite h, getElem?_overwrite h, List.length_append]
  by_cases h1 : k < off
  · rw [if_pos (by omega), if_pos h1, if_pos h1]
  rw [if_neg h1, if_neg h1]
  by_cases h2 : k < off + src.length
  · rw [if_pos h2, if_pos h2, if_pos (by omega), List.getElem?_append_left (by omega)]
  rw [if_neg h2]
  by_cases h3 : k < off + src.length + src'.length
  · rw [if_pos h3, if_pos (by omega), List.getElem?_append_right (by omega), Nat.sub_sub]
  · rw [if_neg h3, if_neg h2, if_neg (by omega)]

end Overwrite

/-! ### Bits -/

def bit (b : ℕ → UInt8) (i : ℕ) : Bool := (b (i / 8)).toNat.testBit (i % 8)

def setBit (b : ℕ → UInt8) (i : ℕ) : ℕ → UInt8 :=
  Function.update b (i / 8) (b (i / 8) ||| UInt8.ofNat (1 <<< (i % 8)))

theorem bit_setBit (b : ℕ → UInt8) (i j : ℕ) :
    bit (setBit b i) j = (decide (i = j) || bit b j) := by
  by_cases hbyte : j / 8 = i / 8
  · have hlt : 1 <<< (i % 8) < 2 ^ 8 := by
      rw [Nat.one_shiftLeft]
      exact Nat.pow_lt_pow_right Nat.one_lt_two (Nat.mod_lt i (by decide))
    rw [bit, setBit, hbyte, Function.update_self, UInt8.toNat_or, Nat.testBit_or,
      UInt8.toNat_ofNat', Nat.mod_eq_of_lt hlt, Nat.one_shiftLeft, Nat.testBit_two_pow, bit,
      hbyte, Bool.or_comm]
    congr 2
    exact propext ⟨fun h => by omega, fun h => by rw [h]⟩
  · have hne : i ≠ j := fun h => hbyte (by rw [h])
    rw [bit, setBit, Function.update_of_ne hbyte, decide_eq_false hne, Bool.false_or, bit]

end Bytes
