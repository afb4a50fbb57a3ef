import Mathlib.Data.List.Basic
import Mathlib.Data.Nat.Notation

/-!
# Strings in memory

A buffer is the list of its characters. A string in it begins at an index and ends before the
first NUL.
-/

namespace Xv6.CString

def NUL : Char := Char.ofNat 0

/-- The string at `p`. -/
def cstr (buf : List Char) (p : ℕ) : List Char := (buf.drop p).takeWhile (· ≠ NUL)

/-- `strchr(buf + p, c)` for a `c` other than NUL. -/
def strchr (buf : List Char) (p : ℕ) (c : Char) : Option ℕ :=
  ((cstr buf p).findIdx? (· == c)).map (p + ·)

/-- `data` copied to `p`, `p + 1`, … -/
def blit (buf : List Char) (p : ℕ) (data : List Char) : List Char :=
  buf.take p ++ data ++ buf.drop (p + data.length)

section

variable {pre l rest : List Char}

theorem cstr_of_nul (hl : NUL ∉ l) : cstr (pre ++ (l ++ NUL :: rest)) pre.length = l := by
  rw [cstr, List.drop_left, List.takeWhile_append_of_pos fun c hc => ?_]
  · simp
  · have hne : c ≠ NUL := fun h => hl (h ▸ hc)
    simpa using hne

private theorem findIdx?_of_not_mem {c : Char} (hc : c ∉ l) : l.findIdx? (· == c) = none := by
  rw [List.findIdx?_eq_none_iff]
  intro x hx
  have hne : x ≠ c := fun h => hc (h ▸ hx)
  simpa using hne

/-- The first of them, where the string goes on behind it. -/
theorem strchr_of_mem {c : Char} {k : List Char} (hl : NUL ∉ l ++ c :: k) (hc : c ∉ l) :
    strchr (pre ++ (l ++ c :: k ++ NUL :: rest)) pre.length c = some (pre.length + l.length) := by
  rw [strchr, cstr_of_nul hl, List.findIdx?_append, findIdx?_of_not_mem hc]
  simp [List.findIdx?_cons]

theorem strchr_of_not_mem {c : Char} (hl : NUL ∉ l) (hc : c ∉ l) :
    strchr (pre ++ (l ++ NUL :: rest)) pre.length c = none := by
  rw [strchr, cstr_of_nul hl, findIdx?_of_not_mem hc]
  rfl

theorem set_length_add (x y : Char) :
    (pre ++ (l ++ x :: rest)).set (pre.length + l.length) y = pre ++ (l ++ y :: rest) := by
  rw [List.set_append_right _ _ (by omega), Nat.add_sub_cancel_left,
    List.set_append_right _ _ (by omega)]
  simp

end

end Xv6.CString
