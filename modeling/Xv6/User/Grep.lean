import Xv6.Lib.CString
import Mathlib.Tactic.Cases
import Mathlib.Tactic.Common
import Mathlib.Data.List.Basic

/-!
# `grep`

The matcher of `grep.c` and the loop that cuts its input into lines. The strings the matcher
works on are the lists of their characters, so that `[]` stands for the NUL. The loop keeps a
buffer of 1024 characters; what the kernel answers to its reads is a list of pieces.
-/

namespace Xv6.Grep

open CString

/-! ### The matcher -/

/-- `matchstar`, with `here` for `matchhere` at the pattern behind the star. -/
def matchstar (c : Char) (here : List Char → Bool) : List Char → Bool
  | [] => here []
  | t :: text => here (t :: text) || ((t == c || c == '.') && matchstar c here text)

def matchhere : List Char → List Char → Bool
  | [], _ => true
  | c :: '*' :: re, text => matchstar c (matchhere re) text
  | ['$'], text => text == []
  | _ :: _, [] => false
  | c :: re, t :: text => (c == '.' || c == t) && matchhere re text

/-- The `do` of `match`. -/
def matchLoop (re : List Char) : List Char → Bool
  | [] => matchhere re []
  | t :: text => matchhere re (t :: text) || matchLoop re text

def match_ : List Char → List Char → Bool
  | '^' :: re, text => matchhere re text
  | re, text => matchLoop re text

/-! ### What a pattern means -/

/-- What stands at one point of a pattern. -/
inductive Item
  | star (c : Char)
  | eol
  | one (c : Char)
  deriving DecidableEq

/-- A pattern from left to right, the first case that applies at each point. -/
def items : List Char → List Item
  | [] => []
  | c :: '*' :: re => .star c :: items re
  | ['$'] => [.eol]
  | c :: re => .one c :: items re

def Stands (c t : Char) : Prop := c = '.' ∨ c = t

/-- `u` is what the item matches, with `v` behind it in the text. -/
def Item.Matches : Item → List Char → List Char → Prop
  | .star c, u, _ => ∀ t ∈ u, Stands c t
  | .eol, u, v => u = [] ∧ v = []
  | .one c, u, _ => ∃ t, u = [t] ∧ Stands c t

def Matches : List Item → List Char → List Char → Prop
  | [], u, _ => u = []
  | i :: is, u, v => ∃ x y, u = x ++ y ∧ i.Matches x (y ++ v) ∧ Matches is y v

/-- A prefix of `text` is matched. -/
def Begins (is : List Item) (text : List Char) : Prop :=
  ∃ u v, text = u ++ v ∧ Matches is u v

theorem begins_cons (i : Item) (is : List Item) (text : List Char) :
    Begins (i :: is) text ↔ ∃ x rest, text = x ++ rest ∧ i.Matches x rest ∧ Begins is rest := by
  constructor
  · rintro ⟨u, v, rfl, x, y, rfl, hx, hy⟩
    exact ⟨x, y ++ v, List.append_assoc .., hx, y, v, rfl, hy⟩
  · rintro ⟨x, rest, rfl, hx, y, v, rfl, hy⟩
    exact ⟨x ++ y, v, (List.append_assoc ..).symm, x, y, rfl, hx, hy⟩

theorem stands_iff (c t : Char) : (t == c || c == '.') = true ↔ Stands c t := by
  simp only [Bool.or_eq_true, beq_iff_eq, Stands]
  constructor
  · rintro (h | h)
    · exact .inr h.symm
    · exact .inl h
  · rintro (h | h)
    · exact .inr h
    · exact .inl h.symm

/-- The star takes as many characters as it stands for, and the rest is looked at from there. -/
theorem matchstar_iff (c : Char) (here : List Char → Bool) (text : List Char) :
    matchstar c here text = true ↔
      ∃ x rest, text = x ++ rest ∧ (∀ t ∈ x, Stands c t) ∧ here rest = true := by
  induction text with
  | nil =>
    constructor
    · intro h
      exact ⟨[], [], rfl, by simp, h⟩
    · rintro ⟨x, rest, h, -, hh⟩
      obtain ⟨rfl, rfl⟩ := List.append_eq_nil_iff.mp h.symm
      exact hh
  | cons t text ih =>
    rw [matchstar, Bool.or_eq_true, Bool.and_eq_true, stands_iff, ih]
    constructor
    · rintro (h | ⟨ht, x, rest, rfl, hx, hh⟩)
      · exact ⟨[], t :: text, rfl, by simp, h⟩
      · exact ⟨t :: x, rest, rfl, by simpa [ht] using hx, hh⟩
    · rintro ⟨x, rest, h, hx, hh⟩
      cases x with
      | nil =>
        left
        rw [h]
        exact hh
      | cons t' x =>
        obtain ⟨rfl, rfl⟩ := List.cons.inj h
        exact .inr ⟨hx t (by simp), x, rest, rfl, fun t ht => hx t (by simp [ht]), hh⟩

theorem matchhere_iff (re text : List Char) :
    matchhere re text = true ↔ Begins (items re) text := by
  induction re using items.induct generalizing text with
  | case1 => simp [matchhere, items, Begins, Matches]
  | case2 c re ih =>
    rw [matchhere, matchstar_iff, items, begins_cons]
    simp only [Item.Matches, ih]
  | case3 =>
    rw [matchhere, items, begins_cons]
    simp [Item.Matches, Begins, Matches]
  | case4 c re hstar heol ih =>
    rw [items, begins_cons]
    · cases text with
      | nil =>
        rw [matchhere]
        · simp [Item.Matches]
        · exact hstar
        · exact heol
      | cons t text =>
        rw [matchhere, Bool.and_eq_true, ih, Bool.or_eq_true, beq_iff_eq, beq_iff_eq]
        · constructor
          · rintro ⟨hc, h⟩
            exact ⟨[t], text, rfl, ⟨t, rfl, hc⟩, h⟩
          · rintro ⟨x, rest, h, ⟨t', rfl, hc⟩, hb⟩
            obtain ⟨rfl, rfl⟩ := List.cons.inj h
            exact ⟨hc, hb⟩
        · exact hstar
        · exact heol
    · exact hstar
    · exact heol

theorem matchLoop_iff (re text : List Char) :
    matchLoop re text = true ↔ ∃ w rest, text = w ++ rest ∧ Begins (items re) rest := by
  induction text with
  | nil =>
    rw [matchLoop, matchhere_iff]
    constructor
    · intro h
      exact ⟨[], [], rfl, h⟩
    · rintro ⟨w, rest, h, hb⟩
      obtain ⟨rfl, rfl⟩ := List.append_eq_nil_iff.mp h.symm
      exact hb
  | cons t text ih =>
    rw [matchLoop, Bool.or_eq_true, matchhere_iff, ih]
    constructor
    · rintro (h | ⟨w, rest, rfl, hb⟩)
      · exact ⟨[], t :: text, rfl, h⟩
      · exact ⟨t :: w, rest, rfl, hb⟩
    · rintro ⟨w, rest, h, hb⟩
      cases w with
      | nil =>
        left
        rw [h]
        exact hb
      | cons t' w =>
        obtain ⟨rfl, rfl⟩ := List.cons.inj h
        exact .inr ⟨w, rest, rfl, hb⟩

/-- A pattern without the `^` it may begin with. -/
def body : List Char → List Char
  | '^' :: re => re
  | re => re

/-- **The matcher says 1 if and only if the pattern matches a piece of the text, which is its
beginning where the pattern begins with `^`.** -/
theorem match_iff (re text : List Char) :
    match_ re text = true ↔
      ∃ w u v, text = w ++ u ++ v ∧ (re.head? = some '^' → w = []) ∧
      Matches (items (body re)) u v := by
  by_cases hhead : re.head? = some '^'
  · obtain ⟨re, rfl⟩ := List.head?_eq_some_iff.mp hhead
    rw [match_, matchhere_iff]
    constructor
    · rintro ⟨u, v, rfl, h⟩
      exact ⟨[], u, v, rfl, fun _ => rfl, h⟩
    · rintro ⟨w, u, v, rfl, hw, h⟩
      rw [hw rfl]
      exact ⟨u, v, rfl, h⟩
  · have hne : ∀ re', re = '^' :: re' → False := by
      rintro re' rfl
      exact hhead rfl
    have hbody : body re = re := by
      rw [body]
      exact hne
    rw [match_, matchLoop_iff, hbody]
    · constructor
      · rintro ⟨w, rest, rfl, u, v, rfl, h⟩
        exact ⟨w, u, v, (List.append_assoc ..).symm, fun hh => absurd hh hhead, h⟩
      · rintro ⟨w, u, v, rfl, -, h⟩
        exact ⟨w, u ++ v, List.append_assoc .., u, v, rfl, h⟩
    · exact hne

/-! ### Lines -/

structure State where
  buf : List Char
  /-- how many characters of it are in use -/
  m : ℕ
  /-- what has been written, call by call -/
  out : List (List Char)

def BUFSIZE : ℕ := 1024

/-- The inner loop: the lines that end in the buffer, from `p` on. -/
def printLines (pattern : List Char) : ℕ → ℕ → State → Option (ℕ × State)
  | 0, _, _ => none
  | fuel + 1, p, s =>
    match strchr s.buf p '\n' with
    | none => some (p, s)
    | some q =>
      let buf := s.buf.set q NUL
      if match_ pattern (cstr buf p) then
        let buf := buf.set q '\n'
        printLines pattern fuel (q + 1)
          { s with buf, out := s.out ++ [(buf.drop p).take (q + 1 - p)] }
      else printLines pattern fuel (q + 1) { s with buf }

/-- One turn of the outer loop, in which `read` has given `c`. -/
def round (pattern c : List Char) (s : State) : Option State :=
  let m := s.m + c.length
  let buf := (blit s.buf s.m c).set m NUL
  match printLines pattern (m + 1) 0 { s with buf, m } with
  | none => none
  | some (p, s) =>
    let s := if p = 0 then { s with m := 0 } else s
    if 0 < s.m then
      let m := s.m - p
      -- `memmove`
      some { s with buf := blit s.buf 0 ((s.buf.drop p).take m), m }
    else some s

/-- `grep` on a stream that arrives as the pieces given, until `read` says 0. -/
def grep (pattern : List Char) : List (List Char) → State → Option State
  | [], s => some s
  | c :: reads, s =>
    match round pattern c s with
    | none => none
    | some s => grep pattern reads s

/-- The pieces are answers to the reads that `grep` makes: each has a character at least and no
more than was asked for. -/
def Answers (pattern : List Char) : List (List Char) → State → Prop
  | [], _ => True
  | c :: reads, s =>
    0 < c.length ∧ c.length ≤ BUFSIZE - s.m - 1 ∧
      ∀ s', round pattern c s = some s' → Answers pattern reads s'

/-- The stream with these lines. -/
def unlines (lines : List (List Char)) : List Char := lines.flatMap (· ++ ['\n'])

/-- What should be written of these lines. -/
def selected (pattern : List Char) (lines : List (List Char)) : List (List Char) :=
  (lines.filter (match_ pattern)).map (· ++ ['\n'])

@[simp] theorem unlines_nil : unlines [] = [] := rfl

@[simp] theorem unlines_cons (l : List Char) (ls : List (List Char)) :
    unlines (l :: ls) = l ++ '\n' :: unlines ls := by
  simp [unlines]

@[simp] theorem unlines_append (ls ls' : List (List Char)) :
    unlines (ls ++ ls') = unlines ls ++ unlines ls' := by
  simp [unlines]

@[simp] theorem selected_append (pattern : List Char) (ls ls' : List (List Char)) :
    selected pattern (ls ++ ls') = selected pattern ls ++ selected pattern ls' := by
  simp [selected]

/-- Every text is some lines and the beginning of another one. -/
theorem exists_lines (t : List Char) :
    ∃ ls part, t = unlines ls ++ part ∧ (∀ l ∈ ls, '\n' ∉ l) ∧ '\n' ∉ part := by
  induction t with
  | nil => exact ⟨[], [], rfl, by simp, by simp⟩
  | cons c t ih =>
    obtain ⟨ls, part, rfl, hls, hpart⟩ := ih
    by_cases hc : c = '\n'
    · subst hc
      exact ⟨[] :: ls, part, rfl, by simpa using hls, hpart⟩
    · cases ls with
      | nil => exact ⟨[], c :: part, rfl, by simp, by simp [hpart, Ne.symm hc]⟩
      | cons l ls =>
        refine ⟨(c :: l) :: ls, part, by simp, fun k hk => ?_, hpart⟩
        rcases List.mem_cons.mp hk with rfl | hk
        · simpa [Ne.symm hc] using hls l (by simp)
        · exact hls k (by simp [hk])

theorem takeWhile_line {l rest : List Char} (hl : '\n' ∉ l) :
    (l ++ '\n' :: rest).takeWhile (· ≠ '\n') = l := by
  rw [List.takeWhile_append_of_pos fun c hc => ?_]
  · simp
  · have hne : c ≠ '\n' := fun h => hl (h ▸ hc)
    simpa using hne

variable {part : List Char} {ls reads : List (List Char)} {s : State}

/-- A text splits into lines and a rest in one way only. -/
theorem lines_unique {ls' : List (List Char)} {part' : List Char} (hls : ∀ l ∈ ls, '\n' ∉ l)
    (hpart : '\n' ∉ part) (hls' : ∀ l ∈ ls', '\n' ∉ l) (hpart' : '\n' ∉ part')
    (h : unlines ls ++ part = unlines ls' ++ part') : ls = ls' ∧ part = part' := by
  induction ls generalizing ls' with
  | nil =>
    cases ls' with
    | nil => exact ⟨rfl, by simpa using h⟩
    | cons l ls' =>
      refine absurd ?_ hpart
      rw [show part = unlines (l :: ls') ++ part' from h]
      simp
  | cons l ls ih =>
    cases ls' with
    | nil =>
      refine absurd ?_ hpart'
      rw [show part' = unlines (l :: ls) ++ part from h.symm]
      simp
    | cons l' ls' =>
      have hl := hls l (by simp)
      have hl' := hls' l' (by simp)
      simp only [unlines_cons, List.append_assoc, List.cons_append] at h
      -- both lines end at the first newline
      have hll : l = l' := by
        have htake := congrArg (List.takeWhile (· ≠ '\n')) h
        rwa [takeWhile_line hl, takeWhile_line hl'] at htake
      subst hll
      have htail : unlines ls ++ part = unlines ls' ++ part' := by simpa using h
      obtain ⟨rfl, rfl⟩ := ih (fun k hk => hls k (by simp [hk]))
        (fun k hk => hls' k (by simp [hk])) htail
      exact ⟨rfl, rfl⟩

/-- The inner loop writes the lines that are selected and stops behind the last newline. -/
theorem printLines_eq (pattern : List Char) (hls : ∀ l ∈ ls, '\n' ∉ l) (hpart : '\n' ∉ part)
    (hnul : NUL ∉ unlines ls ++ part) (pre rest : List Char) (fuel : ℕ) (hfuel : ls.length < fuel)
    (s : State) (hbuf : s.buf = pre ++ (unlines ls ++ part ++ NUL :: rest)) :
    ∃ pre', pre'.length = pre.length + (unlines ls).length ∧
      printLines pattern fuel pre.length s = some (pre'.length,
        { s with buf := pre' ++ (part ++ NUL :: rest), out := s.out ++ selected pattern ls }) := by
  induction ls generalizing pre fuel s with
  | nil =>
    obtain ⟨fuel, rfl⟩ := Nat.exists_eq_add_of_lt hfuel
    rw [unlines_nil, List.nil_append] at hbuf hnul
    refine ⟨pre, by simp, ?_⟩
    rw [printLines, hbuf, strchr_of_not_mem hnul hpart]
    simp [← hbuf, selected]
  | cons l ls ih =>
    obtain ⟨fuel, rfl⟩ : ∃ k, fuel = k + 1 := ⟨fuel - 1, by omega⟩
    have hl : '\n' ∉ l := hls l (by simp)
    have hnl : NUL ∉ l := fun h => hnul (by simp [h])
    have hnr : NUL ∉ unlines ls ++ part := fun h => hnul (by
      rw [unlines_cons, List.append_assoc, List.cons_append]
      exact List.mem_append_right _ (List.mem_cons_of_mem _ h))
    have hsplit : s.buf = pre ++ (l ++ '\n' :: (unlines ls ++ part) ++ NUL :: rest) := by
      rw [hbuf]
      simp
    have hq : strchr s.buf pre.length '\n' = some (pre.length + l.length) := by
      rw [hsplit]
      refine strchr_of_mem ?_ hl
      simpa using hnul
    -- what the buffer is when the matcher looks at it, and afterwards
    have hset : ∀ x, (pre ++ (l ++ x :: (unlines ls ++ part ++ NUL :: rest))) =
        (pre ++ l ++ [x]) ++ (unlines ls ++ part ++ NUL :: rest) := by
      intro x
      simp
    have hcut : s.buf.set (pre.length + l.length) NUL =
        pre ++ (l ++ NUL :: (unlines ls ++ part ++ NUL :: rest)) := by
      rw [hsplit, List.append_assoc, List.cons_append, set_length_add]
    have hlen : ∀ x : Char, (pre ++ l ++ [x]).length = pre.length + l.length + 1 := by
      intro x
      simp [Nat.add_assoc]
    rw [printLines, hq]
    simp only [hcut, cstr_of_nul hnl]
    have hls' : ∀ k ∈ ls, '\n' ∉ k := fun k hk => hls k (by simp [hk])
    have hfuel' : ls.length < fuel := by simpa using hfuel
    by_cases hm : match_ pattern l = true
    · rw [if_pos hm, set_length_add]
      have hline :
        (List.drop pre.length (pre ++ (l ++ '\n' :: (unlines ls ++ part ++ NUL :: rest)))).take
          (pre.length + l.length + 1 - pre.length) = l ++ ['\n'] := by
        rw [List.drop_left, show pre.length + l.length + 1 - pre.length = (l ++ ['\n']).length by
          simp; omega, show l ++ '\n' :: (unlines ls ++ part ++ NUL :: rest) =
          (l ++ ['\n']) ++ (unlines ls ++ part ++ NUL :: rest) by simp, List.take_left]
      rw [hline, ← hlen '\n', hset]
      obtain ⟨pre', hpre, hrun⟩ := ih hls' hnr (pre ++ l ++ ['\n']) fuel hfuel'
        { s with buf := _, out := s.out ++ [l ++ ['\n']] } rfl
      refine ⟨pre', ?_, ?_⟩
      · rw [hpre, hlen, unlines_cons, List.length_append, List.length_cons]
        omega
      · rw [hrun]
        simp [selected, hm]
    · rw [if_neg hm, ← hlen NUL, hset]
      obtain ⟨pre', hpre, hrun⟩ := ih hls' hnr (pre ++ l ++ [NUL]) fuel hfuel'
        { s with buf := _ } rfl
      refine ⟨pre', ?_, ?_⟩
      · rw [hpre, hlen, unlines_cons, List.length_append, List.length_cons]
        omega
      · rw [hrun]
        simp [selected, hm]

/-- Between two reads the buffer begins with `part`, the line that has not ended. -/
structure Carries (s : State) (part : List Char) : Prop where
  size : s.buf.length = BUFSIZE
  count : s.m = part.length
  text : ∃ junk, s.buf = part ++ junk
  line : '\n' ∉ part
  string : NUL ∉ part

theorem unlines_length_le (ls : List (List Char)) : ls.length ≤ (unlines ls).length := by
  induction ls with
  | nil => simp
  | cons l ls ih =>
    rw [unlines_cons, List.length_append, List.length_cons, List.length_cons]
    omega

/-- The buffer behind a read. -/
theorem Carries.received {c : List Char} (h : Carries s part) (hc : c.length ≤ BUFSIZE - s.m - 1)
    (hpos : 0 < c.length) : ∃ rest, rest.length + (part ++ c).length + 1 = BUFSIZE ∧
      (blit s.buf s.m c).set (s.m + c.length) NUL = part ++ c ++ NUL :: rest := by
  obtain ⟨junk, hjunk⟩ := h.text
  have hsize := h.size
  rw [hjunk, List.length_append] at hsize
  rw [h.count] at hc ⊢
  have hlt : c.length < junk.length := by omega
  refine ⟨junk.drop (c.length + 1), ?_, ?_⟩
  · rw [List.length_drop, List.length_append]
    omega
  · rw [hjunk, blit, List.take_left, List.drop_append, List.drop_of_length_le (by omega),
      List.nil_append, Nat.add_sub_cancel_left, ← List.length_append,
      List.set_append_right _ _ (Nat.le_refl _), Nat.sub_self, List.drop_eq_getElem_cons hlt]
    rfl

/-- **A turn of the loop: where a newline has come, the lines that are complete are dealt with
and the rest is carried on; otherwise what the buffer holds is dropped.** -/
theorem round_eq (pattern : List Char) {c : List Char} (h : Carries s part) (hpos : 0 < c.length)
    (hc : c.length ≤ BUFSIZE - s.m - 1) (hnul : NUL ∉ c) {part' : List Char}
    (hsplit : part ++ c = unlines ls ++ part') (hls : ∀ l ∈ ls, '\n' ∉ l) (hpart' : '\n' ∉ part') :
    ∃ s', round pattern c s = some s' ∧ s'.out = s.out ++ selected pattern ls ∧
      Carries s' (if ls = [] then [] else part') := by
  obtain ⟨rest, hrest, hbuf⟩ := h.received hc hpos
  have hnul' : NUL ∉ unlines ls ++ part' := by
    rw [← hsplit, List.mem_append]
    exact not_or_intro h.string hnul
  have hlen : (part ++ c).length = (unlines ls).length + part'.length := by
    rw [hsplit, List.length_append]
  have hm : s.m + c.length = (part ++ c).length := by
    rw [h.count, List.length_append]
  rw [hsplit] at hbuf
  obtain ⟨pre, hpre, hrun⟩ := printLines_eq pattern hls hpart' hnul' [] rest
    (s.m + c.length + 1) (by have := unlines_length_le ls; omega)
    { s with buf := (blit s.buf s.m c).set (s.m + c.length) NUL, m := s.m + c.length } hbuf
  rw [List.length_nil, Nat.zero_add] at hpre
  rw [round]
  simp only [List.length_nil] at hrun
  rw [hrun]
  simp only [hpre]
  by_cases hnil : ls = []
  · subst hnil
    simp only [unlines_nil, List.length_nil, if_true, Nat.lt_irrefl, if_false]
    refine ⟨_, rfl, rfl, ?_, rfl, ⟨_, rfl⟩, by simp, by simp⟩
    simp only [List.length_append, List.length_cons, unlines_nil,
      List.length_nil] at hrest hlen hpre ⊢
    omega
  · have hp : 0 < (unlines ls).length := by
      have := unlines_length_le ls
      have := List.length_pos_iff.mpr hnil
      omega
    have hmpos : 0 < s.m + c.length := by omega
    have hleft : s.m + c.length - (unlines ls).length = part'.length := by omega
    -- `memmove` copies the line that has not ended
    have hpart : ((pre ++ (part' ++ NUL :: rest)).drop (unlines ls).length).take part'.length =
        part' := by
      rw [← hpre, List.drop_left, List.take_left]
    simp only [if_neg (Nat.ne_of_gt hp), if_pos hmpos, if_neg hnil, hleft, hpart]
    refine ⟨_, rfl, rfl, ?_, rfl, ⟨_, (List.append_assoc [] part' _)⟩, hpart',
      fun h => hnul' (List.mem_append_right _ h)⟩
    · simp only [blit, List.length_append, List.length_drop, List.length_cons, List.length_take]
      omega

/-- A line ends in the buffer if and only if a newline has come. -/
theorem lines_eq_nil_iff {c part' : List Char} (hpart : '\n' ∉ part) (hpart' : '\n' ∉ part')
    (hsplit : part ++ c = unlines ls ++ part') : ls = [] ↔ '\n' ∉ c := by
  constructor
  · rintro rfl hc
    rw [unlines_nil, List.nil_append] at hsplit
    exact hpart' (hsplit ▸ List.mem_append_right _ hc)
  · intro hc
    cases ls with
    | nil => rfl
    | cons l ls =>
      have hmem : '\n' ∈ part ++ c := by
        rw [hsplit]
        simp
      exact absurd hmem (by simp [hpart, hc])

/-- Where every piece has a newline, nothing is lost. -/
theorem grep_lines (pattern : List Char) (hnul : NUL ∉ reads.flatten) (hnl : ∀ c ∈ reads, '\n' ∈ c)
    (h : Carries s part) (ha : Answers pattern reads s) :
    ∃ ls part', part ++ reads.flatten = unlines ls ++ part' ∧ (∀ l ∈ ls, '\n' ∉ l) ∧
      '\n' ∉ part' ∧ ∃ s', grep pattern reads s = some s' ∧
        s'.out = s.out ++ selected pattern ls := by
  induction reads generalizing s part with
  | nil => exact ⟨[], part, by simp, by simp, h.line, s, rfl, by simp [selected]⟩
  | cons c reads ih =>
    obtain ⟨hpos, hc, hrest⟩ := ha
    obtain ⟨ls, part', hsplit, hls, hpart'⟩ := exists_lines (part ++ c)
    have hnc : NUL ∉ c := fun hm => hnul (by simp [hm])
    obtain ⟨s₁, hround, hout, hcar⟩ := round_eq pattern h hpos hc hnc hsplit hls hpart'
    have hne : ls ≠ [] := fun hnil =>
      (lines_eq_nil_iff h.line hpart' hsplit).mp hnil (hnl c (by simp))
    rw [if_neg hne] at hcar
    obtain ⟨ls', part'', hsplit', hls', hpart'', s', hrun, hout'⟩ := ih
      (fun hm => hnul (List.mem_append_right _ hm)) (fun k hk => hnl k (by simp [hk])) hcar
      (hrest s₁ hround)
    refine ⟨ls ++ ls', part'', ?_, ?_, hpart'', s', ?_, ?_⟩
    · rw [List.flatten_cons, ← List.append_assoc, hsplit, List.append_assoc, hsplit',
        unlines_append, List.append_assoc]
    · intro l hl
      rcases List.mem_append.mp hl with hl | hl
      · exact hls l hl
      · exact hls' l hl
    · rw [grep, hround]
      exact hrun
    · rw [hout', hout, List.append_assoc, selected_append]

/-- The empty pattern selects every line. -/
theorem selected_nil (lines : List (List Char)) : (selected [] lines).flatten = unlines lines := by
  have hall : ∀ l, match_ [] l = true := by
    intro l
    cases l <;> rfl
  rw [selected, List.filter_eq_self.mpr fun l _ => hall l, unlines, List.flatMap_def]

/-- However the pieces come, no more is written than was read; and less, where a piece has no
newline. -/
theorem grep_loses (hnul : NUL ∉ reads.flatten) (h : Carries s part) (ha : Answers [] reads s) :
    ∃ s', grep [] reads s = some s' ∧
      s'.out.flatten.length ≤ s.out.flatten.length + part.length + reads.flatten.length ∧
      ((∃ c ∈ reads, '\n' ∉ c) →
        s'.out.flatten.length < s.out.flatten.length + part.length + reads.flatten.length) := by
  induction reads generalizing s part with
  | nil => exact ⟨s, rfl, by omega, by simp⟩
  | cons c reads ih =>
    obtain ⟨hpos, hc, hrest⟩ := ha
    obtain ⟨ls, part', hsplit, hls, hpart'⟩ := exists_lines (part ++ c)
    have hnc : NUL ∉ c := fun hm => hnul (by simp [hm])
    obtain ⟨s₁, hround, hout, hcar⟩ := round_eq [] h hpos hc hnc hsplit hls hpart'
    obtain ⟨s', hrun, hle, hlt⟩ := ih (fun hm => hnul (List.mem_append_right _ hm)) hcar
      (hrest s₁ hround)
    have hlen := congrArg List.length hsplit
    rw [List.length_append, List.length_append] at hlen
    have hout' : s₁.out.flatten.length = s.out.flatten.length + (unlines ls).length := by
      rw [hout, List.flatten_append, selected_nil, List.length_append]
    refine ⟨s', by rw [grep, hround]; exact hrun, ?_, ?_⟩
    · rw [List.flatten_cons, List.length_append]
      split at hle
      · rw [List.length_nil] at hle
        omega
      · omega
    · rw [List.flatten_cons, List.length_append]
      rintro ⟨k, hk, hkn⟩
      rcases List.mem_cons.mp hk with rfl | hk
      · -- the line that had begun is dropped, and the piece with it
        have hnil := (lines_eq_nil_iff h.line hpart' hsplit).mpr hkn
        subst hnil
        rw [if_pos rfl, List.length_nil] at hle
        rw [unlines_nil, List.length_nil] at hout'
        omega
      · have := hlt ⟨k, hk, hkn⟩
        split at this
        · rw [List.length_nil] at this
          omega
        · omega

/-- **`grep` writes the lines that match, whatever the pattern, if and only if every piece that
it reads has a newline.** -/
theorem grep_split_iff (buf : List Char) (hbuf : buf.length = BUFSIZE)
    (lines : List (List Char)) (hline : ∀ l ∈ lines, '\n' ∉ l ∧ NUL ∉ l ∧ l.length < 1023)
    (reads : List (List Char)) (hreads : reads.flatten = unlines lines)
    (ha : Answers [] reads ⟨buf, 0, []⟩) :
    (∀ pattern, Answers pattern reads ⟨buf, 0, []⟩ →
      ∃ s, grep pattern reads ⟨buf, 0, []⟩ = some s ∧ s.out = selected pattern lines) ↔
    ∀ c ∈ reads, '\n' ∈ c := by
  have hcar : Carries ⟨buf, 0, []⟩ [] := ⟨hbuf, rfl, ⟨buf, rfl⟩, by simp, by simp⟩
  have hnul : NUL ∉ reads.flatten := by
    rw [hreads, unlines, List.mem_flatMap]
    rintro ⟨l, hl, hmem⟩
    rcases List.mem_append.mp hmem with hmem | hmem
    · exact (hline l hl).2.1 hmem
    · exact absurd (List.mem_singleton.mp hmem) (by decide)
  constructor
  · intro h c hc
    by_contra hn
    obtain ⟨s, hrun, hout⟩ := h [] ha
    obtain ⟨s', hrun', -, hlt⟩ := grep_loses hnul hcar ha
    obtain rfl : s = s' := Option.some.inj (hrun.symm.trans hrun')
    have := hlt ⟨c, hc, hn⟩
    rw [hout, selected_nil, hreads] at this
    simp at this
  · intro h pattern hp
    obtain ⟨ls, part, hsplit, hls, hpart, s', hrun, hout⟩ := grep_lines pattern hnul h hcar hp
    have hnil : '\n' ∉ ([] : List Char) := List.not_mem_nil
    obtain ⟨rfl, -⟩ := lines_unique hls hpart (fun l hl => (hline l hl).1) hnil
      (by rw [← hsplit, ← hreads, List.nil_append, List.append_nil])
    exact ⟨s', hrun, by simpa using hout⟩

def start : State := ⟨List.replicate BUFSIZE NUL, 0, []⟩

/-- The second line comes in two pieces, of which the first is kept in the buffer. -/
theorem grep_split_iff_two :
    Answers [] [['a', 'b', '\n', 'c'], ['d', '\n']] start ∧
      ∃ s, grep ['d'] [['a', 'b', '\n', 'c'], ['d', '\n']] start = some s ∧
        s.out = selected ['d'] [['a', 'b'], ['c', 'd']] := by
  have ha : ∀ pattern, pattern = [] ∨ pattern = ['d'] →
      Answers pattern [['a', 'b', '\n', 'c'], ['d', '\n']] start := fun pattern hp => by
    have hm : (round pattern ['a', 'b', '\n', 'c'] start).map State.m = some 1 := by
      rcases hp with rfl | rfl <;> decide +kernel
    refine ⟨by decide, by decide, fun s h => ⟨by decide, ?_, fun _ _ => trivial⟩⟩
    rw [h, Option.map_some, Option.some.injEq] at hm
    rw [hm]
    decide
  have hiff := grep_split_iff (List.replicate BUFSIZE NUL) List.length_replicate
    [['a', 'b'], ['c', 'd']] (by decide) [['a', 'b', '\n', 'c'], ['d', '\n']] (by decide)
    (ha [] (.inl rfl))
  exact ⟨ha [] (.inl rfl), hiff.mpr (by decide) ['d'] (ha ['d'] (.inr rfl))⟩

/-- The line `ab` comes in two pieces: the first is dropped, and the line is not found. -/
theorem grep_drops_line :
    Answers ['a', 'b'] [['a'], ['b', '\n']] start ∧
      (grep ['a', 'b'] [['a'], ['b', '\n']] start).map State.out = some [] ∧
      selected ['a', 'b'] [['a', 'b']] = [['a', 'b', '\n']] := by
  have hm : (round ['a', 'b'] ['a'] start).map State.m = some 0 := by decide +kernel
  refine ⟨⟨by decide, by decide, fun s h => ⟨by decide, ?_, fun _ _ => trivial⟩⟩,
    by decide +kernel, by decide⟩
  rw [h, Option.map_some, Option.some.injEq] at hm
  rw [hm]
  decide

end Xv6.Grep
