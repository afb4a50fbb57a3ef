import Xv6.Shell.Parser
import Mathlib.Data.List.Basic
import Mathlib.Data.List.Forall2
import Mathlib.Logic.Function.Iterate
import Mathlib.Tactic.Common

/-!
# The grammar of the shell

What a line is: its tokens, and the trees that can be derived for them. `gettoken` and `peek`
are then shown to work on the tokens.
-/

namespace Xv6.Shell

open CString

abbrev Text := List Char

/-- The symbols of one character. -/
inductive Sym
  | bar
  | lparen
  | rparen
  | semi
  | amp
  | lt
  | gt
  deriving DecidableEq

def Sym.char : Sym → Char
  | .bar => '|'
  | .lparen => '('
  | .rparen => ')'
  | .semi => ';'
  | .amp => '&'
  | .lt => '<'
  | .gt => '>'

def Sym.ofChar (c : Char) : Option Sym :=
  [bar, lparen, rparen, semi, amp, lt, gt].find? (·.char = c)

inductive Token
  | sym (x : Sym)
  /-- `>>` -/
  | append
  | word (w : Text)
  deriving DecidableEq

def wordChar (c : Char) : Bool := c ∉ whitespace ∧ c ∉ symbols

def tokens : Text → List Token
  | [] => []
  | '>' :: '>' :: cs => .append :: tokens cs
  | c :: cs =>
    if c ∈ whitespace then tokens cs
    else
      match Sym.ofChar c with
      | some x => .sym x :: tokens cs
      | none => .word (c :: cs.takeWhile wordChar) :: tokens (cs.dropWhile wordChar)
termination_by l => l.length
decreasing_by
  all_goals simp only [List.length_cons]
  · omega
  · omega
  · omega
  · have := (List.dropWhile_sublist (l := cs) wordChar).length_le
    omega

/-! ### Derivations -/

/-- `<`, `>` and `>>` -/
inductive Op
  | lt
  | gt
  | gtgt

def Op.token : Op → Token
  | .lt => .sym .lt
  | .gt => .sym .gt
  | .gtgt => .append

def Op.redir : Op → Redir
  | .lt => .input
  | .gt => .output
  | .gtgt => .output

/-- A redirection of the text, and the tokens of some of them. -/
abbrev Redirection := Op × Text

def redirTokens (rs : List Redirection) : List Token :=
  rs.flatMap fun r => [r.1.token, .word r.2]

/-- Redirections around a command, each around those before it. -/
def wrap (c : Cmd Text) (rs : List Redirection) : Cmd Text :=
  rs.foldl (fun c r => .redir c r.2 r.1.redir) c

/-- A word with the redirections behind it. -/
abbrev Arg := Text × List Redirection

def argTokens (args : List Arg) : List Token :=
  args.flatMap fun a => .word a.1 :: redirTokens a.2

def addArgs (c : Cmd Text) (args : List Arg) : Cmd Text :=
  args.foldl (fun c a => wrap (c.push a.1) a.2) c

mutual

/-- `line ::= pipe '&'* [';' line]` -/
inductive Line : List Token → Cmd Text → Prop
  | pipe {ts : List Token} {c : Cmd Text} (h : Pipe ts c) (n : ℕ) :
      Line (ts ++ List.replicate n (.sym .amp)) (Cmd.back^[n] c)
  | list {ts us : List Token} {c d : Cmd Text} (h : Pipe ts c) (n : ℕ) (hd : Line us d) :
      Line (ts ++ List.replicate n (.sym .amp) ++ .sym .semi :: us) (.list (Cmd.back^[n] c) d)

/-- `pipe ::= exec ['|' pipe]` -/
inductive Pipe : List Token → Cmd Text → Prop
  | exec {ts : List Token} {c : Cmd Text} (h : Exec ts c) : Pipe ts c
  | pipe {ts us : List Token} {c d : Cmd Text} (h : Exec ts c) (hd : Pipe us d) :
      Pipe (ts ++ .sym .bar :: us) (.pipe c d)

/-- `exec ::= '(' line ')' redir* | redir* (word redir*)*` -/
inductive Exec : List Token → Cmd Text → Prop
  | block {ts : List Token} {c : Cmd Text} (h : Line ts c) (rs : List Redirection) :
      Exec (.sym .lparen :: ts ++ .sym .rparen :: redirTokens rs) (wrap c rs)
  | simple (rs : List Redirection) (args : List Arg) (h : args.length ≤ MAXARGS - 1) :
      Exec (redirTokens rs ++ argTokens args) (addArgs (wrap (.exec []) rs) args)

end

/-! ### Characters and tokens -/

/-- What `gettoken` returns. -/
def Token.char : Token → Char
  | .sym x => x.char
  | .append => '+'
  | .word _ => 'a'

/-- What `peek` sees of a token that is not a word. -/
def Token.lead : Token → Option Char
  | .sym x => some x.char
  | .append => some '>'
  | .word _ => none

/-- The first token, if any, begins with one of these. -/
def starts (toks : List Char) (ts : List Token) : Bool :=
  match ts with
  | [] => false
  | t :: _ => t.lead.any (· ∈ toks)

@[simp] theorem starts_nil (toks : List Char) : starts toks [] = false := rfl

@[simp] theorem starts_sym (toks : List Char) (x : Sym) (ts : List Token) :
    starts toks (.sym x :: ts) = decide (x.char ∈ toks) := rfl

@[simp] theorem starts_append (toks : List Char) (ts : List Token) :
    starts toks (.append :: ts) = decide ('>' ∈ toks) := rfl

@[simp] theorem starts_word (toks : List Char) (w : Text) (ts : List Token) :
    starts toks (.word w :: ts) = false := rfl

/-- `w` stands at `a`, and no longer word does. -/
structure WordAt (line : Text) (a : Span) (w : Text) : Prop where
  chars : ∀ c ∈ w, wordChar c = true
  text : (line.drop a.1).take w.length = w
  stop : a.1 + w.length = a.2
  inside : a.2 ≤ line.length
  ends : ∀ c ∈ (line)[a.2]?, wordChar c = false

/-- `ts` are the tokens from `s` on. -/
structure At (line : Text) (s : ℕ) (ts : List Token) : Prop where
  inside : s ≤ line.length
  left : tokens (line.drop s) = ts

variable {c : Char} {cs : Text}

theorem tokens_space (h : c ∈ whitespace) : tokens (c :: cs) = tokens cs := by
  rw [tokens, if_pos h]
  rintro cs rfl
  exact absurd h (by decide)

theorem tokens_dropWhile (l : Text) : tokens (l.dropWhile (· ∈ whitespace)) = tokens l := by
  induction l with
  | nil => rfl
  | cons c cs ih =>
    by_cases h : c ∈ whitespace
    · rw [List.dropWhile_cons_of_pos (by simpa using h), ih, tokens_space h]
    · rw [List.dropWhile_cons_of_neg (by simpa using h)]

theorem tokens_append (cs : Text) : tokens ('>' :: '>' :: cs) = .append :: tokens cs := by
  rw [tokens]

theorem ofChar_char (x : Sym) : Sym.ofChar x.char = some x := by
  cases x <;> rfl

theorem char_mem_symbols (x : Sym) : x.char ∈ symbols := by
  cases x <;> decide

theorem exists_sym (h : c ∈ symbols) : ∃ x : Sym, x.char = c := by
  simp only [symbols, List.mem_cons, List.not_mem_nil, or_false] at h
  rcases h with rfl | rfl | rfl | rfl | rfl | rfl | rfl
  · exact ⟨.lt, rfl⟩
  · exact ⟨.bar, rfl⟩
  · exact ⟨.gt, rfl⟩
  · exact ⟨.amp, rfl⟩
  · exact ⟨.semi, rfl⟩
  · exact ⟨.lparen, rfl⟩
  · exact ⟨.rparen, rfl⟩

theorem ofChar_of_not_mem (h : c ∉ symbols) : Sym.ofChar c = none := by
  refine List.find?_eq_none.mpr fun x _ => ?_
  simp only [decide_eq_true_eq]
  rintro rfl
  exact h (char_mem_symbols x)

theorem tokens_sym (x : Sym) (h : x = .gt → ∀ cs', cs ≠ '>' :: cs') :
    tokens (x.char :: cs) = .sym x :: tokens cs := by
  have hspace : x.char ∉ whitespace := by
    cases x <;> decide
  rw [tokens, if_neg hspace, ofChar_char]
  intro cs' hx hcs
  refine h ?_ cs' hcs
  have := ofChar_char x
  rw [hx] at this
  exact (Option.some.inj this).symm

theorem wordChar_iff : wordChar c = true ↔ c ∉ whitespace ∧ c ∉ symbols := by
  simp [wordChar]

theorem tokens_word (hc : wordChar c = true) :
    tokens (c :: cs) = .word (c :: cs.takeWhile wordChar) :: tokens (cs.dropWhile wordChar) := by
  obtain ⟨hspace, hsym⟩ := wordChar_iff.mp hc
  rw [tokens, if_neg hspace, ofChar_of_not_mem hsym]
  rintro cs rfl
  exact absurd hsym (by decide)

/-- What a text begins with shows in its first token. -/
theorem tokens_lead {ts : List Token} (hc : c ∉ whitespace) (h : tokens (c :: cs) = ts) :
    ∃ t ts', ts = t :: ts' ∧ t.lead = if c ∈ symbols then some c else none := by
  by_cases hsym : c ∈ symbols
  · by_cases happ : c = '>' ∧ ∃ cs', cs = '>' :: cs'
    · obtain ⟨rfl, cs', rfl⟩ := happ
      exact ⟨_, _, h.symm.trans (tokens_append cs'), rfl⟩
    · obtain ⟨x, rfl⟩ := exists_sym hsym
      have hx : x = .gt → ∀ cs', cs ≠ '>' :: cs' := by
        rintro rfl cs' hcs
        exact happ ⟨rfl, cs', hcs⟩
      refine ⟨_, _, h.symm.trans (tokens_sym x hx), ?_⟩
      rw [if_pos hsym]
      rfl
  · refine ⟨_, _, h.symm.trans (tokens_word (wordChar_iff.mpr ⟨hc, hsym⟩)), ?_⟩
    rw [if_neg hsym]
    rfl

/-! ### `gettoken` and `peek` -/

section

variable {line cs : Text} {s : ℕ} {c : Char}

theorem drop_length_takeWhile (p : Char → Bool) (l : Text) :
    l.drop (l.takeWhile p).length = l.dropWhile p := by
  have h : (l.takeWhile p ++ l.dropWhile p).drop (l.takeWhile p).length = l.dropWhile p :=
    List.drop_left
  rwa [List.takeWhile_append_dropWhile] at h

theorem getD_eq_headD (s : ℕ) : line.getD s NUL = (line.drop s).headD NUL := by
  rw [List.getD_eq_getElem?_getD, List.headD_eq_head?_getD, List.head?_drop]

theorem skip_le (h : s ≤ line.length) : skip line s ≤ line.length := by
  have := (List.takeWhile_sublist (l := line.drop s) (· ∈ whitespace)).length_le
  rw [List.length_drop] at this
  rw [skip]
  omega

theorem drop_skip (s : ℕ) : line.drop (skip line s) = (line.drop s).dropWhile (· ∈ whitespace) := by
  rw [skip, ← List.drop_drop, drop_length_takeWhile]

theorem At.skip {ts : List Token} (h : At line s ts) : At line (skip line s) ts :=
  ⟨skip_le h.inside, by rw [drop_skip, tokens_dropWhile, h.left]⟩

theorem deref_eq (h : s ≤ line.length) (H : Stop → Prop) (Q : Char → ℕ → Prop) (t : ℕ) :
    wp (deref line s) Q H t = Q ((line.drop s).headD NUL) t := by
  rw [deref, if_pos h, wp_pure, getD_eq_headD]

theorem drop_succ_of_cons (h : line.drop s = c :: cs) :
    line.drop (s + 1) = cs ∧ s + 1 ≤ line.length := by
  have hlt : s < line.length := by
    by_contra hge
    rw [List.drop_of_length_le (by omega)] at h
    exact absurd h (by simp)
  refine ⟨?_, hlt⟩
  rw [← List.drop_drop, h, List.drop_one, List.tail_cons]

/-- A word that begins at `q`, up to where `gettoken` stops. -/
theorem wordAt_skipWord {q : ℕ} (hq : line.drop q = c :: cs) (hc : wordChar c = true) :
    WordAt line (q, skipWord line q) (c :: cs.takeWhile wordChar) ∧
      line.drop (skipWord line q) = cs.dropWhile wordChar := by
  have htake : (line.drop q).takeWhile wordChar = c :: cs.takeWhile wordChar := by
    rw [hq, List.takeWhile_cons_of_pos hc]
  have hskip : skipWord line q = q + (c :: cs.takeWhile wordChar).length := by
    rw [← htake, skipWord]
    rfl
  have hdrop : line.drop (skipWord line q) = cs.dropWhile wordChar := by
    rw [hskip, ← htake, ← List.drop_drop, drop_length_takeWhile, hq, List.dropWhile_cons_of_pos hc]
  refine ⟨⟨?_, ?_, hskip.symm, ?_, ?_⟩, hdrop⟩
  · rw [← htake]
    intro x hx
    exact List.all_eq_true.mp List.all_takeWhile x hx
  · rw [← htake]
    exact (List.prefix_iff_eq_take.mp (List.takeWhile_prefix _)).symm
  · have := (List.takeWhile_sublist (l := line.drop q) wordChar).length_le
    rw [htake, List.length_drop] at this
    have := (drop_succ_of_cons hq).2
    simp only
    omega
  · intro x hx
    have hhead : (cs.dropWhile wordChar).head? = some x := by
      rw [← hdrop, List.head?_drop]
      exact hx
    have := List.head?_dropWhile_not wordChar cs
    rw [hhead] at this
    simpa using this

/-- What the `switch` has found at `q`. -/
structure Took (line : Text) (q : ℕ) (r : Char × ℕ) (t : Token) (ts : List Token) : Prop where
  ret : r.1 = t.char
  rest : At line r.2 ts
  word : ∀ w, t = .word w → WordAt line (q, r.2) w

theorem wp_scan_nil {q : ℕ} (hin : q ≤ line.length) (hl : line.drop q = []) (s : ℕ) :
    wp (scan line q) (fun r s' => s' = s ∧ r = (NUL, q)) (fun _ => False) s := by
  rw [scan, wp_bind, deref_eq hin, hl, List.headD_nil, if_pos rfl]
  exact ⟨rfl, rfl⟩

theorem wp_scan_cons (hnul : NUL ∉ line) {q : ℕ} (hl : line.drop q = c :: cs) (hc : c ∉ whitespace)
    (s : ℕ) : ∃ t ts, tokens (c :: cs) = t :: ts ∧
      wp (scan line q) (fun r s' => s' = s ∧ Took line q r t ts) (fun _ => False) s := by
  obtain ⟨hnext, hin⟩ := drop_succ_of_cons hl
  have hne : c ≠ NUL := by
    rintro rfl
    exact hnul (List.mem_of_mem_drop (hl ▸ List.mem_cons_self))
  have hq : q ≤ line.length := by omega
  simp only [scan, wp_bind, deref_eq hq, hl, List.headD_cons, if_neg hne]
  by_cases hsym : c ∈ ['|', '(', ')', ';', '&', '<']
  · have hmem : c ∈ symbols := by
      simp only [symbols, List.mem_cons, List.not_mem_nil, or_false] at hsym ⊢
      tauto
    obtain ⟨x, rfl⟩ := exists_sym hmem
    refine ⟨.sym x, tokens cs, tokens_sym x ?_, ?_⟩
    · rintro rfl
      exact absurd hsym (by decide)
    · rw [if_pos hsym]
      exact ⟨rfl, rfl, ⟨hin, by rw [hnext]⟩, by simp⟩
  · simp only [if_neg hsym]
    by_cases hgt : c = '>'
    · subst hgt
      simp only [if_true, wp_bind, deref_eq hin, hnext]
      by_cases hd : cs.headD NUL = '>'
      · obtain ⟨cs, rfl⟩ : ∃ cs', cs = '>' :: cs' := by
          cases cs with
          | nil => exact absurd hd (by decide)
          | cons d cs => exact ⟨cs, by rw [show d = '>' from hd]⟩
        obtain ⟨hnext', hin'⟩ := drop_succ_of_cons hnext
        refine ⟨.append, tokens cs, tokens_append cs, ?_⟩
        rw [if_pos hd]
        exact ⟨rfl, rfl, ⟨hin', by rw [hnext']⟩, by simp⟩
      · refine ⟨.sym .gt, tokens cs, tokens_sym .gt ?_, ?_⟩
        · rintro - cs' rfl
          exact hd rfl
        · rw [if_neg hd]
          exact ⟨rfl, rfl, ⟨hin, by rw [hnext]⟩, by simp⟩
    · simp only [if_neg hgt]
      have hword : wordChar c = true := by
        refine wordChar_iff.mpr ⟨hc, ?_⟩
        simp only [symbols, List.mem_cons, List.not_mem_nil, or_false] at hsym ⊢
        tauto
      obtain ⟨hat, hrest⟩ := wordAt_skipWord hl hword
      refine ⟨_, _, tokens_word hword, rfl, rfl, ⟨hat.inside, by rw [hrest]⟩, ?_⟩
      rintro w ⟨⟩
      exact hat

theorem head?_drop_skip (h : line.drop (skip line s) = c :: cs) : c ∉ whitespace := by
  have hhead := List.head?_dropWhile_not (fun c => decide (c ∈ whitespace)) (line.drop s)
  rw [← drop_skip, h] at hhead
  simpa using hhead

section Rules

variable {s : ℕ} {H : Stop → Prop} {Q : Char × Span → ℕ → Prop}

/-- At the end `gettoken` returns 0. -/
theorem wp_gettoken_nil (hnul : NUL ∉ line) (h : At line s [])
    (hQ : ∀ a s', At line s' [] → Q (NUL, a) s') : wp (gettoken line) Q H s := by
  have hl : line.drop (skip line s) = [] := by
    cases hl : line.drop (skip line s) with
    | nil => rfl
    | cons c cs =>
      obtain ⟨t, ts, hts, -⟩ := wp_scan_cons hnul hl (head?_drop_skip hl) s
      rw [← hl, h.skip.left] at hts
      exact absurd hts (by simp)
  simp only [gettoken, wp_bind, wp_get, wp_set, wp_pure]
  refine (wp_scan_nil h.skip.inside hl s).mono ?_ fun _ => False.elim
  rintro ⟨ret, eq⟩ s' ⟨-, hr⟩
  rw [Prod.mk.injEq] at hr
  obtain ⟨rfl, rfl⟩ := hr
  exact hQ _ _ h.skip.skip

/-- `gettoken` takes the first token. -/
theorem wp_gettoken_cons {t : Token} {ts : List Token} (hnul : NUL ∉ line) (h : At line s (t :: ts))
    (hQ : ∀ a s', At line s' ts → (∀ w, t = .word w → WordAt line a w) → Q (t.char, a) s') :
    wp (gettoken line) Q H s := by
  cases hl : line.drop (skip line s) with
  | nil =>
    have hleft := h.skip.left
    rw [hl, tokens] at hleft
    exact absurd hleft (by simp)
  | cons c cs =>
    obtain ⟨t', ts', hts, hscan⟩ := wp_scan_cons hnul hl (head?_drop_skip hl) s
    rw [← hl, h.skip.left, List.cons.injEq] at hts
    obtain ⟨rfl, rfl⟩ := hts
    simp only [gettoken, wp_bind, wp_get, wp_set, wp_pure]
    refine hscan.mono ?_ fun _ => False.elim
    rintro ⟨ret, eq⟩ s' ⟨-, hret, hrest, hword⟩
    obtain rfl : ret = t.char := hret
    exact hQ _ _ hrest.skip hword

/-- `peek` sees whether the first token begins with one of `toks`, and stops at the end where
there is none. -/
theorem wp_peek {Q : Bool → ℕ → Prop} {toks : List Char} {ts : List Token} (hnul : NUL ∉ line)
    (htoks : toks ⊆ symbols) (h : At line s ts)
    (hQ : ∀ s', At line s' ts → (s' = line.length ↔ ts = []) → Q (starts toks ts) s') :
    wp (peek line toks) Q H s := by
  simp only [peek, wp_bind, wp_get, wp_set, wp_pure, deref_eq h.skip.inside]
  have hleft := h.skip.left
  have hin := h.skip.inside
  cases hl : line.drop (skip line s) with
  | nil =>
    rw [hl, tokens] at hleft
    subst hleft
    have hge : line.length ≤ skip line s := List.drop_eq_nil_iff.mp hl
    exact hQ _ h.skip (by simp; omega)
  | cons c cs =>
    have hspace := head?_drop_skip hl
    have hne : c ≠ NUL := by
      rintro rfl
      exact hnul (List.mem_of_mem_drop (hl ▸ List.mem_cons_self))
    rw [hl] at hleft
    obtain ⟨t, ts', rfl, hlead⟩ := tokens_lead hspace hleft
    have hb : decide (c ≠ NUL ∧ c ∈ toks) = starts toks (t :: ts') := by
      rw [starts, hlead]
      by_cases hc : c ∈ symbols
      · simp [hne, hc]
      · have hc' : c ∉ toks := fun h => hc (htoks h)
        simp [hc, hc']
    rw [List.headD_cons, hb]
    have hlt := (drop_succ_of_cons hl).2
    exact hQ _ h.skip (by simp; omega)

end Rules

end

end Xv6.Shell
