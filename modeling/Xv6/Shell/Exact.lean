import Xv6.Shell.Grammar

/-!
# The parser accepts exactly its grammar

Soundness and completeness of the parser: from a position with some tokens left it takes the
tokens of a derivation and returns its tree, or panics; and it does not panic where there is a
derivation. The words of the tree are then strings of the line that `nulterminate` has cut.
-/

namespace Xv6.Shell

open CString

/-- Where the words of one tree stand in the line, those of the other are. -/
inductive Spells (line : Text) : Cmd Span → Cmd Text → Prop
  | exec {argv : List Span} {ws : List Text} (h : List.Forall₂ (WordAt line) argv ws) :
      Spells line (.exec argv) (.exec ws)
  | redir {t : Cmd Span} {c : Cmd Text} {a : Span} {w : Text} (h : Spells line t c)
      (ha : WordAt line a w) (r : Redir) : Spells line (.redir t a r) (.redir c w r)
  | pipe {t t' : Cmd Span} {c c' : Cmd Text} (h : Spells line t c) (h' : Spells line t' c') :
      Spells line (.pipe t t') (.pipe c c')
  | list {t t' : Cmd Span} {c c' : Cmd Text} (h : Spells line t c) (h' : Spells line t' c') :
      Spells line (.list t t') (.list c c')
  | back {t : Cmd Span} {c : Cmd Text} (h : Spells line t c) : Spells line (.back t) (.back c)

variable {line mem : Text} {rs : List Redirect} {c : Cmd Text} {ts : List Token} {t : Cmd Span}

theorem Spells.push {a : Span} {w : Text} (h : Spells line t c) (ha : WordAt line a w) :
    Spells line (t.push a) (c.push w) := by
  induction h with
  | exec h => exact .exec (List.rel_append h (.cons ha .nil))
  | redir _ hb r ih => exact .redir ih hb r
  | pipe h h' => exact .pipe h h'
  | list h h' => exact .list h h'
  | back h => exact .back h

def IsPanic (e : Stop) : Prop := ∃ msg, e = .panic msg

theorem Sym.char_injective : Function.Injective Sym.char := by
  intro x y h
  have hx := ofChar_char x
  rw [h, ofChar_char] at hx
  exact (Option.some.inj hx).symm

theorem exists_op (h : starts ['<', '>'] ts = true) :
    ∃ (o : Op) (ts' : List Token), ts = o.token :: ts' := by
  cases ts with
  | nil => exact absurd h (by simp [starts])
  | cons t ts =>
    cases t with
    | sym x =>
      have hx : x.char = '<' ∨ x.char = '>' := by simpa [starts, Token.lead] using h
      rcases hx with hx | hx
      · exact ⟨.lt, ts, by rw [Sym.char_injective (show x.char = Sym.lt.char from hx)]; rfl⟩
      · exact ⟨.gt, ts, by rw [Sym.char_injective (show x.char = Sym.gt.char from hx)]; rfl⟩
    | append => exact ⟨.gtgt, ts, rfl⟩
    | word w => exact absurd h (by simp [starts, Token.lead])

/-- `peek` for one symbol other than `>`. -/
theorem exists_sym_of_starts {x : Sym} (hx : x ≠ .gt) (h : starts [x.char] ts = true) :
    ∃ ts', ts = .sym x :: ts' := by
  cases ts with
  | nil => exact absurd h (by simp [starts])
  | cons t ts =>
    cases t with
    | sym y =>
      have hy : y.char = x.char := by simpa [starts, Token.lead] using h
      exact ⟨ts, by rw [Sym.char_injective hy]⟩
    | append =>
      have hgt : '>' = x.char := by simpa [starts, Token.lead] using h
      exact absurd (Sym.char_injective (show Sym.gt.char = x.char from hgt)).symm hx
    | word w => exact absurd h (by simp [starts, Token.lead])

theorem Op.redir_eq (o : Op) : (if o.token.char = '<' then Redir.input else .output) = o.redir := by
  cases o <;> rfl

/-- A token for which `gettoken` returns `'a'` is a word. -/
theorem exists_word {t : Token} (h : t.char = 'a') : ∃ w, t = .word w := by
  cases t with
  | sym x => cases x <;> exact absurd h (by decide)
  | append => exact absurd h (by decide)
  | word w => exact ⟨w, rfl⟩

theorem Token.char_ne_nul (t : Token) : t.char ≠ NUL := by
  cases t with
  | sym x => cases x <;> decide
  | append => decide
  | word w => exact show 'a' ≠ NUL by decide

/-! ### Positions of tokens -/

section

variable {line : Text} {s : ℕ}

theorem wp_deref {Q : Char → ℕ → Prop} {q : ℕ} (h : ∀ c, Q c s) :
    wp (deref line q) Q (fun _ => True) s := by
  rw [deref]
  split
  · exact h _
  · trivial

/-- A token stands between the positions before and after it, and a symbol is not empty. -/
theorem wp_gettoken_pos :
    wp (gettoken line) (fun r s' => s ≤ r.2.1 ∧ r.2.1 ≤ r.2.2 ∧ r.2.2 ≤ s' ∧
      (r.1 ≠ NUL → r.1 ≠ 'a' → r.2.1 < r.2.2)) (fun _ => True) s := by
  have hskip : ∀ q, q ≤ skip line q := fun q => Nat.le_add_right ..
  have hword : ∀ q, q ≤ skipWord line q := fun q => Nat.le_add_right ..
  have hs := hskip s
  simp only [gettoken, scan, wp_bind, wp_get, wp_set, wp_pure]
  refine wp_deref fun c => ?_
  split
  · rename_i hc
    exact ⟨hs, Nat.le_refl _, hskip _, fun hne => absurd hc hne⟩
  split
  · exact ⟨hs, Nat.le_succ _, hskip _, fun _ _ => Nat.lt_succ_self _⟩
  split
  · rw [wp_bind]
    refine wp_deref fun d => ?_
    split
    · exact ⟨hs, by omega, hskip _, fun _ _ => by omega⟩
    · exact ⟨hs, Nat.le_succ _, hskip _, fun _ _ => Nat.lt_succ_self _⟩
  · exact ⟨hs, hword _, hskip _, fun _ hne => absurd rfl hne⟩

theorem wp_gettoken_at {H : Stop → Prop} {Q : Char × Span → ℕ → Prop} {t : Token} {ts : List Token}
    (hnul : NUL ∉ line) (h : At line s (t :: ts))
    (hQ : ∀ a s', At line s' ts → (∀ w, t = .word w → WordAt line a w) → s ≤ a.1 → a.1 ≤ a.2 →
      a.2 ≤ s' → (t.char ≠ 'a' → a.1 < a.2) → Q (t.char, a) s') : wp (gettoken line) Q H s := by
  have htoken : wp (gettoken line) (fun r s' => r.1 = t.char ∧ At line s' ts ∧
      ∀ w, t = .word w → WordAt line r.2 w) (fun _ => False) s :=
    wp_gettoken_cons hnul h fun a s' hs' ha => ⟨rfl, hs', ha⟩
  refine (htoken.and wp_gettoken_pos).mono ?_ fun _ hH => hH.1.elim
  rintro ⟨c, a⟩ s' ⟨⟨hc, hs', ha⟩, h₁, h₂, h₃, h₄⟩
  obtain rfl : c = t.char := hc
  exact hQ a s' hs' ha h₁ h₂ h₃ (h₄ t.char_ne_nul)

theorem wp_peek_at {H : Stop → Prop} {Q : Bool → ℕ → Prop} {toks : List Char} {ts : List Token}
    (hnul : NUL ∉ line) (htoks : toks ⊆ symbols) (h : At line s ts)
    (hQ : ∀ s', At line s' ts → s ≤ s' → Q (starts toks ts) s') : wp (peek line toks) Q H s := by
  have hpeek : wp (peek line toks) (fun b s' => b = starts toks ts ∧ At line s' ts)
      (fun _ => False) s := wp_peek hnul htoks h fun s' hs' _ => ⟨rfl, hs'⟩
  have hpos : wp (peek line toks) (fun _ s' => s ≤ s') (fun _ => True) s := by
    simp only [peek, wp_bind, wp_get, wp_set, wp_pure]
    exact wp_deref fun _ => Nat.le_add_right ..
  refine (hpeek.and hpos).mono ?_ fun _ hH => hH.1.elim
  rintro b s' ⟨⟨rfl, hs'⟩, hle⟩
  exact hQ s' hs' hle

end

/-! ### Commands of the line -/

/-- The file of a redirection, by its place in the line, and what it is for. -/
abbrev Redirect := Span × Redir

/-- From `s` on stand these redirections, and behind them the line goes on at `s'`. -/
inductive Redirects (line : Text) : ℕ → List Redirect → ℕ → Prop
  | nil {s s' : ℕ} {ts : List Token} (h : At line s ts) (h' : At line s' ts) (hle : s ≤ s') :
      Redirects line s [] s'
  | cons {s s₁ s' : ℕ} {o : Op} {w : Text} {ts : List Token} {a : Span} {rs : List Redirect}
      (h : At line s (o.token :: .word w :: ts)) (ha : WordAt line a w) (hlt : s < a.1)
      (h₁ : At line s₁ ts) (hle : a.2 ≤ s₁) (hrs : Redirects line s₁ rs s') :
      Redirects line s ((a, o.redir) :: rs) s'

/-- From `s` on stand these words, among these redirections. -/
inductive Words (line : Text) : ℕ → List Span → List Redirect → ℕ → Prop
  | nil {s s' : ℕ} {ts : List Token} (h : At line s ts) (h' : At line s' ts) (hle : s ≤ s') :
      Words line s [] [] s'
  | cons {s s₁ s₂ s' : ℕ} {w : Text} {ts : List Token} {a : Span} {as : List Span}
      {rs rs' : List Redirect} (h : At line s (.word w :: ts)) (ha : WordAt line a w)
      (hge : s ≤ a.1) (h₁ : At line s₁ ts) (hle : a.2 ≤ s₁) (hrs : Redirects line s₁ rs s₂)
      (hws : Words line s₂ as rs' s') : Words line s (a :: as) (rs ++ rs') s'

/-- From `s` to `s'` the line has a simple command or one in parentheses: `core` is the command
itself, and `rs` are its redirections in the order of the text. -/
inductive Written (line : Text) : ℕ → Cmd Span → List Redirect → ℕ → Prop
  | simple {s s₁ s' : ℕ} {as : List Span} {rs rs' : List Redirect} (hrs : Redirects line s rs s₁)
      (hws : Words line s₁ as rs' s') : Written line s (.exec as) (rs ++ rs') s'
  | block {s s₁ s' : ℕ} {us rest : List Token} {core : Cmd Span} {c : Cmd Text}
      {rs : List Redirect} (h : At line s (.sym .lparen :: us ++ .sym .rparen :: rest))
      (hc : Line us c) (hcore : Spells line core c) (h₁ : At line s₁ rest)
      (hrs : Redirects line s₁ rs s') : Written line s core rs s'

theorem At.unique {s : ℕ} {ts' : List Token} (h : At line s ts) (h' : At line s ts') :
    ts = ts' := h.left.symm.trans h'.left

/-- Blanks before a redirection. -/
theorem Redirects.skip {s s₁ s' : ℕ} (hrs : Redirects line s₁ rs s') (h : At line s ts)
    (h₁ : At line s₁ ts) (hle : s ≤ s₁) : Redirects line s rs s' := by
  cases hrs with
  | nil h₁' h' hle' =>
    rw [← h₁'.left, h₁.left] at h'
    exact .nil h h' (by omega)
  | cons h₁' ha hlt h₂ hle' hrs =>
    rw [← h₁.left, h₁'.left] at h
    exact .cons h ha (by omega) h₂ hle' hrs

/-- Blanks before a command. -/
theorem Written.skip {s s₁ s' : ℕ} {core : Cmd Span} (hw : Written line s₁ core rs s')
    (h : At line s ts) (h₁ : At line s₁ ts) (hle : s ≤ s₁) : Written line s core rs s' := by
  cases hw with
  | simple hrs hws => exact .simple (hrs.skip h h₁ hle) hws
  | block h₁' hc hcore h₂ hrs => exact .block (h₁.unique h₁' ▸ h) hc hcore h₂ hrs

/-- The redirections around a command, each around those before it. -/
def under {W : Type} (core : Cmd W) (rs : List (W × Redir)) : Cmd W :=
  rs.foldl (fun c r => .redir c r.1 r.2) core

theorem under_append {W : Type} (core : Cmd W) (rs rs' : List (W × Redir)) :
    under core (rs ++ rs') = under (under core rs) rs' := List.foldl_append

theorem under_push {W : Type} (c : Cmd W) (a : W) (rs : List (W × Redir)) :
    (under c rs).push a = under (c.push a) rs := by
  induction rs generalizing c with
  | nil => rfl
  | cons r rs ih => exact ih (.redir c r.1 r.2)

theorem redirTokens_cons (r : Redirection) (rs : List Redirection) :
    redirTokens (r :: rs) = r.1.token :: .word r.2 :: redirTokens rs := rfl

theorem argTokens_cons (a : Arg) (args : List Arg) :
    argTokens (a :: args) = .word a.1 :: (redirTokens a.2 ++ argTokens args) := by
  simp [argTokens]

/-- The tokens of redirections, and the strings in the tree. -/
theorem Redirects.tokens {s s' : ℕ} (h : Redirects line s rs s') :
    ∃ rs' rest, At line s (redirTokens rs' ++ rest) ∧
      At line s' rest ∧ ∀ t c, Spells line t c → Spells line (under t rs) (wrap c rs') := by
  induction h with
  | nil h h' => exact ⟨[], _, h, h', fun _ _ => id⟩
  | @cons s s₁ s' o w ts a rs h ha _ h₁ _ _ ih =>
    obtain ⟨rs', rest, h₁', h', hsp⟩ := ih
    obtain rfl := h₁.unique h₁'
    exact ⟨(o, w) :: rs', rest, h, h', fun t c ht => hsp _ _ (.redir ht ha o.redir)⟩

/-- The tokens of words among redirections. -/
theorem Words.tokens {s s' : ℕ} {as : List Span} (h : Words line s as rs s') :
    ∃ args rest, At line s (argTokens args ++ rest) ∧
      At line s' rest ∧ args.length = as.length ∧ ∀ as₀ rs₀ c,
        Spells line (under (.exec as₀) rs₀) c →
          Spells line (under (.exec (as₀ ++ as)) (rs₀ ++ rs)) (addArgs c args) := by
  induction h with
  | nil h h' => exact ⟨[], _, h, h', rfl, fun as₀ rs₀ c hc => by simpa [addArgs] using hc⟩
  | @cons s s₁ s₂ s' w ts a as rs rs' h ha _ h₁ _ hrs _ ih =>
    obtain ⟨args, rest, h₂, h', hlen, hwords⟩ := ih
    obtain ⟨rs₁, rest₁, h₁', h₂', hredirs⟩ := hrs.tokens
    obtain rfl := h₂'.unique h₂
    obtain rfl := h₁.unique h₁'
    refine ⟨(w, rs₁) :: args, rest, ?_, h', by simp [hlen], fun as₀ rs₀ c hc => ?_⟩
    · rwa [argTokens_cons, List.cons_append, List.append_assoc]
    · have hpush : Spells line (under (.exec (as₀ ++ [a])) rs₀) (c.push w) := by
        rw [← Cmd.push, ← under_push]
        exact hc.push ha
      have htree :=
        hwords _ (rs₀ ++ rs) _ (under_append (.exec (as₀ ++ [a])) rs₀ rs ▸ hredirs _ _ hpush)
      rwa [List.append_assoc, List.append_assoc, List.singleton_append] at htree

section

variable {line : Text} (hnul : NUL ∉ line) {rest ts : List Token} {fuel : ℕ} {t : Cmd Span}
  {c : Cmd Text} {args : List Arg} {xs : List Sym}
include hnul

/-! ### Soundness -/

theorem wp_parseredirs {s : ℕ} (h : At line s ts) (hfuel : ts.length < fuel) :
    wp (parseredirs line fuel t) (fun t' s' => ∃ rs, t' = under t rs ∧ Redirects line s rs s')
      IsPanic s := by
  induction fuel generalizing s ts t with
  | zero => omega
  | succ fuel ih =>
    simp only [parseredirs, wp_bind]
    refine wp_peek_at hnul (by decide) h fun s₁ h₁ hle₁ => ?_
    by_cases hop : starts ['<', '>'] ts = true
    · obtain ⟨o, ts, rfl⟩ := exists_op hop
      have hsym : o.token.char ≠ 'a' := by
        cases o <;> decide
      rw [if_pos hop, wp_bind]
      refine wp_gettoken_at hnul h₁ fun b s₂ h₂ _ hb₁ hb₂ hb₃ hb₄ => ?_
      have hlt := hb₄ hsym
      simp only [wp_bind, o.redir_eq]
      cases ts with
      | nil =>
        refine wp_gettoken_nil hnul h₂ fun _ s₃ _ => ?_
        rw [if_pos (show NUL ≠ 'a' by decide)]
        exact ⟨_, rfl⟩
      | cons t₁ ts =>
        refine wp_gettoken_at hnul h₂ fun a s₃ h₃ ha ha₁ ha₂ ha₃ _ => ?_
        by_cases hw : t₁.char = 'a'
        · obtain ⟨w, rfl⟩ := exists_word hw
          rw [if_neg (by simpa using hw)]
          refine (ih h₃ (by simp at hfuel; omega)).mono ?_ fun _ => id
          rintro t' s' ⟨rs, rfl, hrs⟩
          exact ⟨(a, o.redir) :: rs, rfl, .cons h (ha w rfl) (by omega) h₃ ha₃ hrs⟩
        · rw [if_pos (by simpa using hw)]
          exact ⟨_, rfl⟩
    · rw [if_neg hop]
      exact ⟨[], rfl, .nil h h₁ hle₁⟩

theorem wp_backLoop {s : ℕ} (h : At line s ts) (ht : Spells line t c) (hfuel : ts.length < fuel) :
    wp (backLoop line fuel t) (fun t' s' => ∃ n rest, ts = List.replicate n (.sym .amp) ++ rest ∧
      At line s' rest ∧ Spells line t' (Cmd.back^[n] c)) IsPanic s := by
  induction fuel generalizing s ts t c with
  | zero => omega
  | succ fuel ih =>
    simp only [backLoop, wp_bind]
    refine wp_peek hnul (by decide) h fun s₁ h₁ _ => ?_
    by_cases hamp : starts ['&'] ts = true
    · obtain ⟨ts, rfl⟩ := exists_sym_of_starts (x := .amp) (by decide) hamp
      rw [if_pos hamp, wp_bind]
      refine wp_gettoken_cons hnul h₁ fun _ s₂ h₂ _ => ?_
      refine (ih h₂ (.back ht) (by simp at hfuel; omega)).mono ?_ fun _ => id
      rintro t' s' ⟨n, rest, rfl, hat, hsp⟩
      exact ⟨n + 1, rest, rfl, hat, hsp⟩
    · rw [if_neg hamp]
      exact ⟨0, ts, rfl, h₁, ht⟩

theorem wp_execLoop {argc s : ℕ} {as : List Span} {rs : List Redirect} (h : At line s ts)
    (hargc : argc ≤ MAXARGS - 1) (hfuel : ts.length < fuel) :
    wp (execLoop line fuel argc (under (.exec as) rs)) (fun t s' => ∃ as' rs',
      t = under (.exec (as ++ as')) (rs ++ rs') ∧ argc + as'.length ≤ MAXARGS - 1 ∧
      Words line s as' rs' s') IsPanic s := by
  induction fuel generalizing s argc ts as rs with
  | zero => omega
  | succ fuel ih =>
    simp only [execLoop, wp_bind]
    refine wp_peek_at hnul (by decide) h fun s₁ h₁ hle₁ => ?_
    by_cases hend : starts ['|', ')', '&', ';'] ts = true
    · rw [if_pos hend]
      exact ⟨[], [], by simp, hargc, .nil h h₁ hle₁⟩
    · rw [if_neg hend]
      simp only [wp_bind]
      cases ts with
      | nil =>
        -- the end of the line
        have hnil :
            wp (gettoken line) (fun r s' => r.1 = NUL ∧ At line s' []) (fun _ => False) s₁ :=
          wp_gettoken_nil hnul h₁ fun _ _ h₂ => ⟨rfl, h₂⟩
        refine (hnil.and wp_gettoken_pos).mono ?_ fun _ hH => hH.1.elim
        rintro ⟨c, a⟩ s₂ ⟨⟨hc, h₂⟩, hp₁, hp₂, hp₃, -⟩
        rw [if_pos hc]
        exact ⟨[], [], by simp, hargc, .nil h h₂ (by omega)⟩
      | cons t₁ ts =>
        refine wp_gettoken_at hnul h₁ fun a s₂ h₂ ha ha₁ ha₂ ha₃ _ => ?_
        rw [if_neg t₁.char_ne_nul]
        by_cases hw : t₁.char = 'a'
        · obtain ⟨w, rfl⟩ := exists_word hw
          rw [if_neg (by simpa using hw)]
          by_cases hmax : MAXARGS ≤ argc + 1
          · rw [if_pos hmax]
            exact ⟨_, rfl⟩
          · rw [if_neg hmax, wp_bind, under_push]
            rw [List.length_cons] at hfuel
            refine (wp_parseredirs hnul h₂ (by omega)).mono ?_ fun _ => id
            rintro t' s₃ ⟨rs₁, rfl, hrs₁⟩
            obtain ⟨_, rest, h₂', h₃, -⟩ := hrs₁.tokens
            rw [h₂.unique h₂', List.length_append] at hfuel
            rw [← under_append]
            refine (ih h₃ (by omega) (by omega)).mono ?_ fun _ => id
            rintro t'' s' ⟨as', rs', rfl, hlen, hws⟩
            refine ⟨a :: as', rs₁ ++ rs', ?_, by rw [List.length_cons]; omega,
              .cons h (ha w rfl) (by omega) h₂ ha₃ hrs₁ hws⟩
            rw [List.append_assoc, List.append_assoc, List.singleton_append]
        · rw [if_pos (by simpa using hw)]
          exact ⟨_, rfl⟩

/-- A function of the parser takes the tokens of a derivation from those that are left, or
panics, with fuel for as many tokens as there are; `W` is what it does with the positions. -/
def Sound (line : Text) (parser : ℕ → P (Cmd Span)) (D : List Token → Cmd Text → Prop)
    (W : ℕ → Cmd Span → ℕ → Prop) (k fuel : ℕ) : Prop :=
  ∀ (s : ℕ) (ts : List Token), At line s ts → 4 * ts.length + k ≤ fuel →
    wp (parser fuel) (fun t s' => ∃ us rest c, ts = us ++ rest ∧ At line s' rest ∧ D us c ∧
      Spells line t c ∧ W s t s') IsPanic s

def Any (_ : ℕ) (_ : Cmd Span) (_ : ℕ) : Prop := True

/-- What is returned is a command of the line under its redirections. -/
def Commands (line : Text) (s : ℕ) (t : Cmd Span) (s' : ℕ) : Prop :=
  ∃ core rs, t = under core rs ∧ Written line s core rs s'

theorem sound_parseline (hpipe : Sound line (parsepipe line) Pipe Any 3 fuel)
    (hline : Sound line (parseline line) Line Any 4 fuel) :
    Sound line (parseline line) Line Any 4 (fuel + 1) := by
  intro s ts h hfuel
  simp only [parseline, wp_bind]
  refine (hpipe _ _ h (by omega)).mono ?_ fun _ => id
  rintro t s₁ ⟨us, rest, c, rfl, h₁, hc, ht, -⟩
  rw [List.length_append] at hfuel
  refine (wp_backLoop hnul h₁ ht (by omega)).mono ?_ fun _ => id
  rintro t₂ s₂ ⟨n, rest, rfl, h₂, ht₂⟩
  refine wp_peek hnul (by decide) h₂ fun s₃ h₃ _ => ?_
  by_cases hsemi : starts [';'] rest = true
  · obtain ⟨rest, rfl⟩ := exists_sym_of_starts (x := .semi) (by decide) hsemi
    rw [if_pos hsemi]
    simp only [wp_bind, wp_pure]
    refine wp_gettoken_cons hnul h₃ fun _ s₄ h₄ _ => ?_
    rw [List.length_append, List.length_cons] at hfuel
    refine (hline _ _ h₄ (by omega)).mono ?_ fun _ => id
    rintro t₅ s₅ ⟨vs, rest, d, rfl, h₅, hd, ht₅, -⟩
    exact ⟨_, rest, _, by simp, h₅, .list hc n hd, .list ht₂ ht₅, trivial⟩
  · rw [if_neg hsemi]
    exact ⟨_, rest, _, by simp, h₃, .pipe hc n, ht₂, trivial⟩

theorem sound_parsepipe (hexec : Sound line (parseexec line) Exec (Commands line) 2 fuel)
    (hpipe : Sound line (parsepipe line) Pipe Any 3 fuel) :
    Sound line (parsepipe line) Pipe Any 3 (fuel + 1) := by
  intro s ts h hfuel
  simp only [parsepipe, wp_bind]
  refine (hexec _ _ h (by omega)).mono ?_ fun _ => id
  rintro t s₁ ⟨us, rest, c, rfl, h₁, hc, ht, -⟩
  rw [List.length_append] at hfuel
  refine wp_peek hnul (by decide) h₁ fun s₃ h₃ _ => ?_
  by_cases hbar : starts ['|'] rest = true
  · obtain ⟨rest, rfl⟩ := exists_sym_of_starts (x := .bar) (by decide) hbar
    rw [if_pos hbar]
    simp only [wp_bind, wp_pure]
    refine wp_gettoken_cons hnul h₃ fun _ s₄ h₄ _ => ?_
    rw [List.length_cons] at hfuel
    refine (hpipe _ _ h₄ (by omega)).mono ?_ fun _ => id
    rintro t₅ s₅ ⟨vs, rest, d, rfl, h₅, hd, ht₅, -⟩
    exact ⟨_, rest, _, by simp, h₅, .pipe hc hd, .pipe ht ht₅, trivial⟩
  · rw [if_neg hbar]
    exact ⟨us, rest, c, rfl, h₃, .exec hc, ht, trivial⟩

theorem sound_parseexec (hblock : Sound line (parseblock line) Exec (Commands line) 1 fuel) :
    Sound line (parseexec line) Exec (Commands line) 2 (fuel + 1) := by
  intro s ts h hfuel
  simp only [parseexec, wp_bind]
  refine wp_peek_at hnul (by decide) h fun s₁ h₁ hle => ?_
  by_cases hparen : starts ['('] ts = true
  · rw [if_pos hparen]
    refine (hblock _ _ h₁ (by omega)).mono ?_ fun _ => id
    rintro t s' ⟨us, rest, c, hts, hat, hc, ht, core, rs, rfl, hw⟩
    exact ⟨us, rest, c, hts, hat, hc, ht, core, rs, rfl, hw.skip h h₁ hle⟩
  · rw [if_neg hparen, wp_bind]
    refine (wp_parseredirs hnul h₁ (by omega)).mono ?_ fun _ => id
    rintro _ s₂ ⟨rs, rfl, hrs⟩
    obtain ⟨rs', rest, h₁', h₂, hredirs⟩ := hrs.tokens
    obtain rfl := h₁.unique h₁'
    rw [List.length_append] at hfuel
    refine (wp_execLoop hnul h₂ (Nat.zero_le _) (by omega)).mono ?_ fun _ => id
    rintro _ s₃ ⟨as, rs₂, rfl, hlen, hws⟩
    obtain ⟨args, rest, h₂', h₃, hargs, hwords⟩ := hws.tokens
    obtain rfl := h₂.unique h₂'
    exact ⟨_, rest, _, by simp, h₃, .simple rs' args (by omega),
      hwords _ _ _ (hredirs _ _ (.exec .nil)), _, _, rfl, .simple (hrs.skip h h₁ hle) hws⟩

theorem sound_parseblock (hline : Sound line (parseline line) Line Any 4 fuel) :
    Sound line (parseblock line) Exec (Commands line) 1 (fuel + 1) := by
  intro s ts h hfuel
  simp only [parseblock, wp_bind]
  refine wp_peek hnul (by decide) h fun s₁ h₁ _ => ?_
  by_cases hparen : starts ['('] ts = true
  · obtain ⟨ts, rfl⟩ := exists_sym_of_starts (x := .lparen) (by decide) hparen
    rw [if_neg (by simp [hparen])]
    simp only [wp_bind]
    refine wp_gettoken_cons hnul h₁ fun _ s₂ h₂ _ => ?_
    rw [List.length_cons] at hfuel
    refine (hline _ _ h₂ (by omega)).mono ?_ fun _ => id
    rintro t₃ s₃ ⟨us, rest, c, rfl, h₃, hc, ht₃, -⟩
    refine wp_peek hnul (by decide) h₃ fun s₄ h₄ _ => ?_
    by_cases hclose : starts [')'] rest = true
    · obtain ⟨rest, rfl⟩ := exists_sym_of_starts (x := .rparen) (by decide) hclose
      rw [if_neg (by simp [hclose]), wp_bind]
      refine wp_gettoken_cons hnul h₄ fun _ s₅ h₅ _ => ?_
      rw [List.length_append, List.length_cons] at hfuel
      refine (wp_parseredirs hnul h₅ (by omega)).mono ?_ fun _ => id
      rintro _ s₆ ⟨rs, rfl, hrs⟩
      obtain ⟨rs', rest, h₅', h₆, hredirs⟩ := hrs.tokens
      obtain rfl := h₅.unique h₅'
      exact ⟨_, rest, _, by simp, h₆, .block hc rs', hredirs _ _ ht₃, _, _, rfl,
        .block h hc ht₃ h₅ hrs⟩
    · rw [if_pos (by simpa using hclose)]
      exact ⟨_, rfl⟩
  · rw [if_pos (by simpa using hparen)]
    exact ⟨_, rfl⟩

/-- **The parser takes the tokens of a derivation, or panics.** -/
theorem sound (fuel : ℕ) :
    Sound line (parseline line) Line Any 4 fuel ∧ Sound line (parsepipe line) Pipe Any 3 fuel ∧
      Sound line (parseexec line) Exec (Commands line) 2 fuel ∧
      Sound line (parseblock line) Exec (Commands line) 1 fuel := by
  induction fuel with
  | zero =>
    exact ⟨fun _ _ _ h => by omega, fun _ _ _ h => by omega, fun _ _ _ h => by omega,
      fun _ _ _ h => by omega⟩
  | succ fuel ih =>
    obtain ⟨hline, hpipe, hexec, hblock⟩ := ih
    exact ⟨sound_parseline hnul hpipe hline, sound_parsepipe hnul hexec hpipe,
      sound_parseexec hnul hblock, sound_parseblock hnul hline⟩

/-! ### Completeness -/

/-- What may stand behind the tokens of a derivation. -/
def Follows (xs : List Sym) (rest : List Token) : Prop := ∀ t ∈ rest.head?, ∃ x ∈ xs, t = .sym x

omit hnul in
theorem Follows.starts_eq_false (h : Follows xs rest) {toks : List Char}
    (htoks : ∀ x ∈ xs, x.char ∉ toks) : starts toks rest = false := by
  cases rest with
  | nil => rfl
  | cons t ts =>
    obtain ⟨x, hx, rfl⟩ := h t rfl
    simpa [starts, Token.lead] using htoks x hx

theorem complete_parseredirs {s : ℕ} {rs : List Redirection}
    (h : At line s (redirTokens rs ++ rest)) (ht : Spells line t c)
    (hrest : starts ['<', '>'] rest = false) (hfuel : (redirTokens rs ++ rest).length < fuel) :
    wp (parseredirs line fuel t) (fun t' s' => At line s' rest ∧ Spells line t' (wrap c rs))
      (fun _ => False) s := by
  induction rs generalizing fuel s t c with
  | nil =>
    obtain ⟨fuel, rfl⟩ : ∃ k, fuel = k + 1 := ⟨fuel - 1, by omega⟩
    simp only [parseredirs, wp_bind]
    refine wp_peek hnul (by decide) h fun s₁ h₁ _ => ?_
    rw [if_neg (by simpa [redirTokens] using hrest)]
    exact ⟨h₁, ht⟩
  | cons r rs ih =>
    obtain ⟨o, w⟩ := r
    obtain ⟨fuel, rfl⟩ : ∃ k, fuel = k + 1 := ⟨fuel - 1, by omega⟩
    rw [redirTokens_cons, List.cons_append, List.cons_append] at h hfuel
    simp only [parseredirs, wp_bind]
    refine wp_peek hnul (by decide) h fun s₁ h₁ _ => ?_
    rw [if_pos (by cases o <;> rfl), wp_bind]
    refine wp_gettoken_cons hnul h₁ fun _ s₂ h₂ _ => ?_
    simp only [wp_bind, o.redir_eq]
    refine wp_gettoken_cons hnul h₂ fun a s₃ h₃ ha => ?_
    rw [if_neg (show ¬(Token.word w).char ≠ 'a' by simp [Token.char])]
    exact ih h₃ (.redir ht (ha w rfl) o.redir) (by simp only [List.length_cons] at hfuel; omega)

theorem complete_backLoop {s n : ℕ} (h : At line s (List.replicate n (.sym .amp) ++ rest))
    (ht : Spells line t c) (hrest : starts ['&'] rest = false) (hfuel : n < fuel) :
    wp (backLoop line fuel t) (fun t' s' => At line s' rest ∧ Spells line t' (Cmd.back^[n] c))
      (fun _ => False) s := by
  induction n generalizing fuel s t c with
  | zero =>
    obtain ⟨fuel, rfl⟩ : ∃ k, fuel = k + 1 := ⟨fuel - 1, by omega⟩
    simp only [backLoop, wp_bind]
    refine wp_peek hnul (by decide) h fun s₁ h₁ _ => ?_
    rw [if_neg (by simpa using hrest)]
    exact ⟨h₁, ht⟩
  | succ n ih =>
    obtain ⟨fuel, rfl⟩ : ∃ k, fuel = k + 1 := ⟨fuel - 1, by omega⟩
    rw [List.replicate_succ, List.cons_append] at h
    simp only [backLoop, wp_bind]
    refine wp_peek hnul (by decide) h fun s₁ h₁ _ => ?_
    rw [if_pos (by simp [Sym.char]), wp_bind]
    refine wp_gettoken_cons hnul h₁ fun _ s₂ h₂ _ => ?_
    exact ih h₂ (.back ht) (by omega)

/-- Behind an `exec` of the grammar. -/
def execFollow : List Sym := [.bar, .rparen, .amp, .semi]

omit hnul in
theorem starts_redir (hrest : Follows execFollow rest) :
    starts ['<', '>'] (argTokens args ++ rest) = false := by
  cases args with
  | nil => exact hrest.starts_eq_false (by decide)
  | cons a args => rfl

theorem complete_execLoop {argc s : ℕ} (h : At line s (argTokens args ++ rest))
    (ht : Spells line t c) (hrest : Follows execFollow rest)
    (hmax : argc + args.length ≤ MAXARGS - 1) (hfuel : (argTokens args ++ rest).length < fuel) :
    wp (execLoop line fuel argc t) (fun t' s' => At line s' rest ∧ Spells line t' (addArgs c args))
      (fun _ => False) s := by
  induction args generalizing fuel argc s t c with
  | nil =>
    obtain ⟨fuel, rfl⟩ : ∃ k, fuel = k + 1 := ⟨fuel - 1, by omega⟩
    simp only [execLoop, wp_bind]
    refine wp_peek hnul (by decide) h fun s₁ h₁ _ => ?_
    cases rest with
    | nil =>
      rw [if_neg (by decide)]
      simp only [wp_bind]
      refine wp_gettoken_nil hnul h₁ fun _ s₂ h₂ => ?_
      rw [if_pos rfl]
      exact ⟨h₂, ht⟩
    | cons t₁ rest =>
      obtain ⟨x, hx, rfl⟩ := hrest t₁ rfl
      have hchar : ∀ x ∈ execFollow, x.char ∈ ['|', ')', '&', ';'] := by decide
      have hstop : starts ['|', ')', '&', ';'] (.sym x :: rest) = true := by
        simpa only [starts_sym, decide_eq_true_eq] using hchar x hx
      rw [argTokens, List.flatMap_nil, List.nil_append] at h₁ ⊢
      rw [if_pos hstop]
      exact ⟨h₁, ht⟩
  | cons arg args ih =>
    obtain ⟨w, rs⟩ := arg
    obtain ⟨fuel, rfl⟩ : ∃ k, fuel = k + 1 := ⟨fuel - 1, by omega⟩
    rw [argTokens_cons, List.cons_append, List.append_assoc] at h hfuel
    rw [List.length_cons] at hfuel hmax
    simp only [execLoop, wp_bind]
    refine wp_peek hnul (by decide) h fun s₁ h₁ _ => ?_
    rw [if_neg (by simp)]
    simp only [wp_bind]
    refine wp_gettoken_cons hnul h₁ fun a s₂ h₂ ha => ?_
    rw [if_neg (Token.char_ne_nul _), if_neg (show ¬(Token.word w).char ≠ 'a' by simp [Token.char]),
      if_neg (by omega), wp_bind]
    refine (complete_parseredirs hnul h₂ (ht.push (ha w rfl))
      (starts_redir hrest) (by omega)).mono ?_
      fun _ => False.elim
    rintro t₃ s₃ ⟨h₃, ht₃⟩
    rw [List.length_append] at hfuel
    exact ih h₃ ht₃ (by omega) (by omega)

/-- A function of the parser takes the tokens of every derivation that stands before one of
`xs` or the end. -/
def Complete (line : Text) (parser : ℕ → P (Cmd Span)) (D : List Token → Cmd Text → Prop)
    (xs : List Sym) (k fuel : ℕ) : Prop :=
  ∀ (s : ℕ) (us rest : List Token) (c : Cmd Text), D us c → At line s (us ++ rest) →
    Follows xs rest → 4 * (us ++ rest).length + k ≤ fuel →
    wp (parser fuel) (fun t s' => At line s' rest ∧ Spells line t c) (fun _ => False) s

/-- Behind a `pipe` and behind a `line`. -/
def pipeFollow : List Sym := [.rparen, .amp, .semi]
def lineFollow : List Sym := [.rparen]

omit hnul in
theorem Follows.mono {ys : List Sym} (h : Follows xs rest) (hsub : ∀ x ∈ xs, x ∈ ys) :
    Follows ys rest := by
  intro t ht
  obtain ⟨x, hx, rfl⟩ := h t ht
  exact ⟨x, hsub x hx, rfl⟩

omit hnul in
theorem follows_cons {x : Sym} (hx : x ∈ xs) (ts : List Token) : Follows xs (.sym x :: ts) := by
  rintro t ⟨⟩
  exact ⟨x, hx, rfl⟩

omit hnul in
theorem follows_amps (hamp : .amp ∈ xs) (h : Follows xs rest) (n : ℕ) :
    Follows xs (List.replicate n (.sym .amp) ++ rest) := by
  cases n with
  | zero => exact h
  | succ n => exact follows_cons hamp _

/-- The command of a line before its `;`. -/
theorem complete_backs {s n : ℕ} (hpipe : Complete line (parsepipe line) Pipe pipeFollow 3 fuel)
    (hc : Pipe ts c) (h : At line s (ts ++ (List.replicate n (.sym .amp) ++ rest)))
    (hrest : Follows pipeFollow rest) (hamp : starts ['&'] rest = false)
    (hfuel : 4 * (ts ++ (List.replicate n (Token.sym .amp) ++ rest)).length + 3 ≤ fuel)
    {Q : Cmd Span → ℕ → Prop}
    (hQ : ∀ t s', At line s' rest → Spells line t (Cmd.back^[n] c) → Q t s') :
    wp (parsepipe line fuel) (fun t => wp (backLoop line fuel t) Q (fun _ => False))
      (fun _ => False) s := by
  refine (hpipe s ts _ c hc h (follows_amps (by decide) hrest n) hfuel).mono ?_ fun _ => id
  rintro t₁ s₁ ⟨h₁, ht₁⟩
  simp only [List.length_append, List.length_replicate] at hfuel
  refine (complete_backLoop hnul h₁ ht₁ hamp (by omega)).mono ?_ fun _ => id
  rintro t₂ s₂ ⟨h₂, ht₂⟩
  exact hQ t₂ s₂ h₂ ht₂

theorem complete_parseline (hpipe : Complete line (parsepipe line) Pipe pipeFollow 3 fuel)
    (hline : Complete line (parseline line) Line lineFollow 4 fuel) :
    Complete line (parseline line) Line lineFollow 4 (fuel + 1) := by
  intro s us rest c hc h hrest hfuel
  simp only [parseline, wp_bind]
  cases hc with
  | @pipe ts c hc n =>
    rw [List.append_assoc] at h hfuel
    have hrest' : Follows pipeFollow rest := hrest.mono (by decide)
    refine complete_backs hnul hpipe hc h hrest' (hrest.starts_eq_false (by decide)) (by omega)
      fun t₂ s₂ h₂ ht₂ => ?_
    refine wp_peek hnul (by decide) h₂ fun s₃ h₃ _ => ?_
    rw [if_neg (by simpa using hrest.starts_eq_false (by decide))]
    exact ⟨h₃, ht₂⟩
  | @list ts us c d hc n hd =>
    simp only [List.append_assoc, List.cons_append] at h hfuel
    refine complete_backs hnul hpipe hc h (follows_cons (by decide) _) rfl (by omega)
      fun t₂ s₂ h₂ ht₂ => ?_
    refine wp_peek hnul (by decide) h₂ fun s₃ h₃ _ => ?_
    rw [if_pos (by simp [Sym.char])]
    simp only [wp_bind, wp_pure]
    refine wp_gettoken_cons hnul h₃ fun _ s₄ h₄ _ => ?_
    rw [List.length_append, List.length_append, List.length_cons] at hfuel
    refine (hline _ _ _ _ hd h₄ hrest (by omega)).mono ?_ fun _ => id
    rintro t₅ s₅ ⟨h₅, ht₅⟩
    exact ⟨h₅, .list ht₂ ht₅⟩

theorem complete_parsepipe (hexec : Complete line (parseexec line) Exec execFollow 2 fuel)
    (hpipe : Complete line (parsepipe line) Pipe pipeFollow 3 fuel) :
    Complete line (parsepipe line) Pipe pipeFollow 3 (fuel + 1) := by
  intro s us rest c hc h hrest hfuel
  simp only [parsepipe, wp_bind]
  cases hc with
  | exec hc =>
    refine (hexec _ _ _ _ hc h (hrest.mono (by decide)) (by omega)).mono ?_ fun _ => id
    rintro t₁ s₁ ⟨h₁, ht₁⟩
    refine wp_peek hnul (by decide) h₁ fun s₂ h₂ _ => ?_
    rw [if_neg (by simpa using hrest.starts_eq_false (by decide))]
    exact ⟨h₂, ht₁⟩
  | @pipe ts us c d hc hd =>
    simp only [List.append_assoc, List.cons_append] at h hfuel
    refine (hexec _ _ _ _ hc h (follows_cons (by decide) _) (by omega)).mono ?_ fun _ => id
    rintro t₁ s₁ ⟨h₁, ht₁⟩
    refine wp_peek hnul (by decide) h₁ fun s₂ h₂ _ => ?_
    rw [if_pos (by simp [Sym.char])]
    simp only [wp_bind, wp_pure]
    refine wp_gettoken_cons hnul h₂ fun _ s₃ h₃ _ => ?_
    rw [List.length_append, List.length_cons] at hfuel
    refine (hpipe _ _ _ _ hd h₃ hrest (by omega)).mono ?_ fun _ => id
    rintro t₄ s₄ ⟨h₄, ht₄⟩
    exact ⟨h₄, .pipe ht₁ ht₄⟩

omit hnul in
/-- A command that is not in parentheses does not begin with one. -/
theorem starts_simple {rs : List Redirection} (hrest : Follows execFollow rest) :
    starts ['('] (redirTokens rs ++ (argTokens args ++ rest)) = false := by
  cases rs with
  | nil =>
    cases args with
    | nil => exact hrest.starts_eq_false (by decide)
    | cons a args => rfl
  | cons r rs =>
    obtain ⟨o, w⟩ := r
    cases o <;> rfl

/-- The derivations of `exec` that `parseblock` takes. -/
inductive Block : List Token → Cmd Text → Prop
  | block {ts : List Token} {c : Cmd Text} (h : Line ts c) (rs : List Redirection) :
      Block (.sym .lparen :: ts ++ .sym .rparen :: redirTokens rs) (wrap c rs)

theorem complete_parseexec (hblock : Complete line (parseblock line) Block execFollow 1 fuel) :
    Complete line (parseexec line) Exec execFollow 2 (fuel + 1) := by
  intro s us rest c hc h hrest hfuel
  simp only [parseexec, wp_bind]
  cases hc with
  | @block ts c hc rs =>
    refine wp_peek hnul (by decide) h fun s₁ h₁ _ => ?_
    rw [if_pos (by simp [Sym.char])]
    exact hblock _ _ _ _ (.block hc rs) h₁ hrest (by omega)
  | simple rs args hlen =>
    rw [List.append_assoc] at h hfuel
    refine wp_peek hnul (by decide) h fun s₁ h₁ _ => ?_
    rw [if_neg (by simpa using starts_simple hrest), wp_bind]
    refine (complete_parseredirs hnul h₁ (.exec .nil) (starts_redir hrest) (by omega)).mono ?_
      fun _ => id
    rintro t₂ s₂ ⟨h₂, ht₂⟩
    rw [List.length_append] at hfuel
    exact complete_execLoop hnul h₂ ht₂ hrest (by omega) (by omega)

theorem complete_parseblock (hline : Complete line (parseline line) Line lineFollow 4 fuel) :
    Complete line (parseblock line) Block execFollow 1 (fuel + 1) := by
  rintro s us rest c ⟨hc, rs⟩ h hrest hfuel
  simp only [List.append_assoc, List.cons_append] at h hfuel
  rw [List.length_cons] at hfuel
  simp only [parseblock, wp_bind]
  refine wp_peek hnul (by decide) h fun s₁ h₁ _ => ?_
  rw [if_neg (by simp [Sym.char])]
  simp only [wp_bind]
  refine wp_gettoken_cons hnul h₁ fun _ s₂ h₂ _ => ?_
  refine (hline _ _ _ _ hc h₂ (follows_cons (by decide) _) (by omega)).mono ?_ fun _ => id
  rintro t₃ s₃ ⟨h₃, ht₃⟩
  refine wp_peek hnul (by decide) h₃ fun s₄ h₄ _ => ?_
  rw [if_neg (by simp [Sym.char]), wp_bind]
  refine wp_gettoken_cons hnul h₄ fun _ s₅ h₅ _ => ?_
  rw [List.length_append, List.length_cons] at hfuel
  exact complete_parseredirs hnul h₅ ht₃ (hrest.starts_eq_false (by decide)) (by omega)

/-- **The parser takes the tokens of every derivation.** -/
theorem complete (fuel : ℕ) :
    Complete line (parseline line) Line lineFollow 4 fuel ∧
      Complete line (parsepipe line) Pipe pipeFollow 3 fuel ∧
      Complete line (parseexec line) Exec execFollow 2 fuel ∧
      Complete line (parseblock line) Block execFollow 1 fuel := by
  induction fuel with
  | zero =>
    exact ⟨fun _ _ _ _ _ _ _ h => by omega, fun _ _ _ _ _ _ _ h => by omega,
      fun _ _ _ _ _ _ _ h => by omega, fun _ _ _ _ _ _ _ h => by omega⟩
  | succ fuel ih =>
    obtain ⟨hline, hpipe, hexec, hblock⟩ := ih
    exact ⟨complete_parseline hnul hpipe hline, complete_parsepipe hnul hexec hpipe,
      complete_parseexec hnul hblock, complete_parseblock hnul hline⟩

end

/-! ### The strings of the tree -/

def Cmd.map {W V : Type} (f : W → V) : Cmd W → Cmd V
  | .exec argv => .exec (argv.map f)
  | .redir cmd file r => .redir (cmd.map f) (f file) r
  | .pipe left right => .pipe (left.map f) (right.map f)
  | .list left right => .list (left.map f) (right.map f)
  | .back cmd => .back (cmd.map f)

def Cmd.words {W : Type} : Cmd W → List W
  | .exec argv => argv
  | .redir cmd file _ => cmd.words ++ [file]
  | .pipe left right => left.words ++ right.words
  | .list left right => left.words ++ right.words
  | .back cmd => cmd.words

/-- The words of the line are untouched. -/
def Intact (line mem : Text) : Prop :=
  ∀ (i : ℕ) (c : Char), (line)[i]? = some c → wordChar c = true → mem[i]? = some c

theorem getElem?_set_nul {i j : ℕ} (h : mem[i]? = some NUL) : (mem.set j NUL)[i]? = some NUL := by
  rw [List.getElem?_set]
  split
  · rename_i hij
    subst hij
    have hlt := (List.getElem?_eq_some_iff.mp h).1
    rw [if_pos hlt]
  · exact h

section

variable {line mem : Text} {a : Span} {w : Text}

theorem WordAt.intact_set (h : WordAt line a w) (hm : Intact line mem) :
    Intact line (mem.set a.2 NUL) := by
  intro i c hi hc
  have hne : a.2 ≠ i := by
    rintro rfl
    rw [h.ends c hi] at hc
    exact absurd hc (by decide)
  rw [List.getElem?_set_ne hne]
  exact hm i c hi hc

/-- The string at a word with a NUL behind it. -/
theorem WordAt.cstr_eq (hnul : NUL ∉ line) (h : WordAt line a w) (hm : Intact line mem)
    (hend : mem[a.2]? = some NUL) : cstr mem a.1 = w := by
  obtain ⟨hlt, hget⟩ := List.getElem?_eq_some_iff.mp hend
  have hw : NUL ∉ w := by
    rw [← h.text]
    exact fun hmem => hnul (List.mem_of_mem_drop (List.mem_of_mem_take hmem))
  have htext : (mem.drop a.1).take w.length = w := by
    refine List.ext_getElem? fun (i : ℕ) => ?_
    by_cases hi : i < w.length
    · have hline : (line)[a.1 + i]? = w[i]? := by
        conv_rhs => rw [← h.text]
        rw [List.getElem?_take_of_lt hi, List.getElem?_drop]
      rw [List.getElem?_take_of_lt hi, List.getElem?_drop]
      rw [List.getElem?_eq_getElem hi] at hline ⊢
      exact hm _ _ hline (h.chars _ (List.getElem_mem hi))
    · rw [List.getElem?_eq_none (by rw [List.length_take]; omega),
        List.getElem?_eq_none (by omega)]
  have hmem : mem = mem.take a.1 ++ (w ++ NUL :: mem.drop (a.2 + 1)) := by
    have hrest : mem.drop a.2 = NUL :: mem.drop (a.2 + 1) := by
      rw [List.drop_eq_getElem_cons hlt, hget]
    rw [← hrest, ← h.stop, ← List.drop_drop]
    conv_rhs => rw [← htext, List.length_take_of_le (by
      rw [List.length_drop]
      have := h.stop
      omega), List.take_append_drop]
    rw [List.take_append_drop]
  have hfirst : (mem.take a.1).length = a.1 := by
    rw [List.length_take]
    have := h.stop
    omega
  have hcstr : cstr (mem.take a.1 ++ (w ++ NUL :: mem.drop (a.2 + 1))) (mem.take a.1).length = w :=
    cstr_of_nul hw
  rwa [hfirst, ← hmem] at hcstr

end

theorem nulterminate_eq (t : Cmd Span) (mem : Text) :
    nulterminate t mem = t.words.foldl (fun mem a => mem.set a.2 NUL) mem := by
  induction t generalizing mem with
  | exec argv => rfl
  | redir cmd file r ih => rw [nulterminate, ih, Cmd.words, List.foldl_append]; rfl
  | pipe left right ih ih' | list left right ih ih' =>
    rw [nulterminate, ih', ih, Cmd.words, List.foldl_append]
  | back cmd ih => rw [nulterminate, ih, Cmd.words]

theorem Spells.wordAt (h : Spells line t c) : ∀ a ∈ t.words, ∃ w, WordAt line a w := by
  induction h with
  | exec h =>
    intro a ha
    induction h with
    | nil => exact absurd ha (by simp [Cmd.words])
    | cons hw _ ih =>
      rcases List.mem_cons.mp ha with rfl | ha
      · exact ⟨_, hw⟩
      · exact ih ha
  | redir _ hb r ih =>
    intro a ha
    rcases List.mem_append.mp ha with ha | ha
    · exact ih a ha
    · exact ⟨_, List.mem_singleton.mp ha ▸ hb⟩
  | pipe _ _ ih ih' | list _ _ ih ih' =>
    exact fun a ha => (List.mem_append.mp ha).elim (ih a) (ih' a)
  | back _ ih => exact ih

/-- Words are cut off: they stay as they are, and a NUL comes behind each. -/
theorem cut_words {as : List Span} (has : ∀ a ∈ as, ∃ w, WordAt line a w) (hm : Intact line mem)
    (hlen : line.length < mem.length) : Intact line (as.foldl (fun mem a => mem.set a.2 NUL) mem) ∧
      (∀ i : ℕ, mem[i]? = some NUL → (as.foldl (fun mem a => mem.set a.2 NUL) mem)[i]? = some NUL) ∧
      ∀ a ∈ as, (as.foldl (fun mem a => mem.set a.2 NUL) mem)[a.2]? = some NUL := by
  induction as generalizing mem with
  | nil => exact ⟨hm, fun _ h => h, by simp⟩
  | cons a as ih =>
    obtain ⟨w, hw⟩ := has a (by simp)
    obtain ⟨hint, hkeep, hall⟩ := ih (fun b hb => has b (by simp [hb])) (hw.intact_set hm)
      (by rw [List.length_set]; exact hlen)
    refine ⟨hint, fun i hi => hkeep i (getElem?_set_nul hi), fun b hb => ?_⟩
    rcases List.mem_cons.mp hb with rfl | hb
    · refine hkeep _ ?_
      have hin := hw.inside
      rw [List.getElem?_set_self (by omega)]
    · exact hall b hb

theorem Spells.map_cstr (hnul : NUL ∉ line) (h : Spells line t c) (hm : Intact line mem)
    (hend : ∀ a ∈ t.words, mem[a.2]? = some NUL) : t.map (fun a => cstr mem a.1) = c := by
  induction h with
  | exec h =>
    rw [Cmd.map]
    congr 1
    induction h with
    | nil => rfl
    | cons ha _ ih =>
      rw [List.map_cons, ha.cstr_eq hnul hm (hend _ (.head _)), ih fun a h => hend a (.tail _ h)]
  | redir _ ha r ih =>
    rw [Cmd.map, ih fun a ha => hend a (List.mem_append_left _ ha),
      ha.cstr_eq hnul hm (hend _ (List.mem_append_right _ (.head _)))]
  | pipe _ _ ih ih' | list _ _ ih ih' =>
    rw [Cmd.map, ih fun a ha => hend a (List.mem_append_left _ ha),
      ih' fun a ha => hend a (List.mem_append_right _ ha)]
  | back _ ih => rw [Cmd.map, ih hend]

/-- The strings of the tree, in the line that `nulterminate` leaves. -/
theorem Spells.strings (hnul : NUL ∉ line) (h : Spells line t c) :
    t.map (fun a => cstr (nulterminate t (line ++ [NUL])) a.1) = c := by
  have hm : Intact line (line ++ [NUL]) := by
    intro i c hi _
    rw [List.getElem?_append_left (List.getElem?_eq_some_iff.mp hi).1, hi]
  obtain ⟨hint, -, hall⟩ := cut_words h.wordAt hm (by simp)
  rw [nulterminate_eq]
  exact h.map_cstr hnul hint hall

theorem tokens_length_le (l : Text) : (tokens l).length ≤ l.length := by
  induction l using tokens.induct with
  | case1 => simp [tokens]
  | case2 cs ih =>
    rw [tokens_append]
    simp only [List.length_cons]
    omega
  | case3 c cs hne hspace ih =>
    rw [tokens_space hspace, List.length_cons]
    omega
  | case4 c cs hne hspace x hx ih =>
    rw [tokens, if_neg hspace, hx]
    · simp only [List.length_cons]
      omega
    · exact hne
  | case5 c cs hne hspace hx ih =>
    rw [tokens, if_neg hspace, hx]
    · have := (List.dropWhile_sublist (l := cs) wordChar).length_le
      simp only [List.length_cons]
      omega
    · exact hne

theorem at_zero (line : Text) : At line 0 (tokens line) := ⟨Nat.zero_le _, rfl⟩

/-- The parser on a whole line: it stops at the end of the line if and only if it has taken all
of its tokens. -/
theorem wp_parseall (hnul : NUL ∉ line) {fuel : ℕ} (hfuel : 4 * line.length + 4 ≤ fuel) :
    wp (parseall line fuel) (fun t s => ∃ us rest c, tokens line = us ++ rest ∧ Line us c ∧
      Spells line t c ∧ (s = line.length ↔ rest = [])) IsPanic 0 := by
  have hlen := tokens_length_le line
  rw [parseall, wp_bind]
  refine ((sound hnul fuel).1 _ _ (at_zero line) (by omega)).mono ?_ fun _ => id
  rintro t s ⟨us, rest, c, hts, hs, hc, ht, -⟩
  rw [wp_bind]
  exact wp_peek hnul (by simp) hs fun s' _ hs' => ⟨us, rest, c, hts, hc, ht, hs'⟩

theorem complete_parseall (hnul : NUL ∉ line) {fuel : ℕ} (hfuel : 4 * line.length + 4 ≤ fuel)
    (hc : Line (tokens line) c) :
    wp (parseall line fuel) (fun t s => Spells line t c ∧ s = line.length) (fun _ => False) 0 := by
  have hlen := tokens_length_le line
  have hat : At line 0 (tokens line ++ []) := by
    rw [List.append_nil]
    exact at_zero line
  rw [parseall, wp_bind]
  refine ((complete hnul fuel).1 0 _ [] c hc hat (by simp [Follows]) ?_).mono ?_ fun _ => id
  · rw [List.append_nil]
    omega
  · rintro t s ⟨hs, ht⟩
    rw [wp_bind]
    exact wp_peek hnul (by simp) hs fun s' _ hs' => ⟨ht, hs'.mpr rfl⟩

/-- **`parsecmd` ends and does not look behind the NUL. It accepts a line if and only if its
tokens can be derived, and then there is one derivation, and the strings of the tree it returns
are those of the derivation.** -/
theorem parsecmd_exact (line : Text) (hnul : NUL ∉ line) (fuel : ℕ)
    (hfuel : 4 * line.length + 4 ≤ fuel) :
    (∃ t mem, parsecmd fuel line = .ok (t, mem) ∧
      ∀ c, Line (tokens line) c ↔ t.map (fun a => cstr mem a.1) = c) ∨
    (∃ msg, parsecmd fuel line = .error (.panic msg)) ∧ ∀ c, ¬Line (tokens line) c := by
  have hsound := wp_parseall hnul hfuel
  rw [parsecmd]
  cases hrun : (parseall line fuel).run 0 with
  | error e =>
    obtain ⟨msg, rfl⟩ := wp_of_run_error hsound hrun
    exact .inr ⟨⟨msg, rfl⟩, fun c hc => wp_of_run_error (complete_parseall hnul hfuel hc) hrun⟩
  | ok r =>
    obtain ⟨t, s⟩ := r
    obtain ⟨us, rest, c, hts, hc, ht, hs⟩ := wp_of_run_ok hsound hrun
    by_cases hend : s = line.length
    · obtain rfl := hs.mp hend
      rw [List.append_nil] at hts
      subst hts
      refine .inl ⟨t, nulterminate t (line ++ [NUL]), ?_, fun c' => ⟨fun hc' => ?_, ?_⟩⟩
      · simp only [bind, Except.bind, hend, ne_eq, not_true_eq_false, if_false]
        rfl
      · exact (wp_of_run_ok (complete_parseall hnul hfuel hc') hrun).1.strings hnul
      · rintro rfl
        rw [ht.strings hnul]
        exact hc
    · refine .inr ⟨⟨"syntax", ?_⟩, fun c' hc' =>
        hend (wp_of_run_ok (complete_parseall hnul hfuel hc') hrun).2⟩
      simp only [bind, Except.bind, ne_eq, hend, not_false_eq_true, if_true]
      rfl

theorem parsecmd_exact_pipe :
    NUL ∉ ['a', '|', 'b', '>', 'c'] ∧
      ∃ t mem, parsecmd 24 ['a', '|', 'b', '>', 'c'] = .ok (t, mem) ∧
        ∀ c, Line (tokens ['a', '|', 'b', '>', 'c']) c ↔ t.map (fun a => cstr mem a.1) = c := by
  refine ⟨by decide, ?_⟩
  rcases parsecmd_exact ['a', '|', 'b', '>', 'c'] (by decide) 24 (by decide) with h | ⟨⟨msg, h⟩, -⟩
  · exact h
  · have hok : (parsecmd 24 ['a', '|', 'b', '>', 'c']).isOk = true := by decide +kernel
    rw [h] at hok
    exact absurd hok Bool.false_ne_true

end Xv6.Shell
