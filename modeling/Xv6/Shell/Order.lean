import Xv6.Shell.Exact
import Xv6.Shell.Run
import Mathlib.Data.List.Induction

/-!
# The order of redirections

A command with redirections, as it stands in the line, as `parseexec` returns it and as `runcmd`
runs it. `parseredirs` puts each redirection around those that it has read before; `runcmd` opens
the file of the outermost first. So files are opened from right to left.
-/

namespace Xv6.Shell

open CString Function

/-- `r` stands to the left of `r'`. -/
def Redirect.Before (r r' : Redirect) : Prop := r.1.1 < r'.1.1

variable {line : Text}

theorem WordAt.le {w : Text} {a : Span} (h : WordAt line a w) : a.1 ≤ a.2 :=
  h.stop ▸ Nat.le_add_right ..

variable {rs : List Redirect}

theorem Redirects.sorted {s s' : ℕ} (h : Redirects line s rs s') :
    s ≤ s' ∧ (∀ r ∈ rs, s < r.1.1 ∧ r.1.1 ≤ s') ∧ rs.Pairwise Redirect.Before := by
  induction h with
  | nil _ _ hle => exact ⟨hle, by simp, .nil⟩
  | @cons s s₁ s' o w ts a rs _ ha hlt _ hle _ ih =>
    obtain ⟨ihle, ihmem, ihsorted⟩ := ih
    have hspan := ha.le
    refine ⟨by omega, ?_, ?_⟩
    · rintro r (_ | ⟨_, hr⟩)
      · exact ⟨hlt, show a.1 ≤ s' by omega⟩
      · have := ihmem r hr
        omega
    · refine List.pairwise_cons.mpr ⟨fun r hr => ?_, ihsorted⟩
      have := (ihmem r hr).1
      exact show a.1 < r.1.1 by omega

/-- Redirections that stand up to `s₁` and others from there on. -/
theorem sorted_append {s₁ : ℕ} {rs' : List Redirect} (h : rs.Pairwise Redirect.Before)
    (h' : rs'.Pairwise Redirect.Before) (hle : ∀ r ∈ rs, r.1.1 ≤ s₁) (hlt : ∀ r ∈ rs', s₁ < r.1.1) :
    (rs ++ rs').Pairwise Redirect.Before := by
  refine List.pairwise_append.mpr ⟨h, h', fun r hr r' hr' => ?_⟩
  have h₁ := hle r hr
  have h₂ := hlt r' hr'
  exact show r.1.1 < r'.1.1 by omega

theorem Words.sorted {s s' : ℕ} {as : List Span} (h : Words line s as rs s') :
    (∀ r ∈ rs, s < r.1.1) ∧ rs.Pairwise Redirect.Before := by
  induction h with
  | nil => exact ⟨by simp, .nil⟩
  | @cons s s₁ s₂ s' w ts a as rs rs' _ ha hge _ hle hrs _ ih =>
    obtain ⟨hle₂, hmem, hsorted⟩ := hrs.sorted
    have hspan := ha.le
    refine ⟨fun r hr => ?_, sorted_append hsorted ih.2 (fun r hr => (hmem r hr).2) ih.1⟩
    rcases List.mem_append.mp hr with hr | hr
    · have := (hmem r hr).1
      omega
    · have := ih.1 r hr
      omega

theorem Written.sorted {s s' : ℕ} {core : Cmd Span} (h : Written line s core rs s') :
    rs.Pairwise Redirect.Before := by
  cases h with
  | simple hrs hws =>
    obtain ⟨-, hmem, hsorted⟩ := hrs.sorted
    exact sorted_append hsorted hws.sorted.2 (fun r hr => (hmem r hr).2) hws.sorted.1
  | block _ _ _ _ hrs => exact hrs.sorted.2.2

/-! ### The calls -/

variable {W : Type}

/-- What `runcmd` does for one redirection. -/
def Env.redirect (e : Env W) (r : W × Redir) : Env W := (e.close (.lit r.2.fd)).openFile r.1 r.2

/-- What it does for those of a command, the last of which is the outermost. -/
def Env.redirects (e : Env W) (rs : List (W × Redir)) : Env W :=
  rs.foldr (fun r e => e.redirect r) e

theorem Env.redirects_concat (e : Env W) (rs : List (W × Redir)) (r : W × Redir) :
    e.redirects (rs ++ [r]) = (e.redirect r).redirects rs := List.foldr_append

theorem runcmd_under_concat (π : Path) (core : Cmd W) (rs : List (W × Redir)) (r : W × Redir) :
    runcmd π (under core (rs ++ [r])) =
      .close (.lit r.2.fd) (.openFile r.1 r.2 (runcmd (π ++ [.inner]) (under core rs))) := by
  rw [under_append]
  rfl

theorem State.set_self {s : State W} {i : ℕ} {q : Proc W} (h : s.procs i = some q) :
    s.set i q = s := by
  rw [State.set, ← h, update_eq_self]

theorem State.set_set (s : State W) (i : ℕ) (q q' : Proc W) :
    (s.set i q).set i q' = s.set i q' := by
  rw [State.set, State.set_procs, update_idem]
  rfl

/-- **The calls for the redirections of a command lead to the command itself.** -/
theorem run_under {s : State W} {i n : ℕ} {e : Env W} {π : Path} {core : Cmd W}
    {rs : List (W × Redir)} (h : s.procs i = some ⟨n, e, runcmd π (under core rs)⟩) :
    ∃ π', Relation.ReflTransGen Step s (s.set i ⟨n, e.redirects rs, runcmd π' core⟩) := by
  induction rs using List.reverseRecOn generalizing s e π with
  | nil =>
    refine ⟨π, ?_⟩
    have hself : s.set i ⟨n, e.redirects [], runcmd π core⟩ = s := State.set_self h
    rw [hself]
  | append_singleton rs r ih =>
    rw [runcmd_under_concat] at h
    have hclose := Step.close h
    generalize hk : runcmd (π ++ [.inner]) (under core rs) = k at hclose
    have hopen : Step (s.set i ⟨n, e.close (.lit r.2.fd), .openFile r.1 r.2 k⟩)
        (s.set i ⟨n, e.redirect r, k⟩) := by
      have hstep := Step.openFile (s := s.set i ⟨n, e.close (.lit r.2.fd), .openFile r.1 r.2 k⟩)
        (i := i) (update_self ..)
      rwa [State.set_set] at hstep
    subst hk
    obtain ⟨π', hrun⟩ := ih (s := s.set i _) (e := e.redirect r) (update_self ..)
    rw [State.set_set] at hrun
    rw [Env.redirects_concat]
    exact ⟨π', .head hclose (.head hopen hrun)⟩

theorem Env.redirects_opened (e : Env W) (rs : List (W × Redir)) :
    (e.redirects rs).opened = e.opened ++ rs.reverse := by
  induction rs with
  | nil => rw [List.reverse_nil, List.append_nil]; rfl
  | cons r rs ih =>
    rw [List.reverse_cons, ← List.append_assoc, ← ih]
    rfl

theorem Standard.redirect_fds {e : Env W} (h : Standard e.fds) (r : W × Redir) :
    (e.redirect r).fds = update e.fds r.2.fd (some (.file r.1 r.2)) :=
  h.alloc_close r.2.fd_lt _

/-! ### The order -/

/-- The redirections have taken effect in the order of the text: for the last one of each
descriptor, its file is behind the descriptor, and all the files to the left of it were opened
before its own. -/
def InOrder (rs : List Redirect) (e e' : Env Span) : Prop :=
  ∀ r ∈ rs, (∀ r' ∈ rs, r'.2.fd = r.2.fd → r'.1.1 ≤ r.1.1) →
    e'.fds r.2.fd = some (.file r.1 r.2) ∧
      ∀ r' ∈ rs, r'.Before r → ∃ l₁ l₂ l₃, e'.opened = e.opened ++ (l₁ ++ r' :: (l₂ ++ r :: l₃))

theorem inOrder_redirects_iff {e : Env Span} (he : Standard e.fds)
    (hrs : rs.Pairwise Redirect.Before) : InOrder rs e (e.redirects rs) ↔ rs.length ≤ 1 := by
  constructor
  · -- the first and the last redirection: the last was opened before the first
    intro h
    by_contra hlen
    obtain ⟨r, rs, rfl⟩ := List.exists_cons_of_ne_nil (show rs ≠ [] by rintro rfl; simp at hlen)
    have hne : rs ≠ [] := by
      rintro rfl
      simp at hlen
    obtain ⟨hfirst, hsorted⟩ := List.pairwise_cons.mp hrs
    obtain ⟨rs, last, rfl⟩ : ∃ rs' last, rs = rs' ++ [last] :=
      ⟨rs.dropLast, rs.getLast hne, (List.dropLast_append_getLast hne).symm⟩
    have hmem : last ∈ rs ++ [last] := by simp
    have hlast : ∀ r' ∈ r :: (rs ++ [last]), r'.2.fd = last.2.fd → r'.1.1 ≤ last.1.1 := by
      intro r' hr' _
      rcases List.mem_cons.mp hr' with rfl | hr'
      · exact Nat.le_of_lt (hfirst _ hmem)
      rcases List.mem_append.mp hr' with hr' | hr'
      · exact Nat.le_of_lt ((List.pairwise_append.mp hsorted).2.2 r' hr' last List.mem_cons_self)
      · exact Nat.le_of_eq (by rw [List.mem_singleton.mp hr'])
    obtain ⟨l₁, l₂, l₃, hopened⟩ :=
      (h last (List.mem_cons_of_mem _ hmem) hlast).2 r List.mem_cons_self (hfirst _ hmem)
    rw [Env.redirects_opened, List.append_cancel_left_eq] at hopened
    have hback := List.pairwise_reverse.mpr hrs
    rw [hopened] at hback
    have hbefore := (List.pairwise_cons.mp (List.pairwise_append.mp hback).2.1).1 last (by simp)
    exact Nat.lt_asymm hbefore (hfirst _ hmem)
  · intro hlen r hr _
    obtain ⟨r₁, rfl⟩ : ∃ r₁, rs = [r₁] := by
      rw [← List.length_eq_one_iff]
      have := List.length_pos_of_mem hr
      omega
    rw [List.mem_singleton.mp hr]
    refine ⟨?_, fun r' hr' hlt => ?_⟩
    · exact (congrFun (he.redirect_fds r₁) _).trans (update_self ..)
    · rw [List.mem_singleton.mp hr'] at hlt
      exact absurd hlt (Nat.lt_irrefl _)

/-- **The redirections of a command take effect in the order of the text if and only if there
is at most one**, for every simple command and every command in parentheses that `parseexec`
accepts in a line, and every process that runs it with the descriptors 0, 1 and 2. -/
theorem in_order_iff {line : Text} (hnul : NUL ∉ line) {fuel s s' : ℕ} {t : Cmd Span}
    (hs : s ≤ line.length) (hfuel : 4 * line.length + 2 ≤ fuel)
    (h : (parseexec line fuel).run s = .ok (t, s')) :
    ∃ core rs, Written line s core rs s' ∧
      ∀ (st : State Span) (i n : ℕ) (e : Env Span) (π : Path),
        st.procs i = some ⟨n, e, runcmd π t⟩ → Standard e.fds →
        (∃ π', Relation.ReflTransGen Step st (st.set i ⟨n, e.redirects rs, runcmd π' core⟩)) ∧
        (InOrder rs e (e.redirects rs) ↔ rs.length ≤ 1) := by
  have hlen := tokens_length_le (line.drop s)
  rw [List.length_drop] at hlen
  obtain ⟨-, -, -, -, -, -, -, core, rs, rfl, hw⟩ :=
    wp_of_run_ok ((sound hnul fuel).2.2.1 s _ ⟨hs, rfl⟩ (by omega)) h
  exact ⟨core, rs, hw, fun st i n e π hi he => ⟨run_under hi, inOrder_redirects_iff he hw.sorted⟩⟩

/-- `c>a`: the one redirection takes effect. -/
theorem in_order_one : ∃ t, (parseexec ['c', '>', 'a'] 14).run 0 = .ok (t, 3) ∧
    ∃ core rs, Written ['c', '>', 'a'] 0 core rs 3 ∧
      (InOrder rs Env.start (Env.start.redirects rs) ↔ rs.length ≤ 1) := by
  have hrun : (parseexec ['c', '>', 'a'] 14).run 0 =
      .ok (.redir (.exec [(0, 1)]) (2, 3) .output, 3) := by
    rfl
  obtain ⟨core, rs, hw, hrs⟩ := in_order_iff (by decide) (by decide) (by decide) hrun
  exact ⟨_, hrun, core, rs, hw, (hrs (.start _) 1 0 .start [] rfl Env.start_standard).2⟩

/-- `c>a>b`: the output goes to `a`, and `b` was opened before `a`. -/
theorem first_redirection_wins :
    (parseexec ['c', '>', 'a', '>', 'b'] 22).run 0 =
      .ok (.redir (.redir (.exec [(0, 1)]) (2, 3) .output) (4, 5) .output, 5) ∧
    ∃ π e, Relation.ReflTransGen Step
        (.start (.redir (.redir (.exec [(0, 1)]) (2, 3) .output) (4, 5) .output))
        ((State.start (.redir (.redir (.exec [(0, 1)]) (2, 3) .output) (4, 5) .output)).set 1
          ⟨0, e, runcmd π (.exec [(0, 1)])⟩) ∧
      e.fds 1 = some (.file (2, 3) .output) ∧
      e.opened = [((4, 5), .output), ((2, 3), .output)] ∧
      ¬ InOrder [((2, 3), .output), ((4, 5), .output)] .start e := by
  refine ⟨rfl, ?_⟩
  have hstart :
      (State.start (under (.exec [(0, 1)]) [((2, 3), .output), ((4, 5), .output)])).procs 1 =
        some ⟨0, .start, runcmd []
        (under (.exec [(0, 1)]) [((2, 3), .output), ((4, 5), .output)])⟩ :=
    rfl
  obtain ⟨π, hrun⟩ := run_under hstart
  refine ⟨π, _, hrun, rfl, rfl, fun h => ?_⟩
  have hlen := (inOrder_redirects_iff Env.start_standard (by simp [Redirect.Before])).mp h
  exact absurd hlen (by decide)

end Xv6.Shell
