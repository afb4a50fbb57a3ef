import Xv6.Sync.Machine

/-!
# Ghost values

A ghost value of a thread is computed from the operations that it makes, beside
the local state and without the code ever reading it. The machine that carries the
ghost values in the local states makes the same steps, so an invariant proved for
it, over local states that say more, holds of the code.
-/

namespace Xv6.Sync

open Function

variable {P Λ C σ L G ι : Type}

/-- The ghost value after an operation at a local state; an access may use the data. -/
structure Ghost (σ L G : Type) where
  access : L → σ → G → G
  other : L → G → G

def Op.withGhost (acc : σ → G) (g : G) : Op P Λ C σ L → Op P Λ C σ (L × G)
  | .acquire lk next => .acquire lk (next, g)
  | .release lk next => .release lk (next, g)
  | .access f => .access fun d => ((f d).1, (f d).2, acc d)
  | .killed yes no => .killed (yes, g) (no, g)
  | .update u next => .update u (next, g)
  | .sleep chan lk next => .sleep chan lk (next, g)

def Pc.withGhost (g : G) : Pc P Λ C L → Pc P Λ C (L × G)
  | .run l => .run (l, g)
  | .sleepRelease chan l next => .sleepRelease chan l (next, g)
  | .sleepSet chan lk next => .sleepSet chan lk (next, g)
  | .sched chan lk next => .sched chan lk (next, g)
  | .sleepUnlock l next => .sleepUnlock l (next, g)
  | .sleepReacquire l next => .sleepReacquire l (next, g)
  | .update u next => .update u (next, g)
  | .unlock next => .unlock (next, g)

@[simp] theorem Pc.withGhost_loc (c : Pc P Λ C L) (g : G) : (c.withGhost g).loc = (c.loc, g) := by
  cases c <;> rfl

@[simps]
def State.withGhost (s : State P Λ C σ L) (g : P → G) : State P Λ C σ (L × G) where
  lock := s.lock
  proc := s.proc
  pc p := (s.pc p).withGhost (g p)
  data := s.data

/-- The ghost value after `op`, made at local state `l` and data `d`. -/
def Ghost.after (gh : Ghost σ L G) (l : L) (d : σ) (g : G) : Op P Λ C σ L → G
  | .access _ => gh.access l d g
  | _ => gh.other l g

def Ghost.code (gh : Ghost σ L G) (code : P → L → ι → Option (Op P Λ C σ L)) (p : P) :
    L × G → ι → Option (Op P Λ C σ (L × G))
  | (l, g), x => (code p l x).map (Op.withGhost (gh.access l · g) (gh.other l g))

theorem Ghost.guarded (gh : Ghost σ L G) {code : P → L → ι → Option (Op P Λ C σ L)}
    {holds : L → Set (Lock Λ)} (h : Guarded code holds) :
    Guarded (gh.code code) fun l => holds l.1 := by
  rintro p ⟨l, g⟩ x _ hmap
  obtain ⟨op, hop, rfl⟩ := Option.map_eq_some_iff.mp hmap
  have hg := h p l x op hop
  cases op <;> exact hg

section Step

variable [DecidableEq P] {gh : Ghost σ L G} {code : P → L → ι → Option (Op P Λ C σ L)}
  {s s' : State P Λ C σ L} {a : Action P ι} {p : P}

/-- The ghost values after a step: only a thread that runs its own code changes its. -/
def Ghost.next (gh : Ghost σ L G) (code : P → L → ι → Option (Op P Λ C σ L))
    (s : State P Λ C σ L) (g : P → G) : Action P ι → P → G
  | .step p x =>
    match s.pc p with
    | .run l => (code p l x).elim g fun op => update g p (gh.after l s.data (g p) op)
    | _ => g
  | _ => g

theorem State.withGhost_setPc (g : P → G) (c : Pc P Λ C L) (g' : G) :
    (s.withGhost g).setPc p (c.withGhost g') = (s.setPc p c).withGhost (update g p g') := by
  simp only [State.setPc, State.withGhost, State.mk.injEq, true_and, and_true]
  funext q
  by_cases hq : q = p
  · subst hq
    simp
  · simp [hq]

/-- Inside `sleep`, `wakeup` and `kill` the ghost value stays. -/
theorem State.withGhost_setPc_self (g : P → G) (c : Pc P Λ C L) :
    (s.withGhost g).setPc p (c.withGhost (g p)) = (s.setPc p c).withGhost g := by
  rw [State.withGhost_setPc, update_eq_self]

variable [DecidableEq Λ]

theorem State.withGhost_acquire (g : P → G) (lk : Lock Λ) (c : Pc P Λ C L) (g' : G) :
    (s.withGhost g).acquire p lk (c.withGhost g') =
      (s.acquire p lk c).map (State.withGhost · (update g p g')) := by
  simp only [State.acquire, State.withGhost_lock]
  split
  · rw [Option.map_some, ← State.withGhost_setPc]
    rfl
  · rfl

theorem State.withGhost_release (g : P → G) (lk : Lock Λ) (c : Pc P Λ C L) (g' : G) :
    (s.withGhost g).release p lk (c.withGhost g') =
      (s.release p lk c).map (State.withGhost · (update g p g')) := by
  simp only [State.release, State.withGhost_lock]
  split
  · rw [Option.map_some, ← State.withGhost_setPc]
    rfl
  · rfl

theorem State.withGhost_exec (g : P → G) (l : L) (op : Op P Λ C σ L) :
    (s.withGhost g).exec p (op.withGhost (gh.access l · (g p)) (gh.other l (g p))) =
      (s.exec p op).map (State.withGhost · (update g p (gh.after l s.data (g p) op))) := by
  cases op with
  | acquire lk next => exact State.withGhost_acquire g lk (.run next) _
  | release lk next => exact State.withGhost_release g lk (.run next) _
  | access f =>
    refine congrArg some ?_
    have h :=
      State.withGhost_setPc (s := s) (p := p) g (.run (f s.data).2) (gh.access l s.data (g p))
    simp only [State.setPc, State.withGhost, State.mk.injEq] at h ⊢
    exact ⟨trivial, trivial, h.2.2.1, trivial⟩
  | killed yes no =>
    refine congrArg some ?_
    dsimp only
    rw [← State.withGhost_setPc]
    cases hk : (s.proc p).killed <;> simp [Pc.withGhost, Ghost.after, hk]
  | update u next => exact State.withGhost_acquire g .ptable (.update u next) _
  | sleep chan lk next =>
    cases lk with
    | spin l' => exact State.withGhost_acquire g .ptable (.sleepRelease chan l' next) _
    | ptable =>
      simp only [State.exec, Op.withGhost, State.withGhost_lock]
      split
      · rw [Option.map_some, ← State.withGhost_setPc]
        rfl
      · rfl

variable [DecidableEq C]

theorem State.withGhost_stepProc (g : P → G) (x : ι) :
    (s.withGhost g).stepProc (gh.code code) p x =
      (s.stepProc code p x).map (State.withGhost · (gh.next code s g (.step p x))) := by
  have hacq (lk c) := State.withGhost_acquire (s := s) (p := p) g lk c (g p)
  have hrel (lk c) := State.withGhost_release (s := s) (p := p) g lk c (g p)
  simp only [update_eq_self] at hacq hrel
  cases hpc : s.pc p with
  | run l =>
    simp only [State.stepProc, State.withGhost_pc, hpc, Pc.withGhost, Ghost.code, Ghost.next]
    cases hop : code p l x with
    | none => rfl
    | some op =>
      simp only [Option.map_some, Option.bind_some, Option.elim_some]
      exact State.withGhost_exec g l op
  | sleepRelease chan l next =>
    simp only [State.stepProc, State.withGhost_pc, hpc, Pc.withGhost, Ghost.next]
    exact hrel (.spin l) (.sleepSet chan (.spin l) next)
  | sleepUnlock l next =>
    simp only [State.stepProc, State.withGhost_pc, hpc, Pc.withGhost, Ghost.next]
    exact hrel .ptable (.sleepReacquire l next)
  | unlock next =>
    simp only [State.stepProc, State.withGhost_pc, hpc, Pc.withGhost, Ghost.next]
    exact hrel .ptable (.run next)
  | sleepReacquire l next =>
    simp only [State.stepProc, State.withGhost_pc, hpc, Pc.withGhost, Ghost.next]
    exact hacq (.spin l) (.run next)
  | sched chan lk next =>
    simp only [State.stepProc, State.withGhost_pc, hpc, Pc.withGhost, Ghost.next,
      State.withGhost_lock]
    split
    · rw [Option.map_some, ← State.withGhost_setPc_self]
      cases lk <;> rfl
    · rfl
  | sleepSet | update =>
    simp only [State.stepProc, State.withGhost_pc, hpc, Pc.withGhost, Ghost.next, Option.map_some]
    rw [← State.withGhost_setPc_self]
    rfl

theorem step_withGhost (g : P → G) :
    step (gh.code code) (s.withGhost g) a =
      (step code s a).map (State.withGhost · (gh.next code s g a)) := by
  cases a with
  | step p x => exact State.withGhost_stepProc g x
  | acquire | release =>
    simp only [step, State.withGhost_lock]
    split <;> rfl
  | dispatch p =>
    simp only [step, State.withGhost_lock, State.withGhost_proc]
    split <;> rfl

/-- The ghost values at the positions of a run that starts with `g₀` everywhere. -/
def Ghost.along (gh : Ghost σ L G) (r : Run (step code)) (g₀ : G) : ℕ → P → G
  | 0 => fun _ => g₀
  | k + 1 => gh.next code (r.state k) (Ghost.along gh r g₀ k) (r.action k)

theorem Ghost.reachable (gh : Ghost σ L G) {l : L} {d : σ} (r : Run (step code))
    (h0 : r.state 0 = State.init l d) (g₀ : G) {k : ℕ} (hk : k ≤ r.length) :
    Reachable (gh.code code) (l, g₀) d ((r.state k).withGhost (gh.along r g₀ k)) := by
  refine r.induct_between (P := fun k =>
    Reachable (gh.code code) (l, g₀) d ((r.state k).withGhost (gh.along r g₀ k)))
    (Nat.zero_le k) hk ?_ fun m _ _ hs ih => ih.step (a := r.action m) ?_
  · rw [h0]
    exact .init
  · rw [step_withGhost, hs]
    rfl

end Step

end Xv6.Sync
