import Xv6.Proc.Family
import Xv6.Sync.Console
import Xv6.Sync.Pipe

/-!
# Killing a process that waits

Five loops of the kernel test `killed` before they sleep: `sys_sleep`,
`piperead`, `pipewrite`, `consoleread` and the `wait` family. The last holds
`ptable.lock` from the test to the moment it is `SLEEPING`; the others hold a
lock that `kill` does not take.
-/

namespace Xv6

section Wait

variable {ncpu : ℕ} {s s' : State ncpu} {a : Action ncpu} {i : Slot}

/-- A process that is asleep after a step has the `killed` flag it had before. -/
theorem killed_of_sleeping (hI : Inv s) (hs : step s a = some s')
    (hi : (s'.proc i).state = .sleeping) : (s'.proc i).killed = (s.proc i).killed := by
  have heff := step_effect hI hs i
  revert hi
  generalize s'.proc i = q at heff
  intro hi
  cases heff with
  | alloc => simp [Proc.alloc] at hi
  | drop => simp at hi
  | publish => simp at hi
  | dispatch => simp [Proc.dispatch] at hi
  | fault c hr => simp [hr] at hi
  | kill c p pid ha hf =>
    by_cases hsl : (s.proc i).state = .sleeping <;> simp [Proc.kill, hsl] at hi
  | reap _ k => cases k <;> simp [Proc.reap] at hi
  | _ => rfl

/-- Who sleeps in the `wait` family after a step did so before, or has just found
its `killed` flag clear. -/
theorem sleeping_in_wait (hI : Inv s) (hs : step s a = some s')
    (hi : (s'.proc i).state = .sleeping) (hc : (s'.proc i).chan = some (.proc i)) :
    (s.proc i).state = .sleeping ∧ (s.proc i).chan = some (.proc i) ∨
      (s.proc i).killed = false := by
  obtain hproc | ⟨j, -, hj, hproc⟩ | ⟨c, p, -, ho⟩ := step_kin hI hs
  · exact ((hproc i).asleep hi hc).imp_right And.left
  · exact ((hproc i fun hij => hj (hij ▸ hi)).asleep hi hc).imp_right And.left
  · obtain ⟨-, hi', hc', -⟩ := ho.asleep i hi hc
    exact .inl ⟨hi', hc'⟩

theorem Reachable.wait_not_killed {bsp : Fin ncpu} {n : ℕ} (h : Reachable bsp n s) (i : Slot)
    (hi : (s.proc i).state = .sleeping) (hc : (s.proc i).chan = some (.proc i)) :
    (s.proc i).killed = false := by
  induction h with
  | boot => simp [State.boot, Proc.zero] at hi
  | step hr hs ih =>
    rw [killed_of_sleeping hr.inv hs hi]
    obtain ⟨hi', hc'⟩ | hk := sleeping_in_wait hr.inv hs hi hc
    · exact ih hi' hc'
    · exact hk

end Wait

namespace Sync

/-! ### sys_sleep -/

namespace Ticks

variable {P : Type}

inductive Call (P : Type) where
  | sysSleep (n : UInt32)
  | timer
  | kill (q : P)

inductive Loc where
  | idle
  | start (n : UInt32)
  | test (n ticks0 : UInt32)
  | killed (n ticks0 : UInt32)
  | sleep (n ticks0 : UInt32)
  | release
  | tick
  | wakeup

/-- `sys_sleep` (`n` as the unsigned number the comparison takes it for) and the
timer interrupt of CPU 0; the shared data is `ticks`. -/
def code (_ : P) : Loc → Call P → Option (Op P Unit Unit UInt32 Loc)
  | .idle, .sysSleep n => some (.acquire (.spin ()) (.start n))
  | .idle, .timer => some (.acquire (.spin ()) .tick)
  | .idle, .kill q => some (.kill q .idle)
  | .start n, _ => some <| .access fun ticks => (ticks, .test n ticks)
  | .test n ticks0, _ => some <| .access fun ticks =>
    (ticks, if ticks - ticks0 < n then .killed n ticks0 else .release)
  | .killed n ticks0, _ => some (.killed .release (.sleep n ticks0))
  | .sleep n ticks0, _ => some (.sleep () (.spin ()) (.test n ticks0))
  | .release, _ => some (.release (.spin ()) .idle)
  | .tick, _ => some <| .access fun ticks => (ticks + 1, .wakeup)
  | .wakeup, _ => some (.wakeup () .release)

def Loc.holds : Loc → Set (Lock Unit)
  | .idle => ∅
  | _ => {.spin ()}

def Loc.tested : Loc → Bool
  | .sleep _ _ => true
  | _ => false

theorem guarded : Guarded (code (P := P)) Loc.holds := by
  intro p l x op hop
  cases l with
  | idle => cases x <;> cases hop <;> simp [Op.Guards, Loc.holds]
  | test n ticks0 =>
    cases hop
    intro ticks
    dsimp only
    split <;> rfl
  | _ =>
    cases hop
    simp [Op.Guards, Loc.holds]

theorem interruptible : Interruptible (code (P := P)) (Loc.tested · = true) := by
  intro p l x op hop
  cases l with
  | idle => cases x <;> cases hop <;> simp [Op.Interruptible, Loc.tested]
  | test n ticks0 =>
    cases hop
    intro ticks
    dsimp only
    split <;> simp [Loc.tested]
  | _ =>
    cases hop
    simp [Op.Interruptible, Loc.tested]

end Ticks

variable {P Λ C σ L ι : Type}

/-- In no state of the run is a process asleep with its `killed` flag set. -/
def NeverAsleepKilled [DecidableEq P] [DecidableEq Λ] [DecidableEq C]
    {code : P → L → ι → Option (Op P Λ C σ L)} (r : Run (step code)) : Prop :=
  ∀ k ≤ r.length, ∀ p, ((r.state k).proc p).state = .sleeping →
    ((r.state k).proc p).killed = false

/-- No `kill` in the run finds its target between its test of `killed` and the
moment `sleep` has `ptable.lock`. -/
def KillsOutside [DecidableEq P] [DecidableEq Λ] [DecidableEq C] (tested : L → Bool)
    {code : P → L → ι → Option (Op P Λ C σ L)} (r : Run (step code)) : Prop :=
  ∀ k < r.length, ∀ q, Kills (r.state k) (r.action k) q → ¬ tested ((r.state k).locs q) = true

/-- The `wait` family never sleeps with `killed` set. The other four loops do not in
runs without a `kill` in the window before `sleep`. -/
theorem kill_interrupts_wait [DecidableEq P] {ncpu : ℕ} (bsp : Fin ncpu) :
    (∀ n (s : Xv6.State ncpu), Xv6.Reachable bsp n s → ∀ i, (s.proc i).state = .sleeping →
      (s.proc i).chan = some (.proc i) → (s.proc i).killed = false) ∧
    (∀ (ticks : UInt32) (r : Run (step (Ticks.code (P := P)))),
      r.state 0 = State.init .idle ticks → KillsOutside Ticks.Loc.tested r →
        NeverAsleepKilled r) ∧
    (∀ (pipe : Pipe) (r : Run (step (Pipe.code (P := P)))),
      r.state 0 = State.init .idle pipe → KillsOutside Pipe.Loc.tested r →
        NeverAsleepKilled r) ∧
    (∀ (input : Input) (r : Run (step (Input.code (P := P)))),
      r.state 0 = State.init .idle input → KillsOutside Input.Loc.tested r →
        NeverAsleepKilled r) := by
  refine ⟨fun n s hs => hs.wait_not_killed, ?_, ?_, ?_⟩
  · intro ticks r h0 hkill k hk p hp
    exact killed_awake Ticks.guarded rfl Ticks.interruptible r h0 hkill hk p hp
  · intro pipe r h0 hkill k hk p hp
    exact killed_awake Pipe.guarded rfl Pipe.interruptible r h0 hkill hk p hp
  · intro input r h0 hkill k hk p hp
    exact killed_awake Input.guarded rfl Input.interruptible r h0 hkill hk p hp

/-- A check of `KillsOutside`, one step at a time. -/
def killsOutside (tested : L → Bool) (s : State P Λ C σ L) : Action P ι → Bool
  | .step p _ =>
    match s.pc p with
    | .update (.kill q) _ => !tested (s.locs q)
    | _ => true
  | _ => true

theorem not_tested_of_killsOutside {tested : L → Bool} {s : State P Λ C σ L}
    {a : Action P ι} {q : P}
    (h : killsOutside tested s a = true) (hk : Kills s a q) : ¬ tested (s.locs q) = true := by
  obtain ⟨p, x, next, rfl, hpc⟩ := hk
  simpa [killsOutside, hpc] using h

/-- Thread `false` sleeps in `sys_sleep`, thread `true` kills it, and it returns. -/
def killedActions : List (Action Bool (Ticks.Call Bool)) :=
  List.replicate 7 (.step false (.sysSleep 1)) ++ [.release] ++
    List.replicate 3 (.step true (.kill false)) ++ [.acquire, .dispatch false] ++
    List.replicate 6 (.step false (.sysSleep 1))

def killedRun : Run (step (Ticks.code (P := Bool))) :=
  Run.ofActions (State.init .idle 0) killedActions (by decide +kernel)

theorem kill_interrupts_wait_killedRun :
    ((killedRun.state 7).proc false).state = .sleeping ∧ NeverAsleepKilled killedRun := by
  refine ⟨by decide +kernel, ?_⟩
  refine (kill_interrupts_wait (0 : Fin 1)).2.1 0 killedRun rfl fun k hk q => ?_
  have hall : Run.always (step (Ticks.code (P := Bool))) (killsOutside Ticks.Loc.tested)
      (State.init .idle 0) killedActions = true := by decide +kernel
  exact not_tested_of_killsOutside (Run.always_ofActions hall _ hk)

/-! ### Killed in the window -/

/-- Thread `false` makes `n` steps of the call `x`, up to the window before `sleep`; thread
`true` kills it; and thread `false` makes `m` more steps and is asleep. -/
def windowActions (x kill : ι) (n m : ℕ) : List (Action Bool ι) :=
  List.replicate n (.step false x) ++ List.replicate 3 (.step true kill) ++
    List.replicate m (.step false x) ++ [.release]

/-- All locks are free and thread `false` is asleep on `chan`, killed. -/
def stuck [DecidableEq C] (chan : C) (s : State Bool Unit C σ L) : Bool :=
  s.lock .ptable = none ∧ s.lock (.spin ()) = none ∧ (s.proc false).state = .sleeping ∧
    (s.proc false).chan = some chan ∧ (s.proc false).killed

/-- In `sys_sleep`, `piperead`, `pipewrite` (of one byte more than fits) and `consoleread`. -/
theorem kill_in_window_sleeps :
    (∃ s, Reachable (Ticks.code (P := Bool)) .idle 0 s ∧ stuck () s = true) ∧
    (∃ s, Reachable (Pipe.code (P := Bool)) .idle Pipe.alloc s ∧ stuck .nread s = true) ∧
    (∃ s, Reachable (Pipe.code (P := Bool)) .idle Pipe.alloc s ∧ stuck .nwrite s = true) ∧
    (∃ s, Reachable (Input.code (P := Bool)) .idle Input.empty s ∧ stuck () s = true) := by
  refine ⟨?_, ?_, ?_, ?_⟩
  · exact Reachable.exists_of_execute _ _ _ (windowActions (.sysSleep 1) (.kill false) 4 3)
      (by decide +kernel)
  · exact Reachable.exists_of_execute _ _ _ (windowActions (.piperead 1) (.kill false) 3 3)
      (by decide +kernel)
  · exact Reachable.exists_of_execute _ _ _
      (windowActions (.pipewrite (List.replicate 513 0)) (.kill false) 515 6) (by decide +kernel)
  · exact Reachable.exists_of_execute _ _ _ (windowActions (.consoleread 1) (.kill false) 3 3)
      (by decide +kernel)

end Sync

end Xv6
