import Xv6.Proc.Dispatch

/-!
# The quantum

`scheduler` gives a process `INTERV` ticks, and `trap` counts them down to 0 before
it preempts the process. The kernel is the one of `Xv6.Proc.Step`, for any value of
`INTERV`.
-/

namespace Xv6

variable {ncpu : ℕ} {interv : Int32}

/-- What `scheduler` would leave in `s'` with another value of `INTERV`. -/
def retime (interv : Int32) (s : State ncpu) (a : Action ncpu) (s' : State ncpu) : State ncpu :=
  (dispatched s a).elim s' fun d =>
    if (s'.proc d.2).state = .running then
      s'.modify d.2 fun q => { q with time_slice := interv }
    else s'

/-- One step of the kernel compiled with `INTERV = interv`. -/
def stepWith (interv : Int32) (s : State ncpu) (a : Action ncpu) : Option (State ncpu) :=
  (step s a).map (retime interv s a)

/-- A timer interrupt of the process in slot `p`. -/
def Action.ticks (p : Slot) : Action ncpu → Bool
  | .call _ q .timer => decide (q = p)
  | _ => false

section Slices

variable {t : Ptable} {p i : Slot}

theorem Ptable.modify_slice (f : Proc → Proc) (hf : ∀ q, (f q).time_slice = q.time_slice) :
    (t.modify p f i).time_slice = (t i).time_slice := by
  by_cases hi : i = p
  · rw [hi, Ptable.modify_self, hf]
  · rw [Ptable.modify_of_ne _ _ hi]

variable {s s' : State ncpu} {a : Action ncpu} {c : Fin ncpu}

theorem wait_slice (k : WaitKind) : ((s.wait c p k).proc i).time_slice = (s.proc i).time_slice := by
  unfold State.wait
  split
  · exact Ptable.modify_slice _ fun q => by cases k <;> rfl
  · split
    · rfl
    · exact Ptable.modify_slice _ fun q => rfl

theorem exit_slice : ((s.exit c p).proc i).time_slice = (s.proc i).time_slice := by
  unfold State.exit
  split
  · rfl
  · have hzombie := Ptable.modify_slice (p := p) (i := i)
      (t := reparent (wakeup1 s.proc ((s.proc p).parent.map .proc)) p s.initproc)
      (fun q => { q with state := .zombie }) fun q => rfl
    refine hzombie.trans ?_
    rw [reparent_apply, wakeup1_apply]

theorem allocKstack_slice (x : Addr) :
    ((s.allocKstack p x).proc i).time_slice = (s.proc i).time_slice := by
  unfold State.allocKstack
  split
  · exact Ptable.modify_slice _ fun q => rfl
  · exact Ptable.modify_slice _ fun q => rfl

theorem allocproc_slice {np : Slot} (h : s.allocproc = some (np, s')) :
    (s'.proc i).time_slice = (s.proc i).time_slice := by
  obtain ⟨np', -, heq⟩ := Option.map_eq_some_iff.mp h
  obtain ⟨rfl, rfl⟩ := Prod.mk.inj heq
  exact Ptable.modify_slice _ fun q => rfl

theorem call_slice {x : Call} (hx : x ≠ .timer ∨ p ≠ i ∨ (s.proc i).time_slice = 0) :
    ((applyCall s c p x).proc i).time_slice = (s.proc i).time_slice := by
  cases x with
  | fork k =>
    simp only [applyCall, State.fork]
    split
    · rfl
    · next np s'' h => exact (show (s''.proc i).time_slice = _ from allocproc_slice h)
  | kalloc k np x => exact allocKstack_slice x
  | copyuvm k np x =>
    simp only [applyCall, State.forkCopyuvm]
    split
    · exact Ptable.modify_slice _ fun q => rfl
    · exact Ptable.modify_slice _ fun q => rfl
  | ready k np => exact Ptable.modify_slice _ fun q => rfl
  | exit => exact exit_slice
  | wait k => exact wait_slice k
  | yield => exact Ptable.modify_slice _ fun q => rfl
  | timer =>
    simp only [applyCall, State.timer]
    split
    · next h0 =>
      rcases hx with hx | hx | hx
      · exact absurd rfl hx
      · rw [State.modify_proc, Ptable.modify_of_ne _ _ hx.symm]
      · have hne : i ≠ p := by
          rintro rfl
          exact h0 hx
        rw [State.modify_proc, Ptable.modify_of_ne _ _ hne]
    · exact Ptable.modify_slice _ fun q => rfl
  | sleep chan => exact Ptable.modify_slice _ fun q => rfl
  | kill pid =>
    simp only [applyCall, kill]
    split
    · exact Ptable.modify_slice _ fun q => rfl
    · rfl
  | changePrio priority =>
    simp only [applyCall, sysChangePrio, changePrio]
    split
    · rfl
    · split
      · exact Ptable.modify_slice _ fun q => rfl
      · rfl
  | exec pgdir sz =>
    simp only [applyCall, State.exec]
    split
    · rfl
    · exact Ptable.modify_slice _ fun q => rfl
  | fault => exact Ptable.modify_slice _ fun q => rfl

/-- Only a dispatch and a timer interrupt of the process change its `time_slice`. -/
theorem slice_step (hs : step s a = some s') (hd : ∀ c, dispatched s a ≠ some (c, i))
    (ht : a.ticks i = false ∨ (s.proc i).time_slice = 0) :
    (s'.proc i).time_slice = (s.proc i).time_slice := by
  obtain ⟨-, rfl⟩ := step_eq_some_iff.mp hs
  cases a with
  | userinit c =>
    simp only [apply, State.userinit]
    split
    · rfl
    · next np s'' h => exact (show (s''.proc i).time_slice = _ from allocproc_slice h)
  | userinitKalloc c p x =>
    simp only [apply, State.userinitKalloc]
    split
    · exact allocKstack_slice x
    · exact allocKstack_slice x
  | userinitSetupkvm c p x =>
    simp only [apply, State.userinitSetupkvm]
    split
    · exact Ptable.modify_slice _ fun q => rfl
    · exact Ptable.modify_slice _ fun q => rfl
  | userinitReady c p => exact Ptable.modify_slice _ fun q => rfl
  | acquire c => rfl
  | select c j =>
    simp only [apply, State.select]
    cases hsel : select s.proc j with
    | none => rfl
    | some p =>
      have hne : i ≠ p := by
        rintro rfl
        exact hd c (dispatched_eq_some_iff.mpr ⟨j, rfl, hsel⟩)
      simp only [State.dispatch]
      split
      · rfl
      · split
        · rfl
        · exact congrArg Proc.time_slice (Ptable.modify_of_ne _ _ hne)
  | account c p => rfl
  | resume c p =>
    simp only [apply, State.resume]
    split
    · rfl
    · rfl
    · exact Ptable.modify_slice _ fun q => rfl
    · rw [wait_slice]
      exact Ptable.modify_slice _ fun q => rfl
  | call c p x =>
    refine call_slice ?_
    rcases ht with ht | ht
    · by_cases hx : x = .timer
      · subst hx
        exact Or.inr (Or.inl (by simpa [Action.ticks] using ht))
      · exact Or.inl hx
    · exact Or.inr (Or.inr ht)
  | wakeup chan =>
    simp only [apply]
    rw [wakeup1_apply]

/-- A timer interrupt takes a tick, or preempts the process when it has none. -/
theorem tick_step {p : Slot} (hs : step s a = some s') (ha : a.ticks p = true) :
    if (s.proc p).time_slice = 0 then (s'.proc p).state = .runnable
    else s'.proc p = { s.proc p with time_slice := (s.proc p).time_slice - 1 } := by
  obtain ⟨-, rfl⟩ := step_eq_some_iff.mp hs
  cases a with
  | call c q x =>
    cases x with
    | timer =>
      obtain rfl : q = p := by simpa [Action.ticks] using ha
      simp only [apply, applyCall, State.timer]
      split
      · next h0 =>
        rw [if_neg (by simpa using h0)]
        simp [State.yield, State.sched]
      · next h0 =>
        simp
    | _ => simp [Action.ticks] at ha
  | _ => simp [Action.ticks] at ha

end Slices

section With

variable {interv : Int32} {s s' : State ncpu} {a : Action ncpu} {p : Slot}

/-- The kernel of `Xv6.Proc.Step` is the one with its own `INTERV`. -/
theorem stepWith_INTERV (h : Inv s) : stepWith INTERV s a = step s a := by
  unfold stepWith
  cases hs : step s a with
  | none => rfl
  | some s' =>
    rw [Option.map_some, Option.some.injEq, retime]
    cases hd : dispatched s a with
    | none => rfl
    | some d =>
      obtain ⟨c, q⟩ := d
      obtain ⟨-, -, rfl⟩ := dispatch_step h hs hd
      simp [Proc.dispatch, State.modify, State.setCpu, Ptable.modify]

theorem stepWith_eq_some (hs : stepWith interv s a = some s') :
    ∃ s₁, step s a = some s₁ ∧ s' = retime interv s a s₁ := by
  obtain ⟨s₁, hs₁, rfl⟩ := Option.map_eq_some_iff.mp hs
  exact ⟨s₁, hs₁, rfl⟩

/-- Except for the `time_slice` of the process that it dispatches, the kernel does the same. -/
theorem retime_proc_of_ne {s₁ : State ncpu} (hd : ∀ c, dispatched s a ≠ some (c, p)) :
    (retime interv s a s₁).proc p = s₁.proc p := by
  unfold retime
  cases hda : dispatched s a with
  | none => rfl
  | some d =>
    have hne : p ≠ d.2 := by
      rintro rfl
      exact hd d.1 hda
    simp only [Option.elim_some]
    split
    · simp [Ptable.modify_of_ne _ _ hne]
    · rfl

variable (h : Inv s) (hs : stepWith interv s a = some s')
include h hs

/-- Whatever its `INTERV`, the kernel keeps its invariant. -/
theorem inv_stepWith : Inv s' := by
  obtain ⟨s₁, hs₁, rfl⟩ := stepWith_eq_some hs
  have h₁ := h.step hs₁
  unfold retime
  cases dispatched s a with
  | none => exact h₁
  | some d =>
    simp only [Option.elim_some]
    split
    · exact h₁.modify_quiet d.2 _ ⟨id, id, Or.inl rfl⟩
    · exact h₁

/-- A dispatched process runs with a full quantum. -/
theorem dispatch_stepWith {c : Fin ncpu} (hd : dispatched s a = some (c, p)) :
    (s'.proc p).state = .running ∧ (s'.proc p).time_slice = interv := by
  obtain ⟨s₁, hs₁, rfl⟩ := stepWith_eq_some hs
  obtain ⟨-, -, rfl⟩ := dispatch_step h hs₁ hd
  simp [retime, hd, Proc.dispatch]

/-- A process runs on, or has just been dispatched. -/
theorem running_of_stepWith (hp : (s'.proc p).state = .running)
    (hd : ∀ c, dispatched s a ≠ some (c, p)) :
    (s.proc p).state = .running := by
  obtain ⟨s₁, hs₁, rfl⟩ := stepWith_eq_some hs
  rw [retime_proc_of_ne hd] at hp
  have heff := step_effect h hs₁ p
  generalize s₁.proc p = x at heff hp
  cases heff with
  | keep | account | changePrio | fill | own | fault => exact hp
  | alloc | drop | publish => simp [Proc.alloc] at hp
  | dispatch c _ hdc => exact absurd hdc (hd c)
  | leave _ _ _ _ hr => exact absurd hp hr
  | wake state hst =>
    rcases hst with hst | ⟨-, hst⟩
    · rw [← hst]
      exact hp
    · rw [hst] at hp
      simp at hp
  | kill =>
    simp only [Proc.kill] at hp
    split at hp
    · simp at hp
    · exact hp
  | reap _ k => cases k <;> simp [Proc.reap] at hp

/-- A process that runs on loses one tick with each timer interrupt, and has one to lose. -/
theorem slice_stepWith (hp : (s.proc p).state = .running)
    (hp' : (s'.proc p).state = .running) :
    if a.ticks p = true then (s.proc p).time_slice ≠ 0 ∧
      (s'.proc p).time_slice = (s.proc p).time_slice - 1
    else (s'.proc p).time_slice = (s.proc p).time_slice := by
  obtain ⟨s₁, hs₁, rfl⟩ := stepWith_eq_some hs
  have hd : ∀ c, dispatched s a ≠ some (c, p) := fun c hdc => by
    have := (dispatch_step h hs₁ hdc).1
    rw [hp] at this
    simp at this
  rw [retime_proc_of_ne hd] at hp' ⊢
  split
  · next ht =>
    have htick := tick_step hs₁ ht
    split at htick
    · rw [htick] at hp'
      simp at hp'
    · next h0 => exact ⟨h0, by rw [htick]⟩
  · next ht => exact slice_step hs₁ hd (Or.inl (by simpa using ht))

end With

/-! ### Ticks -/

/-- A tick can be taken from a positive count. -/
theorem toInt_sub_one {x : Int32} (h : 0 ≤ x.toInt) : (x - 1).toInt = x.toInt - 1 := by
  have hlt := Int32.toInt_lt x
  have h1 : (1 : Int32).toInt = 1 := by decide
  rw [Int32.toInt_sub, h1]
  exact Int.bmod_eq_of_le (by omega) (by omega)

section Runs

variable {interv : Int32} {bsp : Fin ncpu} (r : Run (@stepWith ncpu interv))
  (h0 : r.state 0 = State.boot bsp)
include h0

theorem inv_alongWith {k : ℕ} (hk : k ≤ r.length) : Inv (r.state k) := by
  refine r.invariant ?_ (fun _ _ _ hI hs => inv_stepWith hI hs) hk
  rw [h0]
  exact Reachable.boot.inv

/-- A running process never has more than its quantum, nor less than nothing. -/
theorem slice_bounds (hi : 0 ≤ interv.toInt) {k : ℕ}
    (hk : k ≤ r.length) (p : Slot) (hp : ((r.state k).proc p).state = .running) :
    0 ≤ ((r.state k).proc p).time_slice.toInt ∧
      ((r.state k).proc p).time_slice.toInt ≤ interv.toInt := by
  refine r.induct_between (P := fun m => ((r.state m).proc p).state = .running →
    0 ≤ ((r.state m).proc p).time_slice.toInt ∧
      ((r.state m).proc p).time_slice.toInt ≤ interv.toInt) (Nat.zero_le k) hk ?_ ?_ hp
  · rw [h0]
    intro h
    simp [State.boot, Proc.zero] at h
  · intro m _ hm hs ih hrun
    have hI := inv_alongWith r h0 (by omega : m ≤ r.length)
    by_cases hd : ∃ c, dispatched (r.state m) (r.action m) = some (c, p)
    · obtain ⟨c, hd⟩ := hd
      rw [(dispatch_stepWith hI hs hd).2]
      exact ⟨hi, le_rfl⟩
    · have hprev := running_of_stepWith hI hs hrun fun c hc => hd ⟨c, hc⟩
      have hslice := slice_stepWith hI hs hprev hrun
      have hb := ih hprev
      split at hslice
      · rw [hslice.2, toInt_sub_one hb.1]
        have hne : ((r.state m).proc p).time_slice.toInt ≠ 0 := fun h =>
          hslice.1 (Int32.toInt.inj h)
        omega
      · rw [hslice]
        exact hb

/-- The timer interrupts of the process in slot `p` in the steps from `i` up to `j`. -/
def ticksIn (p : Slot) (i j : ℕ) : ℕ := r.count (fun _ a => a.ticks p = true) i j

/-- As long as it runs, a process has what its timer interrupts have left of its quantum. -/
theorem slice_after (hi : 0 ≤ interv.toInt) {j k : ℕ}
    {c : Fin ncpu} {p : Slot} (hjk : j < k) (hk : k ≤ r.length)
    (hd : dispatched (r.state j) (r.action j) = some (c, p))
    (hrun : ∀ m, j < m → m ≤ k → ((r.state m).proc p).state = .running) :
    ((r.state k).proc p).time_slice.toInt = interv.toInt - ticksIn r p (j + 1) k := by
  refine r.induct_between
    (P := fun m => ((r.state m).proc p).time_slice.toInt = interv.toInt - ticksIn r p (j + 1) m)
    (show j + 1 ≤ k from hjk) hk ?_ ?_
  · have hI := inv_alongWith r h0 (by omega : j ≤ r.length)
    rw [(dispatch_stepWith hI (r.next j (by omega)) hd).2, ticksIn, Run.count_self]
    simp
  · intro m hjm hmk hs ih
    have hI := inv_alongWith r h0 (by omega : m ≤ r.length)
    have hrm := hrun m hjm hmk.le
    have hslice := slice_stepWith hI hs hrm (hrun (m + 1) (by omega) hmk)
    rw [ticksIn, Run.count_succ _ _ hjm]
    rw [ticksIn] at ih
    split at hslice
    · next ht =>
      have hb := slice_bounds r h0 hi (by omega : m ≤ r.length) p hrm
      rw [hslice.2, toInt_sub_one hb.1, ih, if_pos ht]
      omega
    · next ht =>
      rw [hslice, ih, if_neg ht]
      simp

end Runs

/-- In every run, a process that stays `RUNNING` is preempted by the `n`th timer interrupt after its
dispatch and by no other. -/
def PreemptedAt (ncpu : ℕ) (interv : Int32) (n : ℕ) : Prop :=
  ∀ (bsp : Fin ncpu) (r : Run (@stepWith ncpu interv)), r.state 0 = State.boot bsp →
    ∀ j k c p, j < k → k < r.length → dispatched (r.state j) (r.action j) = some (c, p) →
      (∀ m, j < m → m ≤ k → ((r.state m).proc p).state = .running) →
      (r.action k).ticks p = true →
      (((r.state (k + 1)).proc p).state = .runnable ↔ ticksIn r p (j + 1) (k + 1) = n)

theorem preemptedAt_succ (hi : 0 ≤ interv.toInt) :
    PreemptedAt ncpu interv (interv.toInt.toNat + 1) := by
  intro bsp r h0 j k c p hjk hk hd hrun ht
  have hI := inv_alongWith r h0 hk.le
  have hslice := slice_after r h0 hi hjk hk.le hd hrun
  obtain ⟨s₁, hs₁, heq⟩ := stepWith_eq_some (r.next k hk)
  have htick := tick_step hs₁ ht
  have hnd : ∀ c, dispatched (r.state k) (r.action k) ≠ some (c, p) := fun c hdc => by
    have := (dispatch_step hI hs₁ hdc).1
    rw [hrun k hjk le_rfl] at this
    simp at this
  rw [heq, retime_proc_of_ne hnd, ticksIn, Run.count_succ _ _ (by omega), if_pos ht]
  rw [ticksIn] at hslice
  split at htick
  · next hz =>
    rw [hz] at hslice
    have hzero : (0 : Int32).toInt = 0 := by decide
    exact iff_of_true htick (by omega)
  · next hz =>
    have hne : ((r.state k).proc p).time_slice.toInt ≠ 0 := fun h => hz (Int32.toInt.inj h)
    refine iff_of_false ?_ (by omega)
    rw [htick]
    simp [hrun k hjk le_rfl]

/-! ### A process that only computes -/

/-- One CPU up to the first selection. -/
def selecting : State 1 := State.after cpu0 (bootActions.take 5)

/-- The first process runs with `w` ticks left. -/
def computing (w : Int32) : State 1 :=
  ((apply selecting (.select cpu0 0)).modify 0 fun q => { q with time_slice := w }).setLock none

theorem computing_tick {w : Int32} (hw : w ≠ 0) :
    stepWith interv (computing w) (.call cpu0 0 .timer) = some (computing (w - 1)) := by
  have hslice : ((computing w).proc 0).time_slice = w := by simp [computing]
  have hstep : step (computing w) (.call cpu0 0 .timer) = some (computing (w - 1)) := by
    refine step_eq_some_iff.mpr ⟨⟨?_, ?_, ?_, ?_, ?_⟩, ?_⟩
    · change (apply selecting (.select cpu0 0)).panic = none
      decide +kernel
    · change ((apply selecting (.select cpu0 0)).cpu cpu0).pc = .swtch 0
      decide +kernel
    · simp [computing]
    · intro _
      rfl
    · exact Or.inl rfl
    · simp only [apply, applyCall, State.timer, hslice]
      rw [if_pos hw]
      simp [computing, State.modify, State.setLock, Ptable.modify]
  rw [stepWith, hstep]
  rfl

/-- Without a selection the value of `INTERV` does not matter. -/
theorem execute_of_no_select {s : State ncpu} {l : List (Action ncpu)}
    (hl : ∀ a ∈ l, ∀ c i, a ≠ .select c i) :
    Run.execute (stepWith interv) s l = Run.execute step s l := by
  induction l generalizing s with
  | nil => rfl
  | cons a l ih =>
    have hd : dispatched s a = none := by
      cases a with
      | select c i => exact absurd rfl (hl _ List.mem_cons_self c i)
      | _ => rfl
    have hstep : stepWith interv s a = step s a := by
      rw [stepWith]
      cases step s a with
      | none => rfl
      | some s' => rw [Option.map_some, retime, hd]; rfl
    rw [Run.execute, Run.execute, hstep]
    congr 1
    funext s'
    exact ih fun a ha => hl a (List.mem_cons_of_mem _ ha)

theorem execute_selecting (interv : Int32) :
    Run.execute (stepWith interv) (State.boot cpu0) (bootActions.take 5) = some selecting := by
  rw [execute_of_no_select fun a ha c i => by
    simp only [bootActions, List.take_succ_cons, List.take_zero, List.mem_cons, List.not_mem_nil,
      or_false] at ha
    rcases ha with rfl | rfl | rfl | rfl | rfl <;> simp]
  have hsome : (Run.execute step (State.boot cpu0) (bootActions.take 5)).isSome := by decide +kernel
  obtain ⟨s, hs⟩ := Option.isSome_iff_exists.mp hsome
  rw [hs, selecting, State.after, hs]
  rfl

theorem execute_boot (interv : Int32) :
    Run.execute (stepWith interv) (State.boot cpu0) bootActions = some (computing interv) := by
  have hdisp : stepWith interv selecting (.select cpu0 0) =
      some ((apply selecting (.select cpu0 0)).modify 0
      fun q => { q with time_slice := interv }) := by
    have hstep : step selecting (.select cpu0 0) = some (apply selecting (.select cpu0 0)) :=
      step_eq_some_iff.mpr ⟨by decide +kernel, rfl⟩
    have hd : dispatched selecting (.select cpu0 0) = some (cpu0, 0) := by decide +kernel
    have hrun : ((apply selecting (.select cpu0 0)).proc 0).state = .running := by decide +kernel
    rw [stepWith, hstep, Option.map_some, retime, hd, Option.elim_some, if_pos hrun]
  have hresume : stepWith interv
      ((apply selecting (.select cpu0 0)).modify 0 fun q => { q with time_slice := interv })
      (.resume cpu0 0) = some (computing interv) := by
    have hres : ((apply selecting (.select cpu0 0)).thread 0).resume = .forkret := by decide +kernel
    have hstep : step
        ((apply selecting (.select cpu0 0)).modify 0 fun q => { q with time_slice := interv })
        (.resume cpu0 0) = some (computing interv) := by
      refine step_eq_some_iff.mpr ⟨⟨?_, ?_, ?_⟩, ?_⟩
      · change (apply selecting (.select cpu0 0)).panic = none
        decide +kernel
      · change ((apply selecting (.select cpu0 0)).cpu cpu0).pc = .swtch 0
        decide +kernel
      · change (apply selecting (.select cpu0 0)).lock = some cpu0
        decide +kernel
      · simp only [apply, State.resume, State.modify_thread]
        rw [show ((State.select selecting cpu0 0).thread 0).resume = .forkret from hres]
        rfl
    rw [stepWith, hstep]
    rfl
  have hsplit : bootActions = bootActions.take 5 ++ [.select cpu0 0] ++ [.resume cpu0 0] := rfl
  rw [hsplit, Run.execute_concat, Run.execute_concat, execute_selecting, Option.bind_some, hdisp,
    Option.bind_some, hresume]

/-- What is left of the quantum after `i` ticks. -/
def ticksLeft (interv : Int32) (i : ℕ) : Int32 := (fun w => w - 1)^[i] interv

theorem ticksLeft_toInt {i : ℕ} (hi : (i : ℤ) ≤ interv.toInt) :
    (ticksLeft interv i).toInt = interv.toInt - i := by
  induction i with
  | zero => simp [ticksLeft]
  | succ i ih =>
    have hprev := ih (by omega)
    rw [ticksLeft] at hprev
    rw [ticksLeft, Function.iterate_succ_apply', toInt_sub_one (by omega), hprev]
    omega

/-- The first process runs for `i` ticks. -/
def computeActions (i : ℕ) : List (Action 1) :=
  bootActions ++ List.replicate i (.call cpu0 0 .timer)

theorem execute_compute {i : ℕ} (hi : (i : ℤ) ≤ interv.toInt) :
    Run.execute (stepWith interv) (State.boot cpu0) (computeActions i) =
      some (computing (ticksLeft interv i)) := by
  induction i with
  | zero => rw [computeActions, List.replicate_zero, List.append_nil, execute_boot]; rfl
  | succ i ih =>
    have hne : ticksLeft interv i ≠ 0 := fun h => by
      have := ticksLeft_toInt (by omega : (i : ℤ) ≤ interv.toInt)
      rw [h] at this
      have hzero : (0 : Int32).toInt = 0 := by decide
      omega
    have hsplit : computeActions (i + 1) = computeActions i ++ [.call cpu0 0 .timer] := by
      rw [computeActions, computeActions, List.replicate_succ', List.append_assoc]
    rw [hsplit, Run.execute_concat, ih (by omega), Option.bind_some, computing_tick hne, ticksLeft,
      ticksLeft, Function.iterate_succ_apply']

/-- The run of `computeActions`. -/
def computeRun (interv : Int32) (i : ℕ) (hi : (i : ℤ) ≤ interv.toInt) :
    Run (@stepWith 1 interv) :=
  Run.ofActions (State.boot cpu0) (computeActions i) (by rw [execute_compute hi]; rfl)

theorem computeRun_state {i m : ℕ} (hi : (i : ℤ) ≤ interv.toInt) (hm : m ≤ i) :
    (computeRun interv i hi).state (7 + m) = computing (ticksLeft interv m) := by
  have htake : (computeActions i).take (7 + m) = computeActions m := by
    rw [computeActions, List.take_append, List.take_of_length_le (by simp [bootActions])]
    simp [bootActions, computeActions, hm]
  change (Run.execute (stepWith interv) (State.boot cpu0) ((computeActions i).take (7 + m))).getD
    (State.boot cpu0) = _
  rw [htake, execute_compute (by omega)]
  rfl

theorem computeRun_selecting {i : ℕ} (hi : (i : ℤ) ≤ interv.toInt) :
    (computeRun interv i hi).state 5 = selecting := by
  have htake : (computeActions i).take 5 = bootActions.take 5 :=
    List.take_append_of_le_length (by simp [bootActions])
  change (Run.execute (stepWith interv) (State.boot cpu0) ((computeActions i).take 5)).getD
    (State.boot cpu0) = _
  rw [htake, execute_selecting]
  rfl

theorem computeRun_ticks {i m : ℕ} (hi : (i : ℤ) ≤ interv.toInt) (hm : m < i) :
    ((computeRun interv i hi).action (7 + m)).ticks 0 = true := by
  have hget : (computeActions i)[7 + m]? = some (.call cpu0 0 .timer) := by
    rw [computeActions, List.getElem?_append_right (by simp [bootActions])]
    simp [bootActions, hm]
  change ((computeActions i).getD (7 + m) default).ticks 0 = true
  rw [List.getD_eq_getElem?_getD, hget]
  rfl

theorem computing_running (w : Int32) : ((computing w).proc 0).state = .running := by
  have hrun : ((apply selecting (.select cpu0 0)).proc 0).state = .running := by decide +kernel
  simp [computing, hrun]

/-- A process that only computes is still running after its `INTERV`th timer interrupt. -/
theorem not_preemptedAt (hi : 1 ≤ interv.toInt) : ¬ PreemptedAt 1 interv interv.toInt.toNat := by
  intro hpre
  obtain ⟨n, hn⟩ : ∃ n : ℕ, interv.toInt = n + 1 := ⟨interv.toInt.toNat - 1, by omega⟩
  have hni : ((n + 1 : ℕ) : ℤ) ≤ interv.toInt := by omega
  have hstate := fun m => computeRun_state (m := m) hni
  have hsel := computeRun_selecting hni
  have htick := computeRun_ticks hni (Nat.lt_succ_self n)
  have h0 : (computeRun interv (n + 1) hni).state 0 = State.boot cpu0 := rfl
  have hact : (computeRun interv (n + 1) hni).action 5 = .select cpu0 0 := rfl
  have hlen : (computeRun interv (n + 1) hni).length = 7 + (n + 1) := by
    change (computeActions (n + 1)).length = _
    rw [computeActions, List.length_append, List.length_replicate]
    rfl
  generalize computeRun interv (n + 1) hni = r at *
  have hd : dispatched (r.state 5) (r.action 5) = some (cpu0, 0) := by
    rw [hsel, hact]
    decide +kernel
  have hrun : ∀ m, 5 < m → m ≤ 7 + (n + 1) → ((r.state m).proc 0).state = .running := by
    intro m hm hle
    obtain rfl | ⟨i, rfl⟩ : m = 5 + 1 ∨ ∃ i, m = 7 + i := by
      by_cases h6 : m = 5 + 1
      · exact Or.inl h6
      · exact Or.inr ⟨m - 7, by omega⟩
    · exact (dispatch_stepWith (inv_alongWith r h0 (by omega)) (r.next 5 (by omega)) hd).1
    · rw [hstate i (by omega)]
      exact computing_running _
  have hslice := slice_after r h0 (by omega) (by omega : 5 < 7 + n) (by omega) hd
    fun m hm hle => hrun m hm (by omega)
  rw [hstate n (by omega)] at hslice
  have hleft : ((computing (ticksLeft interv n)).proc 0).time_slice = ticksLeft interv n := by
    simp [computing]
  rw [hleft, ticksLeft_toInt (by omega)] at hslice
  have hcount : ticksIn r 0 (5 + 1) (7 + n + 1) = interv.toInt.toNat := by
    rw [ticksIn, Run.count_succ _ _ (by omega), if_pos htick]
    rw [ticksIn] at hslice
    omega
  have hyield := (hpre cpu0 r h0 5 (7 + n) cpu0 0 (by omega) (by omega) hd
    (fun m hm hle => hrun m hm (by omega)) htick).mpr hcount
  rw [hrun (7 + n + 1) (by omega) (by omega)] at hyield
  simp at hyield

/-- With any `INTERV`, the `time_slice` of a `RUNNING` process is between 0 and `INTERV`. A process
that stays `RUNNING` is preempted by the timer interrupt after the `INTERV`th one, and so not by the
`INTERV`th. -/
theorem quantum_one_too_long (interv : Int32) (hi : 1 ≤ interv) :
    (∀ (bsp : Fin ncpu) (r : Run (@stepWith ncpu interv)), r.state 0 = State.boot bsp →
      ∀ k ≤ r.length, ∀ p, ((r.state k).proc p).state = .running →
        0 ≤ ((r.state k).proc p).time_slice ∧ ((r.state k).proc p).time_slice ≤ interv) ∧
    PreemptedAt ncpu interv (interv.toInt.toNat + 1) ∧
    ¬ PreemptedAt 1 interv interv.toInt.toNat := by
  have hpos : 1 ≤ interv.toInt := by
    have := Int32.le_iff_toInt_le.mp hi
    have h1 : (1 : Int32).toInt = 1 := by decide
    omega
  refine ⟨fun bsp r h0 k hk p hp => ?_, preemptedAt_succ (by omega), not_preemptedAt hpos⟩
  have hb := slice_bounds r h0 (by omega) hk p hp
  have hzero : (0 : Int32).toInt = 0 := by decide
  exact ⟨Int32.le_iff_toInt_le.mpr (by omega), Int32.le_iff_toInt_le.mpr hb.2⟩

theorem quantum_one_too_long_INTERV : PreemptedAt 1 INTERV 6 ∧ ¬ PreemptedAt 1 INTERV 5 :=
  (@quantum_one_too_long 1 INTERV (by decide)).2

/-- With `INTERV = 5` the first process, which only computes, is `RUNNING` after five timer
interrupts. -/
theorem fifth_tick_keeps_running : ¬ PreemptedAt 1 INTERV 5 := not_preemptedAt (by decide)

end Xv6
