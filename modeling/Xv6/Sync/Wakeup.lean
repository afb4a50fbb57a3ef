import Xv6.Sync.Machine

/-!
# No wakeup is lost

A thread that waits for a condition tests it under a lock `lk` and calls
`sleep(chan, lk)` when it is false; a thread that makes it true does so under `lk`
and calls `wakeup(chan)` afterwards. `sleep` takes `ptable.lock` before it lets
go of `lk`, so between the test and the moment the thread is `SLEEPING` one of
the two locks is held, and the waker, which needs both one after the other,
finds it asleep.
-/

namespace Xv6.Sync

open Function

variable {P Λ C σ L ι : Type}

/-- A condition on the shared data, the channel on which threads wait for it and
the lock that protects it. At the local states `knows` the code has found the
condition false and holds the lock since; at those of `pending` it has made
the condition true and has yet to call `wakeup`. -/
structure Protocol (Λ C σ L : Type) where
  chan : C
  lk : Lock Λ
  cond : σ → Prop
  knows : L → Prop
  pending : L → Prop

/-- What `w` asks of an operation at data `d` and local state `l`. -/
def Op.Careful (w : Protocol Λ C σ L) (holds : L → Set (Lock Λ)) (d : σ) (l : L) :
    Op P Λ C σ L → Prop
  | .access f =>
    (w.knows (f d).2 → ¬ w.cond (f d).1) ∧
    (¬ w.cond d → w.cond (f d).1 → w.lk ∈ holds l ∧ w.pending (f d).2) ∧
    (w.pending l → w.pending (f d).2)
  | .sleep chan lk next =>
    (chan = w.chan → lk = w.lk ∧ w.knows l) ∧ ¬ w.knows next ∧ (w.pending l → w.pending next)
  | .update u next =>
    (w.knows next → w.knows l) ∧ (w.pending l → u = .wakeup1 w.chan ∨ w.pending next)
  | .acquire _ next | .release _ next =>
    (w.knows next → w.knows l) ∧ (w.pending l → w.pending next)
  | .killed yes no =>
    (w.knows yes ∨ w.knows no → w.knows l) ∧ (w.pending l → w.pending yes ∧ w.pending no)

/-- An access that leaves the condition as it is. -/
theorem Op.careful_access {w : Protocol Λ C σ L} {holds : L → Set (Lock Λ)} {d : σ} {l : L}
    {f : σ → σ × L} (hcond : w.cond (f d).1 ↔ w.cond d) (hknows : w.knows (f d).2 → ¬ w.cond d)
    (hpend : w.pending l → w.pending (f d).2) :
    (Op.access f : Op P Λ C σ L).Careful w holds d l :=
  ⟨fun h => hcond.not.mpr (hknows h), fun h h' => absurd (hcond.mp h') h, hpend⟩

/-- The code keeps to `w` wherever the invariant `I` of the client holds. -/
structure Careful (code : P → L → ι → Option (Op P Λ C σ L)) (holds : L → Set (Lock Λ))
    (I : σ → (P → L) → Prop) (w : Protocol Λ C σ L) : Prop where
  knows_held : ∀ l, w.knows l → w.lk ∈ holds l
  op : ∀ d ls p x op, I d ls → code p (ls p) x = some op → op.Careful w holds d (ls p)

/-- The thread has made the condition true and its `wakeup` has not woken anybody yet. -/
def Protocol.Pending (w : Protocol Λ C σ L) (c : Pc P Λ C L) : Prop :=
  w.pending c.loc ∨ ∃ next, c = .update (.wakeup1 w.chan) next

/-- Inside `sleep`. -/
def Pc.InSleep : Pc P Λ C L → Prop
  | .run _ | .update _ _ | .unlock _ => False
  | _ => True

/-- The thread sleeps on the channel, or is on its way inside `sleep`. -/
def Protocol.Drowsy (w : Protocol Λ C σ L) (s : State P Λ C σ L) (p : P) : Prop :=
  match s.pc p with
  | .sleepRelease chan _ _ | .sleepSet chan _ _ => chan = w.chan
  | .sched chan _ _ => chan = w.chan ∧ (s.proc p).state = .sleeping
  | _ => False

structure Awake (w : Protocol Λ C σ L) (s : State P Λ C σ L) : Prop where
  asleep : ∀ p, (s.pc p).InSleep → ¬ w.knows (s.locs p)
  knows : ∀ p, w.knows (s.locs p) → ¬ w.cond s.data
  pending : w.cond s.data → (∃ q, w.Pending (s.pc q)) ∨ ∀ p, ¬ w.Drowsy s p

section Awake

variable {w : Protocol Λ C σ L} {holds : L → Set (Lock Λ)} {s s' : State P Λ C σ L} {p q : P}
  {c : Pc P Λ C L}

theorem Pc.subset_held (hc : ¬ c.InSleep) (st : ProcState) : holds c.loc ⊆ c.held holds st := by
  cases c with
  | run l => exact subset_rfl
  | update u next => exact Set.subset_insert _ _
  | unlock next => exact Set.subset_insert _ _
  | _ => exact absurd trivial hc

theorem Protocol.drowsy_congr (hpc : s'.pc p = s.pc p)
    (hst : (s'.proc p).state = .sleeping → (s.proc p).state = .sleeping) (h : w.Drowsy s' p) :
    w.Drowsy s p := by
  unfold Protocol.Drowsy at h ⊢
  rw [hpc] at h
  cases hc : s.pc p <;> simp only [hc] at h ⊢
  · exact h
  · exact h
  · exact ⟨h.1, hst h.2⟩

theorem Protocol.pending_iff (hc : ∀ u next, c ≠ .update u next) :
    w.Pending c ↔ w.pending c.loc := by
  refine ⟨fun h => h.resolve_right ?_, Or.inl⟩
  rintro ⟨next, rfl⟩
  exact hc _ _ rfl

theorem Protocol.pending_update {u : Update P C} {next : L} :
    w.Pending (.update u next : Pc P Λ C L) ↔ w.pending next ∨ u = .wakeup1 w.chan := by
  unfold Protocol.Pending
  refine or_congr Iff.rfl ⟨?_, ?_⟩
  · rintro ⟨next', h⟩
    exact (Pc.update.inj h).1
  · rintro rfl
    exact ⟨next, rfl⟩

section

variable (h : Awake w s) (hdata : s'.data = s.data) (hpc : ∀ q ≠ p, s'.pc q = s.pc q)
include h hdata hpc

/-- Only what `p` does needs a proof when the step is one of `p` and not an access. -/
theorem Awake.of_thread
    (hst : ∀ q ≠ p, (s'.proc q).state = .sleeping → (s.proc q).state = .sleeping)
    (hasleep : (s'.pc p).InSleep → ¬ w.knows (s'.locs p))
    (hknows : w.knows (s'.locs p) → w.knows (s.locs p))
    (hpend : w.Pending (s.pc p) → w.Pending (s'.pc p) ∨ ∀ q, ¬ w.Drowsy s' q)
    (hdrowsy : w.Drowsy s' p → w.Drowsy s p ∨ ¬ w.cond s.data) : Awake w s' := by
  have hlocs : ∀ q ≠ p, s'.locs q = s.locs q := fun q hq => by
    rw [State.locs, State.locs, hpc q hq]
  refine ⟨fun q hq => ?_, fun q hq => ?_, fun hcond => ?_⟩
  · by_cases hqp : q = p
    · exact hqp ▸ hasleep (hqp ▸ hq)
    · rw [hlocs q hqp]
      exact h.asleep q (hpc q hqp ▸ hq)
  · rw [hdata]
    by_cases hqp : q = p
    · exact h.knows p (hknows (hqp ▸ hq))
    · exact h.knows q (hlocs q hqp ▸ hq)
  · rw [hdata] at hcond
    obtain ⟨q, hq⟩ | hno := h.pending hcond
    · by_cases hqp : q = p
      · subst hqp
        exact (hpend hq).imp (⟨q, ·⟩) id
      · exact Or.inl ⟨q, by rwa [hpc q hqp]⟩
    · refine Or.inr fun q hq => ?_
      by_cases hqp : q = p
      · subst hqp
        obtain hd | hd := hdrowsy hq
        · exact hno q hd
        · exact hd hcond
      · exact hno q (Protocol.drowsy_congr (hpc q hqp) (hst q hqp) hq)

/-- A step of a thread in its own code, or back to it. -/
theorem Awake.of_run (hproc : s'.proc = s.proc) (hp : s'.pc p = c) (hc : ¬ c.InSleep)
    (hknows : w.knows c.loc → w.knows (s.locs p)) (hpend : w.Pending (s.pc p) → w.Pending c) :
    Awake w s' := by
  subst hp
  refine h.of_thread hdata hpc (fun q _ hq => hproc ▸ hq) (fun hin => absurd hin hc) hknows
    (fun hq => Or.inl (hpend hq)) fun hd => ?_
  unfold Protocol.Drowsy at hd
  cases hc' : s'.pc p <;> simp [hc', Pc.InSleep] at hd hc

/-- Inside `sleep`: the local state stays, and nobody new is on the way to sleep. -/
theorem Awake.of_sleep {e : Pc P Λ C L} (hst : ∀ q ≠ p, s'.proc q = s.proc q) (hp : s.pc p = c)
    (hp' : s'.pc p = e) (hloc : e.loc = c.loc) (hc : c.InSleep) (he : ∀ u next, e ≠ .update u next)
    (hdrowsy : w.Drowsy s' p → w.Drowsy s p) : Awake w s' := by
  have hlocs : s'.locs p = s.locs p := by rw [State.locs, State.locs, hp, hp', hloc]
  have hcu : ∀ u next, c ≠ .update u next := by
    rintro u next rfl
    exact hc
  refine h.of_thread hdata hpc (fun q hq hs => by rwa [hst q hq] at hs) (fun _ => ?_)
    (fun hk => hlocs ▸ hk) (fun hq => Or.inl ?_) fun hd => Or.inl (hdrowsy hd)
  · rw [hlocs]
    exact h.asleep p (hp ▸ hc)
  · rw [hp, Protocol.pending_iff hcu] at hq
    rw [hp', Protocol.pending_iff he, hloc]
    exact hq

/-- A thread enters `sleep`; if it is on this channel, the condition is false. -/
theorem Awake.of_enter (hproc : s'.proc = s.proc) (hp : s'.pc p = c)
    (hc : ∀ u next, c ≠ .update u next) (hknows : ¬ w.knows c.loc)
    (hpend : w.Pending (s.pc p) → w.pending c.loc)
    (hdrowsy : w.Drowsy s' p → ¬ w.cond s.data) : Awake w s' := by
  subst hp
  exact h.of_thread hdata hpc (fun q _ hq => hproc ▸ hq) (fun _ => hknows)
    (fun hk => absurd hk hknows) (fun hq => Or.inl ((Protocol.pending_iff hc).mpr (hpend hq)))
    fun hd => Or.inr (hdrowsy hd)

end

/-- A step of the scheduler. -/
theorem Awake.of_pc (h : Awake w s) (hdata : s'.data = s.data) (hpc : s'.pc = s.pc)
    (hst : ∀ q, (s'.proc q).state = .sleeping → (s.proc q).state = .sleeping) : Awake w s' := by
  have hlocs : s'.locs = s.locs := by
    funext q
    rw [State.locs, State.locs, hpc]
  refine ⟨fun q hq => ?_, fun q hq => ?_, fun hcond => ?_⟩
  · rw [hlocs]
    exact h.asleep q (hpc ▸ hq)
  · rw [hdata]
    exact h.knows q (hlocs ▸ hq)
  · rw [hdata] at hcond
    refine (h.pending hcond).imp (fun hq => by rwa [hpc]) fun hno q hq => ?_
    exact hno q (Protocol.drowsy_congr (by rw [hpc]) (hst q) hq)

variable [DecidableEq P] [DecidableEq Λ] [DecidableEq C] {I : σ → (P → L) → Prop}
  {code : P → L → ι → Option (Op P Λ C σ L)} {a : Action P ι}

omit [DecidableEq Λ] in
/-- After the scan of `wakeup(chan)` nobody is asleep on the channel, or on the way to it:
that would take `ptable.lock`. -/
theorem not_drowsy_of_wakeup1 (hinv : Inv holds s) {next : L}
    (hp : s.pc p = .update (.wakeup1 w.chan) next) (q : P) :
    ¬ w.Drowsy ({ s with proc := (Update.wakeup1 w.chan).apply s.proc }.setPc p
      (.unlock next)) q := by
  intro hd
  have hheld : .ptable ∈ (s.pc p).held holds (s.proc p).state := by simp [hp, Pc.held]
  unfold Protocol.Drowsy at hd
  by_cases hq : q = p
  · subst hq
    simp at hd
  have hpc : (({ s with proc := (Update.wakeup1 w.chan).apply s.proc }.setPc p (.unlock next)).pc q)
      = s.pc q := by simp [hq]
  rw [hpc] at hd
  cases hc : s.pc q with
  | sleepRelease | sleepSet => exact hq (hinv.eq_of_held (by simp [hc, Pc.held]) hheld)
  | sched chan lk next' =>
    rw [hc] at hd
    obtain ⟨rfl, hs⟩ := hd
    have hch := (hinv q).sched _ _ _ hc
    simp only [State.setPc_proc, Update.apply, Sync.wakeup1] at hs
    split at hs
    · simp at hs
    · next hno => exact hno ⟨hs, hch⟩
  | _ => simp [hc] at hd

omit [DecidableEq Λ] [DecidableEq C] in
theorem Awake.access (h : Awake w s) (hinv : Inv holds s) (hc : Careful code holds I w) {l : L}
    {f : σ → σ × L} (hpc : s.pc p = .run l) (hl : s.locs p = l)
    (hf : (Op.access f : Op P Λ C σ L).Careful w holds s.data l) :
    Awake w { s.setPc p (.run (f s.data).2) with data := (f s.data).1 } := by
  obtain ⟨hkn, hcond, hpend⟩ := hf
  refine ⟨fun q hq => ?_, fun q hq => ?_, fun hd => ?_⟩
  · by_cases hqp : q = p
    · subst hqp
      simp [Pc.InSleep] at hq
    · simp only [State.setPc_pc, update_of_ne hqp, State.locs] at hq ⊢
      exact h.asleep q hq
  · by_cases hqp : q = p
    · subst hqp
      simp only [State.setPc_pc, update_self, State.locs, Pc.loc] at hq
      exact hkn hq
    · -- the condition changes only in the hands of the one who holds the lock
      simp only [State.setPc_pc, update_of_ne hqp, State.locs] at hq
      intro hd
      obtain ⟨hheld, -⟩ := hcond (h.knows q hq) hd
      have hawake : ¬ (s.pc q).InSleep := fun hin => h.asleep q hin hq
      refine hqp (hinv.eq_of_held (Pc.subset_held hawake _ (hc.knows_held _ hq)) ?_)
      simpa [hpc, Pc.held] using hheld
  · by_cases hd0 : w.cond s.data
    · obtain ⟨q, hq⟩ | hno := h.pending hd0
      · refine Or.inl ⟨q, ?_⟩
        by_cases hqp : q = p
        · subst hqp
          rw [hpc, Protocol.pending_iff (by simp)] at hq
          simp only [State.setPc_pc, update_self]
          exact Or.inl (hpend hq)
        · simpa [hqp] using hq
      · refine Or.inr fun q hq => ?_
        by_cases hqp : q = p
        · subst hqp
          simp [Protocol.Drowsy] at hq
        · refine hno q (Protocol.drowsy_congr ?_ ?_ hq)
          · simp [hqp]
          · exact id
    · refine Or.inl ⟨p, ?_⟩
      simp only [State.setPc_pc, update_self]
      exact Or.inl (hcond hd0 hd).2

theorem Awake.step (hinv : Inv holds s) (hI : I s.data s.locs) (hc : Careful code holds I w)
    (h : Awake w s) (hs : Sync.step code s a = some s') : Awake w s' := by
  have hop : ∀ {p l x op}, s.pc p = .run l → code p l x = some op →
      op.Careful w holds s.data l ∧ s.locs p = l := by
    intro p l x op hpc hop
    have hl : s.locs p = l := by simp [State.locs, hpc, Pc.loc]
    exact ⟨hl ▸ hc.op s.data s.locs p x op hI (hl.symm ▸ hop), hl⟩
  cases step_cases hs with
  | acquire hpc hcode | release hpc hcode =>
    obtain ⟨⟨hk, hp⟩, hl⟩ := hop hpc hcode
    refine h.of_run rfl (fun q hq => update_of_ne hq ..) rfl (update_self ..) id ?_ ?_
    · exact hl.symm ▸ hk
    · simpa [hpc, Protocol.pending_iff, Pc.loc] using hp
  | @access p x l f hpc hcode =>
    obtain ⟨hcar, hl⟩ := hop hpc hcode
    exact h.access hinv hc hpc hl hcar
  | @killed p x l yes no hpc hcode =>
    obtain ⟨⟨hk, hp⟩, hl⟩ := hop hpc hcode
    refine h.of_run rfl (fun q hq => by simp [hq]) rfl (p := p)
      (c := .run (if (s.proc p).killed then yes else no)) (by simp) id ?_ ?_
    · rw [hl]
      intro hkn
      refine hk ?_
      cases hkill : (s.proc p).killed <;> simp_all [Pc.loc]
    · rw [hpc, Protocol.pending_iff (by simp), Protocol.pending_iff (by simp)]
      intro hq
      cases (s.proc p).killed
      · exact (hp hq).2
      · exact (hp hq).1
  | @enterUpdate p x l u next hpc hcode hlk =>
    obtain ⟨⟨hk, hp⟩, hl⟩ := hop hpc hcode
    refine h.of_run rfl (fun q hq => by simp [hq]) rfl (p := p)
      (c := .update u next) (by simp) id ?_ ?_
    · exact hl.symm ▸ hk
    · rw [hpc, Protocol.pending_iff (by simp), Protocol.pending_update]
      exact fun hq => (hp hq).symm
  | enterSleep hpc hcode | enterSleepHeld hpc hcode =>
    obtain ⟨⟨hsl, hk, hp⟩, hl⟩ := hop hpc hcode
    refine h.of_enter rfl (fun q hq => update_of_ne hq ..) rfl (update_self ..) (by simp) hk
      (by simpa [hpc, Protocol.pending_iff, Pc.loc] using hp) fun hd => ?_
    simp only [Protocol.Drowsy, State.setPc_pc, update_self] at hd
    exact h.knows _ (hl.symm ▸ (hsl hd).2)
  | sleepRelease hpc | sleepSet hpc | wakeHeld hpc | wake hpc | sleepUnlock hpc
  | sleepReacquire hpc =>
    exact h.of_sleep rfl (fun q hq => update_of_ne hq ..) (fun q hq => by simp [hq]) hpc
      (update_self ..) rfl trivial (by simp) (by simp [Protocol.Drowsy, hpc])
  | @update p x u next hpc =>
    refine h.of_thread (p := p) rfl (fun q hq => by simp [hq])
      (fun q _ hq => Update.sleeping_of_apply hq) (by simp [Pc.InSleep]) ?_ ?_ ?_
    · simp [State.locs, hpc, Pc.loc]
    · rw [hpc, Protocol.pending_update]
      rintro (hp | rfl)
      · exact Or.inl (Or.inl (by simpa [Pc.loc] using hp))
      · exact Or.inr (not_drowsy_of_wakeup1 hinv hpc)
    · simp [Protocol.Drowsy]
  | @unlock p x next hpc hlk =>
    have hl : s.locs p = next := by simp [State.locs, hpc, Pc.loc]
    refine h.of_run rfl (fun q hq => by simp [hq]) rfl (p := p) (c := .run next) (by simp) id ?_ ?_
    · exact fun hk => hl.symm ▸ hk
    · rw [hpc, Protocol.pending_iff (by simp), Protocol.pending_iff (by simp)]
      exact id
  | schedAcquire | schedRelease => exact h.of_pc rfl rfl fun q hq => hq
  | @dispatch p hlk hp =>
    refine h.of_pc rfl rfl fun q hq => ?_
    by_cases hqp : q = p
    · subst hqp
      simp [State.dispatch] at hq
    · simpa [State.dispatch, hqp] using hq

/-- Nobody sleeps on a condition that holds, once every waker has finished. -/
theorem Reachable.awake (hg : Guarded code holds) {l : L} {d : σ} (hl : holds l = ∅)
    (hI : ∀ s, Reachable code l d s → I s.data s.locs) (hc : Careful code holds I w)
    (h : Reachable code l d s) (hcond : w.cond s.data) (hdone : ∀ q, ¬ w.Pending (s.pc q)) (p : P)
    (hp : (s.proc p).state = .sleeping) : (s.proc p).chan ≠ some w.chan := by
  have hawake : Awake w s := by
    clear hcond hdone hp
    induction h with
    | init =>
      refine ⟨fun p hp => absurd hp id, fun p hp => ?_, fun _ => Or.inr fun p hp => hp⟩
      have := hc.knows_held l hp
      rw [hl] at this
      exact absurd this (Set.notMem_empty _)
    | step hr hs ih => exact ih.step (hr.inv hg hl) (hI _ hr) hc hs
  intro hch
  obtain ⟨chan, lk, next, hpc, hchan⟩ := (h.inv hg hl).sched_of_ne_running (p := p) (by simp [hp])
  obtain ⟨q, hq⟩ | hno := hawake.pending hcond
  · exact hdone q hq
  · refine hno p ?_
    rw [hchan] at hch
    simp [Protocol.Drowsy, hpc, Option.some.inj hch, hp]

end Awake

/-! ### Killed while asleep -/

/-- At the local states `tested` the code has found `killed` clear and goes on to `sleep`. -/
def Op.Interruptible (tested : L → Prop) (l : L) : Op P Λ C σ L → Prop
  | .access f => ∀ d, ¬ tested (f d).2
  | .sleep _ _ next => tested l ∧ ¬ tested next
  | .update _ next => tested next → tested l
  | .acquire _ next | .release _ next => ¬ tested next
  | .killed yes _ => ¬ tested yes

def Interruptible (code : P → L → ι → Option (Op P Λ C σ L)) (tested : L → Prop) : Prop :=
  ∀ p l x op, code p l x = some op → op.Interruptible tested l

/-- The step in which a `kill` of `q` sets its flag. -/
def Kills (s : State P Λ C σ L) (a : Action P ι) (q : P) : Prop :=
  ∃ p x next, a = .step p x ∧ s.pc p = .update (.kill q) next

/-- Asleep, or inside `sleep` with `ptable.lock` held. -/
def Pc.FallsAsleep (st : ProcState) : Pc P Λ C L → Prop
  | .sleepRelease _ _ _ | .sleepSet _ _ _ => True
  | .sched _ _ _ => st = .sleeping
  | _ => False

def KilledAwake (tested : L → Prop) (s : State P Λ C σ L) : Prop :=
  ∀ p, (s.proc p).killed = true →
    ¬ tested (s.locs p) ∧ ¬ (s.pc p).FallsAsleep (s.proc p).state

section Killed

variable [DecidableEq P] {tested : L → Prop} {holds : L → Set (Lock Λ)}
  {s s' : State P Λ C σ L} {p : P}

/-- Only `p` needs a proof when the step is one of `p` that leaves the others alone. -/
theorem KilledAwake.of_thread (h : KilledAwake tested s) (hpc : ∀ q ≠ p, s'.pc q = s.pc q)
    (hproc : ∀ q ≠ p, s'.proc q = s.proc q)
    (hp : (s'.proc p).killed = true →
      ¬ tested (s'.locs p) ∧ ¬ (s'.pc p).FallsAsleep (s'.proc p).state) :
    KilledAwake tested s' := by
  intro q hq
  by_cases hqp : q = p
  · subst hqp
    exact hp hq
  · rw [State.locs, hpc q hqp, hproc q hqp] at *
    exact h q hq

/-- A step of `p` to a place outside `sleep`, or one where it cannot fall asleep. -/
theorem KilledAwake.of_pc {c : Pc P Λ C L} (h : KilledAwake tested s)
    (hpc : ∀ q ≠ p, s'.pc q = s.pc q) (hproc : ∀ q ≠ p, s'.proc q = s.proc q)
    (hp : s'.pc p = c) (hkill : (s'.proc p).killed = (s.proc p).killed)
    (hc : ∀ st, ¬ c.FallsAsleep st)
    (ht : (s.proc p).killed = true → tested c.loc → tested (s.locs p)) :
    KilledAwake tested s' := by
  subst hp
  refine h.of_thread hpc hproc fun hk => ⟨fun hl => ?_, hc _⟩
  rw [hkill] at hk
  exact (h p hk).1 (ht hk hl)

variable [DecidableEq Λ] [DecidableEq C] {code : P → L → ι → Option (Op P Λ C σ L)} {a : Action P ι}

omit [DecidableEq Λ] in
/-- `kill` and `wakeup1` run with `ptable.lock` held, so nobody else is about to
fall asleep; and `kill` wakes the one it finds asleep. -/
theorem KilledAwake.update (hinv : Inv holds s) (h : KilledAwake tested s) {u : Update P C}
    {next : L} (hpc : s.pc p = .update u next)
    (hkill : ∀ q, u = .kill q → ¬ tested (s.locs q)) :
    KilledAwake tested ({ s with proc := u.apply s.proc }.setPc p (.unlock next)) := by
  have hlocs : ({ s with proc := u.apply s.proc }.setPc p (.unlock next)).locs = s.locs := by
    rw [locs_of_update (s := s) rfl rfl, update_eq_self_iff]
    simp [State.locs, hpc, Pc.loc]
  -- whoever falls asleep after the step did so before
  have hfalls : ∀ q, (({ s with proc := u.apply s.proc }.setPc p (.unlock next)).pc q).FallsAsleep
      (u.apply s.proc q).state → q ≠ p ∧ (s.pc q).FallsAsleep (s.proc q).state := by
    intro q hf
    have hq : q ≠ p := by
      rintro rfl
      simp [Pc.FallsAsleep] at hf
    refine ⟨hq, ?_⟩
    simp only [State.setPc_pc, update_of_ne hq] at hf
    cases hc : s.pc q <;> simp only [hc, Pc.FallsAsleep] at hf ⊢
    exact Update.sleeping_of_apply hf
  intro q hq
  rw [hlocs]
  by_cases hk : (s.proc q).killed = true
  · exact ⟨(h q hk).1, fun hf => (h q hk).2 (hfalls q hf).2⟩
  have hu : u = .kill q := by
    cases u with
    | wakeup1 chan =>
      simp only [State.setPc_proc, Update.apply, Sync.wakeup1] at hq
      split at hq <;> exact absurd hq hk
    | kill q' =>
      by_contra hne
      have hqq : q ≠ q' := fun he => hne (he ▸ rfl)
      exact hk (by simpa [Update.apply, Sync.kill, hqq] using hq)
  subst hu
  refine ⟨hkill q rfl, fun hf => ?_⟩
  obtain ⟨hqp, hf'⟩ := hfalls q hf
  simp only [State.setPc_pc, State.setPc_proc, update_of_ne hqp] at hf
  have hheld : .ptable ∈ (s.pc p).held holds (s.proc p).state := by simp [hpc, Pc.held]
  cases hc : s.pc q with
  | sleepRelease | sleepSet => exact hqp (hinv.eq_of_held (by simp [hc, Pc.held]) hheld)
  | sched chan lk next' =>
    rw [hc] at hf hf'
    simp only [Pc.FallsAsleep] at hf hf'
    simp [Update.apply, Sync.kill, hf'] at hf
  | _ => simp [hc, Pc.FallsAsleep] at hf'

theorem KilledAwake.step (hg : Interruptible code tested) (hinv : Inv holds s)
    (h : KilledAwake tested s) (hkill : ∀ q, Kills s a q → ¬ tested (s.locs q))
    (hs : Sync.step code s a = some s') : KilledAwake tested s' := by
  have hop : ∀ {p l x op}, s.pc p = .run l → code p l x = some op →
      op.Interruptible tested l ∧ s.locs p = l := by
    intro p l x op hpc hop
    exact ⟨hg p l x op hop, by simp [State.locs, hpc, Pc.loc]⟩
  -- the ways back from `sleep`, `wakeup` and `kill` keep the local state
  have hback : ∀ {p : P} {c : Pc P Λ C L}, s.pc p = c → s.locs p = c.loc := by
    rintro p c rfl
    rfl
  cases step_cases hs with
  | acquire hpc hcode | release hpc hcode =>
    exact h.of_pc (fun q hq => update_of_ne hq ..) (fun q hq => rfl) (update_self ..) rfl
      (fun _ => id) fun _ ht => absurd ht (hop hpc hcode).1
  | access hpc hcode =>
    exact h.of_pc (fun q hq => update_of_ne hq ..) (fun q hq => rfl) (update_self ..) rfl
      (fun _ => id) fun _ ht => absurd ht ((hop hpc hcode).1 s.data)
  | killed hpc hcode =>
    refine h.of_pc (fun q hq => update_of_ne hq ..) (fun q hq => rfl) (update_self ..) rfl
      (fun _ => id) fun hk ht => ?_
    rw [hk] at ht
    exact absurd ht (hop hpc hcode).1
  | enterUpdate hpc hcode =>
    refine h.of_pc (fun q hq => update_of_ne hq ..) (fun q hq => rfl) (update_self ..) rfl
      (fun _ => id) fun _ ht => ?_
    obtain ⟨hnext, hl⟩ := hop hpc hcode
    exact hl.symm ▸ hnext ht
  | @enterSleep p _ _ _ _ _ hpc hcode | @enterSleepHeld p _ _ _ _ hpc hcode =>
    obtain ⟨⟨ht, -⟩, hl⟩ := hop hpc hcode
    refine h.of_thread (fun q hq => update_of_ne hq ..) (fun q hq => rfl) fun hk => ?_
    exact absurd (hl.symm ▸ ht) (h p hk).1
  | @sleepRelease p _ _ _ _ hpc | @sleepSet p _ _ _ _ hpc =>
    refine h.of_thread (fun q hq => update_of_ne hq ..) (fun q hq => by simp [hq]) fun hk => ?_
    exact absurd (by simp [hpc, Pc.FallsAsleep]) (h p (by simpa using hk)).2
  | wakeHeld hpc | wake hpc | sleepUnlock hpc | sleepReacquire hpc | unlock hpc =>
    exact h.of_pc (fun q hq => update_of_ne hq ..) (fun q hq => by simp [hq]) (update_self ..)
      (by simp) (fun _ => id) fun _ ht => hback hpc ▸ ht
  | @update p x u next hpc =>
    refine KilledAwake.update hinv h hpc fun q hu => hkill q ?_
    exact ⟨p, x, next, rfl, hu ▸ hpc⟩
  | schedAcquire | schedRelease => exact h
  | @dispatch p hlk hp =>
    obtain ⟨chan, lk, next, hpc, -⟩ := hinv.sched_of_ne_running (p := p) (by simp [hp])
    refine h.of_thread (p := p) (fun q hq => rfl) (fun q hq => by simp [State.dispatch, hq]) ?_
    intro hk
    refine ⟨(h p (by simpa [State.dispatch] using hk)).1, ?_⟩
    simp [State.dispatch, hpc, Pc.FallsAsleep]

/-- Nobody is asleep with `killed` set, in a run in which no `kill` finds its target
between its test of `killed` and `sleep`. -/
theorem killed_awake {l : L} {d : σ} (hg : Guarded code holds) (hl : holds l = ∅)
    (ht : Interruptible code tested) (r : Run (Sync.step code)) (h0 : r.state 0 = State.init l d)
    (hkill : ∀ k < r.length, ∀ q, Kills (r.state k) (r.action k) q → ¬ tested ((r.state k).locs q))
    {k : ℕ} (hk : k ≤ r.length) (p : P) (hp : ((r.state k).proc p).state = .sleeping) :
    ((r.state k).proc p).killed = false := by
  have hboth : Inv holds (r.state k) ∧ KilledAwake tested (r.state k) := by
    refine r.induct_between (P := fun k => Inv holds (r.state k) ∧ KilledAwake tested (r.state k))
      (Nat.zero_le k) hk ?_ fun m _ hm hs ih => ?_
    · rw [h0]
      exact ⟨.init hl, fun q hq => by simp [State.init] at hq⟩
    · exact ⟨ih.1.step hg hs, ih.2.step ht ih.1 (hkill m (by omega)) hs⟩
  obtain ⟨hinv, hawake⟩ := hboth
  rw [Bool.eq_false_iff]
  intro hkilled
  obtain ⟨chan, lk, next, hpc, -⟩ := hinv.sched_of_ne_running (p := p) (by simp [hp])
  exact (hawake p hkilled).2 (by simp [hpc, Pc.FallsAsleep, hp])

end Killed

end Xv6.Sync
