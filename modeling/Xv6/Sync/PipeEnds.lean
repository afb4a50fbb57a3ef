import Xv6.Sync.Ghost
import Xv6.Sync.Pipe

/-!
# Who sleeps at the ends of a pipe

Writers sleep on `&p->nwrite` while the pipe is full, and every `piperead` that makes
room wakes them. Readers sleep on `&p->nread` while the pipe is empty; `pipewrite` wakes
them at its end and before it sleeps, but not where it gives up, because its process
has been killed or the read end is closed. What it has stored since its last
`wakeup(&p->nread)` is then in the pipe with the readers asleep.
-/

namespace Xv6.Sync.Pipe

variable {P : Type}

/-! ### Writers -/

def writers : Protocol Unit Chan Pipe Loc where
  chan := .nwrite
  lk := .spin ()
  cond p := p.full = false ∨ p.readopen = false
  knows
    | .writeKilled _ | .writeWakeup _ | .writeSleep _ => True
    | _ => False
  pending
    | .readCopy _ _ | .readDone _ | .closeWakeup false => True
    | _ => False

theorem writers_careful :
    Careful (code (P := P)) Loc.holds (fun _ _ => True) writers where
  knows_held l hl := by cases l <;> simp_all [writers, Loc.holds]
  op d ls p x op _ hop := by
    generalize ls p = l at hop
    cases l with
    | idle => cases x <;> cases hop <;> simp [Op.Careful, writers]
    | writeLoop src =>
      cases hop
      cases src with
      | nil => exact Op.careful_access Iff.rfl (fun h => absurd h id) fun h => absurd h id
      | cons b rest =>
        by_cases hf : d.full = true
        · refine Op.careful_access ?_ ?_ fun h => absurd h id <;> simp only [writeStep, hf, if_true]
          · cases hr : d.readopen <;> simp [writers, hf, hr]
        · simp [Op.Careful, writers, writeStep, hf]
    | readCopy n dst =>
      cases hop
      cases n with
      | zero => exact Op.careful_access Iff.rfl (fun h => absurd h id) fun _ => trivial
      | succ n =>
        by_cases he : d.nread = d.nwrite <;> simp [Op.Careful, writers, copyStep, he, Loc.holds]
    | readLoop | closeTest =>
      cases hop
      refine Op.careful_access Iff.rfl ?_ fun h => absurd h id
      dsimp only
      split <;> exact fun h => absurd h id
    | close writable =>
      cases hop
      cases writable <;> simp [Op.Careful, writers, Loc.holds, full]
    | closeFree =>
      cases hop
      exact Op.careful_access Iff.rfl (fun h => absurd h id) fun h => absurd h id
    | closeWakeup writable =>
      cases hop
      cases writable <;> simp [Op.Careful, writers]
    | _ =>
      cases hop
      simp [Op.Careful, writers]

/-! ### Readers -/

/-- Whether the thread has stored a byte since it last called `wakeup(&p->nread)`. -/
def announces : Ghost Pipe Loc Bool where
  access l d g :=
    match l with
    | .writeLoop (_ :: _) => if d.full then g else true
    | _ => g
  other l g :=
    match l with
    | .writeWakeup _ | .writeDone => false
    | _ => g

def readers : Protocol Unit Chan Pipe (Loc × Bool) where
  chan := .nread
  lk := .spin ()
  cond p := p.nread ≠ p.nwrite ∨ p.writeopen = false
  knows l :=
    match l.1 with
    | .readKilled _ | .readSleep _ => True
    | _ => False
  pending l := l.2 = true ∨ l.1 = .closeWakeup true

theorem readers_pending {l l' : Loc} {g g' : Bool} (hl : l ≠ .closeWakeup true)
    (hg : g = true → g' = true)
    (h : readers.pending (l, g)) : readers.pending (l', g') :=
  Or.inl (hg (h.resolve_right hl))

theorem readers_careful :
    Careful (announces.code (code (P := P))) (fun l => l.1.holds) (fun _ _ => True) readers where
  knows_held l hl := by
    obtain ⟨l, g⟩ := l
    cases l <;> simp_all [readers, Loc.holds]
  op d ls p x op _ hmap := by
    generalize ls p = lg at hmap
    obtain ⟨l, g⟩ := lg
    obtain ⟨op, hop, rfl⟩ := Option.map_eq_some_iff.mp hmap
    clear hmap
    cases l with
    | idle =>
      cases x <;> cases hop <;>
        simp [Op.withGhost, Op.Careful, readers, announces]
    | writeLoop src =>
      cases hop
      cases src with
      | nil => exact Op.careful_access Iff.rfl (fun h => absurd h id) (readers_pending (by simp) id)
      | cons b rest =>
        by_cases hf : d.full = true
        · refine Op.careful_access ?_ ?_ (readers_pending (by simp) ?_) <;>
            simp only [writeStep, hf, if_true]
          · cases hr : d.readopen <;> exact fun h => absurd h id
          · simp [announces, hf]
        · simp [Op.withGhost, Op.Careful, readers, announces, writeStep, hf, Loc.holds]
    | readCopy n dst =>
      cases hop
      cases n with
      | zero =>
        exact Op.careful_access Iff.rfl (fun h => absurd h id) (readers_pending (by simp) id)
      | succ n =>
        by_cases he : d.nread = d.nwrite
        · refine Op.careful_access ?_ ?_ ?_ <;> simp [copyStep, he, readers, announces]
        · simp [Op.withGhost, Op.Careful, readers, announces, copyStep, he]
    | readLoop n =>
      cases hop
      refine Op.careful_access Iff.rfl ?_ (readers_pending (by simp) id)
      dsimp only
      split
      · next he => simp [readers, he]
      · exact fun h => absurd h id
    | close writable =>
      cases hop
      cases writable with
      | true => simp [Op.withGhost, Op.Careful, readers, announces, Loc.holds]
      | false =>
        exact Op.careful_access Iff.rfl (fun h => absurd h id) (readers_pending (by simp) id)
    | closeTest =>
      cases hop
      refine Op.careful_access Iff.rfl ?_ (readers_pending (by simp) id)
      dsimp only
      split <;> exact fun h => absurd h id
    | closeFree =>
      cases hop
      exact Op.careful_access Iff.rfl (fun h => absurd h id) (by simp [readers, announces])
    | closeWakeup writable =>
      cases hop
      cases writable <;> simp [Op.withGhost, Op.Careful, readers, announces]
    | _ =>
      cases hop
      simp [Op.withGhost, Op.Careful, readers, announces]

variable [DecidableEq P] {s s' : State P Unit Chan Pipe Loc} {a : Action P (Call P)}

/-- Whether `p` has stored bytes and not called `wakeup(&p->nread)` since. -/
def unannounced (r : Run (step (code (P := P)))) (k : ℕ) (p : P) : Bool :=
  announces.along r false k p

/-- `pipewrite` returns -1: the pipe is full and the read end closed, or the process has
been killed. -/
def GivesUp (s : State P Unit Chan Pipe Loc) (a : Action P (Call P)) (p : P) : Prop :=
  (∃ x, a = .step p x) ∧
    match s.pc p with
    | .run (.writeLoop (_ :: _)) => s.data.full = true ∧ s.data.readopen = false
    | .run (.writeKilled _) => (s.proc p).killed = true
    | _ => False

/-- In `pipewrite`, with the lock, before a `wakeup(&p->nread)`. -/
def Loc.Writing : Loc → Prop
  | .writeLoop _ | .writeKilled _ | .writeWakeup _ | .writeDone => True
  | _ => False

/-- Where an operation leads that neither waits nor calls into the scheduler. -/
def nextLoc (d : Pipe) (killed : Bool) : Op P Unit Chan Pipe Loc → Option Loc
  | .access f => some (f d).2
  | .killed yes no => some (if killed then yes else no)
  | _ => none

omit [DecidableEq P] in
/-- One operation of a thread that stores, or that has something to announce already. -/
theorem Loc.Writing.of_op {p : P} {x : Call P} {l : Loc} {op : Op P Unit Chan Pipe Loc}
    (hpc : s.pc p = .run l) (hop : code p l x = some op) {g : Bool} (hl : g = true → l.Writing)
    (hup : GivesUp s (.step p x) p → g = false) (hg : announces.after l s.data g op = true) :
    ∃ l', nextLoc s.data (s.proc p).killed op = some l' ∧ l'.Writing := by
  have hno : ¬ (g = true ∧ GivesUp s (.step p x) p) := fun ⟨h, hu⟩ => by simp [hup hu] at h
  simp only [GivesUp, hpc] at hno
  cases l with
  | writeLoop src =>
    cases hop
    refine ⟨_, rfl, ?_⟩
    cases src with
    | nil => trivial
    | cons b rest =>
      by_cases hf : s.data.full = true
      · have hg : g = true := by simpa [Ghost.after, announces, hf] using hg
        cases hr : s.data.readopen with
        | true => simp [writeStep, hf, hr, Loc.Writing]
        | false => simp [hg, hf, hr] at hno
      · simp [writeStep, hf, Loc.Writing]
  | writeKilled src =>
    cases hop
    have hg : g = true := hg
    refine ⟨_, rfl, ?_⟩
    cases hk : (s.proc p).killed with
    | true => simp [hg, hk] at hno
    | false => trivial
  | writeWakeup src | writeDone =>
    cases hop
    exact absurd hg (by simp [Ghost.after, announces])
  | _ =>
    have hg : g = true := by cases op <;> exact hg
    exact absurd (hl hg) id

/-- Who has something to announce is still in `pipewrite`, if nobody gives up on it. -/
theorem Loc.Writing.step {g : P → Bool} (h : ∀ p, g p = true → ∃ l, s.pc p = .run l ∧ l.Writing)
    (hup : ∀ p, GivesUp s a p → g p = false) (hs : Sync.step code s a = some s') (p : P)
    (hp : announces.next code s g a p = true) : ∃ l, s'.pc p = .run l ∧ l.Writing := by
  -- a thread inside `sleep`, `wakeup` or `kill` has nothing to announce
  have hinside : ∀ {q x}, a = .step q x → (∀ l, s.pc q ≠ .run l) → (∀ p ≠ q, s'.pc p = s.pc p) →
      ∃ l, s'.pc p = .run l ∧ l.Writing := by
    rintro q x rfl hq hpc
    have hg : g p = true := by
      cases hc : s.pc q <;> simp_all [Ghost.next]
    obtain ⟨l, hl⟩ := h p hg
    have hpq : p ≠ q := by
      rintro rfl
      exact hq l hl.1
    exact ⟨l, (hpc p hpq).trans hl.1, hl.2⟩
  have hrun : ∀ {q x l op}, a = .step q x → s.pc q = .run l → code q l x = some op →
      (∀ p ≠ q, s'.pc p = s.pc p) →
      (∀ l', nextLoc s.data (s.proc q).killed op = some l' → s'.pc q = .run l') →
      ∃ l, s'.pc p = .run l ∧ l.Writing := by
    rintro q x l op rfl hq hop hpc hl'
    simp only [Ghost.next, hq, hop, Option.elim_some] at hp
    by_cases hpq : p = q
    · subst hpq
      rw [Function.update_self] at hp
      have hl : g p = true → l.Writing := fun hg => by
        obtain ⟨l₀, h₀, hw⟩ := h p hg
        rw [hq] at h₀
        exact Pc.run.inj h₀ ▸ hw
      obtain ⟨l₁, hnext, hw⟩ := Loc.Writing.of_op hq hop hl (hup p) hp
      exact ⟨l₁, hl' l₁ hnext, hw⟩
    · rw [Function.update_of_ne hpq] at hp
      rw [hpc p hpq]
      exact h p hp
  cases step_cases hs with
  | acquire hpc hop | release hpc hop | enterUpdate hpc hop | enterSleep hpc hop
  | enterSleepHeld hpc hop =>
    exact hrun rfl hpc hop (fun q hq => by simp [hq]) fun l' hl' => by simp [nextLoc] at hl'
  | access hpc hop | killed hpc hop =>
    refine hrun rfl hpc hop (fun q hq => by simp [hq]) fun l' hl' => ?_
    simp [← Option.some.inj hl']
  | sleepRelease hpc | sleepSet hpc | wakeHeld hpc | wake hpc | sleepUnlock hpc
  | sleepReacquire hpc | update hpc | unlock hpc =>
    exact hinside rfl (by simp [hpc]) fun q hq => by simp [hq]
  | schedAcquire | schedRelease | dispatch => exact h p hp

theorem Loc.Writing.of_run (r : Run (Sync.step (code (P := P))))
    (hup : ∀ k < r.length, ∀ p, GivesUp (r.state k) (r.action k) p → unannounced r k p = false)
    {k : ℕ} (hk : k ≤ r.length) (p : P) (hp : unannounced r k p = true) :
    ∃ l, (r.state k).pc p = .run l ∧ l.Writing := by
  have hall := r.induct_between (P := fun k => ∀ p, unannounced r k p = true →
    ∃ l, (r.state k).pc p = .run l ∧ l.Writing) (Nat.zero_le k) hk
    (fun p hp => by simp [unannounced, Ghost.along] at hp) fun m _ hm hs ih =>
      Loc.Writing.step ih (hup m (by omega)) hs
  exact hall p hp

/-! ### Nobody is stuck -/

omit [DecidableEq P] in
theorem spin_mem_holds_of_update {p : P} {l next : Loc} {x : Call P} {chan : Chan}
    (hop : code p l x = some (.wakeup chan next)) : .spin () ∈ next.holds := by
  cases l with
  | idle => cases x <;> simp [code] at hop
  | writeWakeup | writeDone | readDone | closeWakeup =>
    obtain ⟨-, rfl⟩ := Op.update.inj (Option.some.inj hop)
    simp [Loc.holds]
  | _ => simp [code] at hop

/-- With the lock free nobody is where the code holds it. -/
theorem not_writing_of_free {d : Pipe} (h : Reachable code .idle d s)
    (hfree : s.lock (.spin ()) = none)
    (p : P) : (∀ l, s.pc p = .run l → ¬ .spin () ∈ l.holds) ∧
      (∀ chan next, s.pc p ≠ .update (.wakeup1 chan) next) ∧
      (.spin () ∈ (s.locs p).holds → (s.locs p).resumes = true) := by
  have hnot : .spin () ∉ (s.pc p).held Loc.holds (s.proc p).state := fun hin => by
    rw [← ((h.inv guarded rfl) p).lock, hfree] at hin
    simp at hin
  refine ⟨fun l hpc hin => ?_, fun chan next hpc => ?_, fun hin => ?_⟩
  · exact hnot (by rw [hpc]; exact hin)
  · have ho := h.origin p
    rw [hpc] at ho
    obtain ⟨l₀, x, hop⟩ := ho
    refine hnot ?_
    rw [hpc]
    exact Set.mem_insert_of_mem _ (spin_mem_holds_of_update hop)
  · by_contra hres
    exact hnot (spin_mem_held h hin (by simpa using hres))

theorem writers_awake {d : Pipe} (h : Reachable code .idle d s) (hfree : s.lock (.spin ()) = none)
    {p : P} (hp : (s.proc p).state = .sleeping) (hch : (s.proc p).chan = some .nwrite) :
    s.data.full = true ∧ s.data.readopen = true := by
  by_contra hcond
  have hcond : writers.cond s.data := by
    simp only [writers]
    cases hf : s.data.full <;> simp_all
  refine h.awake guarded rfl (fun _ _ => trivial) writers_careful hcond (fun q hq => ?_) p hp hch
  obtain ⟨-, hup, hres⟩ := not_writing_of_free h hfree q
  obtain hq | ⟨next, hq⟩ := hq
  · change writers.pending (s.locs q) at hq
    cases hc : s.locs q <;> simp_all [writers, Loc.holds, Loc.resumes]
  · exact hup _ _ hq

/-- In a run in which `pipewrite` gives up only when it has announced all it has stored,
nobody sleeps at an end of the pipe that is ready for them while the lock is free. -/
theorem pipe_ends_awake (d : Pipe) (r : Run (Sync.step (code (P := P))))
    (h0 : r.state 0 = State.init .idle d)
    (hup : ∀ k < r.length, ∀ p, GivesUp (r.state k) (r.action k) p → unannounced r k p = false) :
    ∀ k ≤ r.length, (r.state k).lock (.spin ()) = none →
      ∀ p, ((r.state k).proc p).state = .sleeping →
        (((r.state k).proc p).chan = some .nread →
          (r.state k).data.nread = (r.state k).data.nwrite ∧ (r.state k).data.writeopen = true) ∧
        (((r.state k).proc p).chan = some .nwrite →
          (r.state k).data.full = true ∧ (r.state k).data.readopen = true) := by
  intro k hk hfree p hp
  have h : Reachable code .idle d (r.state k) := .of_run r h0 hk
  refine ⟨fun hch => ?_, writers_awake h hfree hp⟩
  by_contra hcond
  have hcond : readers.cond (r.state k).data := by
    simp only [readers]
    by_cases he : (r.state k).data.nread = (r.state k).data.nwrite <;> simp_all
  refine (announces.reachable r h0 false hk).awake (announces.guarded guarded) rfl
    (fun _ _ => trivial) readers_careful hcond (fun q hq => ?_) p hp hch
  obtain ⟨hrun, hupd, hres⟩ := not_writing_of_free h hfree q
  obtain hq | ⟨next, hq⟩ := hq
  · rw [State.withGhost_pc, Pc.withGhost_loc] at hq
    obtain hg | hl := hq
    · obtain ⟨l, hpc, hw⟩ := Loc.Writing.of_run r hup hk q hg
      refine hrun l hpc ?_
      cases l <;> simp_all [Loc.Writing, Loc.holds]
    · change (r.state k).locs q = _ at hl
      rw [hl] at hres
      simp [Loc.holds, Loc.resumes] at hres
  · rw [State.withGhost_pc] at hq
    cases hc : (r.state k).pc q <;> simp_all [Pc.withGhost]

/-! ### Giving up -/

/-- The three processes of the run below. -/
inductive Party where
  | reader
  | writer
  | killer
  deriving DecidableEq

/-- The reader finds the pipe empty and goes to sleep. -/
def sleepActions : List (Action Party (Call Party)) :=
  List.replicate 6 (.step .reader (.piperead 1)) ++ [.release]

def sleepRun : Run (Sync.step (code (P := Party))) :=
  Run.ofActions (State.init .idle alloc) sleepActions (by decide +kernel)

theorem pipe_ends_awake_sleepRun :
    ((sleepRun.state 7).proc .reader).chan = some .nread ∧
    (sleepRun.state 7).data.nread = (sleepRun.state 7).data.nwrite := by
  refine ⟨by decide +kernel, ?_⟩
  have hup : ∀ k < sleepRun.length, ∀ p, GivesUp (sleepRun.state k) (sleepRun.action k) p →
      unannounced sleepRun k p = false := by
    intro k hk p _
    have hall : ∀ k < 7, ∀ p ∈ [Party.reader, .writer, .killer],
        unannounced sleepRun k p = false := by decide +kernel
    exact hall k hk p (by cases p <;> simp)
  exact ((pipe_ends_awake alloc sleepRun rfl hup 7 (by decide) (by decide +kernel) .reader
    (by decide +kernel)).1 (by decide +kernel)).1

/-- Then the writer fills the pipe, is killed, and gives up at the next byte. -/
def strandActions : List (Action Party (Call Party)) :=
  sleepActions ++ List.replicate 513 (.step .writer (.pipewrite (List.replicate 513 0))) ++
    List.replicate 3 (.step .killer (.kill .writer)) ++
    List.replicate 3 (.step .writer (.pipewrite []))

/-- All locks are free, and the reader is asleep in front of a full pipe. -/
def stranded (s : State Party Unit Chan Pipe Loc) : Bool :=
  s.lock .ptable = none ∧ s.lock (.spin ()) = none ∧ (s.proc .reader).state = .sleeping ∧
    (s.proc .reader).chan = some .nread ∧ s.data.nread ≠ s.data.nwrite ∧ s.data.full

theorem giving_up_strands_reader :
    ∃ s, Reachable (code (P := Party)) .idle alloc s ∧ stranded s = true :=
  Reachable.exists_of_execute _ _ _ strandActions (by decide +kernel)

end Xv6.Sync.Pipe
