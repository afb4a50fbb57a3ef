import Mathlib.Data.List.Basic
import Xv6.Sync.Wakeup

/-!
# Sleep locks, and producers and consumers

Two clients of `sleep` and `wakeup`: the sleep locks of `sleeplock.c`, and the
producers and consumers of `sleep1.p` for any number of them, with the test in a
loop as the kernel has it.
-/

namespace Xv6.Sync

open Function

variable {P : Type}

/-- `struct sleeplock`; processes stand for their pids, which differ, and `none` for 0. -/
structure Sleeplock (P : Type) where
  locked : Bool
  pid : Option P
  deriving DecidableEq

namespace Sleeplock

variable {K : Type} [DecidableEq K]

/-- `initsleeplock` -/
def init : Sleeplock P := ⟨false, none⟩

inductive Call (K : Type) where
  | acquiresleep (k : K)
  | releasesleep (k : K)
  | holdingsleep (k : K)

/-- Where the code of a thread stands that has the sleep locks `held`: outside, in
`acquiresleep`, in `releasesleep`, or in `holdingsleep`. -/
inductive Loc (K : Type) where
  | idle (held : List K)
  | test (k : K) (held : List K)
  | sleep (k : K) (held : List K)
  | acquired (k : K) (held : List K)
  | clear (k : K) (held : List K)
  | wake (k : K) (held : List K)
  | released (k : K) (held : List K)
  | holding (k : K) (held : List K)
  | answer (k : K) (held : List K) (r : Bool)

def Loc.held : Loc K → List K
  | .idle held | .test _ held | .sleep _ held | .acquired _ held | .clear _ held | .wake _ held
  | .released _ held | .holding _ held | .answer _ held _ => held

/-- The spin lock inside the sleep lock. -/
def Loc.holds : Loc K → Set (Lock K)
  | .idle _ => ∅
  | .test k _ | .sleep k _ | .acquired k _ | .clear k _ | .wake k _ | .released k _ | .holding k _
  | .answer k _ _ => {.spin k}

/-- The functions of `sleeplock.c`. `releasesleep` is called by the holder only
(`iunlock` and `brelse` check `holdingsleep`). -/
def code [DecidableEq P] (p : P) :
    Loc K → Call K → Option (Op P K K (K → Sleeplock P) (Loc K))
  | .idle held, .acquiresleep k => some (.acquire (.spin k) (.test k held))
  | .idle held, .releasesleep k =>
    if k ∈ held then some (.acquire (.spin k) (.clear k held)) else none
  | .idle held, .holdingsleep k => some (.acquire (.spin k) (.holding k held))
  | .test k held, _ => some <| .access fun d =>
    if (d k).locked then (d, .sleep k held)
    else (update d k ⟨true, some p⟩, .acquired k (k :: held))
  | .sleep k held, _ => some (.sleep k (.spin k) (.test k held))
  | .acquired k held, _ => some (.release (.spin k) (.idle held))
  | .clear k held, _ => some <| .access fun d =>
    (update d k ⟨false, none⟩, .wake k (held.erase k))
  | .wake k held, _ => some (.wakeup k (.released k held))
  | .released k held, _ => some (.release (.spin k) (.idle held))
  | .holding k held, _ => some <| .access fun d =>
    (d, .answer k held ((d k).locked && (d k).pid = some p))
  | .answer k held _, _ => some (.release (.spin k) (.idle held))

variable [DecidableEq P] {d : K → Sleeplock P} {ls : P → Loc K}

theorem guarded : Guarded (code (P := P)) (Loc.holds (K := K)) := by
  intro p l x op hop
  cases l with
  | idle held =>
    cases x with
    | releasesleep k =>
      simp only [code, Option.ite_none_right_eq_some, Option.some.injEq] at hop
      obtain ⟨-, rfl⟩ := hop
      simp [Op.Guards, Loc.holds]
    | _ =>
      cases hop
      simp [Op.Guards, Loc.holds]
  | test k held =>
    cases hop
    intro d
    dsimp only
    split <;> rfl
  | _ =>
    cases hop
    simp [Op.Guards, Loc.holds]

/-- What `d` says of the holders. -/
structure Owner (d : K → Sleeplock P) (ls : P → Loc K) : Prop where
  holder : ∀ p k, k ∈ (ls p).held → d k = ⟨true, some p⟩
  locked : ∀ k, (d k).locked = true → ∃ p, k ∈ (ls p).held
  nodup : ∀ p, (ls p).held.Nodup
  clear : ∀ p k held, ls p = .clear k held → k ∈ held

omit [DecidableEq K] [DecidableEq P] in
theorem Owner.eq (h : Owner d ls) {p q : P} {k : K} (hp : k ∈ (ls p).held) (hq : k ∈ (ls q).held) :
    p = q := by
  have heq := h.holder p k hp
  rw [h.holder q k hq] at heq
  exact (Option.some.inj (Sleeplock.mk.inj heq).2).symm

section Move

variable (h : Owner d ls) {p : P} {k : K} {held : List K}
include h

omit [DecidableEq K] in
/-- A thread moves, and what the locks say changes with it. -/
theorem Owner.move {d' : K → Sleeplock P} {l' : Loc K}
    (hin : ∀ k ∈ l'.held, d' k = ⟨true, some p⟩)
    (hother : ∀ q ≠ p, ∀ k ∈ (ls q).held, d' k = d k)
    (hlocked : ∀ k, (d' k).locked = true → k ∉ l'.held → (d k).locked = true ∧ k ∉ (ls p).held)
    (hnodup : l'.held.Nodup) (hclear : ∀ k held, l' = .clear k held → k ∈ held) :
    Owner d' (update ls p l') := by
  refine ⟨fun q k hk => ?_, fun k hk => ?_, fun q => ?_, fun q k held hq => ?_⟩
  · by_cases hqp : q = p
    · subst hqp
      exact hin k (by simpa using hk)
    · rw [update_of_ne hqp] at hk
      rw [hother q hqp k hk, h.holder q k hk]
  · by_cases hkp : k ∈ l'.held
    · exact ⟨p, by simpa using hkp⟩
    · obtain ⟨hd, hno⟩ := hlocked k hk hkp
      obtain ⟨q, hq⟩ := h.locked k hd
      have hqp : q ≠ p := fun he => hno (he ▸ hq)
      exact ⟨q, by simpa [hqp] using hq⟩
  · by_cases hqp : q = p
    · simpa [hqp] using hnodup
    · simpa [hqp] using h.nodup q
  · by_cases hqp : q = p
    · subst hqp
      exact hclear k held (by simpa using hq)
    · exact h.clear q k held (by simpa [hqp] using hq)

omit [DecidableEq K] in
/-- A thread moves without taking or giving back a sleep lock. -/
theorem Owner.of_held {l' : Loc K} (hheld : l'.held = (ls p).held)
    (hclear : ∀ k held, l' = .clear k held → k ∈ held) : Owner d (update ls p l') :=
  h.move (fun k hk => h.holder p k (hheld ▸ hk)) (fun _ _ _ _ => rfl)
    (fun _ hk hno => ⟨hk, hheld ▸ hno⟩) (hheld ▸ h.nodup p) hclear

/-- `acquiresleep` finds the lock free and takes it. -/
theorem Owner.acquire (hp : ls p = .test k held) (hk : (d k).locked = false) :
    Owner (update d k ⟨true, some p⟩) (update ls p (.acquired k (k :: held))) := by
  have hfree : ∀ q, k ∉ (ls q).held := by
    intro q hq
    rw [h.holder q k hq] at hk
    exact absurd hk (by simp)
  have hheld : (ls p).held = held := by rw [hp]; rfl
  refine h.move (fun k' hk' => ?_) (fun q _ k' hk' => ?_) (fun k' hk' hno => ?_) ?_ (by simp)
  · by_cases hkk : k' = k
    · simp [hkk]
    · rw [update_of_ne hkk]
      exact h.holder p k' (hheld ▸ (List.mem_cons.mp hk').resolve_left hkk)
  · exact update_of_ne (fun he : k' = k => hfree q (he ▸ hk')) _ _
  · obtain ⟨hkk, hno⟩ := not_or.mp (mt List.mem_cons.mpr hno)
    rw [update_of_ne hkk] at hk'
    exact ⟨hk', hheld ▸ hno⟩
  · exact List.nodup_cons.mpr ⟨hheld ▸ hfree p, hheld ▸ h.nodup p⟩

/-- `releasesleep` -/
theorem Owner.release (hp : ls p = .clear k held) :
    Owner (update d k ⟨false, none⟩) (update ls p (.wake k (held.erase k))) := by
  have hheld : (ls p).held = held := by rw [hp]; rfl
  have hmem : k ∈ (ls p).held := hheld ▸ h.clear p k held hp
  have hnd : held.Nodup := hheld ▸ h.nodup p
  refine h.move (fun k' hk' => ?_) (fun q hqp k' hk' => ?_) (fun k' hk' hno => ?_) (hnd.erase k)
    (by simp)
  · obtain ⟨hkk, hk'⟩ := hnd.mem_erase_iff.mp hk'
    rw [update_of_ne hkk]
    exact h.holder p k' (hheld ▸ hk')
  · exact update_of_ne (fun he : k' = k => hqp (h.eq (he ▸ hk') hmem)) _ _
  · have hkk : k' ≠ k := by
      rintro rfl
      simp at hk'
    rw [update_of_ne hkk] at hk'
    exact ⟨hk', fun hin => hno ((List.mem_erase_of_ne hkk).mpr (hheld ▸ hin))⟩

end Move

theorem ownerInv : ClientInv (code (P := P) (K := K)) Owner where
  access := by
    intro d ls p x f h hop
    cases hl : ls p with
    | idle held => cases x <;> simp [hl, code] at hop
    | test k held =>
      simp only [hl, code, Option.some.injEq, Op.access.injEq] at hop
      subst hop
      by_cases hk : (d k).locked = true
      · simpa [hk] using h.of_held (by simp [hl, Loc.held]) (by simp)
      · simpa [hk] using h.acquire hl (by simpa using hk)
    | clear k held =>
      simp only [hl, code, Option.some.injEq, Op.access.injEq] at hop
      subst hop
      exact h.release hl
    | holding k held =>
      simp only [hl, code, Option.some.injEq, Op.access.injEq] at hop
      subst hop
      exact h.of_held (by simp [hl, Loc.held]) (by simp)
    | _ => simp [hl, code] at hop
  next := by
    intro d ls p x op l' h hop hl'
    have hkeep : l'.held = (ls p).held ∧ ∀ k held, l' = .clear k held → k ∈ held := by
      cases hl : ls p with
      | idle held =>
        cases x with
        | releasesleep k =>
          simp only [hl, code, Option.ite_none_right_eq_some, Option.some.injEq] at hop
          obtain ⟨hk, rfl⟩ := hop
          obtain rfl := hl'
          simpa [Loc.held] using hk
        | _ =>
          simp only [hl, code, Option.some.injEq] at hop
          subst hop
          obtain rfl := hl'
          simp [Loc.held]
      | test | clear | holding =>
        simp only [hl, code, Option.some.injEq] at hop
        subst hop
        exact absurd hl' id
      | _ =>
        simp only [hl, code, Option.some.injEq] at hop
        subst hop
        obtain rfl := hl'
        simp [Loc.held]
    exact h.of_held hkeep.1 hkeep.2

theorem owner {s : State P K K (K → Sleeplock P) (Loc K)}
    (h : Reachable code (.idle []) (fun _ => init) s) : Owner s.data s.locs := by
  refine h.client ownerInv ⟨?_, ?_, ?_, ?_⟩ <;> simp [Loc.held, init]

/-- Waiting for the sleep lock `k` to be free. -/
def protocol (k : K) : Protocol K K (K → Sleeplock P) (Loc K) where
  chan := k
  lk := .spin k
  cond d := (d k).locked = false
  knows l := ∃ held, l = .sleep k held
  pending l := ∃ held, l = .wake k held

theorem careful (k : K) :
    Careful (code (P := P)) Loc.holds (fun _ _ => True) (protocol k) where
  knows_held := by
    rintro l ⟨held, rfl⟩
    rfl
  op := by
    intro d ls p x op _ hop
    generalize ls p = l at hop ⊢
    cases l with
    | idle held =>
      cases x with
      | releasesleep k' =>
        simp only [code, Option.ite_none_right_eq_some, Option.some.injEq] at hop
        obtain ⟨-, rfl⟩ := hop
        simp [Op.Careful, protocol]
      | _ =>
        cases hop
        simp [Op.Careful, protocol]
    | test k' held =>
      cases hop
      -- the lock is seen locked, or taken
      by_cases hk : (d k').locked = true
      · simp only [Op.Careful, protocol, hk, if_true]
        refine ⟨?_, by simp_all, by simp⟩
        rintro ⟨held', heq⟩
        rw [(Loc.sleep.inj heq).1] at hk
        simp [hk]
      · simp only [Op.Careful, protocol, hk]
        refine ⟨by simp, fun hno hyes => absurd hyes ?_, by simp⟩
        by_cases hkk : k = k' <;> simp_all
    | clear k' held =>
      cases hop
      refine ⟨by simp [protocol], fun hno hyes => ?_, by simp [protocol]⟩
      have hkk : k = k' := by
        by_contra hkk
        exact hno (by simpa [protocol, hkk] using hyes)
      subst hkk
      exact ⟨rfl, held.erase k, rfl⟩
    | sleep k' held =>
      cases hop
      refine ⟨?_, by simp [protocol], by simp [protocol]⟩
      rintro rfl
      exact ⟨rfl, held, rfl⟩
    | wake k' held =>
      cases hop
      refine ⟨by simp [protocol], ?_⟩
      rintro ⟨held', heq⟩
      exact Or.inl (by rw [(Loc.wake.inj heq).1]; rfl)
    | _ =>
      cases hop
      simp [Op.Careful, protocol]

end Sleeplock

/-- Nobody is left asleep. A condition whose sleepers test it under the lock and
sleep when it is false, and whose wakers make it true under the lock and call
`wakeup` afterwards, never holds with all wakers done and somebody asleep on
the channel. Sleep locks are such a case, and have one holder at most. -/
theorem no_lost_wakeup [DecidableEq P] {Λ C σ L ι : Type} [DecidableEq Λ] [DecidableEq C]
    {code : P → L → ι → Option (Op P Λ C σ L)} {holds : L → Set (Lock Λ)}
    {I : σ → (P → L) → Prop} {w : Protocol Λ C σ L} {l : L} {d : σ} (hg : Guarded code holds)
    (hl : holds l = ∅) (hI : ∀ s, Reachable code l d s → I s.data s.locs)
    (hc : Careful code holds I w) :
    (∀ s, Reachable code l d s → w.cond s.data → (∀ q, ¬ w.Pending (s.pc q)) →
      ∀ p, (s.proc p).state = .sleeping → (s.proc p).chan ≠ some w.chan) ∧
    ∀ (K : Type) [DecidableEq K] (s : State P K K (K → Sleeplock P) (Sleeplock.Loc K)),
      Reachable Sleeplock.code (.idle []) (fun _ => Sleeplock.init) s → ∀ k,
        ((s.data k).locked = false → (∀ q, ¬ (Sleeplock.protocol (P := P) k).Pending (s.pc q)) →
          ∀ p, (s.proc p).state = .sleeping → (s.proc p).chan ≠ some k) ∧
        ∀ p q, k ∈ (s.locs p).held → k ∈ (s.locs q).held → p = q := by
  refine ⟨fun s hs hcond hdone p hp => hs.awake hg hl hI hc hcond hdone p hp, ?_⟩
  intro K _ s hs k
  refine ⟨fun hk hdone p hp => ?_, fun p q hp hq => (Sleeplock.owner hs).eq hp hq⟩
  exact hs.awake Sleeplock.guarded rfl (fun _ _ => trivial) (Sleeplock.careful k) hk hdone p hp

/-! ### Producers and consumers -/

namespace Producer

/-- The next thing a thread does; a producer wakes before or after it releases. -/
inductive Call where
  | consume
  | produce (early : Bool)

inductive Loc where
  | idle
  | test
  | sleep
  | add (early : Bool)
  | earlyWake
  | lateRelease
  | lateWake
  | release

def Loc.holds : Loc → Set (Lock Unit)
  | .idle | .lateWake => ∅
  | .test | .sleep | .add _ | .earlyWake | .lateRelease | .release => {.spin ()}

/-- `consumer` and `producer`; the shared data is `value`. -/
def code (_ : P) : Loc → Call → Option (Op P Unit Unit ℕ Loc)
  | .idle, .consume => some (.acquire (.spin ()) .test)
  | .idle, .produce early => some (.acquire (.spin ()) (.add early))
  | .test, _ => some <| .access fun value =>
    if 0 < value then (value - 1, .release) else (value, .sleep)
  | .sleep, _ => some (.sleep () (.spin ()) .test)
  | .add early, _ => some <| .access fun value =>
    (value + 1, if early then .earlyWake else .lateRelease)
  | .earlyWake, _ => some (.wakeup () .release)
  | .lateRelease, _ => some (.release (.spin ()) .lateWake)
  | .lateWake, _ => some (.wakeup () .idle)
  | .release, _ => some (.release (.spin ()) .idle)

theorem guarded : Guarded (code (P := P)) Loc.holds := by
  intro p l x op hop
  cases l with
  | idle =>
    cases x <;> cases hop <;> simp [Op.Guards, Loc.holds]
  | test =>
    cases hop
    intro value
    dsimp only
    split <;> rfl
  | add early =>
    cases hop
    intro value
    cases early <;> rfl
  | _ =>
    cases hop
    simp [Op.Guards, Loc.holds]

def protocol : Protocol Unit Unit ℕ Loc where
  chan := ()
  lk := .spin ()
  cond value := 0 < value
  knows l := l = .sleep
  pending l := l = .earlyWake ∨ l = .lateRelease ∨ l = .lateWake

theorem careful : Careful (code (P := P)) Loc.holds (fun _ _ => True) protocol where
  knows_held := by
    rintro l rfl
    rfl
  op := by
    intro value ls p x op _ hop
    generalize ls p = l at hop ⊢
    cases l with
    | idle => cases x <;> cases hop <;> simp [Op.Careful, protocol]
    | test =>
      cases hop
      by_cases hv : 0 < value <;> simp [Op.Careful, protocol, hv]
    | add early =>
      cases hop
      cases early <;> simp [Op.Careful, protocol, Loc.holds]
    | _ =>
      cases hop
      simp [Op.Careful, protocol]

end Producer

/-- A consumer goes to sleep; a producer adds one, releases, and wakes it. -/
def handoverActions : List (Action Bool Producer.Call) :=
  List.replicate 5 (.step false .consume) ++ [.release] ++
    List.replicate 6 (.step true (.produce false))

def handover : Run (step (Producer.code (P := Bool))) :=
  Run.ofActions (State.init .idle 0) handoverActions (by decide +kernel)

theorem no_lost_wakeup_producer :
    ((handover.state 6).proc false).chan = some () ∧ 0 < (handover.state 12).data ∧
    ∀ p, ((handover.state 12).proc p).state ≠ .sleeping := by
  have hsched : (handover.state 12).pc false = .sched () (.spin ()) .test := rfl
  have hidle : (handover.state 12).pc true = .run .idle := rfl
  have hchan : ((handover.state 12).proc false).chan = some () := rfl
  have hpos : 0 < (handover.state 12).data := by decide +kernel
  refine ⟨rfl, hpos, fun p hp => ?_⟩
  have hno := (no_lost_wakeup Producer.guarded rfl (fun _ _ => trivial) Producer.careful).1
    (handover.state 12) (.of_run handover rfl (by decide)) hpos (fun q => ?_) p hp
  · cases p with
    | false => exact hno hchan
    | true => exact absurd hp (by decide +kernel)
  · cases q with
    | false => simp [hsched, Protocol.Pending, Producer.protocol, Pc.loc]
    | true => simp [hidle, Protocol.Pending, Producer.protocol, Pc.loc]

end Xv6.Sync
