import Xv6.Sync.Pipe

/-!
# Pipes are lossless FIFOs

The bytes in a pipe are those between the two free-running counters, which wrap
around `2^32`; `PIPESIZE` divides that, so the slots go round with them. What
`pipewrite` has stored so far is what `piperead` has copied so far, followed by
the contents.
-/

namespace Xv6.Sync.Pipe

/-! ### The ring -/

/-- The number of bytes in the pipe. -/
def len (p : Pipe) : ℕ := (p.nwrite - p.nread).toNat

def contents (p : Pipe) : List UInt8 :=
  (List.range p.len).map fun i => p.data (slot (p.nread + UInt32.ofNat i))

theorem slot_add (a : UInt32) (i : ℕ) :
    slot (a + UInt32.ofNat i) = ⟨(a.toNat + i) % PIPESIZE, Nat.mod_lt _ (by decide)⟩ := by
  rw [slot, Fin.mk.injEq, UInt32.toNat_add, UInt32.toNat_ofNat', PIPESIZE]
  omega

theorem full_iff (p : Pipe) : p.full = true ↔ p.len = PIPESIZE := by
  have hr := p.nread.toNat_lt
  have hw := p.nwrite.toNat_lt
  rw [full, decide_eq_true_iff, len, ← UInt32.toNat_inj, UInt32.toNat_add, UInt32.toNat_sub,
    UInt32.toNat_ofNat', PIPESIZE]
  omega

theorem empty_iff (p : Pipe) : p.nread = p.nwrite ↔ p.len = 0 := by
  have hr := p.nread.toNat_lt
  have hw := p.nwrite.toNat_lt
  rw [len, ← UInt32.toNat_inj, UInt32.toNat_sub]
  omega

theorem nwrite_eq (p : Pipe) : p.nwrite = p.nread + UInt32.ofNat p.len := by
  rw [len, UInt32.ofNat_toNat, UInt32.add_comm, UInt32.sub_add_cancel]

theorem len_store (p : Pipe) (b : UInt8) (h : p.len < PIPESIZE) : (p.store b).len = p.len + 1 := by
  have h1 : (1 : UInt32).toNat = 1 := rfl
  have hlen : (p.store b).len = (p.nwrite + 1 - p.nread).toNat := rfl
  rw [len, UInt32.toNat_sub, PIPESIZE] at h
  rw [hlen, len, UInt32.toNat_sub, UInt32.toNat_sub, UInt32.toNat_add, h1]
  omega

theorem len_copy (p : Pipe) (h : p.len ≠ 0) :
    ({ p with nread := p.nread + 1 } : Pipe).len = p.len - 1 := by
  have hr := p.nread.toNat_lt
  have h1 : (1 : UInt32).toNat = 1 := rfl
  have hlen : ({ p with nread := p.nread + 1 } : Pipe).len = (p.nwrite - (p.nread + 1)).toNat := rfl
  rw [len, UInt32.toNat_sub] at h
  rw [hlen, len, UInt32.toNat_sub, UInt32.toNat_sub, UInt32.toNat_add, h1]
  omega

/-- The slot of the byte that is stored is not one of those in use. -/
theorem contents_store (p : Pipe) (b : UInt8) (h : p.len < PIPESIZE) :
    (p.store b).contents = p.contents ++ [b] := by
  rw [contents, len_store p b h, List.range_succ, List.map_append, contents]
  congr 1
  · refine List.map_congr_left fun i hi => ?_
    have hi : i < p.len := List.mem_range.mp hi
    have hne : slot (p.nread + UInt32.ofNat i) ≠ slot p.nwrite := by
      rw [nwrite_eq, slot_add, slot_add, ne_eq, Fin.mk.injEq]
      rw [PIPESIZE] at h ⊢
      omega
    simp [store, hne]
  · have hnext : slot (p.nread + UInt32.ofNat p.len) = slot p.nwrite := by rw [← nwrite_eq]
    simp [store, hnext]

theorem contents_copy (p : Pipe) (h : p.len ≠ 0) :
    p.contents = p.data (slot p.nread) :: ({ p with nread := p.nread + 1 } : Pipe).contents := by
  obtain ⟨n, hn⟩ := Nat.exists_eq_succ_of_ne_zero h
  rw [contents, contents, len_copy p h, hn, List.range_succ_eq_map]
  simp only [List.map_cons, List.map_map, Nat.succ_sub_one]
  refine congrArg₂ _ ?_ (List.map_congr_left fun i _ => ?_)
  · simp
  · simp only [Function.comp_apply, Nat.succ_eq_add_one, UInt32.ofNat_add]
    congr 2
    change p.nread + (UInt32.ofNat i + 1) = p.nread + 1 + UInt32.ofNat i
    rw [UInt32.add_comm (UInt32.ofNat i), UInt32.add_assoc]

/-! ### Histories -/

variable {P : Type} [DecidableEq P] {s s' : State P Unit Chan Pipe Loc} {a : Action P (Call P)}
  {d : Pipe} {f : Pipe → Pipe × Loc} {x : Call P} {p : P} {op : Op P Unit Chan Pipe Loc} {n : ℕ}

/-- The byte of its argument that a step of `pipewrite` stores. -/
def stored (s : State P Unit Chan Pipe Loc) (a : Action P (Call P))
    (_ : State P Unit Chan Pipe Loc) : List UInt8 :=
  match a with
  | .step p _ =>
    match s.pc p with
    | .run (.writeLoop (b :: _)) => if s.data.full then [] else [b]
    | _ => []
  | _ => []

/-- The reader's buffer, as far as the copy loop has filled it. -/
def Loc.dst : Loc → List UInt8
  | .readCopy _ dst | .readDone dst => dst
  | _ => []

/-- What the buffer has at `l'` beyond what it had at `l`; all of it, if that has changed. -/
def Loc.gets (l l' : Loc) : List UInt8 := (l'.dst.dropPrefix? l.dst).getD l'.dst

/-- The bytes that a step puts into the buffer of the reader who makes it. -/
def delivered (s : State P Unit Chan Pipe Loc) (a : Action P (Call P))
    (s' : State P Unit Chan Pipe Loc) : List UInt8 :=
  match a with
  | .step p _ => (s.locs p).gets (s'.locs p)
  | _ => []

theorem Loc.gets_append {l l' : Loc} {bytes : List UInt8} (h : l'.dst = l.dst ++ bytes) :
    l.gets l' = bytes := by
  have hsome : l'.dst.dropPrefix? l.dst = some bytes := by
    rw [List.dropPrefix?_eq_some_iff]
    exact ⟨l.dst, h, by simp⟩
  rw [gets, hsome, Option.getD_some]

theorem Loc.gets_same {l l' : Loc} (h : l'.dst = l.dst) : l.gets l' = [] :=
  gets_append (by rw [h, List.append_nil])

theorem Loc.gets_nil {l l' : Loc} (h : l'.dst = []) : l.gets l' = [] := by
  rw [gets, h]
  cases l.dst <;> rfl

/-- What a step does to the ring: it stores a byte, copies one, or neither. -/
inductive RingStep (s : State P Unit Chan Pipe Loc) (a : Action P (Call P))
    (s' : State P Unit Chan Pipe Loc) : Prop where
  | store {b} (hfull : s.data.full = false) (hs : stored s a s' = [b])
      (hr : delivered s a s' = []) (hp : s'.data = s.data.store b)
  | copy (hne : s.data.nread ≠ s.data.nwrite) (hs : stored s a s' = [])
      (hr : delivered s a s' = [s.data.data (slot s.data.nread)])
      (hp : s'.data = { s.data with nread := s.data.nread + 1 })
  | neither (hs : stored s a s' = []) (hr : delivered s a s' = [])
      (hd : s'.data.data = s.data.data) (hnr : s'.data.nread = s.data.nread)
      (hnw : s'.data.nwrite = s.data.nwrite)

omit [DecidableEq P] in
theorem RingStep.of_data_eq (hs : stored s a s' = []) (hr : delivered s a s' = [])
    (hd : s'.data = s.data) : RingStep s a s' :=
  .neither hs hr (by rw [hd]) (by rw [hd]) (by rw [hd])

omit [DecidableEq P] in
/-- Only `pipewrite`'s loop and the copy loop touch the ring. -/
theorem RingStep.of_access (hpc : s.pc p = .run (s.locs p))
    (hop : code p (s.locs p) x = some (.access f)) (hdata : s'.data = (f s.data).1)
    (hloc : s'.locs p = (f s.data).2) : RingStep s (.step p x) s' := by
  have hget : delivered s (.step p x) s' = (s.locs p).gets (f s.data).2 := by rw [delivered, hloc]
  generalize s.locs p = l at hpc hop hget
  cases l with
  | idle => cases x <;> simp [code] at hop
  | writeLoop src =>
    obtain rfl := Op.access.inj (Option.some.inj hop)
    have hnil : delivered s (.step p x) s' = [] := by
      refine hget.trans (Loc.gets_nil ?_)
      unfold writeStep
      split
      · rfl
      · split_ifs <;> rfl
    cases src with
    | nil => exact .of_data_eq (by simp [stored, hpc]) hnil hdata
    | cons b rest =>
      cases hf : s.data.full with
      | true =>
        exact .of_data_eq (by simp [stored, hpc, hf]) hnil (by simp [hdata, writeStep, hf])
      | false =>
        exact .store (b := b) hf (by simp [stored, hpc, hf]) hnil (by simp [hdata, writeStep, hf])
  | readCopy n dst =>
    obtain rfl := Op.access.inj (Option.some.inj hop)
    have hst : stored s (.step p x) s' = [] := by simp [stored, hpc]
    cases n with
    | zero => exact .of_data_eq hst (hget.trans (Loc.gets_same rfl)) hdata
    | succ n =>
      by_cases he : s.data.nread = s.data.nwrite
      · simp only [copyStep, he, if_true] at hget hdata
        exact .of_data_eq hst (hget.trans (Loc.gets_same rfl)) hdata
      · simp only [copyStep, he, if_false] at hget hdata
        exact .copy he hst (hget.trans (Loc.gets_append rfl)) hdata
  | close writable =>
    obtain rfl := Op.access.inj (Option.some.inj hop)
    refine .neither (by simp [stored, hpc]) (hget.trans (Loc.gets_nil rfl)) ?_ ?_ ?_ <;>
      rw [hdata] <;> cases writable <;> rfl
  | closeFree =>
    obtain rfl := Op.access.inj (Option.some.inj hop)
    refine .neither (by simp [stored, hpc]) (hget.trans (Loc.gets_nil rfl)) ?_ ?_ ?_ <;> rw [hdata]
  | readLoop | closeTest =>
    obtain rfl := Op.access.inj (Option.some.inj hop)
    refine .of_data_eq (by simp [stored, hpc]) (hget.trans (Loc.gets_nil ?_)) hdata
    dsimp only
    split_ifs <;> rfl
  | _ => simp [code] at hop

omit [DecidableEq P] in
/-- A step without an access stores nothing. -/
theorem stored_of_not_access (h : ∀ p x f, a = .step p x → s.pc p = .run (s.locs p) →
    code p (s.locs p) x ≠ some (.access f)) : stored s a s' = [] := by
  cases a with
  | step p x =>
    cases hc : s.pc p with
    | run l =>
      have hl : s.locs p = l := by simp [State.locs, hc, Pc.loc]
      have hno := fun f => h p x f rfl (hl.symm ▸ hc)
      rw [hl] at hno
      cases l with
      | writeLoop src => exact absurd rfl (hno _)
      | _ => simp [stored, hc]
    | _ => simp [stored, hc]
  | _ => rfl

omit [DecidableEq P] in
/-- A buffer is filled by accesses only. -/
theorem next_dst {l l' : Loc} (hop : code p l x = some op) (hl' : op.Next l') : l'.dst = [] := by
  cases l with
  | idle => cases x <;> cases hop <;> obtain rfl := hl' <;> rfl
  | writeKilled | readKilled =>
    cases hop
    obtain rfl | rfl := hl' <;> rfl
  | writeLoop | readLoop | readCopy | close | closeTest | closeFree =>
    cases hop
    exact absurd hl' id
  | _ =>
    cases hop
    obtain rfl := hl'
    rfl

theorem ringStep (hs : step code s a = some s') : RingStep s a s' := by
  by_cases h : ∃ p x f, a = .step p x ∧ s.pc p = .run (s.locs p) ∧
      code p (s.locs p) x = some (.access f)
  · obtain ⟨p, x, f, rfl, hpc, hop⟩ := h
    obtain rfl := Option.some.inj ((step_of_access hpc hop).symm.trans hs)
    exact .of_access hpc hop rfl (by simp [State.locs, Pc.loc])
  · have hno : ∀ p x f, a = .step p x → s.pc p = .run (s.locs p) →
        code p (s.locs p) x ≠ some (.access f) :=
      fun p x f ha hpc hop => h ⟨p, x, f, ha, hpc, hop⟩
    have hst : stored s a s' = [] := stored_of_not_access hno
    cases step_client hs with
    | access hpc hop hdata hlocs => exact absurd hop (hno _ _ _ rfl hpc)
    | next hpc hop hl' hdata hlocs =>
      refine .of_data_eq hst ?_ hdata
      rw [delivered, hlocs, Function.update_self]
      exact Loc.gets_nil (next_dst hop hl')
    | quiet hdata hlocs =>
      refine .of_data_eq hst ?_ hdata
      unfold delivered
      split
      · rw [hlocs]
        exact Loc.gets_same rfl
      · rfl

/-- Of the bytes `written` the pipe still has those after the ones that have been `read`. -/
structure Fifo (p : Pipe) (written read : List UInt8) : Prop where
  len_le : p.len ≤ PIPESIZE
  eq : written = read ++ p.contents

omit [DecidableEq P] in
theorem Fifo.step {written read : List UInt8} (h : Fifo s.data written read)
    (hs : RingStep s a s') :
    Fifo s'.data (written ++ stored s a s') (read ++ delivered s a s') := by
  cases hs with
  | @store b hfull hs hr hp =>
    have hlt : s.data.len < PIPESIZE := by
      refine lt_of_le_of_ne h.len_le fun he => ?_
      rw [← full_iff, hfull] at he
      exact Bool.false_ne_true he
    rw [hs, hr, hp]
    refine ⟨?_, ?_⟩
    · rw [len_store _ _ hlt]
      exact hlt
    · rw [contents_store _ _ hlt, h.eq]
      simp
  | copy hne hs hr hp =>
    have hpos : s.data.len ≠ 0 := fun he => hne ((empty_iff _).mpr he)
    rw [hs, hr, hp]
    refine ⟨?_, ?_⟩
    · rw [len_copy _ hpos]
      exact (Nat.sub_le _ _).trans h.len_le
    · rw [h.eq, contents_copy _ hpos]
      simp
  | neither hs hr hd hnr hnw =>
    have hlen : s'.data.len = s.data.len := by rw [len, len, hnr, hnw]
    have hcon : s'.data.contents = s.data.contents := by rw [contents, contents, hlen, hd, hnr]
    rw [hs, hr]
    exact ⟨hlen ▸ h.len_le, by simp [hcon, h.eq]⟩

/-- A run that starts with an empty pipe keeps the pipe first in, first out. -/
theorem Fifo.of_run (r : Run (Sync.step (code (P := P)))) (h0 : (r.state 0).data.len = 0) {k : ℕ}
    (hk : k ≤ r.length) : Fifo (r.state k).data (r.trace stored k) (r.trace delivered k) := by
  refine r.induct_between
    (P := fun k => Fifo (r.state k).data (r.trace stored k) (r.trace delivered k))
    (Nat.zero_le k) hk ⟨by simp [h0], by simp [contents, h0]⟩ fun m _ _ hs ih => ?_
  rw [Run.trace_succ, Run.trace_succ]
  exact ih.step (ringStep hs)

/-! ### A `piperead` that returns 0 -/

/-- At position `k` thread `p` returns from the `piperead(n)` that it called at position
`i`, with no byte copied: it is about to release the lock and has got to the end of
the copy loop with nothing in its buffer. -/
structure ReturnsZero (r : Run (Sync.step (code (P := P)))) (p : P) (n i k : ℕ) : Prop where
  call : r.action i = .step p (.piperead n)
  entry : (r.state i).pc p = .run .idle
  inside : ∀ m, i < m → m ≤ k → (r.state m).locs p ≠ .idle
  done : ∃ m, i < m ∧ m ≤ k ∧ (r.state m).pc p = .run (.readDone [])
  exit : (r.state k).pc p = .run .release

/-- Empty, and nobody can write to it any more. -/
def Drained (p : Pipe) : Prop := p.nread = p.nwrite ∧ p.writeopen = false

/-- What is known of the pipe inside `piperead(n)`. -/
def Reads (n : ℕ) (d : Pipe) : Loc → Prop
  | .readLoop m | .readKilled m | .readSleep m => m = n
  | .readCopy m dst => m + dst.length = n ∧ (dst = [] → d.nread = d.nwrite → d.writeopen = false)
  | .readDone dst => dst = [] → Drained d
  | .release => True
  | _ => False

/-- The places inside `piperead` after which the lock is held until the end. -/
def Loc.copies : Loc → Bool
  | .readCopy _ _ | .readDone _ | .release => true
  | _ => false

/-- While `p` is there, nobody else changes what it knows. -/
theorem access_frame {q : P} (h : Reachable code .idle d s) (hl : (s.locs p).copies = true)
    (hpc : s.pc q = .run (s.locs q)) (hop : code q (s.locs q) x = some (.access f)) (hq : q ≠ p) :
    (f s.data).1.nread = s.data.nread ∧ (f s.data).1.nwrite = s.data.nwrite ∧
      (f s.data).1.writeopen = s.data.writeopen := by
  have hno : .spin () ∉ (s.locs q).holds := by
    intro hin
    refine hq ((h.inv guarded rfl).eq_of_held (k := .spin ()) ?_ (spin_mem_held h ?_ ?_))
    · rw [hpc]
      exact hin
    · cases hc : s.locs p <;> simp [hc, Loc.copies, Loc.holds] at hl ⊢
    · cases hc : s.locs p <;> simp [hc, Loc.copies, Loc.resumes] at hl ⊢
  generalize s.locs q = l at hop hno
  cases l with
  | idle => cases x <;> simp [code] at hop
  | closeFree =>
    obtain rfl := Op.access.inj (Option.some.inj hop)
    exact ⟨rfl, rfl, rfl⟩
  | _ => simp [Loc.holds] at hno

omit [DecidableEq P] in
theorem Reads.of_frame {d' : Pipe} {l : Loc} (h : Reads n d l)
    (hd : l.copies = true → d'.nread = d.nread ∧ d'.nwrite = d.nwrite ∧
    d'.writeopen = d.writeopen) :
    Reads n d' l := by
  cases l with
  | readCopy m dst =>
    obtain ⟨h₁, h₂, h₃⟩ := hd rfl
    exact ⟨h.1, fun he => by rw [h₁, h₂, h₃]; exact h.2 he⟩
  | readDone dst =>
    obtain ⟨h₁, h₂, h₃⟩ := hd rfl
    intro he
    rw [Drained, h₁, h₂, h₃]
    exact h he
  | _ => exact h

omit [DecidableEq P] in
theorem Reads.access (hn : 0 < n) {l : Loc} (h : Reads n d l)
    (hop : code p l x = some (.access f)) :
    Reads n (f d).1 (f d).2 := by
  cases l with
  | readLoop m =>
    obtain rfl := Op.access.inj (Option.some.inj hop)
    obtain rfl : m = n := h
    by_cases he : d.nread = d.nwrite ∧ d.writeopen
    · simp [he, Reads]
    · simp only [he, if_false]
      refine ⟨rfl, fun _ hempty => ?_⟩
      cases hw : d.writeopen with
      | true => exact absurd ⟨hempty, hw⟩ he
      | false => rfl
  | readCopy m dst =>
    obtain rfl := Op.access.inj (Option.some.inj hop)
    obtain ⟨hm, hdst⟩ := h
    cases m with
    | zero =>
      -- the loop has copied all `n > 0` bytes
      rintro rfl
      simp only [List.length_nil, Nat.add_zero] at hm
      omega
    | succ m =>
      by_cases he : d.nread = d.nwrite
      · simp only [copyStep, he, if_true]
        exact fun hnil => ⟨he, hdst hnil he⟩
      · simp only [copyStep, he, if_false]
        refine ⟨?_, fun hnil => absurd hnil (by simp)⟩
        simp only [List.length_append, List.length_singleton]
        omega
  | readKilled | readSleep | readDone | release => simp [code] at hop
  | _ => exact absurd h id

omit [DecidableEq P] in
theorem Reads.next {l l' : Loc} (h : Reads n d l) (hop : code p l x = some op) (hl' : op.Next l')
    (hidle : l' ≠ .idle) : Reads n d l' := by
  cases l with
  | readLoop | readCopy =>
    cases hop
    exact absurd hl' id
  | readKilled m =>
    cases hop
    obtain rfl | rfl := hl'
    · trivial
    · exact h
  | readSleep m =>
    cases hop
    exact hl' ▸ h
  | readDone dst =>
    cases hop
    exact hl' ▸ trivial
  | release =>
    cases hop
    exact absurd hl' hidle
  | _ => exact absurd h id

/-- One step of anybody while `p` is inside its call. -/
theorem Reads.step (hn : 0 < n) (hr : Reachable code .idle d s) (h : Reads n s.data (s.locs p))
    (hs : Sync.step code s a = some s') (hidle : s'.locs p ≠ .idle) :
    Reads n s'.data (s'.locs p) := by
  cases step_client hs with
  | @access q x f _ hpc hop hdata hlocs =>
    by_cases hq : q = p
    · subst hq
      rw [hdata, hlocs, Function.update_self]
      exact h.access hn hop
    · rw [hdata, hlocs, Function.update_of_ne (Ne.symm hq)]
      exact h.of_frame fun hl => access_frame hr hl hpc hop hq
  | @next q x op l' _ hpc hop hl' hdata hlocs =>
    rw [hdata]
    by_cases hq : q = p
    · subst hq
      rw [hlocs, Function.update_self] at hidle ⊢
      exact h.next hop hl' hidle
    · rw [hlocs, Function.update_of_ne (Ne.symm hq)]
      exact h
  | quiet hdata hlocs => rwa [hdata, hlocs]

/-- Once the copy loop has ended with nothing copied, the pipe stays drained until the release. -/
theorem Drained.step (hr : Reachable code .idle d s) (h : Drained s.data)
    (hl : s.locs p = .readDone [] ∨ s.locs p = .release) (hs : Sync.step code s a = some s')
    (hidle : s'.locs p ≠ .idle) :
    Drained s'.data ∧ (s'.locs p = .readDone [] ∨ s'.locs p = .release) := by
  have hcop : (s.locs p).copies = true := by
    obtain hl | hl := hl <;> rw [hl] <;> rfl
  cases step_client hs with
  | @access q x f _ hpc hop hdata hlocs =>
    by_cases hq : q = p
    · subst hq
      obtain hl | hl := hl <;> simp [hl, code] at hop
    · obtain ⟨h₁, h₂, h₃⟩ := access_frame hr hcop hpc hop hq
      rw [hdata, hlocs, Function.update_of_ne (Ne.symm hq), Drained, h₁, h₂, h₃]
      exact ⟨h, hl⟩
  | @next q x op l' _ hpc hop hl' hdata hlocs =>
    rw [hdata]
    refine ⟨h, ?_⟩
    by_cases hq : q = p
    · subst hq
      rw [hlocs, Function.update_self] at hidle ⊢
      obtain hl | hl := hl
      · rw [hl] at hop
        cases hop
        exact Or.inr hl'
      · rw [hl] at hop
        cases hop
        exact absurd hl' hidle
    · rwa [hlocs, Function.update_of_ne (Ne.symm hq)]
  | quiet hdata hlocs => exact ⟨hdata ▸ h, hlocs ▸ hl⟩

theorem ReturnsZero.drained {r : Run (Sync.step (code (P := P)))}
    (h0 : r.state 0 = State.init .idle d) {p : P} {n i k : ℕ} (hn : 0 < n) (hk : k ≤ r.length)
    (h : ReturnsZero r p n i k) : Drained (r.state k).data := by
  have hreach : ∀ m ≤ k, Reachable code .idle d (r.state m) :=
    fun m hm => .of_run r h0 (hm.trans hk)
  have hreads : ∀ m, i < m → m ≤ k → Reads n (r.state m).data ((r.state m).locs p) := by
    intro m hm
    induction m, hm using Nat.le_induction with
    | base =>
      intro hik
      have hs := r.next i (by omega)
      rw [h.call, step, State.stepProc, h.entry] at hs
      obtain ⟨-, hs⟩ := State.acquire_eq_some hs
      rw [State.locs, Nat.succ_eq_add_one, hs]
      simp [Pc.loc, Reads]
    | succ m hm ih =>
      intro hmk
      exact (ih (by omega)).step hn (hreach m (by omega)) (r.next m (by omega))
        (h.inside (m + 1) (by omega) hmk)
  obtain ⟨m, him, hmk, hpc⟩ := h.done
  have hloc : (r.state m).locs p = .readDone [] := by rw [State.locs, hpc, Pc.loc]
  have hm : Drained (r.state m).data := by
    have := hreads m him hmk
    rw [hloc] at this
    exact this rfl
  refine (r.induct_between (P := fun m => Drained (r.state m).data ∧
    ((r.state m).locs p = .readDone [] ∨ (r.state m).locs p = .release)) hmk hk ⟨hm, Or.inl hloc⟩
    fun m' hm' hlt hs ih => ?_).1
  exact ih.1.step (hreach m' hlt.le) ih.2 hs (h.inside (m' + 1) (by omega) hlt)

/-- In every run from what `pipealloc` sets up, the page's old bytes being anything: the
bytes that were stored are those that readers have got in their buffers, in this order,
followed by those in the pipe. -/
theorem pipe_lossless_fifo (data : Fin PIPESIZE → UInt8) (r : Run (Sync.step (code (P := P))))
    (h0 : r.state 0 = State.init .idle { alloc with data := data }) :
    (∀ k ≤ r.length,
      ((r.state k).data.nwrite - (r.state k).data.nread).toNat ≤ PIPESIZE ∧
      r.trace stored k = r.trace delivered k ++ (r.state k).data.contents) ∧
    ∀ p n i k, 0 < n → k ≤ r.length → ReturnsZero r p n i k →
      (r.state k).data.nread = (r.state k).data.nwrite ∧ (r.state k).data.writeopen = false := by
  refine ⟨fun k hk => ?_, fun p n i k hn hk h => h.drained h0 hn hk⟩
  have hempty : (r.state 0).data.len = 0 := by
    rw [h0]
    exact (empty_iff _).mp rfl
  have h := Fifo.of_run r hempty hk
  exact ⟨h.len_le, h.eq⟩

/-- One byte is written and read, the write end is closed, and the next read finds
nothing. Thread `true` writes, thread `false` reads. -/
def drainedActions : List (Action Bool (Call Bool)) :=
  List.replicate 7 (.step true (.pipewrite [7])) ++ List.replicate 8 (.step false (.piperead 2)) ++
    List.replicate 7 (.step true (.pipeclose true)) ++ List.replicate 6 (.step false (.piperead 1))

def drainedRun : Run (Sync.step (code (P := Bool))) :=
  Run.ofActions (State.init .idle alloc) drainedActions (by decide +kernel)

theorem drainedRun_returnsZero : ReturnsZero drainedRun false 1 22 28 where
  call := rfl
  entry := rfl
  inside m him hmk := by
    have hall : ∀ m < 29, 22 < m → (drainedRun.state m).locs false ≠ .idle := by decide +kernel
    exact hall m (by omega) him
  done := ⟨25, by decide, by decide, rfl⟩
  exit := rfl

theorem pipe_lossless_fifo_drainedRun :
    drainedRun.trace delivered 28 = [7] ∧
    drainedRun.trace stored 28 =
      drainedRun.trace delivered 28 ++ (drainedRun.state 28).data.contents ∧
    (drainedRun.state 28).data.writeopen = false := by
  obtain ⟨hfifo, hzero⟩ := pipe_lossless_fifo (fun _ => 0) drainedRun rfl
  exact ⟨by decide +kernel, (hfifo 28 (by decide)).2,
    (hzero false 1 22 28 (by decide) (by decide) drainedRun_returnsZero).2⟩

end Xv6.Sync.Pipe
