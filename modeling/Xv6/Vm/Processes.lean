import Xv6.Lib.Owners
import Xv6.Lib.Run
import Xv6.Vm.Copy

/-!
# The memory of many processes

Processes that fork, grow and shrink, store to their memory and are collected, one call after the
other, while `kalloc` may fail at any time. Each of them has a size and an array of bytes of its
own, with the flags of their pages: `fork` copies the array, `sbrk` cuts it off or lengthens it
with zeroes, and a store changes one byte where the program may write. Below that are page tables,
and free pages that go from hand to hand.
-/

namespace Xv6.Vm

open Bytes Function

/-! ### The calls -/

section Calls

variable (L : Layout)

/-- What `fork` does with memory, `allocproc` included; what is on the kernel stack is left out. -/
def fork (curproc : Proc) : M (Option Proc) := do
  match ← kalloc with
  | none => return none
  | some kstack =>
    match ← copyuvm L curproc.pgdir curproc.sz with
    | none =>
      kfree L kstack
      return none
    | some pgdir => return some ⟨curproc.sz, pgdir, kstack⟩

/-- What `wait` gives back of a zombie. -/
def collect (p : Proc) : M Unit := do
  kfree L p.kstack
  freevm L p.pgdir

/-- A page with these flags may be written to by the program. -/
def Writable (flags : ℕ) : Prop := flags &&& PTE_W ≠ 0 ∧ flags &&& PTE_U ≠ 0

instance : DecidablePred Writable := fun _ => inferInstanceAs (Decidable (_ ∧ _))

/-- A store by the program, which traps unless the page is there and may be written. -/
def store (p : Proc) (va : ℕ) (b : UInt8) : M Unit :=
  modify fun s =>
    match link (pte s p.pgdir (va / PGSIZE)) with
    | none => s
    | some x => if Writable (pte s p.pgdir (va / PGSIZE)) then s.write x (va % PGSIZE) [b] else s

/-- The memory, and the processes that have an address space. -/
structure World (P : Type) where
  vm : State
  proc : P → Option Proc
  panicked : Option Panic

inductive Act (P : Type) where
  | fork (p child : P)
  | sbrk (p : P) (n : ℤ)
  | store (p : P) (va : ℕ) (b : UInt8)
  | wait (p : P)

instance {P : Type} [Inhabited P] : Inhabited (Act P) := ⟨.wait default⟩

variable {P : Type}

/-- The process that changes. -/
def Act.target : Act P → P
  | .fork _ c => c
  | .sbrk p _ | .store p _ _ | .wait p => p

/-- What is run, and leaves the process `target` as it returns. A `fork` has a slot for the
child, the argument of `sbrk` is an `int`, and stores are to the user part. -/
def Act.code (w : World P) : Act P → Option (M (Option Proc))
  | .fork p c => if (w.proc c).isNone then (w.proc p).map (Vm.fork L) else none
  | .sbrk p n =>
    if -2 ^ 31 ≤ n ∧ n < 2 ^ 31 then
      (w.proc p).map fun q => do
        let r ← growproc L q n
        return some r.2
    else none
  | .store p va b =>
    if va < KERNBASE then
      (w.proc p).map fun q => do
        Vm.store q va b
        return some q
    else none
  | .wait p => (w.proc p).map fun q => do
    collect L q
    return none

def step [DecidableEq P] (w : World P) (a : Act P) : Option (World P) :=
  if w.panicked ≠ none then none
  else (a.code L w).map fun m =>
    match m.run w.vm with
    | .ok (o, s) => { w with vm := s, proc := update w.proc a.target o }
    | .error e => { w with panicked := some e }

end Calls

/-! ### What the programs see -/

/-- The bytes that the process has pages for, each with the flags of its page. -/
@[ext]
structure Memory where
  size : ℕ
  cell : ℕ → Option (ℕ × UInt8)

def Memory.resize (m : Memory) (size : ℕ) : Memory where
  size := size
  cell va := if va < PGSIZE * npages size then
    some ((m.cell va).getD (PTE_W ||| PTE_U ||| PTE_P, 0)) else none

def Memory.store (m : Memory) (va : ℕ) (b : UInt8) : Memory :=
  match m.cell va with
  | some (flags, _) =>
    if Writable flags then { m with cell := update m.cell va (some (flags, b)) } else m
  | none => m

/-- What the calls are for. With `plenty k` memory does not run out before `k` pages are taken: then
`fork` and `sbrk` succeed, a directory having no more than 1024 tables. Where they fail, they do
nothing. -/
inductive Spec {P : Type} [DecidableEq P] (plenty : ℕ → Prop) :
    (P → Option Memory) → Act P → (P → Option Memory) → Prop
  | fork {A p c m} : A p = some m → A c = none → Spec plenty A (.fork p c) (update A c (some m))
  | noFork {A p c m} : A p = some m → ¬plenty (1027 + npages m.size) → Spec plenty A (.fork p c) A
  | sbrk {A p n m} {size : ℕ} : A p = some m → (size : ℤ) = m.size + n → size < KERNBASE →
      Spec plenty A (.sbrk p n) (update A p (some (m.resize size)))
  | noSbrk {A p m} {n : ℤ} : A p = some m → m.size + n < 0 ∨ KERNBASE ≤ m.size + n ∨
      0 < n ∧ ¬plenty (1026 + npages (m.size + n).toNat) → Spec plenty A (.sbrk p n) A
  | store {A p va b m} : A p = some m →
      Spec plenty A (.store p va b) (update A p (some (m.store va b)))
  | wait {A p} : Spec plenty A (.wait p) (update A p none)

def memory (s : State) (q : Proc) : Memory where
  size := q.sz
  cell va := if va < KERNBASE then
    (view s q.pgdir (va / PGSIZE)).map fun e => (PTE_FLAGS e.1, e.2 (va % PGSIZE)) else none

/-- `kalloc` refuses no call, and more than `k` pages are free. -/
def Plenty (s : State) (k : ℕ) : Prop := s.Willing ∧ k < s.freelist.length

def World.memory {P : Type} (w : World P) (p : P) : Option Memory := (w.proc p).map (Vm.memory w.vm)

/-! ### Pages and their owners -/

/-- The pages of a process. -/
def owned (s : State) (o : Option Proc) : Multiset ℕ :=
  o.elim 0 fun q => {q.kstack} + pages s q.pgdir

/-- The process has the pages below its size, with any flags. -/
structure Proc.Ok (s : State) (q : Proc) : Prop where
  sz_lt : q.sz < KERNBASE
  mapped : ∀ u < 2 ^ 19, (view s q.pgdir u).isSome ↔ u < npages q.sz

/-- Every page of `R` is free or belongs to one process, once. -/
structure World.Sound {P : Type} [Fintype P] (L : Layout) (w : World P) (R : Finset ℕ) : Prop where
  panicked : w.panicked = none
  sum : (↑w.vm.freelist + ∑ p, owned w.vm (w.proc p) : Multiset ℕ) = R.val
  page : ∀ x ∈ R, KPage L x
  ok : ∀ p q, w.proc p = some q → q.Ok w.vm

/-- Pages that are at hand to the process `c`: its own and the free ones. -/
structure World.Near {P : Type} (L : Layout) (w : World P) (c : P) (R : Finset ℕ) : Prop where
  free : Free L w.vm (owned w.vm (w.proc c)) R
  other : ∀ p ≠ c, ∀ x ∈ owned w.vm (w.proc p), x ∉ R

section Owned

variable {P : Type} {L : Layout} {s s' : State} {q : Proc} {w : World P} {R R' : Finset ℕ} {c p : P}
  {x : ℕ} {held : Multiset ℕ}

@[simp] theorem owned_none : owned s none = 0 := by rw [owned, Option.elim_none]

@[simp] theorem owned_some : owned s (some q) = {q.kstack} + pages s q.pgdir := by
  rw [owned, Option.elim_some]

theorem page_lt {va : ℕ} (h : va < KERNBASE) : va / PGSIZE < 2 ^ 19 :=
  Nat.div_lt_of_lt_mul (h.trans_eq (by decide))

/-- What is seen of a process is what is in its pages. -/
theorem see_congr {s' : State} (hview : ∀ u < 2 ^ 19, view s' q.pgdir u = view s q.pgdir u) :
    memory s' q = memory s q ∧ (q.Ok s → q.Ok s') := by
  refine ⟨Memory.ext rfl ?_, fun hok => ⟨hok.sz_lt, fun u hu => ?_⟩⟩
  · funext va
    simp only [memory]
    split
    · next hva => rw [hview _ (page_lt hva)]
    · rfl
  · rw [hview u hu]
    exact hok.mapped u hu

/-- A process whose pages are as they were. -/
theorem owned_congr (h : ∀ x ∈ pages s q.pgdir, s'.mem x = s.mem x) :
    owned s' (some q) = owned s (some q) ∧ memory s' q = memory s q ∧ (q.Ok s → q.Ok s') := by
  obtain ⟨-, hpte, hpages⟩ := pages_congr h
  refine ⟨by rw [owned_some, owned_some, hpages], see_congr fun u hu =>
    view_congr (hpte u (by omega)) fun x hx => ?_⟩
  exact h x (mem_pages.mpr (.inr (.inr (mem_shares.mpr ⟨u, hu, hx⟩))))

variable [Fintype P] [DecidableEq P]

theorem World.Sound.near (h : w.Sound L R) (c : P) : ∃ R', w.Near L c R' := by
  have hnodup : (↑w.vm.freelist + ∑ p, owned w.vm (w.proc p) : Multiset ℕ).Nodup :=
    h.sum ▸ R.nodup
  refine ⟨⟨_, Owners.nodup hnodup c⟩, ⟨rfl, fun x hx => h.page x ?_⟩,
    fun p hp x hx => Owners.disjoint hnodup hp hx⟩
  rw [← Finset.mem_val, ← h.sum, Owners.split _ _ c]
  exact Multiset.mem_add.mpr (.inl hx)

/-- A process changes with the pages at hand to it, and the others see nothing of it. -/
theorem World.Sound.put (h : w.Sound L R) (hn : w.Near L c R') {o : Option Proc}
    (hfree : Free L s' (owned s' o) R') (hframe : ∀ x ∉ R', s'.mem x = w.vm.mem x)
    (hok : ∀ q, o = some q → q.Ok s') :
    World.Sound L { w with vm := s', proc := update w.proc c o } R ∧
      World.memory { w with vm := s', proc := update w.proc c o } =
        update w.memory c (o.map (Vm.memory s')) := by
  have hother : ∀ p ≠ c, owned s' (update w.proc c o p) = owned w.vm (w.proc p) ∧
      (update w.proc c o p).map (Vm.memory s') = w.memory p ∧
      ∀ q, update w.proc c o p = some q → q.Ok s' := by
    intro p hp
    rw [update_of_ne hp, World.memory]
    cases hq : w.proc p with
    | none =>
      refine ⟨by rw [owned_none, owned_none], by rw [Option.map_none, Option.map_none],
        fun q hq => ?_⟩
      cases hq
    | some q =>
      have hsame : ∀ x ∈ pages w.vm q.pgdir, s'.mem x = w.vm.mem x := fun x hx =>
        hframe x (hn.other p hp x (by rw [hq, owned_some]; exact Multiset.mem_add.mpr (.inr hx)))
      obtain ⟨h1, h2, h3⟩ := owned_congr hsame
      refine ⟨h1, by rw [Option.map_some, h2, Option.map_some], fun q' hq' => ?_⟩
      cases hq'
      exact h3 (h.ok p q hq)
  have hsum : (↑s'.freelist + ∑ p, owned s' (update w.proc c o p) : Multiset ℕ) =
      ↑w.vm.freelist + ∑ p, owned w.vm (w.proc p) := by
    refine Owners.sum_eq (c := c) (fun p hp => (hother p hp).1) ?_
    rw [update_self, hfree.sum, hn.free.sum]
  refine ⟨⟨h.panicked, hsum.trans h.sum, h.page, fun p q hq => ?_⟩, ?_⟩
  · by_cases hp : p = c
    · subst hp
      exact hok q (by simpa only [update_self] using hq)
    · exact (hother p hp).2.2 q hq
  · funext p
    by_cases hp : p = c
    · subst hp
      rw [update_self]
      exact congrArg _ (update_self ..)
    · rw [update_of_ne hp]
      exact (hother p hp).2.1

end Owned

/-! ### One call -/

/-- The call gets by with the pages of `R`, which are free or belong to the process, and leaves a
process as `T` says. -/
def Does (L : Layout) (s : State) (R : Finset ℕ) (m : M (Option Proc)) (T : Option Memory → Prop) :
    Prop :=
  wp m (fun o s' => Free L s' (owned s' o) R ∧ (∀ x ∉ R, s'.mem x = s.mem x) ∧
    (∀ q, o = some q → q.Ok s') ∧ T (o.map (memory s'))) (fun _ => False) s

section Does

variable {L : Layout} {s s' : State} {q : Proc} {R : Finset ℕ} {x d k va : ℕ} {n : ℤ} {b : UInt8}
  {held : Multiset ℕ}

theorem Free.erase (h : Free L s ({x} + held) R) : Free L s held (R.erase x) where
  sum := by
    rw [Finset.erase_val, ← h.sum, add_left_comm, Multiset.singleton_add,
      Multiset.erase_cons_head]
  page y hy := h.page y (Finset.mem_of_mem_erase hy)

theorem Free.cons (h : Free L s held (R.erase x)) (hx : x ∈ R) (hpage : ∀ y ∈ R, KPage L y) :
    Free L s ({x} + held) R where
  sum := by
    rw [add_left_comm, Multiset.singleton_add, h.sum, Finset.erase_val, Multiset.cons_erase hx]
  page := hpage

theorem Free.mem (h : Free L s ({x} + held) R) : x ∈ R := by
  rw [← Finset.mem_val, ← h.sum]
  simp

/-- The address space, when the kernel stack is put aside. -/
theorem Free.user (h : Free L s (owned s (some q)) R) (hok : q.Ok s) :
    UserSpace L s q (R.erase q.kstack) := by
  rw [owned_some] at h
  refine ⟨Free.space ?_, (h.page _ h.mem).ne_zero, hok.sz_lt, hok.mapped⟩
  rw [add_zero]
  exact h.erase

theorem Space.owned (h : Space L s q.pgdir 0 (R.erase q.kstack)) (hk : q.kstack ∈ R)
    (hpage : ∀ y ∈ R, KPage L y) : Free L s (owned s (some q)) R := by
  have hfree := h.free
  rw [add_zero] at hfree
  rw [owned_some]
  exact hfree.cons hk hpage

theorem Proc.Ok.view_none (hok : q.Ok s) {u : ℕ} (hu : u < 2 ^ 19) (hge : ¬u < npages q.sz) :
    view s q.pgdir u = none :=
  Option.not_isSome_iff_eq_none.mp (mt (hok.mapped u hu).mp hge)

theorem Proc.Ok.parent (hok : q.Ok s) (hout : ∀ x ∈ pages s q.pgdir, x ∉ R) :
    Parent s q.pgdir q.sz R := by
  refine ⟨hout _ (mem_pages.mpr (.inl rfl)), fun d hd t ht => ?_, fun u hu => ?_⟩
  · exact hout t (mem_pages.mpr (.inr (.inl (mem_shares.mpr ⟨d, hd, ht⟩))))
  · have hu' : u < 2 ^ 19 := lt_of_lt_of_le hu (npages_le hok.sz_lt.le)
    have hsome := (hok.mapped u hu').mpr hu
    rw [view_isSome] at hsome
    obtain ⟨x, hx⟩ := Option.isSome_iff_exists.mp hsome
    exact ⟨x, hx, hout x (mem_pages.mpr (.inr (.inr (mem_shares.mpr ⟨u, hu', hx⟩))))⟩

/-- The child sees what its parent sees. -/
theorem Copied.child (hc : Copied L s s' q.pgdir d (npages q.sz) R) (hok : q.Ok s) :
    Proc.Ok s' ⟨q.sz, d, k⟩ ∧ memory s' ⟨q.sz, d, k⟩ = memory s q := by
  have hnone : ∀ u < 2 ^ 19, ¬u < npages q.sz → view s' d u = none := fun u hu hge =>
    view_eq_none (by rw [hc.rest u (by omega) (not_lt.mp hge), kpte_user hu])
  refine ⟨⟨hok.sz_lt, fun u hu => ?_⟩, Memory.ext rfl ?_⟩
  · by_cases hlt : u < npages q.sz
    · obtain ⟨x, y, -, hy, -⟩ := hc.page u hlt
      rw [view_isSome, hy]
      exact ⟨fun _ => hlt, fun _ => rfl⟩
    · rw [hnone u hu hlt]
      exact ⟨fun h => absurd h (by decide), fun h => absurd h hlt⟩
  · funext va
    simp only [memory]
    split
    · next hva =>
      by_cases hlt : va / PGSIZE < npages q.sz
      · obtain ⟨x, y, hx, hy, hflags, hmem⟩ := hc.page _ hlt
        rw [view, view, hx, hy]
        simp only [Option.map_some, hflags, hmem]
      · rw [hnone _ (page_lt hva) hlt, hok.view_none (page_lt hva) hlt]
    · rfl

theorem does_fork (h : Free L s 0 R) (hout : ∀ x ∈ pages s q.pgdir, x ∉ R) (hok : q.Ok s) :
    Does L s R (fork L q) fun o =>
      o = some (memory s q) ∨ o = none ∧ ¬Plenty s (1027 + npages q.sz) := by
  have hcard : s.freelist.length = R.card := by
    rw [← Multiset.coe_card, ← Finset.card_val, ← h.sum, add_zero]
  rw [Does, fork, wp_bind]
  refine wp_kalloc (fun s₁ hmem hfree _ hnil => ?_) fun k s₁ hmem hfree hw => ?_
  · refine ⟨⟨?_, h.page⟩, fun x _ => by rw [hmem],
      fun q hq => (by cases hq), .inr ⟨rfl, fun hp => ?_⟩⟩
    · rw [owned_none, hfree, h.sum]
    · have hlt := hp.2
      rw [← hfree, hnil hp.1] at hlt
      exact absurd hlt (Nat.not_lt_zero _)
  · have h₁ : Free L s₁ ({k} + 0) R := h.kalloc hfree
    have hsame : ∀ x ∈ pages s q.pgdir, s₁.mem x = s.mem x := fun x _ => by rw [hmem]
    obtain ⟨-, hsee, hok₁⟩ := owned_congr hsame
    have hp : Parent s₁ q.pgdir q.sz (R.erase k) := (hok₁ hok).parent fun x hx hin =>
      hout x ((pages_congr hsame).2.2 ▸ hx) (Finset.mem_of_mem_erase hin)
    have hframe : ∀ {s₂ : State}, (∀ x ∉ R.erase k, s₂.mem x = s₁.mem x) → ∀ x ∉ R,
        s₂.mem x = s.mem x := fun hs x hx => by
      rw [hs x fun hin => hx (Finset.mem_of_mem_erase hin), hmem]
    simp only [wp_bind]
    refine (wp_copyuvm h₁.erase hp hok.sz_lt).mono ?_ fun _ => id
    intro r s₂ hr
    cases r with
    | none =>
      obtain ⟨h₂, hframe₂, hshort⟩ := hr
      have h₂' := h₂.cons h₁.mem h.page
      simp only [wp_bind]
      rw [wp_kfree (h.page k h₁.mem)]
      refine ⟨⟨?_, h.page⟩, fun x hx => ?_, fun q hq => (by cases hq), .inr ⟨rfl, fun hp => ?_⟩⟩
      · rw [owned_none, ← h₂'.sum, add_zero, add_zero]
        exact (Multiset.cons_coe ..).symm.trans (by rw [← Multiset.singleton_add, add_comm])
      · have hxk : x ≠ k := fun he => hx (he ▸ h₁.mem)
        exact (mem_fill_of_ne s₂ hxk).trans (hframe hframe₂ x hx)
      · have hlt := hp.2
        have hle := hshort (hw hp.1)
        rw [Finset.card_erase_of_mem h₁.mem] at hle
        omega
    | some d =>
      obtain ⟨hok', hsee'⟩ := hr.child (k := k) (hok₁ hok)
      refine ⟨Space.owned hr.space h₁.mem h.page, hframe hr.frame, fun q' hq => ?_, .inl ?_⟩
      · cases hq
        exact hok'
      · rw [Option.map_some, hsee', hsee]

/-- Pages of zeroes, or fewer pages. -/
theorem Resized.process {q' : Proc} (hr : Resized s s' q q' n) (hok : q.Ok s)
    (hlt : q.sz + n < KERNBASE) : q'.Ok s' ∧ memory s' q' = (memory s q).resize q'.sz := by
  have hsz := hr.sz
  refine ⟨⟨by omega, fun u hu => ?_⟩, Memory.ext rfl ?_⟩
  · rw [hr.pgdir]
    exact hr.mapped u hu
  · funext va
    simp only [memory, Memory.resize, mul_comm PGSIZE,
      ← Nat.div_lt_iff_lt_mul (show 0 < PGSIZE by decide)]
    by_cases hva : va < KERNBASE
    · rw [if_pos hva, if_pos hva, hr.pgdir]
      by_cases hlt' : va / PGSIZE < npages q'.sz
      · rw [if_pos hlt']
        by_cases hold : va / PGSIZE < npages q.sz
        · obtain ⟨e, he⟩ := Option.isSome_iff_exists.mp ((hok.mapped _ (page_lt hva)).mpr hold)
          rw [hr.old _ (page_lt hva) hold hlt', he]
          rfl
        · obtain ⟨w, hw, hv⟩ := hr.new _ (page_lt hva) (not_lt.mp hold) hlt'
          rw [hv, hok.view_none (page_lt hva) hold, Option.map_some, hw]
          rfl
      · have hnone : view s' q.pgdir (va / PGSIZE) = none :=
          Option.not_isSome_iff_eq_none.mp (mt (hr.mapped _ (page_lt hva)).mp hlt')
        rw [if_neg hlt', hnone, Option.map_none]
    · have hge : ¬va / PGSIZE < npages q'.sz := fun hlt' => hva (by
        have hle : npages q'.sz ≤ 2 ^ 19 := npages_le (by omega)
        rw [KERNBASE]
        rw [PGSIZE] at hlt'
        omega)
      rw [if_neg hva, if_neg hge]

theorem does_sbrk (h : Free L s (owned s (some q)) R) (hok : q.Ok s) (hmin : -2 ^ 31 ≤ n)
    (hmax : n < 2 ^ 31) (hcareful : 0 < q.sz → q.sz + n ≠ 0) :
    Does L s R (do let r ← growproc L q n; return some r.2) fun o =>
      (∃ size : ℕ, (size : ℤ) = q.sz + n ∧ size < KERNBASE ∧
        o = some ((memory s q).resize size)) ∨
      o = some (memory s q) ∧ (q.sz + n < 0 ∨ KERNBASE ≤ q.sz + n ∨
        0 < n ∧ ¬Plenty s (1026 + npages (q.sz + n).toNat)) := by
  have hu := h.user hok
  have hk : q.kstack ∈ R := Free.mem (owned_some ▸ h)
  have hlen : s.freelist.length ≤ (R.erase q.kstack).card := by
    have hcard := congrArg Multiset.card hu.space.sum
    simp only [Multiset.card_add, Multiset.coe_card, Finset.card_val] at hcard
    omega
  rw [Does, wp_bind]
  refine (wp_growproc hu hmin hmax).mono ?_ fun _ => id
  rintro ⟨r, q'⟩ s' ⟨h', hframe, hcase⟩
  have howned : q'.pgdir = q.pgdir → q'.kstack = q.kstack → Free L s' (owned s' (some q')) R :=
    fun hdir hstack => Space.owned (by rw [hdir, hstack]; exact h') (hstack ▸ hk) h.page
  have hout : ∀ x ∉ R, s'.mem x = s.mem x := fun x hx =>
    hframe x fun hin => hx (Finset.mem_of_mem_erase hin)
  cases hcase with
  | exact _ hlt hr hstack =>
    obtain ⟨hsame, hsee⟩ := hr.process hok hlt
    have hsz := hr.sz
    refine ⟨howned hr.pgdir hstack, hout, fun q hq => ?_,
      .inl ⟨q'.sz, hsz, by omega, by rw [Option.map_some, hsee]⟩⟩
    cases hq
    exact hsame
  | refused hview hwhy =>
    obtain ⟨hsee, hsame⟩ := see_congr hview
    refine ⟨howned rfl rfl, hout, fun q hq => ?_, .inr ⟨by rw [Option.map_some, hsee], ?_⟩⟩
    · cases hq
      exact hsame hok
    · rcases hwhy with hneg | hbig | ⟨hpos, hshort⟩
      · exact .inl (by omega)
      · exact .inr (.inl hbig)
      · refine .inr (.inr ⟨hpos, fun hp => ?_⟩)
        have hle := hshort hp.1
        have hlt := hp.2
        omega
  | below _ hneg =>
    refine ⟨howned rfl rfl, hout, fun q hq => ?_, .inr ⟨rfl, .inl hneg⟩⟩
    cases hq
    exact hok
  | emptied hpos hzero => exact absurd hzero (hcareful hpos)

theorem does_wait (h : Free L s (owned s (some q)) R) :
    Does L s R (do collect L q; return none) (· = none) := by
  rw [owned_some] at h
  have hspace : Space L s q.pgdir ({q.kstack} + 0) R :=
    Free.space ⟨by rw [← h.sum, add_zero, add_comm (pages _ _)], h.page⟩
  simp only [Does, collect, wp_bind]
  rw [wp_kfree (h.page _ h.mem)]
  refine (wp_freevm hspace.give.1).mono ?_ fun _ => id
  rintro _ s' ⟨h', hframe⟩
  refine ⟨by rw [owned_none]; exact h', fun x hx => ?_, fun q hq => (by cases hq), rfl⟩
  have hxk : x ≠ q.kstack := fun he => hx (he ▸ h.mem)
  exact (hframe x (.inl hx)).trans (mem_fill_of_ne s hxk)

/-- A page of the process gets other contents. -/
theorem Space.setPage (h : Space L s q.pgdir held R) {u : ℕ} (hu : u < 2 ^ 19)
    (hx : link (pte s q.pgdir u) = some x) (hfree : s'.freelist = s.freelist)
    (hmem : ∀ y ≠ x, s'.mem y = s.mem y) : Space L s' q.pgdir held R ∧
      ∀ v < 2 ^ 19, view s' q.pgdir v =
        if v = u then some (pte s q.pgdir u, s'.mem x) else view s q.pgdir v := by
  have hout := (h.user hu hx).2.1
  simp only [Multiset.mem_add, Multiset.mem_singleton, not_or] at hout
  have hdir : s'.mem q.pgdir = s.mem q.pgdir := hmem _ (Ne.symm hout.1.2)
  have hpte : ∀ v < 2 ^ 20, pte s' q.pgdir v = pte s q.pgdir v := fun v hv =>
    pte_congr hdir fun t ht => hmem t fun he =>
      hout.2 (mem_shares.mpr ⟨v / 1024, by omega, he ▸ ht⟩)
  have husers : users s' q.pgdir = users s q.pgdir :=
    shares_congr fun v hv => by rw [hpte v (by omega)]
  refine ⟨⟨?_, h.page⟩, fun v hv => ?_⟩
  · rw [← h.sum, hfree, husers, tables, tables, tab_congr hdir]
  · split
    · next heq => rw [heq, view, hpte u (by omega), hx, Option.map_some]
    · next hne =>
      exact view_congr (hpte v (by omega)) fun y hy => hmem y fun he =>
        hne (h.user_inj hv hu (he ▸ hy) hx)

theorem writable_flags (w : ℕ) : Writable (PTE_FLAGS w) ↔ Writable w := by
  have hand : ∀ m < 2 ^ 12, PTE_FLAGS w &&& m = w &&& m := fun m hm => by
    have hmod : (w &&& m) % 2 ^ 12 = w &&& m := Nat.mod_eq_of_lt (Nat.and_lt_two_pow w hm)
    rw [← hmod, Nat.and_mod_two_pow, Nat.mod_eq_of_lt hm]
    rfl
  rw [Writable, Writable, hand _ (by decide), hand _ (by decide)]

theorem blit_singleton (f : ℕ → UInt8) (i j : ℕ) : blit f i [b] j = if j = i then b else f j := by
  split
  · next heq =>
    rw [heq]
    exact blit_add (i := 0) (l := [b]) Nat.one_pos
  · next hne =>
    rcases lt_or_gt_of_ne hne with hlt | hgt
    · exact blit_of_lt hlt
    · exact blit_of_ge hgt

theorem does_store (h : Free L s (owned s (some q)) R) (hok : q.Ok s) (hva : va < KERNBASE) :
    Does L s R (do store q va b; return some q) (· = some ((memory s q).store va b)) := by
  have hspace := (h.user hok).space
  have hk : q.kstack ∈ R := Free.mem (owned_some ▸ h)
  have hu := page_lt hva
  -- where the store traps
  have htrap : (memory s q).store va b = memory s q → Free L s (owned s (some q)) R ∧
      (∀ x ∉ R, s.mem x = s.mem x) ∧ (∀ q', some q = some q' → q'.Ok s) ∧
      (some q).map (memory s) = some ((memory s q).store va b) := fun hsame => by
    refine ⟨h, fun _ _ => rfl, fun q' hq => ?_, by rw [hsame, Option.map_some]⟩
    cases hq
    exact hok
  simp only [Does, store, wp_bind, wp_modify]
  cases hx : link (pte s q.pgdir (va / PGSIZE)) with
  | none =>
    refine htrap ?_
    have hcell : (memory s q).cell va = none := by
      simp only [memory, if_pos hva, view, hx, Option.map_none]
    rw [Memory.store, hcell]
  | some x =>
    have hcell : (memory s q).cell va =
        some (PTE_FLAGS (pte s q.pgdir (va / PGSIZE)), s.mem x (va % PGSIZE)) := by
      simp only [memory, if_pos hva, view, hx, Option.map_some]
    by_cases hw : Writable (pte s q.pgdir (va / PGSIZE))
    swap
    · simp only [if_neg hw]
      refine htrap ?_
      rw [Memory.store, hcell]
      exact if_neg (mt (writable_flags _).mp hw)
    have hxR : x ∈ R := Finset.mem_of_mem_erase
      (hspace.mem.mpr (.inr (.inl (mem_shares.mpr ⟨_, hu, hx⟩))))
    simp only [if_pos hw]
    generalize hs : s.write x (va % PGSIZE) [b] = s'
    have hmem : ∀ y ≠ x, s'.mem y = s.mem y := fun y hy => by
      rw [← hs]
      exact update_of_ne hy ..
    have hmemx : ∀ j, s'.mem x j = if j = va % PGSIZE then b else s.mem x j := fun j => by
      rw [← blit_singleton, ← hs]
      exact congrFun (update_self ..) j
    obtain ⟨hspace', hview⟩ := hspace.setPage hu hx (by rw [← hs]; rfl) hmem
    refine ⟨hspace'.owned hk h.page,
      fun y hy => hmem y fun he => hy (he ▸ hxR), fun q' hq => ?_, ?_⟩
    · cases hq
      refine ⟨hok.sz_lt, fun v hv => ?_⟩
      rw [← hok.mapped v hv, hview v hv]
      split
      · next heq => rw [heq, view_isSome, hx, Option.isSome_some, Option.isSome_some]
      · rfl
    · rw [Option.map_some, Memory.store, hcell]
      simp only [if_pos ((writable_flags _).mpr hw)]
      refine congrArg some (Memory.ext rfl (funext fun va' => ?_))
      simp only [memory, update_apply]
      by_cases hva' : va' < KERNBASE
      · rw [if_pos hva', if_pos hva', hview _ (page_lt hva')]
        by_cases hpage : va' / PGSIZE = va / PGSIZE
        · rw [if_pos hpage, hpage, view, hx, Option.map_some, Option.map_some, Option.map_some]
          have heq : va' % PGSIZE = va % PGSIZE ↔ va' = va :=
            ⟨fun hmod => by rw [← Nat.div_add_mod va' PGSIZE, hpage, hmod, Nat.div_add_mod],
              fun he => by rw [he]⟩
          simp only [hmemx, heq]
          split <;> rfl
        · rw [if_neg hpage, if_neg fun he => hpage (by rw [he])]
      · rw [if_neg hva', if_neg hva', if_neg (ne_of_gt (lt_of_lt_of_le hva (not_lt.mp hva')))]

end Does

/-! ### Runs -/

/-- A process does not shrink to nothing, with which `growproc` would return -1 when the pages are
gone, and leave the size as it was. -/
def Act.Careful {P : Type} (w : World P) : Act P → Prop
  | .sbrk p n => ∀ q, w.proc p = some q → 0 < q.sz → q.sz + n ≠ 0
  | _ => True

section Runs

variable {P : Type} {L : Layout} {w w' : World P} {a : Act P} {R R' : Finset ℕ}

theorem World.memory_of {p : P} {q : Proc} (hp : w.proc p = some q) :
    w.memory p = some (Vm.memory w.vm q) := by
  rw [World.memory, hp, Option.map_some]

variable [Fintype P] [DecidableEq P]

theorem World.Sound.does (h : w.Sound L R) (hn : w.Near L a.target R') {m : M (Option Proc)}
    {T : Option Memory → Prop} (hcode : a.code L w = some m) (hd : Does L w.vm R' m T)
    (hs : step L w a = some w') :
    w'.Sound L R ∧ ∃ o, T o ∧ w'.memory = update w.memory a.target o := by
  obtain ⟨o, s', hrun, hfree, hframe, hok, hT⟩ := exists_of_wp hd
  rw [step, if_neg (not_not.mpr h.panicked), hcode, Option.map_some, hrun] at hs
  cases hs
  obtain ⟨hsound, hmemory⟩ := h.put hn hfree hframe hok
  exact ⟨hsound, _, hT, hmemory⟩

/-- The processor does with the pages what the call is for. -/
theorem World.Sound.step (h : w.Sound L R) (hc : a.Careful w) (hs : step L w a = some w') :
    w'.Sound L R ∧ Spec (Plenty w.vm) w.memory a w'.memory := by
  obtain ⟨m, hcode⟩ : ∃ m, a.code L w = some m := by
    cases hcode : a.code L w with
    | none => simp [Vm.step, hcode] at hs
    | some m => exact ⟨m, rfl⟩
  obtain ⟨R', hn⟩ := h.near a.target
  have hfree := hn.free
  cases a with
  | fork p c =>
    obtain ⟨hnone, q, hp, rfl⟩ : w.proc c = none ∧ ∃ q, w.proc p = some q ∧ fork L q = m := by
      simpa [Act.code] using hcode
    rw [Act.target, hnone, owned_none] at hfree
    have hpc : p ≠ c := fun he => by
      rw [he, hnone] at hp
      cases hp
    have hout : ∀ x ∈ pages w.vm q.pgdir, x ∉ R' := fun x hx => hn.other p hpc x (by
      rw [hp, owned_some]
      exact Multiset.mem_add.mpr (.inr hx))
    obtain ⟨hsound, o, hT, hmemory⟩ := h.does hn hcode (does_fork hfree hout (h.ok p q hp)) hs
    have hAc : w.memory c = none := by rw [World.memory, hnone, Option.map_none]
    refine ⟨hsound, ?_⟩
    rw [hmemory]
    rcases hT with rfl | ⟨rfl, hshort⟩
    · exact .fork (World.memory_of hp) hAc
    · rw [Act.target, ← hAc, update_eq_self]
      exact .noFork (World.memory_of hp) hshort
  | sbrk p n =>
    obtain ⟨⟨hmin, hmax⟩, q, hp, rfl⟩ : (-2 ^ 31 ≤ n ∧ n < 2 ^ 31) ∧ ∃ q, w.proc p = some q ∧
        (do let r ← growproc L q n; return some r.2) = m := by
      simpa [Act.code] using hcode
    rw [Act.target, hp] at hfree
    obtain ⟨hsound, o, hT, hmemory⟩ := h.does hn hcode
      (does_sbrk hfree (h.ok p q hp) hmin hmax (hc q hp)) hs
    refine ⟨hsound, ?_⟩
    rw [hmemory]
    rcases hT with ⟨size, hsize, hlt, rfl⟩ | ⟨rfl, hno⟩
    · exact .sbrk (World.memory_of hp) hsize hlt
    · rw [Act.target, ← World.memory_of hp, update_eq_self]
      exact .noSbrk (World.memory_of hp) hno
  | store p va b =>
    obtain ⟨hva, q, hp, rfl⟩ : va < KERNBASE ∧ ∃ q, w.proc p = some q ∧
        (do store q va b; return some q) = m := by
      simpa [Act.code] using hcode
    rw [Act.target, hp] at hfree
    obtain ⟨hsound, o, rfl, hmemory⟩ := h.does hn hcode (does_store hfree (h.ok p q hp) hva) hs
    refine ⟨hsound, ?_⟩
    rw [hmemory]
    exact .store (World.memory_of hp)
  | wait p =>
    obtain ⟨q, hp, rfl⟩ : ∃ q, w.proc p = some q ∧ (do collect L q; return none) = m := by
      simpa [Act.code] using hcode
    rw [Act.target, hp] at hfree
    obtain ⟨hsound, o, rfl, hmemory⟩ := h.does hn hcode (does_wait hfree) hs
    refine ⟨hsound, ?_⟩
    rw [hmemory]
    exact .wait

/-- Whatever the processes do and whenever `kalloc` fails, as long as none shrinks to nothing: each
has an array of bytes of its own, which changes by its own calls alone and as these are meant to,
and a call fails only for want of pages or of addresses; every page is free or belongs to one
process, once; and there is no panic. -/
theorem processes_private (r : Run (step (P := P) L)) (h0 : (r.state 0).Sound L R)
    (hcareful : ∀ k < r.length, (r.action k).Careful (r.state k)) :
    (∀ k ≤ r.length, (r.state k).Sound L R) ∧
      ∀ k < r.length, Spec (Plenty (r.state k).vm) (r.state k).memory (r.action k)
        (r.state (k + 1)).memory := by
  have hsound : ∀ k ≤ r.length, (r.state k).Sound L R := fun k hk =>
    r.induct_between (P := fun m => (r.state m).Sound L R) (Nat.zero_le k) hk h0
      fun m _ hm hs hI => (hI.step (hcareful m (by omega)) hs).1
  exact ⟨hsound, fun k hk => ((hsound k hk.le).step (hcareful k hk) (r.next k hk)).2⟩

end Runs

/-- The process of one page, a slot for a child, and `n` free pages. -/
def roomyWorld (n : ℕ) : World Bool :=
  ⟨smallRoomy n, fun p => if p then none else some smallProc, none⟩

theorem roomyWorld_sound {n : ℕ} (hn : n ≤ 50000) : (roomyWorld n).Sound smallLayout
    ((insert smallProc.kstack smallPages).disjUnion (roomyPages n) (smallPages_disjoint n)) := by
  have hspace := (smallRoomy_space hn).space
  have hsum := hspace.free.sum
  rw [Finset.disjUnion_val] at hsum
  refine ⟨rfl, ?_, fun x hx => ?_, fun p q hq => ?_⟩
  · rw [Finset.disjUnion_val, Finset.insert_val_of_notMem (by decide), Multiset.cons_add, ← hsum,
      Fintype.univ_bool, Finset.sum_pair (by decide)]
    simp only [roomyWorld, if_true, Bool.false_eq_true, if_false, owned_none, owned_some, zero_add,
      add_zero]
    rw [add_left_comm, Multiset.singleton_add]
  · rcases Finset.mem_disjUnion.mp hx with hx | hx
    · rcases Finset.mem_insert.mp hx with rfl | hx
      · exact ⟨by decide, by decide, by decide⟩
      · exact smallProc_space.space.page x hx
    · exact roomy_page hn hx
  · cases p with
    | true => cases hq
    | false =>
      cases hq
      exact ⟨(smallRoomy_space hn).sz_lt, (smallRoomy_space hn).mapped⟩

def roomyRun (n : ℕ) : Run (step (P := Bool) smallLayout) :=
  Run.ofActions (roomyWorld n) [.fork false true] rfl

/-- With enough free pages, the child is there and has the memory of its parent. -/
theorem processes_private_fork :
    ((roomyRun 1100).state 1).memory true = some (memory (smallRoomy 1100) smallProc) := by
  generalize hn : 1100 = n
  obtain ⟨-, hspec⟩ := processes_private (roomyRun n) (roomyWorld_sound (n := n) (by omega))
    fun k hk => by
      obtain rfl : k = 0 := Nat.lt_one_iff.mp hk
      trivial
  have hfork : Spec (Plenty (smallRoomy n)) (roomyWorld n).memory (.fork false true)
    ((roomyRun n).state 1).memory := hspec 0 Nat.one_pos
  have hparent : (roomyWorld n).memory false = some (memory (smallRoomy n) smallProc) :=
    World.memory_of rfl
  generalize ((roomyRun n).state 1).memory = A at hfork ⊢
  cases hfork with
  | fork hp => rw [update_self, ← hp, hparent]
  | noFork hp hno =>
    cases hparent.symm.trans hp
    refine absurd ⟨fun _ => rfl, ?_⟩ hno
    rw [(smallRoomy_freelist n).2.2, ← hn]
    decide

end Xv6.Vm
