import Xv6.Data.Cache
import Xv6.Data.Contents
import Xv6.Data.Names
import Xv6.Lib.Slots

/-!
# Directories as finite maps

A directory is a file of entries of 16 bytes, an inode number and a name each; an entry
whose number is 0 is empty. Seen from above it is a table of slots, and as long as no name
is there twice, a finite map from names to inode numbers. `dirlookup` takes a reference to the
inode it finds, for which the inode cache needs an entry; `dirlink` gives it up again, which it
cannot do where the caller has locked that inode.
-/

namespace Xv6.Data

open Fs (BSIZE NDIRECT MAXFILE NINODE IPB BPB DIRSIZ DIRENT blocksOf)
open Mkfs (Block Dinode Superblock ptr zeroes getDinode putDinode T_DIR T_FILE T_DEV)
open Mkfs.Grows (bind_ok)
open Bytes Function

/-- The offsets of the entries. -/
def Inode.offsets (dp : Inode) : List ℕ :=
  (List.range ((dp.din.size + (DIRENT - 1)) / DIRENT)).map (DIRENT * ·)

/-- The `for` of `dirlookup`, over the offsets that are left; the inode number of the entry and
its offset are returned. -/
def lookupLoop (dp : Inode) (name : List UInt8) : List ℕ → M (Inode × Option (ℕ × ℕ))
  | [] => pure (dp, none)
  | off :: rest => do
    let (dp, r) ← readi dp off DIRENT
    match r with
    | none => throw .dirlookupRead
    | some de =>
      if de.length ≠ DIRENT then throw .dirlookupRead
      else if ofLE (de.take 2) = 0 then lookupLoop dp name rest
      else if namecmp name (de.drop 2) = 0 then pure (dp, some (ofLE (de.take 2), off))
      else lookupLoop dp name rest

/-- `dirlookup` up to its `iget`. -/
def findEntry (dp : Inode) (name : List UInt8) : M (Inode × Option (ℕ × ℕ)) := do
  if dp.din.type ≠ T_DIR then throw .dirlookup
  else lookupLoop dp name dp.offsets

def dirlookup (dp : Inode) (name : List UInt8) : Op (Inode × Option (ℕ × ℕ)) := do
  let (dp, found) ← onDisk (findEntry dp name)
  match found with
  | none => pure (dp, none)
  | some (inum, off) => do
    iget inum
    pure (dp, some (inum, off))

/-- The `for` of `dirlink`: the offset of the first empty entry, or none. -/
def emptyLoop (dp : Inode) : List ℕ → M (Inode × Option ℕ)
  | [] => pure (dp, none)
  | off :: rest => do
    let (dp, r) ← readi dp off DIRENT
    match r with
    | none => throw .dirlinkRead
    | some de =>
      if de.length ≠ DIRENT then throw .dirlinkRead
      else if ofLE (de.take 2) = 0 then pure (dp, some off)
      else emptyLoop dp rest

/-- `dirlink` of a name that is not there. -/
def addEntry (dp : Inode) (name : List UInt8) (inum : ℕ) : M (Inode × ℤ) := do
  let (dp, empty) ← emptyLoop dp dp.offsets
  -- when the loop has found no empty entry, `off` is behind the last one
  let off := empty.getD (DIRENT * ((dp.din.size + (DIRENT - 1)) / DIRENT))
  let (dp, r) ← writei dp off (le 2 inum ++ strncpy DIRSIZ name)
  if r ≠ DIRENT then throw .dirlink
  else pure (dp, 0)

/-- Write a new entry into the directory. -/
def dirlink (dp : Inode) (name : List UInt8) (inum : ℕ) : Op (Inode × ℤ) := do
  let (dp, found) ← dirlookup dp name
  match found with
  | some (ip, _) => do
    iput ip
    pure (dp, -1)
  | none => onDisk (addEntry dp name inum)

/-- `sys_unlink` clears the entry that `dirlookup` has found. -/
def clearEntry (dp : Inode) (off : ℕ) : M Inode := do
  let (dp, r) ← writei dp off (List.replicate DIRENT 0)
  if r ≠ DIRENT then throw .unlinkWritei
  else pure dp

/-! ### Reading the image of `mkfs`

What `Mkfs` reads from a disk, the functions here read too, and leave the disk alone. -/

section Image

variable {s : State} {ip : Inode} {off n b : ℕ}

/-- `m` returns `a` and changes nothing. -/
def Reads {α : Type} (s : State) (m : M α) (a : α) : Prop := m.run s = .ok (a, s)

theorem Reads.bind {α β : Type} {m : M α} {f : α → M β} {a : α} {b : β} (h : Reads s m a)
    (hf : Reads s (f a) b) : Reads s (m >>= f) b := by
  rw [Reads, StateT.run_bind, h]
  exact hf

theorem bread_reads {bp : Block} (h : Mkfs.bread s.disk b = .ok bp) : Reads s (bread b) bp := by
  unfold Mkfs.bread at h
  split at h
  · obtain rfl := Except.ok.inj h
    rfl
  · cases h

theorem bmapAddr_reads (h : ip.din.addrs n ≠ 0) : Reads s (bmapAddr ip n) (ip, ip.din.addrs n) := by
  rw [bmapAddr, if_neg h]
  rfl

theorem bmap_reads (h : Mkfs.bmap s.disk ip.din n = .ok b) : Reads s (bmap ip n) (ip, b) := by
  rw [Mkfs.bmap] at h
  rw [bmap]
  split_ifs at h ⊢ with hdir h0 hind h0
  · cases h
    exact bmapAddr_reads h0
  · obtain ⟨bp, hbp, h⟩ := bind_ok h
    refine (bmapAddr_reads h0).bind (.bind (.bind (bread_reads hbp) ?_) rfl)
    split_ifs at h ⊢
    · cases h
    · obtain rfl := Except.ok.inj h
      rfl

theorem readLoop_reads {l : List UInt8} (h : Mkfs.readLoop s.disk ip.din off n = .ok l) :
    Reads s (readLoop ip off n) (ip, l) := by
  induction n using Nat.strong_induction_on generalizing off l with
  | _ n ih =>
    rw [Mkfs.readLoop] at h
    rw [readLoop]
    have hmod := mod_BSIZE_lt off
    split_ifs at h ⊢ with h0
    · cases h
      rfl
    · obtain ⟨b, hb, h⟩ := bind_ok h
      obtain ⟨bp, hbp, h⟩ := bind_ok h
      obtain ⟨rest, hrest, h⟩ := bind_ok h
      cases h
      exact (bmap_reads hb).bind ((bread_reads hbp).bind ((ih _ (by omega) hrest).bind rfl))

theorem readi_reads {r : Option (List UInt8)} (h : Mkfs.readi s.disk ip.din off n = .ok r) :
    Reads s (readi ip off n) (ip, r) := by
  rw [Mkfs.readi] at h
  rw [readi]
  split_ifs at h ⊢
  · cases h
    rfl
  all_goals
    obtain ⟨l, hl, h⟩ := bind_ok h
    cases h
    exact (readLoop_reads hl).bind rfl

theorem lookupLoop_reads {name : List UInt8} {offs : List ℕ} {r : Option ℕ}
    (h : Mkfs.lookupLoop s.disk ip.din name offs = .ok r) :
    ∃ found, Reads s (lookupLoop ip name offs) (ip, found) ∧ found.map Prod.fst = r := by
  induction offs with
  | nil =>
    cases h
    exact ⟨none, rfl, rfl⟩
  | cons off offs ih =>
    obtain ⟨r', hr, h⟩ := bind_ok h
    cases r' with
    | none => cases h
    | some de =>
      have hlen : ¬de.length ≠ DIRENT := fun hlen => by
        simp only [if_pos hlen] at h
        cases h
      simp only [if_neg hlen] at h
      split_ifs at h with h0 hname
      · obtain ⟨found, hf, hr'⟩ := ih h
        refine ⟨found, (readi_reads hr).bind ?_, hr'⟩
        simp only [if_neg hlen, if_pos h0, hf]
      · cases h
        refine ⟨some (_, off), (readi_reads hr).bind ?_, rfl⟩
        simp only [if_neg hlen, if_neg h0, if_pos hname]
        rfl
      · obtain ⟨found, hf, hr'⟩ := ih h
        refine ⟨found, (readi_reads hr).bind ?_, hr'⟩
        simp only [if_neg hlen, if_neg h0, if_neg hname, hf]

/-- The entry that is found on an image of `mkfs` is found here. -/
theorem findEntry_reads {name : List UInt8} {r : Option ℕ}
    (h : Mkfs.dirlookup s.disk ip.din name = .ok r) :
    ∃ found, Reads s (findEntry ip name) (ip, found) ∧ found.map Prod.fst = r := by
  rw [Mkfs.dirlookup] at h
  rw [findEntry]
  split_ifs at h ⊢
  exact lookupLoop_reads h

end Image

/-! ### The table of entries -/

/-- The 16 bytes of entry `k`. -/
def piece (bs : List UInt8) (k : ℕ) : List UInt8 := (bs.drop (DIRENT * k)).take DIRENT

/-- What an entry holds. -/
def slot (de : List UInt8) : Option (List UInt8 × ℕ) :=
  if ofLE (de.take 2) = 0 then none else some (key (de.drop 2), ofLE (de.take 2))

/-- The entries of a directory. -/
def slots (bs : List UInt8) : List (Option (List UInt8 × ℕ)) :=
  (List.range (bs.length / DIRENT)).map fun k => slot (piece bs k)

section Slots

variable {bs de : List UInt8} {k j : ℕ}

@[simp] theorem length_slots (bs : List UInt8) : (slots bs).length = bs.length / DIRENT := by
  simp [slots]

theorem entry_slots (hk : k < bs.length / DIRENT) :
    Slots.entry (slots bs) k = slot (piece bs k) := by
  simp [Slots.entry, slots, hk]

theorem slot_dirent {inum : ℕ} (h0 : inum ≠ 0) (hinum : inum < 2 ^ 16) (name : List UInt8) :
    slot (le 2 inum ++ strncpy DIRSIZ name) = some (key name, inum) := by
  have hnum : ofLE ((le 2 inum ++ strncpy DIRSIZ name).take 2) = inum := by
    rw [List.take_left' (length_le 2 inum), ofLE_le_of_lt hinum]
  rw [slot, hnum, if_neg h0, List.drop_left' (length_le 2 inum), key_strncpy]

theorem slot_zeroes : slot (List.replicate DIRENT 0) = none := rfl

/-- Writing an entry changes no other. -/
theorem piece_overwrite (hk : DIRENT * k ≤ bs.length) (hde : de.length = DIRENT) :
    piece (overwrite bs (DIRENT * k) de) j = if j = k then de else piece bs j := by
  refine List.ext_getElem? fun n => ?_
  rw [piece]
  by_cases hn : n < DIRENT
  · rw [List.getElem?_take_of_lt hn, List.getElem?_drop, getElem?_overwrite hk, hde]
    by_cases hjk : j = k
    · subst hjk
      rw [if_pos rfl, if_neg (by omega), if_pos (by omega), Nat.add_sub_cancel_left]
    · rw [if_neg hjk, piece, List.getElem?_take_of_lt hn, List.getElem?_drop]
      split_ifs with h1 h2
      · rfl
      · simp only [DIRENT] at *
        omega
      · rfl
  · rw [List.getElem?_eq_none (by simp; omega)]
    split
    · rw [List.getElem?_eq_none (by omega)]
    · rw [piece, List.getElem?_eq_none (by simp; omega)]

/-- The table after entry `k` has been written. -/
theorem slots_overwrite (hbs : bs.length % DIRENT = 0) (hk : k ≤ bs.length / DIRENT)
    (hde : de.length = DIRENT) :
    slots (overwrite bs (DIRENT * k) de) = Slots.put (slots bs) k (slot de) := by
  have hle : DIRENT * k ≤ bs.length := by
    simp only [DIRENT] at *
    omega
  have hlen : (overwrite bs (DIRENT * k) de).length / DIRENT =
      if k < bs.length / DIRENT then bs.length / DIRENT else bs.length / DIRENT + 1 := by
    rw [length_overwrite hle, hde]
    split <;> simp only [DIRENT] at * <;> omega
  rw [slots, hlen, Slots.put, length_slots]
  simp only [piece_overwrite hle hde]
  split
  · next hlt =>
    refine List.ext_getElem? fun j => ?_
    rw [List.getElem?_set, length_slots, if_pos hlt]
    by_cases hj : j < bs.length / DIRENT
    · by_cases hjk : k = j
      · simp [hjk, hj]
      · simp [slots, hj, hjk, Ne.symm hjk]
    · rw [List.getElem?_eq_none (by simpa using hj), if_neg (by omega),
        List.getElem?_eq_none (by simpa using hj)]
  · next hlt =>
    obtain rfl : k = bs.length / DIRENT := by omega
    rw [List.range_succ, List.map_append, List.map_singleton, if_pos rfl, slots]
    congr 1
    refine List.map_congr_left fun j hj => ?_
    rw [if_neg (Nat.ne_of_lt (List.mem_range.mp hj))]

end Slots

/-! ### The map -/

/-- The inode number of a name in directory `i`, and the offset of its entry. -/
def State.lookup (s : State) (i : ℕ) (name : List UInt8) : Option (ℕ × ℕ) :=
  (Slots.lookup (slots (s.contents i)) name).map fun p => (p.1, DIRENT * p.2)

/-- Where a new entry goes. -/
def State.newOff (s : State) (i : ℕ) : ℕ := DIRENT * Slots.firstFree (slots (s.contents i))

/-- Inode `i` is a directory in which no name is there twice. -/
structure Directory (s : State) (i : ℕ) : Prop where
  type : (s.table i).type = T_DIR
  size : (s.table i).size % DIRENT = 0
  distinct : Slots.Distinct (slots (s.contents i))

/-- A directory with an empty entry, or one that can get longer. -/
def Room (s : State) (i : ℕ) : Prop :=
  (∃ k, k < (s.table i).size / DIRENT ∧ Slots.entry (slots (s.contents i)) k = none) ∨
    (s.table i).size < MAXFILE * BSIZE

section Code

variable {s s' : State} {i k inum : ℕ} {name nm : List UInt8} {H : Panic → Prop}
  {Q : Inode × Option (ℕ × ℕ) → State → Prop}

theorem Directory.type_ne (hd : Directory s i) :
    (s.table i).type ≠ 0 ∧ (s.table i).type ≠ T_DEV := by
  rw [hd.type]
  decide

theorem length_slots_contents (s : State) (i : ℕ) :
    (slots (s.contents i)).length = (s.table i).size / DIRENT := by
  rw [length_slots, length_contents]

theorem Directory.offsets_eq (hd : Directory s i) : Inode.offsets ⟨i, s.table i⟩ =
    (List.range (slots (s.contents i)).length).map (DIRENT * ·) := by
  have hsize := hd.size
  have hdiv : ((s.table i).size + (DIRENT - 1)) / DIRENT = (s.table i).size / DIRENT := by
    simp only [DIRENT] at *
    omega
  rw [Inode.offsets, length_slots_contents, hdiv]

theorem length_piece (hk : k < (slots (s.contents i)).length) :
    (piece (s.contents i) k).length = DIRENT := by
  rw [length_slots_contents] at hk
  rw [piece, List.length_take, List.length_drop, length_contents]
  simp only [DIRENT] at *
  omega

theorem Directory.newOff_eq (hd : Directory s i) :
    (((List.range (slots (s.contents i)).length).find? fun k =>
      (Slots.entry (slots (s.contents i)) k).isNone).map (DIRENT * ·)).getD
        (DIRENT * (((s.table i).size + (DIRENT - 1)) / DIRENT)) = s.newOff i := by
  have hsize := hd.size
  have hdiv : ((s.table i).size + (DIRENT - 1)) / DIRENT = (slots (s.contents i)).length := by
    rw [length_slots_contents]
    simp only [DIRENT] at *
    omega
  rw [hdiv, State.newOff, Slots.firstFree]
  cases (List.range (slots (s.contents i)).length).find? _ <;> rfl

theorem Directory.newOff_le (hd : Directory s i) : s.newOff i ≤ (s.table i).size := by
  have hfree := Slots.firstFree_le (slots (s.contents i))
  have hsize := hd.size
  rw [length_slots_contents] at hfree
  rw [State.newOff]
  simp only [DIRENT] at *
  omega

section

variable (hd : Directory s i)
include hd

/-- A directory of which entry `k` has been written. -/
theorem Wrote.slots_eq {de : List UInt8} (hk : k ≤ (slots (s.contents i)).length)
    (hde : de.length = DIRENT) (hw : Wrote i (overwrite (s.contents i) (DIRENT * k) de) s s') :
    slots (s'.contents i) = Slots.put (slots (s.contents i)) k (slot de) := by
  rw [length_slots] at hk
  rw [hw.contents, update_self, slots_overwrite (by rw [length_contents]; exact hd.size) hk hde]

theorem Wrote.size_mod {de : List UInt8} (hk : k ≤ (slots (s.contents i)).length)
    (hde : de.length = DIRENT) (hw : Wrote i (overwrite (s.contents i) (DIRENT * k) de) s s') :
    (s'.table i).size % DIRENT = 0 := by
  have hsize := hd.size
  rw [length_slots_contents] at hk
  have hle : DIRENT * k ≤ (s.contents i).length := by
    rw [length_contents]
    simp only [DIRENT] at *
    omega
  rw [← length_contents s' i, hw.contents, update_self, length_overwrite hle, length_contents, hde]
  simp only [DIRENT] at *
  omega

theorem Wrote.type_eq {l : List UInt8} (hw : Wrote i l s s') :
    (s'.table i).type = T_DIR := (hw.type i).trans hd.type

/-- The new entry is in the map. -/
theorem Directory.link (hname : s.lookup i (key name) = none) (h0 : inum ≠ 0)
    (hinum : inum < 2 ^ 16)
    (hw : Wrote i (overwrite (s.contents i) (s.newOff i) (le 2 inum ++ strncpy DIRSIZ name)) s s') :
    Directory s' i ∧ s'.lookup i = update (s.lookup i) (key name) (some (inum, s.newOff i)) := by
  have hfree := Slots.firstFree_le (slots (s.contents i))
  have hde : (le 2 inum ++ strncpy DIRSIZ name).length = DIRENT := by
    rw [List.length_append, length_le, length_strncpy]
    rfl
  have hslots := hw.slots_eq hd hfree hde
  rw [slot_dirent h0 hinum] at hslots
  have hnone := Option.map_eq_none_iff.mp hname
  have hkey := (Slots.lookup_eq_none hd.distinct).mp hnone
  refine ⟨⟨hw.type_eq hd, hw.size_mod hd hfree hde, hslots ▸ hd.distinct.put_some hfree hkey⟩, ?_⟩
  funext nm
  rw [State.lookup, hslots, Slots.lookup_put_some hd.distinct hfree (Slots.entry_firstFree _) hnone]
  by_cases hnm : nm = key name
  · rw [hnm, update_self, update_self]
    rfl
  · rw [update_of_ne hnm, update_of_ne hnm]
    rfl

/-- An entry that `dirlookup` finds. -/
theorem Directory.lookup_eq_some {n off : ℕ} :
    s.lookup i nm = some (n, off) ↔ ∃ k, off = DIRENT * k ∧ k < (s.table i).size / DIRENT ∧
      slot (piece (s.contents i) k) = some (nm, n) := by
  rw [State.lookup, Option.map_eq_some_iff]
  constructor
  · rintro ⟨⟨n', k⟩, hk, heq⟩
    cases heq
    have hentry := Slots.entry_of_lookup hk
    have hlt := Slots.lt_of_entry hentry
    rw [entry_slots (by rwa [length_slots] at hlt)] at hentry
    exact ⟨k, rfl, by rwa [length_slots_contents] at hlt, hentry⟩
  · rintro ⟨k, rfl, hlt, hentry⟩
    refine ⟨(n, k), ?_, rfl⟩
    rwa [Slots.lookup_eq_some hd.distinct, entry_slots (by rwa [length_contents])]

/-- The entry is gone from the map. -/
theorem Directory.clear {n : ℕ} (hentry : Slots.entry (slots (s.contents i)) k = some (nm, n))
    (hw : Wrote i (overwrite (s.contents i) (DIRENT * k) (List.replicate DIRENT 0)) s s') :
    Directory s' i ∧ s'.lookup i = update (s.lookup i) nm none := by
  have hk := (Slots.lt_of_entry hentry).le
  have hde : (List.replicate DIRENT (0 : UInt8)).length = DIRENT := List.length_replicate
  have hslots := hw.slots_eq hd hk hde
  rw [slot_zeroes] at hslots
  refine ⟨⟨hw.type_eq hd, hw.size_mod hd hk hde, hslots ▸ hd.distinct.put_none hk⟩, ?_⟩
  funext nm'
  rw [State.lookup, hslots, Slots.lookup_put_none hd.distinct hentry]
  by_cases hnm : nm' = nm
  · rw [hnm, update_self, update_self]
    rfl
  · rw [update_of_ne hnm, update_of_ne hnm]
    rfl

end

section

variable (h : Consistent s) (hd : Directory s i)
include h hd

/-- One entry is read. -/
theorem wp_readEntry {Q : Inode × Option (List UInt8) → State → Prop}
    (hk : k < (slots (s.contents i)).length)
    (hQ : Q (⟨i, s.table i⟩, some (piece (s.contents i) k)) s) :
    wp (readi ⟨i, s.table i⟩ (DIRENT * k) DIRENT) Q H s := by
  have hsize := h.size i
  have hmax := maxfile_lt
  rw [length_slots_contents] at hk
  have hend : DIRENT * k + DIRENT ≤ (s.table i).size := by
    simp only [DIRENT] at *
    omega
  refine wp_of_ok (readi_run h hd.type_ne.2 (by omega) (by decide)) ?_
  rw [if_neg (by omega)]
  exact hQ

/-- The loop of `dirlookup` finds the first entry with the name. -/
theorem wp_lookupLoop {ks : List ℕ} (hks : ∀ k ∈ ks, k < (slots (s.contents i)).length)
    (hQ : Q (⟨i, s.table i⟩, (ks.findSome? fun k => (Slots.entry (slots (s.contents i)) k).bind
      fun e => if e.1 = key name then some (e.2, k) else none).map
      fun p => (p.1, DIRENT * p.2)) s) :
    wp (lookupLoop ⟨i, s.table i⟩ name (ks.map (DIRENT * ·))) Q H s := by
  induction ks with
  | nil => exact hQ
  | cons k ks ih =>
    have hk := hks k List.mem_cons_self
    have hrest := fun hQ => ih (fun j hj => hks j (List.mem_cons_of_mem k hj)) hQ
    have hentry : Slots.entry (slots (s.contents i)) k = slot (piece (s.contents i) k) :=
      entry_slots (by rwa [length_slots] at hk)
    rw [List.map_cons, lookupLoop, wp_bind]
    refine wp_readEntry h hd hk ?_
    rw [List.findSome?_cons, hentry, slot] at hQ
    simp only [length_piece hk, ne_eq, not_true_eq_false, if_false, wp_ite]
    split
    · next h0 =>
      rw [if_pos h0] at hQ
      exact hrest hQ
    · next h0 =>
      rw [if_neg h0] at hQ
      simp only [namecmp_eq_zero, eq_comm (a := key name)]
      split
      · next hkey =>
        simpa [hkey] using hQ
      · next hkey =>
        rw [Option.bind_some, if_neg hkey] at hQ
        exact hrest hQ

theorem wp_findEntry (hQ : Q (⟨i, s.table i⟩, s.lookup i (key name)) s) :
    wp (findEntry ⟨i, s.table i⟩ name) Q H s := by
  rw [findEntry, if_neg (not_not.mpr hd.type), hd.offsets_eq]
  exact wp_lookupLoop h hd (fun k => List.mem_range.mp) hQ

/-- The loop of `dirlink` finds the first empty entry. -/
theorem wp_emptyLoop {Q : Inode × Option ℕ → State → Prop} {ks : List ℕ}
    (hks : ∀ k ∈ ks, k < (slots (s.contents i)).length)
    (hQ : Q (⟨i, s.table i⟩, (ks.find? fun k => (Slots.entry (slots (s.contents i)) k).isNone).map
      (DIRENT * ·)) s) : wp (emptyLoop ⟨i, s.table i⟩ (ks.map (DIRENT * ·))) Q H s := by
  induction ks with
  | nil => exact hQ
  | cons k ks ih =>
    have hk := hks k List.mem_cons_self
    have hentry : Slots.entry (slots (s.contents i)) k = slot (piece (s.contents i) k) :=
      entry_slots (by rwa [length_slots] at hk)
    rw [List.map_cons, emptyLoop, wp_bind]
    refine wp_readEntry h hd hk ?_
    rw [List.find?_cons, hentry, slot] at hQ
    simp only [length_piece hk, ne_eq, not_true_eq_false, if_false, wp_ite]
    split
    · next h0 =>
      rw [if_pos h0] at hQ
      exact hQ
    · next h0 =>
      rw [if_neg h0] at hQ
      exact ih (fun j hj => hks j (List.mem_cons_of_mem k hj)) hQ

theorem Directory.newOff_lt (hroom : Room s i) :
    s.newOff i + DIRENT ≤ MAXFILE * BSIZE := by
  have hsize := hd.size
  have hmax := h.size i
  have hMAX : MAXFILE * BSIZE = 16 * 4480 := by decide
  rcases hroom with ⟨k, hk, hnone⟩ | hlt
  · rw [← length_slots_contents] at hk
    have hfree := Slots.firstFree_lt hk hnone
    rw [length_slots_contents] at hfree
    rw [State.newOff]
    simp only [DIRENT] at *
    omega
  · have hle := hd.newOff_le
    simp only [DIRENT] at *
    omega

/-- `dirlink` comes to a write of the new entry. -/
theorem wp_addEntry {Q : Inode × ℤ → State → Prop}
    (hQ : wp (writei ⟨i, s.table i⟩ (s.newOff i) (le 2 inum ++ strncpy DIRSIZ name))
      (fun r => wp (if r.2 ≠ DIRENT then throw .dirlink else pure (r.1, 0)) Q H) H s) :
    wp (addEntry ⟨i, s.table i⟩ name inum) Q H s := by
  rw [addEntry, wp_bind, hd.offsets_eq]
  refine wp_emptyLoop h hd (fun k => List.mem_range.mp) ?_
  simp only [hd.newOff_eq, wp_bind]
  exact hQ

/-- `dirlink` of a new name. -/
theorem addEntry_run (hroom : Room s i) (h0 : inum ≠ 0)
    (hinum : inum < 2 ^ 16) (hname : s.lookup i (key name) = none)
    (hneed : need s s.table i (blocksOf (s.newOff i) DIRENT) ≤ free s) :
    ∃ s', (addEntry ⟨i, s.table i⟩ name inum).run s = .ok ((⟨i, s'.table i⟩, 0), s') ∧
      Consistent s' ∧ Directory s' i ∧
      s'.lookup i = update (s.lookup i) (key name) (some (inum, s.newOff i)) ∧
      ((s'.contents i).drop (s.newOff i + 2)).take DIRSIZ =
        key name ++ List.replicate (DIRSIZ - (key name).length) 0 := by
  have hde : (le 2 inum ++ strncpy DIRSIZ name).length = DIRENT := by
    rw [List.length_append, length_le, length_strncpy]
    rfl
  have hwp : wp (addEntry ⟨i, s.table i⟩ name inum) (fun r s' => r = (⟨i, s'.table i⟩, 0) ∧
      Wrote i (overwrite (s.contents i) (s.newOff i) (le 2 inum ++ strncpy DIRSIZ name)) s s')
      (fun _ => False) s := by
    refine wp_addEntry h hd ?_
    refine wp_writei h hd.type_ne.1 hd.type_ne.2 hd.newOff_le ?_ ?_ fun s' hw => ?_
    · rw [hde]
      exact hd.newOff_lt h hroom
    · rwa [hde]
    · simp only [hde, ne_eq, not_true_eq_false, if_false]
      exact ⟨rfl, hw⟩
  obtain ⟨r, s', hrun, rfl, hw⟩ := exists_of_wp hwp
  obtain ⟨hd', hmap⟩ := hd.link hname h0 hinum hw
  refine ⟨s', hrun, hw.consistent, hd', hmap, ?_⟩
  have hle : s.newOff i ≤ (s.contents i).length := by
    rw [length_contents]
    exact hd.newOff_le
  rw [hw.contents, update_self, overwrite, List.append_assoc, ← List.drop_drop,
    List.drop_left' (List.length_take_of_le hle), List.append_assoc,
    List.drop_left' (length_le 2 inum), List.take_left' (length_strncpy name), strncpy_eq]

/-- The entry of a name is cleared. -/
theorem clearEntry_run {n off : ℕ}
    (hname : s.lookup i nm = some (n, off)) :
    ∃ s', (clearEntry ⟨i, s.table i⟩ off).run s = .ok (⟨i, s'.table i⟩, s') ∧ Consistent s' ∧
      Directory s' i ∧ s'.lookup i = update (s.lookup i) nm none := by
  obtain ⟨k, rfl, hk, hslot⟩ := hd.lookup_eq_some.mp hname
  have hde : (List.replicate DIRENT (0 : UInt8)).length = DIRENT := List.length_replicate
  have hend : DIRENT * k + DIRENT ≤ (s.table i).size := by
    simp only [DIRENT] at *
    omega
  have hmax := h.size i
  have hwp : wp (clearEntry ⟨i, s.table i⟩ (DIRENT * k)) (fun r s' => r = ⟨i, s'.table i⟩ ∧
      Wrote i (overwrite (s.contents i) (DIRENT * k) (List.replicate DIRENT 0)) s s')
      (fun _ => False) s := by
    rw [clearEntry, wp_bind]
    refine wp_writei h hd.type_ne.1 hd.type_ne.2 (by omega) (by omega) ?_ fun s' hw => ?_
    · rw [hde, h.need_eq_zero hend]
      exact Nat.zero_le _
    · simp only [hde, ne_eq, not_true_eq_false, if_false]
      exact ⟨rfl, hw⟩
  obtain ⟨r, s', hrun, rfl, hw⟩ := exists_of_wp hwp
  have hentry : Slots.entry (slots (s.contents i)) k = some (nm, n) := by
    rwa [entry_slots (by rwa [length_contents])]
  obtain ⟨hd', hmap⟩ := hd.clear hentry hw
  exact ⟨s', hrun, hw.consistent, hd', hmap⟩

end

end Code

/-! ### The calls -/

/-- `dirlookup` gives `r`, as long as the inode cache has an entry for the inode; the reference to
it is all that changes. -/
def Finds (c : Cached) (h : List ℕ) (dp : Inode) (name : List UInt8) (r : Option (ℕ × ℕ)) : Prop :=
  (∀ e ∈ r, c.HasRoom e.1) →
    (dirlookup dp name).exec h c = .ok ((dp, r), h, r.elim c fun e => c.get e.1)

section Calls

variable {c : Cached} {h : List ℕ} {i inum n off : ℕ} {name : List UInt8}
  {H : Stop ℕ Panic → Cached → Prop} {Q : Inode × Option (ℕ × ℕ) → List ℕ → Cached → Prop}

section

variable (hcons : Consistent c.fs)
include hcons

section

variable (hd : Directory c.fs i)
include hd

theorem wp_dirlookup_of_none (hname : c.fs.lookup i (key name) = none)
    (hQ : Q (⟨i, c.fs.table i⟩, none) h c) :
    Prog.wp (dirlookup ⟨i, c.fs.table i⟩ name) Q H h c := by
  rw [dirlookup, Prog.wp_bind]
  refine wp_onDisk (wp_findEntry hcons hd ?_)
  rw [hname]
  exact hQ

/-- `dirlookup` of a name that is there comes to `iget`. -/
theorem wp_dirlookup_of_some (hname : c.fs.lookup i (key name) = some (n, off))
    (hQ : Prog.wp (iget n) (fun _ => Q (⟨i, c.fs.table i⟩, some (n, off))) H h c) :
    Prog.wp (dirlookup ⟨i, c.fs.table i⟩ name) Q H h c := by
  rw [dirlookup, Prog.wp_bind]
  refine wp_onDisk (wp_findEntry hcons hd ?_)
  simp only [hname, Prog.wp_bind]
  exact hQ

theorem finds (h : List ℕ) (name : List UInt8) :
    Finds c h ⟨i, c.fs.table i⟩ name (c.fs.lookup i (key name)) := by
  intro hroom
  have hwp : Prog.wp (dirlookup ⟨i, c.fs.table i⟩ name)
      (fun a h' c' => a = (⟨i, c.fs.table i⟩, c.fs.lookup i (key name)) ∧ h' = h ∧
        c' = (c.fs.lookup i (key name)).elim c fun e => c.get e.1) (fun _ _ => False) h c := by
    cases hname : c.fs.lookup i (key name) with
    | none => exact wp_dirlookup_of_none hcons hd hname ⟨rfl, rfl, rfl⟩
    | some e =>
      exact wp_dirlookup_of_some hcons hd hname (wp_iget (hroom e hname) ⟨rfl, rfl, rfl⟩)
  obtain ⟨a, h', c', hexec, rfl, rfl, rfl⟩ := Prog.exists_of_wp hwp
  exact hexec

/-- `dirlink` of a name that is there. The lock of the inode is free, so that `iput` gets it. -/
theorem dirlink_of_some (hname : c.fs.lookup i (key name) = some (n, off)) (hroom : c.HasRoom n)
    (hfree : n ∉ h) (inum : ℕ) : (dirlink ⟨i, c.fs.table i⟩ name inum).exec h c =
      .ok ((⟨i, c.fs.table i⟩, -1), h, { c.get n with refs := c.refs }) := by
  have hwp : Prog.wp (dirlink ⟨i, c.fs.table i⟩ name inum)
      (fun a h' c' => a = (⟨i, c.fs.table i⟩, -1) ∧ h' = h ∧ c' = { c.get n with refs := c.refs })
      (fun _ _ => False) h c := by
    rw [dirlink, Prog.wp_bind]
    refine wp_dirlookup_of_some hcons hd hname (wp_iget hroom ?_)
    rw [Prog.wp_bind]
    refine wp_iput hfree (stays_get c n) ⟨rfl, rfl, ?_⟩
    rw [Cached.get, List.erase_cons_head]
  obtain ⟨a, h', c', hexec, rfl, rfl, rfl⟩ := Prog.exists_of_wp hwp
  exact hexec

/-- `dirlink` of a name that is not there. -/
theorem wp_dirlink_of_none {Q : Inode × ℤ → List ℕ → Cached → Prop}
    (hname : c.fs.lookup i (key name) = none)
    (hQ : wp (addEntry ⟨i, c.fs.table i⟩ name inum) (fun a s => Q a h { c with fs := s })
      (fun e => H (.failed e) c) c.fs) : Prog.wp (dirlink ⟨i, c.fs.table i⟩ name inum) Q H h c := by
  rw [dirlink, Prog.wp_bind]
  exact wp_dirlookup_of_none hcons hd hname (wp_onDisk hQ)

theorem dirlink_of_none {s : State} (hname : c.fs.lookup i (key name) = none)
    (hrun : (addEntry ⟨i, c.fs.table i⟩ name inum).run c.fs = .ok ((⟨i, s.table i⟩, 0), s))
    (h : List ℕ) : (dirlink ⟨i, c.fs.table i⟩ name inum).exec h c =
      .ok ((⟨i, s.table i⟩, 0), h, { c with fs := s }) := by
  have hwp : Prog.wp (dirlink ⟨i, c.fs.table i⟩ name inum)
      (fun a h' c' => a = (⟨i, s.table i⟩, 0) ∧ h' = h ∧ c' = { c with fs := s })
      (fun _ _ => False) h c :=
    wp_dirlink_of_none hcons hd hname (wp_of_ok hrun ⟨rfl, rfl, rfl⟩)
  obtain ⟨a, h', c', hexec, rfl, rfl, rfl⟩ := Prog.exists_of_wp hwp
  exact hexec

end

end

/-- A directory is a finite map on names cut to `DIRSIZ` bytes: `dirlookup` reads it, `dirlink`
adds a name, as long as there is a block where one is needed, and clearing the entry that
`dirlookup` has found removes its name. The inode cache has to have an entry for the inode that is
found, and for `dirlink` nobody may have locked it. -/
theorem directories_are_maps (hcons : Consistent c.fs) (hd : Directory c.fs i)
    (hroom : Room c.fs i) {path buf rest name : List UInt8} (hpath : 0 ∉ path)
    (hname : skipelem path buf = some (rest, name)) {inum : ℕ} (h0 : inum ≠ 0)
    (hinum : inum < 2 ^ 16) :
    (∃ e, (components path).head? = some e ∧ key name = e.take DIRSIZ) ∧
    Finds c h ⟨i, c.fs.table i⟩ name (c.fs.lookup i (key name)) ∧
    (∀ n off, c.fs.lookup i (key name) = some (n, off) ↔
      ∃ k, off = DIRENT * k ∧ k < (c.fs.table i).size / DIRENT ∧
        slot (piece (c.fs.contents i) k) = some (key name, n)) ∧
    (∀ n off, c.fs.lookup i (key name) = some (n, off) → c.HasRoom n → n ∉ h →
      (dirlink ⟨i, c.fs.table i⟩ name inum).exec h c =
        .ok ((⟨i, c.fs.table i⟩, -1), h, { c.get n with refs := c.refs })) ∧
    (c.fs.lookup i (key name) = none →
      need c.fs c.fs.table i (blocksOf (c.fs.newOff i) DIRENT) ≤ free c.fs →
      ∃ s, (dirlink ⟨i, c.fs.table i⟩ name inum).exec h c =
          .ok ((⟨i, s.table i⟩, 0), h, { c with fs := s }) ∧
        Consistent s ∧ Directory s i ∧
        (∀ nm, Finds { c with fs := s } h ⟨i, s.table i⟩ nm
          (if key nm = key name then some (inum, c.fs.newOff i) else c.fs.lookup i (key nm))) ∧
        ((s.contents i).drop (c.fs.newOff i + 2)).take DIRSIZ =
          key name ++ List.replicate (DIRSIZ - (key name).length) 0) ∧
    ∀ n off, c.fs.lookup i (key name) = some (n, off) →
      ∃ s, (clearEntry ⟨i, c.fs.table i⟩ off).run c.fs = .ok (⟨i, s.table i⟩, s) ∧ Consistent s ∧
        Directory s i ∧
        ∀ nm, Finds { c with fs := s } h ⟨i, s.table i⟩ nm
          (if key nm = key name then none else c.fs.lookup i (key nm)) := by
  refine ⟨?_, finds hcons hd h name, fun n off => hd.lookup_eq_some,
    fun n off hsome hget hfree => dirlink_of_some hcons hd hsome hget hfree inum,
    fun hnone hneed => ?_, fun n off hsome => ?_⟩
  · rcases skipelem_cases hpath buf with ⟨-, hskip⟩ | ⟨e, rest', name', hcomp, hskip, hkey, -⟩
    · rw [hskip] at hname
      cases hname
    · rw [hskip] at hname
      cases hname
      exact ⟨e, by rw [hcomp, List.head?_cons], hkey⟩
  · obtain ⟨s, hrun, hs, hd', hmap, hbytes⟩ := addEntry_run hcons hd hroom h0 hinum hnone hneed
    refine ⟨s, dirlink_of_none hcons hd hnone hrun h, hs, hd', fun nm => ?_, hbytes⟩
    rw [← update_apply, ← hmap]
    exact finds (c := { c with fs := s }) hs hd' h nm
  · obtain ⟨s, hrun, hs, hd', hmap⟩ := clearEntry_run hcons hd hsome
    refine ⟨s, hrun, hs, hd', fun nm => ?_⟩
    rw [← update_apply, ← hmap]
    exact finds (c := { c with fs := s }) hs hd' h nm

end Calls

/-! ### A full disk -/

section Full

variable {s : State} {tab : ℕ → Dinode} {i bn off : ℕ} {src name : List UInt8} {H : Panic → Prop}
  {h : List ℕ} {c : Cached}

theorem wp_balloc_full {Q : ℕ → State → Prop} (hfree : free s = 0) (hH : H .balloc) :
    wp balloc Q H s := by
  simp only [balloc, wp_bind, wp_get]
  cases hf : (List.range s.sb.size).find? fun b => !s.used b with
  | none => exact hH
  | some b =>
    have hmem : b ∈ (List.range s.sb.size).filter fun b => !s.used b :=
      List.mem_filter.mpr ⟨List.mem_of_find?_eq_some hf, by simpa using List.find?_some hf⟩
    rw [List.eq_nil_of_length_eq_zero hfree] at hmem
    cases hmem

theorem wp_bmap_full {Q : Inode × ℕ → State → Prop} (hfree : free s = 0) (hbn : bn < MAXFILE)
    (hptr : ptr s.disk tab (.block i bn) = 0) (hH : H .balloc) :
    wp (bmap ⟨i, tab i⟩ bn) Q H s := by
  rw [MAXFILE] at hbn
  rw [bmap]
  split
  · next hlt =>
    rw [Fs.Pointer.block, if_pos hlt] at hptr
    have haddr : (tab i).addrs bn = 0 := hptr
    simp only [bmapAddr, haddr, if_true, wp_bind]
    exact wp_balloc_full hfree hH
  · next hge =>
    rw [if_pos (by omega), wp_bind, bmapAddr]
    split
    · rw [wp_bind]
      exact wp_balloc_full hfree hH
    · next hind =>
      have hword : word (s.disk ((tab i).addrs NDIRECT)) (4 * (bn - NDIRECT)) = 0 := by
        rw [Fs.Pointer.block, if_neg hge] at hptr
        rw [ptr] at hptr
        rwa [if_neg (not_or.mpr ⟨hind, by omega⟩)] at hptr
      simp only [wp_pure, wp_bind, bmapEntry, bread, wp_get, hword, if_true]
      exact wp_balloc_full hfree hH

/-- Where a block is missing and none is free, `writei` does not return. -/
theorem wp_writei_full {Q : Inode × ℤ → State → Prop} (hdev : (s.table i).type ≠ T_DEV)
    (hoff : off ≤ (s.table i).size) (hmax : off + src.length ≤ MAXFILE * BSIZE) (hsrc : src ≠ [])
    (hfree : free s = 0) (hptr : ptr s.disk s.table (.block i (off / BSIZE)) = 0)
    (hH : H .balloc) : wp (writei ⟨i, s.table i⟩ off src) Q H s := by
  have hpos := List.length_pos_iff.mpr hsrc
  have hmod : (off + src.length) % 2 ^ 32 = off + src.length :=
    Nat.mod_eq_of_lt (hmax.trans_lt maxfile_lt)
  simp only [writei, hmod]
  rw [if_neg hdev, if_neg (by omega), if_neg (by omega), wp_bind, writeLoop, if_neg hsrc, wp_bind]
  exact wp_bmap_full hfree (div_lt_maxfile (by omega)) hptr hH

theorem dirlink_full (hcons : Consistent c.fs) (hd : Directory c.fs i)
    (hname : c.fs.lookup i (key name) = none) (hmax : c.fs.newOff i + DIRENT ≤ MAXFILE * BSIZE)
    (hfree : free c.fs = 0) (hptr : ptr c.fs.disk c.fs.table (.block i (c.fs.newOff i / BSIZE)) = 0)
    (inum : ℕ) : (dirlink ⟨i, c.fs.table i⟩ name inum).stops h c = some (.failed .balloc) := by
  have hde : (le 2 inum ++ strncpy DIRSIZ name).length = DIRENT := by
    rw [List.length_append, length_le, length_strncpy]
    rfl
  refine Prog.stops_of_wp (wp_dirlink_of_none hcons hd hname (wp_addEntry hcons hd ?_))
  exact wp_writei_full hd.type_ne.2 hd.newOff_le (by rwa [hde])
    (List.length_pos_iff.mp (by rw [hde]; decide)) hfree hptr rfl

/-- Where the inode cache is full, `dirlookup` does not return. -/
theorem dirlookup_full {n : ℕ} (hcons : Consistent c.fs) (hd : Directory c.fs i)
    (hname : c.fs.lookup i (key name) = some (n, off)) (hroom : ¬ c.HasRoom n) :
    (dirlookup ⟨i, c.fs.table i⟩ name).stops h c = some (.failed .iget) :=
  Prog.stops_of_wp (wp_dirlookup_of_some hcons hd hname (wp_iget_full hroom rfl))

/-- Where `dirlink` finds an inode that the caller has locked, `iput` waits for the caller. -/
theorem dirlink_locked {n : ℕ} (hcons : Consistent c.fs) (hd : Directory c.fs i)
    (hname : c.fs.lookup i (key name) = some (n, off)) (hroom : c.HasRoom n) (hheld : n ∈ h)
    (inum : ℕ) : (dirlink ⟨i, c.fs.table i⟩ name inum).stops h c = some (.blocked n) := by
  refine Prog.stops_of_wp ?_
  rw [dirlink, Prog.wp_bind]
  refine wp_dirlookup_of_some hcons hd hname (wp_iget hroom ?_)
  simp only [iput, Prog.wp_bind, Prog.wp_lock, if_pos hheld]

end Full

/-! ### A small disk

The root directory is one full block of entries, the other inodes are empty files, and `n` blocks
are free. -/

def smallDir : Dinode := ⟨T_DIR, 0, 0, 1, BSIZE, fun k => if k = 0 then 10 else 0⟩

def emptyFile : Dinode := ⟨T_FILE, 0, 0, 1, 0, fun _ => 0⟩

/-- The bytes of a block of empty files. -/
def fileBytes (n : ℕ) : UInt8 := if n % 64 = 0 then 2 else if n % 64 = 6 then 1 else 0

/-- The bytes of the directory: entries with the names `A`, `B` and so on, for the inodes 1, 2 and
so on. -/
def smallBytes (n : ℕ) : UInt8 :=
  if n % DIRENT = 0 then UInt8.ofNat (1 + n / DIRENT)
  else if n % DIRENT = 2 then UInt8.ofNat (65 + n / DIRENT) else 0

def smallDisk (b : ℕ) : Block :=
  if b = 2 then putDinode (putDinode (.of fileBytes) 0 .zero) 1 smallDir
  else if 2 < b ∧ b < 9 then .of fileBytes
  else if b = 9 then .of fun k => if k = 0 then 255 else if k = 1 then 7 else 0
  else if b = 10 then .of smallBytes
  else zeroes

def small (n : ℕ) : State := ⟨⟨11 + n, 1 + n, 56, 0, 2, 2, 9⟩, smallDisk⟩

section Small

variable {n : ℕ}

theorem small_smallDir : smallDir.Small where
  type := by decide
  major := by decide
  minor := by decide
  nlink := by decide
  size := by decide
  addrs k := by
    rw [smallDir]
    dsimp only
    split <;> decide
  addrs_zero k hk := if_neg (by omega)

theorem getDinode_files {j : ℕ} (hj : j < IPB) : getDinode (.of fileBytes) j = emptyFile := by
  have hhalf : ∀ j < IPB, half fileBytes (64 * j) = 2 ∧ half fileBytes (64 * j + 2) = 0 ∧
      half fileBytes (64 * j + 4) = 0 ∧ half fileBytes (64 * j + 6) = 1 := by decide +kernel
  have hword : ∀ j < IPB, word fileBytes (64 * j + 8) = 0 ∧
      ∀ k < 13, word fileBytes (64 * j + 12 + 4 * k) = 0 := by decide +kernel
  have hj8 : j < 8 := hj
  have hBSIZE : BSIZE = 512 := rfl
  rw [getDinode, Mkfs.Block.half_of (by omega), Mkfs.Block.half_of (by omega),
    Mkfs.Block.half_of (by omega), Mkfs.Block.half_of (by omega), Mkfs.Block.word_of (by omega),
    (hhalf j hj).1, (hhalf j hj).2.1, (hhalf j hj).2.2.1, (hhalf j hj).2.2.2, (hword j hj).1,
    emptyFile]
  congr 1
  funext k
  split
  · next hk =>
    have hk13 : k ≤ 12 := hk
    rw [Mkfs.Block.word_of (by omega), (hword j hj).2 k (by omega)]
  · rfl

theorem table_small (n i : ℕ) : (small n).table i =
    if i = 1 then smallDir else if 2 ≤ i ∧ i < 56 then emptyFile else .zero := by
  have hninodes : (small n).sb.ninodes = 56 := rfl
  have hdisk : (small n).disk ((small n).sb.iblock i) = smallDisk (i / 8 + 2) := rfl
  rw [State.table, hninodes, hdisk]
  by_cases hi : i < 8
  · have hmod : i % IPB = i := Nat.mod_eq_of_lt hi
    have hblock : smallDisk (i / 8 + 2) =
        putDinode (putDinode (.of fileBytes) 0 .zero) 1 smallDir := by
      rw [Nat.div_eq_of_lt hi]
      rfl
    rw [hmod, hblock]
    by_cases h1 : i = 1
    · subst h1
      rw [Mkfs.getDinode_putDinode (by decide) small_smallDir, if_pos ⟨by decide, by decide⟩,
        if_pos rfl]
    rw [if_neg h1, Mkfs.getDinode_putDinode_of_ne hi (Ne.symm h1)]
    by_cases h0 : i = 0
    · subst h0
      rw [Mkfs.getDinode_putDinode (by decide) Mkfs.Dinode.small_zero,
        if_neg fun hc => hc.2 rfl, if_neg (by decide)]
    · rw [Mkfs.getDinode_putDinode_of_ne hi (Ne.symm h0), getDinode_files hi,
        if_pos ⟨by omega, by decide⟩, if_pos (by omega)]
  · by_cases hlt : i < 56
    · have hblock : smallDisk (i / 8 + 2) = .of fileBytes := by
        rw [smallDisk, if_neg (by omega), if_pos (by omega)]
      rw [hblock, getDinode_files (Nat.mod_lt i (by decide)), if_pos ⟨hlt, by decide⟩,
        if_neg (by omega), if_pos (by omega)]
    · rw [if_neg fun hc => hlt hc.1, if_neg (by omega), if_neg (by omega)]

/-- No inode has a block but the root. -/
theorem addrs_small (n i k : ℕ) :
    ((small n).table i).addrs k = if i = 1 ∧ k = 0 then 10 else 0 := by
  rw [table_small]
  split_ifs <;> simp_all [smallDir, emptyFile, Dinode.zero]

/-- There is one pointer. -/
theorem ptr_small (q : Fs.Pointer) :
    ptr smallDisk (small n).table q = if q = .addr 1 0 then 10 else 0 := by
  cases q with
  | addr i k => simp only [ptr, addrs_small, Fs.Pointer.addr.injEq]
  | entry i j =>
    have hind : ((small n).table i).addrs NDIRECT = 0 := by
      rw [addrs_small, if_neg fun hc => absurd hc.2 (by decide)]
    simp [ptr, hind]

theorem used_small {b : ℕ} (hb : b < 16) : (small n).used b = decide (b < 11) := by
  have hbit : (small n).used b = bit (smallDisk 9) b := by
    rw [State.used, bblock, Nat.div_eq_of_lt (hb.trans (by decide)),
      Nat.mod_eq_of_lt (hb.trans (by decide)), Nat.zero_add]
    rfl
  have hall : ∀ b < 16, bit (smallDisk 9) b = decide (b < 11) := by decide +kernel
  rw [hbit, hall b hb]

theorem size_small (n i : ℕ) : ((small n).table i).size = if i = 1 then BSIZE else 0 := by
  rw [table_small]
  split_ifs <;> rfl

theorem consistent_small (hn : n ≤ 3) : Consistent (small n) := by
  have hnmeta : nmeta (small n).sb = 10 := by
    change 11 + n - (1 + n) = 10
    omega
  have hsize : (small n).sb.size = 11 + n := rfl
  refine ⟨⟨fun i hi => ?_, fun b hb => ?_, ?_⟩, ⟨?_, fun q hq => ?_, fun q q' hq heq => ?_,
    fun b hb => ?_⟩, fun i k hk => ?_, fun i => ?_⟩
  · have hlt : i < 56 := hi
    change i / 8 + 2 < 9
    omega
  · rw [hnmeta]
    change b / 4096 + 9 < 10
    omega
  · rw [hsize]
    omega
  · rw [hnmeta]
    decide
  · have hptr := ptr_small (n := n) q
    split at hptr
    · rw [show ptr (small n).disk (small n).table q = 10 from hptr, hnmeta, hsize]
      omega
    · exact absurd hptr hq
  · have hptr := ptr_small (n := n) q
    have hptr' := ptr_small (n := n) q'
    split at hptr
    · next h1 =>
      split at hptr'
      · next h2 => rw [h1, h2]
      · exact absurd (heq.trans hptr') hq
    · exact absurd hptr hq
  · rw [used_small (by omega), decide_eq_true_eq, hnmeta]
    constructor
    · intro hb11
      by_cases h10 : b < 10
      · exact .inl h10
      · exact .inr ⟨.addr 1 0, (ptr_small _).trans (by rw [if_pos rfl]; omega)⟩
    · rintro (hlt | ⟨q, rfl⟩)
      · omega
      · rw [show ptr (small n).disk (small n).table q = _ from ptr_small q]
        split <;> decide
  · rw [size_small] at hk
    split at hk
    · next hi =>
      have hk0 : k = 0 := by
        rw [BSIZE] at hk
        omega
      rw [hi, hk0]
      refine ne_of_eq_of_ne (ptr_small (.addr 1 0)) ?_
      decide
    · exact absurd hk (Nat.not_lt_zero _)
  · rw [size_small]
    split <;> decide

theorem contents_small (n : ℕ) : (small n).contents 1 = (List.range BSIZE).map smallBytes := by
  rw [State.contents, size_small, if_pos rfl]
  refine List.map_congr_left fun k hk => ?_
  have hlt := List.mem_range.mp hk
  have hptr : ptr (small n).disk (small n).table (.block 1 (k / BSIZE)) = 10 := by
    rw [Nat.div_eq_of_lt hlt]
    exact (ptr_small (.addr 1 0)).trans (if_pos rfl)
  rw [hptr, Nat.mod_eq_of_lt hlt]
  exact (Mkfs.Block.of_apply smallBytes k).trans (if_pos hlt)

theorem slots_small (n : ℕ) : slots ((small n).contents 1) =
    (List.range 32).map fun k => some ([UInt8.ofNat (65 + k)], 1 + k) := by
  rw [contents_small]
  decide +kernel

theorem directory_small (n : ℕ) : Directory (small n) 1 where
  type := by
    rw [table_small]
    rfl
  size := by
    rw [size_small]
    rfl
  distinct := by
    intro i j k v w hi hj
    rw [slots_small] at hi hj
    have hi32 := Slots.lt_of_entry hi
    have hj32 := Slots.lt_of_entry hj
    rw [List.length_map, List.length_range] at hi32 hj32
    simp only [Slots.entry, List.getElem?_map, List.getElem?_range hi32, List.getElem?_range hj32,
      Option.map_some, Option.join_some, Option.some.injEq, Prod.mk.injEq] at hi hj
    have hbyte := List.head_eq_of_cons_eq (hi.1.trans hj.1.symm)
    have hnat := congrArg UInt8.toNat hbyte
    rw [UInt8.toNat_ofNat', UInt8.toNat_ofNat'] at hnat
    omega

theorem room_small (n : ℕ) : Room (small n) 1 := by
  refine .inr ?_
  rw [size_small]
  decide

/-- The first entry is that of the directory, the second that of a file. -/
theorem lookup_small (n : ℕ) : (small n).lookup 1 [65] = some (1, 0) ∧
    (small n).lookup 1 [66] = some (2, DIRENT) ∧ (small n).lookup 1 [97] = none := by
  simp only [State.lookup, slots_small]
  decide +kernel

theorem newOff_small (n : ℕ) : (small n).newOff 1 = BSIZE := by
  rw [State.newOff, slots_small]
  decide +kernel

/-- The buffer that `skipelem` fills for a path of one byte. -/
def oneByte (c : UInt8) : List UInt8 := c :: List.replicate 13 0

/-- Two inodes are in use, the root and one more. -/
def someInodes (n : ℕ) : Cached := ⟨small n, [1, 3], fun _ => true⟩

/-- All entries of the inode cache are in use, and none is that of inode 2. -/
def allInodes (n : ℕ) : Cached := ⟨small n, 1 :: (List.range 49).map (3 + ·), fun _ => true⟩

/-- On a disk with a free block a full directory gets a new entry, and the name of a file is found
to be there. -/
theorem directories_are_maps_small : Consistent (small 1) ∧ Directory (small 1) 1 ∧
    Room (small 1) 1 ∧ skipelem [97] (List.replicate 14 0) = some ([], oneByte 97) ∧
    (∃ s, (dirlink ⟨1, (small 1).table 1⟩ (oneByte 97) 2).exec [1] (someInodes 1) =
        .ok ((⟨1, s.table 1⟩, 0), [1], { someInodes 1 with fs := s }) ∧ Directory s 1) ∧
    ∃ c, (dirlink ⟨1, (small 1).table 1⟩ (oneByte 66) 3).exec [1] (someInodes 1) =
        .ok ((⟨1, (small 1).table 1⟩, -1), [1], c) := by
  have hskip : ∀ b, b = 97 ∨ b = 66 →
      skipelem [b] (List.replicate 14 0) = some ([], oneByte b) := by
    rintro b (rfl | rfl) <;> decide
  have hcons : Consistent (someInodes 1).fs := consistent_small (by decide)
  have hmaps := fun b (hb : b = 97 ∨ b = 66) (h0 : 0 ∉ [b]) k (hk : k ≠ 0) (hlt : k < 2 ^ 16) =>
    directories_are_maps (h := [1]) hcons (directory_small 1) (room_small 1) h0 (hskip b hb) hk hlt
  refine ⟨hcons, directory_small 1, room_small 1, hskip 97 (.inl rfl), ?_, ?_⟩
  · obtain ⟨-, -, -, -, hlink, -⟩ := hmaps 97 (.inl rfl) (by decide) 2 (by decide) (by decide)
    have hkey : key (oneByte 97) = [97] := by decide
    have hneed : need (small 1) (small 1).table 1 (blocksOf ((small 1).newOff 1) DIRENT) ≤
        free (small 1) := by
      have hfree : free (small 1) = 1 := by
        have hfilter : (List.range (small 1).sb.size).filter (fun b => !(small 1).used b) =
            [11] := by
          change (List.range 12).filter (fun b => !(small 1).used b) = [11]
          rw [List.filter_congr fun b hb => by
            rw [used_small (n := 1) ((List.mem_range.mp hb).trans (by decide))]]
          decide
        rw [free, hfilter, List.length_singleton]
      have hblocks : blocksOf BSIZE DIRENT = [1] := by decide
      have hmissing : missing (small 1) (small 1).table 1 [1] ≤ 1 := List.length_filter_le _ _
      rw [hfree, newOff_small, hblocks, need, if_neg (by decide)]
      generalize missing (small 1) (small 1).table 1 [1] = m at *
      omega
    obtain ⟨s, hexec, -, hd, -⟩ := hlink (hkey ▸ (lookup_small 1).2.2) hneed
    exact ⟨s, hexec, hd⟩
  · obtain ⟨-, -, -, hlink, -⟩ := hmaps 66 (.inr rfl) (by decide) 3 (by decide) (by decide)
    have hkey : key (oneByte 66) = [66] := by decide
    exact ⟨_, hlink 2 DIRENT (hkey ▸ (lookup_small 1).2.1) (.inr (by decide)) (by decide)⟩

/-- Where the code does not return although the directory is one: `balloc` finds no block for the
entry, `iput` waits for the lock of the directory, which the caller holds, and `iget` finds no
entry of the cache. -/
theorem dirlink_stops : Consistent (small 0) ∧ Directory (small 0) 1 ∧ Room (small 0) 1 ∧
    (∀ b, b = 97 ∨ b = 65 ∨ b = 66 →
      skipelem [b] (List.replicate 14 0) = some ([], oneByte b)) ∧
    (small 0).lookup 1 (key (oneByte 97)) = none ∧
    (dirlink ⟨1, (small 0).table 1⟩ (oneByte 97) 2).stops [1] (someInodes 0) =
      some (.failed .balloc) ∧
    (small 0).lookup 1 (key (oneByte 65)) = some (1, 0) ∧
    (dirlink ⟨1, (small 0).table 1⟩ (oneByte 65) 2).stops [1] (someInodes 0) =
      some (.blocked 1) ∧
    (small 0).lookup 1 (key (oneByte 66)) = some (2, DIRENT) ∧
    (dirlookup ⟨1, (small 0).table 1⟩ (oneByte 66)).stops [1] (allInodes 0) =
      some (.failed .iget) := by
  have hcons := consistent_small (n := 0) (by decide)
  have hd := directory_small 0
  have hkey : key (oneByte 65) = [65] ∧ key (oneByte 66) = [66] ∧ key (oneByte 97) = [97] := by
    decide
  obtain ⟨hA, hB, ha⟩ := lookup_small 0
  rw [← hkey.1] at hA
  rw [← hkey.2.1] at hB
  rw [← hkey.2.2] at ha
  refine ⟨hcons, hd, room_small 0, ?_, ha, ?_, hA, ?_, hB, ?_⟩
  · rintro b (rfl | rfl | rfl) <;> decide
  · have hfs : (someInodes 0).fs = small 0 := rfl
    have hfree : free (small 0) = 0 := by
      have hfilter : (List.range (small 0).sb.size).filter (fun b => !(small 0).used b) = [] := by
        refine List.filter_eq_nil_iff.mpr fun b hb => ?_
        have hlt : b < 11 := List.mem_range.mp hb
        rw [used_small (by omega), decide_eq_true hlt]
        decide
      rw [free, hfilter, List.length_nil]
    have hptr : ptr (someInodes 0).fs.disk (someInodes 0).fs.table
        (.block 1 ((someInodes 0).fs.newOff 1 / BSIZE)) = 0 := by
      have hblock : Fs.Pointer.block 1 (BSIZE / BSIZE) = .addr 1 1 := by decide
      rw [hfs, newOff_small, hblock]
      exact ptr_small (.addr 1 1)
    have hmax : (someInodes 0).fs.newOff 1 + DIRENT ≤ MAXFILE * BSIZE := by
      rw [hfs, newOff_small]
      decide
    exact dirlink_full (c := someInodes 0) hcons hd ha hmax hfree hptr 2
  · exact dirlink_locked (c := someInodes 0) hcons hd hA (.inl (by decide)) (by decide) 2
  · have hfull : ¬ (allInodes 0).HasRoom 2 :=
      not_or.mpr ⟨by decide +kernel, by decide +kernel⟩
    exact dirlookup_full (c := allInodes 0) hcons hd hB hfull

end Small

end Xv6.Data
