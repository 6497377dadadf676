/-
  `set_addr_mask`, and `next_table_create` where there is no table yet.

  A frame number that `set_addr_mask` stores in an entry changes nothing but the address field,
  and `pointed_frame` reads it back (`addressField_roundTrip`).

  The new entry is written in steps, all through the address of the table that holds it.
  An absent word is on no path that works, so the steps do not disturb each other
  (`modify_absent`), and the entry is then `created e addr`, where `e` was there before and
  `addr` is the address of the frame allocated. `set_addr_mask` multiplies what it is given
  by the page size, and it is given an address, so the entry leads to frame number `addr`
  (`frame_created`). The bits of `e` below the address stay, bit 7 among them. The words of
  the new table are what they were. `createsTable_iff`: so the new table is linked and empty
  only if the entry may be written, the number of the frame allocated leads to address 0, and
  page 0 is empty.
-/
import Utero.Lib.TableTree
import Utero.Mmu.Allocator
import Utero.Mmu.MapPage

namespace Utero.Mmu

open Utero.Lib

/-! ## The address field -/

theorem getLsbD_keepMask (k : Nat) :
    (0xfff0000000000fff#64).getLsbD k = decide (k < 12 ∨ (52 ≤ k ∧ k < 64)) :=
  getLsbD_eq_of_bits (fun j => decide (j < 12 ∨ (52 ≤ j ∧ j < 64))) (by decide)
    (fun j hj => decide_eq_false (by omega)) k

theorem getLsbD_setAddrMask (e addr : BitVec 64) (k : Nat) :
    (setAddrMask e addr).getLsbD k =
      ((e.getLsbD k && decide (k < 12 ∨ (52 ≤ k ∧ k < 64))) ||
        (decide (12 ≤ k ∧ k < 64) && addr.getLsbD (k - 12))) := by
  have hmul : addr * pageSize = addr <<< 12 := pageStartingAddress_eq addr
  rw [setAddrMask, hmul, BitVec.getLsbD_or, BitVec.getLsbD_and, getLsbD_keepMask,
    BitVec.getLsbD_shiftLeft]
  grind

section AddressField

variable (e : BitVec 64) (f : Frame)

/-- A frame number takes the bits 12 to 43. -/
theorem getLsbD_setAddrMask_frame (k : Nat) :
    (setAddrMask e (f.setWidth 64)).getLsbD k =
      if 12 ≤ k ∧ k < 52 then f.getLsbD (k - 12) else e.getLsbD k := by
  have hhigh : 44 ≤ k → f.getLsbD (k - 12) = false :=
    fun hk => BitVec.getLsbD_of_ge f (k - 12) (by omega)
  have hend : 64 ≤ k → e.getLsbD k = false := fun hk => BitVec.getLsbD_of_ge e k hk
  rw [getLsbD_setAddrMask, BitVec.getLsbD_setWidth]
  grind

theorem present_setAddrMask : Pte.present (setAddrMask e (f.setWidth 64)) = Pte.present e := by
  rw [Pte.present, getLsbD_setAddrMask_frame, if_neg (by omega), Pte.present]

theorem pointedFrame_setAddrMask :
    pointedFrame (setAddrMask e (f.setWidth 64)) = if Pte.present e then f else 0 := by
  have hpresent := present_setAddrMask e f
  by_cases hp : Pte.present e = true
  · rw [if_pos hp, pointedFrame_present (hpresent.trans hp)]
    apply BitVec.eq_of_getLsbD_eq
    intro k hk
    rw [BitVec.getLsbD_setWidth, Pte.frame, BitVec.getLsbD_extractLsb', getLsbD_setAddrMask_frame,
      if_pos (by omega), Nat.add_sub_cancel_left, decide_eq_true hk,
      decide_eq_true (show k < 40 by omega), Bool.true_and, Bool.true_and]
  · rw [if_neg hp, pointedFrame, hpresent, if_neg hp]

/-- The field is cleared before it is set again. -/
theorem setAddrMask_setAddrMask (addr : BitVec 64) :
    setAddrMask (setAddrMask e (f.setWidth 64)) addr = setAddrMask e addr := by
  apply BitVec.eq_of_getLsbD_eq
  intro k _
  rw [getLsbD_setAddrMask _ addr, getLsbD_setAddrMask_frame, getLsbD_setAddrMask e addr]
  grind

/-- `set_addr_mask` with a frame number changes the address field only, `pointed_frame` reads
    the number back from a present entry, and a second call replaces it. -/
theorem addressField_roundTrip :
    (∀ k, ¬ (12 ≤ k ∧ k < 52) →
        (setAddrMask e (f.setWidth 64)).getLsbD k = e.getLsbD k) ∧
      pointedFrame (setAddrMask e (f.setWidth 64)) = (if Pte.present e then f else 0) ∧
      ∀ addr, setAddrMask (setAddrMask e (f.setWidth 64)) addr = setAddrMask e addr := by
  refine ⟨fun k hk => ?_, pointedFrame_setAddrMask e f, setAddrMask_setAddrMask e f⟩
  rw [getLsbD_setAddrMask_frame, if_neg hk]

end AddressField

/-! ## The new entry -/

/-- What `next_table_create` makes of entry `e` for a frame at `addr`. -/
def created (e addr : BitVec 64) : BitVec 64 := setWritable (setPresent (setAddrMask e addr))

theorem present_created (e addr : BitVec 64) : Pte.present (created e addr) = true := by
  simp [Pte.present, created, setWritable, setPresent]

theorem writable_created (e addr : BitVec 64) : Pte.writable (created e addr) = true := by
  simp [Pte.writable, created, setWritable]

theorem huge_created (e addr : BitVec 64) : Pte.huge (created e addr) = Pte.huge e := by
  simp only [Pte.huge, created, setWritable, setPresent, BitVec.getLsbD_or, getLsbD_setAddrMask]
  simp

/-- The frame number of the new entry is the address. -/
theorem frame_created (e addr : BitVec 64) : Pte.frame (created e addr) = addr.setWidth 40 := by
  apply BitVec.eq_of_getLsbD_eq
  intro k hk
  have hone : ∀ j < 40, (1#64).getLsbD (12 + j) = false := by decide
  have htwo : ∀ j < 40, (2#64).getLsbD (12 + j) = false := by decide
  simp only [Pte.frame, created, setWritable, setPresent, BitVec.getLsbD_extractLsb',
    BitVec.getLsbD_or, getLsbD_setAddrMask, hone k hk, htwo k hk, BitVec.getLsbD_setWidth]
  grind

theorem link_created {e : BitVec 64} (h : Pte.huge e = false) (addr : BitVec 64) :
    Pte.Link (created e addr) :=
  ⟨present_created e addr, (huge_created e addr).trans h⟩

/-! ## The call -/

/-- A read-modify-write of a word that was absent to begin with. -/
theorem modify_absent {s : Machine} {va : BitVec 64} {x : Slot}
    (hgo : hwWrite s.mem s.cr3 va = some x.addr) (habsent : Pte.present (s.mem x) = false)
    (mmap : MmapState) (v : BitVec 64) (f : BitVec 64 → BitVec 64) :
    (Machine.mk (Function.update s.mem x v) s.cr3 mmap).modify va f =
      some ⟨Function.update s.mem x (f v), s.cr3, mmap⟩ := by
  have hwrite := hwWrite_update_of_absent habsent v hgo
  have hread := (hwWrite_eq_some.mp hwrite).1
  simp [Machine.modify, Machine.load, Machine.store, hread, hwrite, slotOf_addr]

/-- The machine after a table was made for entry `i` of the table at the end of path `is`. -/
def withTable (s : Machine) (is : List (BitVec 9)) (i : BitVec 9) (addr : PhysicalAddress)
    (mmap : MmapState) : Machine :=
  ⟨attached s.mem s.cr3 is i (created (s.mem ⟨reach s.mem s.cr3 is, i⟩) addr), s.cr3, mmap⟩

/-- What the allocator gives a new table: the globals after the call and the address of the
    frame. -/
def AllocatesTable (s : Machine) (addr : PhysicalAddress) (mmap : MmapState) : Prop :=
  ∃ r, Returns (fun n => mmapAllocateFrame n s.mmap) r ∧ r.state = mmap ∧
    Returns (fun n => mmapRead n r.state.memoryArea r.frame mmapGetAddr) addr

/-- The call on an absent entry at slot `x`, up to its last line. -/
theorem nextTableCreate_allocates {s : Machine} {table index : BitVec 64} {x : Slot}
    (hgo : hwWrite s.mem s.cr3 (entryAddr table index) = some x.addr)
    (habsent : Pte.present (s.mem x) = false) {r : AllocateResult} {addr : PhysicalAddress}
    (halloc : Returns (fun n => mmapAllocateFrame n s.mmap) r)
    (hread : Returns (fun n => mmapRead n r.state.memoryArea r.frame mmapGetAddr) addr) :
    ∃ n, ∀ k, n ≤ k → nextTableCreate k s table index =
      (nextTableAddress ⟨Function.update s.mem x (created (s.mem x) addr), s.cr3, r.state⟩ table
        (index.setWidth 32)).bind fun res =>
          some (res, ⟨Function.update s.mem x (created (s.mem x) addr), s.cr3, r.state⟩) := by
  obtain ⟨n, hn⟩ := halloc
  obtain ⟨m, hm⟩ := hread
  have hload : s.load (entryAddr table index) = some (s.mem x) := by
    rw [Machine.load, (hwWrite_eq_some.mp hgo).1, Option.map_some, slotOf_addr]
  have hself : ({ s with mmap := r.state } : Machine) =
      ⟨Function.update s.mem x (s.mem x), s.cr3, r.state⟩ := by
    rw [Function.update_eq_self]
  refine ⟨max n m, fun k hk => ?_⟩
  simp only [nextTableCreate, hload, Option.bind_eq_bind, Option.bind_some, if_pos habsent,
    hn k (by omega), hm k (by omega), hself, Machine.setAddrMask, modify_absent hgo habsent]
  rfl

/-- The call writes to an absent entry at once. -/
theorem writable_of_nextTableCreate {fuel : Nat} {s : Machine} {table index : BitVec 64} {x : Slot}
    (hgo : hwTranslate s.mem s.cr3 (entryAddr table index) = some x.addr)
    (habsent : Pte.present (s.mem x) = false) {r : BitVec 64 × Machine}
    (h : nextTableCreate fuel s table index = some r) :
    hwWritable s.mem s.cr3 (entryAddr table index) = true := by
  obtain ⟨e, hload, h⟩ := Option.bind_eq_some_iff.mp h
  rw [Machine.load, hgo, Option.map_some, slotOf_addr] at hload
  obtain rfl := Option.some.inj hload
  rw [if_pos habsent] at h
  obtain ⟨a, -, h⟩ := Option.bind_eq_some_iff.mp h
  obtain ⟨addr, -, h⟩ := Option.bind_eq_some_iff.mp h
  obtain ⟨s1, hmask, -⟩ := Option.bind_eq_some_iff.mp h
  obtain ⟨s2, hclear, -⟩ := Option.bind_eq_some_iff.mp hmask
  obtain ⟨p, hp, -⟩ := modify_some hclear
  exact (hwWrite_eq_some.mp hp).2

/-- And it has been given a frame. -/
theorem allocatesTable_of_nextTableCreate {fuel : Nat} {s : Machine} {table index : BitVec 64}
    {x : Slot} (hgo : hwTranslate s.mem s.cr3 (entryAddr table index) = some x.addr)
    (habsent : Pte.present (s.mem x) = false) {r : BitVec 64 × Machine}
    (h : nextTableCreate fuel s table index = some r) :
    ∃ addr mmap, AllocatesTable s addr mmap := by
  obtain ⟨e, hload, h⟩ := Option.bind_eq_some_iff.mp h
  rw [Machine.load, hgo, Option.map_some, slotOf_addr] at hload
  obtain rfl := Option.some.inj hload
  rw [if_pos habsent] at h
  obtain ⟨a, halloc, h⟩ := Option.bind_eq_some_iff.mp h
  obtain ⟨addr, hread, -⟩ := Option.bind_eq_some_iff.mp h
  exact ⟨addr, a.state, a, (mmapAllocateFrame_fuelMono _).returns halloc, rfl,
    (mmapRead_fuelMono _ _ _).returns hread⟩

theorem nextTableCreate_fuelMono (s : Machine) (table index : BitVec 64) :
    FuelMono (fun n => nextTableCreate n s table index) := by
  intro n r h
  obtain ⟨e, hload, h⟩ := Option.bind_eq_some_iff.mp h
  refine Option.bind_eq_some_iff.mpr ⟨e, hload, ?_⟩
  by_cases habsent : Pte.present e = false
  · rw [if_pos habsent] at h ⊢
    obtain ⟨a, halloc, h⟩ := Option.bind_eq_some_iff.mp h
    obtain ⟨addr, hread, h⟩ := Option.bind_eq_some_iff.mp h
    exact Option.bind_eq_some_iff.mpr ⟨a, mmapAllocateFrame_fuelMono _ n a halloc,
      Option.bind_eq_some_iff.mpr ⟨addr, mmapRead_fuelMono _ _ _ n addr hread, h⟩⟩
  · rw [if_neg habsent] at h ⊢
    exact h

/-- `next_table_create` on an absent entry with bit 7 clear, that may be written. -/
theorem nextTableCreate_absent {s : Machine} (hr : Recursive s.mem s.cr3)
    {is : List (BitVec 9)} {i : BitVec 9} {addr : PhysicalAddress} {mmap : MmapState}
    (hw : writablePath s.mem s.cr3 is = true)
    (halloc : AllocatesTable s addr mmap)
    (h : NewLink s.mem s.cr3 is i (created (s.mem ⟨reach s.mem s.cr3 is, i⟩) addr)) :
    Returns (fun n => nextTableCreate n s (recTable is) (i.setWidth 64))
      (recTable (is ++ [i]), withTable s is i addr mmap) := by
  obtain ⟨r, hframe, rfl, hread⟩ := halloc
  have hlen := h.length
  have hgo := hwWrite_recTable hr (by omega) h.linked i
  rw [if_pos hw] at hgo
  have hlink := ((linked_snoc _ _ _ _).mp h.linked_new.1).2
  have hnext := (nextTableAddress_recTable (s := withTable s is i addr r.state) (h.recursive hr)
    (h.linked_path h.linked).1 hlen i).trans (congrArg some (if_pos hlink))
  obtain ⟨n, hn⟩ := nextTableCreate_allocates hgo h.absent hframe hread
  refine ⟨n, fun k hk => ?_⟩
  dsimp only
  rw [hn k hk, index_widen_narrow]
  exact congrArg (fun t => t.bind fun res => some (res, withTable s is i addr r.state)) hnext

/-- The call comes back, whatever the entry then leads to. -/
theorem nextTableCreate_returns {s : Machine} {table index : BitVec 64}
    (hindex : index.toNat < 512) {x : Slot}
    (hgo : hwWrite s.mem s.cr3 (entryAddr table index) = some x.addr)
    (habsent : Pte.present (s.mem x) = false) {r : AllocateResult} {addr : PhysicalAddress}
    (halloc : Returns (fun n => mmapAllocateFrame n s.mmap) r)
    (hread : Returns (fun n => mmapRead n r.state.memoryArea r.frame mmapGetAddr) addr) :
    ∃ res, Returns (fun n => nextTableCreate n s table index)
      (res, ⟨Function.update s.mem x (created (s.mem x) addr), s.cr3, r.state⟩) := by
  have hwiden : (index.setWidth 32).setWidth 64 = index := by
    apply BitVec.eq_of_toNat_eq
    rw [BitVec.toNat_setWidth, BitVec.toNat_setWidth]
    omega
  have hgo' := hwTranslate_update_of_absent habsent (created (s.mem x) addr)
    (hwWrite_eq_some.mp hgo).1
  obtain ⟨res, hres⟩ : ∃ res, nextTableAddress
      ⟨Function.update s.mem x (created (s.mem x) addr), s.cr3, r.state⟩ table
        (index.setWidth 32) = some res := by
    simp only [nextTableAddress, hwiden, Machine.load, hgo', Option.map_some, Option.bind_eq_bind,
      Option.bind_some]
    split
    · exact ⟨_, rfl⟩
    · exact ⟨_, rfl⟩
  obtain ⟨n, hn⟩ := nextTableCreate_allocates hgo habsent halloc hread
  refine ⟨res, n, fun k hk => ?_⟩
  dsimp only
  rw [hn k hk, hres, Option.bind_some]

/-! ## A linked and empty table -/

/-- What `next_table_create` should make of the entry in slot `x` and of the page at `addr`. -/
structure LinkedEmpty (before after : PhysMem) (x : Slot) (addr : PhysicalAddress) : Prop where
  present : Pte.present (after x) = true
  writable : Pte.writable (after x) = true
  address : after x &&& 0x000ffffffffff000#64 = addr
  others : ∀ k, 2 ≤ k → (k < 12 ∨ 52 ≤ k) → (after x).getLsbD k = (before x).getLsbD k
  empty : ∀ j, Pte.present (after ⟨addr.extractLsb' 12 40, j⟩) = false

/-- The call comes back with a linked, empty table at the address of the frame that
    `mmap_allocate_frame` returns in the state before. -/
def CreatesTable (s : Machine) (table index : BitVec 64) (x : Slot) : Prop :=
  ∃ r addr res s', Returns (fun n => mmapAllocateFrame n s.mmap) r ∧
    Returns (fun n => mmapRead n r.state.memoryArea r.frame mmapGetAddr) addr ∧
    Returns (fun n => nextTableCreate n s table index) (res, s') ∧
    LinkedEmpty s.mem s'.mem x addr

theorem getLsbD_created (e addr : BitVec 64) {k : Nat} (hk : 2 ≤ k) :
    (created e addr).getLsbD k = (setAddrMask e addr).getLsbD k := by
  have hone : (1#64).getLsbD k = false := by
    rw [BitVec.getLsbD_one]
    simp only [Bool.and_eq_false_iff, decide_eq_false_iff_not]
    omega
  have htwo : (2#64).getLsbD k = (k == 1) :=
    getLsbD_eq_of_bits (fun j => j == 1) (by decide) (fun j hj => by simp; omega) k
  have hne : (k == 1) = false := by simp; omega
  simp only [created, setWritable, setPresent, BitVec.getLsbD_or, hone, htwo, hne, Bool.or_false]

/-- The address field is the address times 4096, so it is the address only for 0. -/
theorem created_address_iff (e addr : BitVec 64) :
    created e addr &&& 0x000ffffffffff000#64 = addr ↔ addr = 0 := by
  have hbits : ∀ k, (created e addr &&& 0x000ffffffffff000#64).getLsbD k =
      (decide (12 ≤ k ∧ k < 52) && addr.getLsbD (k - 12)) := by
    intro k
    rw [BitVec.getLsbD_and, getLsbD_addrMask]
    by_cases hk : 12 ≤ k ∧ k < 52
    · rw [getLsbD_created e addr (by omega), getLsbD_setAddrMask]
      rw [decide_eq_false (show ¬ (k < 12 ∨ (52 ≤ k ∧ k < 64)) by omega),
        decide_eq_true (show 12 ≤ k ∧ k < 64 by omega), decide_eq_true hk, Bool.and_false,
        Bool.false_or, Bool.true_and, Bool.and_true]
    · simp only [hk, decide_false, Bool.and_false, Bool.false_and]
  constructor
  · intro heq
    -- every bit of the address is the one twelve places below
    have hzero : ∀ k, addr.getLsbD k = false := by
      intro k
      induction k using Nat.strong_induction_on with
      | _ k ih =>
        rw [← heq, hbits]
        by_cases hk : 12 ≤ k ∧ k < 52
        · rw [ih (k - 12) (by omega), Bool.and_false]
        · simp only [hk, decide_false, Bool.false_and]
    apply BitVec.eq_of_getLsbD_eq
    intro k _
    rw [hzero k]
    exact BitVec.getLsbD_zero.symm
  · rintro rfl
    apply BitVec.eq_of_getLsbD_eq
    intro k _
    rw [hbits]
    simp

theorem linkedEmpty_iff (mem : PhysMem) (x : Slot) (addr : PhysicalAddress) :
    LinkedEmpty mem (Function.update mem x (created (mem x) addr)) x addr ↔
      addr = 0 ∧ x.frame ≠ 0 ∧ ∀ j, Pte.present (mem ⟨0, j⟩) = false := by
  constructor
  · rintro ⟨-, -, haddr, -, hempty⟩
    rw [Function.update_self] at haddr
    obtain rfl := (created_address_iff _ _).mp haddr
    have hframe : x.frame ≠ 0 := by
      intro h0
      have hx : (⟨(0 : PhysicalAddress).extractLsb' 12 40, x.index⟩ : Slot) = x := by
        rw [show (0 : PhysicalAddress).extractLsb' 12 40 = 0 by decide, ← h0]
      have habsent := hempty x.index
      rw [hx, Function.update_self, present_created] at habsent
      cases habsent
    refine ⟨rfl, hframe, fun j => ?_⟩
    have habsent := hempty j
    rw [Function.update_of_ne (fun h => hframe (congrArg Slot.frame h).symm)] at habsent
    exact habsent
  · rintro ⟨rfl, hframe, hempty⟩
    refine ⟨?_, ?_, ?_, ?_, ?_⟩
    · rw [Function.update_self, present_created]
    · rw [Function.update_self, writable_created]
    · rw [Function.update_self]
      exact (created_address_iff _ _).mpr rfl
    · intro k hk hout
      rw [Function.update_self, getLsbD_created _ _ hk, getLsbD_setAddrMask]
      rcases hout with hlow | hhigh
      · simp [hlow]
      · by_cases h64 : k < 64
        · simp [hhigh, h64]
        · rw [BitVec.getLsbD_of_ge (mem x) k (by omega)]
          simp
    · intro j
      rw [Function.update_of_ne (fun h => hframe (congrArg Slot.frame h).symm)]
      exact hempty j

/-- In state `s` the allocator returns a number that `mmap_read` turns into address 0. -/
def NamesZero (s : MmapState) : Prop :=
  ∃ r, Returns (fun n => mmapAllocateFrame n s) r ∧
    Returns (fun n => mmapRead n r.state.memoryArea r.frame mmapGetAddr) 0

/-- From the number of the chunk selected on, all chunks are RESERVED, or the first that is not
    starts at 0. -/
theorem namesZero_iff {s : MmapState} (hwf : s.memoryArea.WellFormed) {k : Nat} {c : Chunk}
    (h : Selects s k c) (hk : k < 2 ^ 32) :
    NamesZero s ↔
      NumberLookup s.memoryArea.chunks (numberOf s.memoryArea c.start).toNat 0 := by
  have halloc := allocate_selects hwf h hk
  have hread := mmapRead_returns hwf (numberOf s.memoryArea c.start) mmapGetAddr (Or.inr rfl)
  have hfound := scan_numberLookup s.memoryArea.chunks (numberOf s.memoryArea c.start)
  constructor
  · rintro ⟨r, hr, hzero⟩
    obtain rfl := hr.unique halloc
    simp only [accepted] at hzero
    rw [hzero.unique hread]
    exact hfound
  · intro hlookup
    refine ⟨_, halloc, ?_⟩
    simp only [accepted]
    rw [hlookup.unique hfound]
    exact hread

/-- For every table, index and absent entry the processor finds at slot `x`, and every state of
    memory and allocator: the new table is linked and empty exactly if the walk to the entry
    allows writing it, the frame allocated is one whose number leads to address 0, the entry is
    not in page 0, and page 0 holds no present entry. -/
theorem createsTable_iff (s : Machine) (table index : BitVec 64) (hindex : index.toNat < 512)
    (x : Slot) (hgo : hwTranslate s.mem s.cr3 (entryAddr table index) = some x.addr)
    (habsent : Pte.present (s.mem x) = false) :
    (CreatesTable s table index x ↔
        hwWritable s.mem s.cr3 (entryAddr table index) = true ∧
          NamesZero s.mmap ∧ x.frame ≠ 0 ∧ ∀ j, Pte.present (s.mem ⟨0, j⟩) = false) ∧
      ∀ (k : Nat) (c : Chunk), s.mmap.memoryArea.WellFormed → Selects s.mmap k c → k < 2 ^ 32 →
        (NamesZero s.mmap ↔ NumberLookup s.mmap.memoryArea.chunks
          (numberOf s.mmap.memoryArea c.start).toNat 0) := by
  refine ⟨?_, fun k c hwf hsel hk => namesZero_iff hwf hsel hk⟩
  constructor
  · rintro ⟨r, addr, res, s', halloc, hread, hcreate, hgood⟩
    obtain ⟨n, hn⟩ := hcreate
    have hwritable := writable_of_nextTableCreate hgo habsent (hn n (Nat.le_refl n))
    have hcreate : Returns (fun n => nextTableCreate n s table index) (res, s') := ⟨n, hn⟩
    obtain ⟨res', hcreate'⟩ := nextTableCreate_returns hindex
      (hwWrite_eq_some.mpr ⟨hgo, hwritable⟩) habsent halloc hread
    have heq := congrArg Prod.snd (hcreate.unique hcreate')
    dsimp only at heq
    rw [heq, linkedEmpty_iff] at hgood
    obtain ⟨rfl, hframe, hempty⟩ := hgood
    exact ⟨hwritable, ⟨r, halloc, hread⟩, hframe, hempty⟩
  · rintro ⟨hwritable, ⟨r, halloc, hread⟩, hframe, hempty⟩
    obtain ⟨res, hcreate⟩ := nextTableCreate_returns hindex
      (hwWrite_eq_some.mpr ⟨hgo, hwritable⟩) habsent halloc hread
    exact ⟨r, 0, res, _, halloc, hread, hcreate, (linkedEmpty_iff _ _ _).mpr ⟨rfl, hframe, hempty⟩⟩

/-- `sampleMem` with the allocator at the start of `acpiMap`. -/
def roomyMachine : Machine := { sampleMachine with mmap := stateAt acpiMap sampleAreas 1 }

theorem roomyMachine_allocates :
    AllocatesTable roomyMachine 0x1000 (stateAt acpiMap sampleAreas 2) :=
  ⟨⟨0x1000, 1, stateAt acpiMap sampleAreas 2⟩, returns_of_eval rfl, rfl,
    (mmapRead_fuelMono _ _ _).returns (n := 20) rfl⟩

/-- Entry 1 of the top table, in slot 1 of frame 1, is absent. -/
theorem roomyMachine_entry :
    hwTranslate roomyMachine.mem roomyMachine.cr3 (entryAddr p4Table 1) =
      some (Slot.addr ⟨1, 1⟩) := by
  decide

theorem createsTable_iff_roomyMachine :
    (CreatesTable roomyMachine p4Table 1 ⟨1, 1⟩ ↔
        hwWritable roomyMachine.mem roomyMachine.cr3 (entryAddr p4Table 1) = true ∧
          NamesZero roomyMachine.mmap ∧ (1 : FrameNo) ≠ 0 ∧
            ∀ j, Pte.present (roomyMachine.mem ⟨0, j⟩) = false) ∧
      ∀ (k : Nat) (c : Chunk), roomyMachine.mmap.memoryArea.WellFormed →
        Selects roomyMachine.mmap k c → k < 2 ^ 32 →
          (NamesZero roomyMachine.mmap ↔ NumberLookup roomyMachine.mmap.memoryArea.chunks
            (numberOf roomyMachine.mmap.memoryArea c.start).toNat 0) :=
  createsTable_iff roomyMachine p4Table 1 (by decide) ⟨1, 1⟩ roomyMachine_entry (by decide)

/-- The frame allocated is at 0x1000, and the new entry of the top table leads to frame number
    0x1000. -/
theorem createsTable_fails :
    ¬ ∀ (s : Machine) (table index : BitVec 64) (x : Slot), index.toNat < 512 →
      hwTranslate s.mem s.cr3 (entryAddr table index) = some x.addr →
      Pte.present (s.mem x) = false → HasEligible s.mmap → CreatesTable s table index x := by
  intro h
  have hel : HasEligible roomyMachine.mmap :=
    hasEligible_self (c := ⟨⟨0, 0x3001, 1⟩, 1⟩) (by decide) (by decide)
  obtain ⟨r, addr, res, s', halloc, hread, hcreate, hgood⟩ :=
    h roomyMachine p4Table 1 ⟨1, 1⟩ (by decide) roomyMachine_entry (by decide) hel
  obtain ⟨r', halloc', -, hread'⟩ := roomyMachine_allocates
  obtain rfl := halloc.unique halloc'
  obtain rfl := hread.unique hread'
  obtain ⟨res', hcreate'⟩ :=
    nextTableCreate_returns (by decide) (hwWrite_eq_some.mpr ⟨roomyMachine_entry, by decide⟩)
      (by decide) halloc hread
  have heq : s'.mem = _ := congrArg (fun p => p.2.mem) (hcreate.unique hcreate')
  rw [heq] at hgood
  exact absurd ((linkedEmpty_iff _ _ _).mp hgood).1 (by decide)

end Utero.Mmu
