/-
  `set_up_page_tables` of `asm/boot.asm`: the tables that paging is switched on with.

  The code runs in 32-bit mode on physical addresses and stores dwords, so that it fills the lower
  half of each 64-bit entry and relies on the `.bss` section for the upper one. All its addresses
  are multiples of 8. The labels `p4_table`, `p3_table` and `p2_table` are parameters: a
  `BootTables` holds three distinct page-aligned addresses below 4 GiB.

  `setUpPageTables_translates`: on tables filled with zeros the code comes to its end, and then
  the processor maps every address below 1 GiB to itself, writable, and the page at `P4_TABLE` to
  `p4_table`; every other address outside the last 512 GiB has no page.
-/
import Mathlib.Logic.Function.Basic
import Utero.Mmu.Paging

namespace Utero.Mmu

open Utero.Lib

/-! ## The code -/

/-- The three tables that `asm/boot.asm` reserves. -/
structure BootTables where
  p4 : BitVec 32
  p3 : BitVec 32
  p2 : BitVec 32
  aligned4 : p4.extractLsb' 0 12 = 0
  aligned3 : p3.extractLsb' 0 12 = 0
  aligned2 : p2.extractLsb' 0 12 = 0
  distinct43 : p4 ≠ p3
  distinct42 : p4 ≠ p2
  distinct32 : p3 ≠ p2

/-- The registers that the code uses, and memory by 64-bit slots. -/
structure BootMachine where
  eax : BitVec 32
  ecx : BitVec 32
  edx : BitVec 32
  mem : PhysMem

namespace BootMachine

/-- A dword store: it replaces one half of its slot. -/
def storeDword (mem : PhysMem) (addr value : BitVec 32) : PhysMem :=
  let slot := slotOf (addr.setWidth 52)
  let entry := if addr.getLsbD 2 then value ++ (mem slot).extractLsb' 0 32
    else (mem slot).extractLsb' 32 32 ++ value
  Function.update mem slot entry

def movEax (s : BootMachine) (value : BitVec 32) : BootMachine := { s with eax := value }

def orEax (s : BootMachine) (value : BitVec 32) : BootMachine := { s with eax := s.eax ||| value }

/-- `mul ecx`: the product goes to edx and eax. -/
def mulEcx (s : BootMachine) : BootMachine :=
  let product : BitVec 64 := s.eax.setWidth 64 * s.ecx.setWidth 64
  { s with eax := product.setWidth 32, edx := product.extractLsb' 32 32 }

def storeEax (s : BootMachine) (addr : BitVec 32) : BootMachine :=
  { s with mem := storeDword s.mem addr s.eax }

end BootMachine

/-- The loop from `.map_p2_table` to `inc ecx`. -/
def mapP2TableBody (t : BootTables) (s : BootMachine) : BootMachine :=
  let s := (((s.movEax 0x200000#32).mulEcx).orEax 0b10000011#32).storeEax (t.p2 + s.ecx * 8#32)
  { s with ecx := s.ecx + 1 }

/-- The loop with `jne .map_p2_table`. -/
def mapP2TableStep (t : BootTables) (s : BootMachine) : BootMachine ⊕ BootMachine :=
  let s := mapP2TableBody t s
  if s.ecx ≠ 512 then .inl s else .inr s

def setUpPageTables (t : BootTables) (fuel : Nat) (s : BootMachine) : Option BootMachine :=
  let s := ((s.movEax t.p4).orEax 0b11#32).storeEax (t.p4 + 511#32 * 8#32)
  let s := ((s.movEax t.p3).orEax 0b11#32).storeEax (t.p4 + 0#32)
  let s := ((s.movEax t.p2).orEax 0b11#32).storeEax (t.p3 + 0#32)
  loop (mapP2TableStep t) fuel { s with ecx := 0 }

/-! ## Slots of a table -/

/-- The frame of a page-aligned address. -/
def tableFrame (table : BitVec 32) : FrameNo := (table.setWidth 52).extractLsb' 12 40

theorem aligned_getLsbD {table : BitVec 32} (h : table.extractLsb' 0 12 = 0) {k : Nat}
    (hk : k < 12) : table.getLsbD k = false := by
  have hbit := congrArg (fun x : BitVec 12 => x.getLsbD k) h
  simpa [hk] using hbit

theorem getLsbD_entryAddr {table : BitVec 32} (h : table.extractLsb' 0 12 = 0) (i : BitVec 9)
    (k : Nat) : (table + i.setWidth 32 * 8#32).getLsbD k =
      if k < 3 then false else if k < 12 then i.getLsbD (k - 3) else table.getLsbD k := by
  have hi := fun j => BitVec.getLsbD_of_ge i j
  have htable := fun j => BitVec.getLsbD_of_ge table j
  have hlow := fun j hj => aligned_getLsbD (k := j) h hj
  have hmul : i.setWidth 32 * 8#32 = i.setWidth 32 <<< 3 := by
    rw [BitVec.shiftLeft_eq_mul_twoPow]
    rfl
  have hdisjoint : table &&& i.setWidth 32 <<< 3 = 0#32 := by
    apply BitVec.eq_of_getLsbD_eq
    intro j hj
    simp only [BitVec.getLsbD_and, BitVec.getLsbD_shiftLeft, BitVec.getLsbD_setWidth,
      BitVec.getLsbD_zero]
    grind
  rw [hmul, BitVec.add_eq_or_of_and_eq_zero _ _ hdisjoint]
  simp only [BitVec.getLsbD_or, BitVec.getLsbD_shiftLeft, BitVec.getLsbD_setWidth]
  grind

theorem slotOf_entryAddr {table : BitVec 32} (h : table.extractLsb' 0 12 = 0) (i : BitVec 9) :
    slotOf ((table + i.setWidth 32 * 8#32).setWidth 52) = ⟨tableFrame table, i⟩ := by
  have hframe : ((table + i.setWidth 32 * 8#32).setWidth 52).extractLsb' 12 40 =
      tableFrame table := by
    apply BitVec.eq_of_getLsbD_eq
    intro k hk
    unfold tableFrame
    simp only [BitVec.getLsbD_extractLsb', BitVec.getLsbD_setWidth, getLsbD_entryAddr h]
    grind
  have hindex : ((table + i.setWidth 32 * 8#32).setWidth 52).extractLsb' 3 9 = i := by
    apply BitVec.eq_of_getLsbD_eq
    intro k hk
    simp only [BitVec.getLsbD_extractLsb', BitVec.getLsbD_setWidth, getLsbD_entryAddr h]
    grind
  rw [slotOf, hframe, hindex]

/-- A dword stored to an entry goes to its lower half. -/
theorem storeDword_entry {table : BitVec 32} (h : table.extractLsb' 0 12 = 0) (i : BitVec 9)
    (mem : PhysMem) (value : BitVec 32) (hzero : mem ⟨tableFrame table, i⟩ = 0) :
    BootMachine.storeDword mem (table + i.setWidth 32 * 8#32) value =
      Function.update mem ⟨tableFrame table, i⟩ (value.setWidth 64) := by
  have hhalf : (table + i.setWidth 32 * 8#32).getLsbD 2 = false := by
    rw [getLsbD_entryAddr h, if_pos (by decide)]
  have hentry : (mem ⟨tableFrame table, i⟩).extractLsb' 32 32 ++ value = value.setWidth 64 := by
    have hvalue := fun j => BitVec.getLsbD_of_ge value j
    apply BitVec.eq_of_getLsbD_eq
    intro k hk
    rw [hzero]
    simp only [BitVec.getLsbD_append, BitVec.getLsbD_extractLsb', BitVec.getLsbD_setWidth,
      BitVec.ofNat_eq_ofNat, BitVec.getLsbD_zero]
    grind
  unfold BootMachine.storeDword
  rw [slotOf_entryAddr h, hhalf]
  dsimp only
  rw [if_neg (by decide), hentry]

theorem tableFrame_injective {table table' : BitVec 32} (h : table.extractLsb' 0 12 = 0)
    (h' : table'.extractLsb' 0 12 = 0) (heq : tableFrame table = tableFrame table') :
    table = table' := by
  apply BitVec.eq_of_getLsbD_eq
  intro k hk
  by_cases hlow : k < 12
  · rw [aligned_getLsbD h hlow, aligned_getLsbD h' hlow]
  · have hbit := congrArg (fun x : FrameNo => x.getLsbD (k - 12)) heq
    unfold tableFrame at hbit
    simp only [BitVec.getLsbD_extractLsb', BitVec.getLsbD_setWidth,
      show 12 + (k - 12) = k by omega] at hbit
    grind

/-! ## Entries -/

/-- The entry that leads to a table: present and writable. -/
def linkEntry (table : BitVec 32) : BitVec 64 := (table ||| 0b11#32).setWidth 64

/-- The entry of the 2 MiB page `i`: present, writable and huge. -/
def pageEntry (i : BitVec 9) : BitVec 64 :=
  (0x200000#32 * i.setWidth 32 ||| 0b10000011#32).setWidth 64

theorem getLsbD_linkEntry (table : BitVec 32) (k : Nat) :
    (linkEntry table).getLsbD k = (table.getLsbD k || decide (k < 2)) := by
  have hflags : ∀ j, (0b11#32).getLsbD j = decide (j < 2) :=
    getLsbD_eq_of_bits (fun j => decide (j < 2)) (by decide)
      (fun j hj => decide_eq_false (by omega))
  have htable := fun j => BitVec.getLsbD_of_ge table j
  unfold linkEntry
  simp only [BitVec.getLsbD_setWidth, BitVec.getLsbD_or, hflags]
  grind

theorem getLsbD_pageEntry (i : BitVec 9) (k : Nat) :
    (pageEntry i).getLsbD k =
      ((decide (21 ≤ k) && i.getLsbD (k - 21)) || decide (k = 0 ∨ k = 1 ∨ k = 7)) := by
  have hflags : ∀ j, (0b10000011#32).getLsbD j = decide (j = 0 ∨ j = 1 ∨ j = 7) :=
    getLsbD_eq_of_bits (fun j => decide (j = 0 ∨ j = 1 ∨ j = 7)) (by decide)
      (fun j hj => decide_eq_false (by omega))
  have hmul : 0x200000#32 * i.setWidth 32 = i.setWidth 32 <<< 21 := by
    rw [BitVec.shiftLeft_eq_mul_twoPow, BitVec.mul_comm]
    rfl
  have hi := fun j => BitVec.getLsbD_of_ge i j
  unfold pageEntry
  rw [hmul]
  simp only [BitVec.getLsbD_setWidth, BitVec.getLsbD_or, BitVec.getLsbD_shiftLeft, hflags]
  grind

theorem link_linkEntry {table : BitVec 32} (h : table.extractLsb' 0 12 = 0) :
    Pte.Link (linkEntry table) := by
  unfold Pte.Link Pte.present Pte.huge
  rw [getLsbD_linkEntry, getLsbD_linkEntry, aligned_getLsbD h (by decide),
    aligned_getLsbD h (by decide)]
  exact ⟨by decide, by decide⟩

theorem writable_linkEntry (table : BitVec 32) : Pte.writable (linkEntry table) = true := by
  unfold Pte.writable
  rw [getLsbD_linkEntry]
  simp

theorem frame_linkEntry (table : BitVec 32) : Pte.frame (linkEntry table) = tableFrame table := by
  have htable := fun j => BitVec.getLsbD_of_ge table j
  apply BitVec.eq_of_getLsbD_eq
  intro k hk
  unfold Pte.frame tableFrame
  simp only [BitVec.getLsbD_extractLsb', getLsbD_linkEntry, BitVec.getLsbD_setWidth]
  grind

theorem pageEntry_flags (i : BitVec 9) : Pte.present (pageEntry i) = true ∧
    Pte.writable (pageEntry i) = true ∧ Pte.huge (pageEntry i) = true := by
  unfold Pte.present Pte.writable Pte.huge
  rw [getLsbD_pageEntry, getLsbD_pageEntry, getLsbD_pageEntry]
  simp

/-- The 4 KiB frame `j` of the 2 MiB page `i`. -/
theorem getLsbD_largeFrame_pageEntry (i j : BitVec 9) (k : Nat) :
    (largeFrame (pageEntry i) [j]).getLsbD k =
      if k < 9 then j.getLsbD k else i.getLsbD (k - 9) := by
  have hi := fun l => BitVec.getLsbD_of_ge i l
  have hj := fun l => BitVec.getLsbD_of_ge j l
  unfold largeFrame Pte.frame
  simp only [List.length_singleton, Nat.mul_one, List.foldl_cons, List.foldl_nil,
    BitVec.getLsbD_or, BitVec.getLsbD_shiftLeft, BitVec.getLsbD_ushiftRight,
    BitVec.getLsbD_extractLsb', getLsbD_pageEntry, BitVec.getLsbD_setWidth,
    BitVec.ofNat_eq_ofNat, BitVec.getLsbD_zero]
  grind

/-! ## The tables after the code -/

/-- The tables are in the `.bss` section. -/
structure ZeroFilled (t : BootTables) (mem : PhysMem) : Prop where
  zero4 : ∀ i, mem ⟨tableFrame t.p4, i⟩ = 0
  zero3 : ∀ i, mem ⟨tableFrame t.p3, i⟩ = 0
  zero2 : ∀ i, mem ⟨tableFrame t.p2, i⟩ = 0

theorem BootTables.frames_distinct (t : BootTables) : tableFrame t.p4 ≠ tableFrame t.p3 ∧
    tableFrame t.p4 ≠ tableFrame t.p2 ∧ tableFrame t.p3 ≠ tableFrame t.p2 :=
  ⟨fun h => t.distinct43 (tableFrame_injective t.aligned4 t.aligned3 h),
    fun h => t.distinct42 (tableFrame_injective t.aligned4 t.aligned2 h),
    fun h => t.distinct32 (tableFrame_injective t.aligned3 t.aligned2 h)⟩

/-- The memory with the first `n` entries of the table in `frame` filled in. -/
def withPages (mem : PhysMem) (frame : FrameNo) (n : Nat) : PhysMem := fun s =>
  if s.frame = frame ∧ s.index.toNat < n then pageEntry s.index else mem s

/-- The memory with the links of the upper two tables. -/
def withLinks (t : BootTables) (mem : PhysMem) : PhysMem :=
  Function.update (Function.update (Function.update mem
    ⟨tableFrame t.p4, 511⟩ (linkEntry t.p4)) ⟨tableFrame t.p4, 0⟩ (linkEntry t.p3))
    ⟨tableFrame t.p3, 0⟩ (linkEntry t.p2)

theorem withPages_succ (mem : PhysMem) (frame : FrameNo) {n : Nat} (hn : n < 512) :
    withPages mem frame (n + 1) =
      Function.update (withPages mem frame n) ⟨frame, BitVec.ofNat 9 n⟩
        (pageEntry (BitVec.ofNat 9 n)) := by
  have hnat : (BitVec.ofNat 9 n).toNat = n := by
    rw [BitVec.toNat_ofNat]
    omega
  funext s
  obtain ⟨f, i⟩ := s
  unfold withPages
  by_cases hslot : (⟨f, i⟩ : Slot) = ⟨frame, BitVec.ofNat 9 n⟩
  · cases hslot
    rw [Function.update_self]
    exact if_pos ⟨rfl, show (BitVec.ofNat 9 n).toNat < n + 1 by omega⟩
  · have hindex : f = frame → i.toNat ≠ n := by
      intro hf hi
      refine hslot ?_
      rw [hf, ← hi, BitVec.ofNat_toNat, BitVec.setWidth_eq]
    rw [Function.update_of_ne hslot]
    dsimp only
    by_cases hf : f = frame
    · have hne := hindex hf
      by_cases hlt : i.toNat < n
      · rw [if_pos ⟨hf, by omega⟩, if_pos ⟨hf, hlt⟩]
      · rw [if_neg (fun h => by omega), if_neg (fun h => hlt h.2)]
    · rw [if_neg (fun h => hf h.1), if_neg (fun h => hf h.1)]

theorem index_widen {n : Nat} (hn : n < 512) :
    BitVec.ofNat 32 n = (BitVec.ofNat 9 n).setWidth 32 := by
  apply BitVec.eq_of_toNat_eq
  rw [BitVec.toNat_setWidth, BitVec.toNat_ofNat, BitVec.toNat_ofNat]
  omega

/-- The lower half of the product is all of it that counts. -/
theorem mapP2TableBody_mem (t : BootTables) (s : BootMachine) :
    (mapP2TableBody t s).mem = BootMachine.storeDword s.mem (t.p2 + s.ecx * 8#32)
      (0x200000#32 * s.ecx ||| 0b10000011#32) := by
  have hecx : (s.ecx.setWidth 64).setWidth 32 = s.ecx := by
    rw [BitVec.setWidth_setWidth_of_le _ (by decide), BitVec.setWidth_eq]
  have hproduct : ((0x200000#32).setWidth 64 * s.ecx.setWidth 64).setWidth 32 =
      0x200000#32 * s.ecx := by
    rw [BitVec.setWidth_mul _ _ (by decide), hecx]
    rfl
  rw [← hproduct]
  rfl

/-- One turn of the loop fills in one entry. -/
theorem mapP2TableBody_fills {t : BootTables} {mem : PhysMem}
    (hzero : ∀ i, mem ⟨tableFrame t.p2, i⟩ = 0) {s : BootMachine} {n : Nat} (hn : n < 512)
    (hecx : s.ecx = BitVec.ofNat 32 n) (hmem : s.mem = withPages mem (tableFrame t.p2) n) :
    (mapP2TableBody t s).ecx = BitVec.ofNat 32 (n + 1) ∧
      (mapP2TableBody t s).mem = withPages mem (tableFrame t.p2) (n + 1) := by
  have hempty : s.mem ⟨tableFrame t.p2, BitVec.ofNat 9 n⟩ = 0 := by
    rw [hmem]
    unfold withPages
    rw [if_neg, hzero]
    dsimp only
    rw [BitVec.toNat_ofNat]
    omega
  constructor
  · show s.ecx + 1 = _
    rw [hecx]
    exact (BitVec.ofNat_add n 1).symm
  · rw [mapP2TableBody_mem, hecx, index_widen hn, storeDword_entry t.aligned2 _ _ _ hempty,
      withPages_succ _ _ hn, hmem]
    rfl

theorem mapP2Table_yields {t : BootTables} {mem : PhysMem}
    (hzero : ∀ i, mem ⟨tableFrame t.p2, i⟩ = 0) (d n : Nat) (hd : n + d + 1 = 512)
    {s : BootMachine} (hecx : s.ecx = BitVec.ofNat 32 n)
    (hmem : s.mem = withPages mem (tableFrame t.p2) n) :
    ∃ s', Yields (mapP2TableStep t) s s' ∧ s'.mem = withPages mem (tableFrame t.p2) 512 := by
  induction d generalizing n s with
  | zero =>
    obtain rfl : n = 511 := by omega
    obtain ⟨hnext, hmem'⟩ := mapP2TableBody_fills hzero (by omega) hecx hmem
    refine ⟨mapP2TableBody t s, Yields.exit ?_, hmem'⟩
    exact if_neg fun hne => hne hnext
  | succ d ih =>
    obtain ⟨hnext, hmem'⟩ := mapP2TableBody_fills hzero (by omega) hecx hmem
    obtain ⟨s', hyields, hfinal⟩ := ih (n + 1) (by omega) hnext hmem'
    refine ⟨s', Yields.again ?_ hyields, hfinal⟩
    refine if_pos fun hend => ?_
    rw [hnext] at hend
    have hnat := congrArg BitVec.toNat hend
    rw [BitVec.toNat_ofNat] at hnat
    change (n + 1) % 2 ^ 32 = 512 at hnat
    omega

theorem slot_ne_of_frame {f g : FrameNo} {i j : BitVec 9} (h : f ≠ g) :
    (⟨f, i⟩ : Slot) ≠ ⟨g, j⟩ := fun heq => h (congrArg Slot.frame heq)

theorem slot_ne_of_index {f g : FrameNo} {i j : BitVec 9} (h : i ≠ j) :
    (⟨f, i⟩ : Slot) ≠ ⟨g, j⟩ := fun heq => h (congrArg Slot.index heq)

/-- The three stores before the loop. -/
theorem storeDword_links (t : BootTables) {mem : PhysMem} (hzero : ZeroFilled t mem) :
    BootMachine.storeDword (BootMachine.storeDword (BootMachine.storeDword mem
      (t.p4 + 511#32 * 8#32) (t.p4 ||| 0b11#32)) (t.p4 + 0#32) (t.p3 ||| 0b11#32))
      (t.p3 + 0#32) (t.p2 ||| 0b11#32) = withLinks t mem := by
  obtain ⟨h43, -, -⟩ := t.frames_distinct
  have hfirst : 0#32 = (0#9).setWidth 32 * 8#32 := by decide
  have hlast : 511#32 = (511#9).setWidth 32 := by decide
  rw [hfirst, hlast, storeDword_entry t.aligned4 _ _ _ (hzero.zero4 _),
    storeDword_entry t.aligned4, storeDword_entry t.aligned3]
  · rfl
  · rw [Function.update_of_ne (slot_ne_of_frame (Ne.symm h43)),
      Function.update_of_ne (slot_ne_of_frame (Ne.symm h43)), hzero.zero3]
  · rw [Function.update_of_ne (slot_ne_of_index (by decide)), hzero.zero4]

theorem withLinks_other (t : BootTables) (mem : PhysMem) {f : FrameNo} (i : BitVec 9)
    (h4 : f ≠ tableFrame t.p4) (h3 : f ≠ tableFrame t.p3) :
    withLinks t mem ⟨f, i⟩ = mem ⟨f, i⟩ := by
  unfold withLinks
  rw [Function.update_of_ne (slot_ne_of_frame h3), Function.update_of_ne (slot_ne_of_frame h4),
    Function.update_of_ne (slot_ne_of_frame h4)]

theorem setUpPageTables_returns (t : BootTables) {s : BootMachine} (hzero : ZeroFilled t s.mem) :
    ∃ s', Returns (fun n => setUpPageTables t n s) s' ∧
      s'.mem = withPages (withLinks t s.mem) (tableFrame t.p2) 512 := by
  obtain ⟨-, h42, h32⟩ := t.frames_distinct
  have hempty : ∀ i, withLinks t s.mem ⟨tableFrame t.p2, i⟩ = 0 := by
    intro i
    rw [withLinks_other t s.mem i (Ne.symm h42) (Ne.symm h32), hzero.zero2]
  have hstart : withLinks t s.mem = withPages (withLinks t s.mem) (tableFrame t.p2) 0 := by
    funext slot
    unfold withPages
    rw [if_neg (fun h => Nat.not_lt_zero _ h.2)]
  have hrun : ∀ n, setUpPageTables t n s = loop (mapP2TableStep t) n
      { s with eax := t.p2 ||| 0b11#32, ecx := 0, mem := withLinks t s.mem } := by
    intro n
    rw [← storeDword_links t hzero]
    unfold setUpPageTables BootMachine.storeEax BootMachine.orEax BootMachine.movEax
    dsimp only
  obtain ⟨s', hyields, hmem⟩ := mapP2Table_yields hempty 511 0 rfl
    (s := { s with eax := t.p2 ||| 0b11#32, ecx := 0, mem := withLinks t s.mem }) rfl hstart
  refine ⟨s', ?_, hmem⟩
  simp only [hrun]
  exact hyields.returns

/-- The content of the three tables. -/
structure BootMapped (t : BootTables) (mem : PhysMem) : Prop where
  first4 : mem ⟨tableFrame t.p4, 0⟩ = linkEntry t.p3
  last4 : mem ⟨tableFrame t.p4, 511⟩ = linkEntry t.p4
  rest4 : ∀ i, i ≠ 0 → i ≠ 511 → mem ⟨tableFrame t.p4, i⟩ = 0
  first3 : mem ⟨tableFrame t.p3, 0⟩ = linkEntry t.p2
  rest3 : ∀ i, i ≠ 0 → mem ⟨tableFrame t.p3, i⟩ = 0
  pages2 : ∀ i, mem ⟨tableFrame t.p2, i⟩ = pageEntry i

theorem withPages_other (mem : PhysMem) {f frame : FrameNo} (i : BitVec 9) (n : Nat)
    (h : f ≠ frame) : withPages mem frame n ⟨f, i⟩ = mem ⟨f, i⟩ := if_neg fun hs => h hs.1

theorem bootMapped {t : BootTables} {mem : PhysMem} (hzero : ZeroFilled t mem) :
    BootMapped t (withPages (withLinks t mem) (tableFrame t.p2) 512) := by
  obtain ⟨h43, h42, h32⟩ := t.frames_distinct
  constructor
  · rw [withPages_other _ _ _ h42]
    unfold withLinks
    rw [Function.update_of_ne (slot_ne_of_frame h43), Function.update_self]
  · rw [withPages_other _ _ _ h42]
    unfold withLinks
    rw [Function.update_of_ne (slot_ne_of_frame h43),
      Function.update_of_ne (slot_ne_of_index (by decide)), Function.update_self]
  · intro i hfirst hlast
    rw [withPages_other _ _ _ h42]
    unfold withLinks
    rw [Function.update_of_ne (slot_ne_of_frame h43),
      Function.update_of_ne (slot_ne_of_index hfirst),
      Function.update_of_ne (slot_ne_of_index hlast), hzero.zero4]
  · rw [withPages_other _ _ _ h32]
    unfold withLinks
    rw [Function.update_self]
  · intro i hfirst
    rw [withPages_other _ _ _ h32]
    unfold withLinks
    rw [Function.update_of_ne (slot_ne_of_index hfirst),
      Function.update_of_ne (slot_ne_of_frame (Ne.symm h43)),
      Function.update_of_ne (slot_ne_of_frame (Ne.symm h43)), hzero.zero3]
  · intro i
    exact if_pos ⟨rfl, i.isLt⟩

/-! ## The walks -/

section Walks

variable {t : BootTables} {mem : PhysMem}

theorem BootMapped.recursive (h : BootMapped t mem) : Recursive mem (tableFrame t.p4) where
  link := by
    rw [h.last4]
    exact link_linkEntry t.aligned4
  self := by
    rw [h.last4]
    exact frame_linkEntry t.p4

theorem getLsbD_of_low {v : BitVec 64} (hv : v.toNat < 2 ^ 30) {k : Nat} (hk : 30 ≤ k) :
    v.getLsbD k = false := by
  unfold BitVec.getLsbD
  exact Nat.testBit_lt_two_pow (Nat.lt_of_lt_of_le hv (Nat.pow_le_pow_right (by decide) hk))

theorem vaIndex_of_low {v : BitVec 64} (hv : v.toNat < 2 ^ 30) {level : Nat} (hlevel : 3 ≤ level) :
    vaIndex level v = 0 := by
  apply BitVec.eq_of_getLsbD_eq
  intro k hk
  unfold vaIndex
  rw [BitVec.getLsbD_extractLsb', getLsbD_of_low hv (by omega)]
  simp

/-- The part of the tables that maps the first GiB. -/
structure LowMapped (t : BootTables) (mem : PhysMem) : Prop where
  first4 : mem ⟨tableFrame t.p4, 0⟩ = linkEntry t.p3
  first3 : mem ⟨tableFrame t.p3, 0⟩ = linkEntry t.p2
  pages2 : ∀ i, mem ⟨tableFrame t.p2, i⟩ = pageEntry i

theorem BootMapped.low (h : BootMapped t mem) : LowMapped t mem := ⟨h.first4, h.first3, h.pages2⟩

theorem LowMapped.update (h : LowMapped t mem) {x : Slot} (h4 : x.frame ≠ tableFrame t.p4)
    (h3 : x.frame ≠ tableFrame t.p3) (h2 : x.frame ≠ tableFrame t.p2) (v : BitVec 64) :
    LowMapped t (Function.update mem x v) := by
  have hkeep : ∀ y : Slot, x.frame ≠ y.frame → Function.update mem x v y = mem y := by
    intro y hne
    have hyx : y ≠ x := by
      rintro rfl
      exact hne rfl
    exact Function.update_of_ne hyx v mem
  exact ⟨(hkeep _ h4).trans h.first4, (hkeep _ h3).trans h.first3,
    fun i => (hkeep _ h2).trans (h.pages2 i)⟩

/-- Below 1 GiB: two links and a 2 MiB page. -/
theorem LowMapped.walk_low (h : LowMapped t mem) (i j : BitVec 9) :
    walk mem [0, 0, i, j] (tableFrame t.p4) = some (largeFrame (pageEntry i) [j]) ∧
      walkWritable mem [0, 0, i, j] (tableFrame t.p4) = true := by
  obtain ⟨hpresent, hwritable, hhuge⟩ := pageEntry_flags i
  have hlink4 : Pte.Link (mem ⟨tableFrame t.p4, 0⟩) := by
    rw [h.first4]
    exact link_linkEntry t.aligned3
  have hlink3 : Pte.Link (mem ⟨tableFrame t.p3, 0⟩) := by
    rw [h.first3]
    exact link_linkEntry t.aligned2
  constructor
  · rw [walk_link hlink4, h.first4, frame_linkEntry, walk_link hlink3, h.first3, frame_linkEntry,
      walk, h.pages2]
    simp [hpresent, hhuge]
  · rw [walkWritable_link hlink4 (by rw [h.first4]; exact writable_linkEntry _), h.first4,
      frame_linkEntry, walkWritable_link hlink3 (by rw [h.first3]; exact writable_linkEntry _),
      h.first3, frame_linkEntry, walkWritable, h.pages2]
    simp [hwritable, hhuge]

theorem LowMapped.translates_low (h : LowMapped t mem) {v : BitVec 64} (hv : v.toNat < 2 ^ 30) :
    hwTranslate mem (tableFrame t.p4) v = some (v.setWidth 52) ∧
      hwWritable mem (tableFrame t.p4) v = true := by
  obtain ⟨hwalk, hwritable⟩ := h.walk_low (vaIndex 2 v) (vaIndex 1 v)
  have hhigh := fun k hk => getLsbD_of_low (k := k) hv hk
  have hindices : vaIndices v = [0, 0, vaIndex 2 v, vaIndex 1 v] := by
    unfold vaIndices
    rw [vaIndex_of_low hv (by decide), vaIndex_of_low hv (by decide)]
  have hcanonical : Canonical v := by
    apply BitVec.eq_of_getLsbD_eq
    intro k hk
    simp only [BitVec.getLsbD_signExtend, BitVec.getLsbD_setWidth, BitVec.msb_eq_getLsbD_last]
    grind
  rw [← hindices] at hwalk
  constructor
  · refine hwTranslate_eq_some.mpr ⟨hcanonical, _, hwalk, ?_⟩
    apply BitVec.eq_of_getLsbD_eq
    intro k hk
    unfold vaOffset vaIndex
    simp only [BitVec.getLsbD_append, getLsbD_largeFrame_pageEntry, BitVec.getLsbD_extractLsb',
      BitVec.getLsbD_setWidth]
    grind
  · unfold hwWritable
    rw [hindices]
    exact hwritable

theorem p4Table_add (o : BitVec 12) : p4Table + o.setWidth 64 = virtAddr 511 511 511 511 o := by
  have ho := fun k => BitVec.getLsbD_of_ge o k
  have htable : ∀ k, p4Table.getLsbD k = decide (12 ≤ k ∧ k < 64) :=
    getLsbD_eq_of_bits (fun k => decide (12 ≤ k ∧ k < 64)) (by decide)
      (fun k hk => decide_eq_false (by omega))
  have hdisjoint : p4Table &&& o.setWidth 64 = 0#64 := by
    apply BitVec.eq_of_getLsbD_eq
    intro k hk
    simp only [BitVec.getLsbD_and, BitVec.getLsbD_setWidth, BitVec.getLsbD_zero, htable]
    grind
  rw [BitVec.add_eq_or_of_and_eq_zero _ _ hdisjoint]
  apply BitVec.eq_of_getLsbD_eq
  intro k hk
  simp only [BitVec.getLsbD_or, BitVec.getLsbD_setWidth, htable, getLsbD_virtAddr, getLsbD_511]
  grind

theorem tableFrame_append {table : BitVec 32} (h : table.extractLsb' 0 12 = 0) (o : BitVec 12) :
    tableFrame table ++ o = table.setWidth 52 + o.setWidth 52 := by
  have ho := fun k => BitVec.getLsbD_of_ge o k
  have hlow := fun k hk => aligned_getLsbD (k := k) h hk
  have hdisjoint : table.setWidth 52 &&& o.setWidth 52 = 0#52 := by
    apply BitVec.eq_of_getLsbD_eq
    intro k hk
    simp only [BitVec.getLsbD_and, BitVec.getLsbD_setWidth, BitVec.getLsbD_zero]
    grind
  rw [BitVec.add_eq_or_of_and_eq_zero _ _ hdisjoint]
  apply BitVec.eq_of_getLsbD_eq
  intro k hk
  unfold tableFrame
  simp only [BitVec.getLsbD_or, BitVec.getLsbD_append, BitVec.getLsbD_extractLsb',
    BitVec.getLsbD_setWidth]
  grind

/-- Through the last entry, four times. -/
theorem BootMapped.translates_p4 (h : BootMapped t mem) (o : BitVec 12) :
    hwTranslate mem (tableFrame t.p4) (p4Table + o.setWidth 64) =
      some (t.p4.setWidth 52 + o.setWidth 52) := by
  rw [p4Table_add, hwTranslate_virtAddr, walk_recursive h.recursive, walk_recursive h.recursive,
    walk_recursive h.recursive, walk_last, if_pos h.recursive.link.1, h.recursive.self,
    Option.map_some, tableFrame_append t.aligned4]

/-- A canonical address whose upper two indices are 0 lies below 1 GiB. -/
theorem toNat_lt_of_indices {v : BitVec 64} (hv : Canonical v) (h4 : vaIndex 4 v = 0)
    (h3 : vaIndex 3 v = 0) : v.toNat < 2 ^ 30 := by
  refine Nat.lt_pow_two_of_testBit _ fun k hk => ?_
  show v.getLsbD k = false
  rw [← virtAddr_of_canonical hv, h4, h3, getLsbD_virtAddr]
  simp only [BitVec.ofNat_eq_ofNat, BitVec.getLsbD_zero]
  grind

theorem BootMapped.absent (h : BootMapped t mem) {v : BitVec 64} (hv : Canonical v)
    (hindex : (vaIndex 4 v ≠ 0 ∧ vaIndex 4 v ≠ 511) ∨ (vaIndex 4 v = 0 ∧ 2 ^ 30 ≤ v.toNat)) :
    hwAbsent mem (tableFrame t.p4) v = true := by
  unfold hwAbsent vaIndices
  rcases hindex with ⟨hfirst, hlast⟩ | ⟨hfirst, hhigh⟩
  · refine walkAbsent_here ?_
    rw [h.rest4 _ hfirst hlast]
    rfl
  · have hlink : Pte.Link (mem ⟨tableFrame t.p4, 0⟩) := by
      rw [h.first4]
      exact link_linkEntry t.aligned3
    have hne : vaIndex 3 v ≠ 0 := by
      intro hzero
      have hlow := toNat_lt_of_indices hv hfirst hzero
      omega
    rw [hfirst, walkAbsent_link hlink, h.first4, frame_linkEntry]
    refine walkAbsent_here ?_
    rw [h.rest3 _ hne]
    rfl

end Walks

/-- The tables that `set_up_page_tables` leaves, on every canonical address outside the last
    512 GiB, and on the page at `P4_TABLE`. -/
theorem setUpPageTables_translates (t : BootTables) (s : BootMachine)
    (hzero : ZeroFilled t s.mem) :
    ∃ s', Returns (fun n => setUpPageTables t n s) s' ∧
      (∀ v : BitVec 64, v.toNat < 2 ^ 30 →
        hwTranslate s'.mem (tableFrame t.p4) v = some (v.setWidth 52) ∧
          hwWritable s'.mem (tableFrame t.p4) v = true) ∧
      (∀ o : BitVec 12, hwTranslate s'.mem (tableFrame t.p4) (p4Table + o.setWidth 64) =
        some (t.p4.setWidth 52 + o.setWidth 52)) ∧
      (∀ v : BitVec 64, Canonical v →
        (vaIndex 4 v ≠ 0 ∧ vaIndex 4 v ≠ 511) ∨ (vaIndex 4 v = 0 ∧ 2 ^ 30 ≤ v.toNat) →
          hwAbsent s'.mem (tableFrame t.p4) v = true ∧
            hwTranslate s'.mem (tableFrame t.p4) v = none) := by
  obtain ⟨s', hreturns, hmem⟩ := setUpPageTables_returns t hzero
  have hmapped := bootMapped hzero
  rw [← hmem] at hmapped
  refine ⟨s', hreturns, fun v hv => hmapped.low.translates_low hv, hmapped.translates_p4,
    fun v hv hindex => ?_⟩
  have habsent := hmapped.absent hv hindex
  refine ⟨habsent, ?_⟩
  unfold hwTranslate
  rw [if_pos hv, walk_absent habsent]
  rfl

/-- Tables from 1 MiB on. -/
def lowTables : BootTables where
  p4 := 0x100000
  p3 := 0x101000
  p2 := 0x102000
  aligned4 := by decide
  aligned3 := by decide
  aligned2 := by decide
  distinct43 := by decide
  distinct42 := by decide
  distinct32 := by decide

theorem setUpPageTables_translates_lowTables :
    ∃ s', Returns (fun n => setUpPageTables lowTables n ⟨0, 0, 0, fun _ => 0⟩) s' ∧
      hwTranslate s'.mem (tableFrame lowTables.p4) 0xb8000 = some 0xb8000 ∧
      hwTranslate s'.mem (tableFrame lowTables.p4) 0xfffffffffffff008 = some 0x100008 ∧
      hwTranslate s'.mem (tableFrame lowTables.p4) 0x40000000 = none := by
  obtain ⟨s', hreturns, hlow, hp4, habsent⟩ := setUpPageTables_translates lowTables
    ⟨0, 0, 0, fun _ => 0⟩ ⟨fun _ => rfl, fun _ => rfl, fun _ => rfl⟩
  refine ⟨s', hreturns, (hlow 0xb8000 (by decide)).1, hp4 8, ?_⟩
  exact (habsent 0x40000000 (by decide) (Or.inr (by decide))).2

end Utero.Mmu
