/-
  Looking pages up and mapping them where no table has to be made.

  The hardware path of a page is the three upper indices of its address (`tablePath`) and the
  index in the last table (`lastIndex`). The code takes its indices from the page number cut
  to 32 bits, so for page `p` it walks the path of `narrow p`. `translate_page` reads the
  last entry of a linked path (`translatePage_eq`), and on such a path
  `map_page_to_frame` comes down to writes at one virtual address (`writeEntry`): the frame,
  then the flags over the whole word, then the present bit.

  These writes go through if the entries that the address is translated by allow writing
  (`WritablePath`), and they go where they should as long as the entry written is not one of
  these entries (`Apart`).
-/
import Utero.Lib.PageUpdate
import Utero.Mmu.RecursiveMapping

namespace Utero.Mmu

open Utero.Lib

/-! ## The indices of a page -/

/-- The indices of a page in the top three tables. -/
def tablePath (page : BitVec 64) : List (BitVec 9) :=
  let va := pageStartingAddress page
  [vaIndex 4 va, vaIndex 3 va, vaIndex 2 va]

def lastIndex (page : BitVec 64) : BitVec 9 := vaIndex 1 (pageStartingAddress page)

/-- A page number after its passage through a `frame_t` parameter. -/
def narrow (page : BitVec 64) : BitVec 64 := (page.setWidth 32).setWidth 64

theorem narrow_eq {page : BitVec 64} (h : page.toNat < 2 ^ 32) : narrow page = page := by
  apply BitVec.eq_of_toNat_eq
  rw [narrow, BitVec.toNat_setWidth, BitVec.toNat_setWidth, Nat.mod_eq_of_lt h]
  exact Nat.mod_eq_of_lt (by omega)

theorem pageStartingAddress_eq (page : BitVec 64) : pageStartingAddress page = page <<< 12 := by
  rw [pageStartingAddress, BitVec.shiftLeft_eq_mul_twoPow]
  rfl

theorem pageContainingAddress_eq (addr : BitVec 64) : pageContainingAddress addr = addr >>> 12 := by
  apply BitVec.eq_of_toNat_eq
  rw [pageContainingAddress, BitVec.toNat_udiv, BitVec.toNat_ushiftRight, Nat.shiftRight_eq_div_pow]
  rfl

theorem getLsbD_octal777 (k : Nat) : (0o777#32).getLsbD k = decide (k < 9) :=
  getLsbD_eq_of_bits (fun j => decide (j < 9)) (by decide)
    (fun j hj => decide_eq_false (by omega)) k

/-- The index functions of the source, one statement for the four levels. -/
theorem shifted_index (page : BitVec 64) (level shift : Nat) (h : shift + 9 = 9 * level) :
    (((page.setWidth 32) >>> shift) &&& 0o777#32).setWidth 64 =
      (vaIndex level (pageStartingAddress (narrow page))).setWidth 64 := by
  rw [pageStartingAddress_eq]
  apply BitVec.eq_of_getLsbD_eq
  intro k hk
  simp only [vaIndex, narrow, BitVec.getLsbD_setWidth, BitVec.getLsbD_and,
    BitVec.getLsbD_ushiftRight, BitVec.getLsbD_extractLsb', BitVec.getLsbD_shiftLeft,
    getLsbD_octal777]
  grind

theorem p4Index_narrow (page : BitVec 64) :
    p4Index (page.setWidth 32) = (vaIndex 4 (pageStartingAddress (narrow page))).setWidth 64 := by
  rw [p4Index, shifted_index page 4 27 rfl]

theorem p3Index_narrow (page : BitVec 64) :
    p3Index (page.setWidth 32) = (vaIndex 3 (pageStartingAddress (narrow page))).setWidth 64 := by
  rw [p3Index, shifted_index page 3 18 rfl]

theorem p2Index_narrow (page : BitVec 64) :
    p2Index (page.setWidth 32) = (vaIndex 2 (pageStartingAddress (narrow page))).setWidth 64 := by
  rw [p2Index, shifted_index page 2 9 rfl]

theorem p1Index_narrow (page : BitVec 64) :
    p1Index (page.setWidth 32) = (lastIndex (narrow page)).setWidth 64 := by
  rw [p1Index, shifted_index page 1 0 rfl, lastIndex]

theorem index_widen_narrow (i : BitVec 9) : (i.setWidth 64).setWidth 32 = i.setWidth 32 := by
  apply BitVec.eq_of_getLsbD_eq
  intro k hk
  simp only [BitVec.getLsbD_setWidth]
  grind

/-! ## Entries -/

theorem getLsbD_addrMask (k : Nat) :
    (0x000ffffffffff000#64).getLsbD k = decide (12 ≤ k ∧ k < 52) :=
  getLsbD_eq_of_bits (fun j => decide (12 ≤ j ∧ j < 52)) (by decide)
    (fun j hj => decide_eq_false (by omega)) k

theorem pointedFrame_present {e : BitVec 64} (h : Pte.present e = true) :
    pointedFrame e = (Pte.frame e).setWidth 32 := by
  rw [pointedFrame, if_pos h, frameContainingAddress, ← pageContainingAddress,
    pageContainingAddress_eq]
  apply BitVec.eq_of_getLsbD_eq
  intro k hk
  simp only [Pte.frame, BitVec.getLsbD_setWidth, BitVec.getLsbD_ushiftRight, BitVec.getLsbD_and,
    BitVec.getLsbD_extractLsb', getLsbD_addrMask]
  grind

/-- The entry `map_page_to_frame` leaves behind. -/
def mappedEntry (flags : BitVec 8) : BitVec 64 := setPresent (flags.setWidth 64)

theorem present_mappedEntry (flags : BitVec 8) : Pte.present (mappedEntry flags) = true := by
  simp [Pte.present, mappedEntry, setPresent]

/-- The flags have no room for an address. -/
theorem frame_mappedEntry (flags : BitVec 8) : Pte.frame (mappedEntry flags) = 0 := by
  apply BitVec.eq_of_getLsbD_eq
  intro k hk
  have hflags := BitVec.getLsbD_of_ge flags (12 + k) (by omega)
  simp only [Pte.frame, mappedEntry, setPresent, BitVec.getLsbD_extractLsb', BitVec.getLsbD_or,
    BitVec.getLsbD_setWidth, hflags, BitVec.getLsbD_one]
  grind

theorem flags_mappedEntry (flags : BitVec 8) : (mappedEntry flags).setWidth 8 = flags ||| 1 := by
  rw [mappedEntry, setPresent, BitVec.setWidth_or, BitVec.setWidth_setWidth_of_le _ (by omega),
    BitVec.setWidth_eq]
  rfl

theorem pointedFrame_mappedEntry (flags : BitVec 8) : pointedFrame (mappedEntry flags) = 0 := by
  rw [pointedFrame_present (present_mappedEntry flags), frame_mappedEntry]
  rfl

/-! ## Looking up -/

/-- `translate_page` on the indices of a page. -/
def lookup (s : Machine) (i4 i3 i2 i1 : BitVec 9) : Option Frame := do
  let p3 ← nextTableAddress s p4Table (i4.setWidth 32)
  if p3 = 0 then return 0
  let p2 ← nextTableAddress s p3 (i3.setWidth 32)
  if p2 = 0 then return 0
  let p1 ← nextTableAddress s p2 (i2.setWidth 32)
  if p1 = 0 then return 0
  let entry ← s.load (entryAddr p1 (i1.setWidth 64))
  return pointedFrame entry

theorem translatePage_eq_lookup (s : Machine) (page : BitVec 64) :
    translatePage s page =
      lookup s (vaIndex 4 (pageStartingAddress (narrow page)))
        (vaIndex 3 (pageStartingAddress (narrow page)))
        (vaIndex 2 (pageStartingAddress (narrow page))) (lastIndex (narrow page)) := by
  simp only [translatePage, p4Index_narrow, p3Index_narrow, p2Index_narrow, p1Index_narrow,
    index_widen_narrow]
  rfl

/-- The early returns of `translate_page` are the zero addresses of the descent. -/
theorem lookup_eq_walkTables (s : Machine) (i4 i3 i2 i1 : BitVec 9) :
    lookup s i4 i3 i2 i1 = (walkTables s i4 i3 i2).bind fun t =>
      if t.2.2 = 0 then some 0
      else (s.load (entryAddr t.2.2 (i1.setWidth 64))).map pointedFrame := by
  have htop : p4Table ≠ 0 := by decide
  simp only [lookup, walkTables, nextTable, if_neg htop, Option.bind_eq_bind, Option.pure_def]
  cases nextTableAddress s p4Table (i4.setWidth 32) with
  | none => rfl
  | some t3 =>
    simp only [Option.bind_some]
    by_cases h3 : t3 = 0
    · simp [h3]
    · simp only [if_neg h3]
      cases nextTableAddress s t3 (i3.setWidth 32) with
      | none => rfl
      | some t2 =>
        simp only [Option.bind_some]
        by_cases h2 : t2 = 0
        · simp [h2]
        · simp only [if_neg h2]
          cases nextTableAddress s t2 (i2.setWidth 32) with
          | none => rfl
          | some t1 =>
            simp only [Option.bind_some]
            by_cases h1 : t1 = 0
            · simp [h1]
            · simp only [if_neg h1]
              cases s.load (entryAddr t1 (i1.setWidth 64)) <;> rfl

/-- `translate_page` finds the last entry of the path, or gives 0 where the path breaks off. -/
theorem lookup_eq {s : Machine} (hr : Recursive s.mem s.cr3) (i4 i3 i2 i1 : BitVec 9) :
    lookup s i4 i3 i2 i1 =
      some (if Linked s.mem s.cr3 [i4, i3, i2] then
        pointedFrame (s.mem ⟨reach s.mem s.cr3 [i4, i3, i2], i1⟩) else 0) := by
  have hlen : [i4, i3, i2].length ≤ 3 := by simp
  rw [lookup_eq_walkTables, walkTables_eq hr]
  simp only [Option.bind_some]
  by_cases hl : Linked s.mem s.cr3 [i4, i3, i2]
  · rw [if_neg ((tableAt_ne_zero s hlen).mpr hl), if_pos hl, tableAt, if_pos hl,
      load_recTable hr hl hlen]
    rfl
  · rw [tableAt, if_neg hl, if_pos rfl, if_neg hl]

theorem translatePage_eq {s : Machine} (hr : Recursive s.mem s.cr3) (page : BitVec 64) :
    translatePage s page =
      some (if Linked s.mem s.cr3 (tablePath (narrow page)) then
        pointedFrame (s.mem ⟨reach s.mem s.cr3 (tablePath (narrow page)),
          lastIndex (narrow page)⟩) else 0) := by
  rw [translatePage_eq_lookup, lookup_eq hr]
  rfl

/-! ## Mapping -/

/-- `next_table_create` where there is a table already. -/
theorem nextTableCreate_link {s : Machine} (hr : Recursive s.mem s.cr3) (is : List (BitVec 9))
    (i : BitVec 9) (hl : Linked s.mem s.cr3 (is ++ [i])) (hlen : is.length ≤ 2) (fuel : Nat) :
    nextTableCreate fuel s (recTable is) (i.setWidth 64) = some (recTable (is ++ [i]), s) := by
  obtain ⟨his, hlink⟩ := (linked_snoc _ _ _ _).mp hl
  have hload := load_recTable hr his (by omega) i
  have hnext := nextTableAddress_recTable hr his hlen i
  rw [if_pos hlink] at hnext
  simp [nextTableCreate, hload, hlink.1, hnext]

theorem store_some {s s' : Machine} {va v : BitVec 64} (h : s.store va v = some s') :
    ∃ p, hwWrite s.mem s.cr3 va = some p ∧
      s' = { s with mem := Function.update s.mem (slotOf p) v } := by
  obtain ⟨p, hp, rfl⟩ := Option.map_eq_some_iff.mp h
  exact ⟨p, hp, rfl⟩

theorem modify_some {s s' : Machine} {va : BitVec 64} {f : BitVec 64 → BitVec 64}
    (h : s.modify va f = some s') :
    ∃ p, hwWrite s.mem s.cr3 va = some p ∧
      s' = { s with mem := Function.update s.mem (slotOf p) (f (s.mem (slotOf p))) } := by
  obtain ⟨e, hload, hstore⟩ := Option.bind_eq_some_iff.mp h
  obtain ⟨p, hp, rfl⟩ := Option.map_eq_some_iff.mp hload
  obtain ⟨p', hp', rfl⟩ := store_some hstore
  have hsame := (hwWrite_eq_some.mp hp').1
  rw [hp] at hsame
  obtain rfl := Option.some.inj hsame
  exact ⟨p, hp', rfl⟩

/-- The last three lines of `map_page_to_frame`, on the address of the entry. -/
def writeEntry (s : Machine) (va : BitVec 64) (frame : Frame) (flags : BitVec 8) :
    Option Machine := do
  let s ← s.setAddrMask va (frame.setWidth 64)
  let s ← s.store va (flags.setWidth 64)
  s.modify va setPresent

/-- The address at which the code accesses the entry of a page. -/
def entryOf (page : BitVec 64) : BitVec 64 :=
  entryAddr (recTable (tablePath page)) ((lastIndex page).setWidth 64)

/-- The calls of `next_table_create` in `map_page_to_frame`, one for each index. -/
def createPath (fuel : Nat) : Machine → BitVec 64 → List (BitVec 9) → Option (BitVec 64 × Machine)
  | s, table, [] => some (table, s)
  | s, table, i :: is => do
    let (next, s) ← nextTableCreate fuel s table (i.setWidth 64)
    createPath fuel s next is

theorem mapPageToFrame_eq (fuel : Nat) (s : Machine) (page : BitVec 64) (frame : Frame)
    (flags : BitVec 8) :
    mapPageToFrame fuel s page frame flags =
      (createPath fuel s p4Table (tablePath (narrow page))).bind fun r =>
        writeEntry r.2 (entryAddr r.1 ((lastIndex (narrow page)).setWidth 64)) frame flags := by
  simp only [mapPageToFrame, p4Index_narrow, p3Index_narrow, p2Index_narrow, p1Index_narrow,
    createPath, tablePath, Option.bind_eq_bind, Option.bind_assoc, Option.bind_some]
  rfl

theorem createPath_append (fuel : Nat) (s : Machine) (table : BitVec 64)
    (is js : List (BitVec 9)) :
    createPath fuel s table (is ++ js) =
      (createPath fuel s table is).bind fun r => createPath fuel r.2 r.1 js := by
  induction is generalizing s table with
  | nil => rfl
  | cons i is ih =>
    simp only [List.cons_append, createPath, Option.bind_eq_bind, Option.bind_assoc, ih]

/-- A path of at most three indices, with one more to come. -/
theorem length_of_more {is js : List (BitVec 9)} {j : BitVec 9}
    (h : (is ++ j :: js).length ≤ 3) : is.length ≤ 2 := by
  simp only [List.length_append, List.length_cons] at h
  omega

theorem createPath_linked {s : Machine} (hr : Recursive s.mem s.cr3) (fuel : Nat)
    {is js : List (BitVec 9)} (hlen : (is ++ js).length ≤ 3) (hl : Linked s.mem s.cr3 (is ++ js)) :
    createPath fuel s (recTable is) js = some (recTable (is ++ js), s) := by
  induction js generalizing is with
  | nil => rw [createPath, List.append_nil]
  | cons j js ih =>
    have hislen := length_of_more hlen
    rw [List.append_cons] at hl hlen ⊢
    rw [createPath, nextTableCreate_link hr is j (linked_append hl) hislen]
    exact ih hlen hl

theorem mapPageToFrame_linked {s : Machine} (hr : Recursive s.mem s.cr3) {page : BitVec 64}
    (hl : Linked s.mem s.cr3 (tablePath (narrow page))) (fuel : Nat) (frame : Frame)
    (flags : BitVec 8) :
    mapPageToFrame fuel s page frame flags = writeEntry s (entryOf (narrow page)) frame flags := by
  rw [mapPageToFrame_eq, p4Table_eq, createPath_linked hr fuel (by simp [tablePath]) hl]
  rfl

/-- The slot of a page in its last table. -/
def pageSlot (s : Machine) (page : BitVec 64) : Slot :=
  ⟨reach s.mem s.cr3 (tablePath page), lastIndex page⟩

/-- The slot of the page is none of those by which the processor gets to it. -/
def Apart (s : Machine) (page : BitVec 64) : Prop :=
  pageSlot s page ∉ visited s.mem s.cr3 (511 :: tablePath page)

instance (s : Machine) (page : BitVec 64) : Decidable (Apart s page) :=
  inferInstanceAs (Decidable (¬ _))

theorem hwTranslate_entryOf (mem : PhysMem) (cr3 : FrameNo) (page : BitVec 64) :
    hwTranslate mem cr3 (entryOf page) =
      (walk mem (511 :: tablePath page) cr3).map (· ++ (lastIndex page ++ 0#3)) := by
  rw [entryOf, entryAddr, tablePath, recTable, virtAddr_add_index, hwTranslate_virtAddr]

theorem hwTranslate_entryOf_linked {s : Machine} (hr : Recursive s.mem s.cr3) {page : BitVec 64}
    (hl : Linked s.mem s.cr3 (tablePath page)) :
    hwTranslate s.mem s.cr3 (entryOf page) = some (pageSlot s page).addr :=
  hwTranslate_recTable hr (by simp [tablePath]) hl _

/-- Writing the entry of a page leaves the way to it alone. -/
theorem hwTranslate_entryOf_update {s : Machine} {page : BitVec 64} (ha : Apart s page)
    (v : BitVec 64) :
    hwTranslate (Function.update s.mem (pageSlot s page) v) s.cr3 (entryOf page) =
      hwTranslate s.mem s.cr3 (entryOf page) := by
  rw [hwTranslate_entryOf, hwTranslate_entryOf, (agreesAlong_update ha v).walk_eq]

/-- The entries by which the processor gets to the entry of a page allow writing it. -/
def WritablePath (s : Machine) (page : BitVec 64) : Prop :=
  writablePath s.mem s.cr3 (tablePath page) = true

instance (s : Machine) (page : BitVec 64) : Decidable (WritablePath s page) :=
  inferInstanceAs (Decidable (_ = _))

theorem hwWrite_entryOf_linked {s : Machine} (hr : Recursive s.mem s.cr3) {page : BitVec 64}
    (hl : Linked s.mem s.cr3 (tablePath page)) (hw : WritablePath s page) :
    hwWrite s.mem s.cr3 (entryOf page) = some (pageSlot s page).addr := by
  rw [entryOf, hwWrite_recTable hr (by simp [tablePath]) hl]
  exact if_pos hw

theorem hwWrite_entryOf_update {s : Machine} {page : BitVec 64} (ha : Apart s page)
    (v : BitVec 64) :
    hwWrite (Function.update s.mem (pageSlot s page) v) s.cr3 (entryOf page) =
      hwWrite s.mem s.cr3 (entryOf page) := by
  rw [hwWrite_eq_writableOnly, hwWrite_eq_writableOnly, hwTranslate_entryOf, hwTranslate_entryOf,
    (agreesAlong_update ha v).writableOnly.walk_eq]

/-- The machine with the entry of a page overwritten by the flags. -/
def mapped (s : Machine) (page : BitVec 64) (flags : BitVec 8) : Machine :=
  { s with mem := Function.update s.mem (pageSlot s page) (mappedEntry flags) }

theorem writeEntry_apart {s : Machine} (hr : Recursive s.mem s.cr3) {page : BitVec 64}
    (hl : Linked s.mem s.cr3 (tablePath page)) (ha : Apart s page) (hw : WritablePath s page)
    (frame : Frame) (flags : BitVec 8) :
    writeEntry s (entryOf page) frame flags = some (mapped s page flags) := by
  have hgo := hwTranslate_entryOf_linked hr hl
  have hwrite := hwWrite_entryOf_linked hr hl hw
  simp [writeEntry, Machine.setAddrMask, Machine.modify, Machine.load, Machine.store,
    hwTranslate_entryOf_update ha, hwWrite_entryOf_update ha, hgo, hwrite, slotOf_addr, mapped,
    mappedEntry]

/-- The first write already needs the entries on the way to allow it. -/
theorem writablePath_of_writeEntry {s s' : Machine} (hr : Recursive s.mem s.cr3)
    {page : BitVec 64} {frame : Frame} {flags : BitVec 8}
    (h : writeEntry s (entryOf page) frame flags = some s') : WritablePath s page := by
  obtain ⟨s1, hfirst, -⟩ := Option.bind_eq_some_iff.mp h
  obtain ⟨s2, hclear, -⟩ := Option.bind_eq_some_iff.mp hfirst
  obtain ⟨p, hp, -⟩ := modify_some hclear
  have hwritable := (hwWrite_eq_some.mp hp).2
  rw [entryOf, hwWritable_recTable hr (by simp [tablePath])] at hwritable
  exact hwritable

/-- The tables on the way to the page are as before. -/
theorem mapped_path {s : Machine} (hr : Recursive s.mem s.cr3) {page : BitVec 64}
    (hl : Linked s.mem s.cr3 (tablePath page)) (ha : Apart s page) (flags : BitVec 8) :
    Recursive (mapped s page flags).mem (mapped s page flags).cr3 ∧
      Linked (mapped s page flags).mem (mapped s page flags).cr3 (tablePath page) ∧
      pageSlot (mapped s page flags) page = pageSlot s page := by
  have hagree := agreesAlong_update ha (mappedEntry flags)
  have htop : (mapped s page flags).mem ⟨s.cr3, 511⟩ = s.mem ⟨s.cr3, 511⟩ := hagree.head
  have htail := hagree.tail hr.link
  rw [hr.self] at htail
  obtain ⟨hlinked, hreach⟩ := htail.linked hl
  refine ⟨⟨?_, ?_⟩, hlinked, ?_⟩
  · exact htop ▸ hr.link
  · exact htop ▸ hr.self
  · exact congrArg (fun t => Slot.mk t (lastIndex page)) hreach

theorem mapped_entry {s : Machine} (hr : Recursive s.mem s.cr3) {page : BitVec 64}
    (hl : Linked s.mem s.cr3 (tablePath page)) (ha : Apart s page) (flags : BitVec 8) :
    (mapped s page flags).mem (pageSlot (mapped s page flags) page) = mappedEntry flags := by
  rw [(mapped_path hr hl ha flags).2.2]
  exact Function.update_self _ _ _

/-! ## A mapping read back -/

/-- `map_page_to_frame` comes back, `translate_page` then gives the frame, and the flags of the
    entry are those asked for with the present bit. -/
def MapsTo (s : Machine) (page : BitVec 64) (frame : Frame) (flags : BitVec 8) : Prop :=
  ∃ s', Returns (fun n => mapPageToFrame n s page frame flags) s' ∧
    translatePage s' page = some frame ∧
    (s'.mem (pageSlot s' page)).setWidth 8 = flags ||| 1

theorem translatePage_mapped {s : Machine} (hr : Recursive s.mem s.cr3) (page : BitVec 64)
    (hl : Linked s.mem s.cr3 (tablePath (narrow page))) (ha : Apart s (narrow page))
    (flags : BitVec 8) : translatePage (mapped s (narrow page) flags) page = some 0 := by
  obtain ⟨hr', hl', -⟩ := mapped_path hr hl ha flags
  have hentry := mapped_entry hr hl ha flags
  rw [translatePage_eq hr', if_pos hl']
  exact congrArg some ((congrArg pointedFrame hentry).trans (pointedFrame_mappedEntry flags))

theorem mapsTo_writable {s : Machine} (hr : Recursive s.mem s.cr3) {page : BitVec 64}
    (hl : Linked s.mem s.cr3 (tablePath (narrow page))) {frame : Frame} {flags : BitVec 8}
    (h : MapsTo s page frame flags) : WritablePath s (narrow page) := by
  obtain ⟨s', ⟨n, hn⟩, -⟩ := h
  have hwrite : mapPageToFrame n s page frame flags = some s' := hn n (Nat.le_refl n)
  rw [mapPageToFrame_linked hr hl] at hwrite
  exact writablePath_of_writeEntry hr hwrite

theorem mapsTo_apart {s : Machine} (hr : Recursive s.mem s.cr3) {page : BitVec 64}
    (hpage : page.toNat < 2 ^ 32) (hl : Linked s.mem s.cr3 (tablePath page)) (ha : Apart s page)
    (hw : WritablePath s page) (frame : Frame) (flags : BitVec 8) :
    MapsTo s page frame flags ↔ frame = 0 := by
  have hrun : Returns (fun n => mapPageToFrame n s page frame flags) (mapped s page flags) := by
    refine ⟨0, fun n _ => ?_⟩
    have hmap := mapPageToFrame_linked hr ((narrow_eq hpage).symm ▸ hl) n frame flags
    rw [narrow_eq hpage, writeEntry_apart hr hl ha hw] at hmap
    exact hmap
  have hzero := translatePage_mapped hr page ((narrow_eq hpage).symm ▸ hl)
    ((narrow_eq hpage).symm ▸ ha) flags
  rw [narrow_eq hpage] at hzero
  constructor
  · rintro ⟨s', hs', htrans, -⟩
    rw [hs'.unique hrun, hzero] at htrans
    exact (Option.some.inj htrans).symm
  · rintro rfl
    refine ⟨_, hrun, hzero, ?_⟩
    rw [mapped_entry hr hl ha, flags_mappedEntry]

/-- What `next_table_address` returns, on any memory. -/
theorem nextTableAddress_some {s : Machine} {is : List (BitVec 9)} (hlen : is.length ≤ 2)
    {i : BitVec 9} {t : BitVec 64} (h : nextTableAddress s (recTable is) (i.setWidth 32) = some t) :
    t = 0 ∨ t = recTable (is ++ [i]) := by
  rw [nextTableAddress] at h
  obtain ⟨e, -, h⟩ := Option.bind_eq_some_iff.mp h
  split at h
  · right
    rw [recTable_snoc hlen] at h
    exact (Option.some.inj h).symm
  · exact Or.inl (Option.some.inj h).symm

theorem walkTables_some {s : Machine} {i4 i3 i2 : BitVec 9} {t3 t2 t1 : BitVec 64}
    (h : walkTables s i4 i3 i2 = some (t3, t2, t1)) (h1 : t1 ≠ 0) :
    t1 = recTable [i4, i3, i2] := by
  have hstep (is : List (BitVec 9)) {i : BitVec 9} {t t' : BitVec 64} (hlen : is.length ≤ 2)
      (hn : nextTable s t i = some t') (ht' : t' ≠ 0) (ht : t ≠ 0 → t = recTable is) :
      t ≠ 0 ∧ t' = recTable (is ++ [i]) := by
    have hne : t ≠ 0 := by
      intro ht0
      rw [nextTable, if_pos ht0] at hn
      exact ht' (Option.some.inj hn).symm
    rw [nextTable, if_neg hne, ht hne] at hn
    exact ⟨hne, (nextTableAddress_some hlen hn).resolve_left ht'⟩
  obtain ⟨u3, h3, h⟩ := Option.bind_eq_some_iff.mp h
  obtain ⟨u2, h2, h⟩ := Option.bind_eq_some_iff.mp h
  obtain ⟨u1, hu1, h⟩ := Option.bind_eq_some_iff.mp h
  obtain ⟨rfl, rfl, rfl⟩ : u3 = t3 ∧ u2 = t2 ∧ u1 = t1 := by simpa using h
  have ht3 : u3 ≠ 0 → u3 = recTable [i4] := fun hne =>
    (hstep [] (by simp) h3 hne fun _ => p4Table_eq).2
  have ht2 : u2 ≠ 0 → u2 = recTable [i4, i3] := fun hne => (hstep [i4] (by simp) h2 hne ht3).2
  exact (hstep [i4, i3] (by simp) hu1 h1 ht2).2

/-- A frame other than 0 is read at the address of the entry, on any memory. -/
theorem lookup_some {s : Machine} {i4 i3 i2 i1 : BitVec 9} {f : Frame}
    (h : lookup s i4 i3 i2 i1 = some f) :
    f = 0 ∨ ∃ e, s.load (entryAddr (recTable [i4, i3, i2]) (i1.setWidth 64)) = some e ∧
      f = pointedFrame e := by
  rw [lookup_eq_walkTables] at h
  obtain ⟨⟨t3, t2, t1⟩, hwalk, h⟩ := Option.bind_eq_some_iff.mp h
  by_cases h1 : t1 = 0
  · rw [if_pos h1] at h
    exact Or.inl (Option.some.inj h).symm
  · rw [if_neg h1] at h
    right
    have ht1 := walkTables_some hwalk h1
    obtain ⟨e, he, hf⟩ := Option.map_eq_some_iff.mp h
    exact ⟨e, ht1 ▸ he, hf.symm⟩

/-- Flags without the present bit: between the second and the third write the entry is absent,
    so the third write finds the entry only if it is not on its own path. -/
theorem writeEntry_absent {s s' : Machine} {va : BitVec 64} {frame : Frame} {flags : BitVec 8}
    (hflags : flags.getLsbD 0 = false) (h : writeEntry s va frame flags = some s') :
    s'.load va = some (mappedEntry flags) := by
  obtain ⟨s1, -, h⟩ := Option.bind_eq_some_iff.mp h
  obtain ⟨s2, hstore, h⟩ := Option.bind_eq_some_iff.mp h
  obtain ⟨p, hwp, rfl⟩ := store_some hstore
  obtain ⟨p', hwp', rfl⟩ := modify_some h
  have hp := (hwWrite_eq_some.mp hwp).1
  have hp' := (hwWrite_eq_some.mp hwp').1
  have habsent : Pte.present (flags.setWidth 64) = false := by
    simpa [Pte.present] using hflags
  obtain rfl := hwTranslate_update_absent habsent hp hp'
  have hentry : Function.update s1.mem (slotOf p') (flags.setWidth 64) (slotOf p') =
      flags.setWidth 64 := Function.update_self _ _ _
  have hgo := hwTranslate_update_of_absent (hentry.symm ▸ habsent)
    (setPresent (flags.setWidth 64)) hp'
  simp only [Machine.load, hentry, hgo, Option.map_some, Function.update_self, mappedEntry]

theorem mapsTo_absent {s : Machine} (hr : Recursive s.mem s.cr3) {page : BitVec 64}
    (hl : Linked s.mem s.cr3 (tablePath (narrow page))) {frame : Frame} {flags : BitVec 8}
    (hflags : flags.getLsbD 0 = false) (h : MapsTo s page frame flags) : frame = 0 := by
  obtain ⟨s', ⟨n, hn⟩, htrans, -⟩ := h
  have hwrite : mapPageToFrame n s page frame flags = some s' := hn n (Nat.le_refl n)
  rw [mapPageToFrame_linked hr hl] at hwrite
  have hload := writeEntry_absent hflags hwrite
  rw [translatePage_eq_lookup] at htrans
  rcases lookup_some htrans with hzero | ⟨e, he, hf⟩
  · exact hzero
  · have hentry : e = mappedEntry flags := Option.some.inj (he.symm.trans hload)
    rw [hf, hentry, pointedFrame_mappedEntry]

/-- A mapping is read back exactly if the entries on the way allow writing and its frame is 0,
    since the flags overwrite the address of the entry. Where the slot of the page lies on its
    own path the writes redirect the later ones; still no frame other than 0 is read back there
    for flags without the present bit. -/
theorem mapPageToFrame_translatePage_iff (s : Machine) (hr : Recursive s.mem s.cr3)
    (page : BitVec 64) (hpage : page.toNat < 2 ^ 32)
    (hl : Linked s.mem s.cr3 (tablePath page)) (frame : Frame) (flags : BitVec 8) :
    (Apart s page → (MapsTo s page frame flags ↔ frame = 0 ∧ WritablePath s page)) ∧
      (MapsTo s page frame flags → WritablePath s page) ∧
      (flags.getLsbD 0 = false → MapsTo s page frame flags → frame = 0) := by
  have hl' : Linked s.mem s.cr3 (tablePath (narrow page)) := (narrow_eq hpage).symm ▸ hl
  have hwritable : MapsTo s page frame flags → WritablePath s page := by
    intro h
    have hw := mapsTo_writable hr hl' h
    rwa [narrow_eq hpage] at hw
  refine ⟨fun ha => ?_, hwritable, fun hflags h => mapsTo_absent hr hl' hflags h⟩
  constructor
  · intro h
    have hw := hwritable h
    exact ⟨(mapsTo_apart hr hpage hl ha hw frame flags).mp h, hw⟩
  · rintro ⟨hframe, hw⟩
    exact (mapsTo_apart hr hpage hl ha hw frame flags).mpr hframe

theorem mapPageToFrame_translatePage_iff_sampleMachine :
    Recursive sampleMachine.mem sampleMachine.cr3 ∧
    Linked sampleMachine.mem sampleMachine.cr3 (tablePath 0) ∧ Apart sampleMachine 0 ∧
    MapsTo sampleMachine 0 0 3 :=
  have hl : Linked sampleMachine.mem sampleMachine.cr3 (tablePath 0) := by decide
  have ha : Apart sampleMachine 0 := by decide
  ⟨sampleMachine_recursive, hl, ha,
    ((mapPageToFrame_translatePage_iff sampleMachine sampleMachine_recursive 0 (by decide) hl 0
      3).1 ha).mpr ⟨rfl, by decide⟩⟩

/-- Page 0 mapped to frame 7, writable: it reads back as frame 0. -/
theorem mapPageToFrame_loses_frame :
    Recursive sampleMachine.mem sampleMachine.cr3 ∧
    Linked sampleMachine.mem sampleMachine.cr3 (tablePath 0) ∧
    translatePage (mapped sampleMachine 0 3) 0 = some 0 ∧ ¬ MapsTo sampleMachine 0 7 3 := by
  have hl : Linked sampleMachine.mem sampleMachine.cr3 (tablePath 0) := by decide
  have ha : Apart sampleMachine 0 := by decide
  refine ⟨sampleMachine_recursive, hl, translatePage_mapped sampleMachine_recursive 0 hl ha 3, ?_⟩
  intro h
  have hiff := mapsTo_apart sampleMachine_recursive (by decide) hl ha (by decide) 7 3
  exact absurd (hiff.mp h) (by decide)

/-! ## Addresses -/

theorem canonical_of_lt {va : BitVec 64} (h : va.toNat < 2 ^ 47) : Canonical va := by
  have hmsb : (va.setWidth 48).msb = false := by
    rw [BitVec.msb_eq_false_iff_two_mul_lt, BitVec.toNat_setWidth]
    omega
  rw [Canonical, BitVec.signExtend_eq_setWidth_of_msb_false hmsb]
  apply BitVec.eq_of_toNat_eq
  rw [BitVec.toNat_setWidth, BitVec.toNat_setWidth]
  omega

theorem vaIndex_page (addr : BitVec 64) {level : Nat} (h : 1 ≤ level) :
    vaIndex level (pageStartingAddress (pageContainingAddress addr)) = vaIndex level addr := by
  rw [pageStartingAddress_eq, pageContainingAddress_eq]
  apply BitVec.eq_of_getLsbD_eq
  intro k hk
  have haddr := fun j => BitVec.getLsbD_of_ge addr j
  simp only [vaIndex, BitVec.getLsbD_extractLsb', BitVec.getLsbD_shiftLeft,
    BitVec.getLsbD_ushiftRight]
  grind

theorem pageContainingAddress_lt {addr : BitVec 64} (h : addr.toNat < 2 ^ 44) :
    (pageContainingAddress addr).toNat < 2 ^ 32 := by
  rw [pageContainingAddress, BitVec.toNat_udiv, pageSize_toNat]
  omega

/-- The address of the page of `addr` in the frame of entry `e`, with the offset the code adds. -/
theorem translate_linked {s : Machine} (hr : Recursive s.mem s.cr3) {addr : BitVec 64}
    (haddr : addr.toNat < 2 ^ 44)
    (hl : Linked s.mem s.cr3 [vaIndex 4 addr, vaIndex 3 addr, vaIndex 2 addr]) :
    translate s addr =
      some (pageStartingAddress ((pointedFrame (s.mem
        ⟨reach s.mem s.cr3 [vaIndex 4 addr, vaIndex 3 addr, vaIndex 2 addr],
          vaIndex 1 addr⟩)).setWidth 64) + pageContainingAddress addr % pageSize) := by
  have hnarrow := narrow_eq (pageContainingAddress_lt haddr)
  have hpath : tablePath (narrow (pageContainingAddress addr)) =
      [vaIndex 4 addr, vaIndex 3 addr, vaIndex 2 addr] := by
    rw [hnarrow, tablePath, vaIndex_page _ (by decide), vaIndex_page _ (by decide),
      vaIndex_page _ (by decide)]
  have hlast : lastIndex (narrow (pageContainingAddress addr)) = vaIndex 1 addr := by
    rw [hnarrow, lastIndex, vaIndex_page _ (by decide)]
  simp only [translate, translatePage_eq hr, hpath, hlast, if_pos hl, Option.bind_eq_bind,
    Option.bind_some, Option.pure_def]

theorem hwTranslate_present {mem : PhysMem} {cr3 : FrameNo} {va : BitVec 64} (hc : Canonical va)
    (hl : Linked mem cr3 [vaIndex 4 va, vaIndex 3 va, vaIndex 2 va])
    (hp : Pte.present (mem ⟨reach mem cr3 [vaIndex 4 va, vaIndex 3 va, vaIndex 2 va],
      vaIndex 1 va⟩) = true) :
    hwTranslate mem cr3 va =
      some (Pte.frame (mem ⟨reach mem cr3 [vaIndex 4 va, vaIndex 3 va, vaIndex 2 va],
        vaIndex 1 va⟩) ++ vaOffset va) := by
  have hwalk := walk_append hl [vaIndex 1 va]
  rw [walk_last, if_pos hp] at hwalk
  rw [hwTranslate, if_pos hc]
  exact congrArg _ hwalk

theorem frameBase_add {f : FrameNo} (hf : f.toNat < 2 ^ 32) (off : BitVec 64)
    (hoff : off.toNat < 4096) :
    (pageStartingAddress ((f.setWidth 32).setWidth 64) + off).toNat =
      f.toNat * 4096 + off.toNat := by
  simp only [pageStartingAddress, BitVec.toNat_add, BitVec.toNat_mul, BitVec.toNat_setWidth,
    pageSize_toNat]
  omega

theorem frame_append_toNat {f : FrameNo} (off : BitVec 12) :
    ((f ++ off : BitVec 52).setWidth 64).toNat = f.toNat * 4096 + off.toNat := by
  have hoff := off.isLt
  have hf := f.isLt
  rw [BitVec.toNat_setWidth, BitVec.toNat_append, ← Nat.shiftLeft_add_eq_or_of_lt hoff,
    Nat.shiftLeft_eq]
  omega

/-- `translate` agrees with the processor exactly if the low bits of the page number, which it
    takes for the offset, are those of the address. -/
theorem translate_eq_hwTranslate_iff (s : Machine) (hr : Recursive s.mem s.cr3)
    (addr : BitVec 64) (haddr : addr.toNat < 2 ^ 44)
    (hl : Linked s.mem s.cr3 [vaIndex 4 addr, vaIndex 3 addr, vaIndex 2 addr])
    (hp : Pte.present (s.mem
      ⟨reach s.mem s.cr3 [vaIndex 4 addr, vaIndex 3 addr, vaIndex 2 addr], vaIndex 1 addr⟩) = true)
    (hf : (Pte.frame (s.mem
      ⟨reach s.mem s.cr3 [vaIndex 4 addr, vaIndex 3 addr, vaIndex 2 addr],
        vaIndex 1 addr⟩)).toNat < 2 ^ 32) :
    translate s addr = (hwTranslate s.mem s.cr3 addr).map (·.setWidth 64) ↔
      addr.toNat / 4096 % 4096 = addr.toNat % 4096 := by
  have hcode : (pageContainingAddress addr % pageSize).toNat = addr.toNat / 4096 % 4096 := by
    rw [pageContainingAddress, BitVec.toNat_umod, BitVec.toNat_udiv, pageSize_toNat]
  have hoff : (vaOffset addr).toNat = addr.toNat % 4096 := by
    rw [vaOffset, BitVec.extractLsb'_toNat, Nat.shiftRight_zero]
  have hcodeAddr := frameBase_add hf (pageContainingAddress addr % pageSize) (by omega)
  rw [translate_linked hr haddr hl, pointedFrame_present hp,
    hwTranslate_present (canonical_of_lt (by omega)) hl hp, Option.map_some, Option.some.injEq,
    ← BitVec.toNat_inj, hcodeAddr, frame_append_toNat, hcode, hoff]
  omega

theorem translate_eq_hwTranslate_iff_sampleMachine :
    translate sampleMachine 0 =
      (hwTranslate sampleMachine.mem sampleMachine.cr3 0).map (·.setWidth 64) :=
  (translate_eq_hwTranslate_iff sampleMachine sampleMachine_recursive 0 (by decide) (by decide)
    (by decide) (by decide)).mpr (by decide)

/-- Address 1, in page 0, comes back without its offset. -/
theorem translate_drops_offset :
    Recursive sampleMachine.mem sampleMachine.cr3 ∧
    Linked sampleMachine.mem sampleMachine.cr3 [vaIndex 4 1, vaIndex 3 1, vaIndex 2 1] ∧
    translate sampleMachine 1 = some 0x5000 ∧
    (hwTranslate sampleMachine.mem sampleMachine.cr3 1).map (·.setWidth 64) = some 0x5001#64 :=
  ⟨sampleMachine_recursive, by decide, by decide, by decide⟩

end Utero.Mmu
