/-
  The recursive mapping: a table seen through the last entry of the top table.

  `recTable is` is the virtual address of the table that the indices `is` lead to (none, one,
  two or three of them): the indices, preceded by 511 as often as it takes to make four.
  `next_table_address` turns `recTable is` and `i` into `recTable (is ++ [i])`
  (`recTable_snoc`), and through a `Recursive` top table and a linked path the processor
  translates word `i` of `recTable is` to slot `i` of the table itself
  (`hwTranslate_recTable`). From these two: `nextTableAddress_recTable`, and, for the whole
  descent of `translate_page`, `walkTables_refines`.
-/
import Mathlib.Tactic.Tauto
import Utero.Mmu.Paging

namespace Utero.Mmu

open Utero.Lib

/-! ## Addresses of tables -/

def recTable : List (BitVec 9) → BitVec 64
  | [] => virtAddr 511 511 511 511 0
  | [a] => virtAddr 511 511 511 a 0
  | [a, b] => virtAddr 511 511 a b 0
  | [a, b, c] => virtAddr 511 a b c 0
  | _ => 0

theorem p4Table_eq : p4Table = recTable [] := by decide

theorem shift_index_narrow (i : BitVec 9) :
    ((i.setWidth 32) <<< 12).setWidth 64 = i.setWidth 64 <<< 12 := by
  apply BitVec.eq_of_getLsbD_eq
  intro k hk
  have hi := fun j => BitVec.getLsbD_of_ge i j
  simp only [BitVec.getLsbD_shiftLeft, BitVec.getLsbD_setWidth]
  grind

/-- The address `next_table_address` computes. -/
theorem recTable_snoc {is : List (BitVec 9)} (h : is.length ≤ 2) (i : BitVec 9) :
    (recTable is <<< 9) ||| ((i.setWidth 32) <<< 12).setWidth 64 = recTable (is ++ [i]) := by
  rw [shift_index_narrow]
  match is with
  | [] => exact virtAddr_shift 511 511 i
  | [a] => exact virtAddr_shift 511 a i
  | [a, b] => exact virtAddr_shift a b i
  | _ :: _ :: _ :: _ =>
    simp only [List.length_cons] at h
    omega

theorem recTable_ne_zero {is : List (BitVec 9)} (h : is.length ≤ 3) : recTable is ≠ 0 := by
  -- bit 47 is the top bit of the leading 511
  have htop : ∀ b c d : BitVec 9, virtAddr 511 b c d 0 ≠ 0 := by
    intro b c d heq
    have hbit : (virtAddr 511 b c d 0).getLsbD 47 = (0 : BitVec 64).getLsbD 47 := by rw [heq]
    rw [getLsbD_virtAddr] at hbit
    exact absurd hbit (show ¬ (true = false) by decide)
  match is with
  | [] => exact htop _ _ _
  | [a] => exact htop _ _ _
  | [a, b] => exact htop _ _ _
  | [a, b, c] => exact htop _ _ _
  | _ :: _ :: _ :: _ :: _ =>
    simp only [List.length_cons] at h
    omega

/-! ## Access through the mapping -/

/-- The recursive address of a path is walked as the path itself. -/
theorem recTable_walk {mem : PhysMem} {cr3 : FrameNo} (hr : Recursive mem cr3)
    {is : List (BitVec 9)} (hlen : is.length ≤ 3) :
    ∃ a b c d, recTable is = virtAddr a b c d 0 ∧
      walk mem [a, b, c, d] cr3 = walk mem is cr3 := by
  match is with
  | [] => exact ⟨_, _, _, _, rfl, by simp only [walk_recursive hr]⟩
  | [a] => exact ⟨_, _, _, _, rfl, by simp only [walk_recursive hr]⟩
  | [a, b] => exact ⟨_, _, _, _, rfl, by simp only [walk_recursive hr]⟩
  | [a, b, c] => exact ⟨_, _, _, _, rfl, by simp only [walk_recursive hr]⟩
  | _ :: _ :: _ :: _ :: _ =>
    simp only [List.length_cons] at hlen
    omega

/-- The entries by which the processor gets to the table of a path, the recursive one first, allow
    writing. -/
def writablePath (mem : PhysMem) (cr3 : FrameNo) (is : List (BitVec 9)) : Bool :=
  Pte.writable (mem ⟨cr3, 511⟩) && walkWritable mem is cr3

theorem hwWritable_recTable {mem : PhysMem} {cr3 : FrameNo} (hr : Recursive mem cr3)
    {is : List (BitVec 9)} (hlen : is.length ≤ 3) (i : BitVec 9) :
    hwWritable mem cr3 (entryAddr (recTable is) (i.setWidth 64)) = writablePath mem cr3 is := by
  match is with
  | [] =>
    rw [entryAddr, recTable, virtAddr_add_index, hwWritable, vaIndices_virtAddr]
    simp only [walkWritable_recursive hr, writablePath, ← Bool.and_assoc, Bool.and_self]
  | [a] =>
    rw [entryAddr, recTable, virtAddr_add_index, hwWritable, vaIndices_virtAddr]
    simp only [walkWritable_recursive hr, writablePath, ← Bool.and_assoc, Bool.and_self]
  | [a, b] =>
    rw [entryAddr, recTable, virtAddr_add_index, hwWritable, vaIndices_virtAddr]
    simp only [walkWritable_recursive hr, writablePath, ← Bool.and_assoc, Bool.and_self]
  | [a, b, c] =>
    rw [entryAddr, recTable, virtAddr_add_index, hwWritable, vaIndices_virtAddr]
    exact walkWritable_recursive hr [a, b, c]
  | _ :: _ :: _ :: _ :: _ =>
    simp only [List.length_cons] at hlen
    omega

/-- The processor finds slot `i` of a table at word `i` of its recursive address. -/
theorem hwTranslate_recTable {mem : PhysMem} {cr3 : FrameNo} (hr : Recursive mem cr3)
    {is : List (BitVec 9)} (hlen : is.length ≤ 3) (hl : Linked mem cr3 is) (i : BitVec 9) :
    hwTranslate mem cr3 (entryAddr (recTable is) (i.setWidth 64)) =
      some (Slot.addr ⟨reach mem cr3 is, i⟩) := by
  have hwalk : walk mem is cr3 = some (reach mem cr3 is) := by
    have := walk_append hl []
    rwa [List.append_nil] at this
  obtain ⟨a, b, c, d, htable, hindices⟩ := recTable_walk hr hlen
  rw [entryAddr, htable, virtAddr_add_index, hwTranslate_virtAddr, hindices, hwalk]
  rfl

/-- A write goes there too, if the entries on the way allow it. -/
theorem hwWrite_recTable {mem : PhysMem} {cr3 : FrameNo} (hr : Recursive mem cr3)
    {is : List (BitVec 9)} (hlen : is.length ≤ 3) (hl : Linked mem cr3 is) (i : BitVec 9) :
    hwWrite mem cr3 (entryAddr (recTable is) (i.setWidth 64)) =
      if writablePath mem cr3 is = true then some (Slot.addr ⟨reach mem cr3 is, i⟩) else none := by
  rw [hwWrite, hwWritable_recTable hr hlen, hwTranslate_recTable hr hlen hl]

theorem setWidth_index (i : BitVec 9) : (i.setWidth 32).setWidth 64 = i.setWidth 64 := by
  apply BitVec.eq_of_getLsbD_eq
  intro k hk
  have hi := fun j => BitVec.getLsbD_of_ge i j
  simp only [BitVec.getLsbD_setWidth]
  grind

section Access

variable {s : Machine} (hr : Recursive s.mem s.cr3) {is : List (BitVec 9)}
  (hl : Linked s.mem s.cr3 is)

include hr hl

theorem load_recTable (hlen : is.length ≤ 3) (i : BitVec 9) :
    s.load (entryAddr (recTable is) (i.setWidth 64)) = some (s.mem ⟨reach s.mem s.cr3 is, i⟩) := by
  rw [Machine.load, hwTranslate_recTable hr hlen hl, Option.map_some, slotOf_addr]

/-- `next_table_address` on a table reached through linked entries. -/
theorem nextTableAddress_recTable (hlen : is.length ≤ 2) (i : BitVec 9) :
    nextTableAddress s (recTable is) (i.setWidth 32) =
      some (if Pte.Link (s.mem ⟨reach s.mem s.cr3 is, i⟩) then recTable (is ++ [i]) else 0) := by
  rw [nextTableAddress, setWidth_index, load_recTable hr hl (by omega), recTable_snoc hlen]
  by_cases hlink : Pte.Link (s.mem ⟨reach s.mem s.cr3 is, i⟩)
  · rw [if_pos hlink]
    exact if_pos hlink
  · rw [if_neg hlink]
    exact if_neg hlink

end Access

/-! ## The whole descent -/

/-- The address of the table at the end of a linked path, 0 where the path breaks off. -/
def tableAt (s : Machine) (is : List (BitVec 9)) : BitVec 64 :=
  if Linked s.mem s.cr3 is then recTable is else 0

theorem tableAt_ne_zero (s : Machine) {is : List (BitVec 9)} (h : is.length ≤ 3) :
    tableAt s is ≠ 0 ↔ Linked s.mem s.cr3 is := by
  rw [tableAt]
  by_cases hl : Linked s.mem s.cr3 is
  · rw [if_pos hl]
    exact ⟨fun _ => hl, fun _ => recTable_ne_zero h⟩
  · rw [if_neg hl]
    exact ⟨fun h => absurd rfl h, fun h => absurd h hl⟩

theorem hwTranslate_tableAt {s : Machine} (hr : Recursive s.mem s.cr3) {is : List (BitVec 9)}
    (hlen : is.length ≤ 3) (hl : Linked s.mem s.cr3 is) (i : BitVec 9) :
    hwTranslate s.mem s.cr3 (entryAddr (tableAt s is) (i.setWidth 64)) =
      some (Slot.addr ⟨reach s.mem s.cr3 is, i⟩) := by
  rw [tableAt, if_pos hl, hwTranslate_recTable hr hlen hl]

/-- One level of the descent of `translate_page`. -/
def nextTable (s : Machine) (table : BitVec 64) (i : BitVec 9) : Option (BitVec 64) :=
  if table = 0 then some 0 else nextTableAddress s table (i.setWidth 32)

theorem nextTable_tableAt {s : Machine} (hr : Recursive s.mem s.cr3) (is : List (BitVec 9))
    (hlen : is.length ≤ 2) (i : BitVec 9) :
    nextTable s (tableAt s is) i = some (tableAt s (is ++ [i])) := by
  by_cases hl : Linked s.mem s.cr3 is
  · have hne := (tableAt_ne_zero s (Nat.le_succ_of_le hlen)).mpr hl
    rw [nextTable, if_neg hne, tableAt, if_pos hl, nextTableAddress_recTable hr hl hlen, tableAt]
    simp only [linked_snoc, hl, true_and]
  · have hsnoc : ¬ Linked s.mem s.cr3 (is ++ [i]) := fun h => hl ((linked_snoc _ _ _ _).mp h).1
    rw [nextTable, tableAt, tableAt, if_neg hl, if_neg hsnoc, if_pos rfl]

/-- The table addresses of `translate_page` for the indices of a page, each computed only
    while the one before is non-zero. -/
def walkTables (s : Machine) (i4 i3 i2 : BitVec 9) :
    Option (BitVec 64 × BitVec 64 × BitVec 64) := do
  let t3 ← nextTable s p4Table i4
  let t2 ← nextTable s t3 i3
  let t1 ← nextTable s t2 i2
  return (t3, t2, t1)

theorem walkTables_eq {s : Machine} (hr : Recursive s.mem s.cr3) (i4 i3 i2 : BitVec 9) :
    walkTables s i4 i3 i2 =
      some (tableAt s [i4], tableAt s [i4, i3], tableAt s [i4, i3, i2]) := by
  have htop : p4Table = tableAt s [] := p4Table_eq
  have h3 := nextTable_tableAt hr [] (by simp) i4
  have h2 := nextTable_tableAt hr [i4] (by simp) i3
  have h1 := nextTable_tableAt hr [i4, i3] (by simp) i2
  simp only [List.nil_append, List.cons_append] at h3 h2 h1
  simp only [walkTables, htop, h3, h2, h1, Option.bind_eq_bind, Option.bind_some, Option.pure_def]

/-- The descent never faults. Its three addresses are non-zero exactly if the direct physical
    walk meets present entries that are not huge, and then the processor translates word `i`
    of each of them to slot `i` of the table the direct walk reaches. -/
theorem walkTables_refines (s : Machine) (hr : Recursive s.mem s.cr3) (i4 i3 i2 i1 : BitVec 9) :
    ∃ t3 t2 t1, walkTables s i4 i3 i2 = some (t3, t2, t1) ∧
      ((t3 ≠ 0 ∧ t2 ≠ 0 ∧ t1 ≠ 0) ↔ Linked s.mem s.cr3 [i4, i3, i2]) ∧
      (Linked s.mem s.cr3 [i4, i3, i2] →
        hwTranslate s.mem s.cr3 (entryAddr t1 (i1.setWidth 64)) =
            some (Slot.addr ⟨reach s.mem s.cr3 [i4, i3, i2], i1⟩) ∧
          hwTranslate s.mem s.cr3 (entryAddr t2 (i2.setWidth 64)) =
            some (Slot.addr ⟨reach s.mem s.cr3 [i4, i3], i2⟩) ∧
          hwTranslate s.mem s.cr3 (entryAddr t3 (i3.setWidth 64)) =
            some (Slot.addr ⟨reach s.mem s.cr3 [i4], i3⟩)) := by
  refine ⟨_, _, _, walkTables_eq hr i4 i3 i2, ?_, ?_⟩
  · rw [tableAt_ne_zero s (by simp), tableAt_ne_zero s (by simp), tableAt_ne_zero s (by simp)]
    simp only [Linked, and_true]
    tauto
  · intro hl
    have hl2 : Linked s.mem s.cr3 [i4, i3] := ⟨hl.1, hl.2.1, trivial⟩
    have hl3 : Linked s.mem s.cr3 [i4] := ⟨hl.1, trivial⟩
    exact ⟨hwTranslate_tableAt hr (by simp) hl i1, hwTranslate_tableAt hr (by simp) hl2 i2,
      hwTranslate_tableAt hr (by simp) hl3 i3⟩

/-- The top table in frame 1 with its recursive entry, and page 0 mapped to frame 5 through
    the tables in frames 2, 3 and 4. All other words are 0. -/
def sampleMem : PhysMem := fun x =>
  if x = ⟨1, 511⟩ then 0x1003
  else if x = ⟨1, 0⟩ then 0x2003
  else if x = ⟨2, 0⟩ then 0x3003
  else if x = ⟨3, 0⟩ then 0x4003
  else if x = ⟨4, 0⟩ then 0x5003
  else 0

/-- `sampleMem` with an MMAP tag that has no entries. -/
def sampleMachine : Machine where
  mem := sampleMem
  cr3 := 1
  mmap := mmapInit ⟨0x9000, 16, 24, fun _ => ⟨0, 0, multibootMemoryAvailable⟩⟩ ⟨0, 0, 0, 0⟩

theorem sampleMachine_recursive : Recursive sampleMachine.mem sampleMachine.cr3 :=
  ⟨by decide, by decide⟩

theorem walkTables_refines_sampleMachine :
    Recursive sampleMachine.mem sampleMachine.cr3 ∧
    Linked sampleMachine.mem sampleMachine.cr3 [0, 0, 0] ∧
    ∃ t3 t2 t1, walkTables sampleMachine 0 0 0 = some (t3, t2, t1) ∧
      ((t3 ≠ 0 ∧ t2 ≠ 0 ∧ t1 ≠ 0) ↔ Linked sampleMachine.mem sampleMachine.cr3 [0, 0, 0]) ∧
      (Linked sampleMachine.mem sampleMachine.cr3 [0, 0, 0] →
        hwTranslate sampleMachine.mem sampleMachine.cr3 (entryAddr t1 (BitVec.setWidth 64 7#9)) =
            some (Slot.addr ⟨reach sampleMachine.mem sampleMachine.cr3 [0, 0, 0], 7⟩) ∧
          hwTranslate sampleMachine.mem sampleMachine.cr3 (entryAddr t2 (BitVec.setWidth 64 0#9)) =
            some (Slot.addr ⟨reach sampleMachine.mem sampleMachine.cr3 [0, 0], 0⟩) ∧
          hwTranslate sampleMachine.mem sampleMachine.cr3 (entryAddr t3 (BitVec.setWidth 64 0#9)) =
            some (Slot.addr ⟨reach sampleMachine.mem sampleMachine.cr3 [0], 0⟩)) :=
  ⟨sampleMachine_recursive, by decide,
    walkTables_refines sampleMachine sampleMachine_recursive 0 0 0 7⟩

end Utero.Mmu
