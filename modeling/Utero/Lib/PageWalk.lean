/-
  x86-64 four-level paging over physical memory.

  Physical memory is a map from slots to 64-bit entries: a slot is a frame number (40 bits)
  and one of the 512 words of that frame. An entry has its present bit at 0, bit 7 as "huge"
  (a 1 GiB or 2 MiB page in the two middle levels, reserved in the top one, not a size bit in
  the last), and a frame number in bits 12 to 51. The write bit, bit 1, has no part in a read
  (`hwTranslate`); a write needs it along the whole walk (`hwWrite`, as the supervisor with
  write protection on). Other protection bits, reserved bits other than bit 7 of the top
  level, and the TLB are not modelled: every access is translated afresh.

  `walk mem is t` reads entry `i` of table `t` for each index `i` of `is` in turn.
  `reach mem t is` is the frame reached by following the entries whatever their flags, and
  `Linked mem t is` says that each of them is present and not huge, that is, that it leads to
  a table. Along a linked path the walk and `reach` agree (`walk_append`).

  With a top-level entry that points back to its own table (`Recursive`), a leading index of
  that entry makes the walk stay where it is (`walk_recursive`).

  A write is translated as a read is, in the memory whose words without the write bit are taken
  away (`hwWrite_eq_writableOnly`), so that what is known of walks holds of writes.

  Nothing here depends on a program.
-/
import Mathlib.Algebra.Group.Nat.Defs
import Mathlib.Data.Bool.Basic
import Mathlib.Data.List.Basic

namespace Utero.Lib

/-! ## Entries, slots and memory -/

abbrev FrameNo := BitVec 40

structure Slot where
  frame : FrameNo
  index : BitVec 9
  deriving DecidableEq

abbrev PhysMem := Slot → BitVec 64

namespace Pte

def present (e : BitVec 64) : Bool := e.getLsbD 0

def writable (e : BitVec 64) : Bool := e.getLsbD 1

def huge (e : BitVec 64) : Bool := e.getLsbD 7

def frame (e : BitVec 64) : FrameNo := e.extractLsb' 12 40

/-- The entry leads to a table of the next level. -/
def Link (e : BitVec 64) : Prop := present e = true ∧ huge e = false

instance : DecidablePred Link := fun _ => inferInstanceAs (Decidable (_ ∧ _))

end Pte

/-- The physical address of a slot. -/
def Slot.addr (s : Slot) : BitVec 52 := s.frame ++ (s.index ++ 0#3)

/-- The slot that contains a physical address. -/
def slotOf (p : BitVec 52) : Slot := ⟨p.extractLsb' 12 40, p.extractLsb' 3 9⟩

theorem slotOf_addr (s : Slot) : slotOf s.addr = s := by
  obtain ⟨f, i⟩ := s
  have hf : (Slot.addr ⟨f, i⟩).extractLsb' 12 40 = f := by
    apply BitVec.eq_of_getLsbD_eq
    intro k hk
    simp only [Slot.addr, BitVec.getLsbD_extractLsb', BitVec.getLsbD_append]
    grind
  have hi : (Slot.addr ⟨f, i⟩).extractLsb' 3 9 = i := by
    apply BitVec.eq_of_getLsbD_eq
    intro k hk
    simp only [Slot.addr, BitVec.getLsbD_extractLsb', BitVec.getLsbD_append]
    grind
  rw [slotOf, hf, hi]

/-! ## Virtual addresses -/

/-- The index of a virtual address at level 4, 3, 2 or 1. -/
def vaIndex (level : Nat) (va : BitVec 64) : BitVec 9 := va.extractLsb' (3 + 9 * level) 9

def vaIndices (va : BitVec 64) : List (BitVec 9) :=
  [vaIndex 4 va, vaIndex 3 va, vaIndex 2 va, vaIndex 1 va]

def vaOffset (va : BitVec 64) : BitVec 12 := va.extractLsb' 0 12

/-- Bits 48 to 63 repeat bit 47. -/
def Canonical (va : BitVec 64) : Prop := (va.setWidth 48).signExtend 64 = va

instance : DecidablePred Canonical := fun _ => inferInstanceAs (Decidable (_ = _))

/-- The canonical address with the given indices and offset. -/
def virtAddr (a b c d : BitVec 9) (off : BitVec 12) : BitVec 64 :=
  (a ++ b ++ c ++ d ++ off : BitVec 48).signExtend 64

theorem getLsbD_virtAddr (a b c d : BitVec 9) (off : BitVec 12) (k : Nat) :
    (virtAddr a b c d off).getLsbD k =
      if k < 12 then off.getLsbD k else if k < 21 then d.getLsbD (k - 12)
      else if k < 30 then c.getLsbD (k - 21) else if k < 39 then b.getLsbD (k - 30)
      else if k < 48 then a.getLsbD (k - 39) else decide (k < 64) && a.getLsbD 8 := by
  simp only [virtAddr, BitVec.getLsbD_signExtend, BitVec.getLsbD_append,
    BitVec.msb_eq_getLsbD_last]
  grind

theorem vaIndices_virtAddr (a b c d : BitVec 9) (off : BitVec 12) :
    vaIndices (virtAddr a b c d off) = [a, b, c, d] := by
  simp only [vaIndices, List.cons.injEq, and_true]
  refine ⟨?_, ?_, ?_, ?_⟩ <;>
  · apply BitVec.eq_of_getLsbD_eq
    intro k hk
    simp only [vaIndex, BitVec.getLsbD_extractLsb', getLsbD_virtAddr]
    grind

theorem vaOffset_virtAddr (a b c d : BitVec 9) (off : BitVec 12) :
    vaOffset (virtAddr a b c d off) = off := by
  apply BitVec.eq_of_getLsbD_eq
  intro k hk
  simp only [vaOffset, BitVec.getLsbD_extractLsb', getLsbD_virtAddr]
  grind

theorem canonical_virtAddr (a b c d : BitVec 9) (off : BitVec 12) :
    Canonical (virtAddr a b c d off) := by
  apply BitVec.eq_of_getLsbD_eq
  intro k hk
  simp only [BitVec.getLsbD_signExtend, BitVec.getLsbD_setWidth, BitVec.msb_eq_getLsbD_last,
    getLsbD_virtAddr]
  grind

/-- A canonical address is determined by its indices and its offset. -/
theorem virtAddr_of_canonical {va : BitVec 64} (h : Canonical va) :
    virtAddr (vaIndex 4 va) (vaIndex 3 va) (vaIndex 2 va) (vaIndex 1 va) (vaOffset va) = va := by
  apply BitVec.eq_of_getLsbD_eq
  intro k hk
  have hsign : va.getLsbD k = if k < 48 then va.getLsbD k else va.getLsbD 47 := by
    conv_lhs => rw [← h]
    simp only [BitVec.getLsbD_signExtend, BitVec.getLsbD_setWidth, BitVec.msb_eq_getLsbD_last]
    grind
  rw [hsign]
  simp only [getLsbD_virtAddr, vaIndex, vaOffset, BitVec.getLsbD_extractLsb']
  grind

/-! ## The walk -/

/-- The 4 KiB frame inside the large page of entry `e`: the lower bits of its number come
    from the indices left over. -/
def largeFrame (e : BitVec 64) (rest : List (BitVec 9)) : FrameNo :=
  let n := 9 * rest.length
  ((Pte.frame e >>> n) <<< n) ||| rest.foldl (fun (f : FrameNo) i => (f <<< 9) ||| i.setWidth 40) 0

/-- The frame that the indices `is` lead to from table `t`, none on a page fault. -/
def walk (mem : PhysMem) : List (BitVec 9) → FrameNo → Option FrameNo
  | [], t => some t
  | i :: rest, t =>
    let e := mem ⟨t, i⟩
    if Pte.present e = false then none
    else if rest ≠ [] ∧ Pte.huge e = true then
      if 3 ≤ rest.length then none else some (largeFrame e rest)
    else walk mem rest (Pte.frame e)

/-- The physical address of a virtual one under the tables at `cr3`. -/
def hwTranslate (mem : PhysMem) (cr3 : FrameNo) (va : BitVec 64) : Option (BitVec 52) :=
  if Canonical va then (walk mem (vaIndices va) cr3).map (· ++ vaOffset va) else none

theorem hwTranslate_eq_some {mem : PhysMem} {cr3 : FrameNo} {va : BitVec 64} {p : BitVec 52} :
    hwTranslate mem cr3 va = some p ↔
      Canonical va ∧ ∃ f, walk mem (vaIndices va) cr3 = some f ∧ f ++ vaOffset va = p := by
  rw [hwTranslate]
  by_cases hc : Canonical va
  · rw [if_pos hc, Option.map_eq_some_iff]
    exact ⟨fun h => ⟨hc, h⟩, fun h => h.2⟩
  · rw [if_neg hc]
    constructor
    · intro h
      cases h
    · exact fun h => absurd h.1 hc

theorem hwTranslate_virtAddr (mem : PhysMem) (cr3 : FrameNo) (a b c d : BitVec 9)
    (off : BitVec 12) :
    hwTranslate mem cr3 (virtAddr a b c d off) =
      (walk mem [a, b, c, d] cr3).map (· ++ off) := by
  rw [hwTranslate, if_pos (canonical_virtAddr a b c d off), vaIndices_virtAddr,
    vaOffset_virtAddr]

/-! ## Linked paths -/

def reach (mem : PhysMem) (t : FrameNo) (is : List (BitVec 9)) : FrameNo :=
  is.foldl (fun t i => Pte.frame (mem ⟨t, i⟩)) t

def Linked (mem : PhysMem) : FrameNo → List (BitVec 9) → Prop
  | _, [] => True
  | t, i :: is => Pte.Link (mem ⟨t, i⟩) ∧ Linked mem (Pte.frame (mem ⟨t, i⟩)) is

instance decLinked (mem : PhysMem) : (t : FrameNo) → (is : List (BitVec 9)) →
    Decidable (Linked mem t is)
  | _, [] => isTrue trivial
  | _, _ :: is => @instDecidableAnd _ _ inferInstance (decLinked mem _ is)

theorem reach_snoc (mem : PhysMem) (t : FrameNo) (is : List (BitVec 9)) (i : BitVec 9) :
    reach mem t (is ++ [i]) = Pte.frame (mem ⟨reach mem t is, i⟩) := by
  simp [reach, List.foldl_append]

theorem linked_append {mem : PhysMem} {t : FrameNo} {is js : List (BitVec 9)}
    (h : Linked mem t (is ++ js)) : Linked mem t is := by
  induction is generalizing t with
  | nil => trivial
  | cons i is ih => exact ⟨h.1, ih h.2⟩

theorem linked_snoc (mem : PhysMem) (t : FrameNo) (is : List (BitVec 9)) (i : BitVec 9) :
    Linked mem t (is ++ [i]) ↔ Linked mem t is ∧ Pte.Link (mem ⟨reach mem t is, i⟩) := by
  induction is generalizing t with
  | nil => simp [Linked, reach]
  | cons j is ih =>
    simp only [List.cons_append, Linked, ih, and_assoc]
    rfl

theorem walk_link {mem : PhysMem} {t : FrameNo} {i : BitVec 9} {rest : List (BitVec 9)}
    (h : Pte.Link (mem ⟨t, i⟩)) :
    walk mem (i :: rest) t = walk mem rest (Pte.frame (mem ⟨t, i⟩)) := by
  simp [walk, h.1, h.2]

/-- In the last level the huge bit does not count. -/
theorem walk_last (mem : PhysMem) (t : FrameNo) (i : BitVec 9) :
    walk mem [i] t =
      if Pte.present (mem ⟨t, i⟩) = true then some (Pte.frame (mem ⟨t, i⟩)) else none := by
  cases h : Pte.present (mem ⟨t, i⟩) <;> simp [walk, h]

theorem walk_append {mem : PhysMem} {t : FrameNo} {is : List (BitVec 9)} (h : Linked mem t is)
    (js : List (BitVec 9)) : walk mem (is ++ js) t = walk mem js (reach mem t is) := by
  induction is generalizing t with
  | nil => rfl
  | cons i is ih =>
    rw [List.cons_append, walk_link h.1, ih h.2]
    rfl

/-! ## Write access and absent entries -/

/-- The entries that the walk reads allow writing. -/
def walkWritable (mem : PhysMem) : List (BitVec 9) → FrameNo → Bool
  | [], _ => true
  | i :: rest, t =>
    let e := mem ⟨t, i⟩
    Pte.writable e && ((rest ≠ [] ∧ Pte.huge e = true) || walkWritable mem rest (Pte.frame e))

def hwWritable (mem : PhysMem) (cr3 : FrameNo) (va : BitVec 64) : Bool :=
  walkWritable mem (vaIndices va) cr3

/-- The physical address that a write to a virtual one goes to. -/
def hwWrite (mem : PhysMem) (cr3 : FrameNo) (va : BitVec 64) : Option (BitVec 52) :=
  if hwWritable mem cr3 va = true then hwTranslate mem cr3 va else none

/-- The walk meets an entry that is not present. -/
def walkAbsent (mem : PhysMem) : List (BitVec 9) → FrameNo → Bool
  | [], _ => false
  | i :: rest, t =>
    let e := mem ⟨t, i⟩
    !Pte.present e || (!(rest ≠ [] ∧ Pte.huge e = true) && walkAbsent mem rest (Pte.frame e))

/-- No page is present at the virtual address. -/
def hwAbsent (mem : PhysMem) (cr3 : FrameNo) (va : BitVec 64) : Bool :=
  walkAbsent mem (vaIndices va) cr3

theorem hwWrite_eq_some {mem : PhysMem} {cr3 : FrameNo} {va : BitVec 64} {p : BitVec 52} :
    hwWrite mem cr3 va = some p ↔
      hwTranslate mem cr3 va = some p ∧ hwWritable mem cr3 va = true := by
  rw [hwWrite]
  by_cases hw : hwWritable mem cr3 va = true
  · rw [if_pos hw]
    exact ⟨fun h => ⟨h, hw⟩, fun h => h.1⟩
  · rw [if_neg hw]
    constructor
    · intro h
      cases h
    · exact fun h => absurd h.2 hw

/-- Memory without the words that do not allow writing. -/
def writableOnly (mem : PhysMem) : PhysMem := fun x => if Pte.writable (mem x) then mem x else 0

theorem writableOnly_of_writable {mem : PhysMem} {x : Slot} (h : Pte.writable (mem x) = true) :
    writableOnly mem x = mem x :=
  if_pos h

theorem present_writableOnly {mem : PhysMem} {x : Slot} (h : Pte.present (mem x) = false) :
    Pte.present (writableOnly mem x) = false := by
  rw [writableOnly]
  split
  · exact h
  · rfl

theorem link_writableOnly {mem : PhysMem} {x : Slot} (h : Pte.Link (writableOnly mem x)) :
    Pte.writable (mem x) = true ∧ Pte.Link (mem x) := by
  rw [writableOnly] at h
  split at h
  · exact ⟨‹_›, h⟩
  · exact absurd h.1 (by decide)

theorem walk_writableOnly (mem : PhysMem) (is : List (BitVec 9)) (t : FrameNo) :
    walk (writableOnly mem) is t =
      if walkWritable mem is t = true then walk mem is t else none := by
  induction is generalizing t with
  | nil => rfl
  | cons i rest ih =>
    by_cases hw : Pte.writable (mem ⟨t, i⟩) = true
    · simp only [walk, walkWritable, writableOnly_of_writable hw, hw, Bool.true_and, ih]
      cases hp : Pte.present (mem ⟨t, i⟩) with
      | false => simp
      | true =>
        by_cases hlarge : rest ≠ [] ∧ Pte.huge (mem ⟨t, i⟩) = true
        · simp [hlarge]
        · simp [hlarge]
    · have habsent : Pte.present (writableOnly mem ⟨t, i⟩) = false := by
        rw [writableOnly, if_neg hw]
        rfl
      rw [walk, if_pos habsent, walkWritable, Bool.eq_false_of_not_eq_true hw]
      rfl

/-- A write is translated as a read, by the writable words. -/
theorem hwWrite_eq_writableOnly (mem : PhysMem) (cr3 : FrameNo) (va : BitVec 64) :
    hwWrite mem cr3 va = hwTranslate (writableOnly mem) cr3 va := by
  rw [hwWrite, hwTranslate, hwTranslate, walk_writableOnly, hwWritable]
  by_cases hw : walkWritable mem (vaIndices va) cr3 = true
  · rw [if_pos hw, if_pos hw]
  · rw [if_neg hw, if_neg hw, Option.map_none, ite_self]

theorem walkWritable_link {mem : PhysMem} {t : FrameNo} {i : BitVec 9} {rest : List (BitVec 9)}
    (h : Pte.Link (mem ⟨t, i⟩)) (hw : Pte.writable (mem ⟨t, i⟩) = true) :
    walkWritable mem (i :: rest) t = walkWritable mem rest (Pte.frame (mem ⟨t, i⟩)) := by
  simp [walkWritable, h.2, hw]

/-- The write bits along a linked path, the last one apart. -/
theorem walkWritable_snoc {mem : PhysMem} {t : FrameNo} {is : List (BitVec 9)}
    (h : Linked mem t is) (i : BitVec 9) :
    walkWritable mem (is ++ [i]) t =
      (walkWritable mem is t && Pte.writable (mem ⟨reach mem t is, i⟩)) := by
  induction is generalizing t with
  | nil => simp [walkWritable, reach]
  | cons j is ih =>
    have hhuge := h.1.2
    have hreach : reach mem t (j :: is) = reach mem (Pte.frame (mem ⟨t, j⟩)) is := rfl
    rw [List.cons_append, hreach]
    simp only [walkWritable, hhuge, Bool.false_eq_true, and_false, decide_false, Bool.false_or,
      ih h.2, Bool.and_assoc]

theorem walkAbsent_link {mem : PhysMem} {t : FrameNo} {i : BitVec 9} {rest : List (BitVec 9)}
    (h : Pte.Link (mem ⟨t, i⟩)) :
    walkAbsent mem (i :: rest) t = walkAbsent mem rest (Pte.frame (mem ⟨t, i⟩)) := by
  simp [walkAbsent, h.1, h.2]

theorem walkAbsent_here {mem : PhysMem} {t : FrameNo} {i : BitVec 9} {rest : List (BitVec 9)}
    (h : Pte.present (mem ⟨t, i⟩) = false) : walkAbsent mem (i :: rest) t = true := by
  simp [walkAbsent, h]

theorem walk_absent {mem : PhysMem} {is : List (BitVec 9)} {t : FrameNo}
    (h : walkAbsent mem is t = true) : walk mem is t = none := by
  induction is generalizing t with
  | nil => cases h
  | cons i rest ih =>
    rw [walk]
    rw [walkAbsent] at h
    cases hp : Pte.present (mem ⟨t, i⟩) with
    | false => rfl
    | true =>
      by_cases hlarge : rest ≠ [] ∧ Pte.huge (mem ⟨t, i⟩) = true
      · simp [hp, hlarge] at h
      · simp only [hp, hlarge, decide_false, Bool.not_true, Bool.not_false, Bool.false_or,
          Bool.true_and] at h
        simp only [hlarge, if_false, Bool.true_eq_false]
        exact ih h

/-! ## Recursive tables -/

/-- Entry 511 of the top table is present, not huge, and points to that table. -/
structure Recursive (mem : PhysMem) (cr3 : FrameNo) : Prop where
  link : Pte.Link (mem ⟨cr3, 511⟩)
  self : Pte.frame (mem ⟨cr3, 511⟩) = cr3

theorem walk_recursive {mem : PhysMem} {cr3 : FrameNo} (h : Recursive mem cr3)
    (is : List (BitVec 9)) : walk mem (511 :: is) cr3 = walk mem is cr3 := by
  rw [walk_link h.link, h.self]

theorem walkWritable_recursive {mem : PhysMem} {cr3 : FrameNo} (h : Recursive mem cr3)
    (is : List (BitVec 9)) :
    walkWritable mem (511 :: is) cr3 =
      (Pte.writable (mem ⟨cr3, 511⟩) && walkWritable mem is cr3) := by
  simp only [walkWritable, h.link.2, h.self, Bool.false_eq_true, and_false, decide_false,
    Bool.false_or]

/-- The bits of a literal, from its bits below the width. -/
theorem getLsbD_eq_of_bits {w : Nat} {x : BitVec w} (f : Nat → Bool)
    (hbits : ∀ j < w, x.getLsbD j = f j) (habove : ∀ j, w ≤ j → f j = false) (k : Nat) :
    x.getLsbD k = f k := by
  by_cases h : k < w
  · exact hbits k h
  · rw [BitVec.getLsbD_of_ge _ _ (by omega), habove k (by omega)]

theorem getLsbD_511 (k : Nat) : (511 : BitVec 9).getLsbD k = decide (k < 9) :=
  getLsbD_eq_of_bits (fun j => decide (j < 9)) (by decide)
    (fun j hj => decide_eq_false (by omega)) k

/-- Shifting the address of a recursively mapped table drops a leading 511 and makes room for
    the index of the next level. -/
theorem virtAddr_shift (c d i : BitVec 9) :
    (virtAddr 511 511 c d 0 <<< 9) ||| (i.setWidth 64 <<< 12) = virtAddr 511 c d i 0 := by
  apply BitVec.eq_of_getLsbD_eq
  intro k hk
  have hi := fun j => BitVec.getLsbD_of_ge i j
  simp only [BitVec.getLsbD_or, BitVec.getLsbD_shiftLeft, BitVec.getLsbD_setWidth,
    getLsbD_virtAddr, getLsbD_511]
  grind

/-- Word `i` of the page at a virtual address. -/
theorem virtAddr_add_index (a b c d i : BitVec 9) :
    virtAddr a b c d 0 + i.setWidth 64 * 8#64 = virtAddr a b c d (i ++ 0#3) := by
  have hi := fun j => BitVec.getLsbD_of_ge i j
  have hmul : i.setWidth 64 * 8#64 = i.setWidth 64 <<< 3 := by
    rw [BitVec.shiftLeft_eq_mul_twoPow]
    rfl
  have hdisj : virtAddr a b c d 0 &&& i.setWidth 64 <<< 3 = 0#64 := by
    apply BitVec.eq_of_getLsbD_eq
    intro k hk
    simp only [BitVec.getLsbD_and, BitVec.getLsbD_shiftLeft, BitVec.getLsbD_setWidth,
      getLsbD_virtAddr, BitVec.getLsbD_zero]
    grind
  rw [hmul, BitVec.add_eq_or_of_and_eq_zero _ _ hdisj]
  apply BitVec.eq_of_getLsbD_eq
  intro k hk
  simp only [BitVec.getLsbD_or, BitVec.getLsbD_shiftLeft, BitVec.getLsbD_setWidth,
    getLsbD_virtAddr, BitVec.getLsbD_append, BitVec.getLsbD_zero]
  grind

end Utero.Lib
