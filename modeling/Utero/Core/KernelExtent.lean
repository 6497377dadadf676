/-
  The kernel range of `read_multiboot_info`.

  The ELF loop takes the sections of a tag in from the first one on, `section_size` apart, and
  goes on with the next tag. `readMultibootInfo_hull`: on a well-formed block the range is the
  hull of the sections that are not NULL, over all ELF tags, and from 2^64 - 1 to 0 if there is
  none. Neither `num` nor `section_size` needs to fit the tag for this.
-/
import Utero.Core.BootBlock
import Utero.Lib.Hull

namespace Utero.Core

open Utero.Lib Utero.Mmu

/-! ## Sections -/

section Sections

variable (mem : Memory)

/-- The first address of a section. -/
def sectionStart (elf : BitVec 64) : Nat := (load64 mem (elf + 16)).toNat

/-- The address after a section. -/
def sectionEnd (elf : BitVec 64) : Nat :=
  (load64 mem (elf + 16)).toNat + (load64 mem (elf + 32)).toNat

/-- The sections, `size` apart, that are not NULL among the `n` from `elf` on. -/
def LiveSections (size : BitVec 64) (n : Nat) (elf : BitVec 64) : Set (BitVec 64) :=
  {e | (∃ i < n, e = elf + BitVec.ofNat 64 i * size) ∧
    load32 mem (e + 4) ≠ multibootElfSectionTypeNull}

/-- The sections of an ELF tag that are not NULL. -/
def TagSections (tag : BitVec 64) : Set (BitVec 64) :=
  LiveSections mem (elfSectionSize mem tag) (elfNum mem tag).toNat (tag + 20)

/-- The sections of the ELF tags among the `n` tags from `tag` on. -/
def ChainSections (n : Nat) (tag : BitVec 64) : Set (BitVec 64) :=
  {e | ∃ k < n, tagType mem (tagAt mem k tag) = multibootTagTypeElfSections ∧
    e ∈ TagSections mem (tagAt mem k tag)}

/-- The kernel range is the hull of the sections in `S`. -/
def KernelHull (S : Set (BitVec 64)) (reserved : ReservedAreas) : Prop :=
  Hull (2 ^ 64 - 1) 0 (sectionStart mem) (sectionEnd mem) S reserved.kernelStart.toNat
    reserved.kernelEnd.toNat

end Sections

variable {mem : Memory} {S : Set (BitVec 64)} {r : ReservedAreas}

theorem mem_liveSections_succ (size : BitVec 64) (n : Nat) (elf e : BitVec 64) :
    e ∈ LiveSections mem size (n + 1) elf ↔
      (e = elf ∧ load32 mem (e + 4) ≠ multibootElfSectionTypeNull) ∨
        e ∈ LiveSections mem size n (elf + size) := by
  have hzero : elf + BitVec.ofNat 64 0 * size = elf := by
    rw [BitVec.zero_mul, BitVec.add_zero]
  constructor
  · rintro ⟨⟨i, hi, rfl⟩, hlive⟩
    cases i with
    | zero =>
      rw [hzero] at hlive ⊢
      exact Or.inl ⟨rfl, hlive⟩
    | succ i =>
      rw [entryPointer_succ] at hlive ⊢
      exact Or.inr ⟨⟨i, by omega, rfl⟩, hlive⟩
  · rintro (⟨rfl, hlive⟩ | ⟨⟨i, hi, rfl⟩, hlive⟩)
    · exact ⟨⟨0, by omega, hzero.symm⟩, hlive⟩
    · exact ⟨⟨i + 1, by omega, (entryPointer_succ elf size i).symm⟩, hlive⟩

theorem liveSections_zero (size elf : BitVec 64) : LiveSections mem size 0 elf = ∅ := by
  refine Set.eq_empty_of_forall_notMem ?_
  rintro e ⟨⟨i, hi, -⟩, -⟩
  exact Nat.not_lt_zero i hi

theorem liveSections_null (size : BitVec 64) (n : Nat) {elf : BitVec 64}
    (hnull : load32 mem (elf + 4) = multibootElfSectionTypeNull) :
    LiveSections mem size (n + 1) elf = LiveSections mem size n (elf + size) := by
  ext e
  rw [mem_liveSections_succ]
  refine ⟨fun he => he.resolve_left ?_, Or.inr⟩
  rintro ⟨rfl, hlive⟩
  exact hlive hnull

theorem liveSections_live (size : BitVec 64) (n : Nat) {elf : BitVec 64}
    (hlive : load32 mem (elf + 4) ≠ multibootElfSectionTypeNull) :
    LiveSections mem size (n + 1) elf = insert elf (LiveSections mem size n (elf + size)) := by
  ext e
  rw [mem_liveSections_succ, Set.mem_insert_iff]
  refine or_congr_left ⟨And.left, ?_⟩
  rintro rfl
  exact ⟨rfl, hlive⟩

/-- What the first tag has, and the others. -/
theorem chainSections_succ (n : Nat) (tag : BitVec 64) :
    ChainSections mem (n + 1) tag =
      {e | tagType mem tag = multibootTagTypeElfSections ∧ e ∈ TagSections mem tag} ∪
        ChainSections mem n (nextTag mem tag) := by
  ext e
  constructor
  · rintro ⟨k, hk, he⟩
    cases k with
    | zero => exact Or.inl he
    | succ k => exact Or.inr ⟨k, by omega, he⟩
  · rintro (he | ⟨k, hk, he⟩)
    · exact ⟨0, by omega, he⟩
    · exact ⟨k + 1, by omega, he⟩

/-! ## The loops -/

theorem elfSection_null {elf : BitVec 64}
    (hnull : load32 mem (elf + 4) = multibootElfSectionTypeNull) :
    elfSection mem elf r = r := if_pos hnull

theorem toNat_least (a b : BitVec 64) : (if a < b then a else b).toNat = min a.toNat b.toNat := by
  by_cases hlt : a < b
  · rw [if_pos hlt, Nat.min_eq_left (Nat.le_of_lt hlt)]
  · rw [if_neg hlt, Nat.min_eq_right (Nat.le_of_not_lt hlt)]

theorem toNat_greatest (a b : BitVec 64) :
    (if b < a then a else b).toNat = max a.toNat b.toNat := by
  by_cases hlt : b < a
  · rw [if_pos hlt, Nat.max_eq_left (Nat.le_of_lt hlt)]
  · rw [if_neg hlt, Nat.max_eq_right (Nat.le_of_not_lt hlt)]

/-- A section that is not NULL has its part in the start and in the end. -/
theorem elfSection_live {elf : BitVec 64}
    (hlive : load32 mem (elf + 4) ≠ multibootElfSectionTypeNull) :
    (elfSection mem elf r).kernelStart =
        (if load64 mem (elf + 16) < r.kernelStart then load64 mem (elf + 16) else r.kernelStart) ∧
      (elfSection mem elf r).kernelEnd =
        if r.kernelEnd < load64 mem (elf + 16) + load64 mem (elf + 32) then
          load64 mem (elf + 16) + load64 mem (elf + 32)
        else r.kernelEnd := by
  unfold elfSection
  rw [if_neg hlive]
  dsimp only
  by_cases hstart : load64 mem (elf + 16) < r.kernelStart
  · rw [if_pos hstart, if_pos hstart]
    split <;> exact ⟨rfl, rfl⟩
  · rw [if_neg hstart, if_neg hstart]
    split <;> exact ⟨rfl, rfl⟩

/-- The sum does not wrap around. -/
theorem elfSection_range {elf : BitVec 64}
    (hlive : load32 mem (elf + 4) ≠ multibootElfSectionTypeNull)
    (hend : sectionEnd mem elf < 2 ^ 64) :
    (elfSection mem elf r).kernelStart.toNat = min (sectionStart mem elf) r.kernelStart.toNat ∧
      (elfSection mem elf r).kernelEnd.toNat = max (sectionEnd mem elf) r.kernelEnd.toNat := by
  have hsum : (load64 mem (elf + 16) + load64 mem (elf + 32)).toNat = sectionEnd mem elf := by
    rw [BitVec.toNat_add]
    exact Nat.mod_eq_of_lt hend
  obtain ⟨hstart, hstop⟩ := elfSection_live (r := r) hlive
  rw [hstart, hstop, toNat_least, toNat_greatest, hsum]
  exact ⟨rfl, rfl⟩

theorem KernelHull.elfSection {elf : BitVec 64} (h : KernelHull mem S r)
    (hlive : load32 mem (elf + 4) ≠ multibootElfSectionTypeNull)
    (hend : sectionEnd mem elf < 2 ^ 64) :
    KernelHull mem (insert elf S) (elfSection mem elf r) := by
  obtain ⟨hstart, hstop⟩ := elfSection_range (r := r) hlive hend
  have hinsert := Hull.insert h elf
  rw [← hstart, ← hstop] at hinsert
  exact hinsert

/-- The loop over the sections of a tag. -/
theorem KernelHull.elfSections {size : BitVec 64} {n : Nat} {elf : BitVec 64}
    (h : KernelHull mem S r)
    (hend : ∀ e ∈ LiveSections mem size n elf, sectionEnd mem e < 2 ^ 64) :
    KernelHull mem (S ∪ LiveSections mem size n elf) (elfSections mem size n elf r) := by
  induction n generalizing elf S r with
  | zero =>
    rw [liveSections_zero, Set.union_empty]
    exact h
  | succ n ih =>
    rw [Core.elfSections]
    by_cases hnull : load32 mem (elf + 4) = multibootElfSectionTypeNull
    · rw [liveSections_null size n hnull] at hend ⊢
      rw [elfSection_null hnull]
      exact ih h hend
    · rw [liveSections_live size n hnull] at hend ⊢
      have hfirst := h.elfSection hnull (hend elf (Set.mem_insert elf _))
      rw [Set.union_insert, ← Set.insert_union]
      exact ih hfirst fun e he => hend e (Set.mem_insert_of_mem elf he)

/-- The walk over the tags. -/
theorem KernelHull.readChain {n : Nat} {tag : BitVec 64} (h : KernelHull mem S r)
    (hend : ∀ e ∈ ChainSections mem n tag, sectionEnd mem e < 2 ^ 64) :
    KernelHull mem (S ∪ ChainSections mem n tag) (readChain mem n tag r) := by
  induction n generalizing tag S r with
  | zero =>
    have hnone : ChainSections mem 0 tag = ∅ := by
      refine Set.eq_empty_of_forall_notMem ?_
      rintro e ⟨k, hk, -⟩
      exact Nat.not_lt_zero k hk
    rw [hnone, Set.union_empty]
    exact h
  | succ n ih =>
    rw [chainSections_succ] at hend ⊢
    rw [Core.readChain, ← Set.union_assoc]
    refine ih ?_ fun e he => hend e (Or.inr he)
    unfold readTag
    by_cases helf : tagType mem tag = multibootTagTypeElfSections
    · simp only [helf, true_and, Set.ofPred_mem_eq, if_true] at hend ⊢
      exact h.elfSections fun e he => hend e (Or.inl he)
    · simp only [helf, false_and, Set.ofPred_false, Set.union_empty, if_false]
      exact h

/-! ## Blocks -/

/-- The sections of the block's ELF tags that are not NULL. -/
def MultibootBlock.Sections (b : MultibootBlock) : Set (BitVec 64) :=
  {e | ∃ k t, b.tags[k]? = some t ∧ t.type = multibootTagTypeElfSections ∧
    e ∈ TagSections b.mem (tagAddr (b.mbi + 8) b.tags k)}

/-- An MMAP tag of whole entries, or with room for one more entry before the top of the address
    space. -/
def EntriesFit (mem : Memory) (tag : BitVec 64) : Prop :=
  (16 ≤ (tagSize mem tag).toNat ∧
    (mmapEntrySize mem tag).toNat ∣ (tagSize mem tag).toNat - 16) ∨
  tag.toNat + (tagSize mem tag).toNat + (mmapEntrySize mem tag).toNat ≤ 2 ^ 64

/-- A block whose MMAP entries fit, with sections that do not wrap around. -/
structure KernelBlock extends MultibootBlock where
  entriesFit : ∀ k t, tags[k]? = some t → t.type = multibootTagTypeMmap →
    EntriesFit mem (tagAddr (mbi + 8) tags k)
  sectionsEnd : ∀ e ∈ toMultibootBlock.Sections, sectionEnd mem e < 2 ^ 64

/-- Whole entries lead to the end of the tag. -/
theorem entriesEnd_of_whole {mem : Memory} {tag : BitVec 64}
    (hsize : 16 ≤ (tagSize mem tag).toNat)
    (hwhole : (mmapEntrySize mem tag).toNat ∣ (tagSize mem tag).toNat - 16) :
    EntriesEnd mem tag (tag + 16) := by
  obtain ⟨k, hk⟩ := hwhole
  have hlt := (tagSize mem tag).isLt
  have hsteps : BitVec.ofNat 64 k * mmapEntrySize mem tag =
      BitVec.ofNat 64 ((tagSize mem tag).toNat - 16) := by
    apply BitVec.eq_of_toNat_eq
    rw [hk, BitVec.toNat_mul, BitVec.toNat_ofNat, BitVec.toNat_ofNat, Nat.mod_mul_mod,
      Nat.mul_comm]
  have hend : tagEnd mem tag = tag + 16 + BitVec.ofNat 64 k * mmapEntrySize mem tag := by
    rw [tagEnd, hsteps, BitVec.add_assoc]
    refine congrArg (tag + ·) (BitVec.eq_of_toNat_eq ?_)
    rw [BitVec.toNat_setWidth, BitVec.toNat_add, BitVec.toNat_ofNat,
      show (16 : BitVec 64).toNat = 16 from rfl]
    omega
  refine ⟨k, ?_⟩
  rw [hend]
  exact BitVec.le_refl _

namespace KernelBlock

variable (b : KernelBlock)

theorem entriesEnd : MmapLoopsEnd b.mem b.tags.length (b.mbi + 8) := by
  intro k hk htype
  have hget : b.tags[k]? = some b.tags[k] := List.getElem?_eq_getElem hk
  have heq := b.tagAt_eq (Nat.le_of_lt hk)
  have hmmap : b.tags[k].type = multibootTagTypeMmap := by
    rw [← (header_at b.headers hget).1, ← heq]
    exact htype
  have hfit := b.entriesFit k _ hget hmmap
  rw [← heq] at hfit
  rcases hfit with ⟨hsize, hwhole⟩ | hroom
  · exact entriesEnd_of_whole hsize hwhole
  · exact entriesEnd_of_room (b.entrySizes k hk htype) hroom

/-- The walk finds the sections of the block. -/
theorem chainSections_eq :
    ChainSections b.mem b.tags.length (b.mbi + 8) = b.Sections := by
  ext e
  constructor
  · rintro ⟨k, hk, htype, he⟩
    rw [b.tagAt_eq (Nat.le_of_lt hk)] at htype he
    have hget : b.tags[k]? = some b.tags[k] := List.getElem?_eq_getElem hk
    exact ⟨k, _, hget, (header_at b.headers hget).1.symm.trans htype, he⟩
  · rintro ⟨k, t, hget, htype, he⟩
    obtain ⟨hk, -⟩ := List.getElem?_eq_some_iff.mp hget
    refine ⟨k, hk, ?_⟩
    rw [b.tagAt_eq (Nat.le_of_lt hk)]
    exact ⟨(header_at b.headers hget).1.trans htype, he⟩

end KernelBlock

/-- On every well-formed block `read_multiboot_info` ends with the hull of the sections that are
    not NULL as the kernel range: the least address and the greatest address after a section,
    over all ELF tags. Without such a section the range is from 2^64 - 1 to 0. -/
theorem readMultibootInfo_hull (b : KernelBlock) :
    ∃ res, Returns (fun n => readMultibootInfo b.mem n b.mbi) res ∧
      (b.Sections = ∅ → res.kernelStart.toNat = 2 ^ 64 - 1 ∧ res.kernelEnd.toNat = 0) ∧
      (b.Sections.Nonempty →
        IsLeast (Set.image (sectionStart b.mem) b.Sections) res.kernelStart.toNat ∧
        IsGreatest (Set.image (sectionEnd b.mem) b.Sections) res.kernelEnd.toNat) := by
  have hread := (readChain_yields b.chain b.entriesEnd (initialAreas b.mbi)).returns
  have hstart : KernelHull b.mem ∅ (initialAreas b.mbi) := hull_empty _ _ _ _
  have hhull : KernelHull b.mem (∅ ∪ ChainSections b.mem b.tags.length (b.mbi + 8))
      (readChain b.mem b.tags.length (b.mbi + 8) (initialAreas b.mbi)) := by
    refine hstart.readChain ?_
    rw [b.chainSections_eq]
    exact b.sectionsEnd
  rw [b.chainSections_eq, Set.empty_union] at hhull
  refine ⟨_, hread, ?_, ?_⟩
  · intro hnone
    rw [hnone] at hhull
    exact Hull.of_empty hhull
  · intro hsome
    have htop : ∀ e ∈ b.Sections, sectionStart b.mem e ≤ 2 ^ 64 - 1 := by
      intro e _
      have := (load64 b.mem (e + 16)).isLt
      unfold sectionStart
      omega
    exact Hull.bounds hhull hsome htop fun e _ => Nat.zero_le _

/-- An ELF tag at 8 KiB with a NULL section and one of 4 KiB at 1 MiB. -/
def elfMemory : Memory := fun a =>
  if a = 0x2008 then 9 else if a = 0x200c then 148 else if a = 0x2010 then 2
  else if a = 0x2014 then 64 else if a = 0x2060 then 1 else if a = 0x206e then 0x10
  else if a = 0x207d then 0x10 else if a = 0x20a4 then 8 else 0

theorem elfMemory_sections : TagSections elfMemory 0x2008 = {0x205c} := by
  have hsize : elfSectionSize elfMemory 0x2008 = 64 := by decide
  have hnum : (elfNum elfMemory 0x2008).toNat = 2 := by decide
  unfold TagSections
  rw [hsize, hnum, liveSections_null _ _ (by decide), liveSections_live _ _ (by decide),
    liveSections_zero]
  exact insert_empty_eq _

def elfTags : MultibootBlock where
  mem := elfMemory
  mbi := 0x2000
  tags := [⟨multibootTagTypeElfSections, 148⟩]
  aligned := by decide
  laidOut := ⟨by decide, by decide, by decide, by decide⟩
  noEnd := by decide
  sizes := by decide
  entrySizes := by decide
  fits := by decide

theorem elfTags_sections : elfTags.Sections = {0x205c} := by
  rw [← elfMemory_sections]
  ext e
  constructor
  · rintro ⟨k, t, hget, -, he⟩
    cases k with
    | zero => exact he
    | succ k => cases hget
  · exact fun he => ⟨0, _, rfl, rfl, he⟩

def elfBlock : KernelBlock where
  toMultibootBlock := elfTags
  entriesFit := by
    intro k t hget htype
    cases k with
    | zero =>
      cases hget
      exact absurd htype (by decide)
    | succ k => cases hget
  sectionsEnd := by
    intro e he
    rw [elfTags_sections] at he
    rw [he]
    decide

/-- The range is that of the one section. -/
theorem readMultibootInfo_hull_elfBlock :
    ∃ res, Returns (fun n => readMultibootInfo elfBlock.mem n elfBlock.mbi) res ∧
      res.kernelStart.toNat = 0x100000 ∧ res.kernelEnd.toNat = 0x101000 := by
  obtain ⟨res, hreturns, -, hhull⟩ := readMultibootInfo_hull elfBlock
  have hsections : elfBlock.Sections = {0x205c} := elfTags_sections
  rw [hsections, Set.image_singleton, Set.image_singleton] at hhull
  obtain ⟨hleast, hgreatest⟩ := hhull (Set.singleton_nonempty _)
  refine ⟨res, hreturns, ?_, ?_⟩
  · have hstart : sectionStart elfBlock.mem 0x205c = 0x100000 := by decide
    exact (Set.mem_singleton_iff.mp hleast.1).trans hstart
  · have hstop : sectionEnd elfBlock.mem 0x205c = 0x101000 := by decide
    exact (Set.mem_singleton_iff.mp hgreatest.1).trans hstop

end Utero.Core
