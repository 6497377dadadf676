/-
  The multiboot block in the memory of the kernel.

  `Placed`: the boot loader has put a well-formed block in the first GiB, off the screen and apart
  from what the kernel writes, with the section headers inside their tag. The text that the boot
  prints then leaves the block alone (`Placed.agrees`), so both walks over the tags find what the
  block says and meet no page fault (`ends_readMultibootInfoM`, `ends_findMultibootTagM`).
-/
import Utero.Core.KernelExtent
import Utero.Kernel.Kmain

namespace Utero.Kernel

open Utero.Lib Utero.Core Utero.Drivers
open Utero.Mmu (ReservedAreas)
open Utero.Drivers.Screen (Plain linesOf)

/-! ## What the walks read -/

/-- The memory holds the bytes of the block. -/
def Agrees (b : KernelBlock) (mem : Memory) : Prop :=
  ∀ a : BitVec 64, b.mbi.toNat ≤ a.toNat → a.toNat < b.blockEnd → mem a = b.mem a

/-- The section headers of an ELF tag, as far as they are read, are in the tag. -/
def HeadersInside (b : KernelBlock) : Prop :=
  ∀ k t, b.tags[k]? = some t → t.type = multibootTagTypeElfSections →
    ∀ i < (elfNum b.mem (tagAddr (b.mbi + 8) b.tags k)).toNat,
      20 + i * (elfSectionSize b.mem (tagAddr (b.mbi + 8) b.tags k)).toNat + 40 ≤ t.size.toNat

section Reads

variable {b : KernelBlock} {mem : Memory} (h : Agrees b mem) {a : BitVec 64}
  (hlow : b.mbi.toNat ≤ a.toNat)

include h hlow

theorem load32_agrees (hhigh : a.toNat + 4 ≤ b.blockEnd) : load32 mem a = load32 b.mem a := by
  have hfits : b.blockEnd < 2 ^ 64 := b.fits
  have hbyte : ∀ i : BitVec 64, i.toNat < 4 → mem (a + i) = b.mem (a + i) := by
    intro i hi
    have hsum : (a + i).toNat = a.toNat + i.toNat := BitVec.toNat_add_of_lt (by omega)
    exact h (a + i) (by omega) (by omega)
  unfold load32
  rw [hbyte 3 (by decide), hbyte 2 (by decide), hbyte 1 (by decide), h a hlow (by omega)]

theorem load64_agrees (hhigh : a.toNat + 8 ≤ b.blockEnd) : load64 mem a = load64 b.mem a := by
  have hfits : b.blockEnd < 2 ^ 64 := b.fits
  have hsum : (a + 4).toNat = a.toNat + 4 :=
    BitVec.toNat_add_of_lt (by rw [show (4 : BitVec 64).toNat = 4 from rfl]; omega)
  unfold load64
  rw [load32_agrees h hlow (by omega),
    load32_agrees h (a := a + 4) (by omega) (by omega)]

/-- A field of a tag or of a section header. -/
theorem field_agrees {n : BitVec 64} {k : Nat} (hn : n.toNat = k)
    (hhigh : a.toNat + k + 4 ≤ b.blockEnd) : load32 mem (a + n) = load32 b.mem (a + n) := by
  have hfits : b.blockEnd < 2 ^ 64 := b.fits
  have hsum : (a + n).toNat = a.toNat + n.toNat := BitVec.toNat_add_of_lt (by omega)
  exact load32_agrees h (a := a + n) (by omega) (by omega)

theorem header_agrees (hhigh : a.toNat + 8 ≤ b.blockEnd) :
    tagType mem a = tagType b.mem a ∧ tagSize mem a = tagSize b.mem a :=
  ⟨load32_agrees h hlow (by omega), field_agrees h hlow (show (4 : BitVec 64).toNat = 4 from rfl)
    (by omega)⟩

theorem nextTag_agrees (hhigh : a.toNat + 8 ≤ b.blockEnd) : nextTag mem a = nextTag b.mem a := by
  unfold nextTag
  rw [(header_agrees h hlow hhigh).2]

/-- The fields behind the header of an MMAP or an ELF tag. -/
theorem fields_agree (hhigh : a.toNat + 16 ≤ b.blockEnd) :
    tagEnd mem a = tagEnd b.mem a ∧ mmapEntrySize mem a = mmapEntrySize b.mem a ∧
      elfNum mem a = elfNum b.mem a ∧ elfSectionSize mem a = elfSectionSize b.mem a := by
  have height := field_agrees h hlow (show (8 : BitVec 64).toNat = 8 from rfl) (by omega)
  have htwelve := field_agrees h hlow (show (12 : BitVec 64).toNat = 12 from rfl) (by omega)
  refine ⟨?_, ?_, height, ?_⟩
  · unfold tagEnd
    rw [(header_agrees h hlow (by omega)).2]
  · unfold mmapEntrySize
    rw [height]
  · unfold elfSectionSize
    rw [htwelve]

/-- A section header. -/
theorem section_agrees (hhigh : a.toNat + 40 ≤ b.blockEnd) (r : ReservedAreas) :
    elfSection mem a r = elfSection b.mem a r := by
  have hfits : b.blockEnd < 2 ^ 64 := b.fits
  have htype := field_agrees h hlow (show (4 : BitVec 64).toNat = 4 from rfl) (by omega)
  have hsum16 : (a + 16).toNat = a.toNat + 16 :=
    BitVec.toNat_add_of_lt (by rw [show (16 : BitVec 64).toNat = 16 from rfl]; omega)
  have hsum32 : (a + 32).toNat = a.toNat + 32 :=
    BitVec.toNat_add_of_lt (by rw [show (32 : BitVec 64).toNat = 32 from rfl]; omega)
  unfold elfSection
  rw [htype, load64_agrees h (a := a + 16) (by omega) (by omega),
    load64_agrees h (a := a + 32) (by omega) (by omega)]

end Reads

/-! ## The walks -/

section Walks

variable (b : KernelBlock)

/-- The END tag follows every other one. -/
theorem tag_room {k : Nat} (hk : k ≤ b.tags.length) :
    b.mbi.toNat ≤ (tagAt b.mem k (b.mbi + 8)).toNat ∧
      (tagAt b.mem k (b.mbi + 8)).toNat + 8 ≤ b.blockEnd ∧
      (k < b.tags.length → (tagAt b.mem k (b.mbi + 8)).toNat + 16 ≤ b.blockEnd) := by
  have hle := tagsLength_take_le b.tags k
  rw [b.tagAt_eq hk, b.tagAddr_toNat]
  unfold MultibootBlock.blockEnd
  refine ⟨by omega, by omega, fun hlt => ?_⟩
  have hget : b.tags[k]? = some b.tags[k] := List.getElem?_eq_getElem hlt
  have hsucc := take_succ_length_le b.tags hget
  have hsize := (b.sizes _ (List.getElem_mem hlt)).1
  have hpad : 8 ≤ b.tags[k].padded := by
    unfold Tag.padded
    omega
  omega

/-- A tag of the block, END included. -/
def IsTag (tag : BitVec 64) : Prop := ∃ k ≤ b.tags.length, tag = tagAt b.mem k (b.mbi + 8)

variable {b}

theorem IsTag.next {tag : BitVec 64} (h : IsTag b tag)
    (hne : tagType b.mem tag ≠ multibootTagTypeEnd) :
    ∃ k < b.tags.length, tag = tagAt b.mem k (b.mbi + 8) ∧ IsTag b (nextTag b.mem tag) := by
  obtain ⟨k, hk, rfl⟩ := h
  have hlt := b.chain.next hk hne
  exact ⟨k, hlt, rfl, k + 1, hlt, (tagAt_succ k _).symm⟩

theorem mapped_of_within {a : BitVec 64} {n : Nat} (hmapped : b.blockEnd ≤ 2 ^ 30)
    (h : a.toNat + n ≤ b.blockEnd) : Mapped a n := Nat.le_trans h hmapped

/-- The states that `read_multiboot_info` comes through. -/
def AtTag (b : KernelBlock) : InfoState → Prop
  | .tag tag _ => IsTag b tag
  | .mmap tag _ _ => IsTag b tag ∧ tagType b.mem tag ≠ multibootTagTypeEnd
  | .elf tag i elf _ => IsTag b tag ∧ tagType b.mem tag = multibootTagTypeElfSections ∧
      i.toNat ≤ (elfNum b.mem tag).toNat ∧
      elf = tag + 20 + BitVec.ofNat 64 i.toNat * elfSectionSize b.mem tag

theorem atTag_step {s s' : InfoState} (h : AtTag b s)
    (hstep : readMultibootInfoStep b.mem s = .inl s') : AtTag b s' := by
  cases s with
  | tag tag r =>
    have htag : IsTag b tag := h
    simp only [readMultibootInfoStep] at hstep
    split at hstep
    · rename_i hne
      obtain ⟨k, -, -, hnext⟩ := htag.next hne
      split at hstep
      · cases hstep
        exact ⟨htag, hne⟩
      · split at hstep
        · rename_i helf
          cases hstep
          exact ⟨htag, helf, Nat.zero_le _, by simp⟩
        · cases hstep
          exact hnext
    · cases hstep
  | mmap tag mmap r =>
    obtain ⟨htag, hne⟩ := h
    obtain ⟨k, -, -, hnext⟩ := htag.next hne
    simp only [readMultibootInfoStep] at hstep
    split at hstep
    · cases hstep
      exact ⟨htag, hne⟩
    · cases hstep
      exact hnext
  | elf tag i elf r =>
    obtain ⟨htag, helf, hi, hpointer⟩ := h
    have hne : tagType b.mem tag ≠ multibootTagTypeEnd := by
      rw [helf]
      decide
    obtain ⟨k, -, -, hnext⟩ := htag.next hne
    simp only [readMultibootInfoStep] at hstep
    split at hstep
    · rename_i hlt
      have hnum := (elfNum b.mem tag).isLt
      have hsucc : (i + 1).toNat = i.toNat + 1 :=
        BitVec.toNat_add_of_lt (by rw [show (1 : BitVec 32).toNat = 1 from rfl]; bv_omega)
      cases hstep
      refine ⟨htag, helf, ?_, ?_⟩
      · rw [hsucc]
        exact hlt
      · rw [hsucc, hpointer, entryPointer_succ, BitVec.add_assoc (tag + 20),
          BitVec.add_assoc (tag + 20), BitVec.add_comm (_ * _)]
    · cases hstep
      exact hnext

/-- The pointer to a section. -/
theorem section_within (hinside : HeadersInside b) {tag : BitVec 64} (htag : IsTag b tag)
    (helf : tagType b.mem tag = multibootTagTypeElfSections) {i : Nat}
    (hi : i < (elfNum b.mem tag).toNat) :
    (tag + 20 + BitVec.ofNat 64 i * elfSectionSize b.mem tag).toNat + 40 ≤ b.blockEnd ∧
      b.mbi.toNat ≤ (tag + 20 + BitVec.ofNat 64 i * elfSectionSize b.mem tag).toNat := by
  have hfits : b.blockEnd < 2 ^ 64 := b.fits
  have hne : tagType b.mem tag ≠ multibootTagTypeEnd := by
    rw [helf]
    decide
  obtain ⟨k, hk, rfl, -⟩ := htag.next hne
  have hget : b.tags[k]? = some b.tags[k] := List.getElem?_eq_getElem hk
  have hwithin := b.tag_within (Nat.le_of_lt hk)
  rw [b.tagAt_eq (Nat.le_of_lt hk)] at helf hi hwithin ⊢
  obtain ⟨htype, hsize⟩ := header_at b.headers hget
  rw [htype] at helf
  have hroom := hinside k _ hget helf i hi
  rw [hsize] at hwithin
  have hnum := (elfNum b.mem (tagAddr (b.mbi + 8) b.tags k)).isLt
  have hmul : (BitVec.ofNat 64 i * elfSectionSize b.mem (tagAddr (b.mbi + 8) b.tags k)).toNat =
      i * (elfSectionSize b.mem (tagAddr (b.mbi + 8) b.tags k)).toNat := by
    rw [BitVec.toNat_mul, BitVec.toNat_ofNat, Nat.mod_eq_of_lt (show i < 2 ^ 64 by omega),
      Nat.mod_eq_of_lt (by omega)]
  have hstart : (tagAddr (b.mbi + 8) b.tags k + 20).toNat =
      (tagAddr (b.mbi + 8) b.tags k).toNat + 20 :=
    BitVec.toNat_add_of_lt (by rw [show (20 : BitVec 64).toNat = 20 from rfl]; omega)
  rw [BitVec.toNat_add_of_lt (by rw [hmul, hstart]; omega), hmul, hstart]
  omega

/-- A round of `read_multiboot_info` on the block. -/
theorem infoStep_agrees {mem : Memory} (hagrees : Agrees b mem) (hinside : HeadersInside b)
    (hmapped : b.blockEnd ≤ 2 ^ 30) {s : InfoState} (h : AtTag b s) :
    infoMapped mem s = true ∧ readMultibootInfoStep mem s = readMultibootInfoStep b.mem s := by
  cases s with
  | tag tag r =>
    obtain ⟨k, hk, rfl⟩ : IsTag b tag := h
    obtain ⟨hlow, hroom, -⟩ := tag_room b hk
    refine ⟨decide_eq_true (mapped_of_within hmapped hroom), ?_⟩
    simp only [readMultibootInfoStep]
    rw [(header_agrees hagrees hlow hroom).1, nextTag_agrees hagrees hlow hroom]
  | mmap tag mmap r =>
    obtain ⟨htag, hne⟩ := h
    obtain ⟨k, hk, rfl, -⟩ := htag.next hne
    obtain ⟨hlow, hroom, hfields⟩ := tag_room b (Nat.le_of_lt hk)
    obtain ⟨hend, hentry, -, -⟩ := fields_agree hagrees hlow (hfields hk)
    have htwelve : Mapped (tagAt b.mem k (b.mbi + 8)) 12 :=
      mapped_of_within hmapped (Nat.le_trans (by omega) (hfields hk))
    constructor
    · simp only [infoMapped]
      split
      · exact decide_eq_true htwelve
      · exact decide_eq_true (mapped_of_within hmapped hroom)
    · simp only [readMultibootInfoStep]
      rw [hend, hentry, nextTag_agrees hagrees hlow hroom]
  | elf tag i elf r =>
    obtain ⟨htag, helf, -, rfl⟩ := h
    obtain ⟨k, hk, rfl, -⟩ := htag.next (by rw [helf]; decide)
    obtain ⟨hlow, hroom, hfields⟩ := tag_room b (Nat.le_of_lt hk)
    obtain ⟨-, -, hnum, hsize⟩ := fields_agree hagrees hlow (hfields hk)
    have htwelve : Mapped (tagAt b.mem k (b.mbi + 8)) 12 :=
      mapped_of_within hmapped (Nat.le_trans (by omega) (hfields hk))
    have hsixteen : Mapped (tagAt b.mem k (b.mbi + 8)) 16 :=
      mapped_of_within hmapped (hfields hk)
    simp only [infoMapped, readMultibootInfoStep]
    rw [hnum, hsize, nextTag_agrees hagrees hlow hroom]
    by_cases hi : i < elfNum b.mem (tagAt b.mem k (b.mbi + 8))
    · obtain ⟨hwithin, hfirst⟩ := section_within hinside ⟨k, Nat.le_of_lt hk, rfl⟩ helf hi
      have hforty := mapped_of_within hmapped hwithin
      rw [if_pos hi, if_pos hi, if_pos hi, section_agrees hagrees hfirst hwithin]
      refine ⟨?_, rfl⟩
      rw [decide_eq_true hsixteen, Bool.true_and]
      split
      · exact decide_eq_true (mapped_of_within hmapped (Nat.le_trans (by omega) hwithin))
      · exact decide_eq_true hforty
    · rw [if_neg hi, if_neg hi, if_neg hi]
      exact ⟨decide_eq_true htwelve, rfl⟩

/-- A round of `find_multiboot_tag` on the block. -/
theorem findStep_agrees {mem : Memory} (hagrees : Agrees b mem) (hmapped : b.blockEnd ≤ 2 ^ 30)
    (type : BitVec 16) {tag : BitVec 64} (h : IsTag b tag) :
    tagMapped tag = true ∧
      findMultibootTagStep mem type tag = findMultibootTagStep b.mem type tag := by
  obtain ⟨k, hk, rfl⟩ := h
  obtain ⟨hlow, hroom, -⟩ := tag_room b hk
  refine ⟨decide_eq_true (mapped_of_within hmapped hroom), ?_⟩
  unfold findMultibootTagStep
  rw [(header_agrees hagrees hlow hroom).1, nextTag_agrees hagrees hlow hroom]

theorem isTag_step (type : BitVec 16) {tag tag' : BitVec 64} (h : IsTag b tag)
    (hstep : findMultibootTagStep b.mem type tag = .inl tag') : IsTag b tag' := by
  unfold findMultibootTagStep at hstep
  split at hstep
  · rename_i hne
    split at hstep
    · cases hstep
    · cases hstep
      exact (h.next hne).choose_spec.2.2
  · cases hstep

theorem isTag_first (b : KernelBlock) : IsTag b (b.mbi + 8) := ⟨0, Nat.zero_le _, rfl⟩

end Walks

/-! ## The block in the memory -/

/-- `reserved` after `read_multiboot_info`. -/
def areas (b : KernelBlock) : ReservedAreas :=
  readChain b.mem b.tags.length (b.mbi + 8) (initialAreas b.mbi)

section Ends

variable {env : Environment} {b : KernelBlock} {s : KernelState}
  (hagrees : Agrees b (s.memory env)) (hmapped : b.blockEnd ≤ 2 ^ 30)

include hagrees hmapped

theorem ends_readMultibootInfoM (hinside : HeadersInside b) :
    (readMultibootInfoM env b.mbi).Ends s (.ok (areas b)) s := by
  have hread := readChain_yields b.chain b.entriesEnd (initialAreas b.mbi)
  have hguarded := hread.guarded (e := Halt.pageFault) (P := AtTag b)
    (fun s s' hs hstep => atTag_step hs hstep)
    (fun s hs => infoStep_agrees hagrees hinside hmapped hs) (isTag_first b)
  exact (Prog.ends_get s).bind (Prog.ends_attempt hguarded.returns s)

theorem ends_findMultibootTagM {type : BitVec 16} {p : BitVec 64}
    (hp : Yields (findMultibootTagStep b.mem type) (b.mbi + 8) p) :
    (findMultibootTagM env (b.mbi + 8) type).Ends s (.ok p) s := by
  have hguarded := hp.guarded (e := Halt.pageFault) (P := IsTag b)
    (fun s s' hs hstep => isTag_step type hs hstep)
    (fun s hs => findStep_agrees hagrees hmapped type hs) (isTag_first b)
  exact (Prog.ends_get s).bind (Prog.ends_attempt hguarded.returns s)

end Ends

/-- Where the boot loader has put the block. -/
structure Placed (env : Environment) (b : KernelBlock) (s : KernelState) : Prop where
  holds : Agrees b (s.memory env)
  mapped : b.blockEnd ≤ 2 ^ 30
  offScreen : b.blockEnd ≤ 0xb8000 ∨ 0xb8000 + 4000 ≤ b.mbi.toNat
  /-- Apart from the kernel's own variables and its stack. -/
  apart : ∀ a : BitVec 64, b.mbi.toNat ≤ a.toNat → a.toNat < b.blockEnd → env.own a = false
  inside : HeadersInside b

/-- What is on the screen in the meantime does not matter. -/
theorem Placed.agrees {env : Environment} {b : KernelBlock} {s s' : KernelState}
    (h : Placed env b s) {cs : List (BitVec 8)} (hplain : Plain cs)
    (hfew : (linesOf cs).done.length ≤ 23)
    (hscreen : s'.screen =
      (Screen.screenInit s.screen.framebuffer.bytes).screenClear.screenRun cs) :
    Agrees b (s'.memory env) := by
  intro a hlow hhigh
  have hholds := h.holds a hlow hhigh
  have hoff : (a.toNat : Int) - 0xb8000 < 0 ∨ 4000 ≤ (a.toNat : Int) - 0xb8000 := by
    have hplace := h.offScreen
    omega
  unfold KernelState.memory at hholds ⊢
  rw [h.apart a hlow hhigh, if_neg (by decide)] at hholds ⊢
  rw [hscreen, Screen.bytes_few hoff _ hplain hfew, hholds]

end Utero.Kernel
