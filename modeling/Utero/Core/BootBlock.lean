/-
  Well-formed multiboot2 blocks, as a boot loader writes them.

  A `MultibootBlock` is a memory in which the headers of a list of tags are laid out one after
  the other from `mbi + 8` on, each tag padded to 8 bytes, with an END tag of size 8 after the
  last. `readMultibootInfo_extent`: `read_multiboot_info` returns exactly the bytes of the
  block as the multiboot range, so the MMAP tag that `find_multiboot_tag` returns lies in it.

  The entry loop of an MMAP tag compares 64-bit pointers. It can run past the top of the
  address space when the tag ends less than `entry_size` below it, so the theorem asks that
  it ends; a tag with that much room above it satisfies this (`entriesEnd_of_room`).
-/
import Mathlib.Algebra.GroupWithZero.Nat
import Utero.Core.Boot

namespace Utero.Core

open Utero.Lib Utero.Mmu

/-! ## Layout -/

/-- The header of a tag, `multiboot_tag_t`. -/
structure Tag where
  type : BitVec 32
  size : BitVec 32
  deriving DecidableEq

/-- The bytes the tag takes up. -/
def Tag.padded (t : Tag) : Nat := (t.size.toNat + 7) / 8 * 8

def tagsLength (tags : List Tag) : Nat := (tags.map Tag.padded).sum

theorem tagsLength_cons (t : Tag) (ts : List Tag) :
    tagsLength (t :: ts) = t.padded + tagsLength ts := by
  simp [tagsLength]

/-- The tags stand in memory from `a` on, and an END tag of size 8 after them. -/
def LaidOut (mem : Memory) : BitVec 64 → List Tag → Prop
  | a, [] => tagType mem a = multibootTagTypeEnd ∧ tagSize mem a = 8
  | a, t :: ts =>
    tagType mem a = t.type ∧ tagSize mem a = t.size ∧
      LaidOut mem (a + BitVec.ofNat 64 t.padded) ts

/-- The headers of the tags stand in memory from `a` on, and after them a tag of type END. -/
def Headers (mem : Memory) : BitVec 64 → List Tag → Prop
  | a, [] => tagType mem a = multibootTagTypeEnd
  | a, t :: ts =>
    tagType mem a = t.type ∧ tagSize mem a = t.size ∧
      Headers mem (a + BitVec.ofNat 64 t.padded) ts

theorem LaidOut.headers {mem : Memory} {a : BitVec 64} {tags : List Tag}
    (h : LaidOut mem a tags) : Headers mem a tags := by
  induction tags generalizing a with
  | nil => exact h.1
  | cons t ts ih => exact ⟨h.1, h.2.1, ih h.2.2⟩

/-- The address of tag `k` of a list that starts at `a`. After the last one stands END. -/
def tagAddr (a : BitVec 64) (tags : List Tag) (k : Nat) : BitVec 64 :=
  a + BitVec.ofNat 64 (tagsLength (tags.take k))

theorem tagAddr_succ (a : BitVec 64) (t : Tag) (ts : List Tag) (k : Nat) :
    tagAddr a (t :: ts) (k + 1) = tagAddr (a + BitVec.ofNat 64 t.padded) ts k := by
  rw [tagAddr, tagAddr, List.take_succ_cons, tagsLength_cons, BitVec.ofNat_add, BitVec.add_assoc]

structure MultibootBlock where
  mem : Memory
  mbi : BitVec 64
  tags : List Tag
  aligned : mbi &&& 7 = 0
  laidOut : LaidOut mem (mbi + 8) tags
  noEnd : ∀ t ∈ tags, t.type ≠ multibootTagTypeEnd
  sizes : ∀ t ∈ tags, 8 ≤ t.size.toNat ∧ t.size.toNat ≤ 2 ^ 32 - 8
  entrySizes : ∀ k < tags.length, tagType mem (tagAt mem k (mbi + 8)) = multibootTagTypeMmap →
    24 ≤ (mmapEntrySize mem (tagAt mem k (mbi + 8))).toNat
  fits : mbi.toNat + 8 + tagsLength tags + 8 < 2 ^ 64

/-! ## The walk over the layout -/

theorem getLsbD_seven (i : Nat) : (7 : BitVec 32).getLsbD i = decide (i < 3) := by
  rw [show (7 : BitVec 32) = BitVec.ofNat 32 (2 ^ 3 - 1) from rfl, BitVec.getLsbD_ofNat,
    Nat.testBit_two_pow_sub_one]
  by_cases hi : i < 3
  · simp [hi]
    omega
  · simp [hi]

/-- Clearing the low three bits. -/
theorem and_not_seven (x : BitVec 32) : x &&& ~~~(7 : BitVec 32) = (x >>> 3) <<< 3 := by
  apply BitVec.eq_of_getLsbD_eq
  intro i hi
  simp only [BitVec.getLsbD_and, BitVec.getLsbD_not, BitVec.getLsbD_shiftLeft,
    BitVec.getLsbD_ushiftRight, getLsbD_seven, hi, decide_true, Bool.true_and]
  by_cases h : i < 3
  · simp [h]
  · rw [show 3 + (i - 3) = i by omega]
    simp [h]

theorem nextTag_eq {mem : Memory} {a : BitVec 64} {t : Tag} (hsize : tagSize mem a = t.size)
    (hle : t.size.toNat ≤ 2 ^ 32 - 8) : nextTag mem a = a + BitVec.ofNat 64 t.padded := by
  have hadd : (t.size + 7).toNat = t.size.toNat + 7 := by
    rw [BitVec.toNat_add, show (7 : BitVec 32).toNat = 7 from rfl]
    omega
  have hround : ((t.size + 7) &&& ~~~(7 : BitVec 32)).setWidth 64 = BitVec.ofNat 64 t.padded := by
    apply BitVec.eq_of_toNat_eq
    rw [and_not_seven]
    simp only [BitVec.toNat_setWidth, BitVec.toNat_shiftLeft, BitVec.toNat_ushiftRight, hadd,
      BitVec.toNat_ofNat, Nat.shiftLeft_eq, Nat.shiftRight_eq_div_pow, Tag.padded]
    omega
  rw [nextTag, hsize, hround]

section Headers

variable {mem : Memory} {a : BitVec 64} {tags : List Tag} (h : Headers mem a tags)
  (hsizes : ∀ t ∈ tags, t.size.toNat ≤ 2 ^ 32 - 8)

include h hsizes

theorem chain_of_headers (hend : ∀ t ∈ tags, t.type ≠ multibootTagTypeEnd) :
    Chain mem tags.length a := by
  induction tags generalizing a with
  | nil => exact h
  | cons t ts ih =>
    obtain ⟨htype, hsize, hrest⟩ := h
    constructor
    · rw [htype]
      exact hend t (List.mem_cons_self ..)
    · rw [nextTag_eq hsize (hsizes t (List.mem_cons_self ..))]
      exact ih hrest (fun u hu => hsizes u (List.mem_cons_of_mem _ hu))
        (fun u hu => hend u (List.mem_cons_of_mem _ hu))

/-- The rounded sizes lead from tag to tag. -/
theorem tagAt_headers {k : Nat} (hk : k ≤ tags.length) : tagAt mem k a = tagAddr a tags k := by
  induction k generalizing a tags with
  | zero => simp [tagAt, tagAddr, tagsLength]
  | succ k ih =>
    cases tags with
    | nil => exact absurd hk (by simp)
    | cons t ts =>
      obtain ⟨-, hsize, hrest⟩ := h
      rw [tagAt, nextTag_eq hsize (hsizes t (List.mem_cons_self ..)), tagAddr_succ]
      exact ih hrest (fun u hu => hsizes u (List.mem_cons_of_mem _ hu))
        (Nat.le_of_succ_le_succ hk)

omit hsizes in
theorem header_at {k : Nat} {t : Tag} (ht : tags[k]? = some t) :
    tagType mem (tagAddr a tags k) = t.type ∧ tagSize mem (tagAddr a tags k) = t.size := by
  induction k generalizing a tags with
  | zero =>
    cases tags with
    | nil => cases ht
    | cons u us =>
      obtain rfl : u = t := by simpa using ht
      have hfirst : tagAddr a (u :: us) 0 = a := by simp [tagAddr, tagsLength]
      rw [hfirst]
      exact ⟨h.1, h.2.1⟩
  | succ k ih =>
    cases tags with
    | nil => cases ht
    | cons u us =>
      rw [tagAddr_succ]
      exact ih h.2.2 (by simpa using ht)

end Headers

theorem LaidOut.size_end {mem : Memory} {a : BitVec 64} {tags : List Tag}
    (h : LaidOut mem a tags) : tagSize mem (tagAddr a tags tags.length) = 8 := by
  induction tags generalizing a with
  | nil =>
    have hfirst : tagAddr a [] 0 = a := by simp [tagAddr, tagsLength]
    exact (congrArg (tagSize mem) hfirst).trans h.2
  | cons t ts ih =>
    rw [List.length_cons, tagAddr_succ]
    exact ih h.2.2

theorem readTag_multibootStart (mem : Memory) (tag : BitVec 64) (r : ReservedAreas) :
    (readTag mem tag r).multibootStart = r.multibootStart := by
  unfold readTag
  split
  · generalize (elfNum mem tag).toNat = n
    generalize tag + 20 = elf
    induction n generalizing elf r with
    | zero => rfl
    | succ n ih =>
      rw [elfSections, ih]
      unfold elfSection
      dsimp only
      split
      · rfl
      · split <;> split <;> rfl
  · rfl

/-- The multiboot range of the result. -/
theorem readChain_range (mem : Memory) (n : Nat) (tag : BitVec 64) (r : ReservedAreas) :
    (readChain mem n tag r).multibootStart = r.multibootStart ∧
      (readChain mem n tag r).multibootEnd = nextTag mem (tagAt mem n tag) := by
  induction n generalizing tag r with
  | zero => exact ⟨rfl, rfl⟩
  | succ n ih =>
    rw [readChain]
    obtain ⟨hstart, hend⟩ := ih (nextTag mem tag) (readTag mem tag r)
    exact ⟨hstart.trans (readTag_multibootStart mem tag r), hend⟩

theorem tagsLength_take_le (tags : List Tag) (k : Nat) :
    tagsLength (tags.take k) ≤ tagsLength tags := by
  have hsplit := congrArg tagsLength (List.take_append_drop k tags)
  unfold tagsLength at hsplit ⊢
  rw [List.map_append, List.sum_append] at hsplit
  omega

theorem take_succ_length_le (tags : List Tag) {k : Nat} {t : Tag} (ht : tags[k]? = some t) :
    tagsLength (tags.take k) + t.padded ≤ tagsLength tags := by
  induction tags generalizing k with
  | nil => simp at ht
  | cons u us ih =>
    rw [tagsLength_cons]
    cases k with
    | zero =>
      obtain rfl : u = t := by simpa using ht
      simp [tagsLength]
    | succ k =>
      have hrest := ih (k := k) (by simpa using ht)
      rw [List.take_succ_cons, tagsLength_cons]
      omega

/-! ## The extent of a block -/

namespace MultibootBlock

variable (b : MultibootBlock)

/-- The address after the block. -/
def blockEnd : Nat := b.mbi.toNat + 8 + tagsLength b.tags + 8

theorem headers : Headers b.mem (b.mbi + 8) b.tags := b.laidOut.headers

theorem sizes_le : ∀ t ∈ b.tags, t.size.toNat ≤ 2 ^ 32 - 8 := fun t ht => (b.sizes t ht).2

theorem chain : Chain b.mem b.tags.length (b.mbi + 8) :=
  chain_of_headers b.headers b.sizes_le b.noEnd

theorem tagAt_eq {k : Nat} (hk : k ≤ b.tags.length) :
    tagAt b.mem k (b.mbi + 8) = tagAddr (b.mbi + 8) b.tags k :=
  tagAt_headers b.headers b.sizes_le hk

theorem tagAddr_toNat (k : Nat) :
    (tagAddr (b.mbi + 8) b.tags k).toNat = b.mbi.toNat + 8 + tagsLength (b.tags.take k) := by
  have hfits := b.fits
  have hle := tagsLength_take_le b.tags k
  rw [tagAddr, BitVec.toNat_add, BitVec.toNat_add, BitVec.toNat_ofNat,
    show (8 : BitVec 64).toNat = 8 from rfl]
  omega

/-- Every tag, END included, lies in the block. -/
theorem tag_within {k : Nat} (hk : k ≤ b.tags.length) :
    b.mbi.toNat ≤ (tagAt b.mem k (b.mbi + 8)).toNat ∧
      (tagAt b.mem k (b.mbi + 8)).toNat + (tagSize b.mem (tagAt b.mem k (b.mbi + 8))).toNat ≤
        b.blockEnd := by
  rw [b.tagAt_eq hk]
  unfold blockEnd
  rcases Nat.lt_or_eq_of_le hk with hlt | rfl
  · have hget : b.tags[k]? = some b.tags[k] := List.getElem?_eq_getElem hlt
    have hle := take_succ_length_le b.tags hget
    have hpad : b.tags[k].size.toNat ≤ b.tags[k].padded := by
      unfold Tag.padded
      omega
    rw [(header_at b.headers hget).2, b.tagAddr_toNat]
    omega
  · rw [b.laidOut.size_end, b.tagAddr_toNat, List.take_length,
      show (8 : BitVec 32).toNat = 8 from rfl]
    omega

theorem nextTag_last :
    (nextTag b.mem (tagAt b.mem b.tags.length (b.mbi + 8))).toNat = b.blockEnd := by
  have hfits := b.fits
  have hnext := nextTag_eq (t := ⟨multibootTagTypeEnd, 8⟩) b.laidOut.size_end (by decide)
  have haddr := b.tagAddr_toNat b.tags.length
  rw [List.take_length] at haddr
  rw [b.tagAt_eq (Nat.le_refl _), hnext, BitVec.toNat_add, haddr, BitVec.toNat_ofNat, Tag.padded,
    show (8 : BitVec 32).toNat = 8 from rfl, blockEnd]
  omega

end MultibootBlock

/-- A tag that ends `entry_size` or more below the top of the address space. -/
theorem entriesEnd_of_room {mem : Memory} {tag : BitVec 64}
    (hentry : 24 ≤ (mmapEntrySize mem tag).toNat)
    (hroom : tag.toNat + (tagSize mem tag).toNat + (mmapEntrySize mem tag).toNat ≤ 2 ^ 64) :
    EntriesEnd mem tag (tag + 16) := by
  obtain ⟨e, he⟩ : ∃ e, e = (mmapEntrySize mem tag).toNat := ⟨_, rfl⟩
  obtain ⟨k, hlow, hhigh⟩ : ∃ k, (tagSize mem tag).toNat ≤ 16 + k * e ∧
      (k * e = 0 ∨ 16 + k * e < (tagSize mem tag).toNat + e) := by
    rcases Nat.lt_or_ge 16 (tagSize mem tag).toNat with hlt | hge
    · refine ⟨((tagSize mem tag).toNat - 16 + (e - 1)) / e, ?_⟩
      have hdiv := Nat.div_add_mod ((tagSize mem tag).toNat - 16 + (e - 1)) e
      have hmod := Nat.mod_lt ((tagSize mem tag).toNat - 16 + (e - 1)) (y := e) (by omega)
      rw [Nat.mul_comm] at hdiv
      omega
    · exact ⟨0, by omega, Or.inl (Nat.zero_mul e)⟩
  have hke : k * e < 2 ^ 64 := by omega
  have hk : k < 2 ^ 64 := by
    refine Nat.lt_of_le_of_lt ?_ hke
    exact Nat.le_mul_of_pos_right k (by omega)
  have hmul : (BitVec.ofNat 64 k * mmapEntrySize mem tag).toNat = k * e := by
    rw [BitVec.toNat_mul, BitVec.toNat_ofNat, Nat.mod_eq_of_lt hk, ← he, Nat.mod_eq_of_lt hke]
  have hsize : ((tagSize mem tag).setWidth 64).toNat = (tagSize mem tag).toNat := by
    have := (tagSize mem tag).isLt
    rw [BitVec.toNat_setWidth]
    omega
  refine ⟨k, ?_⟩
  rw [BitVec.le_def, tagEnd]
  simp only [BitVec.toNat_add, hmul, hsize, show (16 : BitVec 64).toNat = 16 from rfl]
  omega

/-- So on a block that ends 4 GiB or more below the top every entry loop ends. -/
theorem MultibootBlock.mmapLoopsEnd (b : MultibootBlock) (h : b.blockEnd + 2 ^ 32 ≤ 2 ^ 64) :
    MmapLoopsEnd b.mem b.tags.length (b.mbi + 8) := by
  intro k hk htype
  have hwithin := b.tag_within (Nat.le_of_lt hk)
  have hsize : (mmapEntrySize b.mem (tagAt b.mem k (b.mbi + 8))).toNat < 2 ^ 32 := by
    have := (load32 b.mem (tagAt b.mem k (b.mbi + 8) + 8)).isLt
    rw [mmapEntrySize, BitVec.toNat_setWidth]
    omega
  exact entriesEnd_of_room (b.entrySizes k hk htype) (by omega)

/-- The bytes of the tag lie in the multiboot range. -/
def TagWithin (mem : Memory) (res : ReservedAreas) (tag : BitVec 64) : Prop :=
  res.multibootStart.toNat ≤ tag.toNat ∧
    tag.toNat + (tagSize mem tag).toNat ≤ res.multibootEnd.toNat

/-- On a well-formed block whose entry loops end, `read_multiboot_info` ends with the block as
    the multiboot range: from `mbi` to `mbi` + 8 + the padded tags and END. Every tag lies in
    it, and so does the MMAP tag that `find_multiboot_tag` returns. -/
theorem readMultibootInfo_extent (b : MultibootBlock)
    (hmmap : MmapLoopsEnd b.mem b.tags.length (b.mbi + 8)) :
    ∃ res p, Returns (fun n => readMultibootInfo b.mem n b.mbi) res ∧
      res.multibootStart = b.mbi ∧
      res.multibootEnd.toNat = b.mbi.toNat + 8 + tagsLength b.tags + 8 ∧
      (∀ k ≤ b.tags.length, TagWithin b.mem res (tagAt b.mem k (b.mbi + 8))) ∧
      Returns (fun n => findMultibootTag b.mem n (b.mbi + 8) 6) p ∧
      (p ≠ 0 → tagType b.mem p = multibootTagTypeMmap ∧ TagWithin b.mem res p) := by
  obtain ⟨p, hp, hfirst⟩ := findMultibootTag_yields b.chain 6
  have hread := (readChain_yields b.chain hmmap (initialAreas b.mbi)).returns
  obtain ⟨hstart, hend⟩ :=
    readChain_range b.mem b.tags.length (b.mbi + 8) (initialAreas b.mbi)
  have hendNat : (readChain b.mem b.tags.length (b.mbi + 8)
      (initialAreas b.mbi)).multibootEnd.toNat = b.blockEnd := by
    rw [hend, b.nextTag_last]
  have hwithin : ∀ k ≤ b.tags.length, TagWithin b.mem
      (readChain b.mem b.tags.length (b.mbi + 8) (initialAreas b.mbi))
      (tagAt b.mem k (b.mbi + 8)) := by
    intro k hk
    unfold TagWithin
    rw [hstart, hendNat]
    exact b.tag_within hk
  refine ⟨_, p, hread, hstart, hendNat, hwithin, hp.returns, ?_⟩
  rcases hfirst with ⟨k, hk, htype, -, rfl⟩ | ⟨-, rfl⟩
  · intro _
    exact ⟨htype, hwithin k (Nat.le_of_lt hk)⟩
  · intro hne
    exact absurd rfl hne

/-- A memory map with one entry, at 4 KiB. -/
def sampleBlock : MultibootBlock where
  mem a := if a = 0x1008 then 6 else if a = 0x100c then 40 else if a = 0x1010 then 24
    else if a = 0x1034 then 8 else 0
  mbi := 0x1000
  tags := [⟨multibootTagTypeMmap, 40⟩]
  aligned := by decide
  laidOut := ⟨by decide, by decide, by decide, by decide⟩
  noEnd := by decide
  sizes := by decide
  entrySizes := by decide
  fits := by decide

theorem readMultibootInfo_extent_sampleBlock :
    ∃ res p, Returns (fun n => readMultibootInfo sampleBlock.mem n sampleBlock.mbi) res ∧
      res.multibootStart = sampleBlock.mbi ∧
      res.multibootEnd.toNat = sampleBlock.mbi.toNat + 8 + tagsLength sampleBlock.tags + 8 ∧
      (∀ k ≤ sampleBlock.tags.length,
        TagWithin sampleBlock.mem res (tagAt sampleBlock.mem k (sampleBlock.mbi + 8))) ∧
      Returns (fun n => findMultibootTag sampleBlock.mem n (sampleBlock.mbi + 8) 6) p ∧
      (p ≠ 0 → tagType sampleBlock.mem p = multibootTagTypeMmap ∧
        TagWithin sampleBlock.mem res p) :=
  readMultibootInfo_extent sampleBlock (sampleBlock.mmapLoopsEnd (by decide))

def topMemory : Memory := fun a =>
  if a = 0xffffffffffffffc8 then 6 else if a = 0xffffffffffffffcc then 24
  else if a = 0xffffffffffffffd3 then 0x80 else if a = 0xffffffffffffffe4 then 8 else 0

def topMbi : BitVec 64 := 0xffffffffffffffc0

/-- A memory map at the top of the address space, with entries of 2 GiB. -/
def topBlock : MultibootBlock where
  mem := topMemory
  mbi := topMbi
  tags := [⟨multibootTagTypeMmap, 24⟩]
  aligned := by decide
  laidOut := ⟨by decide, by decide, by decide, by decide⟩
  noEnd := by decide
  sizes := by decide
  entrySizes := by decide
  fits := by decide

theorem topMemory_tagType :
    tagType topMemory (topMbi + 8) = multibootTagTypeMmap := by
  decide

/-- Steps of 2 GiB from 40 bytes below the top never meet the last 32 bytes. -/
theorem step_below_top (k : Nat) :
    (-40 + BitVec.ofNat 64 k * 0x80000000 : BitVec 64).toNat < 2 ^ 64 - 32 := by
  have hstart : (-40 : BitVec 64).toNat = 2 ^ 64 - 40 := rfl
  have hsize : (0x80000000 : BitVec 64).toNat = 2 ^ 31 := rfl
  rw [BitVec.toNat_add, BitVec.toNat_mul, hstart, hsize, BitVec.toNat_ofNat]
  omega

theorem topMemory_entries : ¬ EntriesEnd topMemory (topMbi + 8) (topMbi + 8 + 16) := by
  rintro ⟨k, hk⟩
  have hend : tagEnd topMemory (topMbi + 8) = -32 := by decide
  have hsize : mmapEntrySize topMemory (topMbi + 8) = 0x80000000 := by decide
  have hstart : topMbi + 8 + 16 = -40 := by decide
  have htop : (-32 : BitVec 64).toNat = 2 ^ 64 - 32 := rfl
  have hlt := step_below_top k
  rw [hend, hsize, hstart, BitVec.le_def] at hk
  omega

theorem readMultibootInfo_topBlock :
    ¬ ∀ b : MultibootBlock, ∃ res, Returns (fun n => readMultibootInfo b.mem n b.mbi) res := by
  intro h
  obtain ⟨n, hchain, hmmap⟩ := (readMultibootInfo_iff topMemory topMbi).mp (h topBlock)
  cases n with
  | zero =>
    have hend : tagType topMemory (topMbi + 8) = multibootTagTypeEnd := hchain
    rw [topMemory_tagType] at hend
    exact absurd hend (by decide)
  | succ n =>
    have hentries := hmmap 0 (Nat.succ_pos n)
    rw [tagAt] at hentries
    exact topMemory_entries (hentries topMemory_tagType)

end Utero.Core
