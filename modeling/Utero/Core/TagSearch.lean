/-
  `find_multiboot_tag` as a search.

  A `TagList` is a list of tags in memory as the multiboot2 format has it: each tag starts where
  the one before, padded to 8 bytes, ends, and a tag of type END comes after the last. What
  stands between the headers is arbitrary, and so is the size of the END tag.

  `findMultibootTag_finds`: the search ends with the address of the first tag of the type, or
  with 0, and what it returns depends on the headers of the list only.
-/
import Utero.Core.BootBlock

namespace Utero.Core

open Utero.Lib

structure TagList where
  mem : Memory
  first : BitVec 64
  tags : List Tag
  notNull : first ≠ 0
  headers : Headers mem first tags
  noEnd : ∀ t ∈ tags, t.type ≠ multibootTagTypeEnd
  sizes : ∀ t ∈ tags, 8 ≤ t.size.toNat ∧ t.size.toNat ≤ 2 ^ 32 - 8
  fits : first.toNat + tagsLength tags + 8 ≤ 2 ^ 64

theorem MultibootBlock.first_toNat (b : MultibootBlock) :
    (b.mbi + 8).toNat = b.mbi.toNat + 8 := by
  have hfits := b.fits
  rw [BitVec.toNat_add, show (8 : BitVec 64).toNat = 8 from rfl]
  omega

/-- The tags of a block. -/
def MultibootBlock.tagList (b : MultibootBlock) : TagList where
  mem := b.mem
  first := b.mbi + 8
  tags := b.tags
  notNull := by
    have hfirst := b.first_toNat
    intro heq
    rw [heq, show (0 : BitVec 64).toNat = 0 from rfl] at hfirst
    omega
  headers := b.headers
  noEnd := b.noEnd
  sizes := b.sizes
  fits := by
    have hfits := b.fits
    have hfirst := b.first_toNat
    omega

namespace TagList

variable (l : TagList)

/-- The address of tag `k`; the END tag is the one after the last. -/
def address (k : Nat) : BitVec 64 := tagAddr l.first l.tags k

/-- The index of the first tag of the type. -/
def indexOf (type : BitVec 16) : Option Nat :=
  l.tags.findIdx? fun t => t.type = type.setWidth 32

/-- The address of the first tag of the type, or 0. -/
def firstOfType (type : BitVec 16) : BitVec 64 :=
  match l.indexOf type with
  | some k => l.address k
  | none => 0

/-- The other memory has the same bytes in the headers of the tags and of END. -/
def SameHeaders (mem' : Memory) : Prop :=
  ∀ k ≤ l.tags.length, ∀ i < (8 : BitVec 64), mem' (l.address k + i) = l.mem (l.address k + i)

theorem sizes_le : ∀ t ∈ l.tags, t.size.toNat ≤ 2 ^ 32 - 8 := fun t ht => (l.sizes t ht).2

theorem chain : Chain l.mem l.tags.length l.first :=
  chain_of_headers l.headers l.sizes_le l.noEnd

theorem tagAt_eq {k : Nat} (hk : k ≤ l.tags.length) :
    tagAt l.mem k l.first = l.address k :=
  tagAt_headers l.headers l.sizes_le hk

theorem address_ne_zero (k : Nat) : l.address k ≠ 0 := by
  have hfits := l.fits
  have hle := tagsLength_take_le l.tags k
  have hpos : l.first.toNat ≠ 0 := fun h0 => l.notNull (BitVec.eq_of_toNat_eq h0)
  intro heq
  have hnat := congrArg BitVec.toNat heq
  rw [address, tagAddr, BitVec.toNat_add, BitVec.toNat_ofNat,
    show (0 : BitVec 64).toNat = 0 from rfl] at hnat
  omega

theorem type_at {k : Nat} (hk : k < l.tags.length) :
    tagType l.mem (tagAt l.mem k l.first) = l.tags[k].type := by
  rw [l.tagAt_eq (Nat.le_of_lt hk)]
  exact (header_at l.headers (List.getElem?_eq_getElem hk)).1

/-- What the search should return, by the list. -/
theorem firstOfType_eq {type : BitVec 16} {p : BitVec 64}
    (h : FirstOfType l.mem l.tags.length l.first (type.setWidth 32) p) :
    p = l.firstOfType type := by
  rcases h with ⟨k, hk, htype, hbefore, rfl⟩ | ⟨hnone, rfl⟩
  · have hindex : l.indexOf type = some k := by
      refine List.findIdx?_eq_some_iff_getElem.mpr ⟨hk, ?_, fun j hj => ?_⟩
      · rw [l.type_at hk] at htype
        simpa using htype
      · have hne := hbefore j hj
        rw [l.type_at (by omega)] at hne
        simpa using hne
    rw [firstOfType, hindex, l.tagAt_eq (Nat.le_of_lt hk)]
  · have hindex : l.indexOf type = none := by
      refine List.findIdx?_eq_none_iff.mpr fun t ht => ?_
      obtain ⟨k, hk, rfl⟩ := List.getElem_of_mem ht
      have hne := hnone k hk
      rw [l.type_at hk] at hne
      simpa using hne
    rw [firstOfType, hindex]

theorem firstOfType_eq_zero_iff (type : BitVec 16) :
    l.firstOfType type = 0 ↔ ∀ t ∈ l.tags, t.type ≠ type.setWidth 32 := by
  have hnone : l.indexOf type = none ↔ ∀ t ∈ l.tags, t.type ≠ type.setWidth 32 := by
    rw [indexOf, List.findIdx?_eq_none_iff]
    simp
  rw [← hnone, firstOfType]
  cases l.indexOf type with
  | none => simp
  | some k => exact iff_of_false (l.address_ne_zero k) (by simp)

theorem SameHeaders.step_eq {l : TagList} {mem' : Memory} (h : l.SameHeaders mem') {k : Nat}
    (hk : k ≤ l.tags.length) (type : BitVec 16) :
    findMultibootTagStep mem' type (l.address k) =
      findMultibootTagStep l.mem type (l.address k) := by
  have hbyte := h k hk
  have htype : tagType mem' (l.address k) = tagType l.mem (l.address k) := by
    have h0 := hbyte 0#64 (by decide)
    rw [BitVec.add_zero] at h0
    unfold tagType load32
    rw [h0, hbyte 1 (by decide), hbyte 2 (by decide), hbyte 3 (by decide)]
  have hsize : tagSize mem' (l.address k) = tagSize l.mem (l.address k) := by
    unfold tagSize load32
    simp only [BitVec.add_assoc]
    rw [hbyte 4 (by decide), hbyte (4 + 1) (by decide), hbyte (4 + 2) (by decide),
      hbyte (4 + 3) (by decide)]
  unfold findMultibootTagStep nextTag
  rw [htype, hsize]

end TagList

/-- On every list of tags and for every type, `find_multiboot_tag` ends with the address of the
    first tag of the type, which is 0 exactly if there is none and so for END. On its way it
    stands at tags of the list and at most at END, and memory with the same headers gives the
    same run. -/
theorem findMultibootTag_finds (l : TagList) (type : BitVec 16) :
    Returns (fun n => findMultibootTag l.mem n l.first type) (l.firstOfType type) ∧
      (l.firstOfType type = 0 ↔ ∀ t ∈ l.tags, t.type ≠ type.setWidth 32) ∧
      (type.setWidth 32 = multibootTagTypeEnd → l.firstOfType type = 0) ∧
      (∀ t, Visits (findMultibootTagStep l.mem type) l.first t →
        ∃ k ≤ l.tags.length, t = l.address k) ∧
      ∀ mem', l.SameHeaders mem' → ∀ n,
        findMultibootTag mem' n l.first type = findMultibootTag l.mem n l.first type := by
  have hvisits : ∀ t, Visits (findMultibootTagStep l.mem type) l.first t →
      ∃ k ≤ l.tags.length, t = l.address k := by
    intro t ht
    obtain ⟨k, hk, rfl⟩ := findVisits_of_chain l.chain ht
    exact ⟨k, hk, l.tagAt_eq hk⟩
  have hzero := l.firstOfType_eq_zero_iff type
  refine ⟨?_, hzero, ?_, hvisits, ?_⟩
  · obtain ⟨p, hp, hfirst⟩ := findMultibootTag_yields l.chain type
    rw [← l.firstOfType_eq hfirst]
    exact hp.returns
  · intro hend
    rw [hzero, hend]
    exact l.noEnd
  · intro mem' hsame n
    refine loop_congr ?_ n
    intro t ht
    obtain ⟨k, hk, rfl⟩ := hvisits t ht
    exact hsame.step_eq hk type

theorem findMultibootTag_finds_sampleBlock :
    Returns (fun n => findMultibootTag sampleBlock.mem n (sampleBlock.mbi + 8) 6) 0x1008 ∧
      Returns (fun n => findMultibootTag sampleBlock.mem n (sampleBlock.mbi + 8) 9) 0 :=
  ⟨(findMultibootTag_finds sampleBlock.tagList 6).1,
    (findMultibootTag_finds sampleBlock.tagList 9).1⟩

end Utero.Core
