/-
  Page numbers, frame numbers and the widths they pass through.

  * `pageIndices_iff`: the index functions take a `frame_t`, 32 bits, and a page number has up
    to 52. They give the indices of the address exactly below 2^44, and above two pages can
    share all four.
  * `frameConverts_iff`: `frame * PAGE_SIZE` is a 32-bit product. A frame number survives the
    way to its address and back exactly below 2^20, that is, for memory below 4 GiB.
-/
import Utero.Mmu.MapPage

namespace Utero.Mmu

open Utero.Lib

/-- A page of the canonical address space. -/
def CanonicalPage (page : BitVec 64) : Prop :=
  page.toNat < 2 ^ 52 ∧ Canonical (pageStartingAddress page)

instance : DecidablePred CanonicalPage := fun _ => inferInstanceAs (Decidable (_ ∧ _))

/-! ## Paths of pages -/

theorem narrow_lt (page : BitVec 64) : (narrow page).toNat < 2 ^ 32 := by
  rw [narrow, BitVec.toNat_setWidth, BitVec.toNat_setWidth]
  omega

theorem pageStartingAddress_toNat {page : BitVec 64} (h : page.toNat < 2 ^ 52) :
    (pageStartingAddress page).toNat = page.toNat * 4096 := by
  rw [pageStartingAddress, BitVec.toNat_mul, pageSize_toNat]
  omega

theorem canonicalPage_of_lt {page : BitVec 64} (h : page.toNat < 2 ^ 35) : CanonicalPage page := by
  refine ⟨by omega, canonical_of_lt ?_⟩
  rw [pageStartingAddress_toNat (by omega)]
  omega

theorem canonicalPage_narrow (page : BitVec 64) : CanonicalPage (narrow page) := by
  have hlt := narrow_lt page
  exact canonicalPage_of_lt (by omega)

/-- The index of a narrowed page in the top table has five bits. -/
theorem narrow_index4 (page : BitVec 64) :
    vaIndex 4 (pageStartingAddress (narrow page)) ≠ 511 := by
  intro h
  have hlt := narrow_lt page
  have htoNat := congrArg BitVec.toNat h
  rw [vaIndex, BitVec.extractLsb'_toNat, pageStartingAddress_toNat (by omega),
    Nat.shiftRight_eq_div_pow] at htoNat
  have h511 : (511 : BitVec 9).toNat = 511 := rfl
  omega

theorem vaOffset_page (page : BitVec 64) : vaOffset (pageStartingAddress page) = 0 := by
  rw [pageStartingAddress_eq]
  apply BitVec.eq_of_getLsbD_eq
  intro k hk
  simp [vaOffset, hk]

/-- A canonical page is determined by its path. -/
theorem page_eq_of_path {p q : BitVec 64} (hp : CanonicalPage p) (hq : CanonicalPage q)
    (h : vaIndices (pageStartingAddress p) = vaIndices (pageStartingAddress q)) : p = q := by
  have hstart : pageStartingAddress p = pageStartingAddress q := by
    simp only [vaIndices, List.cons.injEq, and_true] at h
    rw [← virtAddr_of_canonical hp.2, ← virtAddr_of_canonical hq.2, vaOffset_page, vaOffset_page,
      h.1, h.2.1, h.2.2.1, h.2.2.2]
  have htoNat := congrArg BitVec.toNat hstart
  rw [pageStartingAddress_toNat hp.1, pageStartingAddress_toNat hq.1] at htoNat
  exact BitVec.eq_of_toNat_eq (by omega)

theorem tablePath_head_narrow (page : BitVec 64) : (tablePath (narrow page)).head? ≠ some 511 :=
  fun h => narrow_index4 page (Option.some.inj h)

/-! ## The indices of an address -/

/-- The indices the code computes for a page. -/
def pageIndices (page : BitVec 64) : List (BitVec 64) :=
  let frame := page.setWidth 32
  [p4Index frame, p3Index frame, p2Index frame, p1Index frame]

/-- They are bits 47-39, 38-30, 29-21 and 20-12 of the address. -/
def Decomposes (addr : BitVec 64) : Prop :=
  pageIndices (pageContainingAddress addr) = (vaIndices addr).map (BitVec.setWidth 64)

theorem pageIndices_eq (page : BitVec 64) :
    pageIndices page =
      (vaIndices (pageStartingAddress (narrow page))).map (BitVec.setWidth 64) := by
  simp only [pageIndices, p4Index_narrow, p3Index_narrow, p2Index_narrow, p1Index_narrow,
    lastIndex, vaIndices, List.map_cons, List.map_nil]

theorem indices_widen_inj {is js : List (BitVec 9)}
    (h : is.map (BitVec.setWidth 64) = js.map (BitVec.setWidth 64)) : is = js := by
  refine List.map_injective_iff.mpr ?_ h
  intro i j hij
  have htoNat := congrArg BitVec.toNat hij
  have hi := i.isLt
  have hj := j.isLt
  rw [BitVec.toNat_setWidth, BitVec.toNat_setWidth] at htoNat
  exact BitVec.eq_of_toNat_eq (by omega)

theorem vaIndex_toNat (level : Nat) (va : BitVec 64) :
    (vaIndex level va).toNat = va.toNat / 2 ^ (3 + 9 * level) % 512 := by
  rw [vaIndex, BitVec.extractLsb'_toNat, Nat.shiftRight_eq_div_pow]

theorem canonical_cases {va : BitVec 64} (h : Canonical va) :
    va.toNat < 2 ^ 47 ∨ 2 ^ 64 - 2 ^ 47 ≤ va.toNat := by
  have hto := congrArg BitVec.toNat h
  have hmsb := BitVec.msb_eq_decide (va.setWidth 48)
  rw [BitVec.toNat_signExtend, hmsb] at hto
  simp only [BitVec.toNat_setWidth, decide_eq_true_eq] at hto
  split at hto <;> omega

theorem decomposes_iff {a : BitVec 64} (h : Canonical a) : Decomposes a ↔ a.toNat < 2 ^ 44 := by
  rw [Decomposes, pageIndices_eq]
  constructor
  · intro heq
    have h4 : vaIndex 4 (pageStartingAddress (narrow (pageContainingAddress a))) = vaIndex 4 a :=
      (List.cons.inj (indices_widen_inj heq)).1
    have hto := congrArg BitVec.toNat h4
    have hlt := narrow_lt (pageContainingAddress a)
    rw [vaIndex_toNat, vaIndex_toNat, pageStartingAddress_toNat (by omega)] at hto
    rcases canonical_cases h with hlow | hhigh
    · omega
    · omega
  · intro hlt
    rw [narrow_eq (pageContainingAddress_lt hlt)]
    simp only [vaIndices, vaIndex_page _ (show 1 ≤ 4 by decide),
      vaIndex_page _ (show 1 ≤ 3 by decide), vaIndex_page _ (show 1 ≤ 2 by decide),
      vaIndex_page _ (Nat.le_refl 1)]

/-- Below 2^32 the indices determine the page. -/
theorem page_eq_of_pageIndices {p q : BitVec 64} (hp : p.toNat < 2 ^ 32) (hq : q.toNat < 2 ^ 32)
    (h : pageIndices p = pageIndices q) : p = q := by
  rw [pageIndices_eq, pageIndices_eq, narrow_eq hp, narrow_eq hq] at h
  exact page_eq_of_path (canonicalPage_of_lt (by omega)) (canonicalPage_of_lt (by omega))
    (indices_widen_inj h)

/-- For any two canonical addresses: the indices of their pages are those of the addresses, and
    equal only for equal pages, exactly if both addresses are below 2^44. -/
theorem pageIndices_iff (a b : BitVec 64) (ha : Canonical a) (hb : Canonical b) :
    (Decomposes a ∧ Decomposes b ∧
        (pageIndices (pageContainingAddress a) = pageIndices (pageContainingAddress b) →
          pageContainingAddress a = pageContainingAddress b)) ↔
      a.toNat < 2 ^ 44 ∧ b.toNat < 2 ^ 44 := by
  rw [decomposes_iff ha, decomposes_iff hb]
  constructor
  · rintro ⟨hlow, hlow', -⟩
    exact ⟨hlow, hlow'⟩
  · rintro ⟨hlow, hlow'⟩
    exact ⟨hlow, hlow', page_eq_of_pageIndices (pageContainingAddress_lt hlow)
      (pageContainingAddress_lt hlow')⟩

theorem pageIndices_iff_low :
    Canonical 0x123456789abc ∧ Canonical 0xfffffffffff ∧
    ((Decomposes 0x123456789abc ∧ Decomposes 0xfffffffffff ∧
        (pageIndices (pageContainingAddress 0x123456789abc) =
            pageIndices (pageContainingAddress 0xfffffffffff) →
          pageContainingAddress 0x123456789abc = pageContainingAddress 0xfffffffffff)) ↔
      (0x123456789abc : BitVec 64).toNat < 2 ^ 44 ∧ (0xfffffffffff : BitVec 64).toNat < 2 ^ 44) :=
  ⟨by decide, by decide, pageIndices_iff 0x123456789abc 0xfffffffffff (by decide) (by decide)⟩

/-- At 2^44 all four indices are 0, as they are at 0. -/
theorem pageIndices_collide :
    ¬ (∀ a : BitVec 64, Canonical a → Decomposes a) ∧
    ¬ ∀ a b : BitVec 64, Canonical a → Canonical b →
      pageIndices (pageContainingAddress a) = pageIndices (pageContainingAddress b) →
        pageContainingAddress a = pageContainingAddress b := by
  constructor
  · intro h
    have hlow := (decomposes_iff (a := 0x100000000000) (by decide)).mp (h _ (by decide))
    exact absurd hlow (by decide)
  · intro h
    exact absurd (h 0 0x100000000000 (by decide) (by decide) (by decide)) (by decide)

/-! ## Frames and their addresses -/

/-- Every use of the address of frame `f` gets the frame back: `frame_containing_address`, the
    page of `identity_map`, and the address at which `mmap_deallocate_frame` clears. -/
structure FrameConverts (f : Frame) : Prop where
  contains : frameContainingAddress (frameStartingAddress f) = f
  identity : ∀ fuel s flags,
    identityMap fuel s f flags = mapPageToFrame fuel s (f.setWidth 64) f flags
  start : (frameStartingAddress f).toNat = f.toNat * 4096
  clears : ∀ s, mmapDeallocateFrame s f = clearWords (BitVec.ofNat 64 (f.toNat * 4096)) 4096 0 s

theorem frameStartingAddress_toNat (f : Frame) :
    (frameStartingAddress f).toNat = f.toNat * 4096 % 2 ^ 32 := by
  have h4096 : (4096#32).toNat = 4096 := rfl
  rw [frameStartingAddress, BitVec.toNat_setWidth, BitVec.toNat_mul, h4096]
  omega

theorem frameContainingAddress_toNat (addr : BitVec 64) :
    (frameContainingAddress addr).toNat = addr.toNat / 4096 % 2 ^ 32 := by
  rw [frameContainingAddress, BitVec.toNat_setWidth, BitVec.toNat_udiv, pageSize_toNat]

theorem contains_iff (f : Frame) :
    frameContainingAddress (frameStartingAddress f) = f ↔ f.toNat < 2 ^ 20 := by
  have hlt := f.isLt
  rw [← BitVec.toNat_inj, frameContainingAddress_toNat, frameStartingAddress_toNat]
  omega

/-- The frame numbers whose address can be turned back are those below 2^20. -/
theorem frameConverts_iff (f : Frame) : FrameConverts f ↔ f.toNat < 2 ^ 20 := by
  constructor
  · intro h
    exact (contains_iff f).mp h.contains
  · intro hlow
    have hstart : (frameStartingAddress f).toNat = f.toNat * 4096 := by
      rw [frameStartingAddress_toNat]
      omega
    refine ⟨(contains_iff f).mpr hlow, ?_, hstart, ?_⟩
    · intro fuel s flags
      have hpage : pageContainingAddress (frameStartingAddress f) = f.setWidth 64 := by
        apply BitVec.eq_of_toNat_eq
        rw [pageContainingAddress, BitVec.toNat_udiv, pageSize_toNat, hstart,
          BitVec.toNat_setWidth]
        omega
      rw [identityMap, hpage]
    · intro s
      have haddr : frameStartingAddress f = BitVec.ofNat 64 (f.toNat * 4096) := by
        apply BitVec.eq_of_toNat_eq
        rw [hstart, BitVec.toNat_ofNat]
        omega
      rw [mmapDeallocateFrame, haddr, pageSize_toNat]

/-- The frame at 4 GiB comes back as frame 0. -/
theorem frameConverts_fails : ¬ ∀ f : Frame, FrameConverts f := by
  intro h
  exact absurd (h 0x100000).contains (by decide)

end Utero.Mmu
