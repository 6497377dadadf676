/-
  One call of `mmap_allocate_frame`.

  `Selects s k c`: the first eligible chunk from ordinal `next_free_frame` on is `c`, with
  ordinal `k`. A chunk is eligible if its entry is not RESERVED and its start lies outside
  both closed reserved ranges. `allocate_returns`: if `c` starts below 4 GiB, the call ends,
  accepts the address of `c`, returns `frameNumber k c` and sets `next_free_frame` to one
  more. The number is `k`, except that the first chunk of an entry gets `k + 1`: the address
  search includes its upper bound, so every other chunk is already found by the chunk before
  it, and only the first one is found by itself. For the same reason the way from a chunk's
  address to a number and back ends at the chunk exactly if no entry begins there
  (`MemoryMap.roundTrips_iff`).
-/
import Utero.Mmu.MemoryMap

namespace Utero.Mmu

open Utero.Lib

/-! ## One call -/

def Chunk.Eligible (r : ReservedAreas) (c : Chunk) : Prop :=
  ¬ c.Reserved ∧ ¬ r.contains c.start

instance (r : ReservedAreas) : DecidablePred (Chunk.Eligible r) :=
  fun _ => inferInstanceAs (Decidable (_ ∧ _))

/-- The chunk a call in state `s` should take, with its ordinal. -/
def Selects (s : MmapState) (k : Nat) (c : Chunk) : Prop :=
  FirstFrom (Chunk.Eligible s.toReservedAreas) s.memoryArea.chunks s.nextFreeFrame.toNat k c

/-- An eligible chunk with ordinal at least `next_free_frame` is left. -/
def HasEligible (s : MmapState) : Prop :=
  ∃ k c, s.nextFreeFrame.toNat ≤ k ∧ s.memoryArea.chunks[k]? = some c ∧
    c.Eligible s.toReservedAreas

theorem HasEligible.selects {s : MmapState} (h : HasEligible s) : ∃ k c, Selects s k c :=
  firstFrom_exists h

/-- The number the allocator gives chunk `c` with ordinal `k`. -/
def frameNumber (k : Nat) (c : Chunk) : Nat :=
  if c.index = 0 then k + 1 else k

theorem frameNumber_ge (k : Nat) (c : Chunk) : k ≤ frameNumber k c := by
  unfold frameNumber
  split <;> omega

theorem frameNumber_le (k : Nat) (c : Chunk) : frameNumber k c ≤ k + 1 := by
  unfold frameNumber
  split <;> omega

theorem mmapRead_getAddr {area : MultibootTagMmap} (hwf : area.WellFormed) {req : Frame} {k : Nat}
    {c : Chunk} (h : FirstFrom (fun c => ¬ c.Reserved) area.chunks req.toNat k c) :
    Returns (fun n => mmapRead n area req mmapGetAddr) c.start := by
  have hscan : scan mmapGetAddr 0 req area.chunks = c.start := by
    rcases scan_numberLookup area.chunks req with ⟨i, d, hfirst, heq⟩ | ⟨hall, -⟩
    · rw [heq, (hfirst.unique h).2]
    · exact absurd (hall k c h.le h.get) h.holds
  rw [← hscan]
  exact mmapRead_returns hwf req mmapGetAddr (Or.inr rfl)

namespace MemoryMap

variable {m : MemoryMap}

theorem ordinal_lt {k : Nat} {c : Chunk} (hc : m.area.chunks[k]? = some c)
    (hlow : c.start.toNat < 2 ^ 32) : k < 2 ^ 20 := by
  have := m.chunks_spaced.mul_le hc
  omega

theorem not_matches {d : Chunk} (hd : d ∈ m.area.chunks) {req : Frame}
    (h : d.start.toNat + 4096 < req.toNat) : ¬ d.Matches req := by
  rintro ⟨-, hle⟩
  have hend := start_lt_end hd
  have hfit := m.wellFormed.fits _ (mem_chunksOf.mp hd).1
  unfold Fits at hfit
  rw [BitVec.le_def, BitVec.toNat_add, BitVec.toNat_setWidth, pageSize_toNat] at hle
  omega

theorem matches_of_le {d : Chunk} (hd : d ∈ m.area.chunks) {req : Frame}
    (h1 : d.start.toNat ≤ req.toNat) (h2 : req.toNat ≤ d.start.toNat + 4096) :
    d.Matches req := by
  have hend := start_lt_end hd
  have hfit := m.wellFormed.fits _ (mem_chunksOf.mp hd).1
  unfold Fits at hfit
  have hreq : (req.setWidth 64).toNat = req.toNat := by
    rw [BitVec.toNat_setWidth]
    omega
  constructor
  · rw [BitVec.le_def, hreq]
    exact h1
  · rw [BitVec.le_def, hreq, BitVec.toNat_add, pageSize_toNat]
    omega

/-- The address search on the start of chunk `k`: every chunk but the first of its entry is
    found through the upper bound of the one before. -/
theorem scan_getNum_start {k : Nat} {c : Chunk} (hc : m.area.chunks[k]? = some c)
    (hlow : c.start.toNat < 2 ^ 32) :
    scan mmapGetNum 0 (c.start.setWidth 32) m.area.chunks =
      (BitVec.ofNat 32 (frameNumber k c)).setWidth 64 := by
  have hreq : (c.start.setWidth 32).toNat = c.start.toNat := by
    rw [BitVec.toNat_setWidth, Nat.mod_eq_of_lt hlow]
  obtain ⟨e, j⟩ := c
  cases j with
  | zero =>
    rw [scan_getNum hc (matches_of_le (List.mem_of_getElem? hc) (by omega) (by omega))]
    · simp [frameNumber]
    · intro i d hi hd
      have := chunks_before_first hc hd hi rfl
      exact not_matches (List.mem_of_getElem? hd) (by omega)
  | succ j =>
    obtain ⟨k', rfl, hpred⟩ : ∃ k', k = k' + 1 ∧ m.area.chunks[k']? = some ⟨e, j⟩ :=
      chunksOf_pred hc
    have hps := start_toNat (List.mem_of_getElem? hpred)
    have hcs := start_toNat (List.mem_of_getElem? hc)
    dsimp only at hps hcs
    rw [scan_getNum hpred (matches_of_le (List.mem_of_getElem? hpred) (by omega) (by omega))]
    · simp [frameNumber]
    · intro i d hi hd
      have := m.chunks_spaced.add_le hi hd hpred
      exact not_matches (List.mem_of_getElem? hd) (by omega)

end MemoryMap

theorem frame_widen_narrow (f : Frame) : (f.setWidth 64).setWidth 32 = f := by
  apply BitVec.eq_of_toNat_eq
  have := f.isLt
  simp only [BitVec.toNat_setWidth]
  omega

/-- The call goes on with the next number when the chunk it looks at is reserved memory. -/
theorem allocate_skip {s : MmapState} {addr : PhysicalAddress} {r : AllocateResult}
    (hread : Returns (fun n => mmapRead n s.memoryArea s.nextFreeFrame mmapGetAddr) addr)
    (hin : s.toReservedAreas.contains addr)
    (hrec : Returns (fun n =>
      mmapAllocateFrame n { s with nextFreeFrame := s.nextFreeFrame + 1 }) r) :
    Returns (fun n => mmapAllocateFrame n s) r := by
  refine (hread.bind (g := fun addr n => if s.toReservedAreas.contains addr then
    mmapAllocateFrame n { s with nextFreeFrame := s.nextFreeFrame + 1 } else _) ?_).of_succ
    fun n => rfl
  simpa only [if_pos hin] using hrec

theorem allocate_take {s : MmapState} {addr num : PhysicalAddress}
    (hread : Returns (fun n => mmapRead n s.memoryArea s.nextFreeFrame mmapGetAddr) addr)
    (hout : ¬ s.toReservedAreas.contains addr)
    (hnum : Returns (fun n => mmapRead n s.memoryArea (addr.setWidth 32) mmapGetNum) num) :
    Returns (fun n => mmapAllocateFrame n s)
      ⟨addr, num.setWidth 32, { s with nextFreeFrame := num.setWidth 32 + 1 }⟩ := by
  refine (hread.bind (g := fun addr n => if s.toReservedAreas.contains addr then _ else
    (mmapRead n s.memoryArea (addr.setWidth 32) mmapGetNum).bind fun num =>
      some ⟨addr, num.setWidth 32, { s with nextFreeFrame := num.setWidth 32 + 1 }⟩) ?_).of_succ
    fun n => rfl
  simp only [if_neg hout]
  exact hnum.bind (returns_const _)

/-- The number `mmap_allocate_frame` looks up for an address it accepts. -/
def numberOf (area : MultibootTagMmap) (addr : PhysicalAddress) : Frame :=
  (scan mmapGetNum 0 (addr.setWidth 32) area.chunks).setWidth 32

/-- The result of a call that accepts `addr`. -/
def accepted (s : MmapState) (addr : PhysicalAddress) : AllocateResult :=
  let f := numberOf s.memoryArea addr
  ⟨addr, f, { s with nextFreeFrame := f + 1 }⟩

theorem allocate_accept {s : MmapState} (hwf : s.memoryArea.WellFormed) {addr : PhysicalAddress}
    (hread : Returns (fun n => mmapRead n s.memoryArea s.nextFreeFrame mmapGetAddr) addr)
    (hout : ¬ s.toReservedAreas.contains addr) :
    Returns (fun n => mmapAllocateFrame n s) (accepted s addr) :=
  allocate_take hread hout (mmapRead_returns hwf _ mmapGetNum (Or.inl rfl))

/-- A call with an eligible chunk left ends and takes the first one, provided that its ordinal
    fits `next_free_frame`. -/
theorem allocate_selects {s : MmapState} (hwf : s.memoryArea.WellFormed) {k : Nat} {c : Chunk}
    (h : Selects s k c) (hk : k < 2 ^ 32) :
    Returns (fun n => mmapAllocateFrame n s) (accepted s c.start) := by
  -- induction on the number of ordinals `next_free_frame` can still skip
  obtain ⟨d, hd⟩ : ∃ d, d = k - s.nextFreeFrame.toNat := ⟨_, rfl⟩
  induction d using Nat.strong_induction_on generalizing s with
  | _ d ih =>
    obtain ⟨i, a, hfirst⟩ : ∃ i a, FirstFrom (fun c => ¬ c.Reserved) s.memoryArea.chunks
        s.nextFreeFrame.toNat i a :=
      firstFrom_exists ⟨k, c, h.le, h.get, h.holds.1⟩
    have hik : i ≤ k := hfirst.index_le h And.left
    have hread := mmapRead_getAddr hwf hfirst
    by_cases hin : s.toReservedAreas.contains a.start
    · have hne : i ≠ k := by
        rintro rfl
        obtain rfl : a = c := Option.some.inj (hfirst.get.symm.trans h.get)
        exact h.holds.2 hin
      have hle := hfirst.le
      have hsucc : (s.nextFreeFrame + 1).toNat = s.nextFreeFrame.toNat + 1 :=
        frame_succ_toNat (by omega)
      refine allocate_skip hread hin (ih (k - (s.nextFreeFrame.toNat + 1)) (by omega)
        (s := { s with nextFreeFrame := s.nextFreeFrame + 1 }) hwf ?_ (by rw [hsucc]))
      exact h.start_later (by dsimp only; omega) (by dsimp only; omega)
    · have hki : k ≤ i := h.least i a hfirst.le hfirst.get ⟨hfirst.holds, hin⟩
      obtain rfl : i = k := by omega
      obtain rfl : a = c := Option.some.inj (hfirst.get.symm.trans h.get)
      exact allocate_accept hwf hread hin

/-- The result of a call that takes chunk `c` with ordinal `k`. -/
def allocated (s : MmapState) (k : Nat) (c : Chunk) : AllocateResult :=
  let f := BitVec.ofNat 32 (frameNumber k c)
  ⟨c.start, f, { s with nextFreeFrame := f + 1 }⟩

theorem accepted_eq_allocated {m : MemoryMap} {s : MmapState} (hs : s.memoryArea = m.area)
    {k : Nat} {c : Chunk} (hget : m.area.chunks[k]? = some c) (hlow : c.start.toNat < 2 ^ 32) :
    accepted s c.start = allocated s k c := by
  have hnum : numberOf s.memoryArea c.start = BitVec.ofNat 32 (frameNumber k c) := by
    rw [numberOf, hs, m.scan_getNum_start hget hlow, frame_widen_narrow]
  simp only [accepted, allocated, hnum]

/-- A call with an eligible chunk left ends and takes the first one, provided that it starts
    below 4 GiB. -/
theorem allocate_returns {m : MemoryMap} {s : MmapState} (hs : s.memoryArea = m.area) {k : Nat}
    {c : Chunk} (h : Selects s k c) (hlow : c.start.toNat < 2 ^ 32) :
    Returns (fun n => mmapAllocateFrame n s) (allocated s k c) := by
  have hget : m.area.chunks[k]? = some c := hs ▸ h.get
  have hk := m.ordinal_lt hget hlow
  rw [← accepted_eq_allocated hs hget hlow]
  exact allocate_selects (hs ▸ m.wellFormed) h (by omega)

theorem MemoryMap.Below4GiB.start_lt {m : MemoryMap} (hm : m.Below4GiB) {c : Chunk}
    (hc : c ∈ m.area.chunks) : c.start.toNat + 4096 < 2 ^ 32 := by
  have hend := m.start_lt_end hc
  have hle := hm _ (mem_chunksOf.mp hc).1
  omega

theorem allocated_frame_toNat (s : MmapState) {k : Nat} (c : Chunk) (hk : k < 2 ^ 20) :
    (allocated s k c).frame.toNat = frameNumber k c := by
  have := frameNumber_le k c
  simp only [allocated, BitVec.toNat_ofNat]
  omega

theorem allocated_nextFreeFrame_toNat (s : MmapState) {k : Nat} (c : Chunk) (hk : k < 2 ^ 20) :
    (allocated s k c).state.nextFreeFrame.toNat = frameNumber k c + 1 := by
  have hle := frameNumber_le k c
  have hf := allocated_frame_toNat s c hk
  have hsucc := frame_succ_toNat (f := (allocated s k c).frame) (by omega)
  rw [hf] at hsucc
  exact hsucc

/-- First fit and progress: on a map below 4 GiB a call made while an eligible chunk is left
    ends. The address it accepts is the start of the eligible chunk with the least ordinal
    `k` from `next_free_frame` on, the number it returns is at least `k`, and
    `next_free_frame` grows to one more than it. -/
theorem allocate_firstFit (m : MemoryMap) (hm : m.Below4GiB) (s : MmapState)
    (hs : s.memoryArea = m.area) (h : HasEligible s) :
    ∃ k c f, Selects s k c ∧
      Returns (fun n => mmapAllocateFrame n s) ⟨c.start, f, { s with nextFreeFrame := f + 1 }⟩ ∧
      k ≤ f.toNat ∧ (f + 1).toNat = f.toNat + 1 ∧
      s.nextFreeFrame.toNat < (f + 1).toNat := by
  obtain ⟨k, c, hsel⟩ := h.selects
  have hget : m.area.chunks[k]? = some c := hs ▸ hsel.get
  have hstart := hm.start_lt (List.mem_of_getElem? hget)
  have hk := m.ordinal_lt hget (by omega)
  have hframe := allocated_frame_toNat s c hk
  have hnext := allocated_nextFreeFrame_toNat s c hk
  have hge := frameNumber_ge k c
  have hle := hsel.le
  refine ⟨k, c, (allocated s k c).frame, hsel, allocate_returns hs hsel (by omega), ?_, ?_, ?_⟩
  · omega
  · exact hnext.trans (by rw [hframe])
  · exact lt_of_lt_of_eq (by omega) hnext.symm

/-- Twelve KiB of memory at 0 and sixteen KiB of ACPI tables (type 3) at 64 KiB. -/
def acpiMap : MemoryMap where
  area := tagOf [⟨0, 0x3001, multibootMemoryAvailable⟩, ⟨0x10000, 0x4001, 3⟩]
  wellFormed := ⟨by decide, ⟨by decide, by decide⟩, by decide⟩
  sorted := by decide

theorem acpiMap_below4GiB : acpiMap.Below4GiB := by
  unfold MemoryMap.Below4GiB
  decide

def sampleAreas : ReservedAreas where
  kernelStart := 0x100000
  kernelEnd := 0x200000
  multibootStart := 0x300000
  multibootEnd := 0x300100

/-- A call that ends within 20 units of fuel. -/
theorem returns_of_eval {s : MmapState} {r : AllocateResult}
    (h : mmapAllocateFrame 20 s = some r) : Returns (fun n => mmapAllocateFrame n s) r :=
  (mmapAllocateFrame_fuelMono s).returns h

/-- `next_free_frame` itself is eligible, so it is what the call takes. -/
theorem selects_self {s : MmapState} {c : Chunk}
    (hget : s.memoryArea.chunks[s.nextFreeFrame.toNat]? = some c)
    (hc : c.Eligible s.toReservedAreas) : Selects s s.nextFreeFrame.toNat c :=
  ⟨le_refl _, hget, hc, fun _ _ hj _ _ => hj⟩

theorem hasEligible_self {s : MmapState} {c : Chunk}
    (hget : s.memoryArea.chunks[s.nextFreeFrame.toNat]? = some c)
    (hc : c.Eligible s.toReservedAreas) : HasEligible s :=
  ⟨_, c, le_refl _, hget, hc⟩

/-- The globals after `mmap_init`, with a given `next_free_frame`. -/
def stateAt (m : MemoryMap) (r : ReservedAreas) (n : Frame) : MmapState :=
  { mmapInit m.area r with nextFreeFrame := n }

theorem allocate_firstFit_acpiMap :
    acpiMap.Below4GiB ∧ HasEligible (stateAt acpiMap sampleAreas 1) ∧
    ∃ k c f, Selects (stateAt acpiMap sampleAreas 1) k c ∧
      Returns (fun n => mmapAllocateFrame n (stateAt acpiMap sampleAreas 1))
        ⟨c.start, f, stateAt acpiMap sampleAreas (f + 1)⟩ ∧
      k ≤ f.toNat ∧ (f + 1).toNat = f.toNat + 1 ∧
      (stateAt acpiMap sampleAreas 1).nextFreeFrame.toNat < (f + 1).toNat := by
  have hel : HasEligible (stateAt acpiMap sampleAreas 1) :=
    hasEligible_self (c := ⟨⟨0, 0x3001, 1⟩, 1⟩) (by decide) (by decide)
  exact ⟨acpiMap_below4GiB, hel,
    allocate_firstFit acpiMap acpiMap_below4GiB (stateAt acpiMap sampleAreas 1) rfl hel⟩

/-! ## Number and address -/

/-- The number of the address, looked up in turn, is the address again. -/
def RoundTrips (area : MultibootTagMmap) (addr : PhysicalAddress) : Prop :=
  ∃ num, Returns (fun n => mmapRead n area (addr.setWidth 32) mmapGetNum) num ∧
    Returns (fun n => mmapRead n area (num.setWidth 32) mmapGetAddr) addr

namespace MemoryMap

variable {m : MemoryMap}

/-- What the number search returned is 0 or the start of a non-RESERVED chunk. -/
theorem numberLookup_of_returns {req : Frame} {addr : PhysicalAddress}
    (h : Returns (fun n => mmapRead n m.area req mmapGetAddr) addr) :
    NumberLookup m.area.chunks req.toNat addr := by
  have hscan := mmapRead_returns m.wellFormed req mmapGetAddr (Or.inr rfl)
  rw [h.unique hscan]
  exact scan_numberLookup _ _

/-- An entry begins at the start of a chunk only if the chunk is the first of its own entry. -/
theorem entry_at_start_iff {c : Chunk} (hc : c ∈ m.area.chunks) :
    (∃ e ∈ m.area.entries, e.addr = c.start) ↔ c.index = 0 := by
  have hstart := start_toNat hc
  have hend := start_lt_end hc
  obtain ⟨hentry, -⟩ := mem_chunksOf.mp hc
  constructor
  · rintro ⟨e, he, heq⟩
    obtain ⟨i, hi, rfl⟩ := List.getElem_of_mem he
    obtain ⟨j, hj, hje⟩ := List.getElem_of_mem hentry
    rw [← hje, ← heq] at hstart hend
    rcases Nat.lt_trichotomy i j with hlt | rfl | hgt
    · have := List.pairwise_iff_getElem.mp m.sorted i j hi hj hlt
      omega
    · omega
    · have := List.pairwise_iff_getElem.mp m.sorted j i hj hi hgt
      omega
  · intro hzero
    refine ⟨c.entry, hentry, ?_⟩
    rw [Chunk.start, hzero, chunkAddr_zero]

/-- The number of a chunk names that chunk, unless it is the first of its entry: then it names
    a later one or none. -/
theorem numberLookup_frameNumber_iff {k : Nat} {c : Chunk} (hget : m.area.chunks[k]? = some c)
    (hc : ¬ c.Reserved) (hne : c.start ≠ 0) :
    NumberLookup m.area.chunks (frameNumber k c) c.start ↔ c.index ≠ 0 := by
  constructor
  · intro hlookup hzero
    rw [frameNumber, if_pos hzero] at hlookup
    rcases hlookup with ⟨j, d, hfirst, heq⟩ | ⟨-, h0⟩
    · have hle := hfirst.le
      have := m.chunks_spaced.add_le (i := k) (j := j) (by omega) hget hfirst.get
      rw [heq] at this
      omega
    · exact hne h0
  · intro hpos
    rw [frameNumber, if_neg hpos]
    exact Or.inl ⟨k, c, ⟨Nat.le_refl k, hget, hc, fun j _ hj _ _ => hj⟩, rfl⟩

/-- The round trip of a chunk's start is the number search for the number of the chunk. -/
theorem roundTrips_start_iff {k : Nat} {c : Chunk} (hget : m.area.chunks[k]? = some c)
    (hlow : c.start.toNat < 2 ^ 32) (hne : c.start ≠ 0) :
    RoundTrips m.area c.start ↔ NumberLookup m.area.chunks (frameNumber k c) c.start := by
  have hk := m.ordinal_lt hget hlow
  have hle := frameNumber_le k c
  have hnum : Returns (fun n => mmapRead n m.area (c.start.setWidth 32) mmapGetNum)
      ((BitVec.ofNat 32 (frameNumber k c)).setWidth 64) := by
    rw [← m.scan_getNum_start hget hlow]
    exact mmapRead_returns m.wellFormed _ mmapGetNum (Or.inl rfl)
  have hfn : (BitVec.ofNat 32 (frameNumber k c)).toNat = frameNumber k c := by
    rw [BitVec.toNat_ofNat]
    omega
  constructor
  · rintro ⟨num, hnum', hback⟩
    rw [hnum'.unique hnum, frame_widen_narrow] at hback
    rw [← hfn]
    exact numberLookup_of_returns hback
  · intro hlookup
    refine ⟨_, hnum, ?_⟩
    rw [frame_widen_narrow]
    rcases hlookup with ⟨j, d, hfirst, heq⟩ | ⟨-, h0⟩
    · rw [heq]
      exact mmapRead_getAddr m.wellFormed (hfn.symm ▸ hfirst)
    · exact absurd h0 hne

/-- On a map below 4 GiB, looking an address of the number search up by address and then by
    number gives it back exactly if no entry of the map begins there. -/
theorem roundTrips_iff (m : MemoryMap) (hm : m.Below4GiB) (req : Frame) (addr : PhysicalAddress)
    (haddr : Returns (fun n => mmapRead n m.area req mmapGetAddr) addr) (hne : addr ≠ 0) :
    RoundTrips m.area addr ↔ ∀ e ∈ m.area.entries, e.addr ≠ addr := by
  rcases numberLookup_of_returns haddr with ⟨k, c, hfirst, rfl⟩ | ⟨-, h0⟩
  · have hmem := List.mem_of_getElem? hfirst.get
    have hlow := hm.start_lt hmem
    rw [roundTrips_start_iff hfirst.get (by omega) hne,
      numberLookup_frameNumber_iff hfirst.get hfirst.holds hne, ne_eq,
      ← entry_at_start_iff hmem]
    simp only [not_exists, not_and, ne_eq]
  · exact absurd h0 hne

end MemoryMap

theorem roundTrips_iff_acpiMap :
    acpiMap.Below4GiB ∧ Returns (fun n => mmapRead n acpiMap.area 2 mmapGetAddr) 0x2000 ∧
    (RoundTrips acpiMap.area 0x2000 ↔ ∀ e ∈ acpiMap.area.entries, e.addr ≠ 0x2000) := by
  have haddr : Returns (fun n => mmapRead n acpiMap.area 2 mmapGetAddr) 0x2000 :=
    (mmapRead_fuelMono _ _ _).returns (n := 20) rfl
  exact ⟨acpiMap_below4GiB, haddr,
    MemoryMap.roundTrips_iff acpiMap acpiMap_below4GiB 2 0x2000 haddr (by decide)⟩

/-- The ACPI tables begin at 64 KiB. The number of that address is 4, and 4 is the number of
    the chunk after. -/
theorem roundTrips_fails :
    ¬ ∀ (m : MemoryMap), m.Below4GiB → ∀ (req : Frame) (addr : PhysicalAddress),
      Returns (fun n => mmapRead n m.area req mmapGetAddr) addr → addr ≠ 0 →
        RoundTrips m.area addr := by
  intro h
  obtain ⟨num, hnum, hback⟩ := h acpiMap acpiMap_below4GiB 3 0x10000
    ((mmapRead_fuelMono _ _ _).returns (n := 20) rfl) (by decide)
  have hfour : num = 4 := hnum.unique ((mmapRead_fuelMono _ _ _).returns (n := 20) rfl)
  subst hfour
  have hnext : (0x10000 : PhysicalAddress) = 0x11000 :=
    hback.unique ((mmapRead_fuelMono _ _ _).returns (n := 20) rfl)
  exact absurd hnext (by decide)

end Utero.Mmu
