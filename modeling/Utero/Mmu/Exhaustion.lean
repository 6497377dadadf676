/-
  `mmap_allocate_frame` when no eligible chunk is left.

  `mmap_read` has no error value: for a number past the last usable chunk it returns address 0.
  A call made in an exhausted state therefore goes one of two ways.

  * If 0 is outside both reserved ranges, the call accepts address 0 (`allocate_zero`).
  * If 0 is reserved, or the map is so long that every number names a chunk, the call counts
    `next_free_frame` up until it wraps to 0 (`allocate_wrap`), and then takes the first
    eligible chunk of the whole map. Without one it never ends.

  Either way it returns the number of the first chunk of the map that holds the address. In a
  map with its entries out of order this can be a new number above the last one
  (`exhausted_safe_iff`). In a sorted map it was given out before, or `next_free_frame` goes
  down, except for the first call of all (`MemoryMap.exhausted_safe`).
-/
import Utero.Mmu.AllocatorRun

namespace Utero.Mmu

open Utero.Lib

/-! ## Runs with exhausted calls -/

/-- A run of calls from `s` to `s'` that all end, whether or not a chunk was left. -/
inductive CallRun : MmapState → List AllocCall → MmapState → Prop
  | nil (s : MmapState) : CallRun s [] s
  | cons {s s' : MmapState} {r : AllocateResult} {calls : List AllocCall}
      (returns : Returns (fun n => mmapAllocateFrame n s) r)
      (rest : CallRun r.state calls s') : CallRun s (⟨s, r⟩ :: calls) s'

/-- What the caller of a further call in state `s` may expect, after the calls `calls`. -/
def SafeCall (calls : List AllocCall) (s : MmapState) : Prop :=
  ∃ r, Returns (fun n => mmapAllocateFrame n s) r ∧
    s.nextFreeFrame ≤ r.state.nextFreeFrame ∧ ∀ call ∈ calls, call.result.frame ≠ r.frame

/-- The number search cannot hand 0 to the caller as an address to accept: 0 is reserved, or
    every 32-bit number is at or below the ordinal of some non-RESERVED chunk. -/
def CounterWraps (area : MultibootTagMmap) (r : ReservedAreas) : Prop :=
  r.contains 0 ∨ ∃ k c, 2 ^ 32 - 1 ≤ k ∧ area.chunks[k]? = some c ∧ ¬ c.Reserved

/-! ## What a call accepts -/

/-- The address is the start of an eligible chunk, or it is the 0 of a failed search. -/
def Acceptable (area : MultibootTagMmap) (r : ReservedAreas) (addr : PhysicalAddress) : Prop :=
  (∃ (k : Nat) (c : Chunk), area.chunks[k]? = some c ∧ c.Eligible r ∧ addr = c.start) ∨
    (addr = 0 ∧ ¬ CounterWraps area r)

theorem acceptable_of_lookup {area : MultibootTagMmap} {r : ReservedAreas} (req : Frame)
    {addr : PhysicalAddress} (h : NumberLookup area.chunks req.toNat addr)
    (hout : ¬ r.contains addr) : Acceptable area r addr := by
  rcases h with ⟨k, c, hfirst, rfl⟩ | ⟨hall, rfl⟩
  · exact Or.inl ⟨k, c, hfirst.get, ⟨hfirst.holds, hout⟩, rfl⟩
  · refine Or.inr ⟨rfl, ?_⟩
    rintro (hin | ⟨k, c, hk, hget, hc⟩)
    · exact hout hin
    · have := req.isLt
      exact hc (hall k c (by omega) hget)

/-- Every call that ends has accepted such an address, and returns the number looked up for
    it. -/
theorem mmapAllocateFrame_acceptable {n : Nat} {s : MmapState} {res : AllocateResult}
    (hwf : s.memoryArea.WellFormed) (h : mmapAllocateFrame n s = some res) :
    ∃ addr, Acceptable s.memoryArea s.toReservedAreas addr ∧ res = accepted s addr := by
  induction n generalizing s with
  | zero => simp [mmapAllocateFrame] at h
  | succ n ih =>
    simp only [mmapAllocateFrame] at h
    obtain ⟨addr, haddr, h⟩ := Option.bind_eq_some_iff.mp h
    split at h
    · have hrec := ih (s := { s with nextFreeFrame := s.nextFreeFrame + 1 }) hwf h
      exact hrec
    · rename_i hout
      obtain ⟨num, hnum, h⟩ := Option.bind_eq_some_iff.mp h
      have hread := ((mmapRead_fuelMono _ _ _).returns haddr).unique
        (mmapRead_returns hwf s.nextFreeFrame mmapGetAddr (Or.inr rfl))
      have hread' := ((mmapRead_fuelMono _ _ _).returns hnum).unique
        (mmapRead_returns hwf (addr.setWidth 32) mmapGetNum (Or.inl rfl))
      refine ⟨addr, acceptable_of_lookup s.nextFreeFrame ?_ hout, ?_⟩
      · rw [hread]
        exact scan_numberLookup _ _
      · cases h
        rw [hread']
        rfl

theorem acceptable_of_returns {s : MmapState} {res : AllocateResult}
    (h : Returns (fun n => mmapAllocateFrame n s) res) (hwf : s.memoryArea.WellFormed) :
    ∃ addr, Acceptable s.memoryArea s.toReservedAreas addr ∧ res = accepted s addr := by
  obtain ⟨n, hn⟩ := h
  exact mmapAllocateFrame_acceptable hwf (hn n (le_refl n))

/-! ## The exhausted call -/

/-- In an exhausted state the number search gives a chunk in a reserved range, or 0. -/
theorem lookup_exhausted {s : MmapState} (hex : ¬ HasEligible s) {addr : PhysicalAddress}
    (h : NumberLookup s.memoryArea.chunks s.nextFreeFrame.toNat addr) :
    s.toReservedAreas.contains addr ∨
      (addr = 0 ∧ ∀ k c, s.nextFreeFrame.toNat ≤ k → s.memoryArea.chunks[k]? = some c →
        c.Reserved) := by
  rcases h with ⟨k, c, hfirst, rfl⟩ | ⟨hall, rfl⟩
  · refine Or.inl ?_
    by_contra hout
    exact hex ⟨k, c, hfirst.le, hfirst.get, hfirst.holds, hout⟩
  · exact Or.inr ⟨rfl, hall⟩

theorem hasEligible_mono {s : MmapState} {f : Frame} (hf : s.nextFreeFrame.toNat ≤ f.toNat)
    (h : HasEligible { s with nextFreeFrame := f }) : HasEligible s := by
  obtain ⟨k, c, hk, hget, hc⟩ := h
  exact ⟨k, c, le_trans hf hk, hget, hc⟩

/-- The last number before the wrap has a successor, or is the last one. -/
theorem frame_succ_cases (f : Frame) :
    (f + 1).toNat = f.toNat + 1 ∨ f.toNat = 2 ^ 32 - 1 ∧ f + 1 = 0 := by
  have := f.isLt
  rcases Nat.lt_or_ge (f.toNat + 1) (2 ^ 32) with h | h
  · exact Or.inl (frame_succ_toNat h)
  · refine Or.inr ⟨by omega, BitVec.eq_of_toNat_eq ?_⟩
    rw [BitVec.toNat_add, show (1 : Frame).toNat = 1 from rfl, show f.toNat + 1 = 2 ^ 32 by omega]
    rfl

/-- A successor that is not 0 is one more. -/
theorem succ_toNat {f g : Frame} (h : g = f + 1) (hpos : 0 < g.toNat) :
    g.toNat = f.toNat + 1 := by
  rcases frame_succ_cases f with hsucc | ⟨-, hzero⟩
  · rw [h, hsucc]
  · rw [h, hzero] at hpos
    exact absurd hpos (Nat.lt_irrefl 0)

/-- An exhausted call that meets the 0 of a failed search outside the reserved ranges accepts
    it. -/
theorem allocate_zero {s : MmapState} (hwf : s.memoryArea.WellFormed)
    (hex : ¬ HasEligible s) (hw : ¬ CounterWraps s.memoryArea s.toReservedAreas) :
    Returns (fun n => mmapAllocateFrame n s) (accepted s 0) := by
  -- induction on the numbers left before the wrap
  obtain ⟨d, hd⟩ : ∃ d, d = 2 ^ 32 - s.nextFreeFrame.toNat := ⟨_, rfl⟩
  induction d using Nat.strong_induction_on generalizing s with
  | _ d ih =>
    have hread := mmapRead_returns hwf s.nextFreeFrame mmapGetAddr (Or.inr rfl)
    have hlook := scan_numberLookup s.memoryArea.chunks s.nextFreeFrame
    by_cases hin : s.toReservedAreas.contains
        (scan mmapGetAddr 0 s.nextFreeFrame s.memoryArea.chunks)
    · have hlt := s.nextFreeFrame.isLt
      rcases frame_succ_cases s.nextFreeFrame with hsucc | ⟨hlast, -⟩
      · refine allocate_skip hread hin (ih (2 ^ 32 - (s.nextFreeFrame.toNat + 1)) (by omega)
          (s := { s with nextFreeFrame := s.nextFreeFrame + 1 }) hwf ?_ hw (by rw [hsucc]))
        exact fun h => hex (hasEligible_mono (by omega) h)
      · -- no number is left to skip to, so the chunk found has an ordinal past the last number
        refine absurd ?_ hw
        rcases hlook with ⟨k, c, hfirst, -⟩ | ⟨-, heq⟩
        · exact Or.inr ⟨k, c, by have := hfirst.le; omega, hfirst.get, hfirst.holds⟩
        · exact Or.inl (heq ▸ hin)
    · rcases lookup_exhausted hex hlook with h | ⟨heq, -⟩
      · exact absurd h hin
      · rw [heq] at hread hin
        exact allocate_accept hwf hread hin

/-- Otherwise the exhausted call counts on past the last number and starts again from 0. -/
theorem allocate_wrap {s : MmapState} (hwf : s.memoryArea.WellFormed) (hex : ¬ HasEligible s)
    (hw : CounterWraps s.memoryArea s.toReservedAreas) {res : AllocateResult}
    (hzero : Returns (fun n => mmapAllocateFrame n { s with nextFreeFrame := 0 }) res) :
    Returns (fun n => mmapAllocateFrame n s) res := by
  obtain ⟨d, hd⟩ : ∃ d, d = 2 ^ 32 - s.nextFreeFrame.toNat := ⟨_, rfl⟩
  induction d using Nat.strong_induction_on generalizing s with
  | _ d ih =>
    have hread := mmapRead_returns hwf s.nextFreeFrame mmapGetAddr (Or.inr rfl)
    have hlook := scan_numberLookup s.memoryArea.chunks s.nextFreeFrame
    have hlt := s.nextFreeFrame.isLt
    have hin : s.toReservedAreas.contains
        (scan mmapGetAddr 0 s.nextFreeFrame s.memoryArea.chunks) := by
      rcases lookup_exhausted hex hlook with h | ⟨heq, hall⟩
      · exact h
      · rcases hw with h | ⟨k, c, hk, hget, hc⟩
        · exact heq ▸ h
        · exact absurd (hall k c (by omega) hget) hc
    refine allocate_skip hread hin ?_
    rcases frame_succ_cases s.nextFreeFrame with hsucc | ⟨-, hz⟩
    · refine ih (2 ^ 32 - (s.nextFreeFrame.toNat + 1)) (by omega)
        (s := { s with nextFreeFrame := s.nextFreeFrame + 1 }) hwf ?_ hw hzero (by rw [hsucc])
      exact fun h => hex (hasEligible_mono (by omega) h)
    · rw [hz]
      exact hzero

/-! ## The numbers of chunk 0 -/

namespace MemoryMap

variable {m : MemoryMap}

theorem numberOf_first {c : Chunk} (hget : m.area.chunks[0]? = some c)
    (hlow : c.start.toNat < 2 ^ 32) : numberOf m.area c.start = 1 := by
  have hreq : (c.start.setWidth 32).toNat = c.start.toNat := by
    rw [BitVec.toNat_setWidth, Nat.mod_eq_of_lt hlow]
  have hmatch : c.Matches (c.start.setWidth 32) :=
    matches_of_le (List.mem_of_getElem? hget) (by omega) (by omega)
  rw [numberOf, scan_getNum hget hmatch (by intro j d hj _; omega)]
  rfl

/-- If the map begins at or above 4 GiB, no cut address is found in it. -/
theorem numberOf_high {c : Chunk} (hget : m.area.chunks[0]? = some c)
    (hhigh : 2 ^ 32 ≤ c.start.toNat) (addr : PhysicalAddress) : numberOf m.area addr = 0 := by
  have hnone : ∀ d ∈ m.area.chunks, ¬ d.Matches (addr.setWidth 32) := by
    rintro d hd ⟨hle, -⟩
    obtain ⟨j, hj⟩ := List.getElem?_of_mem hd
    have hlt := (addr.setWidth 32).isLt
    rw [BitVec.le_def, BitVec.toNat_setWidth] at hle
    rcases Nat.eq_zero_or_pos j with rfl | hpos
    · obtain rfl : c = d := Option.some.inj (hget.symm.trans hj)
      omega
    · have := m.chunks_spaced.add_le hpos hget hj
      omega
  rw [numberOf, scan_getNum_none hnone]
  rfl

theorem numberOf_zero : numberOf m.area 0 = 0 ∨
    numberOf m.area 0 = 1 ∧ ∀ c, m.area.chunks[0]? = some c → c.start = 0 := by
  by_cases h : ∃ d ∈ m.area.chunks, d.Matches 0
  · obtain ⟨d, hd, hle, -⟩ := h
    have hzero : d.start = 0 := by
      apply BitVec.eq_of_toNat_eq
      rw [BitVec.le_def] at hle
      exact Nat.le_zero.mp hle
    -- the chunks are spaced, so the one at address 0 has ordinal 0
    obtain ⟨j, hj⟩ := List.getElem?_of_mem hd
    have hmul := m.chunks_spaced.mul_le hj
    rw [hzero, show (0 : PhysicalAddress).toNat = 0 from rfl] at hmul
    obtain rfl : j = 0 := by omega
    refine Or.inr ⟨hzero ▸ numberOf_first hj (by rw [hzero]; decide), ?_⟩
    intro c hc
    rw [← Option.some.inj (hj.symm.trans hc)]
    exact hzero
  · refine Or.inl ?_
    rw [numberOf, show (0 : PhysicalAddress).setWidth 32 = (0 : Frame) from rfl,
      scan_getNum_none fun d hd hm => h ⟨d, hd, hm⟩]
    rfl

end MemoryMap

/-! ## Facts about runs -/

theorem CallRun.keeps {s s' : MmapState} {calls : List AllocCall} (h : CallRun s calls s') :
    s'.memoryArea = s.memoryArea ∧ s'.toReservedAreas = s.toReservedAreas := by
  induction h with
  | nil => exact ⟨rfl, rfl⟩
  | cons returns rest ih =>
    obtain ⟨n, hn⟩ := returns
    obtain ⟨harea, hareas⟩ := mmapAllocateFrame_keeps (hn n (le_refl n))
    exact ⟨ih.1.trans harea, ih.2.trans hareas⟩

/-- The last call of a run set `next_free_frame` to one more than its number, which it looked
    up for an acceptable address. -/
theorem CallRun.last {s s' : MmapState} {calls : List AllocCall} (h : CallRun s calls s')
    (hwf : s.memoryArea.WellFormed) (hne : calls ≠ []) :
    ∃ call ∈ calls, s'.nextFreeFrame = call.result.frame + 1 ∧
      ∃ addr, Acceptable s.memoryArea s.toReservedAreas addr ∧
        call.result.frame = numberOf s.memoryArea addr := by
  induction h with
  | nil => exact absurd rfl hne
  | @cons s s' r calls returns rest ih =>
    obtain ⟨addr, hacc, rfl⟩ := acceptable_of_returns returns hwf
    cases rest with
    | nil => exact ⟨_, List.mem_cons_self .., rfl, addr, hacc, rfl⟩
    | cons returns' rest' =>
      obtain ⟨call, hcall, hlast⟩ := ih hwf (List.cons_ne_nil _ _)
      exact ⟨call, List.mem_cons_of_mem _ hcall, hlast⟩

/-- The numbers of an exhausted state are above the ordinal of every eligible chunk. -/
theorem ordinal_lt_of_exhausted {s : MmapState} (hex : ¬ HasEligible s) {k : Nat} {c : Chunk}
    (hget : s.memoryArea.chunks[k]? = some c) (hc : c.Eligible s.toReservedAreas) :
    k < s.nextFreeFrame.toNat := by
  by_contra hk
  exact hex ⟨k, c, by omega, hget, hc⟩

/-! ## The call in an exhausted state -/

/-- The address that an exhausted call comes to: the 0 of a failed search, or, round the counter,
    the start of the first eligible chunk of the map. -/
def ComesTo (area : MultibootTagMmap) (r : ReservedAreas) (addr : PhysicalAddress) : Prop :=
  (¬ CounterWraps area r ∧ addr = 0) ∨
    (CounterWraps area r ∧ ∃ k c, FirstFrom (Chunk.Eligible r) area.chunks 0 k c ∧ addr = c.start)

/-- What `mmap_read` should give for an address, of which it sees the low 32 bits: one more than
    the ordinal of the first chunk whose page, both ends included, holds them, and 0 if there is
    none. -/
def AddressLookup (cs : List Chunk) (addr : PhysicalAddress) (f : Frame) : Prop :=
  (∃ k c, FirstFrom (fun c => c.Matches (addr.setWidth 32)) cs 0 k c ∧
      f = BitVec.ofNat 32 (k + 1)) ∨
    ((∀ c ∈ cs, ¬ c.Matches (addr.setWidth 32)) ∧ f = 0)

/-- Number `f` is above the last number returned, that is, `next_free_frame` does not go down, and
    no call returned it. -/
def Unused (calls : List AllocCall) (s : MmapState) (f : Frame) : Prop :=
  s.nextFreeFrame ≤ f + 1 ∧ ∀ call ∈ calls, call.result.frame ≠ f

theorem numberOf_addressLookup (area : MultibootTagMmap) (addr : PhysicalAddress) :
    AddressLookup area.chunks addr (numberOf area addr) := by
  by_cases h : ∃ k c, 0 ≤ k ∧ area.chunks[k]? = some c ∧ c.Matches (addr.setWidth 32)
  · obtain ⟨k, c, hfirst⟩ := firstFrom_exists h
    refine Or.inl ⟨k, c, hfirst, ?_⟩
    have hzero : (0 : Frame) + BitVec.ofNat 32 (k + 1) = BitVec.ofNat 32 (k + 1) :=
      BitVec.zero_add _
    rw [numberOf, scan_getNum hfirst.get hfirst.holds, hzero, frame_widen_narrow]
    intro j d hj hd hmatch
    have := hfirst.least j d (Nat.zero_le j) hd hmatch
    omega
  · have hnone : ∀ c ∈ area.chunks, ¬ c.Matches (addr.setWidth 32) := by
      intro c hc hmatch
      obtain ⟨k, hk⟩ := List.getElem?_of_mem hc
      exact h ⟨k, c, Nat.zero_le k, hk, hmatch⟩
    refine Or.inr ⟨hnone, ?_⟩
    rw [numberOf, scan_getNum_none hnone]
    rfl

theorem AddressLookup.unique {cs : List Chunk} {addr : PhysicalAddress} {f g : Frame}
    (hf : AddressLookup cs addr f) (hg : AddressLookup cs addr g) : f = g := by
  rcases hf with ⟨k, c, hfirst, rfl⟩ | ⟨hall, rfl⟩
  · rcases hg with ⟨j, d, hfirst', rfl⟩ | ⟨hall', -⟩
    · rw [hfirst.index_eq hfirst']
    · exact absurd hfirst.holds (hall' c (List.mem_of_getElem? hfirst.get))
  · rcases hg with ⟨j, d, hfirst', -⟩ | ⟨-, rfl⟩
    · exact absurd hfirst'.holds (hall d (List.mem_of_getElem? hfirst'.get))
    · rfl

/-- An exhausted call that comes to an address accepts it. -/
theorem allocate_comesTo {s : MmapState} (hwf : s.memoryArea.WellFormed) (hex : ¬ HasEligible s)
    {addr : PhysicalAddress} (h : ComesTo s.memoryArea s.toReservedAreas addr) :
    Returns (fun n => mmapAllocateFrame n s) (accepted s addr) := by
  rcases h with ⟨hw, rfl⟩ | ⟨hw, k, c, hfirst, rfl⟩
  · exact allocate_zero hwf hex hw
  · have hk := ordinal_lt_of_exhausted hex hfirst.get hfirst.holds
    have hlt := s.nextFreeFrame.isLt
    exact allocate_wrap hwf hex hw
      (allocate_selects (s := { s with nextFreeFrame := 0 }) hwf hfirst (by omega))

/-- And one that ends has come to an address. -/
theorem comesTo_of_returns {s : MmapState} (hwf : s.memoryArea.WellFormed)
    {res : AllocateResult} (h : Returns (fun n => mmapAllocateFrame n s) res) :
    ∃ addr, ComesTo s.memoryArea s.toReservedAreas addr := by
  obtain ⟨addr, ⟨k, c, hget, hc, -⟩ | ⟨rfl, hw⟩, -⟩ := acceptable_of_returns h hwf
  · by_cases hw : CounterWraps s.memoryArea s.toReservedAreas
    · obtain ⟨i, a, hfirst⟩ := firstFrom_exists (k := 0) ⟨k, c, Nat.zero_le _, hget, hc⟩
      exact ⟨_, Or.inr ⟨hw, i, a, hfirst, rfl⟩⟩
    · exact ⟨0, Or.inl ⟨hw, rfl⟩⟩
  · exact ⟨0, Or.inl ⟨hw, rfl⟩⟩

theorem safeCall_iff {calls : List AllocCall} {s : MmapState} (hwf : s.memoryArea.WellFormed)
    (hex : ¬ HasEligible s) :
    SafeCall calls s ↔ ∃ addr f, ComesTo s.memoryArea s.toReservedAreas addr ∧
      AddressLookup s.memoryArea.chunks addr f ∧ Unused calls s f := by
  constructor
  · rintro ⟨res, hret, hle, hnew⟩
    obtain ⟨addr, hcomes⟩ := comesTo_of_returns hwf hret
    obtain rfl := hret.unique (allocate_comesTo hwf hex hcomes)
    exact ⟨addr, _, hcomes, numberOf_addressLookup _ addr, hle, hnew⟩
  · rintro ⟨addr, f, hcomes, hlookup, hle, hnew⟩
    obtain rfl := hlookup.unique (numberOf_addressLookup _ addr)
    exact ⟨_, allocate_comesTo hwf hex hcomes, hle, hnew⟩

/-! ## On a sorted map it is safe only before the first call -/

section Exhausted

variable {m : MemoryMap} {r : ReservedAreas} {calls : List AllocCall} {s : MmapState}

/-- After a call, an exhausted call that accepts address 0 is not safe. -/
theorem not_safe_zero (h : CallRun (mmapInit m.area r) calls s) (hex : ¬ HasEligible s)
    (hw : ¬ CounterWraps m.area r) (hne : calls ≠ []) : ¬ SafeCall calls s := by
  have harea : s.memoryArea = m.area := h.keeps.1
  have hareas : s.toReservedAreas = r := h.keeps.2
  rintro ⟨res, hret, hle, hnew⟩
  obtain rfl := hret.unique (allocate_zero (harea ▸ m.wellFormed) hex (harea ▸ hareas ▸ hw))
  obtain ⟨call, hcall, hnext, addr, hacc, hframe⟩ := h.last m.wellFormed hne
  have hnum : call.result.frame ≠ numberOf m.area 0 := harea ▸ hnew call hcall
  have hle' : call.result.frame + 1 ≤ numberOf m.area 0 + 1 := hnext ▸ harea ▸ hle
  rcases hacc with ⟨k, c, hget, hc, rfl⟩ | ⟨rfl, -⟩
  · have hk := ordinal_lt_of_exhausted hex (harea ▸ hget) (hareas ▸ hc)
    have hsucc := succ_toNat hnext (by omega)
    rw [hnext] at hk hsucc
    rw [BitVec.le_def] at hle'
    have hne' : call.result.frame.toNat ≠ (numberOf m.area 0).toNat :=
      fun heq => hnum (BitVec.eq_of_toNat_eq heq)
    rcases m.numberOf_zero with h0 | ⟨h1, hfirst⟩
    · rw [h0, show ((0 : Frame) + 1).toNat = 1 from rfl] at hle'
      rw [h0, show (0 : Frame).toNat = 0 from rfl] at hne'
      omega
    · -- the number before was 0, so the chunk it was for is chunk 0, at address 0
      rw [h1, show ((1 : Frame) + 1).toNat = 2 from rfl] at hle'
      rw [h1, show (1 : Frame).toNat = 1 from rfl] at hne'
      obtain rfl : k = 0 := by omega
      exact hnum (hframe.trans (congrArg (numberOf m.area) (hfirst c hget)))
  · exact hnum hframe

/-- After a call, an exhausted call that wraps around is not safe. -/
theorem not_safe_wrap (h : CallRun (mmapInit m.area r) calls s) (hex : ¬ HasEligible s)
    (hw : CounterWraps m.area r) (hne : calls ≠ []) : ¬ SafeCall calls s := by
  have harea : s.memoryArea = m.area := h.keeps.1
  have hareas : s.toReservedAreas = r := h.keeps.2
  rintro ⟨res, hret, hle, hnew⟩
  have heligible : ∀ {addr}, Acceptable m.area r addr →
      ∃ (k : Nat) (c : Chunk), m.area.chunks[k]? = some c ∧ c.Eligible r ∧ addr = c.start := by
    rintro addr (hc | ⟨-, hno⟩)
    · exact hc
    · exact absurd hw hno
  -- the chunk the call comes round to
  obtain ⟨addr, hacc, -⟩ := acceptable_of_returns hret (harea ▸ m.wellFormed)
  obtain ⟨k, c, hget, hc, -⟩ := heligible (harea ▸ hareas ▸ hacc)
  obtain ⟨k₀, c₀, hfirst⟩ := firstFrom_exists (k := 0) ⟨k, c, Nat.zero_le _, hget, hc⟩
  have hk₀ := ordinal_lt_of_exhausted hex (harea ▸ hfirst.get) (hareas ▸ hfirst.holds)
  have hlt := s.nextFreeFrame.isLt
  have hsel : Selects { s with nextFreeFrame := 0 } k₀ c₀ := by
    unfold Selects
    rw [harea, hareas]
    exact hfirst
  have hround := allocate_selects (s := { s with nextFreeFrame := 0 }) (harea ▸ m.wellFormed) hsel
    (by omega)
  obtain rfl := hret.unique
    (allocate_wrap (harea ▸ m.wellFormed) hex (harea ▸ hareas ▸ hw) hround)
  have hnew' : ∀ call ∈ calls, call.result.frame ≠ numberOf m.area c₀.start := harea ▸ hnew
  have hle' : s.nextFreeFrame ≤ numberOf m.area c₀.start + 1 := harea ▸ hle
  -- compare with the first call of the run, made with `next_free_frame` = 1
  cases h with
  | nil => exact absurd rfl hne
  | @cons _ _ res calls returns rest =>
    obtain ⟨addr₁, hacc₁, hres⟩ := acceptable_of_returns returns m.wellFormed
    obtain ⟨k₁, c₁, hget₁, hc₁, rfl⟩ := heligible hacc₁
    have hframe₁ : res.frame = numberOf m.area c₁.start := by rw [hres]; rfl
    have hnew₁ := hnew' _ (List.mem_cons_self ..)
    dsimp only at hnew₁
    rcases Nat.eq_zero_or_pos k₀ with rfl | hpos
    · rcases Nat.eq_zero_or_pos k₁ with rfl | hpos₁
      · obtain rfl : c₀ = c₁ := Option.some.inj (hfirst.get.symm.trans hget₁)
        exact hnew₁ hframe₁
      · rcases Nat.lt_or_ge c₀.start.toNat (2 ^ 32) with hlow | hhigh
        · -- chunk 0 has number 1, and only a call that returned 1 leaves `next_free_frame` at 2
          rw [m.numberOf_first hfirst.get hlow] at hnew' hle'
          have hk₁ := ordinal_lt_of_exhausted hex (harea ▸ hget₁) (hareas ▸ hc₁)
          rw [BitVec.le_def, show ((1 : Frame) + 1).toNat = 2 from rfl] at hle'
          obtain ⟨call, hcall, hnext, -⟩ :=
            (CallRun.cons returns rest).last m.wellFormed (List.cons_ne_nil _ _)
          have hsucc := succ_toNat hnext (by omega)
          refine hnew' call hcall (BitVec.eq_of_toNat_eq ?_)
          rw [show (1 : Frame).toNat = 1 from rfl]
          omega
        · rw [m.numberOf_high hfirst.get hhigh] at hnew₁
          exact hnew₁ (hframe₁.trans (m.numberOf_high hfirst.get hhigh _))
    · have hsel₁ : Selects (mmapInit m.area r) k₀ c₀ :=
        hfirst.start_later (Nat.zero_le _) hpos
      have hres₁ := returns.unique (allocate_selects m.wellFormed hsel₁ (by omega))
      exact hnew₁ (by rw [hres₁]; rfl)

/-- Before any call, the number chunk 0 or address 0 gets does not lower `next_free_frame`. -/
theorem one_le_succ {f : Frame} (hf : f = 0 ∨ f = 1) : (1 : Frame) ≤ f + 1 := by
  rcases hf with rfl | rfl <;> decide

/-- On a sorted map an exhausted call is safe exactly if it is the first call, and either 0 may be
    accepted or chunk 0 is eligible. -/
theorem MemoryMap.exhausted_safe (h : CallRun (mmapInit m.area r) calls s)
    (hex : ¬ HasEligible s) :
    SafeCall calls s ↔ calls = [] ∧
      (¬ CounterWraps m.area r ∨ ∃ c, m.area.chunks[0]? = some c ∧ c.Eligible r) := by
  by_cases hne : calls = []
  · subst hne
    cases h
    simp only [true_and]
    by_cases hw : CounterWraps m.area r
    · simp only [hw, not_true_eq_false, false_or]
      constructor
      · rintro ⟨res, hret, -⟩
        obtain ⟨addr, ⟨k, c, hget, hc, -⟩ | ⟨-, hno⟩, -⟩ := acceptable_of_returns hret m.wellFormed
        · have hk := ordinal_lt_of_exhausted hex hget hc
          obtain rfl : k = 0 := Nat.lt_one_iff.mp hk
          exact ⟨c, hget, hc⟩
        · exact absurd hw hno
      · rintro ⟨c, hget, hc⟩
        have hsel : Selects { mmapInit m.area r with nextFreeFrame := 0 } 0 c :=
          ⟨le_refl _, hget, hc, fun _ _ hj _ _ => hj⟩
        refine ⟨_, allocate_wrap m.wellFormed hex hw (allocate_selects m.wellFormed hsel
          (by omega)), one_le_succ ?_, by simp⟩
        rcases Nat.lt_or_ge c.start.toNat (2 ^ 32) with hlow | hhigh
        · exact Or.inr (m.numberOf_first hget hlow)
        · exact Or.inl (m.numberOf_high hget hhigh _)
    · simp only [hw, not_false_eq_true, true_or, iff_true]
      exact ⟨_, allocate_zero m.wellFormed hex hw,
        one_le_succ (m.numberOf_zero.imp_right And.left), by simp⟩
  · simp only [hne, false_and, iff_false]
    by_cases hw : CounterWraps m.area r
    · exact not_safe_wrap h hex hw hne
    · exact not_safe_zero h hex hw hne

end Exhausted

/-- Two calls use it up. -/
def smallCalls : List AllocCall :=
  [⟨stateAt smallMap sampleAreas 1, ⟨0x1000, 1, stateAt smallMap sampleAreas 2⟩⟩,
    ⟨stateAt smallMap sampleAreas 2, ⟨0x2000, 2, stateAt smallMap sampleAreas 3⟩⟩]

theorem smallCalls_run :
    CallRun (mmapInit smallMap.area sampleAreas) smallCalls (stateAt smallMap sampleAreas 3) :=
  CallRun.cons (returns_of_eval rfl) (CallRun.cons (returns_of_eval rfl) (CallRun.nil _))

theorem smallCalls_exhausted : ¬ HasEligible (stateAt smallMap sampleAreas 3) := by
  rintro ⟨k, c, hk, hget, -⟩
  have hlen : smallMap.area.chunks.length = 3 := by decide
  have hle : 3 ≤ k := hk
  rw [show (stateAt smallMap sampleAreas 3).memoryArea.chunks = smallMap.area.chunks from rfl,
    List.getElem?_eq_none (by omega)] at hget
  exact absurd hget (by simp)

end Utero.Mmu
