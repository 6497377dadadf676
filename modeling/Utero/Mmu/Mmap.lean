/-
  `src/mmu/mmap.c`: the physical frame allocator over the multiboot memory map.

  The MMAP tag is its address and the fields `mmap_read` looks at. The entry pointer is a 64-bit
  address, as in the source: it starts at `entries`, 16 bytes behind the tag, and is stepped
  by entry_size and compared with the end of the tag modulo 2^64. The tag is a value here:
  `mmap_read` only reads it. `DEBUG` writes to the serial port and is left out, and so are the
  fields no function of the file reads (`type`, `entry_version`, an entry's `zero`).

  `mmapRead` is one loop over `ReadState`: `entry` is the head of the outer `for`, `chunk`
  the head of the inner one. A call of `mmap_allocate_frame` keeps the local `current_addr`
  of its last recursive call in `AllocateResult`, since what the allocator promises is about
  that address.
-/
import Utero.Lib.Fuel

namespace Utero.Mmu

open Utero.Lib

abbrev PhysicalAddress := BitVec 64

/-- `frame_t`. -/
abbrev Frame := BitVec 32

/-- `PAGE_SIZE` in 64-bit arithmetic. -/
def pageSize : BitVec 64 := 4096#64

@[simp] theorem pageSize_toNat : pageSize.toNat = 4096 := rfl

def mmapGetNum : BitVec 8 := 0
def mmapGetAddr : BitVec 8 := 1

def multibootMemoryAvailable : BitVec 32 := 1
def multibootMemoryReserved : BitVec 32 := 2

structure MultibootMmapEntry where
  addr : BitVec 64
  len : BitVec 64
  type : BitVec 32
  deriving DecidableEq

/-- The MMAP tag at address `base`. `entryAt p` is the entry read at address `p`. -/
structure MultibootTagMmap where
  base : BitVec 64
  size : BitVec 32
  entrySize : BitVec 32
  entryAt : BitVec 64 → MultibootMmapEntry

namespace MultibootTagMmap

variable (area : MultibootTagMmap)

/-- `entries`. -/
def first : BitVec 64 := area.base + 16#64

/-- `memory_area + memory_area->size`. -/
def limit : BitVec 64 := area.base + area.size.setWidth 64

/-- `entry_size`, as it is added to the pointer. -/
def stride : BitVec 64 := area.entrySize.setWidth 64

end MultibootTagMmap

/-- `reserved_areas_t`. -/
structure ReservedAreas where
  kernelStart : PhysicalAddress
  kernelEnd : PhysicalAddress
  multibootStart : PhysicalAddress
  multibootEnd : PhysicalAddress
  deriving DecidableEq

/-- The globals of `mmap.c`. -/
structure MmapState extends ReservedAreas where
  memoryArea : MultibootTagMmap
  nextFreeFrame : Frame

def mmapInit (mmap : MultibootTagMmap) (reserved : ReservedAreas) : MmapState :=
  { reserved with memoryArea := mmap, nextFreeFrame := 1 }

/-! ## `mmap_read` -/

/-- The local variables at the head of the entry loop and of the chunk loop. -/
inductive ReadState where
  | entry (p : BitVec 64) (curNum request : Frame)
  | chunk (p : BitVec 64) (i entryEnd : PhysicalAddress) (curNum request : Frame)

/-- One test of a loop condition of `mmap_read`, with the loop body when it holds. -/
def mmapReadStep (area : MultibootTagMmap) (mode : BitVec 8) :
    ReadState → ReadState ⊕ PhysicalAddress
  | .entry p curNum request =>
    if p < area.limit then
      let e := area.entryAt p
      .inl (.chunk p e.addr (e.addr + e.len) curNum request)
    else .inr 0
  | .chunk p i entryEnd curNum request =>
    if i + pageSize < entryEnd then
      if mode = mmapGetNum ∧ i ≤ request.setWidth 64 ∧ request.setWidth 64 ≤ i + pageSize then
        .inr ((curNum + 1).setWidth 64)
      else if (area.entryAt p).type = multibootMemoryReserved then
        -- a reserved chunk also moves the request on when it is the one asked for
        let request' := if mode = mmapGetAddr ∧ curNum = request then request + 1 else request
        .inl (.chunk p (i + pageSize) entryEnd (curNum + 1) request')
      else if mode = mmapGetAddr ∧ curNum = request then .inr i
      else .inl (.chunk p (i + pageSize) entryEnd (curNum + 1) request)
    else .inl (.entry (p + area.stride) curNum request)

def mmapRead (fuel : Nat) (area : MultibootTagMmap) (request : Frame) (mode : BitVec 8) :
    Option PhysicalAddress :=
  if mode ≠ mmapGetNum ∧ mode ≠ mmapGetAddr then some 0
  else loop (mmapReadStep area mode) fuel (.entry area.first 0 request)

/-! ## `mmap_allocate_frame` -/

/-- The test of `mmap_allocate_frame`: both ranges are closed. -/
def ReservedAreas.contains (r : ReservedAreas) (addr : PhysicalAddress) : Prop :=
  (r.multibootStart ≤ addr ∧ addr ≤ r.multibootEnd) ∨ (r.kernelStart ≤ addr ∧ addr ≤ r.kernelEnd)

instance (r : ReservedAreas) (addr : PhysicalAddress) : Decidable (r.contains addr) :=
  inferInstanceAs (Decidable (_ ∨ _))

/-- What a call of `mmap_allocate_frame` leaves behind: the `current_addr` it accepted, the
    frame number it returns and the globals. -/
structure AllocateResult where
  currentAddr : PhysicalAddress
  frame : Frame
  state : MmapState

def mmapAllocateFrame : Nat → MmapState → Option AllocateResult
  | 0, _ => none
  | fuel + 1, s =>
    (mmapRead fuel s.memoryArea s.nextFreeFrame mmapGetAddr).bind fun currentAddr =>
      if s.toReservedAreas.contains currentAddr then
        mmapAllocateFrame fuel { s with nextFreeFrame := s.nextFreeFrame + 1 }
      else
        -- `mmap_read` takes a `uint32_t`, so the address loses its upper half here
        (mmapRead fuel s.memoryArea (currentAddr.setWidth 32) mmapGetNum).bind fun num =>
          let currentFrameNum := num.setWidth 32
          some ⟨currentAddr, currentFrameNum, { s with nextFreeFrame := currentFrameNum + 1 }⟩

/-! ## Frame numbers and addresses -/

def frameContainingAddress (addr : BitVec 64) : Frame :=
  (addr / pageSize).setWidth 32

/-- `frame * PAGE_SIZE` is a 32-bit product, widened afterwards. -/
def frameStartingAddress (frame : Frame) : BitVec 64 :=
  (frame * 4096#32).setWidth 64

/-! ## More fuel keeps the results -/

theorem mmapRead_fuelMono (area : MultibootTagMmap) (request : Frame) (mode : BitVec 8) :
    FuelMono (fun n => mmapRead n area request mode) := by
  intro n a h
  simp only [mmapRead] at h ⊢
  by_cases hmode : mode ≠ mmapGetNum ∧ mode ≠ mmapGetAddr
  · rw [if_pos hmode] at h ⊢
    exact h
  · rw [if_neg hmode] at h ⊢
    exact loop_fuelMono _ _ n a h

theorem mmapAllocateFrame_fuelMono (s : MmapState) :
    FuelMono (fun n => mmapAllocateFrame n s) := by
  intro n r h
  induction n generalizing s with
  | zero => simp [mmapAllocateFrame] at h
  | succ n ih =>
    simp only [mmapAllocateFrame] at h ⊢
    obtain ⟨addr, haddr, h⟩ := Option.bind_eq_some_iff.mp h
    refine Option.bind_eq_some_iff.mpr ⟨addr, mmapRead_fuelMono _ _ _ n addr haddr, ?_⟩
    split at h
    · rw [if_pos ‹_›]
      exact ih _ h
    · rw [if_neg ‹_›]
      obtain ⟨num, hnum, h⟩ := Option.bind_eq_some_iff.mp h
      exact Option.bind_eq_some_iff.mpr ⟨num, mmapRead_fuelMono _ _ _ n num hnum, h⟩

end Utero.Mmu
