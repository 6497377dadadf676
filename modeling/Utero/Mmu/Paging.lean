/-
  `src/mmu/paging.c`: page tables through the recursive mapping.

  The code reads and writes the tables at virtual addresses (`P4_TABLE` and the addresses
  `next_table_address` makes from it), so every access of the model is translated by the
  processor, on the memory as it then is. `none` means that the call does not come back: a
  page fault (the kernel panics), be it for an absent entry or for a write where the walk does
  not allow it, or an allocator that does not end within the fuel.

  The union `page_entry_t` is its packed word. Writing a bit-field of an entry is a
  read-modify-write of the word, and `set_addr_mask` is two of them, for `&=` and for `|=`. A
  page number (64 bits) is passed to the index functions as a `frame_t` (32 bits). `invlpg`
  has no effect here, there is no TLB. `mmap_deallocate_frame` of `mmap.c` writes to memory
  through virtual addresses, so it stands here too.
-/
import Utero.Lib.PageWalk
import Utero.Mmu.Mmap

namespace Utero.Mmu

open Utero.Lib

/-- `P4_TABLE`: the top table, seen through its own last entry four times. -/
def p4Table : BitVec 64 := 0xfffffffffffff000#64

/-! ## Memory -/

/-- Physical memory, the page-table base and the globals of `mmap.c`. -/
structure Machine where
  mem : PhysMem
  cr3 : FrameNo
  mmap : MmapState

namespace Machine

def load (s : Machine) (va : BitVec 64) : Option (BitVec 64) :=
  (hwTranslate s.mem s.cr3 va).map fun p => s.mem (slotOf p)

/-- The supervisor is bound by the write bits too: `boot.asm` sets CR0.WP. -/
def store (s : Machine) (va v : BitVec 64) : Option Machine :=
  (hwWrite s.mem s.cr3 va).map fun p =>
    { s with mem := Function.update s.mem (slotOf p) v }

def modify (s : Machine) (va : BitVec 64) (f : BitVec 64 → BitVec 64) : Option Machine := do
  let e ← s.load va
  s.store va (f e)

end Machine

/-- `&table[index]`. -/
def entryAddr (table index : BitVec 64) : BitVec 64 := table + index * 8#64

/-! ## Entries and page numbers -/

/-- What `set_addr_mask` makes of an entry. -/
def setAddrMask (packed addr : BitVec 64) : BitVec 64 :=
  (packed &&& 0xfff0000000000fff#64) ||| (addr * pageSize)

/-- `set_addr_mask` on the entry at a virtual address. -/
def Machine.setAddrMask (s : Machine) (va addr : BitVec 64) : Option Machine := do
  let s ← s.modify va (· &&& 0xfff0000000000fff#64)
  s.modify va (· ||| addr * pageSize)

/-- `.present = 1`. -/
def setPresent (packed : BitVec 64) : BitVec 64 := packed ||| 1#64

/-- `.writable = 1`. -/
def setWritable (packed : BitVec 64) : BitVec 64 := packed ||| 2#64

def pointedFrame (packed : BitVec 64) : Frame :=
  if Pte.present packed = true then
    frameContainingAddress (packed &&& 0x000ffffffffff000#64)
  else 0

def p4Index (frame : Frame) : BitVec 64 := ((frame >>> 27) &&& 0o777#32).setWidth 64
def p3Index (frame : Frame) : BitVec 64 := ((frame >>> 18) &&& 0o777#32).setWidth 64
def p2Index (frame : Frame) : BitVec 64 := ((frame >>> 9) &&& 0o777#32).setWidth 64
def p1Index (frame : Frame) : BitVec 64 := ((frame >>> 0) &&& 0o777#32).setWidth 64

def pageContainingAddress (addr : BitVec 64) : BitVec 64 := addr / pageSize

def pageStartingAddress (page : BitVec 64) : BitVec 64 := page * pageSize

/-! ## Looking up -/

def nextTableAddress (s : Machine) (table : BitVec 64) (index : BitVec 32) :
    Option (BitVec 64) := do
  let entry ← s.load (entryAddr table (index.setWidth 64))
  if Pte.present entry = true ∧ Pte.huge entry = false then
    some ((table <<< 9) ||| (index <<< 12).setWidth 64)
  else some 0

def translatePage (s : Machine) (page : BitVec 64) : Option Frame := do
  let frame := page.setWidth 32
  let p3 ← nextTableAddress s p4Table ((p4Index frame).setWidth 32)
  if p3 = 0 then return 0
  let p2 ← nextTableAddress s p3 ((p3Index frame).setWidth 32)
  if p2 = 0 then return 0
  let p1 ← nextTableAddress s p2 ((p2Index frame).setWidth 32)
  if p1 = 0 then return 0
  let entry ← s.load (entryAddr p1 (p1Index frame))
  return pointedFrame entry

def translate (s : Machine) (addr : BitVec 64) : Option PhysicalAddress := do
  let virt := pageContainingAddress addr
  let offset := virt % pageSize
  let frame ← translatePage s virt
  return pageStartingAddress (frame.setWidth 64) + offset

/-! ## Mapping -/

def nextTableCreate (fuel : Nat) (s : Machine) (table index : BitVec 64) :
    Option (BitVec 64 × Machine) := do
  let location ← s.load (entryAddr table index)
  let s ←
    if Pte.present location = false then do
      let r ← mmapAllocateFrame fuel s.mmap
      let addr ← mmapRead fuel r.state.memoryArea r.frame mmapGetAddr
      let s ← { s with mmap := r.state }.setAddrMask (entryAddr table index) addr
      let s ← s.modify (entryAddr table index) setPresent
      s.modify (entryAddr table index) setWritable
    else some s
  let res ← nextTableAddress s table (index.setWidth 32)
  return (res, s)

def mapPageToFrame (fuel : Nat) (s : Machine) (page : BitVec 64) (frame : Frame)
    (flags : BitVec 8) : Option Machine := do
  let number := page.setWidth 32
  let (p3, s) ← nextTableCreate fuel s p4Table (p4Index number)
  let (p2, s) ← nextTableCreate fuel s p3 (p3Index number)
  let (p1, s) ← nextTableCreate fuel s p2 (p2Index number)
  let s ← s.setAddrMask (entryAddr p1 (p1Index number)) (frame.setWidth 64)
  -- the whole word is overwritten, the address just set included
  let s ← s.store (entryAddr p1 (p1Index number)) (flags.setWidth 64)
  s.modify (entryAddr p1 (p1Index number)) setPresent

def identityMap (fuel : Nat) (s : Machine) (frame : Frame) (flags : BitVec 8) : Option Machine :=
  mapPageToFrame fuel s (pageContainingAddress (frameStartingAddress frame)) frame flags

def map (fuel : Nat) (s : Machine) (page : BitVec 64) (flags : BitVec 8) : Option Machine := do
  let r ← mmapAllocateFrame fuel s.mmap
  mapPageToFrame fuel { s with mmap := r.state } page r.frame flags

/-! ## Unmapping -/

/-- `.present = 0`. -/
def clearPresent (packed : BitVec 64) : BitVec 64 := packed &&& ~~~1#64

/-- The loop of `mmap_deallocate_frame`: words `i`, `i + 1`, … at `addr` are set to 0, `n` of
    them. -/
def clearWords (addr : BitVec 64) : Nat → Nat → Machine → Option Machine
  | 0, _, s => some s
  | n + 1, i, s => do
    let s ← s.store (entryAddr addr (BitVec.ofNat 64 i)) 0
    clearWords addr n (i + 1) s

/-- `mmap_deallocate_frame` of `mmap.c`. The pointer is to 64-bit words, so `PAGE_SIZE` steps
    clear eight pages. -/
def mmapDeallocateFrame (s : Machine) (frame : Frame) : Option Machine :=
  clearWords (frameStartingAddress frame) pageSize.toNat 0 s

def unmap (s : Machine) (page : BitVec 64) : Option Machine := do
  let number := page.setWidth 32
  -- unlike in `translate_page`, the addresses are not tested for 0
  let p3 ← nextTableAddress s p4Table ((p4Index number).setWidth 32)
  let p2 ← nextTableAddress s p3 ((p3Index number).setWidth 32)
  let p1 ← nextTableAddress s p2 ((p2Index number).setWidth 32)
  let entry ← s.load (entryAddr p1 (p1Index number))
  if Pte.present entry = false then return s
  let s ← s.modify (entryAddr p1 (p1Index number)) clearPresent
  mmapDeallocateFrame s (pointedFrame entry)

end Utero.Mmu
