/-
  `start` of `asm/boot.asm`: from the boot loader to long mode.

  The code runs in 32-bit mode on physical addresses. The processor is a parameter: the flags that
  `popfd` can change, the flags an arithmetic instruction leaves, and the answers of `cpuid`
  (`Processor`). The flags are followed up to the end of `check_cpuid`, the last place that reads
  them whole. The stack is in memory, behind the tables; `call`, `push` and `pushfd` write to it,
  and a `ret` to another address than that of its `call` would be `Stop.astray`. `lgdt` and the
  jump behind `enable_paging` end the program.

  `start_ends`: from any state with empty tables `start` gets to long mode, with the first GiB
  mapped to itself and with the magic number and the address of the block passed on, if and only if
  the magic number is right and the processor has `cpuid` and long mode. Otherwise it halts without
  paging, and the screen shows `ERR: ` and the number of the first check that fails. Besides the
  tables and the screen only the top eight bytes of the stack are written.
-/
import Utero.Lib.Program
import Utero.Libk.Text
import Utero.Mmu.BootTables

namespace Utero.Kernel.Start

open Utero.Lib Utero.Mmu
open Utero.Libk (ascii text text_ofList)

/-! ## The processor -/

/-- CF, PF, AF, ZF, SF and OF. -/
def statusFlags : BitVec 32 := 0x8d5

def idFlag : BitVec 32 := 1#32 <<< 21

structure Processor where
  /-- The flags that `popfd` can change. -/
  writable : BitVec 32
  /-- The flags after an arithmetic instruction, from those before it and its result. -/
  arithmetic : BitVec 32 → BitVec 32 → BitVec 32
  /-- eax, ebx, ecx and edx for a leaf. -/
  cpuid : BitVec 32 → BitVec 32 × BitVec 32 × BitVec 32 × BitVec 32
  arithmetic_other : ∀ flags r, arithmetic flags r &&& ~~~statusFlags = flags &&& ~~~statusFlags
  status_writable : statusFlags &&& writable = statusFlags

structure StartMachine extends BootMachine where
  ebx : BitVec 32
  esi : BitVec 32
  edi : BitVec 32
  flags : BitVec 32
  esp : BitVec 32
  cr0 : BitVec 32
  cr3 : BitVec 32
  cr4 : BitVec 32
  efer : BitVec 64

/-- Where the code does not come to its end: the `hlt` of `error`, or a `ret` to another address
    than that behind its `call`. -/
inductive Stop where
  | hlt
  | astray

abbrev StartM := Prog Stop StartMachine

/-- The subroutines that `start` calls. -/
inductive Subroutine where
  | checkMultiboot
  | checkCpuid
  | checkLongMode
  | setUpPageTables
  | enablePaging

/-- The addresses that the linker gives: the tables, one behind the other, and behind them the
    four pages of the stack (`.bss`, from 1 MiB on), and the addresses behind the calls. All is in
    the first GiB, which stays where it is when paging is on. -/
structure Image extends BootTables where
  returnTo : Subroutine → BitVec 32
  behind4 : p3 = p4 + 0x1000
  behind3 : p2 = p4 + 0x2000
  above : 0x100000 ≤ p4.toNat
  fits : p4.toNat + 0x7000 ≤ 2 ^ 30

/-- `stack_top` -/
def Image.stackTop (image : Image) : BitVec 32 := image.p2 + 0x5000

def loadDword (mem : PhysMem) (addr : BitVec 32) : BitVec 32 :=
  let slot := mem (slotOf (addr.setWidth 52))
  if addr.getLsbD 2 then slot.extractLsb' 32 32 else slot.extractLsb' 0 32

/-- Byte `k` of a slot. -/
def setByte (slot : BitVec 64) (k : Nat) (value : BitVec 8) : BitVec 64 :=
  (slot &&& ~~~(0xff#64 <<< (8 * k))) ||| (value.setWidth 64 <<< (8 * k))

def storeByte (mem : PhysMem) (addr : BitVec 32) (value : BitVec 8) : PhysMem :=
  let slot := slotOf (addr.setWidth 52)
  Function.update mem slot (setByte (mem slot) (addr.toNat % 8) value)

namespace StartMachine

variable (proc : Processor) (s : StartMachine)

def push (value : BitVec 32) : StartMachine :=
  { s with esp := s.esp - 4, mem := BootMachine.storeDword s.mem (s.esp - 4) value }

def pushfd : StartMachine := s.push s.flags

/-- The dword that a `pop` takes, and the machine without it. -/
def top : BitVec 32 := loadDword s.mem s.esp
def drop : StartMachine := { s with esp := s.esp + 4 }

def popEax : StartMachine := { s.drop with eax := s.top }

def popfd : StartMachine :=
  { s.drop with flags := (s.top &&& proc.writable) ||| (s.flags &&& ~~~proc.writable) }

def xorEax (value : BitVec 32) : StartMachine :=
  { s with eax := s.eax ^^^ value, flags := proc.arithmetic s.flags (s.eax ^^^ value) }

/-- `cmp` -/
def cmp (a b : BitVec 32) : StartMachine := { s with flags := proc.arithmetic s.flags (a - b) }

def cpuid : StartMachine :=
  let r := proc.cpuid s.eax
  { s with eax := r.1, ebx := r.2.1, ecx := r.2.2.1, edx := r.2.2.2 }

/-- `mov eax` and `cpuid` -/
def askCpuid (leaf : BitVec 32) : StartMachine := ({ s with eax := leaf } : StartMachine).cpuid proc

/-- `mov al` -/
def movAl (code : BitVec 8) : StartMachine :=
  { s with eax := (s.eax &&& 0xffffff00) ||| code.setWidth 32 }

/-- The stores of `error`. -/
def writeError : StartMachine :=
  let mem := BootMachine.storeDword s.mem 0xb8000 0x4f524f45
  let mem := BootMachine.storeDword mem 0xb8004 0x4f3a4f52
  let mem := BootMachine.storeDword mem 0xb8008 0x4f204f20
  { s with mem := storeByte mem 0xb800a (s.eax.setWidth 8) }

end StartMachine

/-! ## The code -/

def error : StartM Unit := do
  Prog.modify StartMachine.writeError
  Prog.stop .hlt

/-- `call`, the subroutine and its `ret`. -/
def call (image : Image) (sub : Subroutine) (body : StartM Unit) : StartM Unit := do
  Prog.modify fun s => s.push (image.returnTo sub)
  body
  let s ← Prog.get
  Prog.modify StartMachine.drop
  if s.top = image.returnTo sub then pure () else Prog.stop .astray

/-- A check that goes to `error` with its number in `al`. -/
def failWith (code : BitVec 8) : StartM Unit := do
  Prog.modify fun s => s.movAl code
  error

def multiboot2MagicValue : BitVec 32 := 0x36d76289

def checkMultiboot (proc : Processor) : StartM Unit := do
  let s ← Prog.get
  Prog.modify fun s => s.cmp proc s.eax multiboot2MagicValue
  if s.eax ≠ multiboot2MagicValue then failWith (ascii '0') else pure ()

/-- Up to the comparison: `eax` has the flags with the ID bit flipped, if it can be, and `ecx` the
    flags before. -/
def flipId (proc : Processor) (s : StartMachine) : StartMachine :=
  let s := s.pushfd.popEax
  let s : StartMachine := { s with ecx := s.eax }
  let s := s.xorEax proc idFlag
  let s := (s.push s.eax).popfd proc
  let s := s.pushfd.popEax
  (s.push s.ecx).popfd proc

def checkCpuid (proc : Processor) : StartM Unit := do
  Prog.modify fun s => flipId proc s
  let s ← Prog.get
  Prog.modify fun s => s.cmp proc s.eax s.ecx
  if s.eax = s.ecx then failWith (ascii '1') else pure ()

def checkLongMode (proc : Processor) : StartM Unit := do
  Prog.modify fun s => s.askCpuid proc 0x80000000
  let s ← Prog.get
  if s.eax < 0x80000001 then failWith (ascii '2')
  else
    Prog.modify fun s => s.askCpuid proc 0x80000001
    let s ← Prog.get
    if s.edx &&& (1#32 <<< 29) = 0 then failWith (ascii '2') else pure ()

/-- `set_up_page_tables` -/
def setUpTables (t : BootTables) : StartM Unit := fun n s =>
  (setUpPageTables t n s.toBootMachine).map fun b => (.ok (), { s with toBootMachine := b })

def enablePaging (t : BootTables) (s : StartMachine) : StartMachine :=
  let s : StartMachine := { s with eax := t.p4 }
  let s : StartMachine := { s with cr3 := s.eax }
  let s : StartMachine := { s with eax := s.cr4 ||| (1#32 <<< 5) }
  let s : StartMachine := { s with cr4 := s.eax }
  -- rdmsr and wrmsr go through edx and eax
  let s : StartMachine :=
    { s with ecx := 0xc0000080, eax := s.efer.setWidth 32, edx := s.efer.extractLsb' 32 32 }
  let s : StartMachine := { s with eax := s.eax ||| (1#32 <<< 8) }
  let s : StartMachine := { s with efer := s.edx ++ s.eax }
  let s : StartMachine := { s with eax := s.cr0 ||| (1#32 <<< 31) ||| (1#32 <<< 16) }
  { s with cr0 := s.eax }

/-- `esp`, `esi` and `edi` -/
def begin (image : Image) (s : StartMachine) : StartMachine :=
  { s with esp := image.stackTop, esi := s.ebx, edi := s.eax }

/-- Up to the jump to `long_mode_start`. -/
def start (proc : Processor) (image : Image) : StartM Unit := do
  Prog.modify (begin image)
  call image .checkMultiboot (checkMultiboot proc)
  call image .checkCpuid (checkCpuid proc)
  call image .checkLongMode (checkLongMode proc)
  call image .setUpPageTables (setUpTables image.toBootTables)
  call image .enablePaging (Prog.modify (enablePaging image.toBootTables))

/-! ## The stack -/

theorem extract_low (hi lo : BitVec 32) : (hi ++ lo).extractLsb' 0 32 = lo := by
  refine BitVec.eq_of_getLsbD_eq fun i h => ?_
  rw [BitVec.getLsbD_extractLsb', BitVec.getLsbD_append]
  simp [h]

theorem extract_high (hi lo : BitVec 32) : (hi ++ lo).extractLsb' 32 32 = hi := by
  refine BitVec.eq_of_getLsbD_eq fun i h => ?_
  rw [BitVec.getLsbD_extractLsb', BitVec.getLsbD_append]
  simp [h]

theorem loadDword_storeDword (mem : PhysMem) (addr value : BitVec 32) :
    loadDword (BootMachine.storeDword mem addr value) addr = value := by
  unfold loadDword BootMachine.storeDword
  dsimp only
  rw [Function.update_self]
  cases addr.getLsbD 2 with
  | true => exact extract_high _ _
  | false => exact extract_low _ _

theorem storeDword_storeDword (mem : PhysMem) (addr v w : BitVec 32) :
    BootMachine.storeDword (BootMachine.storeDword mem addr v) addr w =
      BootMachine.storeDword mem addr w := by
  unfold BootMachine.storeDword
  dsimp only
  rw [Function.update_self, Function.update_idem]
  cases addr.getLsbD 2 with
  | true => simp only [if_true, extract_low]
  | false => simp only [Bool.false_eq_true, if_false, extract_high]

theorem storeDword_other (mem : PhysMem) {addr : BitVec 32} (value : BitVec 32) {slot : Slot}
    (h : slot ≠ slotOf (addr.setWidth 52)) :
    BootMachine.storeDword mem addr value slot = mem slot :=
  Function.update_of_ne h _ _

/-- The other half of a slot. -/
theorem loadDword_storeDword_other (mem : PhysMem) {a b : BitVec 32} (value : BitVec 32)
    (hslot : slotOf (a.setWidth 52) = slotOf (b.setWidth 52)) (ha : a.getLsbD 2 = true)
    (hb : b.getLsbD 2 = false) :
    loadDword (BootMachine.storeDword mem b value) a = loadDword mem a := by
  unfold loadDword BootMachine.storeDword
  dsimp only
  rw [hslot, Function.update_self, if_pos ha, if_pos ha, if_neg (by rw [hb]; decide)]
  exact extract_high _ _

theorem StartMachine.popEax_push (s : StartMachine) (value : BitVec 32) :
    (s.push value).popEax =
      { s with eax := value, mem := BootMachine.storeDword s.mem (s.esp - 4) value } := by
  have htop : (s.push value).top = value := loadDword_storeDword _ _ _
  unfold popEax
  rw [htop]
  unfold drop push
  dsimp only
  rw [BitVec.sub_add_cancel]

theorem StartMachine.popfd_push (proc : Processor) (s : StartMachine) (value : BitVec 32) :
    (s.push value).popfd proc =
      { s with
        flags := (value &&& proc.writable) ||| (s.flags &&& ~~~proc.writable)
        mem := BootMachine.storeDword s.mem (s.esp - 4) value } := by
  have htop : (s.push value).top = value := loadDword_storeDword _ _ _
  unfold popfd
  rw [htop]
  unfold drop push
  dsimp only
  rw [BitVec.sub_add_cancel]

/-- The top eight bytes of the stack. -/
def Image.stackSlot (image : Image) : Slot := ⟨tableFrame (image.p4 + 0x6000), 511⟩

theorem tableFrame_toNat (table : BitVec 32) : (tableFrame table).toNat = table.toNat / 4096 := by
  unfold tableFrame
  rw [BitVec.extractLsb'_toNat, BitVec.toNat_setWidth, Nat.shiftRight_eq_div_pow]
  omega

namespace Image

variable (image : Image)

/-- The pages behind the first table do not reach 4 GiB. -/
theorem behind_toNat {n : BitVec 32} (hn : n.toNat ≤ 0x7000) :
    (image.p4 + n).toNat = image.p4.toNat + n.toNat := by
  have hfits := image.fits
  exact BitVec.toNat_add_of_lt (by omega)

theorem frames : (tableFrame image.p4).toNat = image.p4.toNat / 4096 ∧
    (tableFrame image.p3).toNat = image.p4.toNat / 4096 + 1 ∧
    (tableFrame image.p2).toNat = image.p4.toNat / 4096 + 2 ∧
    image.stackSlot.frame.toNat = image.p4.toNat / 4096 + 6 := by
  have hframe : ∀ n k : Nat, n = 4096 * k → (image.p4.toNat + n) / 4096 =
      image.p4.toNat / 4096 + k := by
    intro n k hn
    omega
  have h3 : (0x1000 : BitVec 32).toNat = 0x1000 := rfl
  have h2 : (0x2000 : BitVec 32).toNat = 0x2000 := rfl
  have h6 : (0x6000 : BitVec 32).toNat = 0x6000 := rfl
  have hslot : image.stackSlot.frame = tableFrame (image.p4 + 0x6000) := rfl
  refine ⟨tableFrame_toNat _, ?_, ?_, ?_⟩
  · rw [tableFrame_toNat, image.behind4, image.behind_toNat (by rw [h3]; omega), h3]
    exact hframe _ 1 (by omega)
  · rw [tableFrame_toNat, image.behind3, image.behind_toNat (by rw [h2]; omega), h2]
    exact hframe _ 2 (by omega)
  · rw [hslot, tableFrame_toNat, image.behind_toNat (by rw [h6]; omega), h6]
    exact hframe _ 6 (by omega)

/-- The stack is apart from the tables and from the screen. -/
theorem stack_apart : image.stackSlot.frame ≠ tableFrame image.p4 ∧
    image.stackSlot.frame ≠ tableFrame image.p3 ∧ image.stackSlot.frame ≠ tableFrame image.p2 ∧
    image.stackSlot.frame ≠ 0xb8 := by
  obtain ⟨h4, h3, h2, hstack⟩ := image.frames
  have habove := image.above
  have hscreen : (0xb8 : FrameNo).toNat = 0xb8 := rfl
  refine ⟨fun h => ?_, fun h => ?_, fun h => ?_, fun h => ?_⟩
  · rw [h, h4] at hstack
    omega
  · rw [h, h3] at hstack
    omega
  · rw [h, h2] at hstack
    omega
  · rw [h, hscreen] at hstack
    omega

theorem aligned6 : (image.p4 + 0x6000).extractLsb' 0 12 = 0 := by
  have hzero : (0x6000 : BitVec 32).extractLsb' 0 12 = 0 := by decide
  have h4 := congrArg BitVec.toNat image.aligned4
  have h6 : (0x6000 : BitVec 32).toNat = 0x6000 := rfl
  apply BitVec.eq_of_toNat_eq
  rw [BitVec.extractLsb'_toNat, Nat.shiftRight_zero] at h4 ⊢
  rw [image.behind_toNat (by rw [h6]; omega), h6, Nat.add_mod, h4]
  decide

/-- The dwords that the calls use: the address behind the call, and below it what the subroutine
    pushes. -/
theorem stackTop_sub : image.stackTop - 4 = image.p4 + 0x6000 + 0xffc ∧
    image.stackTop - 4 - 4 = image.p4 + 0x6000 + 0xff8 := by
  have hreturn : (0x2000 + (0x5000 + -4) : BitVec 32) = 0x6000 + 0xffc := by decide
  have hpushed : (0x2000 + (0x5000 + (-4 + -4)) : BitVec 32) = 0x6000 + 0xff8 := by decide
  unfold stackTop
  rw [image.behind3]
  constructor
  · rw [BitVec.sub_eq_add_neg, BitVec.add_assoc, BitVec.add_assoc, hreturn, ← BitVec.add_assoc]
  · rw [BitVec.sub_eq_add_neg, BitVec.sub_eq_add_neg, BitVec.add_assoc, BitVec.add_assoc,
      BitVec.add_assoc, hpushed, ← BitVec.add_assoc]

theorem slotOf_stack {n : BitVec 32} (hlow : 4088 ≤ n.toNat) (hhigh : n.toNat < 4096) :
    slotOf ((image.p4 + 0x6000 + n).setWidth 52) = image.stackSlot := by
  have hfits := image.fits
  have h6 : (0x6000 : BitVec 32).toNat = 0x6000 := rfl
  have hbase := image.behind_toNat (n := 0x6000) (by rw [h6]; omega)
  have haligned := congrArg BitVec.toNat image.aligned6
  have hsum : (image.p4 + 0x6000 + n).toNat = (image.p4 + 0x6000).toNat + n.toNat :=
    BitVec.toNat_add_of_lt (by omega)
  rw [BitVec.extractLsb'_toNat, Nat.shiftRight_zero] at haligned
  have hzero : (0 : BitVec 12).toNat = 0 := rfl
  have h511 : (511 : BitVec 9).toNat = 511 := rfl
  have hframe : ((image.p4 + 0x6000 + n).setWidth 52).extractLsb' 12 40 =
      tableFrame (image.p4 + 0x6000) := by
    apply BitVec.eq_of_toNat_eq
    rw [tableFrame_toNat, BitVec.extractLsb'_toNat, BitVec.toNat_setWidth,
      Nat.shiftRight_eq_div_pow, hsum]
    omega
  have hindex : ((image.p4 + 0x6000 + n).setWidth 52).extractLsb' 3 9 = (511 : BitVec 9) := by
    apply BitVec.eq_of_toNat_eq
    rw [BitVec.extractLsb'_toNat, BitVec.toNat_setWidth, Nat.shiftRight_eq_div_pow, hsum, h511]
    omega
  unfold slotOf stackSlot
  rw [hframe, hindex]

theorem slotOf_return : slotOf ((image.stackTop - 4).setWidth 52) = image.stackSlot := by
  rw [image.stackTop_sub.1]
  exact image.slotOf_stack (by decide) (by decide)

theorem slotOf_pushed : slotOf ((image.stackTop - 4 - 4).setWidth 52) = image.stackSlot := by
  rw [image.stackTop_sub.2]
  exact image.slotOf_stack (by decide) (by decide)

theorem getLsbD_stack {n : BitVec 32} (hn : n.toNat < 4096) :
    (image.p4 + 0x6000 + n).getLsbD 2 = n.getLsbD 2 := by
  have hfits := image.fits
  have h6 : (0x6000 : BitVec 32).toNat = 0x6000 := rfl
  have hbase := image.behind_toNat (n := 0x6000) (by rw [h6]; omega)
  have haligned := congrArg BitVec.toNat image.aligned6
  have hsum : (image.p4 + 0x6000 + n).toNat = (image.p4 + 0x6000).toNat + n.toNat :=
    BitVec.toNat_add_of_lt (by omega)
  rw [BitVec.extractLsb'_toNat, Nat.shiftRight_zero] at haligned
  have hzero : (0 : BitVec 12).toNat = 0 := rfl
  have hdiv : ((image.p4 + 0x6000).toNat + n.toNat) / 2 ^ 2 % 2 = n.toNat / 2 ^ 2 % 2 := by omega
  rw [← BitVec.testBit_toNat, ← BitVec.testBit_toNat, hsum, Nat.testBit_eq_decide_div_mod_eq,
    Nat.testBit_eq_decide_div_mod_eq, hdiv]

theorem return_high : (image.stackTop - 4).getLsbD 2 = true := by
  rw [image.stackTop_sub.1, image.getLsbD_stack (by decide)]
  decide

theorem pushed_low : (image.stackTop - 4 - 4).getLsbD 2 = false := by
  rw [image.stackTop_sub.2, image.getLsbD_stack (by decide)]
  decide

end Image

/-! ## The checks -/

theorem getLsbD_bit {w k : Nat} (hk : k < w) (i : Nat) :
    (1#w <<< k).getLsbD i = decide (i = k) := by
  rw [BitVec.getLsbD_shiftLeft, BitVec.getLsbD_one]
  grind

/-- An arithmetic instruction keeps the flags that `popfd` cannot change. -/
theorem Processor.arithmetic_fixed (proc : Processor) (flags r : BitVec 32) :
    proc.arithmetic flags r &&& ~~~proc.writable = flags &&& ~~~proc.writable := by
  refine BitVec.eq_of_getLsbD_eq fun i hi => ?_
  have hother := congrArg (BitVec.getLsbD · i) (proc.arithmetic_other flags r)
  have hstatus := congrArg (BitVec.getLsbD · i) proc.status_writable
  simp only [BitVec.getLsbD_and, BitVec.getLsbD_not, hi, decide_true, Bool.true_and]
    at hother hstatus ⊢
  cases hw : proc.writable.getLsbD i with
  | true => simp
  | false =>
    rw [hw, Bool.and_false] at hstatus
    simpa [← hstatus] using hother

/-- The flags that come back from a `popfd` with the ID bit flipped. -/
def flipped (proc : Processor) (flags : BitVec 32) : BitVec 32 :=
  ((flags ^^^ idFlag) &&& proc.writable) ||| (flags &&& ~~~proc.writable)

theorem flipped_eq_iff (proc : Processor) (flags : BitVec 32) :
    flipped proc flags = flags ↔ proc.writable.getLsbD 21 = false := by
  have hbit : ∀ i < 32, (flipped proc flags).getLsbD i =
      (flags.getLsbD i ^^ (decide (i = 21) && proc.writable.getLsbD i)) := by
    intro i hi
    unfold flipped
    have hid : idFlag.getLsbD i = decide (i = 21) := getLsbD_bit (by decide) i
    simp only [BitVec.getLsbD_or, BitVec.getLsbD_and, BitVec.getLsbD_xor, BitVec.getLsbD_not,
      hid, hi, decide_true, Bool.true_and]
    cases flags.getLsbD i <;> cases proc.writable.getLsbD i <;> simp
  constructor
  · intro h
    have h21 := hbit 21 (by decide)
    rw [h, decide_eq_true rfl, Bool.true_and] at h21
    cases hw : proc.writable.getLsbD 21 with
    | false => rfl
    | true =>
      rw [hw, Bool.xor_true] at h21
      exact absurd h21 (by simp)
  · intro hfixed
    refine BitVec.eq_of_getLsbD_eq fun i hi => ?_
    rw [hbit i hi]
    by_cases h : i = 21
    · rw [h, hfixed]
      simp
    · simp [h]

/-- The flags are as before at the end; they stay behind below the stack. -/
theorem flipId_eq (proc : Processor) (s : StartMachine) :
    flipId proc s =
      { s with
        eax := flipped proc s.flags
        ecx := s.flags
        mem := BootMachine.storeDword s.mem (s.esp - 4) s.flags } := by
  have hback : (s.flags &&& proc.writable) ||| (flipped proc s.flags &&& ~~~proc.writable) =
      s.flags := by
    refine BitVec.eq_of_getLsbD_eq fun i hi => ?_
    unfold flipped
    simp only [BitVec.getLsbD_or, BitVec.getLsbD_and, BitVec.getLsbD_xor, BitVec.getLsbD_not,
      hi, decide_true, Bool.true_and]
    cases s.flags.getLsbD i <;> cases proc.writable.getLsbD i <;> simp
  have hfixed := proc.arithmetic_fixed s.flags (s.flags ^^^ idFlag)
  have hflipped : ((s.flags ^^^ idFlag) &&& proc.writable) ||| (s.flags &&& ~~~proc.writable) =
      flipped proc s.flags := rfl
  unfold flipId StartMachine.pushfd StartMachine.xorEax
  simp only [StartMachine.popEax_push, StartMachine.popfd_push, storeDword_storeDword, hfixed,
    hflipped, hback]

def Processor.hasCpuid (proc : Processor) : Bool := proc.writable.getLsbD 21

def Processor.hasLongMode (proc : Processor) : Bool :=
  decide (0x80000001 ≤ (proc.cpuid 0x80000000).1) && (proc.cpuid 0x80000001).2.2.2.getLsbD 29

/-- The number of the first check that fails. -/
def failure (proc : Processor) (magic : BitVec 32) : Option Char :=
  if magic ≠ multiboot2MagicValue then some '0'
  else if proc.hasCpuid = false then some '1'
  else if proc.hasLongMode = false then some '2'
  else none

/-- What the checks leave alone. -/
structure Same (image : Image) (s s' : StartMachine) : Prop where
  mem : ∀ slot, slot ≠ image.stackSlot → s'.mem slot = s.mem slot
  arguments : s'.esi = s.esi ∧ s'.edi = s.edi
  control : s'.cr0 = s.cr0 ∧ s'.cr3 = s.cr3 ∧ s'.cr4 = s.cr4 ∧ s'.efer = s.efer

/-- What a subroutine must leave alone besides: the address to return to. -/
structure Kept (image : Image) (s s' : StartMachine) : Prop extends Same image s s' where
  esp : s'.esp = s.esp
  top : s'.top = s.top

theorem Same.trans {image : Image} {s s' s'' : StartMachine} (h : Same image s s')
    (h' : Same image s' s'') : Same image s s'' where
  mem slot hslot := (h'.mem slot hslot).trans (h.mem slot hslot)
  arguments := ⟨h'.arguments.1.trans h.arguments.1, h'.arguments.2.trans h.arguments.2⟩
  control := ⟨h'.control.1.trans h.control.1, h'.control.2.1.trans h.control.2.1,
    h'.control.2.2.1.trans h.control.2.2.1, h'.control.2.2.2.trans h.control.2.2.2⟩

theorem Kept.trans {image : Image} {s s' s'' : StartMachine} (h : Kept image s s')
    (h' : Kept image s' s'') : Kept image s s'' :=
  ⟨h.toSame.trans h'.toSame, h'.esp.trans h.esp, h'.top.trans h.top⟩

/-- Only registers that nothing here depends on. -/
theorem Kept.of_mem {image : Image} {s s' : StartMachine} (hmem : s'.mem = s.mem)
    (hesp : s'.esp = s.esp) (harguments : s'.esi = s.esi ∧ s'.edi = s.edi)
    (hcontrol : s'.cr0 = s.cr0 ∧ s'.cr3 = s.cr3 ∧ s'.cr4 = s.cr4 ∧ s'.efer = s.efer) :
    Kept image s s' where
  mem slot _ := congrFun hmem slot
  arguments := harguments
  control := hcontrol
  esp := hesp
  top := by
    unfold StartMachine.top
    rw [hmem, hesp]

/-- The address that a `call` pushes. -/
theorem same_push {image : Image} {s : StartMachine} (hesp : s.esp = image.stackTop)
    (value : BitVec 32) : Same image s (s.push value) where
  mem slot hslot := storeDword_other _ _ (by rwa [hesp, image.slotOf_return])
  arguments := ⟨rfl, rfl⟩
  control := ⟨rfl, rfl, rfl, rfl⟩

theorem top_push (s : StartMachine) (value : BitVec 32) : (s.push value).top = value :=
  loadDword_storeDword _ _ _

/-- A subroutine that leaves the address alone returns behind its `call`. -/
theorem ends_call {image : Image} {sub : Subroutine} {body : StartM Unit} {s s' : StartMachine}
    (hends : body.Ends (s.push (image.returnTo sub)) (.ok ()) s')
    (hesp : s'.esp = (s.push (image.returnTo sub)).esp)
    (htop : s'.top = (s.push (image.returnTo sub)).top) :
    (call image sub body).Ends s (.ok ()) s'.drop ∧ s'.drop.esp = s.esp := by
  have hreturn : s'.top = image.returnTo sub := htop.trans (top_push _ _)
  constructor
  · refine (Prog.ends_modify _ s).bind (hends.bind ((Prog.ends_get _).bind
      ((Prog.ends_modify _ _).bind ?_)))
    rw [if_pos hreturn]
    exact Prog.ends_pure _ _
  · show s'.esp + 4 = s.esp
    rw [hesp]
    exact BitVec.sub_add_cancel _ _

/-- A check passes if `ok`, and goes to `error` with its number otherwise. -/
def Checks (image : Image) (p : StartM Unit) (s : StartMachine) (ok : Bool) (code : Char) : Prop :=
  ∃ s', Kept image s s' ∧
    if ok then p.Ends s (.ok ()) s' else p.Ends s (.error .hlt) (s'.movAl (ascii code)).writeError

theorem ends_failWith (code : BitVec 8) (s : StartMachine) :
    (failWith code).Ends s (.error .hlt) (s.movAl code).writeError :=
  (Prog.ends_modify _ _).bind ((Prog.ends_modify _ _).bind (Prog.ends_stop _ _))

theorem checks_multiboot (image : Image) (proc : Processor) (s : StartMachine) :
    Checks image (checkMultiboot proc) s (decide (s.eax = multiboot2MagicValue)) '0' := by
  refine ⟨s.cmp proc s.eax multiboot2MagicValue,
    .of_mem rfl rfl ⟨rfl, rfl⟩ ⟨rfl, rfl, rfl, rfl⟩, ?_⟩
  unfold checkMultiboot
  by_cases h : s.eax = multiboot2MagicValue
  · rw [if_pos (decide_eq_true h)]
    refine (Prog.ends_get s).bind ((Prog.ends_modify _ s).bind ?_)
    rw [if_neg (not_not_intro h)]
    exact Prog.ends_pure _ _
  · rw [if_neg (by rw [decide_eq_false h]; decide)]
    refine (Prog.ends_get s).bind ((Prog.ends_modify _ s).bind ?_)
    rw [if_pos h]
    exact ends_failWith _ _

/-- The pushes of `check_cpuid` are below the address to return to. -/
theorem kept_flipId {image : Image} (proc : Processor) {s : StartMachine}
    (hesp : s.esp = image.stackTop - 4) : Kept image s (flipId proc s) := by
  rw [flipId_eq]
  constructor
  · constructor
    · intro slot hslot
      exact storeDword_other _ _ (by rwa [hesp, image.slotOf_pushed])
    · exact ⟨rfl, rfl⟩
    · exact ⟨rfl, rfl, rfl, rfl⟩
  · rfl
  · show loadDword (BootMachine.storeDword s.mem (s.esp - 4) s.flags) s.esp = loadDword s.mem s.esp
    rw [hesp]
    exact loadDword_storeDword_other _ _ (image.slotOf_return.trans image.slotOf_pushed.symm)
      image.return_high image.pushed_low

theorem checks_cpuid {image : Image} (proc : Processor) {s : StartMachine}
    (hesp : s.esp = image.stackTop - 4) : Checks image (checkCpuid proc) s proc.hasCpuid '1' := by
  refine ⟨(flipId proc s).cmp proc (flipId proc s).eax (flipId proc s).ecx,
    (kept_flipId proc hesp).trans (.of_mem rfl rfl ⟨rfl, rfl⟩ ⟨rfl, rfl, rfl, rfl⟩), ?_⟩
  have heq : (flipId proc s).eax = (flipId proc s).ecx ↔ proc.hasCpuid = false := by
    rw [flipId_eq]
    exact flipped_eq_iff proc s.flags
  unfold checkCpuid
  split
  · rename_i hcpuid
    refine (Prog.ends_modify _ s).bind ((Prog.ends_get _).bind ((Prog.ends_modify _ _).bind ?_))
    rw [if_neg (by rw [heq, hcpuid]; decide)]
    exact Prog.ends_pure _ _
  · rename_i hcpuid
    refine (Prog.ends_modify _ s).bind ((Prog.ends_get _).bind ((Prog.ends_modify _ _).bind ?_))
    rw [if_pos (heq.mpr (Bool.eq_false_iff.mpr hcpuid))]
    exact ends_failWith _ _

theorem and_bit29_iff (v : BitVec 32) : v &&& (1#32 <<< 29) = 0 ↔ v.getLsbD 29 = false := by
  have hbit : ∀ i, (1#32 <<< 29).getLsbD i = decide (i = 29) := getLsbD_bit (by decide)
  constructor
  · intro h
    have h29 := congrArg (BitVec.getLsbD · 29) h
    simpa [hbit] using h29
  · intro h
    refine BitVec.eq_of_getLsbD_eq fun i hi => ?_
    rw [BitVec.getLsbD_and, hbit]
    by_cases h29 : i = 29
    · rw [h29, h]
      rfl
    · simp [h29]

theorem kept_cpuid (image : Image) (proc : Processor) (s : StartMachine) (leaf : BitVec 32) :
    Kept image s (s.askCpuid proc leaf) :=
  .of_mem rfl rfl ⟨rfl, rfl⟩ ⟨rfl, rfl, rfl, rfl⟩

theorem checks_longMode (image : Image) (proc : Processor) (s : StartMachine) :
    Checks image (checkLongMode proc) s proc.hasLongMode '2' := by
  have hfirst := kept_cpuid image proc s 0x80000000
  have heax : (s.askCpuid proc 0x80000000).eax = (proc.cpuid 0x80000000).1 := rfl
  unfold checkLongMode
  by_cases hleaf : (s.askCpuid proc 0x80000000).eax < 0x80000001
  · have hno : proc.hasLongMode = false := by
      unfold Processor.hasLongMode
      rw [decide_eq_false (BitVec.not_le.mpr (heax ▸ hleaf)), Bool.false_and]
    refine ⟨_, hfirst, ?_⟩
    rw [if_neg (by rw [hno]; decide)]
    refine (Prog.ends_modify _ s).bind ((Prog.ends_get _).bind ?_)
    rw [if_pos hleaf]
    exact ends_failWith _ _
  · have hlm : proc.hasLongMode =
        ((s.askCpuid proc 0x80000000).askCpuid proc 0x80000001).edx.getLsbD 29 := by
      unfold Processor.hasLongMode
      rw [decide_eq_true (BitVec.not_lt.mp (heax ▸ hleaf)), Bool.true_and]
      rfl
    refine ⟨_, hfirst.trans (kept_cpuid image proc _ 0x80000001), ?_⟩
    rw [hlm]
    split
    · rename_i hbit
      refine (Prog.ends_modify _ s).bind ((Prog.ends_get _).bind ?_)
      rw [if_neg hleaf]
      refine (Prog.ends_modify _ _).bind ((Prog.ends_get _).bind ?_)
      rw [if_neg (by rw [and_bit29_iff, hbit]; decide)]
      exact Prog.ends_pure _ _
    · rename_i hbit
      refine (Prog.ends_modify _ s).bind ((Prog.ends_get _).bind ?_)
      rw [if_neg hleaf]
      refine (Prog.ends_modify _ _).bind ((Prog.ends_get _).bind ?_)
      rw [if_pos ((and_bit29_iff _).mpr (Bool.eq_false_iff.mpr hbit))]
      exact ends_failWith _ _

/-! ## The error message -/

/-- The first slots of the screen. -/
def screenSlot0 : Slot := ⟨0xb8, 0⟩
def screenSlot1 : Slot := ⟨0xb8, 1⟩

/-- The first six cells of the screen, byte by byte. -/
def screenBytes (mem : PhysMem) : List (BitVec 8) :=
  (List.range 12).map fun k =>
    (mem (slotOf (0xb8000 + BitVec.ofNat 52 k))).extractLsb' (8 * (k % 8)) 8

theorem getLsbD_ff (i : Nat) : (0xff#64).getLsbD i = decide (i < 8) := by
  rw [show 0xff#64 = BitVec.ofNat 64 (2 ^ 8 - 1) from rfl, BitVec.getLsbD_ofNat,
    Nat.testBit_two_pow_sub_one]
  by_cases hi : i < 8
  · simp [hi]
    omega
  · simp [hi]

theorem extract_setByte (slot : BitVec 64) {k : Nat} (hk : k < 8) (value : BitVec 8) (j : Nat) :
    (setByte slot k value).extractLsb' (8 * j) 8 =
      if j = k then value else slot.extractLsb' (8 * j) 8 := by
  have hvalue := fun i => BitVec.getLsbD_of_ge value i
  have hslot := fun i => BitVec.getLsbD_of_ge slot i
  refine BitVec.eq_of_getLsbD_eq fun i hi => ?_
  unfold setByte
  split
  · rename_i hj
    subst hj
    simp only [BitVec.getLsbD_extractLsb', BitVec.getLsbD_or, BitVec.getLsbD_and,
      BitVec.getLsbD_not, BitVec.getLsbD_shiftLeft, BitVec.getLsbD_setWidth, getLsbD_ff]
    simp [hi, show 8 * j + i < 64 by omega, show i < 64 by omega]
  · simp only [BitVec.getLsbD_extractLsb', BitVec.getLsbD_or, BitVec.getLsbD_and,
      BitVec.getLsbD_not, BitVec.getLsbD_shiftLeft, BitVec.getLsbD_setWidth, getLsbD_ff]
    grind

/-- The memory that `error` leaves. -/
theorem writeError_mem (s : StartMachine) :
    s.writeError.mem = Function.update
      (Function.update s.mem screenSlot0 0x4f3a4f524f524f45) screenSlot1
      (setByte ((s.mem screenSlot1).extractLsb' 32 32 ++ 0x4f204f20#32) 2 (s.eax.setWidth 8)) := by
  have hfirst : ∀ (m : PhysMem) (v : BitVec 32), BootMachine.storeDword m 0xb8000 v =
      Function.update m screenSlot0 ((m screenSlot0).extractLsb' 32 32 ++ v) := fun _ _ => rfl
  have hsecond : ∀ (m : PhysMem) (v : BitVec 32), BootMachine.storeDword m 0xb8004 v =
      Function.update m screenSlot0 (v ++ (m screenSlot0).extractLsb' 0 32) := fun _ _ => rfl
  have hthird : ∀ (m : PhysMem) (v : BitVec 32), BootMachine.storeDword m 0xb8008 v =
      Function.update m screenSlot1 ((m screenSlot1).extractLsb' 32 32 ++ v) := fun _ _ => rfl
  have hcode : ∀ (m : PhysMem) (v : BitVec 8), storeByte m 0xb800a v =
      Function.update m screenSlot1 (setByte (m screenSlot1) 2 v) := fun _ _ => rfl
  have hne : screenSlot1 ≠ screenSlot0 := by decide
  unfold StartMachine.writeError
  dsimp only
  rw [hfirst, hsecond, hthird, hcode, Function.update_self, Function.update_self, extract_low,
    Function.update_idem, Function.update_idem, Function.update_of_ne hne]
  rfl

theorem movAl_low (s : StartMachine) (code : BitVec 8) :
    (s.movAl code).eax.setWidth 8 = code := by
  refine BitVec.eq_of_getLsbD_eq fun i hi => ?_
  have hmask : ∀ i < 8, (0xffffff00#32).getLsbD i = false := by decide
  show (((s.eax &&& 0xffffff00#32) ||| code.setWidth 32).setWidth 8).getLsbD i = _
  simp only [BitVec.getLsbD_setWidth, BitVec.getLsbD_or, BitVec.getLsbD_and, hmask i hi]
  simp [hi, show i < 32 by omega]

/-- The machine that `error` leaves: `s` with the message on the screen, and the top of the stack
    written. -/
structure Halted (image : Image) (code : Char) (s s' : StartMachine) : Prop where
  screen : screenBytes s'.mem = (text "ERR: " ++ [ascii code]).flatMap fun c => [c, 0x4f]
  half : (s'.mem screenSlot1).extractLsb' 32 32 = (s.mem screenSlot1).extractLsb' 32 32
  mem : ∀ slot, slot ≠ screenSlot0 → slot ≠ screenSlot1 → slot ≠ image.stackSlot →
    s'.mem slot = s.mem slot
  control : s'.cr0 = s.cr0 ∧ s'.cr3 = s.cr3 ∧ s'.cr4 = s.cr4 ∧ s'.efer = s.efer

theorem extract_byte_low (hi lo : BitVec 32) {k : Nat} (hk : k < 4) :
    (hi ++ lo).extractLsb' (8 * k) 8 = lo.extractLsb' (8 * k) 8 := by
  refine BitVec.eq_of_getLsbD_eq fun i h => ?_
  rw [BitVec.getLsbD_extractLsb', BitVec.getLsbD_extractLsb', BitVec.getLsbD_append]
  simp [show 8 * k + i < 32 by omega]

theorem extract_half_setByte (slot : BitVec 64) (value : BitVec 8) :
    (setByte slot 2 value).extractLsb' 32 32 = slot.extractLsb' 32 32 := by
  have hvalue := fun i => BitVec.getLsbD_of_ge value i
  refine BitVec.eq_of_getLsbD_eq fun i hi => ?_
  unfold setByte
  simp only [BitVec.getLsbD_extractLsb', BitVec.getLsbD_or, BitVec.getLsbD_and,
    BitVec.getLsbD_not, BitVec.getLsbD_shiftLeft, BitVec.getLsbD_setWidth, getLsbD_ff]
  grind

theorem Same.halted {image : Image} {s s' : StartMachine} (h : Same image s s') (code : Char) :
    Halted image code s (s'.movAl (ascii code)).writeError := by
  have hmem := writeError_mem (s'.movAl (ascii code))
  have hs : (s'.movAl (ascii code)).mem = s'.mem := rfl
  have hone : s'.mem screenSlot1 = s.mem screenSlot1 :=
    h.mem _ fun heq => image.stack_apart.2.2.2 (congrArg Slot.frame heq).symm
  rw [movAl_low, hs, hone] at hmem
  have hne : screenSlot0 ≠ screenSlot1 := by decide
  have hfirst : (s'.movAl (ascii code)).writeError.mem screenSlot0 = 0x4f3a4f524f524f45 := by
    rw [hmem, Function.update_of_ne hne, Function.update_self]
  have hsecond : (s'.movAl (ascii code)).writeError.mem screenSlot1 =
      setByte ((s.mem screenSlot1).extractLsb' 32 32 ++ 0x4f204f20#32) 2 (ascii code) := by
    rw [hmem, Function.update_self]
  constructor
  · -- eight bytes of the first slot and four of the second
    have hbytes : ∀ mem : PhysMem, screenBytes mem =
        (List.range 8).map (fun k => (mem screenSlot0).extractLsb' (8 * k) 8) ++
          [(mem screenSlot1).extractLsb' (8 * 0) 8, (mem screenSlot1).extractLsb' (8 * 1) 8,
            (mem screenSlot1).extractLsb' (8 * 2) 8, (mem screenSlot1).extractLsb' (8 * 3) 8] :=
      fun _ => rfl
    rw [hbytes, hfirst, hsecond, extract_setByte _ (by decide), extract_setByte _ (by decide),
      extract_setByte _ (by decide), extract_setByte _ (by decide), if_neg (by decide),
      if_neg (by decide), if_pos rfl, if_neg (by decide), extract_byte_low _ _ (by decide),
      extract_byte_low _ _ (by decide), extract_byte_low _ _ (by decide), text_ofList]
    rfl
  · rw [hsecond, extract_half_setByte, extract_high]
  · intro slot h0 h1 hstack
    rw [hmem, Function.update_of_ne h1, Function.update_of_ne h0, h.mem slot hstack]
  · exact h.control

/-! ## The run -/

/-- The machine at the jump to `long_mode_start`. -/
structure Entered (image : Image) (s s' : StartMachine) : Prop where
  arguments : s'.edi = s.eax ∧ s'.esi = s.ebx
  esp : s'.esp = image.stackTop
  control : s'.cr3 = image.p4 ∧ s'.cr4 = s.cr4 ||| (1#32 <<< 5) ∧
    s'.efer = s.efer ||| (1#64 <<< 8) ∧ s'.cr0 = s.cr0 ||| (1#32 <<< 31) ||| (1#32 <<< 16)
  low : ∀ v : BitVec 64, v.toNat < 2 ^ 30 →
    hwTranslate s'.mem (tableFrame image.p4) v = some (v.setWidth 52) ∧
      hwWritable s'.mem (tableFrame image.p4) v = true
  tables : BootMapped image.toBootTables s'.mem
  mem : ∀ f i, f ≠ tableFrame image.p4 → f ≠ tableFrame image.p3 → f ≠ tableFrame image.p2 →
    ⟨f, i⟩ ≠ image.stackSlot → s'.mem ⟨f, i⟩ = s.mem ⟨f, i⟩

/-- Bit 8 of a model-specific register, by way of `edx` and `eax`. -/
theorem msr_or (efer : BitVec 64) :
    efer.extractLsb' 32 32 ++ (efer.setWidth 32 ||| (1#32 <<< 8)) = efer ||| (1#64 <<< 8) := by
  refine BitVec.eq_of_getLsbD_eq fun i hi => ?_
  rw [BitVec.getLsbD_append, BitVec.getLsbD_or, BitVec.getLsbD_or, BitVec.getLsbD_setWidth,
    BitVec.getLsbD_extractLsb', getLsbD_bit (by decide), getLsbD_bit (by decide)]
  grind

theorem ends_setUpTables (t : BootTables) {s : StartMachine} (hzero : ZeroFilled t s.mem) :
    ∃ b : BootMachine, (setUpTables t).Ends s (.ok ()) { s with toBootMachine := b } ∧
      b.mem = withPages (withLinks t s.mem) (tableFrame t.p2) 512 := by
  obtain ⟨b, ⟨n, hn⟩, hmem⟩ := setUpPageTables_returns t hzero
  exact ⟨b, ⟨n, fun m hm => Option.map_eq_some_iff.mpr ⟨b, hn m hm, rfl⟩⟩, hmem⟩

theorem zeroFilled_same {image : Image} {s s' : StartMachine} (h : Same image s s')
    (hzero : ZeroFilled image.toBootTables s.mem) : ZeroFilled image.toBootTables s'.mem := by
  obtain ⟨h4, h3, h2, -⟩ := image.stack_apart
  constructor
  · intro i
    rw [h.mem _ fun heq => h4 (congrArg Slot.frame heq).symm, hzero.zero4]
  · intro i
    rw [h.mem _ fun heq => h3 (congrArg Slot.frame heq).symm, hzero.zero3]
  · intro i
    rw [h.mem _ fun heq => h2 (congrArg Slot.frame heq).symm, hzero.zero2]

theorem bootMapped_same {image : Image} {s s' : StartMachine} (h : Same image s s')
    (hmapped : BootMapped image.toBootTables s.mem) : BootMapped image.toBootTables s'.mem := by
  obtain ⟨h4, h3, h2, -⟩ := image.stack_apart
  have hmem4 := fun i => h.mem ⟨tableFrame image.p4, i⟩ fun heq =>
    h4 (congrArg Slot.frame heq).symm
  have hmem3 := fun i => h.mem ⟨tableFrame image.p3, i⟩ fun heq =>
    h3 (congrArg Slot.frame heq).symm
  have hmem2 := fun i => h.mem ⟨tableFrame image.p2, i⟩ fun heq =>
    h2 (congrArg Slot.frame heq).symm
  exact
    { first4 := (hmem4 0).trans hmapped.first4
      last4 := (hmem4 511).trans hmapped.last4
      rest4 := fun i h0 h511 => (hmem4 i).trans (hmapped.rest4 i h0 h511)
      first3 := (hmem3 0).trans hmapped.first3
      rest3 := fun i h0 => (hmem3 i).trans (hmapped.rest3 i h0)
      pages2 := fun i => (hmem2 i).trans (hmapped.pages2 i) }

/-- A call of a check: `start` goes on behind it, or the processor halts. -/
theorem Checks.called {image : Image} {sub : Subroutine} {p : StartM Unit} {s : StartMachine}
    {ok : Bool} {code : Char} (hesp : s.esp = image.stackTop)
    (h : Checks image p (s.push (image.returnTo sub)) ok code) :
    ∃ s', Same image s s' ∧
      if ok then (call image sub p).Ends s (.ok ()) s' ∧ s'.esp = image.stackTop
      else (call image sub p).Ends s (.error .hlt) (s'.movAl (ascii code)).writeError := by
  obtain ⟨s', hkept, hends⟩ := h
  have hsame := (same_push hesp (image.returnTo sub)).trans hkept.toSame
  cases ok with
  | true =>
    rw [if_pos rfl] at hends
    obtain ⟨hcall, hdrop⟩ := ends_call hends hkept.esp hkept.top
    refine ⟨s'.drop, ⟨hsame.mem, hsame.arguments, hsame.control⟩, ?_⟩
    rw [if_pos rfl]
    exact ⟨hcall, hdrop.trans hesp⟩
  | false =>
    rw [if_neg (by decide)] at hends
    refine ⟨s', hsame, ?_⟩
    rw [if_neg (by decide)]
    exact (Prog.ends_modify _ s).bind hends.bind_stop

/-- The call of `set_up_page_tables`. -/
theorem ends_call_setUpTables {image : Image} {s : StartMachine}
    (hzero : ZeroFilled image.toBootTables s.mem) (hesp : s.esp = image.stackTop) :
    ∃ s', (call image .setUpPageTables (setUpTables image.toBootTables)).Ends s (.ok ()) s' ∧
      s'.esp = image.stackTop ∧ BootMapped image.toBootTables s'.mem ∧
      (s'.esi = s.esi ∧ s'.edi = s.edi) ∧
      (s'.cr0 = s.cr0 ∧ s'.cr3 = s.cr3 ∧ s'.cr4 = s.cr4 ∧ s'.efer = s.efer) ∧
      ∀ f i, f ≠ tableFrame image.p4 → f ≠ tableFrame image.p3 → f ≠ tableFrame image.p2 →
        ⟨f, i⟩ ≠ image.stackSlot → s'.mem ⟨f, i⟩ = s.mem ⟨f, i⟩ := by
  obtain ⟨h4, h3, h2, -⟩ := image.stack_apart
  have hpush := same_push hesp (image.returnTo .setUpPageTables)
  obtain ⟨b, hends, hmem⟩ := ends_setUpTables image.toBootTables (zeroFilled_same hpush hzero)
  -- the tables are written, and nothing else
  have hother : ∀ f i, f ≠ tableFrame image.p4 → f ≠ tableFrame image.p3 →
      f ≠ tableFrame image.p2 →
      b.mem ⟨f, i⟩ = (s.push (image.returnTo .setUpPageTables)).mem ⟨f, i⟩ := by
    intro f i h4 h3 h2
    rw [hmem, withPages_other _ _ _ h2, withLinks_other _ _ _ h4 h3]
  have hmapped := bootMapped (zeroFilled_same hpush hzero)
  rw [← hmem] at hmapped
  have hslot : slotOf ((s.esp - 4).setWidth 52) = image.stackSlot := by
    rw [hesp, image.slotOf_return]
  have htop : loadDword b.mem (s.esp - 4) =
      loadDword (s.push (image.returnTo .setUpPageTables)).mem (s.esp - 4) := by
    have hstack : b.mem image.stackSlot =
        (s.push (image.returnTo .setUpPageTables)).mem image.stackSlot := hother _ _ h4 h3 h2
    unfold loadDword
    rw [hslot, hstack]
  obtain ⟨hcall, hdrop⟩ := ends_call hends rfl htop
  refine ⟨_, hcall, hdrop.trans hesp, hmapped, ⟨rfl, rfl⟩, ⟨rfl, rfl, rfl, rfl⟩, ?_⟩
  intro f i h4 h3 h2 hstack
  exact (hother f i h4 h3 h2).trans (hpush.mem _ hstack)

/-- The last two calls, behind the checks. -/
theorem ends_enter {image : Image} {s s' : StartMachine}
    (hzero : ZeroFilled image.toBootTables s.mem) (hesp : s'.esp = image.stackTop)
    (hsame : Same image (begin image s) s') :
    ∃ s'', (do
        call image .setUpPageTables (setUpTables image.toBootTables)
        call image .enablePaging (Prog.modify (enablePaging image.toBootTables)) :
        StartM Unit).Ends s' (.ok ()) s'' ∧ Entered image s s'' := by
  obtain ⟨s₁, hends₁, hesp₁, hmapped, harguments, hcontrol, hother⟩ :=
    ends_call_setUpTables (zeroFilled_same hsame (hzero : ZeroFilled _ (begin image s).mem)) hesp
  have hpush := same_push hesp₁ (image.returnTo .enablePaging)
  have hpages := bootMapped_same hpush hmapped
  obtain ⟨hends₂, hdrop⟩ := @ends_call image .enablePaging _ s₁ _
    (Prog.ends_modify (enablePaging image.toBootTables) _) rfl rfl
  obtain ⟨hcr0, -, hcr4, hefer⟩ := hcontrol
  obtain ⟨hscr0, -, hscr4, hsefer⟩ := hsame.control
  refine ⟨_, hends₁.bind hends₂, ?_⟩
  exact
    { arguments := ⟨harguments.2.trans hsame.arguments.2, harguments.1.trans hsame.arguments.1⟩
      esp := hdrop.trans hesp₁
      control := ⟨rfl, congrArg (· ||| 1#32 <<< 5) (hcr4.trans hscr4),
        (msr_or s₁.efer).trans (congrArg (· ||| 1#64 <<< 8) (hefer.trans hsefer)),
        congrArg (· ||| 1#32 <<< 31 ||| 1#32 <<< 16) (hcr0.trans hscr0)⟩
      low := fun v hv => hpages.low.translates_low hv
      tables := hpages
      mem := fun f i h4 h3 h2 hstack =>
        (hpush.mem _ hstack).trans ((hother f i h4 h3 h2 hstack).trans (hsame.mem _ hstack)) }

theorem Checks.passes {image : Image} {sub : Subroutine} {p : StartM Unit} {s : StartMachine}
    {ok : Bool} {code : Char} (hesp : s.esp = image.stackTop)
    (h : Checks image p (s.push (image.returnTo sub)) ok code) (hok : ok = true) :
    ∃ s', Same image s s' ∧ (call image sub p).Ends s (.ok ()) s' ∧ s'.esp = image.stackTop := by
  obtain ⟨s', hsame, hends⟩ := h.called hesp
  rw [if_pos hok] at hends
  exact ⟨s', hsame, hends⟩

theorem Checks.fails {image : Image} {sub : Subroutine} {p : StartM Unit} {s : StartMachine}
    {ok : Bool} {code : Char} (hesp : s.esp = image.stackTop)
    (h : Checks image p (s.push (image.returnTo sub)) ok code) (hok : ok = false) :
    ∃ s', Same image s s' ∧
      (call image sub p).Ends s (.error .hlt) (s'.movAl (ascii code)).writeError := by
  obtain ⟨s', hsame, hends⟩ := h.called hesp
  rw [if_neg (by rw [hok]; decide)] at hends
  exact ⟨s', hsame, hends⟩

/-- From any state in which the tables are empty, on every processor and at every place. -/
theorem start_ends (proc : Processor) (image : Image) (s : StartMachine)
    (hzero : ZeroFilled image.toBootTables s.mem) :
    match failure proc s.eax with
    | some code => ∃ s', (start proc image).Ends s (.error .hlt) s' ∧ Halted image code s s'
    | none => ∃ s', (start proc image).Ends s (.ok ()) s' ∧ Entered image s s' := by
  have hbegin : (Prog.modify (begin image) : StartM Unit).Ends s (.ok ()) (begin image s) :=
    Prog.ends_modify _ s
  generalize hs₀ : begin image s = s₀ at hbegin
  have hesp₀ : s₀.esp = image.stackTop := by rw [← hs₀]; rfl
  -- the registers set up first are no part of what `error` shows
  have hhalted : ∀ {code s'}, Halted image code s₀ s' → Halted image code s s' := by
    intro code s' h
    subst hs₀
    exact ⟨h.screen, h.half, h.mem, h.control⟩
  have heax : s₀.eax = s.eax := by
    subst hs₀
    rfl
  have hmultiboot := checks_multiboot image proc (s₀.push (image.returnTo .checkMultiboot))
  unfold start failure
  by_cases hmagic : s.eax = multiboot2MagicValue
  · rw [if_neg (not_not_intro hmagic)]
    obtain ⟨s₁, hsame₁, hends₁, hesp₁⟩ :=
      hmultiboot.passes hesp₀ (decide_eq_true (heax.trans hmagic))
    have hcheck : Checks image (checkCpuid proc) (s₁.push (image.returnTo .checkCpuid))
        proc.hasCpuid '1' := checks_cpuid proc (congrArg (· - 4) hesp₁)
    cases hcpuid : proc.hasCpuid with
    | false =>
      rw [if_pos rfl]
      obtain ⟨s₂, hsame₂, hends₂⟩ := hcheck.fails hesp₁ hcpuid
      exact ⟨_, hbegin.bind (hends₁.bind hends₂.bind_stop),
        hhalted ((hsame₁.trans hsame₂).halted '1')⟩
    | true =>
      rw [if_neg (by decide)]
      obtain ⟨s₂, hsame₂, hends₂, hesp₂⟩ := hcheck.passes hesp₁ hcpuid
      have hmode := checks_longMode image proc (s₂.push (image.returnTo .checkLongMode))
      cases hlong : proc.hasLongMode with
      | false =>
        rw [if_pos rfl]
        obtain ⟨s₃, hsame₃, hends₃⟩ := hmode.fails hesp₂ hlong
        exact ⟨_, hbegin.bind (hends₁.bind (hends₂.bind hends₃.bind_stop)),
          hhalted (((hsame₁.trans hsame₂).trans hsame₃).halted '2')⟩
      | true =>
        rw [if_neg (by decide)]
        obtain ⟨s₃, hsame₃, hends₃, hesp₃⟩ := hmode.passes hesp₂ hlong
        have hsame := (hsame₁.trans hsame₂).trans hsame₃
        rw [← hs₀] at hsame
        obtain ⟨s', hends, hentered⟩ := ends_enter hzero hesp₃ hsame
        exact ⟨s', hbegin.bind (hends₁.bind (hends₂.bind (hends₃.bind hends))), hentered⟩
  · rw [if_pos hmagic]
    obtain ⟨s₁, hsame₁, hends₁⟩ := hmultiboot.fails hesp₀
      (decide_eq_false fun h => hmagic (heax.symm.trans h))
    exact ⟨_, hbegin.bind hends₁.bind_stop, hhalted (hsame₁.halted '0')⟩

/-- A processor whose `cpuid` ends before the extended leaves. -/
def oldProcessor : Processor where
  writable := 0xffffffff
  arithmetic flags _ := flags
  cpuid _ := (2, 0, 0, 0)
  arithmetic_other _ _ := rfl
  status_writable := by decide

/-- A processor with long mode. -/
def longProcessor : Processor where
  writable := 0xffffffff
  arithmetic flags _ := flags
  cpuid leaf := if leaf = 0x80000000 then (0x80000008, 0, 0, 0) else (0, 0, 0, 0x20000000)
  arithmetic_other _ _ := rfl
  status_writable := by decide

/-- The tables from 1 MiB on, and the code behind the stack. -/
def lowImage : Image where
  toBootTables := lowTables
  returnTo
    | .checkMultiboot => 0x107010
    | .checkCpuid => 0x107015
    | .checkLongMode => 0x10701a
    | .setUpPageTables => 0x10701f
    | .enablePaging => 0x107024
  behind4 := by decide
  behind3 := by decide
  above := by decide
  fits := by decide

/-- As the boot loader leaves it, with the block at 0x9500. -/
def loadedMachine : StartMachine :=
  ⟨⟨multiboot2MagicValue, 0, 0, fun _ => 0⟩, 0x9500, 0, 0, 2, 0x7ff00, 0x11, 0, 0, 0⟩

theorem start_ends_loadedMachine :
    (∃ s', (start longProcessor lowImage).Ends loadedMachine (.ok ()) s' ∧
      Entered lowImage loadedMachine s') ∧
    ∃ s', (start oldProcessor lowImage).Ends loadedMachine (.error .hlt) s' ∧
      Halted lowImage '2' loadedMachine s' := by
  have hzero : ZeroFilled lowImage.toBootTables loadedMachine.mem :=
    ⟨fun _ => rfl, fun _ => rfl, fun _ => rfl⟩
  exact ⟨start_ends longProcessor lowImage loadedMachine hzero,
    start_ends oldProcessor lowImage loadedMachine hzero⟩

end Utero.Kernel.Start
