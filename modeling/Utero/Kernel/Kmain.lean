/-
  `kmain` of `src/kernel/kmain.c`: the boot of the kernel, from the jump out of the boot code to
  the idle loop.

  The program is the sequence of the source, built without `ENABLE_KERNEL_DEBUG`, so `DEBUG` is
  empty. Around it are the kernel's own variables, the clock chip, and the values that `timer_tick`
  gives while `check_interrupts` waits (`Environment`); no interrupt line but that of the timer is
  raised meanwhile. `__DATE__` and `__TIME__` are strings of the compiler.

  The multiboot block is read from the memory that the screen is part of, as it stands when it is
  read; a read outside the first GiB, which is all that the boot code maps there, is a page fault.

  Here are the program and its output: the messages one after the other are the lines `bootLines`,
  and each of them fits on a line of the screen (`bootText_eq`, `isLine_bootLines`).
-/
import Utero.Core.Boot
import Utero.Core.RtcFormat
import Utero.Kernel.Panic

namespace Utero.Kernel

open Utero.Lib Utero.Core Utero.Drivers
open Utero.Libk (Arg takeArgs parse formatted text padded text_append text_ofList literal ascii
  decimalString parse_plain takeArgs_plain expand expand_plain)
open Utero.Mmu (MmapState MultibootTagMmap ReservedAreas mmapInit)
open Utero.Drivers.Screen (Printable Line IsLine textOf printable_numeral)

/-! ## The program -/

structure Environment where
  garbage : Garbage
  /-- Where the variables and the stack of the kernel are. -/
  own : BitVec 64 → Bool
  /-- What stands there. -/
  ownBytes : KernelState → Memory
  history : CmosHistory
  /-- The results of the calls of `timer_tick` in `check_interrupts`. -/
  ticks : Nat → BitVec 32
  /-- The addresses of the stubs. -/
  stubs : Stub → BitVec 64
  /-- Where `kmain` calls `PANIC`. -/
  source : SourceLine
  /-- `KERNEL_DATE` -/
  date : CString
  /-- `KERNEL_TIME` -/
  time : CString
  date_line : date.bytes.length ≤ 11 ∧ ∀ b ∈ date.bytes, Printable b
  time_line : time.bytes.length ≤ 8 ∧ ∀ b ∈ time.bytes, Printable b

/-- What a read finds in the first GiB: the screen is part of it. -/
def KernelState.memory (env : Environment) (s : KernelState) : Memory := fun a =>
  if env.own a then env.ownBytes s a else s.screen.framebuffer.bytes ((a.toNat : Int) - 0xb8000)

/-- The string is a format without directives. -/
def isMessage (s : String) : Bool :=
  (text s).all (fun b => b != 0 && b != ascii '%') && decide ((text s).length < 2 ^ 32 - 2)

theorem isMessage_iff {s : String} : isMessage s = true ↔
    (∀ b ∈ text s, b ≠ 0 ∧ b ≠ ascii '%') ∧ (text s).length < 2 ^ 32 - 2 := by
  simp [isMessage]

def message (s : String) (h : isMessage s = true) : CString :=
  ⟨text s, fun b hb => ((isMessage_iff.mp h).1 b hb).1⟩

/-- `printfk` of such a string. -/
def say (garbage : Garbage) (s : String) (h : isMessage s = true) : KernelM Unit :=
  printfk garbage (message s h) []

def kernelAscii : CString :=
  literal (" _____ _____ _____ _____ _____ \n" ++ "|  |  |_   _|   __| __  |     |\n" ++
    "|  |  | | | |   __|    -|  |  |\n" ++ "|_____| |_| |_____|__|__|_____|")
    (by repeat rw [text_append]
        repeat rw [text_ofList]
        decide +kernel)

def kernelName : CString := literal "utero-archive" (by rw [text_ofList]; rfl)

def kernelVersion : CString := literal "0.5.0" (by rw [text_ofList]; rfl)

def asciiFormat : CString := literal "%s\n" (by rw [text_ofList]; rfl)

def nameFormat : CString := literal "%s %s / Built on: %s at %s\n\n" (by rw [text_ofList]; rfl)

def printWelcomeMessge (env : Environment) : KernelM Unit := do
  printfk env.garbage asciiFormat [.string kernelAscii]
  printfk env.garbage nameFormat
    [.string kernelName, .string kernelVersion, .string env.date, .string env.time]

def multibootFormat : CString :=
  literal "- multiboot_start = 0x%X, multiboot_end = 0x%X\n" (by rw [text_ofList]; decide +kernel)

def kernelFormat : CString :=
  literal "- kernel_start    = 0x%X, kernel_end    = 0x%X\n" (by rw [text_ofList]; decide +kernel)

def dateFormat : CString :=
  literal ("\nHello Human, today's date and time is " ++ "%2d/%2d/%2d %2d:%2d:%2d UTC\n")
    (by repeat rw [text_append]
        repeat rw [text_ofList]
        decide +kernel)

/-- The format of `PANIC("invalid multiboot")`. -/
def invalidFormat : CString :=
  literal "\nPANIC in %s:%d:%s(): invalid multiboot\n%s" (by rw [text_ofList]; decide +kernel)

def invalidArgs (src : SourceLine) : List Arg :=
  [.string src.file, .int src.line, .string src.func, .string emptyString]

/-- `screen_init` and `screen_clear` -/
def screenStart : KernelM Unit := Prog.modify fun s =>
  { s with screen := (Screen.screenInit s.screen.framebuffer.bytes).screenClear }

def magicFormat : CString := literal "Invalid magic value: 0x%x" (by rw [text_ofList]; rfl)

def unalignedFormat : CString := literal "Unaligned MBI: 0x%x" (by rw [text_ofList]; rfl)

/-- `multiboot_is_valid` with its messages. `%x` reads the low half of an `unsigned long`. -/
def multibootIsValidM (env : Environment) (magic addr : BitVec 64) : KernelM Bool :=
  if magic ≠ multiboot2MagicValue then do
    printfk env.garbage magicFormat [.int (magic.setWidth 32)]
    pure false
  else if addr &&& 7 ≠ 0 then do
    printfk env.garbage unalignedFormat [.int (addr.setWidth 32)]
    pure false
  else pure true

def checkMultiboot (env : Environment) (magic addr : BitVec 64) : KernelM Unit := do
  let valid ← multibootIsValidM env magic addr
  if valid then pure () else kernelPanic env.garbage invalidFormat (invalidArgs env.source)

/-- The bytes are in the first GiB. -/
def Mapped (a : BitVec 64) (bytes : Nat) : Prop := a.toNat + bytes ≤ 2 ^ 30

instance (a : BitVec 64) (bytes : Nat) : Decidable (Mapped a bytes) :=
  inferInstanceAs (Decidable (_ ≤ _))

/-- The fields that a round of `find_multiboot_tag` reads, `type` and `size`. -/
def tagMapped (tag : BitVec 64) : Bool := decide (Mapped tag 8)

/-- The fields that a round of `read_multiboot_info` reads: of a section its type and, unless it is
    NULL, its address and its size. -/
def infoMapped (mem : Memory) : InfoState → Bool
  | .tag tag _ => tagMapped tag
  | .mmap tag mmap _ =>
    if mmap < tagEnd mem tag then decide (Mapped tag 12) else tagMapped tag
  | .elf tag i elf _ =>
    if i < elfNum mem tag then
      decide (Mapped tag 16) && decide (Mapped elf
        (if load32 mem (elf + 4) = multibootElfSectionTypeNull then 8 else 40))
    else decide (Mapped tag 12)

/-- `read_multiboot_info`, on the memory as it is. -/
def readMultibootInfoM (env : Environment) (mbi : BitVec 64) : KernelM ReservedAreas := do
  let s ← Prog.get
  let mem := s.memory env
  Prog.attempt fun n => loop (guarded (infoMapped mem) .pageFault (readMultibootInfoStep mem)) n
    (.tag (mbi + 8) (initialAreas mbi))

/-- `find_multiboot_tag`, on the memory as it is. -/
def findMultibootTagM (env : Environment) (tags : BitVec 64) (type : BitVec 16) :
    KernelM (BitVec 64) := do
  let s ← Prog.get
  let mem := s.memory env
  Prog.attempt fun n => loop (guarded tagMapped .pageFault (findMultibootTagStep mem type)) n tags

def registerHandler (id : BitVec 64) (handler : Callback) : KernelM Unit := Prog.modify fun s =>
  { s with handlers := Function.update s.handlers id (some handler) }

/-- The port writes, the gates and the handler for breakpoints of `isr_init`. -/
def isrInit (env : Environment) : KernelM Unit := do
  Prog.modify fun s =>
    { s with
      pics := isrInitPorts.foldl Pics.portByteOut s.pics
      idt := setIdtGates s.idt (isrInitGates env.stubs) }
  registerHandler 3 .breakpointHandler

def irqInit : KernelM Unit := Prog.modify fun s => { s with interruptFlag := true }

def timerInit (freq : BitVec 32) : KernelM Unit := do
  registerHandler 32 .timerCallback
  match timerInitPorts freq with
  | none => Prog.stop .divideError
  | some ports => Prog.modify fun s => { s with pit := ports.foldl Pit.portByteOut s.pit }

/-- `while (tick == timer_tick()) ;` -/
def tickStep (ticks : Nat → BitVec 32) (k : Nat) : Nat ⊕ Unit :=
  if ticks 0 = ticks (k + 1) then .inl (k + 1) else .inr ()

def checkInterrupts (env : Environment) : KernelM Unit := do
  say env.garbage "- checking interrupts... " (by rw [isMessage, text_ofList]; rfl)
  Prog.call fun n => loop (tickStep env.ticks) n 0
  say env.garbage "OK\n" (by rw [isMessage, text_ofList]; rfl)

def serialInitCom1 : KernelM Unit := Prog.modify fun s =>
  { s with serial := s.serial ++ serialInit serialCom1 serialSpeed115200 }

def keyboardInit : KernelM Unit := registerHandler 33 .keyboardCallback

/-- The MMAP tag at `p`. -/
def readMmapTag (mem : Memory) (p : BitVec 64) : MultibootTagMmap where
  base := p
  size := tagSize mem p
  entrySize := load32 mem (p + 8)
  entryAt e := ⟨load64 mem e, load64 mem (e + 8), load32 mem (e + 16)⟩

/-- `mmap_init` keeps the pointer; the tag is taken as it stands then. `paging_init` is empty. -/
def mmuInit (env : Environment) (mmap : BitVec 64) (reserved : ReservedAreas) : KernelM Unit :=
  Prog.modify fun s =>
    { s with mmap := some (mmapInit (readMmapTag (s.memory env) mmap) reserved) }

def readRtc (history : CmosHistory) : KernelM CmosRtc := fun n s =>
  (cmosReadRtc history n s.cmos).map fun (rtc, cmos) => (.ok rtc, { s with cmos := cmos })

/-- The fields are promoted to `int`. -/
def dateArgs (rtc : CmosRtc) : List Arg :=
  [.int (rtc.year.setWidth 32), .int (rtc.month.setWidth 32), .int (rtc.day.setWidth 32),
    .int (rtc.hours.setWidth 32), .int (rtc.minutes.setWidth 32), .int (rtc.seconds.setWidth 32)]

/-- Up to the idle loop. -/
def kmain (env : Environment) (magic addr : BitVec 64) : KernelM Unit := do
  screenStart
  checkMultiboot env magic addr
  let reserved ← readMultibootInfoM env addr
  printWelcomeMessge env
  printfk env.garbage multibootFormat
    [.long reserved.multibootStart, .long reserved.multibootEnd]
  printfk env.garbage kernelFormat [.long reserved.kernelStart, .long reserved.kernelEnd]
  isrInit env
  irqInit
  say env.garbage "- interruptions enabled\n" (by rw [isMessage, text_ofList]; rfl)
  timerInit 50
  say env.garbage "- clock (timer) enabled\n" (by rw [isMessage, text_ofList]; rfl)
  checkInterrupts env
  serialInitCom1
  keyboardInit
  say env.garbage "- keyboard routine enabled\n" (by rw [isMessage, text_ofList]; rfl)
  let mmap ← findMultibootTagM env (addr + 8) 6
  mmuInit env mmap reserved
  say env.garbage "- frame allocator and paging enabled\n"
    (by rw [isMessage, text_ofList]; rfl)
  let rtc ← readRtc env.history
  printfk env.garbage dateFormat (dateArgs rtc)
  say env.garbage "$ " (by rw [isMessage, text_ofList]; rfl)

/-! ## What it prints -/

theorem ends_say (garbage : Garbage) {m : String} (h : isMessage m = true) (s : KernelState) :
    (say garbage m h).Ends s (.ok ()) (s.print (text m)) := by
  obtain ⟨hbytes, hlen⟩ := isMessage_iff.mp h
  have hparse : parse (message m h).bytes = (text m).map .literal :=
    parse_plain fun c hc => (hbytes c hc).2
  have hfits : Fits (message m h) [] :=
    ⟨hlen, ⟨[], by rw [hparse, takeArgs_plain]⟩, fun s hs => by simp at hs⟩
  have hends := ends_printfk garbage hfits s
  rwa [formatted, hparse, expand_plain] at hends

/-- The date and the time of the line for the user. -/
def dateText (rtc : CmosRtc) : List (BitVec 8) :=
  padded 2 (numeral 10 rtc.year.toNat) ++ text "/" ++ padded 2 (numeral 10 rtc.month.toNat) ++
    text "/" ++ padded 2 (numeral 10 rtc.day.toNat) ++ text " " ++
    padded 2 (numeral 10 rtc.hours.toNat) ++ text ":" ++
    padded 2 (numeral 10 rtc.minutes.toNat) ++ text ":" ++
    padded 2 (numeral 10 rtc.seconds.toNat) ++ text " UTC"

/-- The lines on the screen at the end. -/
def bootLines (env : Environment) (reserved : ReservedAreas) (rtc : CmosRtc) : List Line :=
  [text " _____ _____ _____ _____ _____ ",
    text "|  |  |_   _|   __| __  |     |",
    text "|  |  | | | |   __|    -|  |  |",
    text "|_____| |_| |_____|__|__|_____|",
    text "utero-archive 0.5.0 / Built on: " ++ env.date.bytes ++ text " at " ++ env.time.bytes,
    [],
    text "- multiboot_start = 0x" ++ numeral 16 reserved.multibootStart.toNat ++
      text ", multiboot_end = 0x" ++ numeral 16 reserved.multibootEnd.toNat,
    text "- kernel_start    = 0x" ++ numeral 16 reserved.kernelStart.toNat ++
      text ", kernel_end    = 0x" ++ numeral 16 reserved.kernelEnd.toNat,
    text "- interruptions enabled",
    text "- clock (timer) enabled",
    text "- checking interrupts... OK",
    text "- keyboard routine enabled",
    text "- frame allocator and paging enabled",
    [],
    text "Hello Human, today's date and time is " ++ dateText rtc]

/-- The same, message by message, up to the search for the memory map. -/
def earlyText (env : Environment) (reserved : ReservedAreas) : List (BitVec 8) :=
  formatted asciiFormat [.string kernelAscii] ++
    (formatted nameFormat [.string kernelName, .string kernelVersion, .string env.date,
      .string env.time] ++
    (formatted multibootFormat [.long reserved.multibootStart, .long reserved.multibootEnd] ++
    (formatted kernelFormat [.long reserved.kernelStart, .long reserved.kernelEnd] ++
    (text "- interruptions enabled\n" ++
    (text "- clock (timer) enabled\n" ++
    (text "- checking interrupts... " ++
    (text "OK\n" ++
    text "- keyboard routine enabled\n")))))))

/-- The same, to the end. -/
def bootText (env : Environment) (reserved : ReservedAreas) (rtc : CmosRtc) : List (BitVec 8) :=
  earlyText env reserved ++ (text "- frame allocator and paging enabled\n" ++
    (formatted dateFormat (dateArgs rtc) ++ text "$ "))

theorem decimalString_setWidth {w : Nat} (hw : w ≤ 16) (v : BitVec w) :
    decimalString (v.setWidth 32) = numeral 10 v.toNat := by
  have hlt : v.toNat < 2 ^ 16 := Nat.lt_of_lt_of_le v.isLt (Nat.pow_le_pow_right (by decide) hw)
  have hto : (v.setWidth 32).toNat = v.toNat := by
    rw [BitVec.toNat_setWidth]
    omega
  unfold decimalString
  rw [if_neg, hto]
  rw [Libk.slt_zero_iff, hto]
  omega

theorem formatted_asciiFormat (a : CString) :
    formatted asciiFormat [.string a] = a.bytes ++ text "\n" := by
  unfold asciiFormat
  rw [formatted_literal, text_ofList, text_ofList]
  rfl

theorem formatted_nameFormat (a b c d : CString) :
    formatted nameFormat [.string a, .string b, .string c, .string d] =
      a.bytes ++ (text " " ++ (b.bytes ++ (text " / Built on: " ++ (c.bytes ++ (text " at " ++
        (d.bytes ++ text "\n\n")))))) := by
  unfold nameFormat
  rw [formatted_literal]
  repeat rw [text_ofList]
  rfl

set_option maxRecDepth 2000 in
theorem formatted_multibootFormat (a b : BitVec 64) :
    formatted multibootFormat [.long a, .long b] =
      text "- multiboot_start = 0x" ++ (numeral 16 a.toNat ++ (text ", multiboot_end = 0x" ++
        (numeral 16 b.toNat ++ text "\n"))) := by
  unfold multibootFormat
  rw [formatted_literal]
  repeat rw [text_ofList]
  rfl

set_option maxRecDepth 2000 in
theorem formatted_kernelFormat (a b : BitVec 64) :
    formatted kernelFormat [.long a, .long b] =
      text "- kernel_start    = 0x" ++ (numeral 16 a.toNat ++ (text ", kernel_end    = 0x" ++
        (numeral 16 b.toNat ++ text "\n"))) := by
  unfold kernelFormat
  rw [formatted_literal]
  repeat rw [text_ofList]
  rfl

set_option maxRecDepth 2000 in
theorem formatted_dateFormat (rtc : CmosRtc) :
    formatted dateFormat (dateArgs rtc) =
      text "\nHello Human, today's date and time is " ++ (dateText rtc ++ text "\n") := by
  unfold dateFormat dateArgs dateText
  rw [formatted_literal, ← decimalString_setWidth (by decide) rtc.year,
    ← decimalString_setWidth (by decide) rtc.month, ← decimalString_setWidth (by decide) rtc.day,
    ← decimalString_setWidth (by decide) rtc.hours,
    ← decimalString_setWidth (by decide) rtc.minutes,
    ← decimalString_setWidth (by decide) rtc.seconds]
  repeat rw [text_append]
  repeat rw [text_ofList]
  simp only [List.append_assoc]
  rfl

theorem kernelAscii_bytes : kernelAscii.bytes =
    text " _____ _____ _____ _____ _____ \n" ++ (text "|  |  |_   _|   __| __  |     |\n" ++
      (text "|  |  | | | |   __|    -|  |  |\n" ++ text "|_____| |_| |_____|__|__|_____|")) := by
  unfold kernelAscii literal
  dsimp only
  repeat rw [text_append]
  simp only [List.append_assoc]

set_option maxRecDepth 4000 in
theorem bootText_eq (env : Environment) (reserved : ReservedAreas) (rtc : CmosRtc) :
    bootText env reserved rtc = textOf (bootLines env reserved rtc) (text "$ ") := by
  have hname : kernelName.bytes = text "utero-archive" := rfl
  have hversion : kernelVersion.bytes = text "0.5.0" := rfl
  unfold bootText earlyText textOf bootLines
  rw [formatted_asciiFormat, formatted_nameFormat, formatted_multibootFormat,
    formatted_kernelFormat, formatted_dateFormat, kernelAscii_bytes, hname, hversion]
  generalize dateText rtc = date
  repeat rw [text_ofList]
  simp only [List.flatMap_cons, List.flatMap_nil, List.append_assoc]
  rfl

/-! ## The lines fit -/

theorem isLine_text {s : String}
    (h : (decide ((text s).length < 80) && (text s).all fun b => decide (Printable b)) = true) :
    IsLine (text s) := by
  simpa [IsLine] using h

theorem numeral_length_le {b w k n : Nat} (hb : 1 < b) (hk : 0 < k) (hpow : 2 ^ w ≤ b ^ k)
    (hn : n < 2 ^ w) : (numeral b n).length ≤ k :=
  (numeral_length_le_iff hb hk).mpr (Nat.lt_of_lt_of_le hn hpow)

/-- The lines with the bounds of an area. -/
theorem isLine_bounds {l m : Line} (hl : l.length + m.length < 48)
    (hprint : ∀ b ∈ l ++ m, Printable b) (v w : BitVec 64) :
    IsLine (l ++ numeral 16 v.toNat ++ m ++ numeral 16 w.toNat) := by
  have hlen : ∀ u : BitVec 64, (numeral 16 u.toNat).length ≤ 16 := fun u =>
    numeral_length_le (by decide) (by decide) (by decide) u.isLt
  have hv := hlen v
  have hw := hlen w
  constructor
  · simp only [List.length_append]
    omega
  · have hnum := printable_numeral (show 1 < 16 by decide) (by decide)
    rw [List.forall_mem_append] at hprint
    simp only [List.forall_mem_append]
    exact ⟨⟨⟨hprint.1, hnum _⟩, hprint.2⟩, hnum _⟩

theorem padded_length_le {k : Nat} (hk : 2 ≤ k) {s : List (BitVec 8)} (h : s.length ≤ k) :
    (padded 2 s).length ≤ k := by
  unfold padded
  rw [List.length_append, List.length_replicate]
  omega

theorem printable_padded {pad : Nat} {s : List (BitVec 8)} (h : ∀ b ∈ s, Printable b) :
    ∀ b ∈ padded pad s, Printable b := by
  unfold padded
  rw [List.forall_mem_append]
  refine ⟨fun b hb => ?_, h⟩
  rw [List.eq_of_mem_replicate hb]
  decide

theorem dateText_length_le (rtc : CmosRtc) : (dateText rtc).length ≤ 29 := by
  have hbyte : ∀ v : BitVec 8, (padded 2 (numeral 10 v.toNat)).length ≤ 3 := fun v =>
    padded_length_le (by decide) (numeral_length_le (by decide) (by decide) (by decide) v.isLt)
  have hyear : (padded 2 (numeral 10 rtc.year.toNat)).length ≤ 5 :=
    padded_length_le (by decide)
      (numeral_length_le (by decide) (by decide) (by decide) rtc.year.isLt)
  have hmonth := hbyte rtc.month
  have hday := hbyte rtc.day
  have hhours := hbyte rtc.hours
  have hminutes := hbyte rtc.minutes
  have hseconds := hbyte rtc.seconds
  unfold dateText
  repeat rw [text_ofList]
  simp only [List.length_append, List.length_map, List.length_cons, List.length_nil]
  omega

theorem printable_dateText (rtc : CmosRtc) : ∀ b ∈ dateText rtc, Printable b := by
  have hnum : ∀ n, ∀ b ∈ padded 2 (numeral 10 n), Printable b := fun n =>
    printable_padded (printable_numeral (by decide) (by decide) n)
  unfold dateText
  simp only [List.forall_mem_append]
  refine ⟨⟨⟨⟨⟨⟨⟨⟨⟨⟨⟨hnum _, ?_⟩, hnum _⟩, ?_⟩, hnum _⟩, ?_⟩, hnum _⟩, ?_⟩, hnum _⟩, ?_⟩, hnum _⟩,
    ?_⟩ <;>
    exact (isLine_text (by rw [text_ofList]; rfl)).2

theorem isLine_bootLines (env : Environment) (reserved : ReservedAreas) (rtc : CmosRtc) :
    ∀ l ∈ text "$ " :: bootLines env reserved rtc, IsLine l := by
  have hdate := env.date_line
  have htime := env.time_line
  have hrtc := dateText_length_le rtc
  have hempty : IsLine [] := ⟨by decide, by simp⟩
  have hbuilt : IsLine (text "utero-archive 0.5.0 / Built on: " ++ env.date.bytes ++ text " at " ++
      env.time.bytes) := by
    constructor
    · repeat rw [text_ofList]
      simp only [List.length_append, List.length_map, List.length_cons, List.length_nil]
      omega
    · have hbefore := (isLine_text (s := "utero-archive 0.5.0 / Built on: ")
        (by rw [text_ofList]; rfl)).2
      have hat := (isLine_text (s := " at ") (by rw [text_ofList]; rfl)).2
      simp only [List.forall_mem_append]
      exact ⟨⟨⟨hbefore, hdate.2⟩, hat⟩, htime.2⟩
  have hhello : IsLine (text "Hello Human, today's date and time is " ++ dateText rtc) := by
    constructor
    · rw [text_ofList, List.length_append, List.length_map]
      simp only [List.length_cons, List.length_nil]
      omega
    · have hbefore := (isLine_text (s := "Hello Human, today's date and time is ")
        (by rw [text_ofList]; rfl)).2
      rw [List.forall_mem_append]
      exact ⟨hbefore, printable_dateText rtc⟩
  have hmultiboot : IsLine (text "- multiboot_start = 0x" ++
      numeral 16 reserved.multibootStart.toNat ++ text ", multiboot_end = 0x" ++
      numeral 16 reserved.multibootEnd.toNat) := by
    have hleft := isLine_text (s := "- multiboot_start = 0x") (by rw [text_ofList]; rfl)
    have hright := isLine_text (s := ", multiboot_end = 0x") (by rw [text_ofList]; rfl)
    refine isLine_bounds ?_ (List.forall_mem_append.mpr ⟨hleft.2, hright.2⟩) _ _
    rw [text_ofList, text_ofList]
    decide
  have hkernel : IsLine (text "- kernel_start    = 0x" ++
      numeral 16 reserved.kernelStart.toNat ++ text ", kernel_end    = 0x" ++
      numeral 16 reserved.kernelEnd.toNat) := by
    have hleft := isLine_text (s := "- kernel_start    = 0x") (by rw [text_ofList]; rfl)
    have hright := isLine_text (s := ", kernel_end    = 0x") (by rw [text_ofList]; rfl)
    refine isLine_bounds ?_ (List.forall_mem_append.mpr ⟨hleft.2, hright.2⟩) _ _
    rw [text_ofList, text_ofList]
    decide
  unfold bootLines
  simp only [List.forall_mem_cons, hempty, hbuilt, hhello, hmultiboot, hkernel, true_and]
  refine ⟨?_, ?_, ?_, ?_, ?_, ?_, ?_, ?_, ?_, ?_, by simp⟩ <;>
    exact isLine_text (by rw [text_ofList]; rfl)


/-! ## The formats fit -/

theorem fits_asciiFormat : Fits asciiFormat [.string kernelAscii] := by
  refine fits_literal _ (by rw [text_ofList]; decide) (by rw [text_ofList]; rfl) fun s hs => ?_
  obtain rfl : s = kernelAscii := by simpa using hs
  rw [kernelAscii_bytes]
  repeat rw [text_ofList]
  simp only [List.length_append, List.length_map, List.length_cons, List.length_nil]
  omega

theorem fits_nameFormat (env : Environment) : Fits nameFormat
    [.string kernelName, .string kernelVersion, .string env.date, .string env.time] := by
  have hdate := env.date_line.1
  have htime := env.time_line.1
  refine fits_literal _ (by rw [text_ofList]; decide) (by rw [text_ofList]; rfl) fun s hs => ?_
  simp only [List.mem_cons, Arg.string.injEq, List.not_mem_nil, or_false] at hs
  obtain rfl | rfl | rfl | rfl := hs
  · show (text "utero-archive").length < 2 ^ 32
    rw [text_ofList]
    decide
  · show (text "0.5.0").length < 2 ^ 32
    rw [text_ofList]
    decide
  · omega
  · omega

theorem fits_multibootFormat (v w : BitVec 64) : Fits multibootFormat [.long v, .long w] :=
  fits_literal _ (by rw [text_ofList]; decide) (by rw [text_ofList]; rfl) fun s hs => by
    simp at hs

theorem fits_kernelFormat (v w : BitVec 64) : Fits kernelFormat [.long v, .long w] :=
  fits_literal _ (by rw [text_ofList]; decide) (by rw [text_ofList]; rfl) fun s hs => by
    simp at hs

set_option maxRecDepth 2000 in
theorem fits_dateFormat (rtc : CmosRtc) : Fits dateFormat (dateArgs rtc) := by
  refine fits_literal _ ?_ ?_ fun s hs => by simp [dateArgs] at hs
  · rw [text_append, text_ofList, text_ofList]
    decide
  · rw [text_append, text_ofList, text_ofList]
    rfl

end Utero.Kernel
