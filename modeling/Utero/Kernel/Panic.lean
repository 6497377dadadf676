/-
  The kernel's state, `printfk` on it, and the ends the kernel can come to:
  `src/kernel/panic.c`, the report of an exception in `isr_handler` and `breakpoint_handler` of
  `src/core/isr.c`.

  The functions are programs on `KernelState` (`Prog`). A panic stops them for good: it prints,
  clears the interrupt flag and does not return. What the stack held before where `vprintfk` has
  its `s_val` is any function of the state (`Garbage`). `__FILE__` and `__LINE__` are a
  `SourceLine`.

  `exception_reported`: an exception without a handler, taken in any state of the processor and
  behind any text on the console, ends on the screen: behind that text stand the vector, its
  message and the five words of the interrupted state.
-/
import Utero.Core.Dispatch
import Utero.Core.Timer
import Utero.Core.Cmos
import Utero.Core.Pic
import Utero.Drivers.Console
import Utero.Drivers.Serial
import Utero.Lib.Program
import Utero.Mmu.Mmap

namespace Utero.Kernel

open Utero.Lib Utero.Core Utero.Drivers
open Utero.Libk (Arg Fault Write deviceScreen vprintfk takeArgs parse ShortStrings formatted
  vprintfk_formatted expand text padded_zero text_append text_ofList literal ascii decimalString
  putchark)
open Utero.Mmu (MmapState)
open Utero.Drivers.Screen (Printable Plain plain_append plain_of_printable plain_text
  printable_numeral printable_decimalString linesOf)

/-! ## The state -/

/-- The handlers the kernel registers. -/
inductive Callback where
  | breakpointHandler
  | timerCallback
  | keyboardCallback
  deriving DecidableEq

@[ext]
structure KernelState where
  screen : Screen
  pics : Pics
  pit : Pit
  /-- The accesses to the serial port so far. -/
  serial : List Access
  idt : Idt
  /-- `interrupt_handlers` -/
  handlers : BitVec 64 → Option Callback
  interruptFlag : Bool
  cmos : Cmos
  /-- The globals of `mmap.c`, from `mmap_init` on. -/
  mmap : Option MmapState

/-- Why the kernel does not go on. -/
inductive Halt where
  | fault (f : Fault)
  | divideError
  | pageFault
  | panic

abbrev KernelM := Prog Halt KernelState

abbrev Garbage := KernelState → Buffer

/-- A place in the source. -/
structure SourceLine where
  file : CString
  line : BitVec 32
  func : CString
  printable : ∀ b ∈ file.bytes ++ func.bytes, Printable b
  short : file.bytes.length < 2 ^ 32 ∧ func.bytes.length < 2 ^ 32

/-! ## `printfk` and `kernel_panic` -/

def printfk (garbage : Garbage) (format : CString) (args : List Arg) : KernelM Unit := fun n s =>
  (vprintfk n deviceScreen format args (garbage s)).map fun
    | .ok (_, out) => (.ok (), { s with screen := s.screen.display out })
    | .error f => (.error (.fault f), s)

/-- "\nSystem halted!\n" -/
def haltedFormat : CString := literal "\nSystem halted!\n" (by rw [text_ofList]; rfl)

def irqDisable : KernelM Unit := Prog.modify fun s => { s with interruptFlag := false }

def kernelPanic (garbage : Garbage) (format : CString) (args : List Arg) : KernelM Unit := do
  printfk garbage format args
  printfk garbage haltedFormat []
  irqDisable
  Prog.stop .panic

/-- The format and the arguments match, and both are short enough for `vprintfk`. -/
structure Fits (format : CString) (args : List Arg) : Prop where
  short : format.bytes.length < 2 ^ 32 - 2
  matching : ∃ rest, takeArgs (parse format.bytes) args = some rest
  strings : ShortStrings args

/-- The state with more text on the screen. -/
def KernelState.print (s : KernelState) (cs : List (BitVec 8)) : KernelState :=
  { s with screen := s.screen.screenRun cs }

theorem KernelState.print_append (s : KernelState) (cs ds : List (BitVec 8)) :
    (s.print cs).print ds = s.print (cs ++ ds) := by
  unfold KernelState.print
  rw [Screen.screenRun_append]

section Print

variable (s : KernelState) (cs : List (BitVec 8))

@[simp] theorem print_screen : (s.print cs).screen = s.screen.screenRun cs := rfl
@[simp] theorem print_pics : (s.print cs).pics = s.pics := rfl
@[simp] theorem print_pit : (s.print cs).pit = s.pit := rfl
@[simp] theorem print_serial : (s.print cs).serial = s.serial := rfl
@[simp] theorem print_idt : (s.print cs).idt = s.idt := rfl
@[simp] theorem print_handlers : (s.print cs).handlers = s.handlers := rfl
@[simp] theorem print_interruptFlag : (s.print cs).interruptFlag = s.interruptFlag := rfl
@[simp] theorem print_cmos : (s.print cs).cmos = s.cmos := rfl
@[simp] theorem print_mmap : (s.print cs).mmap = s.mmap := rfl

end Print

theorem putchark_screen : putchark deviceScreen = Write.screen := rfl

theorem ends_printfk (garbage : Garbage) {format : CString} {args : List Arg}
    (h : Fits format args) (s : KernelState) :
    (printfk garbage format args).Ends s (.ok ()) (s.print (formatted format args)) := by
  obtain ⟨rest, hargs⟩ := h.matching
  obtain ⟨n, hn⟩ := vprintfk_formatted h.short hargs h.strings deviceScreen (garbage s)
  refine ⟨n, fun m hm => Option.map_eq_some_iff.mpr ⟨_, hn m hm, ?_⟩⟩
  rw [putchark_screen]
  simp only [Screen.display_screen]
  rfl

theorem formatted_literal {s : String} (h : (text s).all (· != 0) = true) (args : List Arg) :
    formatted (literal s h) args = expand (parse (text s)) args := rfl

theorem fits_literal {s : String} (h : (text s).all (· != 0) = true) {args : List Arg}
    (hlen : (text s).length < 2 ^ 32 - 2) (hargs : takeArgs (parse (text s)) args = some [])
    (hstrings : ShortStrings args) : Fits (literal s h) args :=
  ⟨hlen, ⟨[], hargs⟩, hstrings⟩

theorem fits_haltedFormat : Fits haltedFormat [] :=
  fits_literal _ (by rw [text_ofList]; decide) (by rw [text_ofList]; rfl) fun s hs => by simp at hs

theorem formatted_haltedFormat : formatted haltedFormat [] = text "\nSystem halted!\n" := by
  unfold haltedFormat
  rw [formatted_literal, text_ofList]
  rfl

/-- A panic prints its message and stops with the interrupts off. -/
theorem ends_kernelPanic (garbage : Garbage) {format : CString} {args : List Arg}
    (h : Fits format args) (s : KernelState) :
    (kernelPanic garbage format args).Ends s (.error .panic)
      { s.print (formatted format args ++ text "\nSystem halted!\n") with
        interruptFlag := false } := by
  rw [← KernelState.print_append, ← formatted_haltedFormat]
  exact (ends_printfk garbage h s).bind <| (ends_printfk garbage fits_haltedFormat _).bind <|
    (Prog.ends_modify _ _).bind (Prog.ends_stop _ _)

/-! ## Exceptions -/

/-- `exception_messages` -/
def exceptionMessages : List CString :=
  [literal "Division By Zero" (by rw [text_ofList]; rfl),
    literal "Debug" (by rw [text_ofList]; rfl),
    literal "Non Maskable Interrupt" (by rw [text_ofList]; rfl),
    literal "Breakpoint" (by rw [text_ofList]; rfl),
    literal "Into Detected Overflow" (by rw [text_ofList]; rfl),
    literal "Out of Bounds" (by rw [text_ofList]; rfl),
    literal "Invalid Opcode" (by rw [text_ofList]; rfl),
    literal "No Coprocessor" (by rw [text_ofList]; rfl),
    literal "Double Fault" (by rw [text_ofList]; rfl),
    literal "Coprocessor Segment Overrun" (by rw [text_ofList]; rfl),
    literal "Bad TSS" (by rw [text_ofList]; rfl),
    literal "Segment Not Present" (by rw [text_ofList]; rfl),
    literal "Stack Fault" (by rw [text_ofList]; rfl),
    literal "General Protection Fault" (by rw [text_ofList]; rfl),
    literal "Page Fault" (by rw [text_ofList]; rfl),
    literal "Unknown Interrupt" (by rw [text_ofList]; rfl),
    literal "Coprocessor Fault" (by rw [text_ofList]; rfl),
    literal "Alignment Check" (by rw [text_ofList]; rfl),
    literal "Machine Check" (by rw [text_ofList]; rfl)] ++
  List.replicate 13 (literal "Reserved" (by rw [text_ofList]; rfl))

def emptyString : CString := ⟨[], by simp⟩

def exceptionMessage (id : BitVec 64) : CString := exceptionMessages.getD id.toNat emptyString

/-- The lines for the five words of a `stack_t`. -/
def frameFormat : String :=
  "  instruction_pointer = 0x%X\n" ++ "  code_segment        = 0x%X\n" ++
    "  cpu_flags           = 0x%X\n" ++ "  stack_pointer       = 0x%X\n" ++
    "  stack_segment       = 0x%X"

def frameArgs (stack : StackT) : List Arg :=
  [.long stack.instructionPointer, .long stack.codeSegment, .long stack.cpuFlags,
    .long stack.stackPointer, .long stack.stackSegment]

/-- The format of `PANIC` in `isr_handler`. -/
def exceptionFormat : CString :=
  literal ("\nPANIC in %s:%d:%s(): " ++ "Received interrupt: %d - %s\n\n" ++ frameFormat ++ "\n%s")
    (by unfold frameFormat
        repeat rw [text_append]
        repeat rw [text_ofList]
        decide +kernel)

/-- The vector is read as an `int`. -/
def exceptionArgs (src : SourceLine) (id : BitVec 64) (stack : StackT) : List Arg :=
  [.string src.file, .int src.line, .string src.func, .int (id.setWidth 32),
    .string (exceptionMessage id)] ++ frameArgs stack ++ [.string emptyString]

/-- `isr_handler` without a handler for the vector. -/
def reportException (garbage : Garbage) (src : SourceLine) (id : BitVec 64) (stack : StackT) :
    KernelM Unit :=
  kernelPanic garbage exceptionFormat (exceptionArgs src id stack)

def breakpointFormat : CString :=
  literal ("Exception: BREAKPOINT\n" ++ frameFormat ++ "\n")
    (by unfold frameFormat
        repeat rw [text_append]
        repeat rw [text_ofList]
        decide +kernel)

def breakpointHandler (garbage : Garbage) (stack : StackT) : KernelM Unit :=
  printfk garbage breakpointFormat (frameArgs stack)

/-! ## What they print -/

def frameText (stack : StackT) : List (BitVec 8) :=
  text "  instruction_pointer = 0x" ++ numeral 16 stack.instructionPointer.toNat ++
    text "\n  code_segment        = 0x" ++ numeral 16 stack.codeSegment.toNat ++
    text "\n  cpu_flags           = 0x" ++ numeral 16 stack.cpuFlags.toNat ++
    text "\n  stack_pointer       = 0x" ++ numeral 16 stack.stackPointer.toNat ++
    text "\n  stack_segment       = 0x" ++ numeral 16 stack.stackSegment.toNat ++ text "\n"

def exceptionText (src : SourceLine) (id : BitVec 64) (stack : StackT) : List (BitVec 8) :=
  text "\nPANIC in " ++ src.file.bytes ++ text ":" ++ decimalString src.line ++ text ":" ++
    src.func.bytes ++ text "(): Received interrupt: " ++ decimalString (id.setWidth 32) ++
    text " - " ++ (exceptionMessage id).bytes ++ text "\n\n" ++ frameText stack

def breakpointText (stack : StackT) : List (BitVec 8) :=
  text "Exception: BREAKPOINT\n" ++ frameText stack

set_option maxRecDepth 2000 in
theorem formatted_exceptionFormat (src : SourceLine) (id : BitVec 64) (stack : StackT) :
    formatted exceptionFormat (exceptionArgs src id stack) = exceptionText src id stack := by
  unfold formatted exceptionFormat literal exceptionText frameText exceptionArgs frameFormat
  rw [← padded_zero (decimalString src.line), ← padded_zero (decimalString (id.setWidth 32))]
  dsimp only
  repeat rw [text_append]
  repeat rw [text_ofList]
  simp only [List.append_assoc]
  rfl

set_option maxRecDepth 2000 in
theorem formatted_breakpointFormat (stack : StackT) :
    formatted breakpointFormat (frameArgs stack) = breakpointText stack := by
  unfold formatted breakpointFormat literal breakpointText frameText frameFormat
  dsimp only
  repeat rw [text_append]
  repeat rw [text_ofList]
  simp only [List.append_assoc]
  rfl

theorem exceptionMessages_printable :
    ∀ m ∈ exceptionMessages, m.bytes.length < 2 ^ 32 ∧ ∀ b ∈ m.bytes, Printable b := by
  have hall : exceptionMessages.all (fun m => decide (m.bytes.length < 2 ^ 32) &&
      m.bytes.all fun b => decide (Printable b)) = true := by
    decide +kernel
  simpa using hall

theorem exceptionMessage_printable (id : BitVec 64) :
    (exceptionMessage id).bytes.length < 2 ^ 32 ∧
      ∀ b ∈ (exceptionMessage id).bytes, Printable b := by
  unfold exceptionMessage
  rw [List.getD_eq_getElem?_getD]
  cases hget : exceptionMessages[id.toNat]? with
  | none => exact ⟨by decide, by simp [emptyString]⟩
  | some m => exact exceptionMessages_printable m (List.mem_of_getElem? hget)

set_option maxRecDepth 2000 in
theorem fits_exceptionFormat (src : SourceLine) (id : BitVec 64) (stack : StackT) :
    Fits exceptionFormat (exceptionArgs src id stack) := by
  unfold exceptionFormat frameFormat
  refine fits_literal _ ?_ ?_ fun s hs => ?_
  · repeat rw [text_append]
    repeat rw [text_ofList]
    decide +kernel
  · repeat rw [text_append]
    repeat rw [text_ofList]
    rfl
  · simp only [exceptionArgs, frameArgs, List.cons_append, List.nil_append, List.mem_cons,
      Arg.string.injEq, reduceCtorEq, false_or, List.not_mem_nil, or_false] at hs
    obtain rfl | rfl | rfl | rfl := hs
    · exact src.short.1
    · exact src.short.2
    · exact (exceptionMessage_printable id).1
    · exact Nat.two_pow_pos 32

theorem fits_breakpointFormat (stack : StackT) : Fits breakpointFormat (frameArgs stack) := by
  unfold breakpointFormat frameFormat
  refine fits_literal _ ?_ ?_ fun s hs => by simp [frameArgs] at hs
  · repeat rw [text_append]
    repeat rw [text_ofList]
    decide +kernel
  · repeat rw [text_append]
    repeat rw [text_ofList]
    rfl

theorem plain_frameText (stack : StackT) : Plain (frameText stack) := by
  have hnum : ∀ n, Plain (numeral 16 n) := fun n =>
    plain_of_printable (printable_numeral (by decide) (by decide) n)
  unfold frameText
  simp only [plain_append, hnum, and_true]
  refine ⟨⟨⟨⟨⟨?_, ?_⟩, ?_⟩, ?_⟩, ?_⟩, ?_⟩ <;>
    exact plain_text (by rw [text_ofList]; rfl)

theorem plain_exceptionText (src : SourceLine) (id : BitVec 64) (stack : StackT) :
    Plain (exceptionText src id stack) := by
  have hfile : Plain src.file.bytes := plain_of_printable fun b hb =>
    src.printable b (List.mem_append_left _ hb)
  have hfunc : Plain src.func.bytes := plain_of_printable fun b hb =>
    src.printable b (List.mem_append_right _ hb)
  have hdecimal : ∀ v, Plain (decimalString v) := fun v =>
    plain_of_printable (printable_decimalString v)
  have hmessage := plain_of_printable (exceptionMessage_printable id).2
  unfold exceptionText
  simp only [plain_append, plain_frameText, hfile, hfunc, hdecimal, hmessage, and_true]
  refine ⟨⟨⟨⟨⟨?_, ?_⟩, ?_⟩, ?_⟩, ?_⟩, ?_⟩ <;>
    exact plain_text (by rw [text_ofList]; rfl)

/-- What the screen shows at the end of a panic, behind the text `before`. -/
theorem kernelPanic_shows (garbage : Garbage) {format : CString} {args : List Arg}
    (hfits : Fits format args) (hplain : Plain (formatted format args)) {s : KernelState}
    {memory : Int → BitVec 8} {before : List (BitVec 8)} (hbefore : Plain before)
    (hscreen : s.screen = (Screen.screenInit memory).screenClear.screenRun before)
    (hfew : (linesOf (before ++ (formatted format args ++ text "\nSystem halted!\n"))).done.length
      ≤ 23) :
    ∃ s', (kernelPanic garbage format args).Ends s (.error .panic) s' ∧
      s'.interruptFlag = false ∧
      s'.screen.ShowsLines
        (linesOf (before ++ (formatted format args ++ text "\nSystem halted!\n"))) := by
  refine ⟨_, ends_kernelPanic garbage hfits s, rfl, ?_⟩
  have hhalted : Plain (text "\nSystem halted!\n") := plain_text (by rw [text_ofList]; rfl)
  simp only [KernelState.print, hscreen]
  rw [← Screen.screenRun_append]
  exact Screen.screenRun_shows memory
    (plain_append.mpr ⟨hbefore, plain_append.mpr ⟨hplain, hhalted⟩⟩) hfew

/-- An exception, from the stub to the screen. Without a handler it ends the kernel, with its
    report on the screen. A registered handler gets a pointer to the interrupted state; the one
    for breakpoints prints it. -/
theorem exception_reported (garbage : Garbage) (src : SourceLine) (n : Fin 32)
    (errorCode : BitVec 64) (table : InterruptHandlers) (handlers : Handler → Cpu → Cpu) (c : Cpu)
    {s : KernelState} {memory : Int → BitVec 8} {before : List (BitVec 8)}
    (hbefore : Plain before)
    (hscreen : s.screen = (Screen.screenInit memory).screenClear.screenRun before)
    (hfew : (linesOf (before ++ (exceptionText src (BitVec.ofNat 64 n) (interrupted c) ++
      text "\nSystem halted!\n"))).done.length ≤ 23) :
    let entry := atCall (.isr n) errorCode handlers c
    match table (BitVec.ofNat 64 n) with
    | none => ∃ id stack s', cFunction table .isrHandler entry = .panic id stack ∧
        (reportException garbage src id stack).Ends s (.error .panic) s' ∧
        s'.interruptFlag = false ∧
        s'.screen.ShowsLines (linesOf (before ++
          (exceptionText src (BitVec.ofNat 64 n) (interrupted c) ++ text "\nSystem halted!\n")))
    | some handler => ∃ p, cFunction table .isrHandler entry = .returns [] (handler p entry) ∧
        (breakpointHandler garbage (readStack entry.mem p)).Ends s (.ok ())
          (s.print (breakpointText (interrupted c))) := by
  have hreports := cFunction_reports (.isr n) errorCode table c handlers
  have hvector : (Stub.isr n).vector = n := rfl
  have hhandler : (Stub.isr n).handler = .isrHandler := rfl
  unfold Reports Stub.ports at hreports
  rw [hvector, hhandler] at hreports
  dsimp only at hreports ⊢
  cases htable : table (BitVec.ofNat 64 n) with
  | none =>
    rw [htable] at hreports
    rw [← formatted_exceptionFormat] at hfew
    have hplain := plain_exceptionText src (BitVec.ofNat 64 n) (interrupted c)
    rw [← formatted_exceptionFormat] at hplain
    obtain ⟨s', hends, hflag, hshows⟩ := kernelPanic_shows garbage
      (fits_exceptionFormat src (BitVec.ofNat 64 n) (interrupted c)) hplain hbefore hscreen hfew
    rw [formatted_exceptionFormat] at hshows
    exact ⟨_, _, s', hreports, hends, hflag, hshows⟩
  | some handler =>
    rw [htable] at hreports
    obtain ⟨p, hp, hret⟩ := hreports
    refine ⟨p, hret, ?_⟩
    rw [hp, ← formatted_breakpointFormat]
    exact ends_printfk garbage (fits_breakpointFormat _) s

def isrSource : SourceLine where
  file := literal "src/core/isr.c" (by rw [text_ofList]; rfl)
  line := 141
  func := literal "isr_handler" (by rw [text_ofList]; rfl)
  printable := by decide +kernel
  short := by decide +kernel

/-- A machine whose screen shows a prompt. -/
def promptState : KernelState where
  screen := (Screen.screenInit fun _ => 0).screenClear.screenRun (text "$ ")
  pics := ⟨⟨initialised irqBase 0x04, ∅, ∅⟩, ⟨initialised (irqBase + 8) 0x02, ∅, ∅⟩⟩
  pit := fun _ => ⟨3, 3, false, none, none⟩
  serial := []
  idt := zeroIdt
  handlers := fun _ => none
  interruptFlag := true
  cmos := ⟨0, 0⟩
  mmap := none

/-- A page fault behind the prompt. -/
theorem exception_reported_pageFault :
    ∃ id stack s',
      cFunction (fun _ => none) .isrHandler (atCall (.isr 14) 2 (fun _ c => c) zeroCpu) =
        .panic id stack ∧
      (reportException (fun _ _ => 0) isrSource id stack).Ends promptState (.error .panic) s' ∧
      s'.interruptFlag = false ∧
      s'.screen.ShowsLines (linesOf (text "$ " ++
        (exceptionText isrSource 14 (interrupted zeroCpu) ++ text "\nSystem halted!\n"))) := by
  have hbefore : Plain (text "$ ") := plain_text (by rw [text_ofList]; rfl)
  have hscreen : promptState.screen =
    (Screen.screenInit fun _ => 0).screenClear.screenRun (text "$ ") := rfl
  exact exception_reported (fun _ _ => 0) isrSource 14 2 (fun _ => none) (fun _ c => c) zeroCpu
    hbefore hscreen (by decide +kernel)

end Utero.Kernel
