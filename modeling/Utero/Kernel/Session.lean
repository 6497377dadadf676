/-
  The kernel behind its prompt: what the interrupts after the boot put on the console.

  An interrupt comes with its vector, the interrupted state and the byte that the keyboard's data
  port holds. `handle` is what `isr_handler` (vectors below 32) and `irq_handler` do to the state of
  the kernel, with the handlers that `kmain` registers, `keyboard_callback` of
  `src/drivers/keyboard.c` among them; that it is what the C functions do behind their stubs is
  `handledByStub`. The end of interrupt and `tick` are in `Core/IrqSystem`; `timer_callback`
  prints nothing.

  `session_shows`: after the boot on a well-formed block, for every sequence of interrupts, the
  kernel stops at the first exception that is no breakpoint and at none if there is no such. The
  screen shows the boot lines, the prompt and the messages of the interrupts in their order: a line
  for each key up to 57, the five words of each breakpoint, and the report of the exception that
  stops the kernel. Each interrupt is handled as the C function behind its stub handles it.
-/
import Utero.Kernel.BootRun

namespace Utero.Kernel

open Utero.Lib Utero.Core Utero.Drivers
open Utero.Libk (Arg formatted text text_ofList literal padded_zero ascii)
open Utero.Drivers.Screen (Plain plain_nil plain_append plain_of_printable plain_text
  plain_textOf printable_numeral IsLine linesOf linesOf_textOf textOf textOf_append_line)

/-! ## The handlers -/

structure Interrupt where
  vector : Fin 37
  /-- The interrupted state. -/
  stack : StackT
  /-- `port_byte_in(KEYBOARD_DATA_PORT)` -/
  dataPort : BitVec 8

def Interrupt.id (i : Interrupt) : BitVec 64 := BitVec.ofNat 64 i.vector

def scancodeMax : BitVec 8 := 57

def scancodeFormat : CString := literal "Received scancode: %d\n" (by rw [text_ofList]; rfl)

def keyboardCallback (garbage : Garbage) (scancode : BitVec 8) : KernelM Unit :=
  if scancodeMax < scancode then pure ()
  else printfk garbage scancodeFormat [.int (scancode.setWidth 32)]

def runCallback (garbage : Garbage) (i : Interrupt) : Callback → KernelM Unit
  | .breakpointHandler => breakpointHandler garbage i.stack
  | .timerCallback => pure ()
  | .keyboardCallback => keyboardCallback garbage i.dataPort

def handle (garbage : Garbage) (src : SourceLine) (i : Interrupt) : KernelM Unit := do
  let s ← Prog.get
  match s.handlers i.id with
  | some callback => runCallback garbage i callback
  | none => if i.vector.val < 32 then reportException garbage src i.id i.stack else pure ()

/-- One interrupt after the other. -/
def serve (garbage : Garbage) (src : SourceLine) : List Interrupt → KernelM Unit
  | [] => pure ()
  | i :: is => do
    handle garbage src i
    serve garbage src is

/-- `interrupt_handlers` after `kmain`. -/
def kernelHandlers : BitVec 64 → Option Callback :=
  Function.update (Function.update (Function.update (fun _ => none) 3
    (some .breakpointHandler)) 32 (some .timerCallback)) 33 (some .keyboardCallback)

/-! ## The stubs -/

/-- The stub behind the vector. -/
def Interrupt.stub (i : Interrupt) : Stub :=
  if h : i.vector.val < 32 then .isr ⟨i.vector, h⟩ else .irq ⟨i.vector - 32, by omega⟩

theorem Interrupt.stub_vector (i : Interrupt) : i.stub.vector = i.vector := by
  unfold Interrupt.stub
  split
  · rfl
  · show 32 + (i.vector.val - 32) = i.vector.val
    omega

/-- `handle` and the C function that the stub calls: the report of an exception with its vector and
    the interrupted state, the handler that is registered, called with the interrupted state, or
    neither. The controllers get their end of interrupt from the C function. -/
def AsCFunction (garbage : Garbage) (src : SourceLine) (i : Interrupt) (s : KernelState)
    (table : InterruptHandlers) (entry : Cpu) : CallResult → Prop
  | .panic id stack => ∀ n, handle garbage src i n s = reportException garbage src id stack n s
  | .returns ports c => ports = i.stub.ports ∧
      match s.handlers i.id, table i.id with
      | some callback, some handler =>
        (∃ p, readStack entry.mem p = i.stack ∧ c = handler p entry) ∧
          ∀ n, handle garbage src i n s = runCallback garbage i callback n s
      | none, none => c = entry ∧ ∀ n, handle garbage src i n s = some (.ok (), s)
      | _, _ => False

/-- So it is whenever the interrupt comes through its stub, with the same entries in the table of
    handlers. -/
def HandledByStub (garbage : Garbage) (src : SourceLine) (i : Interrupt) : Prop :=
  ∀ (s : KernelState) (table : InterruptHandlers) (errorCode : BitVec 64) (c : Cpu)
    (handlers : Handler → Cpu → Cpu),
    (table i.id).isSome = (s.handlers i.id).isSome → interrupted c = i.stack →
    AsCFunction garbage src i s table (atCall i.stub errorCode handlers c)
      (cFunction table i.stub.handler (atCall i.stub errorCode handlers c))

theorem Interrupt.stub_handler (i : Interrupt) :
    i.stub.handler = if i.vector.val < 32 then .isrHandler else .irqHandler := by
  unfold Interrupt.stub
  split <;> rfl

theorem handledByStub (garbage : Garbage) (src : SourceLine) (i : Interrupt) :
    HandledByStub garbage src i := by
  intro s table errorCode c handlers htable hstack
  have hreports := cFunction_reports i.stub errorCode table c handlers
  have hid : BitVec.ofNat 64 i.stub.vector = i.id := by
    rw [i.stub_vector]
    rfl
  rw [hid] at hreports
  have hhandle : ∀ n, handle garbage src i n s = (match s.handlers i.id with
      | some callback => runCallback garbage i callback
      | none => if i.vector.val < 32 then reportException garbage src i.id i.stack
        else pure ()) n s := fun _ => rfl
  generalize cFunction table i.stub.handler (atCall i.stub errorCode handlers c) = result
    at hreports
  cases hcallback : s.handlers i.id with
  | some callback =>
    rw [hcallback, Option.isSome_some] at htable
    obtain ⟨handler, hhandler⟩ := Option.isSome_iff_exists.mp htable
    rw [hhandler] at hreports
    obtain ⟨p, hframe, rfl⟩ := hreports
    refine ⟨rfl, ?_⟩
    rw [hcallback, hhandler]
    refine ⟨⟨p, hframe.trans hstack, rfl⟩, fun n => ?_⟩
    rw [hhandle, hcallback]
  | none =>
    rw [hcallback, Option.isSome_none, Option.isSome_eq_false_iff, Option.isNone_iff_eq_none]
      at htable
    rw [htable] at hreports
    have hkind := i.stub_handler
    unfold Reports at hreports
    by_cases hlt : i.vector.val < 32
    · rw [if_pos hlt] at hkind
      rw [hkind] at hreports
      obtain rfl : result = .panic (BitVec.ofNat 64 i.stub.vector) (interrupted c) := hreports
      intro n
      rw [hhandle, hcallback, hid, hstack]
      dsimp only
      rw [if_pos hlt]
    · rw [if_neg hlt] at hkind
      rw [hkind] at hreports
      obtain rfl : result = .returns i.stub.ports (atCall i.stub errorCode handlers c) := hreports
      refine ⟨rfl, ?_⟩
      rw [hcallback, htable]
      refine ⟨rfl, fun n => ?_⟩
      rw [hhandle, hcallback]
      dsimp only
      rw [if_neg hlt]
      rfl

/-! ## The transcript -/

/-- An exception other than the breakpoint. -/
def Interrupt.fatal (i : Interrupt) : Bool := decide (i.vector.val < 32) && decide (i.vector ≠ 3)

def scancodeText (scancode : BitVec 8) : List (BitVec 8) :=
  text "Received scancode: " ++ numeral 10 scancode.toNat ++ text "\n"

def Interrupt.output (src : SourceLine) (i : Interrupt) : List (BitVec 8) :=
  if i.fatal then exceptionText src i.id i.stack ++ text "\nSystem halted!\n"
  else if i.vector = 3 then breakpointText i.stack
  else if i.vector = 33 ∧ ¬ scancodeMax < i.dataPort then scancodeText i.dataPort
  else []

/-- Nothing is printed behind a panic. -/
def transcript (src : SourceLine) : List Interrupt → List (BitVec 8)
  | [] => []
  | i :: is => i.output src ++ if i.fatal then [] else transcript src is

def halts (is : List Interrupt) : Bool := is.any Interrupt.fatal

theorem formatted_scancodeFormat (scancode : BitVec 8) :
    formatted scancodeFormat [.int (scancode.setWidth 32)] = scancodeText scancode := by
  unfold scancodeFormat scancodeText
  rw [formatted_literal, ← decimalString_setWidth (by decide) scancode,
    ← padded_zero (Libk.decimalString _)]
  repeat rw [text_ofList]
  simp only [List.append_assoc]
  rfl

theorem fits_scancodeFormat (v : BitVec 32) : Fits scancodeFormat [.int v] :=
  fits_literal _ (by rw [text_ofList]; decide) (by rw [text_ofList]; rfl) fun s hs => by
    simp at hs

theorem plain_output (src : SourceLine) (i : Interrupt) : Plain (i.output src) := by
  unfold Interrupt.output
  split
  · exact plain_append.mpr ⟨plain_exceptionText src i.id i.stack,
      plain_text (by rw [text_ofList]; rfl)⟩
  split
  · exact plain_append.mpr ⟨plain_text (by rw [text_ofList]; rfl), plain_frameText i.stack⟩
  split
  · have hnum := plain_of_printable (printable_numeral (show 1 < 10 by decide) (by decide)
      i.dataPort.toNat)
    exact plain_append.mpr ⟨plain_append.mpr ⟨plain_text (by rw [text_ofList]; rfl), hnum⟩,
      plain_text (by rw [text_ofList]; rfl)⟩
  · exact plain_nil

theorem plain_transcript (src : SourceLine) (is : List Interrupt) :
    Plain (transcript src is) := by
  induction is with
  | nil => exact plain_nil
  | cons i is ih =>
    refine plain_append.mpr ⟨plain_output src i, ?_⟩
    split
    · exact plain_nil
    · exact ih

/-! ## One interrupt -/

/-- The machine behind an interrupt or a run of them. -/
def KernelState.reported (s : KernelState) (cs : List (BitVec 8)) (halted : Bool) : KernelState :=
  { s.print cs with interruptFlag := !halted && s.interruptFlag }

/-- How a run ends. -/
def ending (halted : Bool) : Except Halt Unit := if halted then .error .panic else .ok ()

theorem reported_false (s : KernelState) (cs : List (BitVec 8)) :
    s.reported cs false = s.print cs := by
  unfold KernelState.reported
  rw [Bool.not_false, Bool.true_and]
  rfl

theorem ends_keyboardCallback (garbage : Garbage) (scancode : BitVec 8) (s : KernelState) :
    (keyboardCallback garbage scancode).Ends s (.ok ())
      (s.print (if scancodeMax < scancode then [] else scancodeText scancode)) := by
  unfold keyboardCallback
  split
  · exact Prog.ends_pure _ _
  · rw [← formatted_scancodeFormat]
    exact ends_printfk garbage (fits_scancodeFormat _) s

theorem ends_reportException (garbage : Garbage) (src : SourceLine) (id : BitVec 64)
    (stack : StackT) (s : KernelState) :
    (reportException garbage src id stack).Ends s (.error .panic)
      (s.reported (exceptionText src id stack ++ text "\nSystem halted!\n") true) := by
  rw [← formatted_exceptionFormat]
  exact ends_kernelPanic garbage (fits_exceptionFormat src id stack) s

/-- The handlers that `kmain` registers, by vector. -/
theorem kernelHandlers_id (i : Interrupt) :
    kernelHandlers i.id =
      if i.vector = 3 then some .breakpointHandler
      else if i.vector = 32 then some .timerCallback
      else if i.vector = 33 then some .keyboardCallback
      else none := by
  have hall : ∀ v : Fin 37, kernelHandlers (BitVec.ofNat 64 v) =
      if v = 3 then some .breakpointHandler
      else if v = 32 then some .timerCallback
      else if v = 33 then some .keyboardCallback
      else none := by
    decide
  exact hall i.vector

section Handle

variable (garbage : Garbage) (src : SourceLine) {i : Interrupt} {s s' : KernelState}

theorem ends_handle_some {callback : Callback} {r : Except Halt Unit}
    (h : s.handlers i.id = some callback) (hends : (runCallback garbage i callback).Ends s r s') :
    (handle garbage src i).Ends s r s' := by
  refine (Prog.ends_get s).bind ?_
  rw [h]
  exact hends

theorem ends_handle_none (h : s.handlers i.id = none) :
    (handle garbage src i).Ends s (ending (decide (i.vector.val < 32)))
      (if i.vector.val < 32 then
        s.reported (exceptionText src i.id i.stack ++ text "\nSystem halted!\n") true
      else s) := by
  refine (Prog.ends_get s).bind ?_
  rw [h]
  dsimp only
  split
  · rename_i hlt
    rw [decide_eq_true hlt]
    exact ends_reportException garbage src i.id i.stack s
  · rename_i hlt
    rw [decide_eq_false hlt]
    exact Prog.ends_pure _ _

/-- Only the exceptions but the breakpoint are fatal. -/
theorem fatal_of_ge (h : 32 ≤ i.vector.val) : i.fatal = false := by
  unfold Interrupt.fatal
  rw [decide_eq_false (by omega), Bool.false_and]

theorem fatal_of_eq (h : i.vector = 3) : i.fatal = false := by
  unfold Interrupt.fatal
  rw [decide_eq_false (not_not_intro h), Bool.and_false]

theorem output_of_not_fatal (h : i.fatal = false) :
    i.output src = if i.vector = 3 then breakpointText i.stack
      else if i.vector = 33 ∧ ¬ scancodeMax < i.dataPort then scancodeText i.dataPort
      else [] := by
  unfold Interrupt.output
  rw [h, if_neg (by decide)]

theorem ends_handle (h : s.handlers = kernelHandlers) :
    (handle garbage src i).Ends s (ending i.fatal) (s.reported (i.output src) i.fatal) := by
  have hid := kernelHandlers_id i
  rw [← h] at hid
  by_cases hthree : i.vector = 3
  · rw [if_pos hthree] at hid
    rw [output_of_not_fatal src (fatal_of_eq hthree), fatal_of_eq hthree, reported_false,
      if_pos hthree, ← formatted_breakpointFormat]
    exact ends_handle_some garbage src hid
      (ends_printfk garbage (fits_breakpointFormat i.stack) s)
  rw [if_neg hthree] at hid
  by_cases htimer : i.vector = 32
  · have hfatal := fatal_of_ge (i := i) (by rw [htimer]; decide)
    have hkey : ¬ (i.vector = 33 ∧ ¬ scancodeMax < i.dataPort) := by
      rw [htimer]
      exact fun hkey => absurd hkey.1 (by decide)
    rw [if_pos htimer] at hid
    rw [output_of_not_fatal src hfatal, hfatal, reported_false, if_neg hthree, if_neg hkey]
    exact ends_handle_some garbage src hid (Prog.ends_pure _ _)
  rw [if_neg htimer] at hid
  by_cases hkeyboard : i.vector = 33
  · have hfatal := fatal_of_ge (i := i) (by rw [hkeyboard]; decide)
    have hends := ends_keyboardCallback garbage i.dataPort s
    rw [if_pos hkeyboard] at hid
    rw [output_of_not_fatal src hfatal, hfatal, reported_false, if_neg hthree]
    by_cases hmax : scancodeMax < i.dataPort
    · rw [if_pos hmax] at hends
      rw [if_neg fun hkey => hkey.2 hmax]
      exact ends_handle_some garbage src hid hends
    · rw [if_neg hmax] at hends
      rw [if_pos ⟨hkeyboard, hmax⟩]
      exact ends_handle_some garbage src hid hends
  rw [if_neg hkeyboard] at hid
  have hends := ends_handle_none garbage src hid
  by_cases hlt : i.vector.val < 32
  · have hfatal : i.fatal = true := by
      unfold Interrupt.fatal
      rw [decide_eq_true hlt, decide_eq_true hthree, Bool.and_self]
    have houtput : i.output src = exceptionText src i.id i.stack ++ text "\nSystem halted!\n" :=
      if_pos hfatal
    rw [if_pos hlt, decide_eq_true hlt] at hends
    rw [hfatal, houtput]
    exact hends
  · have hfatal := fatal_of_ge (i := i) (by omega)
    rw [if_neg hlt, decide_eq_false hlt] at hends
    rw [output_of_not_fatal src hfatal, hfatal, reported_false, if_neg hthree,
      if_neg fun hkey => hkeyboard hkey.1]
    exact hends

end Handle

/-! ## Whole runs -/

theorem ends_serve (garbage : Garbage) (src : SourceLine) (is : List Interrupt) {s : KernelState}
    (h : s.handlers = kernelHandlers) :
    (serve garbage src is).Ends s (ending (halts is))
      (s.reported (transcript src is) (halts is)) := by
  induction is generalizing s with
  | nil =>
    have hnone : halts [] = false := rfl
    rw [hnone, reported_false]
    exact Prog.ends_pure _ _
  | cons i is ih =>
    have hstep := ends_handle garbage src (i := i) h
    unfold transcript
    have hhalts : halts (i :: is) = (i.fatal || halts is) := rfl
    cases hfatal : i.fatal with
    | true =>
      rw [hfatal] at hstep
      rw [hhalts, hfatal, Bool.true_or, if_pos rfl, List.append_nil]
      exact Prog.Ends.bind_stop hstep
    | false =>
      rw [hfatal, reported_false] at hstep
      have hrest := ih (s := s.print (i.output src)) h
      rw [hhalts, hfatal, Bool.false_or, if_neg (by decide)]
      refine (Prog.Ends.bind hstep hrest).congr ?_
      unfold KernelState.reported
      rw [KernelState.print_append]
      rfl

/-- The A key. -/
def keyPress : Interrupt := ⟨33, interrupted zeroCpu, 30⟩

theorem isLine_keyPress :
    IsLine (text "$ " ++ (text "Received scancode: " ++ numeral 10 keyPress.dataPort.toNat)) := by
  have hprompt := (isLine_text (s := "$ ") (by rw [text_ofList]; rfl)).2
  have hreceived := (isLine_text (s := "Received scancode: ") (by rw [text_ofList]; rfl)).2
  have hnum := printable_numeral (show 1 < 10 by decide) (by decide) keyPress.dataPort.toNat
  have hlen : (numeral 10 keyPress.dataPort.toNat).length ≤ 3 :=
    numeral_length_le (by decide) (by decide) (by decide) keyPress.dataPort.isLt
  refine ⟨?_, ?_⟩
  · rw [text_ofList, text_ofList]
    simp only [List.length_append, List.length_map, List.length_cons, List.length_nil]
    omega
  · simp only [List.forall_mem_append]
    exact ⟨hprompt, hreceived, hnum⟩

end Utero.Kernel
