/-
  `isr_handler`, `irq_handler` and `get_stack` of `src/core/isr.c`, and the `iretq` that ends
  a stub.

  A registered handler is the whole call from the C function to its `ret`, given the pointer
  it is passed; the C functions' own frames lie below rsp and are left out. `kernel_panic`
  does not return. It prints the vector, its message and the `stack_t`.

  `passed_frame`: for every vector, a registered handler is given the five words RIP, CS,
  RFLAGS, RSP, SS that the processor pushed, because `get_stack` steps over the error code
  where there is one. The stubs do not step over it. `frameHandled_iff`: `iretq` pops these
  five words exactly if the vector has no error code.
-/
import Utero.Core.Interrupt

namespace Utero.Core

open Utero.Lib

/-! ## The C side -/

/-- `stack_t`. -/
structure StackT where
  instructionPointer : BitVec 64
  codeSegment : BitVec 64
  cpuFlags : BitVec 64
  stackPointer : BitVec 64
  stackSegment : BitVec 64
  deriving DecidableEq

/-- The `stack_t` at address `p`. -/
def readStack (mem : BitVec 64 → BitVec 64) (p : BitVec 64) : StackT :=
  ⟨mem p, mem (p + 8), mem (p + 16), mem (p + 24), mem (p + 32)⟩

def nbRegistersPushedBeforeCall : BitVec 64 := 15

def getStack (id stackAddr : BitVec 64) : BitVec 64 :=
  let stackAddr :=
    if id ∈ ([8, 10, 11, 12, 13, 14, 17] : List (BitVec 64)) then stackAddr + 8 else stackAddr
  stackAddr + nbRegistersPushedBeforeCall * 8

/-- `isr_t`. -/
abbrev IsrT := BitVec 64 → Cpu → Cpu

/-- `interrupt_handlers`; a null pointer is `none`. -/
abbrev InterruptHandlers := BitVec 64 → Option IsrT

/-- A byte written to a port. -/
structure PortWrite where
  port : BitVec 16
  value : BitVec 8
  deriving DecidableEq

/-- How a call of one of the two C functions ends. -/
inductive CallResult where
  | returns (ports : List PortWrite) (c : Cpu)
  | panic (id : BitVec 64) (stack : StackT)

/-- The arguments are in rdi and rsi. -/
def isrHandler (table : InterruptHandlers) (c : Cpu) : CallResult :=
  let id := c.regs .rdi
  let stackAddr := c.regs .rsi
  match table id with
  | some handler => .returns [] (handler (getStack id stackAddr) c)
  | none => .panic id (readStack c.mem (getStack id stackAddr))

def pic1 : BitVec 16 := 0x20
def pic2 : BitVec 16 := 0xA0
def picEoi : BitVec 8 := 0x20

/-- The end of interrupt for the slave, if it raised the interrupt, and for the master. -/
def endOfInterrupt (id : BitVec 64) : List PortWrite :=
  (if 40 ≤ id then [⟨pic2, picEoi⟩] else []) ++ [⟨pic1, picEoi⟩]

def irqHandler (table : InterruptHandlers) (c : Cpu) : CallResult :=
  let id := c.regs .rdi
  let stackAddr := c.regs .rsi
  match table id with
  | some handler => .returns (endOfInterrupt id) (handler (getStack id stackAddr) c)
  | none => .returns (endOfInterrupt id) c

def cFunction (table : InterruptHandlers) : Handler → Cpu → CallResult
  | .isrHandler => isrHandler table
  | .irqHandler => irqHandler table

/-- The C functions as the stubs see them. After a panic the stub does not go on, so the value
    there is never used. -/
def handlersOf (table : InterruptHandlers) (f : Handler) (c : Cpu) : Cpu :=
  match cFunction table f c with
  | .returns _ c' => c'
  | .panic _ _ => c

/-- `iretq` pops RIP, CS, RFLAGS, RSP and SS. -/
def iretq (c : Cpu) : Cpu :=
  let stack := readStack c.mem c.rsp
  { c with
    rip := stack.instructionPointer
    cs := stack.codeSegment
    rflags := stack.cpuFlags
    rsp := stack.stackPointer
    ss := stack.stackSegment }

/-- Where the code that `c` runs is, in the five words an interrupt saves. -/
def interrupted (c : Cpu) : StackT := ⟨c.rip, c.cs, c.rflags, c.rsp, c.ss⟩

/-! ## The stack of an interrupt -/

/-- What the processor pushes. -/
def deliveredWords (vector : Nat) (errorCode : BitVec 64) (c : Cpu) : List (BitVec 64) :=
  [c.ss, c.rsp, c.rflags, c.cs, c.rip] ++ if pushesErrorCode vector then [errorCode] else []

/-- The words on the stack at the call of the C function. -/
def stackWords (stub : Stub) (errorCode : BitVec 64) (c : Cpu) : List (BitVec 64) :=
  deliveredWords stub.vector errorCode c ++
    savedRegs.map (Function.update c.regs .rdi (BitVec.ofNat 64 stub.vector))

/-- The interrupted stack, aligned. -/
def alignedStack (c : Cpu) : StackMachine Reg :=
  { c.toStackMachine with rsp := c.rsp &&& ~~~15 }

/-- Words on the stack at the call: 15 registers, five words of frame and the error code. -/
def stackDepth (vector : Nat) : Nat :=
  if pushesErrorCode vector then 21 else 20

theorem stackWords_length (stub : Stub) (errorCode : BitVec 64) (c : Cpu) :
    (stackWords stub errorCode c).length = stackDepth stub.vector := by
  unfold stackWords deliveredWords stackDepth
  split <;> rfl

theorem deliver_stack (vector : Nat) (errorCode : BitVec 64) (c : Cpu) :
    (deliver vector errorCode c).toStackMachine =
      (alignedStack c).pushWords (deliveredWords vector errorCode c) := by
  unfold deliver deliveredWords
  dsimp only
  split <;> rfl

theorem run_saveRegisters_regs (handlers : Handler → Cpu → Cpu) (c : Cpu) :
    (run handlers saveRegisters c).regs =
      Function.update (c.toStackMachine.pushAll savedRegs).regs .rsi
        (c.toStackMachine.pushAll savedRegs).rsp := by
  rw [saveRegisters_eq, run_append, run_push]
  rfl

section AtCall

variable (stub : Stub) (errorCode : BitVec 64) (handlers : Handler → Cpu → Cpu) (c : Cpu)

/-- The stack after the macro body and the pushes of the common stub. -/
theorem pushAll_loadVector :
    (run handlers (loadVector (BitVec.ofNat 32 stub.vector))
        (deliver stub.vector errorCode c)).toStackMachine.pushAll savedRegs =
      { (alignedStack c).pushWords (stackWords stub errorCode c) with
        regs := Function.update c.regs .rdi (BitVec.ofNat 64 stub.vector) } := by
  rw [run_loadVector_stack, deliver_regs, StackMachine.pushAll_eq_pushWords,
    StackMachine.pushWords_withRegs, deliver_stack, ← StackMachine.pushWords_append]
  rfl

theorem atCall_stack :
    (atCall stub errorCode handlers c).rsp =
        ((alignedStack c).pushWords (stackWords stub errorCode c)).rsp ∧
      (atCall stub errorCode handlers c).mem =
        ((alignedStack c).pushWords (stackWords stub errorCode c)).mem := by
  obtain ⟨hrsp, hmem⟩ := run_saveRegisters handlers
    (run handlers (loadVector (BitVec.ofNat 32 stub.vector)) (deliver stub.vector errorCode c))
  rw [pushAll_loadVector] at hrsp hmem
  unfold atCall
  rw [run_append]
  exact ⟨hrsp, hmem⟩

/-- The arguments of the C function: the vector and the stack pointer. -/
theorem atCall_args :
    (atCall stub errorCode handlers c).regs .rdi = BitVec.ofNat 64 stub.vector ∧
      (atCall stub errorCode handlers c).regs .rsi = (atCall stub errorCode handlers c).rsp := by
  have hregs := run_saveRegisters_regs handlers
    (run handlers (loadVector (BitVec.ofNat 32 stub.vector)) (deliver stub.vector errorCode c))
  have hrsp := (run_saveRegisters handlers
    (run handlers (loadVector (BitVec.ofNat 32 stub.vector)) (deliver stub.vector errorCode c))).1
  rw [← hrsp, pushAll_loadVector] at hregs
  unfold atCall
  rw [run_append, hregs]
  constructor
  · rw [Function.update_of_ne (by decide)]
    dsimp only
    rw [Function.update_self]
  · rw [Function.update_self]

/-- Address of the frame: four words lie above it. -/
def framePtr : BitVec 64 := StackMachine.below (c.rsp &&& ~~~15) 4

theorem mem_errorCodeVectors : ∀ v < 37,
    (BitVec.ofNat 64 v ∈ ([8, 10, 11, 12, 13, 14, 17] : List (BitVec 64))) ↔
      pushesErrorCode v = true := by
  decide

/-- `get_stack` finds the frame for both shapes of the stack. -/
theorem getStack_atCall :
    getStack ((atCall stub errorCode handlers c).regs .rdi)
      ((atCall stub errorCode handlers c).regs .rsi) = framePtr c := by
  obtain ⟨hrdi, hrsi⟩ := atCall_args stub errorCode handlers c
  have hlen := stackWords_length stub errorCode c
  have habove := StackMachine.pushWords_above (alignedStack c) (stackWords stub errorCode c)
    (i := 4) (by rw [hlen, stackDepth]; split <;> omega)
  rw [hrdi, hrsi, (atCall_stack stub errorCode handlers c).1, getStack]
  rw [hlen] at habove
  rw [if_congr (mem_errorCodeVectors stub.vector stub.vector_lt) rfl rfl, framePtr]
  refine Eq.trans ?_ habove
  unfold stackDepth
  split
  · rw [BitVec.add_assoc]
    rfl
  · rfl

/-- The five words at the frame's address are the interrupted state. -/
theorem readStack_framePtr {mem : BitVec 64 → BitVec 64}
    (h : ∀ i < 5, mem (StackMachine.below (c.rsp &&& ~~~15) i) =
      ((alignedStack c).pushWords (stackWords stub errorCode c)).mem
        (StackMachine.below (c.rsp &&& ~~~15) i)) :
    readStack mem (framePtr c) = interrupted c := by
  have hlen := stackWords_length stub errorCode c
  have hle : stackDepth stub.vector ≤ 2 ^ 60 := by
    unfold stackDepth
    split <;> omega
  have hword : ∀ i < 5, ∀ v, (stackWords stub errorCode c)[i]? = some v →
      mem (StackMachine.below (c.rsp &&& ~~~15) i) = v := by
    intro i hi v hv
    rw [h i hi]
    exact StackMachine.pushWords_mem (alignedStack c) _ (Nat.le_trans (Nat.le_of_eq hlen) hle) hv
  have haddr : ∀ k ≤ 4, framePtr c + BitVec.ofNat 64 (8 * k) =
      StackMachine.below (c.rsp &&& ~~~15) (4 - k) :=
    fun k hk => StackMachine.below_add _ hk
  unfold readStack interrupted
  rw [show framePtr c + 8 = _ from haddr 1 (by omega),
    show framePtr c + 16 = _ from haddr 2 (by omega),
    show framePtr c + 24 = _ from haddr 3 (by omega),
    show framePtr c + 32 = _ from haddr 4 (by omega), framePtr]
  rw [hword 4 (by omega) c.rip rfl, hword 3 (by omega) c.cs rfl,
    hword 2 (by omega) c.rflags rfl, hword 1 (by omega) c.rsp rfl, hword 0 (by omega) c.ss rfl]

/-- For every vector, the C function passes its handler the frame the processor pushed. -/
theorem passed_frame {table : InterruptHandlers} {handler : IsrT}
    (hreg : table (BitVec.ofNat 64 stub.vector) = some handler) :
    (∃ ports, cFunction table stub.handler (atCall stub errorCode handlers c) =
      .returns ports (handler (framePtr c) (atCall stub errorCode handlers c))) ∧
    readStack (atCall stub errorCode handlers c).mem (framePtr c) = interrupted c := by
  have hptr := getStack_atCall stub errorCode handlers c
  have hrdi := (atCall_args stub errorCode handlers c).1
  constructor
  · cases hstub : stub.handler with
    | isrHandler =>
      refine ⟨[], ?_⟩
      simp only [cFunction, isrHandler]
      rw [hptr, hrdi, hreg]
    | irqHandler =>
      refine ⟨endOfInterrupt (BitVec.ofNat 64 stub.vector), ?_⟩
      simp only [cFunction, irqHandler]
      rw [hptr, hrdi, hreg]
  · refine readStack_framePtr stub errorCode c fun i _ => ?_
    rw [(atCall_stack stub errorCode handlers c).2]

end AtCall

/-! ## The return -/

theorem run_restoreRegisters_stack (handlers : Handler → Cpu → Cpu) (c : Cpu) :
    (run handlers restoreRegisters c).rsp = c.rsp + 120 ∧
      (run handlers restoreRegisters c).mem = c.mem := by
  rw [restoreRegisters_eq, run_append, run_pop]
  exact ⟨StackMachine.popAll_rsp c.toStackMachine savedRegs.reverse,
    StackMachine.popAll_mem c.toStackMachine savedRegs.reverse⟩

/-- What an interrupt of `c` should do when `handler` is registered for its vector: the
    handler is given the five words the processor pushed, `iretq` pops exactly these words, and
    execution resumes where it was. -/
def FrameHandled (stub : Stub) (errorCode : BitVec 64) (table : InterruptHandlers)
    (handler : IsrT) (c : Cpu) : Prop :=
  let entry := atCall stub errorCode (handlersOf table) c
  let exit := atIretq stub errorCode (handlersOf table) c
  let p := getStack (entry.regs .rdi) (entry.regs .rsi)
  (∃ ports, cFunction table stub.handler entry = .returns ports (handler p entry)) ∧
    readStack entry.mem p = interrupted c ∧ exit.rsp = p ∧ interrupted (iretq exit) = interrupted c

section Return

variable {stub : Stub} {errorCode : BitVec 64} {table : InterruptHandlers} {handler : IsrT}
  {c : Cpu}

/-- The stub pops the 15 registers only, and so ends one word below the frame if there is an
    error code. -/
theorem atIretq_rsp (hreg : table (BitVec.ofNat 64 stub.vector) = some handler)
    (hrsp : (handler (framePtr c) (atCall stub errorCode (handlersOf table) c)).rsp =
      (atCall stub errorCode (handlersOf table) c).rsp) :
    (atIretq stub errorCode (handlersOf table) c).rsp =
      StackMachine.below (c.rsp &&& ~~~15) (if pushesErrorCode stub.vector then 5 else 4) := by
  obtain ⟨⟨ports, hcall⟩, -⟩ := passed_frame stub errorCode (handlersOf table) c hreg
  have hlen := stackWords_length stub errorCode c
  have habove := StackMachine.pushWords_above (alignedStack c) (stackWords stub errorCode c)
    (i := if pushesErrorCode stub.vector then 5 else 4)
    (by rw [hlen, stackDepth]; split <;> omega)
  rw [atIretq_eq, (run_restoreRegisters_stack _ _).1]
  simp only [handlersOf, hcall]
  rw [hlen] at habove
  refine Eq.trans ?_ habove
  rw [hrsp, (atCall_stack stub errorCode (handlersOf table) c).1]
  unfold stackDepth
  split <;> rfl

theorem atIretq_mem (hreg : table (BitVec.ofNat 64 stub.vector) = some handler) :
    (atIretq stub errorCode (handlersOf table) c).mem =
      (handler (framePtr c) (atCall stub errorCode (handlersOf table) c)).mem := by
  obtain ⟨⟨ports, hcall⟩, -⟩ := passed_frame stub errorCode (handlersOf table) c hreg
  rw [atIretq_eq, (run_restoreRegisters_stack _ _).2]
  simp only [handlersOf, hcall]

/-- A handler that keeps the words of the stack leaves the frame as the processor pushed it. -/
theorem readStack_of_keepsTop (hkeep : StackMachine.KeepsTop (stackDepth stub.vector)
      (atCall stub errorCode (handlersOf table) c).toStackMachine
      (handler (framePtr c) (atCall stub errorCode (handlersOf table) c)).toStackMachine) :
    readStack (handler (framePtr c) (atCall stub errorCode (handlersOf table) c)).mem
      (framePtr c) = interrupted c := by
  obtain ⟨hrsp, hmem⟩ := atCall_stack stub errorCode (handlersOf table) c
  have hlen := stackWords_length stub errorCode c
  have hdepth : 20 ≤ stackDepth stub.vector := by
    unfold stackDepth
    split <;> omega
  refine readStack_framePtr stub errorCode c fun i hi => ?_
  have habove := StackMachine.pushWords_above (alignedStack c) (stackWords stub errorCode c)
    (i := i) (by omega)
  have hword := hkeep.words (stackDepth stub.vector - 1 - i) (by omega)
  rw [hrsp, hmem, ← hlen, habove] at hword
  exact hword

/-- A handler that returns with rsp and the words of the stack as they were: `iretq` pops
    the frame it was given, and resumes the interrupted code, exactly if the processor pushed
    no error code. -/
theorem frameHandled_iff (hreg : table (BitVec.ofNat 64 stub.vector) = some handler)
    (hkeep : StackMachine.KeepsTop (stackDepth stub.vector)
      (atCall stub errorCode (handlersOf table) c).toStackMachine
      (handler (framePtr c) (atCall stub errorCode (handlersOf table) c)).toStackMachine) :
    FrameHandled stub errorCode table handler c ↔ pushesErrorCode stub.vector = false := by
  obtain ⟨hcall, hframe⟩ := passed_frame stub errorCode (handlersOf table) c hreg
  have hptr := getStack_atCall stub errorCode (handlersOf table) c
  have hrsp := atIretq_rsp hreg hkeep.rsp
  unfold FrameHandled
  dsimp only
  rw [hptr, hrsp]
  cases herr : pushesErrorCode stub.vector with
  | true =>
    simp only [if_true, reduceCtorEq, iff_false]
    rintro ⟨-, -, hsp, -⟩
    exact absurd (StackMachine.below_inj (by omega) (by omega) hsp) (by omega)
  | false =>
    rw [herr] at hrsp
    refine iff_of_true ⟨hcall, hframe, rfl, ?_⟩ rfl
    have hback : interrupted (iretq (atIretq stub errorCode (handlersOf table) c)) =
        readStack (atIretq stub errorCode (handlersOf table) c).mem
          (atIretq stub errorCode (handlersOf table) c).rsp := rfl
    rw [hback, hrsp, atIretq_mem hreg]
    exact readStack_of_keepsTop hkeep

end Return

/-- A table with one handler for every vector, which returns at once. -/
def returningTable : InterruptHandlers := fun _ => some fun _ c => c

theorem frameHandled_iff_isr3 :
    FrameHandled (.isr 3) 0 returningTable (fun _ c => c) zeroCpu ↔
      pushesErrorCode (Stub.isr 3).vector = false :=
  frameHandled_iff rfl ⟨rfl, fun _ _ => rfl⟩

/-- A general protection fault (vector 13) returns to its error code. -/
theorem isr13_loses_frame :
    ¬ ∀ (stub : Stub) (errorCode : BitVec 64) (table : InterruptHandlers) (handler : IsrT)
      (c : Cpu), table (BitVec.ofNat 64 stub.vector) = some handler →
      StackMachine.KeepsTop (stackDepth stub.vector)
        (atCall stub errorCode (handlersOf table) c).toStackMachine
        (handler (framePtr c) (atCall stub errorCode (handlersOf table) c)).toStackMachine →
      FrameHandled stub errorCode table handler c := by
  intro h
  obtain ⟨-, -, hsp, -⟩ := h (.isr 13) 0 returningTable (fun _ c => c) zeroCpu rfl
    ⟨rfl, fun _ _ => rfl⟩
  exact absurd hsp (by decide)

end Utero.Core
