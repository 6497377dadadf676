/-
  `asm/interrupt.asm`: the interrupt stubs, from the moment of interruption to `iretq`.

  The processor aligns the stack pointer to 16 bytes, pushes SS, RSP, RFLAGS, CS, RIP and,
  for vectors 8, 10 to 14 and 17, an error code, and enters the stub with interrupts
  disabled (`deliver`). From there on every stack access is a 64-bit word at a multiple of
  8, so memory is kept in words.

  `def_isr_handler n` and `def_irq_handler n` put the vector number into rdi and jump to
  their common stub. The two common stubs differ only in the C function they call. That
  function is a parameter `Handler → Cpu → Cpu` (the whole call, from `call` to `ret`); what
  the stubs need of it is `KeepsTop 15`: rsp and the 15 saved words are as before.

  `regs_at_iretq`: at `iretq` the registers are those of the interrupted code, except that
  rdi holds the vector number, because the macros load rdi before the common stub saves it.
  `stub_transparent_iff`: so the stub is transparent exactly if rdi held the vector number.
-/
import Utero.Lib.Stack

namespace Utero.Core

open Utero.Lib

/-- The general-purpose registers the stubs save. -/
inductive Reg where
  | rax | rbx | rcx | rdx | rsi | rdi | rbp
  | r8 | r9 | r10 | r11 | r12 | r13 | r14 | r15
  deriving DecidableEq

structure Cpu extends StackMachine Reg where
  rip : BitVec 64
  cs : BitVec 64
  rflags : BitVec 64
  ss : BitVec 64

/-- The C functions the stubs call. -/
inductive Handler where
  | isrHandler
  | irqHandler
  deriving DecidableEq

/-! ## Instructions -/

inductive Instr where
  | cli
  | sti
  | movImm (dst : Reg) (imm : BitVec 32)
  | movRsp (dst : Reg)
  | push (src : Reg)
  | pop (dst : Reg)
  | call (f : Handler)

/-- The interrupt flag is bit 9 of RFLAGS. -/
def interruptFlag : BitVec 64 := 1 <<< 9

def exec (handlers : Handler → Cpu → Cpu) (c : Cpu) : Instr → Cpu
  | .cli => { c with rflags := c.rflags &&& ~~~interruptFlag }
  | .sti => { c with rflags := c.rflags ||| interruptFlag }
  | .movImm dst imm => { c with regs := Function.update c.regs dst (imm.signExtend 64) }
  | .movRsp dst => { c with regs := Function.update c.regs dst c.rsp }
  | .push src => { c with toStackMachine := c.toStackMachine.push (c.regs src) }
  | .pop dst => { c with toStackMachine := c.toStackMachine.pop dst }
  | .call f => handlers f c

def run (handlers : Handler → Cpu → Cpu) (code : List Instr) (c : Cpu) : Cpu :=
  code.foldl (exec handlers) c

theorem run_append (handlers : Handler → Cpu → Cpu) (code code' : List Instr) (c : Cpu) :
    run handlers (code ++ code') c = run handlers code' (run handlers code c) :=
  List.foldl_append

/-! ## The stubs -/

/-- `isr_common_stub` and `irq_common_stub`, up to the `call`. -/
def saveRegisters : List Instr :=
  [.push .rax, .push .rbx, .push .rcx, .push .rdx, .push .rsi, .push .rdi, .push .rbp,
    .push .r8, .push .r9, .push .r10, .push .r11, .push .r12, .push .r13, .push .r14,
    .push .r15, .movRsp .rsi]

/-- The common stubs after the `call`, up to `iretq`. -/
def restoreRegisters : List Instr :=
  [.pop .r15, .pop .r14, .pop .r13, .pop .r12, .pop .r11, .pop .r10, .pop .r9, .pop .r8,
    .pop .rbp, .pop .rdi, .pop .rsi, .pop .rdx, .pop .rcx, .pop .rbx, .pop .rax, .sti]

def commonStub (f : Handler) : List Instr :=
  saveRegisters ++ [.call f] ++ restoreRegisters

def isrCommonStub : List Instr := commonStub .isrHandler

def irqCommonStub : List Instr := commonStub .irqHandler

/-- The body of the macros before the `jmp`. -/
def loadVector (n : BitVec 32) : List Instr := [.cli, .movImm .rdi n]

def defIsrHandler (n : BitVec 32) : List Instr := loadVector n ++ isrCommonStub

def defIrqHandler (n : BitVec 32) : List Instr := loadVector (32 + n) ++ irqCommonStub

/-- The stubs of the file: `isr0` to `isr31` and `irq0` to `irq4`. -/
inductive Stub where
  | isr (n : Fin 32)
  | irq (n : Fin 5)
  deriving DecidableEq

namespace Stub

def code : Stub → List Instr
  | .isr n => defIsrHandler (BitVec.ofNat 32 n)
  | .irq n => defIrqHandler (BitVec.ofNat 32 n)

/-- The vector whose gate `isr_init` points at the stub. -/
def vector : Stub → Nat
  | .isr n => n
  | .irq n => 32 + n

def handler : Stub → Handler
  | .isr _ => .isrHandler
  | .irq _ => .irqHandler

theorem code_eq (stub : Stub) :
    stub.code = loadVector (BitVec.ofNat 32 stub.vector) ++ commonStub stub.handler := by
  cases stub with
  | isr n => rfl
  | irq n =>
    have hadd : (32 : BitVec 32) + BitVec.ofNat 32 n = BitVec.ofNat 32 (32 + n) := by
      rw [BitVec.ofNat_add]
      rfl
    rw [code, vector, ← hadd]
    rfl

end Stub

/-! ## Interruption -/

/-- The exceptions for which the processor pushes an error code. -/
def pushesErrorCode (vector : Nat) : Bool :=
  vector ∈ [8, 10, 11, 12, 13, 14, 17]

/-- The processor takes the interrupt: what it leaves before the first instruction of the
    stub, the target address aside. -/
def deliver (vector : Nat) (errorCode : BitVec 64) (c : Cpu) : Cpu :=
  let aligned : StackMachine Reg := { c.toStackMachine with rsp := c.rsp &&& ~~~15 }
  let frame := ((((aligned.push c.ss).push c.rsp).push c.rflags).push c.cs).push c.rip
  { c with
    toStackMachine := if pushesErrorCode vector then frame.push errorCode else frame
    rflags := c.rflags &&& ~~~interruptFlag }

/-- The state in which the C function is called. -/
def atCall (stub : Stub) (errorCode : BitVec 64) (handlers : Handler → Cpu → Cpu) (c : Cpu) :
    Cpu :=
  run handlers (loadVector (BitVec.ofNat 32 stub.vector) ++ saveRegisters)
    (deliver stub.vector errorCode c)

/-- The state in which the stub reaches `iretq`. -/
def atIretq (stub : Stub) (errorCode : BitVec 64) (handlers : Handler → Cpu → Cpu) (c : Cpu) :
    Cpu :=
  run handlers stub.code (deliver stub.vector errorCode c)

/-! ## What the stub restores -/

/-- The registers in the order in which they are pushed. -/
def savedRegs : List Reg :=
  [.rax, .rbx, .rcx, .rdx, .rsi, .rdi, .rbp, .r8, .r9, .r10, .r11, .r12, .r13, .r14, .r15]

theorem mem_savedRegs (r : Reg) : r ∈ savedRegs := by
  cases r <;> decide

theorem run_push (handlers : Handler → Cpu → Cpu) (rs : List Reg) (c : Cpu) :
    run handlers (rs.map .push) c = { c with toStackMachine := c.toStackMachine.pushAll rs } := by
  induction rs generalizing c with
  | nil => rfl
  | cons r rs ih => exact ih (exec handlers c (.push r))

theorem run_pop (handlers : Handler → Cpu → Cpu) (rs : List Reg) (c : Cpu) :
    run handlers (rs.map .pop) c = { c with toStackMachine := c.toStackMachine.popAll rs } := by
  induction rs generalizing c with
  | nil => rfl
  | cons r rs ih => exact ih (exec handlers c (.pop r))

theorem saveRegisters_eq : saveRegisters = savedRegs.map .push ++ [.movRsp .rsi] := rfl

theorem restoreRegisters_eq : restoreRegisters = savedRegs.reverse.map .pop ++ [.sti] := rfl

theorem deliver_regs (vector : Nat) (errorCode : BitVec 64) (c : Cpu) :
    (deliver vector errorCode c).regs = c.regs := by
  unfold deliver
  dsimp only
  split <;> rfl

theorem Stub.vector_lt (stub : Stub) : stub.vector < 37 := by
  cases stub with
  | isr n =>
    have := n.isLt
    simp only [vector]
    omega
  | irq n =>
    have := n.isLt
    simp only [vector]
    omega

theorem signExtend_vector : ∀ v < 37, (BitVec.ofNat 32 v).signExtend 64 = BitVec.ofNat 64 v := by
  decide

/-- The state after the macro body: rdi is loaded before it is saved. -/
theorem run_loadVector_stack (handlers : Handler → Cpu → Cpu) (stub : Stub) (c : Cpu) :
    (run handlers (loadVector (BitVec.ofNat 32 stub.vector)) c).toStackMachine =
      { c.toStackMachine with
        regs := Function.update c.regs .rdi (BitVec.ofNat 64 stub.vector) } := by
  rw [← signExtend_vector stub.vector stub.vector_lt]
  rfl

theorem atIretq_eq (stub : Stub) (errorCode : BitVec 64) (handlers : Handler → Cpu → Cpu)
    (c : Cpu) : atIretq stub errorCode handlers c =
      run handlers restoreRegisters
        (handlers stub.handler (atCall stub errorCode handlers c)) := by
  unfold atIretq atCall
  rw [Stub.code_eq, commonStub, ← List.append_assoc, ← List.append_assoc, run_append, run_append]
  rfl

/-- Saving leaves the pushed registers on the stack; `mov rsi, rsp` changes no word of it. -/
theorem run_saveRegisters (handlers : Handler → Cpu → Cpu) (c : Cpu) :
    (run handlers saveRegisters c).rsp = (c.toStackMachine.pushAll savedRegs).rsp ∧
      (run handlers saveRegisters c).mem = (c.toStackMachine.pushAll savedRegs).mem := by
  rw [saveRegisters_eq, run_append, run_push]
  exact ⟨rfl, rfl⟩

theorem run_restoreRegisters_regs (handlers : Handler → Cpu → Cpu) (c : Cpu) :
    (run handlers restoreRegisters c).regs =
      (c.toStackMachine.popAll savedRegs.reverse).regs := by
  rw [restoreRegisters_eq, run_append, run_pop]
  rfl

/-- The common stub restores the registers it was entered with. -/
theorem restoreRegisters_saveRegisters (handlers : Handler → Cpu → Cpu) (c c' : Cpu)
    (h : StackMachine.KeepsTop 15 (run handlers saveRegisters c).toStackMachine
      c'.toStackMachine) :
    (run handlers restoreRegisters c').regs = c.regs := by
  obtain ⟨hrsp, hmem⟩ := run_saveRegisters handlers c
  have hkeeps : StackMachine.KeepsTop savedRegs.length (c.toStackMachine.pushAll savedRegs)
      c'.toStackMachine := h.of_eq hrsp hmem
  rw [run_restoreRegisters_regs]
  funext r
  exact StackMachine.popAll_restores (by decide) (by decide) hkeeps (mem_savedRegs r)

/-- At `iretq` every register is restored but rdi, which holds the vector number. -/
theorem regs_at_iretq (stub : Stub) (errorCode : BitVec 64) (handlers : Handler → Cpu → Cpu)
    (c : Cpu)
    (h : StackMachine.KeepsTop 15 (atCall stub errorCode handlers c).toStackMachine
      (handlers stub.handler (atCall stub errorCode handlers c)).toStackMachine) :
    (atIretq stub errorCode handlers c).regs =
      Function.update c.regs .rdi (BitVec.ofNat 64 stub.vector) := by
  rw [atIretq_eq]
  unfold atCall at h ⊢
  rw [run_append] at h ⊢
  rw [restoreRegisters_saveRegisters handlers _ _ h, run_loadVector_stack, deliver_regs]

/-- If the C function keeps rsp and the 15 saved words, the registers at `iretq` are those of
    the interrupted code exactly if its rdi held the vector number. -/
theorem stub_transparent_iff (stub : Stub) (errorCode : BitVec 64)
    (handlers : Handler → Cpu → Cpu) (c : Cpu)
    (h : StackMachine.KeepsTop 15 (atCall stub errorCode handlers c).toStackMachine
      (handlers stub.handler (atCall stub errorCode handlers c)).toStackMachine) :
    (∀ r, (atIretq stub errorCode handlers c).regs r = c.regs r) ↔
      c.regs .rdi = BitVec.ofNat 64 stub.vector := by
  rw [regs_at_iretq stub errorCode handlers c h]
  constructor
  · intro hall
    rw [← hall .rdi, Function.update_self]
  · intro hrdi r
    rw [← hrdi, Function.update_eq_self]

/-- A processor with every register and every word zero. -/
def zeroCpu : Cpu where
  regs _ := 0
  rsp := 0x8000
  mem _ := 0
  rip := 0x100000
  cs := 8
  rflags := interruptFlag
  ss := 0

/-- A C function that returns at once with every register cleared. -/
def clearingHandlers (_ : Handler) (c : Cpu) : Cpu := { c with regs := fun _ => 0 }

/-- Every register holds another value, and rdi the vector of the keyboard. -/
def countingCpu : Cpu where
  regs
    | .rax => 1
    | .rbx => 2
    | .rcx => 3
    | .rdx => 4
    | .rsi => 5
    | .rdi => 33
    | .rbp => 7
    | .r8 => 8
    | .r9 => 9
    | .r10 => 10
    | .r11 => 11
    | .r12 => 12
    | .r13 => 13
    | .r14 => 14
    | .r15 => 15
  rsp := 0x8000
  mem _ := 0
  rip := 0x100000
  cs := 8
  rflags := interruptFlag
  ss := 0

theorem stub_transparent_iff_irq1 :
    (atIretq (.irq 1) 0 clearingHandlers countingCpu).regs = countingCpu.regs := by
  funext r
  exact (stub_transparent_iff (.irq 1) 0 clearingHandlers countingCpu ⟨rfl, fun _ _ => rfl⟩).mpr
    rfl r

/-- A timer interrupt (vector 32) of code with rdi = 0 returns with rdi = 32. -/
theorem irq0_clobbers_rdi :
    ¬ ∀ (stub : Stub) (errorCode : BitVec 64) (handlers : Handler → Cpu → Cpu) (c : Cpu),
      StackMachine.KeepsTop 15 (atCall stub errorCode handlers c).toStackMachine
        (handlers stub.handler (atCall stub errorCode handlers c)).toStackMachine →
      ∀ r, (atIretq stub errorCode handlers c).regs r = c.regs r := by
  intro h
  have hrdi := h (.irq 0) 0 clearingHandlers zeroCpu ⟨rfl, fun _ _ => rfl⟩ .rdi
  exact absurd hrdi (by decide)

end Utero.Core
