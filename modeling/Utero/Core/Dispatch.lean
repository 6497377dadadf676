/-
  From the vector of an interrupt to the registered handler: the gates `isr_init` sets, and
  `register_interrupt_handler` (`src/core/isr.c`).

  The linker places the stubs, so their addresses are a parameter with no assumption but that two
  stubs do not share one. `Idt.stub` is what the processor finds behind a vector: the gate is
  decoded from its bytes, and must be present.

  `isrInit_dispatch`: after `isr_init` on any table and any handler registrations, an interrupt with
  vector 0 to 36 ends in the C function of its kind, with the last handler registered for the
  vector and the interrupted state as its argument. Without a handler an exception panics with its
  own number and the interrupted state, and a device interrupt returns. The other gates are those
  of before; in the kernel's table, which starts as zeros, they are not present
  (`Idt.stub_isrInit`).
-/
import Utero.Lib.Search
import Utero.Core.Idt
import Utero.Core.InterruptFrame

namespace Utero.Core

open Utero.Lib

/-! ## Gates -/

/-- The stubs in the order in which `isr_init` sets their gates. -/
def allStubs : List Stub :=
  (List.finRange 32).map .isr ++ (List.finRange 5).map .irq

theorem mem_allStubs (stub : Stub) : stub ∈ allStubs := by
  cases stub with
  | isr n => exact List.mem_append_left _ (List.mem_map_of_mem (List.mem_finRange n))
  | irq n => exact List.mem_append_right _ (List.mem_map_of_mem (List.mem_finRange n))

/-- The number of the gate for the stub. -/
def Stub.gate (stub : Stub) : Fin idtEntries :=
  ⟨stub.vector, Nat.lt_trans stub.vector_lt (by decide)⟩

theorem Stub.gate_injective : Function.Injective Stub.gate := by
  intro stub stub' h
  have hvector : stub.vector = stub'.vector := congrArg Fin.val h
  cases stub <;> cases stub' <;> simp only [Stub.vector] at hvector <;>
    grind

/-- The calls of `set_idt_gate` in `isr_init`. -/
def isrInitGates (addr : Stub → BitVec 64) : List (Fin idtEntries × BitVec 64) :=
  allStubs.map fun stub => (stub.gate, addr stub)

/-- The stub behind a vector, if its gate is present. -/
def Idt.stub (addr : Stub → BitVec 64) (idt : Idt) (vector : Fin idtEntries) : Option Stub :=
  let gate := decodeGate (idt vector).byte
  if gate.present = 1 then allStubs.find? fun stub => addr stub = gate.offset else none

section Gates

variable {addr : Stub → BitVec 64} (idt : Idt)

theorem lastHandler_isrInitGates (stub : Stub) :
    lastHandler (isrInitGates addr) stub.gate = some (addr stub) := by
  have hfound : allStubs.reverse.find? (fun s => decide (s.gate = stub.gate)) = some stub :=
    find?_eq_some_of_unique (List.mem_reverse.mpr (mem_allStubs stub)) (decide_eq_true rfl)
      fun s hs => Stub.gate_injective (of_decide_eq_true hs)
  unfold lastHandler isrInitGates
  rw [← List.map_reverse, List.find?_map, Function.comp_def, hfound]
  rfl

theorem lastHandler_isrInitGates_none {n : Fin idtEntries} (hn : 37 ≤ n.val) :
    lastHandler (isrInitGates addr) n = none := by
  unfold lastHandler isrInitGates
  rw [Option.map_eq_none_iff, List.find?_eq_none]
  intro call hcall
  obtain ⟨stub, -, rfl⟩ := List.mem_map.mp (List.mem_reverse.mp hcall)
  have hlt := stub.vector_lt
  simp only [decide_eq_true_eq]
  intro h
  have hval : stub.vector = n.val := congrArg Fin.val h
  omega

/-- Gates 0 to 36, whatever they were. -/
theorem gate_isrInit (stub : Stub) :
    decodeGate (setIdtGates idt (isrInitGates addr) stub.gate).byte =
      handlerGate trapGate (addr stub) := by
  have hset := gateIsSet_trapGate idt (isrInitGates addr) stub.gate
  unfold GateIsSet at hset
  rw [lastHandler_isrInitGates] at hset
  exact hset

theorem gate_isrInit_other {n : Fin idtEntries} (hn : 37 ≤ n.val) :
    setIdtGates idt (isrInitGates addr) n = idt n := by
  have hset := gateIsSet_trapGate idt (isrInitGates addr) n
  unfold GateIsSet at hset
  rw [lastHandler_isrInitGates_none hn] at hset
  exact hset

theorem Idt.stub_gate (haddr : Function.Injective addr) (stub : Stub) :
    Idt.stub addr (setIdtGates idt (isrInitGates addr)) stub.gate = some stub := by
  unfold Idt.stub
  rw [gate_isrInit]
  exact find?_eq_some_of_unique (mem_allStubs stub) (decide_eq_true rfl)
    fun s hs => haddr (of_decide_eq_true hs)

/-- The kernel's table after `isr_init`: 37 gates, and no other. -/
theorem Idt.stub_isrInit (haddr : Function.Injective addr) (n : Fin idtEntries) (stub : Stub) :
    Idt.stub addr (setIdtGates zeroIdt (isrInitGates addr)) n = some stub ↔ n = stub.gate := by
  constructor
  · intro h
    by_cases hn : n.val < 37
    · obtain ⟨stub', rfl⟩ : ∃ stub' : Stub, n = stub'.gate := by
        by_cases hisr : n.val < 32
        · exact ⟨.isr ⟨n.val, hisr⟩, rfl⟩
        · refine ⟨.irq ⟨n.val - 32, by omega⟩, Fin.ext ?_⟩
          simp only [Stub.gate, Stub.vector]
          omega
      rw [Idt.stub_gate zeroIdt haddr] at h
      rw [Option.some.inj h]
    · unfold Idt.stub at h
      rw [gate_isrInit_other zeroIdt (Nat.le_of_not_lt hn), decodeGate_byte] at h
      exact absurd h (by simp [zeroIdt])
  · rintro rfl
    exact Idt.stub_gate zeroIdt haddr stub

end Gates

/-! ## Handlers -/

def registerInterruptHandler (table : InterruptHandlers) (id : BitVec 64) (handler : IsrT) :
    InterruptHandlers :=
  Function.update table id (some handler)

/-- A sequence of calls. -/
def registerAll (table : InterruptHandlers) (calls : List (BitVec 64 × IsrT)) :
    InterruptHandlers :=
  calls.foldl (fun table call => registerInterruptHandler table call.1 call.2) table

/-- The handler of the last call for `id`. -/
def lastRegistered (calls : List (BitVec 64 × IsrT)) (id : BitVec 64) : Option IsrT :=
  (calls.reverse.find? fun call => call.1 = id).map Prod.snd

theorem registerAll_apply (table : InterruptHandlers) (calls : List (BitVec 64 × IsrT))
    (id : BitVec 64) : registerAll table calls id = (lastRegistered calls id).or (table id) := by
  induction calls using List.reverseRec with
  | nil => rfl
  | append_singleton calls call ih =>
    unfold registerAll lastRegistered registerInterruptHandler at *
    rw [List.foldl_append, List.reverse_append, List.reverse_singleton, List.singleton_append,
      List.find?_cons]
    by_cases hid : call.1 = id
    · rw [decide_eq_true hid, List.foldl_cons, List.foldl_nil, hid, Function.update_self]
      rfl
    · rw [decide_eq_false hid, List.foldl_cons, List.foldl_nil,
        Function.update_of_ne (Ne.symm hid), ih]

/-- The table after `isr_init`, in which the kernel starts with null pointers. -/
def isrInitTable (breakpointHandler : IsrT) : InterruptHandlers :=
  registerInterruptHandler (fun _ => none) 3 breakpointHandler

/-- The ports written for an interrupt: exceptions do not come through the controllers. -/
def Stub.ports (stub : Stub) : List PortWrite :=
  match stub.handler with
  | .isrHandler => []
  | .irqHandler => endOfInterrupt (BitVec.ofNat 64 stub.vector)

/-- How the C function for an interrupt should end: the handler is called with the interrupted
    state, or the exception is reported with it. -/
def Reports (stub : Stub) (handler : Option IsrT) (c entry : Cpu) (result : CallResult) : Prop :=
  match handler, stub.handler with
  | some handler, _ => ∃ p, readStack entry.mem p = interrupted c ∧
      result = .returns stub.ports (handler p entry)
  | none, .isrHandler => result = .panic (BitVec.ofNat 64 stub.vector) (interrupted c)
  | none, .irqHandler => result = .returns stub.ports entry

section Handlers

variable (stub : Stub) (errorCode : BitVec 64) (table : InterruptHandlers) (c : Cpu)

theorem readStack_atCall (handlers : Handler → Cpu → Cpu) :
    readStack (atCall stub errorCode handlers c).mem (framePtr c) = interrupted c :=
  readStack_framePtr stub errorCode c fun i _ => by
    rw [(atCall_stack stub errorCode handlers c).2]

/-- One call of the C function, for every table. -/
theorem cFunction_reports (handlers : Handler → Cpu → Cpu) :
    Reports stub (table (BitVec.ofNat 64 stub.vector)) c (atCall stub errorCode handlers c)
      (cFunction table stub.handler (atCall stub errorCode handlers c)) := by
  have hptr := getStack_atCall stub errorCode handlers c
  have hrdi := (atCall_args stub errorCode handlers c).1
  have hframe := readStack_atCall stub errorCode c handlers
  unfold Reports Stub.ports
  cases hkind : stub.handler with
  | isrHandler =>
    simp only [cFunction, isrHandler]
    rw [hptr, hrdi]
    cases hreg : table (BitVec.ofNat 64 stub.vector) with
    | some handler => exact ⟨framePtr c, hframe, rfl⟩
    | none => rw [hframe]
  | irqHandler =>
    simp only [cFunction, irqHandler]
    rw [hptr, hrdi]
    cases hreg : table (BitVec.ofNat 64 stub.vector) with
    | some handler => exact ⟨framePtr c, hframe, rfl⟩
    | none => rfl

/-- The way from the vector to the handler, after `isr_init` and any registrations. -/
theorem isrInit_dispatch {addr : Stub → BitVec 64} (haddr : Function.Injective addr) (idt : Idt)
    (breakpointHandler : IsrT) (calls : List (BitVec 64 × IsrT)) :
    let idt' := setIdtGates idt (isrInitGates addr)
    let table := registerAll (isrInitTable breakpointHandler) calls
    let entry := atCall stub errorCode (handlersOf table) c
    Idt.stub addr idt' stub.gate = some stub ∧
      (∀ n, 37 ≤ n.val → idt' n = idt n) ∧
      Reports stub ((lastRegistered calls (BitVec.ofNat 64 stub.vector)).or
          (if stub = .isr 3 then some breakpointHandler else none)) c entry
        (cFunction table stub.handler entry) := by
  refine ⟨Idt.stub_gate idt haddr stub, fun n hn => gate_isrInit_other idt hn, ?_⟩
  have hreports := cFunction_reports stub errorCode
    (registerAll (isrInitTable breakpointHandler) calls) c
    (handlersOf (registerAll (isrInitTable breakpointHandler) calls))
  have hinit : isrInitTable breakpointHandler (BitVec.ofNat 64 stub.vector) =
      if stub = .isr 3 then some breakpointHandler else none := by
    unfold isrInitTable registerInterruptHandler
    by_cases hstub : stub = .isr 3
    · rw [if_pos hstub, hstub]
      rfl
    · have hvector : BitVec.ofNat 64 stub.vector ≠ 3 := by
        intro h
        have hval := congrArg BitVec.toNat h
        rw [BitVec.toNat_ofNat, Nat.mod_eq_of_lt (by have := stub.vector_lt; omega)] at hval
        exact hstub (Stub.gate_injective (Fin.ext hval))
      rw [if_neg hstub, Function.update_of_ne hvector]
  rwa [registerAll_apply, hinit] at hreports

end Handlers

/-- Stubs one after the other, sixteen bytes each. -/
def sampleAddr (stub : Stub) : BitVec 64 := BitVec.ofNat 64 (0x100000 + 16 * stub.vector)

theorem sampleAddr_injective : Function.Injective sampleAddr := by
  intro stub stub' h
  have hlt := stub.vector_lt
  have hlt' := stub'.vector_lt
  have hval := congrArg BitVec.toNat h
  unfold sampleAddr at hval
  rw [BitVec.toNat_ofNat, BitVec.toNat_ofNat, Nat.mod_eq_of_lt (by omega),
    Nat.mod_eq_of_lt (by omega)] at hval
  exact Stub.gate_injective (Fin.ext (by simp only [Stub.gate]; omega))

/-- A page fault without a handler: its number and the interrupted state are reported. -/
theorem isrInit_dispatch_isr14 :
    Function.Injective sampleAddr ∧
      cFunction (isrInitTable fun _ c => c) (Stub.isr 14).handler
          (atCall (.isr 14) 2 (handlersOf (isrInitTable fun _ c => c)) zeroCpu) =
        .panic 14 (interrupted zeroCpu) :=
  ⟨sampleAddr_injective,
    (isrInit_dispatch (.isr 14) 2 zeroCpu sampleAddr_injective zeroIdt (fun _ c => c) []).2.2⟩

end Utero.Core
