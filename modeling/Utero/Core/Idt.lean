/-
  The interrupt descriptor table: `set_idt_gate` of `src/core/idt.c`.

  `idt_gate_t` is a packed structure, so its fields fill 128 bits from the lowest on, the
  bit-fields of `opts_t` included (`IdtGate.bits`). The processor reads the sixteen bytes by its
  own layout (`decodeGate`); `decodeGate_byte` says which fields of the structure it finds in
  which part of a gate descriptor. The type of the gate is `ONES` over `gate_type`: with the
  values of `set_idt_gate`, 7 and 1, it is 0xF, a trap gate, and not 0xE, an interrupt gate.

  `idt_gates`: after any sequence of calls, every gate that was set decodes to a present trap gate
  with the last handler set for it and otherwise as intended, and the other gates are as before. So
  the gates are interrupt gates only if no gate was set at all.
-/
import Mathlib.Data.List.Basic
import Mathlib.Data.List.Induction

namespace Utero.Core

/-! ## Gates in memory -/

/-- `opts_t` -/
structure Opts where
  stackOK : BitVec 3
  zeros : BitVec 5
  gateType : BitVec 1
  ones : BitVec 3
  zero : BitVec 1
  dpl : BitVec 2
  present : BitVec 1
  deriving DecidableEq

/-- `idt_gate_t` -/
structure IdtGate where
  ptrLow : BitVec 16
  selector : BitVec 16
  opts : Opts
  ptrMid : BitVec 16
  ptrHigh : BitVec 32
  reserved1 : BitVec 8
  type : BitVec 5
  reserved2 : BitVec 19
  deriving DecidableEq

def Opts.bits (o : Opts) : BitVec 16 :=
  o.present ++ o.dpl ++ o.zero ++ o.ones ++ o.gateType ++ o.zeros ++ o.stackOK

namespace IdtGate

def bits (g : IdtGate) : BitVec 128 :=
  g.reserved2 ++ g.type ++ g.reserved1 ++ g.ptrHigh ++ g.ptrMid ++ g.opts.bits ++ g.selector ++
    g.ptrLow

/-- The bytes of the gate in memory. -/
def byte (g : IdtGate) (k : Nat) : BitVec 8 := g.bits.extractLsb' (8 * k) 8

end IdtGate

def idtEntries : Nat := 256

abbrev Idt := Fin idtEntries → IdtGate

/-- What `set_idt_gate` makes of a gate; every field is assigned. -/
def setGate (g : IdtGate) (handler : BitVec 64) : IdtGate :=
  let g := { g with selector := 0x08 }
  let g := { g with ptrLow := handler.setWidth 16 }
  let g := { g with ptrMid := (handler >>> 16).setWidth 16 }
  let g := { g with ptrHigh := (handler >>> 32).setWidth 32 }
  let g := { g with opts.stackOK := 0 }
  let g := { g with opts.present := 1 }
  let g := { g with opts.dpl := 3 }
  let g := { g with opts.gateType := 0x01 }
  let g := { g with opts.ones := 0x07 }
  let g := { g with opts.zero := 0 }
  let g := { g with opts.zeros := 0 }
  let g := { g with reserved1 := 0 }
  let g := { g with reserved2 := 0 }
  { g with type := 0 }

def setIdtGate (idt : Idt) (n : Fin idtEntries) (handler : BitVec 64) : Idt :=
  Function.update idt n (setGate (idt n) handler)

/-- A sequence of calls. -/
def setIdtGates (idt : Idt) (calls : List (Fin idtEntries × BitVec 64)) : Idt :=
  calls.foldl (fun idt call => setIdtGate idt call.1 call.2) idt

/-! ## Gate descriptors -/

/-- A gate descriptor of the AMD64 architecture. -/
structure GateDescriptor where
  offset : BitVec 64
  selector : BitVec 16
  ist : BitVec 3
  type : BitVec 4
  dpl : BitVec 2
  present : BitVec 1
  /-- The bits that have to be zero: 3 to 7 of byte 4, 4 of byte 5, and the bytes 12 to 15. -/
  reserved : BitVec 38
  deriving DecidableEq

def decodeGate (byte : Nat → BitVec 8) : GateDescriptor where
  offset := byte 11 ++ byte 10 ++ byte 9 ++ byte 8 ++ byte 7 ++ byte 6 ++ byte 1 ++ byte 0
  selector := byte 3 ++ byte 2
  ist := (byte 4).extractLsb' 0 3
  type := (byte 5).extractLsb' 0 4
  dpl := (byte 5).extractLsb' 5 2
  present := (byte 5).extractLsb' 7 1
  reserved := byte 15 ++ byte 14 ++ byte 13 ++ byte 12 ++ (byte 5).extractLsb' 4 1 ++
    (byte 4).extractLsb' 3 5

/-- Type 0xE in 64-bit mode. -/
def interruptGate : BitVec 4 := 0xE

/-- Type 0xF in 64-bit mode: the interrupt flag stays as it is. -/
def trapGate : BitVec 4 := 0xF

/-- A present gate of the kernel's code segment that every privilege level may call. -/
def handlerGate (type : BitVec 4) (handler : BitVec 64) : GateDescriptor where
  offset := handler
  selector := 0x08
  ist := 0
  type := type
  dpl := 3
  present := 1
  reserved := 0

/-- Where the processor finds the fields of `idt_gate_t`. -/
theorem decodeGate_byte (g : IdtGate) :
    decodeGate g.byte =
      { offset := g.ptrHigh ++ g.ptrMid ++ g.ptrLow
        selector := g.selector
        ist := g.opts.stackOK
        type := g.opts.ones ++ g.opts.gateType
        dpl := g.opts.dpl
        present := g.opts.present
        reserved := g.reserved2 ++ g.type ++ g.reserved1 ++ g.opts.zero ++ g.opts.zeros } := by
  unfold decodeGate IdtGate.byte IdtGate.bits Opts.bits
  rw [GateDescriptor.mk.injEq]
  refine ⟨?_, ?_, ?_, ?_, ?_, ?_, ?_⟩
  -- every field of the descriptor bit by bit
  all_goals
    apply BitVec.eq_of_getLsbD_eq
    intro k hk
    simp only [BitVec.getLsbD_append, BitVec.getLsbD_extractLsb']
    grind

theorem offset_setGate (handler : BitVec 64) :
    (handler >>> 32).setWidth 32 ++ (handler >>> 16).setWidth 16 ++ handler.setWidth 16 =
      handler := by
  apply BitVec.eq_of_getLsbD_eq
  intro k hk
  simp only [BitVec.getLsbD_append, BitVec.getLsbD_setWidth, BitVec.getLsbD_ushiftRight]
  grind

/-- One call: whatever the gate was, it is a trap gate. -/
theorem decodeGate_setGate (g : IdtGate) (handler : BitVec 64) :
    decodeGate (setGate g handler).byte = handlerGate trapGate handler := by
  rw [decodeGate_byte]
  show GateDescriptor.mk ((handler >>> 32).setWidth 32 ++ (handler >>> 16).setWidth 16 ++
    handler.setWidth 16) 0x08 0 ((0x07 : BitVec 3) ++ (0x01 : BitVec 1)) 3 1
      ((0 : BitVec 19) ++ (0 : BitVec 5) ++ (0 : BitVec 8) ++ (0 : BitVec 1) ++ (0 : BitVec 5)) = _
  rw [offset_setGate]
  rfl

/-! ## Sequences of calls -/

/-- The handler of the last call for gate `n`. -/
def lastHandler (calls : List (Fin idtEntries × BitVec 64)) (n : Fin idtEntries) :
    Option (BitVec 64) :=
  (calls.reverse.find? fun call => call.1 = n).map Prod.snd

theorem lastHandler_concat (calls : List (Fin idtEntries × BitVec 64))
    (call : Fin idtEntries × BitVec 64) (n : Fin idtEntries) :
    lastHandler (calls ++ [call]) n =
      if call.1 = n then some call.2 else lastHandler calls n := by
  unfold lastHandler
  rw [List.reverse_append, List.reverse_singleton, List.singleton_append, List.find?_cons]
  by_cases hn : call.1 = n
  · rw [if_pos hn, decide_eq_true hn]
    rfl
  · rw [if_neg hn, decide_eq_false hn]

theorem setIdtGates_concat (idt : Idt) (calls : List (Fin idtEntries × BitVec 64))
    (call : Fin idtEntries × BitVec 64) :
    setIdtGates idt (calls ++ [call]) = setIdtGate (setIdtGates idt calls) call.1 call.2 := by
  unfold setIdtGates
  rw [List.foldl_append]
  rfl

/-- Gate `n` decodes to the last handler set for it, in a gate of the type given, or was never
    set and is as it was. -/
def GateIsSet (type : BitVec 4) (idt : Idt) (calls : List (Fin idtEntries × BitVec 64))
    (n : Fin idtEntries) : Prop :=
  match lastHandler calls n with
  | some handler => decodeGate (setIdtGates idt calls n).byte = handlerGate type handler
  | none => setIdtGates idt calls n = idt n

theorem gateIsSet_concat {idt : Idt} {calls : List (Fin idtEntries × BitVec 64)}
    {n : Fin idtEntries} (h : GateIsSet trapGate idt calls n)
    (call : Fin idtEntries × BitVec 64) : GateIsSet trapGate idt (calls ++ [call]) n := by
  unfold GateIsSet at h ⊢
  rw [lastHandler_concat, setIdtGates_concat, setIdtGate]
  by_cases hn : call.1 = n
  · rw [if_pos hn, hn, Function.update_self]
    exact decodeGate_setGate _ _
  · rw [if_neg hn, Function.update_of_ne (Ne.symm hn)]
    exact h

theorem gateIsSet_trapGate (idt : Idt) (calls : List (Fin idtEntries × BitVec 64))
    (n : Fin idtEntries) : GateIsSet trapGate idt calls n := by
  induction calls using List.reverseRec with
  | nil => rfl
  | append_singleton calls call ih => exact gateIsSet_concat ih call

/-- The gate of the last call is no interrupt gate. -/
theorem not_gateIsSet_interruptGate (idt : Idt) (calls : List (Fin idtEntries × BitVec 64))
    (call : Fin idtEntries × BitVec 64) :
    ¬ GateIsSet interruptGate idt (calls ++ [call]) call.1 := by
  intro hset
  have htrap := gateIsSet_trapGate idt (calls ++ [call]) call.1
  unfold GateIsSet at hset htrap
  rw [lastHandler_concat, if_pos rfl] at hset htrap
  have htype : interruptGate = trapGate := congrArg GateDescriptor.type (hset.symm.trans htrap)
  exact absurd htype (by decide)

/-- After any sequence of calls every gate that was set is a trap gate with the last handler, and
    the others are unchanged. They are interrupt gates exactly if there was no call. -/
theorem idt_gates (idt : Idt) (calls : List (Fin idtEntries × BitVec 64)) :
    (∀ n, GateIsSet trapGate idt calls n) ∧
      ((∀ n, GateIsSet interruptGate idt calls n) ↔ calls = []) := by
  refine ⟨gateIsSet_trapGate idt calls, ?_⟩
  constructor
  · intro h
    by_contra hne
    obtain ⟨calls, call, rfl⟩ := (List.eq_nil_or_concat' calls).resolve_left hne
    exact not_gateIsSet_interruptGate idt calls call (h call.1)
  · rintro rfl n
    rfl

/-- The table before the first call. -/
def zeroIdt : Idt := fun _ => ⟨0, 0, ⟨0, 0, 0, 0, 0, 0, 0⟩, 0, 0, 0, 0, 0⟩

/-- EXCEPTION_BP -/
def exceptionBp : Fin idtEntries := ⟨3, by decide⟩

/-- The breakpoint gate is a trap gate. -/
theorem idt_breakpoint :
    GateIsSet trapGate zeroIdt [(exceptionBp, 0x100000)] exceptionBp ∧
      ¬ ∀ n, GateIsSet interruptGate zeroIdt [(exceptionBp, 0x100000)] n :=
  ⟨gateIsSet_trapGate _ _ _, fun h =>
    not_gateIsSet_interruptGate zeroIdt [] (exceptionBp, 0x100000) (h exceptionBp)⟩

end Utero.Core
