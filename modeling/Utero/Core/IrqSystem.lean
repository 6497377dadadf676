/-
  Device interrupts as a system: the two controllers, the processor's interrupt flag, the stubs on
  the stack and the tick counter, step by step and in any order.

  A device may raise or lower its line at any time. The processor takes an interrupt between any
  two steps of the running code while its interrupt flag is set. The gates of `set_idt_gate` are
  trap gates, so a stub starts with the flag as it was and clears it with its first instruction;
  until then it can be interrupted itself. `sti` takes effect after the instruction that follows
  it, which is the stub's `iretq`, so the two are one step here. `tick++` is a load and a store.
  The C code between the steps listed touches neither the flag, nor the controllers, nor the
  counter.

  `irqSystem_consistent`: whatever the controllers did before `isr_init`, in every state of every
  run the master holds in service exactly the lines whose stub has not sent its end of interrupt,
  so each end of interrupt ends the interrupt it is meant for. At most four stubs are on the stack.
-/
import Mathlib.Data.Fintype.Card
import Utero.Lib.Run
import Utero.Core.Dispatch
import Utero.Core.Pic

namespace Utero.Core

open Utero.Lib

/-! ## The system -/

/-- A step of a registered handler, as the rest of the system sees it. -/
inductive HandlerOp where
  | loadTick
  | storeTick
  | other
  deriving DecidableEq

/-- `timer_callback`: `tick++`. -/
def timerCallback : List HandlerOp := [.loadTick, .storeTick]

inductive IrqOp where
  | cli
  | portByteOut (w : PortWrite)
  | handler (op : HandlerOp)
  | panic
  | stiIretq
  deriving DecidableEq

/-- `interrupt_handlers` -/
abbrev HandlerTable := BitVec 64 → Option (List HandlerOp)

/-- What the C function of the stub does after the port writes. -/
def Stub.body (stub : Stub) (handlers : HandlerTable) : List IrqOp :=
  match handlers (BitVec.ofNat 64 stub.vector), stub.handler with
  | some ops, _ => ops.map .handler
  | none, .isrHandler => [.panic]
  | none, .irqHandler => []

/-- The steps of a stub from its first instruction on. -/
def Stub.ops (stub : Stub) (handlers : HandlerTable) : List IrqOp :=
  .cli :: stub.ports.map .portByteOut ++ stub.body handlers ++ [.stiIretq]

/-- A stub on the stack: what it has still to do, and the register it keeps `tick` in. -/
structure Frame where
  stub : Stub
  todo : List IrqOp
  loaded : BitVec 32

structure IrqSystem where
  pics : Pics
  handlers : HandlerTable
  interruptFlag : Bool
  /-- The running stub first; none if the interrupted program runs. -/
  frames : List Frame
  tick : BitVec 32
  halted : Bool

inductive IrqEvent where
  | raise (line : Fin 8 ⊕ Fin 8)
  | withdraw (line : Fin 8 ⊕ Fin 8)
  | cascade
  /-- The processor takes an interrupt and gets this vector. -/
  | take (vector : BitVec 8)
  /-- The running stub goes on. -/
  | run
  /-- The program calls `irq_init`, `irq_disable` or `register_interrupt_handler`. -/
  | irqInit
  | irqDisable
  | register (id : BitVec 64) (ops : List HandlerOp)
  deriving DecidableEq

/-- The table the kernel works with. -/
def kernelIdt (addr : Stub → BitVec 64) : Idt := setIdtGates zeroIdt (isrInitGates addr)

namespace IrqSystem

/-- Through a gate that is not present the processor gets to the gate of that fault. No handler
    is registered for it, and `isr_handler` panics. -/
def enter (addr : Stub → BitVec 64) (s : IrqSystem) (vector : BitVec 8) : IrqSystem :=
  let n : Fin idtEntries := ⟨vector.toNat, vector.isLt⟩
  match Idt.stub addr (kernelIdt addr) n with
  | none => { s with halted := true }
  | some stub =>
    { s with
      frames := ⟨stub, stub.ops s.handlers, 0⟩ :: s.frames
      interruptFlag :=
        if (decodeGate (kernelIdt addr n).byte).type = interruptGate then false
        else s.interruptFlag }

/-- The running stub `f` does `op`; `fs` are the stubs below it. -/
def execute (s : IrqSystem) (f : Frame) (fs : List Frame) : IrqOp → IrqSystem
  | .cli => { s with frames := f :: fs, interruptFlag := false }
  | .portByteOut w => { s with frames := f :: fs, pics := s.pics.portByteOut w }
  | .handler .loadTick => { s with frames := { f with loaded := s.tick } :: fs }
  | .handler .storeTick => { s with frames := f :: fs, tick := f.loaded + 1 }
  | .handler .other => { s with frames := f :: fs }
  | .panic => { s with halted := true }
  -- the interrupted code had the flag set
  | .stiIretq => { s with frames := fs, interruptFlag := true }

def step (addr : Stub → BitVec 64) (s : IrqSystem) (e : IrqEvent) : Option IrqSystem :=
  if s.halted then none else
  match e, s.frames with
  | .raise line, _ => some { s with pics := s.pics.raise line }
  | .withdraw line, _ => some { s with pics := s.pics.withdraw line }
  | .cascade, _ => some { s with pics := s.pics.cascade }
  | .take vector, _ =>
    if s.interruptFlag then
      match s.pics.acknowledge with
      | some (v, pics) => if v = vector then some ({ s with pics := pics }.enter addr v) else none
      | none => none
    else none
  | .run, ⟨stub, op :: todo, loaded⟩ :: fs => some (s.execute ⟨stub, todo, loaded⟩ fs op)
  | .irqInit, [] => some { s with interruptFlag := true }
  | .irqDisable, [] => some { s with interruptFlag := false }
  | .register id ops, [] => some { s with handlers := Function.update s.handlers id (some ops) }
  | _, _ => none

/-- The system after `isr_init`, in any state of the controllers before it. -/
def afterIsrInit (pics : Pics) (handlers : HandlerTable) : IrqSystem where
  pics := isrInitPorts.foldl Pics.portByteOut pics
  handlers := handlers
  interruptFlag := false
  frames := []
  tick := 0
  halted := false

end IrqSystem

/-! ## Stubs on the stack -/

/-- The end of interrupt for the master. -/
def masterEoi : IrqOp := .portByteOut ⟨pic1, picEoi⟩

/-- The master's line of a stub. -/
def Stub.line : Stub → Fin 8
  | .isr _ => Fin.last 7
  | .irq n => n.castLE (by decide)

theorem line_irq_served :
    ∀ n : Fin 5, (Stub.irq n).line ≠ cascadeLine → (Stub.irq n).line ∈ servedLines := by
  decide

namespace Frame

def line (f : Frame) : Fin 8 := f.stub.line

/-- Not started. -/
def Fresh (f : Frame) : Prop :=
  ∃ ops : List HandlerOp, f.todo = .cli :: masterEoi :: ops.map .handler ++ [.stiIretq]

/-- About to send its end of interrupt. -/
def Acknowledging (f : Frame) : Prop :=
  ∃ ops : List HandlerOp, f.todo = masterEoi :: ops.map .handler ++ [.stiIretq]

def Handling (f : Frame) : Prop :=
  ∃ ops : List HandlerOp, f.todo = ops.map .handler ++ [.stiIretq]

/-- The end of interrupt is not sent yet. -/
def owes (f : Frame) : Bool := masterEoi ∈ f.todo

variable {f : Frame}

theorem Fresh.owes (h : f.Fresh) : f.owes = true := by
  obtain ⟨ops, h⟩ := h
  unfold Frame.owes
  rw [h]
  simp

theorem Acknowledging.owes (h : f.Acknowledging) : f.owes = true := by
  obtain ⟨ops, h⟩ := h
  unfold Frame.owes
  rw [h]
  simp

theorem Handling.owes (h : f.Handling) : f.owes = false := by
  obtain ⟨ops, h⟩ := h
  unfold Frame.owes
  rw [h]
  simp [masterEoi]

end Frame

theorem ports_irq (n : Fin 5) : (Stub.irq n).ports = [⟨pic1, picEoi⟩] := by
  revert n
  decide

/-- A stub for a device interrupt, before its first instruction. -/
theorem fresh_irq (n : Fin 5) (handlers : HandlerTable) :
    Frame.Fresh ⟨.irq n, (Stub.irq n).ops handlers, 0⟩ := by
  unfold Frame.Fresh Stub.ops Stub.body
  rw [ports_irq]
  cases handlers (BitVec.ofNat 64 (Stub.irq n).vector) with
  | some ops => exact ⟨ops, rfl⟩
  | none => exact ⟨[], rfl⟩

namespace IrqSystem

variable {addr : Stub → BitVec 64}

/-- A vector behind which there is a stub. -/
theorem enter_irq (haddr : Function.Injective addr) (s : IrqSystem) {vector : BitVec 8}
    (n : Fin 5) (hn : vector.toNat = 32 + n.val) :
    s.enter addr vector =
      { s with frames := ⟨.irq n, (Stub.irq n).ops s.handlers, 0⟩ :: s.frames } := by
  have hgate : (⟨vector.toNat, vector.isLt⟩ : Fin idtEntries) = (Stub.irq n).gate := Fin.ext hn
  have htype : (decodeGate (kernelIdt addr (Stub.irq n).gate).byte).type = trapGate := by
    unfold kernelIdt
    rw [gate_isrInit]
    rfl
  have hstub : Idt.stub addr (kernelIdt addr) (Stub.irq n).gate = some (.irq n) :=
    Idt.stub_gate zeroIdt haddr _
  unfold enter
  dsimp only
  rw [hgate, hstub, htype]
  rfl

theorem enter_none (haddr : Function.Injective addr) (s : IrqSystem) {vector : BitVec 8}
    (hv : 37 ≤ vector.toNat) : s.enter addr vector = { s with halted := true } := by
  have hstub : Idt.stub addr (kernelIdt addr) ⟨vector.toNat, vector.isLt⟩ = none := by
    rw [Option.eq_none_iff_forall_ne_some]
    intro stub h
    have hval : vector.toNat = stub.vector :=
      congrArg Fin.val ((Idt.stub_isrInit haddr _ stub).mp h)
    have := stub.vector_lt
    omega
  unfold enter
  dsimp only
  rw [hstub]

/-! ## The invariant -/

/-- The lines whose end of interrupt is not sent yet, that of the running stub first. -/
def owing (s : IrqSystem) : List (Fin 8) := (s.frames.filter Frame.owes).map Frame.line

/-- The stub that runs has its flag cleared, or has not started. -/
def Running (flag : Bool) (f : Frame) : Prop :=
  (f.Fresh ∧ flag = true) ∨ ((f.Acknowledging ∨ f.Handling) ∧ flag = false)

structure Consistent (s : IrqSystem) : Prop where
  programmed : Programmed s.pics
  slaveIdle : s.pics.slave.isr = ∅
  served : ∀ f ∈ s.frames, f.line ∈ servedLines
  nested : (s.frames.map Frame.line).Pairwise (· < ·)
  below : ∀ f ∈ s.frames.tail, f.Fresh
  running : ∀ f ∈ s.frames.head?, Running s.interruptFlag f
  inService : s.pics.master.isr = s.owing.toFinset

theorem owing_fresh {s : IrqSystem} (h : ∀ f ∈ s.frames, f.Fresh) :
    s.owing = s.frames.map Frame.line := by
  unfold owing
  rw [List.filter_eq_self.mpr fun f hf => (h f hf).owes]

/-- The controllers differ in their requests only. -/
def SameService (pics pics' : Pics) : Prop :=
  pics'.master.toPicMode = pics.master.toPicMode ∧ pics'.slave.toPicMode = pics.slave.toPicMode ∧
    pics'.master.isr = pics.master.isr ∧ pics'.slave.isr = pics.slave.isr

/-- What a step can be: a device's, the processor's, the running stub's or the program's. -/
theorem step_cases {s s' : IrqSystem} {e : IrqEvent} (h : s.step addr e = some s') :
    s.halted = false ∧
      ((∃ pics, SameService s.pics pics ∧ s' = { s with pics := pics } ∧
          e ∉ [.run, .irqInit, .irqDisable] ∧ (∀ v, e ≠ .take v) ∧ ∀ id ops, e ≠ .register id ops) ∨
        (∃ v pics, e = .take v ∧ s.interruptFlag = true ∧ s.pics.acknowledge = some (v, pics) ∧
          s' = { s with pics := pics }.enter addr v) ∨
        (∃ stub op todo loaded fs, e = .run ∧ s.frames = ⟨stub, op :: todo, loaded⟩ :: fs ∧
          s' = s.execute ⟨stub, todo, loaded⟩ fs op) ∨
        (s.frames = [] ∧ (e = .irqInit ∧ s' = { s with interruptFlag := true } ∨
          e = .irqDisable ∧ s' = { s with interruptFlag := false } ∨
          ∃ id ops, e = .register id ops ∧
            s' = { s with handlers := Function.update s.handlers id (some ops) }))) := by
  unfold step at h
  split at h
  · exact absurd h (by simp)
  · next hhalted =>
    refine ⟨by simpa using hhalted, ?_⟩
    split at h
    · next line =>
      refine .inl ⟨_, ?_, (Option.some.inj h).symm, by simp, by simp, by simp⟩
      cases line <;> exact ⟨rfl, rfl, rfl, rfl⟩
    · next line =>
      refine .inl ⟨_, ?_, (Option.some.inj h).symm, by simp, by simp, by simp⟩
      cases line <;> exact ⟨rfl, rfl, rfl, rfl⟩
    · exact .inl ⟨s.pics.cascade, ⟨rfl, rfl, rfl, rfl⟩, (Option.some.inj h).symm, by simp,
        by simp, by simp⟩
    · next vector =>
      split at h
      · next hflag =>
        split at h
        · next v pics hack =>
          split at h
          · next hv =>
            rw [hv] at h hack
            exact .inr (.inl ⟨vector, pics, rfl, hflag, hack, (Option.some.inj h).symm⟩)
          · exact absurd h (by simp)
        · exact absurd h (by simp)
      · exact absurd h (by simp)
    · next stub op todo loaded fs hframes =>
      exact .inr (.inr (.inl ⟨stub, op, todo, loaded, fs, rfl, hframes,
        (Option.some.inj h).symm⟩))
    · next hframes =>
      exact .inr (.inr (.inr ⟨hframes, .inl ⟨rfl, (Option.some.inj h).symm⟩⟩))
    · next hframes =>
      exact .inr (.inr (.inr ⟨hframes, .inr (.inl ⟨rfl, (Option.some.inj h).symm⟩)⟩))
    · next id ops hframes =>
      exact .inr (.inr (.inr ⟨hframes, .inr (.inr ⟨id, ops, rfl, (Option.some.inj h).symm⟩)⟩))
    · exact absurd h (by simp)

/-- The requests and the handlers are the same, and neither or both have halted. -/
def SameDemand (s s' : IrqSystem) : Prop :=
  s'.halted = s.halted ∧ s'.handlers = s.handlers ∧ s'.pics.master.irr = s.pics.master.irr

namespace Consistent

variable {s : IrqSystem}

theorem device (h : Consistent s) {pics : Pics} (hsame : SameService s.pics pics) :
    Consistent { s with pics := pics } where
  programmed := ⟨hsame.1.trans h.programmed.master, hsame.2.1.trans h.programmed.slave⟩
  slaveIdle := hsame.2.2.2.trans h.slaveIdle
  served := h.served
  nested := h.nested
  below := h.below
  running := h.running
  inService := hsame.2.2.1.trans h.inService

/-- While the flag is set no stub has started. -/
theorem fresh (h : Consistent s) (hflag : s.interruptFlag = true) : ∀ f ∈ s.frames, f.Fresh := by
  intro f hf
  cases hframes : s.frames with
  | nil => simp [hframes] at hf
  | cons g fs =>
    rw [hframes] at hf
    rcases List.mem_cons.mp hf with rfl | hf
    · rcases h.running f (by rw [hframes]; rfl) with ⟨hfresh, -⟩ | ⟨-, hclear⟩
      · exact hfresh
      · exact absurd (hflag.symm.trans hclear) (by decide)
    · exact h.below f (by rw [hframes]; exact hf)

/-- The processor takes an interrupt with a stub. -/
theorem take (h : Consistent s) (hflag : s.interruptFlag = true) {n : Fin 5}
    (hreq : s.pics.master.request = some (Stub.irq n).line)
    (hcascade : (Stub.irq n).line ≠ cascadeLine) :
    Consistent { s with
      pics := { s.pics with master := s.pics.master.accept (Stub.irq n).line }
      frames := ⟨.irq n, (Stub.irq n).ops s.handlers, 0⟩ :: s.frames } := by
  have hfresh := h.fresh hflag
  have howing := owing_fresh hfresh
  rw [Pic.accept_eq h.programmed.master]
  obtain ⟨-, hfirst⟩ := (Pic.request_eq_some_iff h.programmed.master).mp hreq
  have hnew := fresh_irq n s.handlers
  refine ⟨⟨h.programmed.master, h.programmed.slave⟩, h.slaveIdle, ?_, ?_, hfresh, ?_, ?_⟩
  · rintro f (_ | ⟨_, hf⟩)
    · exact line_irq_served n hcascade
    · exact h.served f hf
  · refine List.pairwise_cons.mpr ⟨fun k hk => ?_, h.nested⟩
    exact hfirst k (by rw [h.inService, howing]; exact List.mem_toFinset.mpr hk)
  · rintro f ⟨⟩
    exact .inl ⟨hnew, hflag⟩
  · have hall : ∀ f ∈ ⟨.irq n, (Stub.irq n).ops s.handlers, 0⟩ :: s.frames, f.Fresh := by
      rintro f (_ | ⟨_, hf⟩)
      · exact hnew
      · exact hfresh f hf
    rw [owing_fresh (by exact hall)]
    dsimp only
    rw [h.inService, howing, List.map_cons, List.toFinset_cons]
    rfl

/-- A step of the running stub that leaves the controllers and the stubs below alone. -/
theorem advance (h : Consistent s) {f g : Frame} {fs : List Frame} {flag : Bool}
    {tick : BitVec 32} (hframes : s.frames = f :: fs) (hline : g.line = f.line)
    (howes : g.owes = f.owes) (hrunning : Running flag g) :
    Consistent { s with frames := g :: fs, interruptFlag := flag, tick := tick } := by
  have hserved := h.served
  have hnested := h.nested
  have hbelow := h.below
  have hisr := h.inService
  unfold owing at hisr
  rw [hframes] at hserved hnested hbelow hisr
  refine ⟨h.programmed, h.slaveIdle, ?_, ?_, hbelow, ?_, ?_⟩
  · rintro f' (_ | ⟨_, hf'⟩)
    · exact hline ▸ hserved f List.mem_cons_self
    · exact hserved f' (List.mem_cons_of_mem f hf')
  · rw [List.map_cons, hline]
    exact hnested
  · rintro f' ⟨⟩
    exact hrunning
  · unfold owing
    dsimp only
    rw [hisr, List.filter_cons, List.filter_cons, howes]
    split
    · rw [List.map_cons, List.map_cons, hline]
    · rfl

/-- The end of interrupt ends the line of the stub that sends it. -/
theorem endOfInterrupt (h : Consistent s) {f g : Frame} {fs : List Frame}
    (hframes : s.frames = f :: fs) (hf : f.Acknowledging) (hg : g.Handling)
    (hline : g.line = f.line) (hflag : s.interruptFlag = false) :
    s.pics.master.writeCommand picEoi =
        { s.pics.master with isr := s.pics.master.isr.erase f.line } ∧
      f.line ∈ s.pics.master.isr ∧
      Consistent { s with
        frames := g :: fs, pics := s.pics.portByteOut ⟨pic1, picEoi⟩ } := by
  have hserved := h.served
  have hnested := h.nested
  have hbelow := h.below
  have hisr := h.inService
  unfold owing at hisr
  rw [hframes] at hserved hnested hbelow hisr
  have hrest : fs.filter Frame.owes = fs := List.filter_eq_self.mpr fun f' hf' =>
    (hbelow f' hf').owes
  rw [List.filter_cons, hf.owes, if_pos rfl, List.map_cons, List.toFinset_cons, hrest] at hisr
  obtain ⟨hfirst, hnested⟩ := List.pairwise_cons.mp hnested
  have heoi := Pic.writeCommand_eoi h.programmed.master hisr
    (fun k hk => hfirst k (List.mem_toFinset.mp hk))
  have hnot : f.line ∉ (fs.map Frame.line).toFinset := fun hmem =>
    absurd (hfirst f.line (List.mem_toFinset.mp hmem)) (lt_irrefl _)
  refine ⟨?_, ?_, ⟨?_, h.slaveIdle, ?_, ?_, hbelow, ?_, ?_⟩⟩
  · rw [heoi, hisr, Finset.erase_insert hnot]
  · rw [hisr]
    exact Finset.mem_insert_self _ _
  · rw [Pics.portByteOut_pic1, heoi]
    exact ⟨h.programmed.master, h.programmed.slave⟩
  · rintro f' (_ | ⟨_, hf'⟩)
    · exact hline ▸ hserved f List.mem_cons_self
    · exact hserved f' (List.mem_cons_of_mem f hf')
  · rw [List.map_cons, hline]
    exact List.pairwise_cons.mpr ⟨hfirst, hnested⟩
  · rintro f' ⟨⟩
    exact .inr ⟨.inr hg, hflag⟩
  · unfold owing
    rw [Pics.portByteOut_pic1, heoi, List.filter_cons, hg.owes, hrest]
    rfl

/-- The stub returns to the stub, or the program, it interrupted. -/
theorem iretq (h : Consistent s) {f : Frame} {fs : List Frame} (hframes : s.frames = f :: fs)
    (hf : f.Handling) :
    Consistent { s with frames := fs, interruptFlag := true } := by
  have hserved := h.served
  have hnested := h.nested
  have hbelow := h.below
  have hisr := h.inService
  unfold owing at hisr
  rw [hframes] at hserved hnested hbelow hisr
  rw [List.filter_cons, hf.owes] at hisr
  refine ⟨h.programmed, h.slaveIdle, ?_, (List.pairwise_cons.mp hnested).2, ?_, ?_, hisr⟩
  · exact fun f' hf' => hserved f' (List.mem_cons_of_mem f hf')
  · exact fun f' hf' => hbelow f' (List.mem_of_mem_tail hf')
  · exact fun f' hf' => .inl ⟨hbelow f' (List.mem_of_mem_head? hf'), rfl⟩

/-- A step of the running stub. It does not panic, and it leaves the requests and the handlers
    alone. -/
theorem run (h : Consistent s) {stub : Stub} {op : IrqOp} {todo : List IrqOp}
    {loaded : BitVec 32} {fs : List Frame} (hframes : s.frames = ⟨stub, op :: todo, loaded⟩ :: fs) :
    Consistent (s.execute ⟨stub, todo, loaded⟩ fs op) ∧
      SameDemand s (s.execute ⟨stub, todo, loaded⟩ fs op) ∧ op ≠ .panic := by
  rcases h.running _ (by rw [hframes]; rfl) with ⟨⟨ops, htodo⟩, hflag⟩ | ⟨hstarted, hflag⟩
  · obtain ⟨rfl, rfl⟩ := List.cons_eq_cons.mp htodo
    have hnext : Frame.Acknowledging ⟨stub, masterEoi :: ops.map .handler ++ [.stiIretq], loaded⟩ :=
      ⟨ops, rfl⟩
    have hfresh :
        Frame.Fresh ⟨stub, .cli :: masterEoi :: ops.map .handler ++ [.stiIretq], loaded⟩ :=
      ⟨ops, rfl⟩
    exact ⟨h.advance hframes rfl (hnext.owes.trans hfresh.owes.symm) (.inr ⟨.inl hnext, rfl⟩),
      ⟨rfl, rfl, rfl⟩, by simp⟩
  · rcases hstarted with ⟨ops, htodo⟩ | ⟨ops, htodo⟩
    · obtain ⟨rfl, rfl⟩ := List.cons_eq_cons.mp htodo
      have hnext : Frame.Handling ⟨stub, ops.map .handler ++ [.stiIretq], loaded⟩ := ⟨ops, rfl⟩
      obtain ⟨heoi, -, hend⟩ := h.endOfInterrupt hframes ⟨ops, rfl⟩ hnext rfl hflag
      have hirr : (s.pics.master.writeCommand picEoi).irr = s.pics.master.irr := by rw [heoi]
      exact ⟨hend, ⟨rfl, rfl, hirr⟩, by simp [masterEoi]⟩
    · cases ops with
      | nil =>
        obtain ⟨rfl, rfl⟩ := List.cons_eq_cons.mp htodo
        exact ⟨h.iretq hframes ⟨[], rfl⟩, ⟨rfl, rfl, rfl⟩, by simp⟩
      | cons op' ops =>
        obtain ⟨rfl, rfl⟩ := List.cons_eq_cons.mp htodo
        have hbefore : Frame.Handling
            ⟨stub, .handler op' :: (ops.map .handler ++ [.stiIretq]), loaded⟩ := ⟨op' :: ops, rfl⟩
        have hafter : ∀ loaded', Frame.Handling
            ⟨stub, ops.map .handler ++ [.stiIretq], loaded'⟩ := fun _ => ⟨ops, rfl⟩
        have howes : ∀ loaded', Frame.owes ⟨stub, ops.map .handler ++ [.stiIretq], loaded'⟩ =
            Frame.owes ⟨stub, .handler op' :: (ops.map .handler ++ [.stiIretq]), loaded⟩ :=
          fun loaded' => (hafter loaded').owes.trans hbefore.owes.symm
        have hkeeps : ∀ (loaded' tick' : BitVec 32), Consistent { s with
            frames := ⟨stub, ops.map .handler ++ [.stiIretq], loaded'⟩ :: fs, tick := tick' } :=
          fun loaded' tick' => h.advance hframes rfl (howes loaded') (.inr ⟨.inr (hafter _), hflag⟩)
        cases op' with
        | loadTick => exact ⟨hkeeps s.tick s.tick, ⟨rfl, rfl, rfl⟩, by simp⟩
        | storeTick => exact ⟨hkeeps loaded (loaded + 1), ⟨rfl, rfl, rfl⟩, by simp⟩
        | other => exact ⟨hkeeps loaded s.tick, ⟨rfl, rfl, rfl⟩, by simp⟩

/-- One step: the system stays consistent, or a gate is missing and it halts. -/
theorem step (haddr : Function.Injective addr) (h : Consistent s) {e : IrqEvent} {s' : IrqSystem}
    (hstep : s.step addr e = some s') : s'.halted = false → Consistent s' := by
  intro hhalted
  obtain ⟨-, ⟨pics, hsame, rfl, -⟩ | ⟨v, pics, rfl, hflag, hack, rfl⟩ |
    ⟨stub, op, todo, loaded, fs, rfl, hframes, rfl⟩ | ⟨hframes, hprogram⟩⟩ := step_cases hstep
  · exact h.device hsame
  · by_cases hv : v.toNat < 37
    · obtain ⟨l, hreq, hl, hvector, rfl⟩ :=
        (acknowledge_cases h.programmed hack).resolve_right (by omega)
      have hn : l.val < 5 := by omega
      rw [enter_irq haddr _ ⟨l.val, hn⟩ hvector]
      exact h.take (n := ⟨l.val, hn⟩) hflag hreq hl
    · rw [enter_none haddr _ (Nat.le_of_not_lt hv)] at hhalted
      exact absurd hhalted (by simp)
  · exact (h.run hframes).1
  · have hidle : ∀ flag handlers,
        Consistent { s with interruptFlag := flag, handlers := handlers } :=
      fun flag handlers => ⟨h.programmed, h.slaveIdle, h.served, h.nested, h.below,
        by simp [hframes], h.inService⟩
    obtain ⟨-, rfl⟩ | ⟨-, rfl⟩ | ⟨id, ops, -, rfl⟩ := hprogram
    · exact hidle true s.handlers
    · exact hidle false s.handlers
    · exact hidle s.interruptFlag _

theorem init (pics : Pics) (handlers : HandlerTable) : Consistent (afterIsrInit pics handlers) := by
  unfold afterIsrInit
  rw [isrInit_modes]
  exact ⟨⟨rfl, rfl⟩, rfl, by simp, by simp, by simp, by simp, rfl⟩

/-- Every state of a run that has not halted. -/
theorem reached (haddr : Function.Injective addr) {es : List IrqEvent} {s' : IrqSystem}
    (h : Consistent s) (hrun : Runs (IrqSystem.step addr) s es s') :
    s'.halted = false → Consistent s' :=
  hrun.invariant (I := fun m => m.halted = false → Consistent m) (fun _ => h)
    fun _ _ _ hm hstep => (hm (step_cases hstep).1).step haddr hstep

/-- Four lines have a gate. -/
theorem depth_le (h : Consistent s) : s.frames.length ≤ 4 := by
  have hnodup : (s.frames.map Frame.line).Nodup := h.nested.imp ne_of_lt
  have hsubset : (s.frames.map Frame.line).toFinset ⊆ servedLines := by
    intro l hl
    obtain ⟨f, hf, rfl⟩ := List.mem_map.mp (List.mem_toFinset.mp hl)
    exact h.served f hf
  have hcard := Finset.card_le_card hsubset
  rw [List.toFinset_card_of_nodup hnodup, List.length_map] at hcard
  exact hcard

end Consistent

/-- The end of interrupt protocol. Whatever the controllers did before `isr_init` and in whatever
    order devices, processor, stubs and program take their steps after it: until the system halts,
    the master holds in service exactly the lines whose stubs have still to send their end of
    interrupt, each line once, and the slave holds none; a stub that sends its end of interrupt
    ends its own line and no other; and at most four stubs are on the stack. -/
theorem irqSystem_consistent (haddr : Function.Injective addr) (pics : Pics)
    (handlers : HandlerTable) {es : List IrqEvent} {s : IrqSystem}
    (hrun : Runs (step addr) (afterIsrInit pics handlers) es s) (hup : s.halted = false) :
    s.pics.master.isr = s.owing.toFinset ∧ s.owing.Nodup ∧ s.pics.slave.isr = ∅ ∧
      (∀ f fs, s.frames = f :: fs → f.Acknowledging →
        f.line ∈ s.pics.master.isr ∧ (s.pics.portByteOut ⟨pic1, picEoi⟩).master =
          { s.pics.master with isr := s.pics.master.isr.erase f.line }) ∧
      s.frames.length ≤ 4 := by
  have h := (Consistent.init pics handlers).reached haddr hrun hup
  refine ⟨h.inService, ?_, h.slaveIdle, ?_, h.depth_le⟩
  · have hsub : s.owing.Sublist (s.frames.map Frame.line) := List.filter_sublist.map _
    exact (h.nested.sublist hsub).imp ne_of_lt
  · intro f fs hframes hf
    obtain ⟨ops, htodo⟩ := hf
    have hflag : s.interruptFlag = false := by
      rcases h.running f (by rw [hframes]; rfl) with ⟨⟨ops', hfresh⟩, -⟩ | ⟨-, hflag⟩
      · exact absurd (htodo.symm.trans hfresh) (by simp [masterEoi])
      · exact hflag
    have hnext : Frame.Handling ⟨f.stub, ops.map .handler ++ [.stiIretq], f.loaded⟩ := ⟨ops, rfl⟩
    obtain ⟨heoi, hmem, -⟩ := h.endOfInterrupt hframes ⟨ops, htodo⟩ hnext rfl hflag
    exact ⟨hmem, heoi⟩

/-- Controllers in the middle of an initialisation, with every line in service. -/
def busyPics : Pics :=
  ⟨⟨⟨.icw3, 0x11, 8, 0, 0, 0xFF, timerLine, true⟩, ∅, Finset.univ⟩,
    ⟨⟨.ready, 0x13, 0x70, 0, 3, 0, keyboardLine, false⟩, {keyboardLine}, {cascadeLine}⟩⟩

/-- The keyboard interrupts, and before its stub has started the timer does. -/
def nestedEvents : List IrqEvent :=
  [.irqInit, .raise (.inl keyboardLine), .take 33, .raise (.inl timerLine), .take 32, .run]

theorem irqSystem_consistent_nested :
    ∃ s, Runs (step sampleAddr) (afterIsrInit busyPics fun _ => none) nestedEvents s ∧
      s.owing = [0, 1] ∧ s.pics.master.isr = s.owing.toFinset := by
  obtain ⟨s, hrun, hup, howing⟩ :
      ∃ s, Runs (step sampleAddr) (afterIsrInit busyPics fun _ => none) nestedEvents s ∧
        s.halted = false ∧ s.owing = [0, 1] := ⟨_, by rfl, by rfl, by rfl⟩
  exact ⟨s, hrun, howing, (irqSystem_consistent sampleAddr_injective busyPics _ hrun hup).1⟩

end IrqSystem

end Utero.Core
