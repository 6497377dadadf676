/-
  The serial port: `src/drivers/serial.c` and the 16550 behind it.

  The driver is its sequence of port accesses; `serial_write` and `serial_read` first wait for a
  bit of the line status. Between any two accesses, and while the driver waits, the transmitter
  may take a byte into its shift register or finish one, and bytes may arrive. The receiver and
  the transmitter buffer 16 bytes, or one as long as the buffers are off.

  `serial_inOrder`: whatever the port did before, over every interleaving of `serial_init` and
  any calls with the device, the line carries the bytes written, each once and in order, behind
  what was still sent of the bytes from before; `serial_read` gives bytes that arrived, in order.
  Both bytes of the divisor go to the low latch, so the port runs at the requested speed if and
  only if the high latch already held the right byte.
-/
import Mathlib.Data.List.Infix
import Utero.Lib.Run
import Utero.Core.InterruptFrame

namespace Utero.Drivers

open Utero.Core (PortWrite)
open Utero.Lib

/-! ## The 16550 -/

/-- The chip outside its loopback mode, which `serial_init` turns off with its last write. -/
structure Uart where
  dll : BitVec 8
  dlm : BitVec 8
  ier : BitVec 8
  lcr : BitVec 8
  mcr : BitVec 8
  /-- The buffers are on. -/
  fifo : Bool
  /-- The bytes that wait for the shift register, oldest first. -/
  thr : List (BitVec 8)
  tsr : Option (BitVec 8)
  /-- The bytes sent. -/
  line : List (BitVec 8)
  /-- The bytes received and not read yet, oldest first. -/
  rbr : List (BitVec 8)
  deriving DecidableEq

/-- What the data sheet leaves open: the buffer after a write to a full one, a read of the empty
    receiver, and the registers nothing here reads. -/
structure Chip where
  overrun : List (BitVec 8) → BitVec 8 → List (BitVec 8)
  stale : BitVec 8
  other : Uart → BitVec 16 → BitVec 8

namespace Uart

/-- The divisor latch is in the place of the data and of the interrupt register. -/
def dlab (u : Uart) : Bool := u.lcr.getLsbD 7

def depth (u : Uart) : Nat := if u.fifo then 16 else 1

def lineStatus (u : Uart) : BitVec 8 :=
  (if u.rbr = [] then 0 else 0x01) ||| (if u.thr = [] then 0x20 else 0) |||
    (if u.thr = [] ∧ u.tsr = none then 0x40 else 0)

/-- A write to the data port. -/
def writeData (chip : Chip) (u : Uart) (c : BitVec 8) : Uart :=
  if u.dlab then { u with dll := c }
  else if u.thr.length < u.depth then { u with thr := u.thr ++ [c] }
  else { u with thr := chip.overrun u.thr c }

/-- A write to the buffer command port: bit 0 turns the buffers on, bits 1 and 2 clear them.
    A change of bit 0 clears both. -/
def writeFifo (u : Uart) (v : BitVec 8) : Uart :=
  let change := u.fifo != v.getLsbD 0
  { u with
    fifo := v.getLsbD 0
    rbr := if change || (v.getLsbD 0 && v.getLsbD 1) then [] else u.rbr
    thr := if change || (v.getLsbD 0 && v.getLsbD 2) then [] else u.thr }

/-- `port_byte_out`, for the port `base` and the seven above it. -/
def portByteOut (chip : Chip) (base : BitVec 16) (u : Uart) (w : PortWrite) : Uart :=
  match (w.port - base).toNat with
  | 0 => u.writeData chip w.value
  | 1 => if u.dlab then { u with dlm := w.value } else { u with ier := w.value }
  | 2 => u.writeFifo w.value
  | 3 => { u with lcr := w.value }
  | 4 => { u with mcr := w.value }
  | _ => u

/-- `port_byte_in` -/
def portByteIn (chip : Chip) (base : BitVec 16) (u : Uart) (port : BitVec 16) : BitVec 8 × Uart :=
  match (port - base).toNat with
  | 0 =>
    if u.dlab then (u.dll, u)
    else match u.rbr with
      | [] => (chip.stale, u)
      | c :: rbr => (c, { u with rbr := rbr })
  | 5 => (u.lineStatus, u)
  | _ => (chip.other u port, u)

/-- A byte arrives. A full buffer keeps its bytes, a single register does not. -/
def receive (u : Uart) (c : BitVec 8) : Uart :=
  if u.rbr.length < u.depth then { u with rbr := u.rbr ++ [c] }
  else if u.fifo then u
  else { u with rbr := [c] }

/-- The bytes on the line and behind it. -/
def sent (u : Uart) : List (BitVec 8) := u.line ++ u.tsr.toList ++ u.thr

/-- The divisor the port runs with. -/
def divisor (u : Uart) : BitVec 16 := u.dlm ++ u.dll

end Uart

/-! ## The driver -/

inductive Access where
  | out (w : PortWrite)
  /-- `while ((port_byte_in(port) & mask) == 0) ;` -/
  | await (port : BitVec 16) (mask : BitVec 8)
  | input (port : BitVec 16)
  deriving DecidableEq

def serialDataPort (base : BitVec 16) : BitVec 16 := base

def serialFifoCommandPort (base : BitVec 16) : BitVec 16 := base + 2

def serialLineCommandPort (base : BitVec 16) : BitVec 16 := base + 3

def serialModemCommandPort (base : BitVec 16) : BitVec 16 := base + 4

def serialLineStatusPort (base : BitVec 16) : BitVec 16 := base + 5

def serialLineEnableDlab : BitVec 8 := 0x80

def serialInit (com divisor : BitVec 16) : List Access :=
  [.out ⟨serialLineCommandPort com, serialLineEnableDlab⟩,
    .out ⟨serialDataPort com, ((divisor >>> 8) &&& 0x00FF).setWidth 8⟩,
    .out ⟨serialDataPort com, (divisor &&& 0x00FF).setWidth 8⟩,
    .out ⟨serialLineCommandPort com, 0x03⟩,
    .out ⟨serialFifoCommandPort com, 0xC7⟩,
    .out ⟨serialModemCommandPort com, 0x0B⟩]

/-- The wait is for `serial_is_transmit_fifo_empty`. -/
def serialWrite (com : BitVec 16) (c : BitVec 8) : List Access :=
  [.await (serialLineStatusPort com) 0x20, .out ⟨com, c⟩]

/-- The wait is for `serial_received`. -/
def serialRead (com : BitVec 16) : List Access :=
  [.await (serialLineStatusPort com) 1, .input com]

inductive SerialCall where
  | write (c : BitVec 8)
  | read
  deriving DecidableEq

namespace SerialCall

def accesses (com : BitVec 16) : SerialCall → List Access
  | .write c => serialWrite com c
  | .read => serialRead com

/-- The bytes the calls write. -/
def written : List SerialCall → List (BitVec 8)
  | [] => []
  | .write c :: calls => c :: written calls
  | .read :: calls => written calls

end SerialCall

/-- The bytes the accesses have still to write. -/
def pendingBytes (com : BitVec 16) : List Access → List (BitVec 8)
  | [] => []
  | .out w :: todo =>
    if w.port = com then w.value :: pendingBytes com todo else pendingBytes com todo
  | _ :: todo => pendingBytes com todo

/-- The accesses of a sequence of calls. -/
def callAccesses (com : BitVec 16) (calls : List SerialCall) : List Access :=
  calls.flatMap (SerialCall.accesses com)

/-! ## The port and the driver together -/

structure SerialSystem where
  uart : Uart
  /-- The accesses to come. -/
  todo : List Access
  /-- The results of the input accesses. -/
  got : List (BitVec 8)
  deriving DecidableEq

inductive SerialEvent where
  /-- The next access; a wait that ends. -/
  | access
  /-- A wait that goes on. -/
  | spin
  /-- A byte goes to the shift register. -/
  | load
  /-- The byte in the shift register has been sent. -/
  | shift
  | arrive (c : BitVec 8)
  deriving DecidableEq

namespace SerialSystem

def step (chip : Chip) (com : BitVec 16) (s : SerialSystem) : SerialEvent → Option SerialSystem
  | .access =>
    match s.todo with
    | [] => none
    | .out w :: todo => some { s with uart := s.uart.portByteOut chip com w, todo := todo }
    | .await port mask :: todo =>
      let (status, uart) := s.uart.portByteIn chip com port
      if status &&& mask = 0 then none else some { s with uart := uart, todo := todo }
    | .input port :: todo =>
      let (c, uart) := s.uart.portByteIn chip com port
      some ⟨uart, todo, s.got ++ [c]⟩
  | .spin =>
    match s.todo with
    | .await port mask :: _ =>
      let (status, uart) := s.uart.portByteIn chip com port
      if status &&& mask = 0 then some { s with uart := uart } else none
    | _ => none
  | .load =>
    match s.uart.tsr, s.uart.thr with
    | none, c :: thr => some { s with uart := { s.uart with tsr := some c, thr := thr } }
    | _, _ => none
  | .shift =>
    match s.uart.tsr with
    | some c => some { s with uart := { s.uart with tsr := none, line := s.uart.line ++ [c] } }
    | none => none
  | .arrive c => some { s with uart := s.uart.receive c }

/-- The accesses to come, and for each byte to be written or in the port the steps that put it
    on the line. -/
def work (com : BitVec 16) (s : SerialSystem) : Nat :=
  s.todo.length + 2 * (pendingBytes com s.todo).length +
    (2 * s.uart.thr.length + s.uart.tsr.toList.length)

end SerialSystem

/-- The bytes that arrive in a run. -/
def arrivals : List SerialEvent → List (BitVec 8)
  | [] => []
  | .arrive c :: es => c :: arrivals es
  | _ :: es => arrivals es

/-! ## What the accesses do -/

section

variable {chip : Chip} {com : BitVec 16} {u u' : Uart} {s s' : SerialSystem}

theorem portByteOut_data (c : BitVec 8) :
    u.portByteOut chip com ⟨com, c⟩ = u.writeData chip c := by
  unfold Uart.portByteOut
  rw [BitVec.sub_self]
  rfl

theorem portByteOut_fifoCommand (v : BitVec 8) :
    u.portByteOut chip com ⟨serialFifoCommandPort com, v⟩ = u.writeFifo v := by
  unfold Uart.portByteOut serialFifoCommandPort
  rw [BitVec.add_comm, BitVec.add_sub_cancel]
  rfl

theorem portByteOut_lineCommand (v : BitVec 8) :
    u.portByteOut chip com ⟨serialLineCommandPort com, v⟩ = { u with lcr := v } := by
  unfold Uart.portByteOut serialLineCommandPort
  rw [BitVec.add_comm, BitVec.add_sub_cancel]
  rfl

theorem portByteOut_modemCommand (v : BitVec 8) :
    u.portByteOut chip com ⟨serialModemCommandPort com, v⟩ = { u with mcr := v } := by
  unfold Uart.portByteOut serialModemCommandPort
  rw [BitVec.add_comm, BitVec.add_sub_cancel]
  rfl

theorem portByteIn_data :
    u.portByteIn chip com com =
      if u.dlab then (u.dll, u)
      else match u.rbr with
        | [] => (chip.stale, u)
        | c :: rbr => (c, { u with rbr := rbr }) := by
  unfold Uart.portByteIn
  rw [BitVec.sub_self]
  rfl

theorem portByteIn_lineStatus :
    u.portByteIn chip com (serialLineStatusPort com) = (u.lineStatus, u) := by
  unfold Uart.portByteIn serialLineStatusPort
  rw [BitVec.add_comm, BitVec.add_sub_cancel]
  rfl

/-- `serial_is_transmit_fifo_empty` -/
theorem lineStatus_transmit : u.lineStatus &&& 0x20 = 0 ↔ u.thr ≠ [] := by
  unfold Uart.lineStatus
  by_cases hrbr : u.rbr = [] <;> by_cases hthr : u.thr = [] <;> by_cases htsr : u.tsr = none <;>
    simp [hrbr, hthr, htsr]

/-- `serial_received` -/
theorem lineStatus_received : u.lineStatus &&& 1 = 0 ↔ u.rbr = [] := by
  unfold Uart.lineStatus
  by_cases hrbr : u.rbr = [] <;> by_cases hthr : u.thr = [] <;> by_cases htsr : u.tsr = none <;>
    simp [hrbr, hthr, htsr]

/-- What the device does by itself, while the bytes `cs` arrive. -/
structure Uart.Moved (u u' : Uart) (cs : List (BitVec 8)) : Prop where
  registers : u' = { u with thr := u'.thr, tsr := u'.tsr, line := u'.line, rbr := u'.rbr }
  sent : u'.sent = u.sent
  thr : u'.thr <:+ u.thr
  rbr : u'.rbr.Sublist (u.rbr ++ cs)
  received : u.rbr ≠ [] → u'.rbr ≠ []

theorem Uart.moved_receive (u : Uart) (c : BitVec 8) : Uart.Moved u (u.receive c) [c] := by
  unfold Uart.receive
  split
  · exact ⟨rfl, rfl, List.suffix_refl _, List.Sublist.refl _, fun _ => by simp⟩
  split
  · exact ⟨rfl, rfl, List.suffix_refl _, List.sublist_append_left _ _, id⟩
  · exact ⟨rfl, rfl, List.suffix_refl _, List.sublist_append_right _ _, fun _ => by simp⟩

theorem step_device {e : SerialEvent} (h : s.step chip com e = some s') (ha : e ≠ .access)
    (hs : e ≠ .spin) :
    s'.todo = s.todo ∧ s'.got = s.got ∧ Uart.Moved s.uart s'.uart (arrivals [e]) := by
  cases e with
  | access => exact absurd rfl ha
  | spin => exact absurd rfl hs
  | load =>
    simp only [SerialSystem.step] at h
    split at h
    · rename_i c thr htsr hthr
      cases h
      refine ⟨rfl, rfl, rfl, ?_, ?_, List.sublist_append_left _ _, id⟩
      · simp [Uart.sent, htsr, hthr]
      · rw [hthr]
        exact List.suffix_cons c thr
    · cases h
  | shift =>
    simp only [SerialSystem.step] at h
    split at h
    · rename_i c htsr
      cases h
      refine ⟨rfl, rfl, rfl, ?_, List.suffix_refl _, List.sublist_append_left _ _, id⟩
      simp [Uart.sent, htsr]
    · cases h
  | arrive c =>
    cases h
    exact ⟨rfl, rfl, s.uart.moved_receive c⟩

theorem step_out {w : PortWrite} {todo : List Access} (htodo : s.todo = .out w :: todo)
    (h : s.step chip com .access = some s') :
    s' = ⟨s.uart.portByteOut chip com w, todo, s.got⟩ := by
  unfold SerialSystem.step at h
  rw [htodo] at h
  exact (Option.some.inj h).symm

theorem not_spin_out {w : PortWrite} {todo : List Access} (htodo : s.todo = .out w :: todo) :
    s.step chip com .spin = none := by
  unfold SerialSystem.step
  rw [htodo]

theorem step_await {mask : BitVec 8} {todo : List Access}
    (htodo : s.todo = .await (serialLineStatusPort com) mask :: todo) :
    s.step chip com .access =
      if s.uart.lineStatus &&& mask = 0 then none else some { s with todo := todo } := by
  simp only [SerialSystem.step, htodo, portByteIn_lineStatus]

theorem spin_await {mask : BitVec 8} {todo : List Access}
    (htodo : s.todo = .await (serialLineStatusPort com) mask :: todo) :
    s.step chip com .spin = if s.uart.lineStatus &&& mask = 0 then some s else none := by
  simp only [SerialSystem.step, htodo, portByteIn_lineStatus]
  rw [← htodo]

theorem step_input {todo : List Access} {c : BitVec 8} {rbr : List (BitVec 8)}
    (htodo : s.todo = .input com :: todo) (hlcr : s.uart.dlab = false)
    (hrbr : s.uart.rbr = c :: rbr) :
    s.step chip com .access = some ⟨{ s.uart with rbr := rbr }, todo, s.got ++ [c]⟩ := by
  simp only [SerialSystem.step, htodo, portByteIn_data, hlcr, Bool.false_eq_true, if_false, hrbr]

theorem callAccesses_cons (call : SerialCall) (calls : List SerialCall) :
    callAccesses com (call :: calls) = call.accesses com ++ callAccesses com calls :=
  List.flatMap_cons

theorem pendingBytes_callAccesses (com : BitVec 16) (calls : List SerialCall) :
    pendingBytes com (callAccesses com calls) = SerialCall.written calls := by
  induction calls with
  | nil => rfl
  | cons call calls ih =>
    cases call with
    | write c =>
      rw [callAccesses_cons]
      simp [SerialCall.accesses, serialWrite, pendingBytes, SerialCall.written, ih]
    | read =>
      rw [callAccesses_cons]
      simp [SerialCall.accesses, serialRead, pendingBytes, SerialCall.written, ih]

end

/-! ## The calls -/

/-- The driver is in a sequence of calls that writes, with what was sent before, `total`. -/
inductive Serving (com : BitVec 16) (total : List (BitVec 8)) : List Access → Uart → Prop
  | between {u : Uart} (calls : List SerialCall) (hthr : u.thr.length ≤ 1)
      (hsent : u.sent ++ SerialCall.written calls = total) :
      Serving com total (callAccesses com calls) u
  | writing {u : Uart} (c : BitVec 8) (calls : List SerialCall) (hthr : u.thr = [])
      (hsent : u.sent ++ c :: SerialCall.written calls = total) :
      Serving com total (.out ⟨com, c⟩ :: callAccesses com calls) u
  | reading {u : Uart} (calls : List SerialCall) (hthr : u.thr.length ≤ 1) (hrbr : u.rbr ≠ [])
      (hsent : u.sent ++ SerialCall.written calls = total) :
      Serving com total (.input com :: callAccesses com calls) u

namespace Serving

variable {chip : Chip} {com : BitVec 16} {total : List (BitVec 8)} {todo : List Access}
  {u u' : Uart} {s s' : SerialSystem}

theorem moved (h : Serving com total todo u) {cs : List (BitVec 8)} (hm : u.Moved u' cs) :
    Serving com total todo u' := by
  cases h with
  | between calls hthr hsent =>
    exact .between calls (le_trans hm.thr.length_le hthr) (hm.sent ▸ hsent)
  | writing c calls hthr hsent =>
    exact .writing c calls (List.suffix_nil.mp (hthr ▸ hm.thr)) (hm.sent ▸ hsent)
  | reading calls hthr hrbr hsent =>
    exact .reading calls (le_trans hm.thr.length_le hthr) (hm.received hrbr) (hm.sent ▸ hsent)

/-- A wait that goes on changes nothing. -/
theorem spin (h : Serving com total s.todo s.uart) (hstep : s.step chip com .spin = some s') :
    s' = s := by
  generalize htodo : s.todo = todo at h
  cases h with
  | between calls =>
    cases calls with
    | nil => simp [SerialSystem.step, htodo, callAccesses] at hstep
    | cons call calls =>
      obtain ⟨mask, rest, hcall⟩ : ∃ mask rest,
          call.accesses com = .await (serialLineStatusPort com) mask :: rest := by
        cases call <;> exact ⟨_, _, rfl⟩
      rw [callAccesses_cons, hcall] at htodo
      rw [spin_await htodo] at hstep
      split at hstep
      · exact (Option.some.inj hstep).symm
      · cases hstep
  | writing => simp [SerialSystem.step, htodo] at hstep
  | reading => simp [SerialSystem.step, htodo] at hstep

/-- What an access of the calls does. -/
theorem access (h : Serving com total s.todo s.uart) (hlcr : s.uart.dlab = false)
    (hstep : s.step chip com .access = some s') :
    Serving com total s'.todo s'.uart ∧
      s'.uart = { s.uart with thr := s'.uart.thr, rbr := s'.uart.rbr } ∧
      s'.got ++ s'.uart.rbr = s.got ++ s.uart.rbr ∧ s'.work com < s.work com := by
  generalize htodo : s.todo = todo at h
  cases h with
  | between calls hthr hsent =>
    cases calls with
    | nil => simp [SerialSystem.step, htodo, callAccesses] at hstep
    | cons call calls =>
      cases call with
      | write c =>
        have htodo : s.todo = .await (serialLineStatusPort com) 0x20 :: .out ⟨com, c⟩ ::
          callAccesses com calls := htodo
        rw [step_await htodo] at hstep
        split at hstep
        · cases hstep
        · rename_i hstatus
          cases hstep
          rw [lineStatus_transmit, not_not] at hstatus
          refine ⟨.writing c calls hstatus hsent, rfl, rfl, ?_⟩
          simp [SerialSystem.work, htodo, pendingBytes]
      | read =>
        have htodo : s.todo = .await (serialLineStatusPort com) 1 :: .input com ::
          callAccesses com calls := htodo
        rw [step_await htodo] at hstep
        split at hstep
        · cases hstep
        · rename_i hstatus
          cases hstep
          rw [lineStatus_received] at hstatus
          refine ⟨.reading calls hthr hstatus hsent, rfl, rfl, ?_⟩
          simp [SerialSystem.work, htodo, pendingBytes]
  | writing c calls hthr hsent =>
    have hroom : s.uart.thr.length < s.uart.depth := by
      rw [hthr, List.length_nil, Uart.depth]
      split <;> omega
    have hwrite : s.uart.writeData chip c = { s.uart with thr := s.uart.thr ++ [c] } := by
      simp only [Uart.writeData, hlcr, Bool.false_eq_true, if_false, if_pos hroom]
    rw [step_out htodo hstep, portByteOut_data, hwrite]
    refine ⟨.between calls (by simp [hthr]) ?_, rfl, rfl, ?_⟩
    · rw [← hsent]
      simp [Uart.sent]
    · simp only [SerialSystem.work, htodo, pendingBytes, if_pos, List.length_cons,
        List.length_append, List.length_nil]
      omega
  | reading calls hthr hrbr hsent =>
    obtain ⟨c, rbr, hcons⟩ := List.exists_cons_of_ne_nil hrbr
    rw [step_input htodo hlcr hcons] at hstep
    cases hstep
    refine ⟨.between calls hthr hsent, rfl, ?_, ?_⟩
    · simp only [hcons, List.append_assoc, List.singleton_append]
    · simp [SerialSystem.work, htodo, pendingBytes]

end Serving

/-! ## `serial_init` -/

def lowByte (divisor : BitVec 16) : BitVec 8 := divisor.setWidth 8

def highByte (divisor : BitVec 16) : BitVec 8 := (divisor >>> 8).setWidth 8

/-- The registers after the first `k` writes of `serial_init`; `u₀` is the port before them. -/
structure Initialised (divisor : BitVec 16) (u₀ : Uart) (k : Nat) (u : Uart) : Prop where
  dlm : u.dlm = u₀.dlm
  latch : 1 ≤ k → k ≤ 3 → u.lcr = serialLineEnableDlab
  dll : 3 ≤ k → u.dll = lowByte divisor
  lcr : 4 ≤ k → u.lcr = 0x03
  fifo : 5 ≤ k → u.fifo = true
  mcr : 6 ≤ k → u.mcr = 0x0B

/-- The bytes while `serial_init` runs: the fifth write drops those that wait. -/
structure Kept (u₀ : Uart) (k : Nat) (u : Uart) : Prop where
  sent : u.sent <+: u₀.sent
  thr : 5 ≤ k → u.thr = []

section

variable {chip : Chip} {com divisor : BitVec 16} {u₀ u u' : Uart} {k : Nat}

theorem Initialised.of_registers (h : Initialised divisor u₀ k u)
    (hu : u' = { u with thr := u'.thr, tsr := u'.tsr, line := u'.line, rbr := u'.rbr }) :
    Initialised divisor u₀ k u' := by
  rw [hu]
  exact ⟨h.dlm, h.latch, h.dll, h.lcr, h.fifo, h.mcr⟩

theorem Kept.moved (h : Kept u₀ k u) {cs : List (BitVec 8)} (hm : u.Moved u' cs) :
    Kept u₀ k u' :=
  ⟨hm.sent ▸ h.sent, fun hk => List.suffix_nil.mp (h.thr hk ▸ hm.thr)⟩

/-- With the divisor latch in place, the data port is its low byte. -/
theorem portByteOut_latch (hlcr : u.lcr = serialLineEnableDlab) (c : BitVec 8) :
    u.portByteOut chip com ⟨serialDataPort com, c⟩ = { u with dll := c } := by
  have hdlab : u.dlab = true := by
    unfold Uart.dlab
    rw [hlcr]
    rfl
  unfold serialDataPort
  rw [portByteOut_data]
  unfold Uart.writeData
  rw [if_pos hdlab]

theorem writeFifo_clear : u.writeFifo 0xC7 = { u with fifo := true, rbr := [], thr := [] } := by
  simp [Uart.writeFifo]

theorem low_and (divisor : BitVec 16) :
    (divisor &&& 0x00FF).setWidth 8 = lowByte divisor := by
  rw [BitVec.setWidth_and]
  exact BitVec.and_allOnes

/-- The writes of `serial_init`, one by one. -/
theorem serialInit_write (chip : Chip) (com : BitVec 16) (hk : k < 6)
    (h : Initialised divisor u₀ k u) (hkept : Kept u₀ k u) :
    ∃ w, (serialInit com divisor).drop k = .out w :: (serialInit com divisor).drop (k + 1) ∧
      Initialised divisor u₀ (k + 1) (u.portByteOut chip com w) ∧
      Kept u₀ (k + 1) (u.portByteOut chip com w) ∧
      (u.portByteOut chip com w).rbr.Sublist u.rbr ∧
      (u.portByteOut chip com w).thr.length ≤ u.thr.length ∧
      (u.portByteOut chip com w).tsr = u.tsr := by
  obtain ⟨hdlm, hlatch, hdll, hlcr, hfifo, hmcr⟩ := h
  obtain ⟨hsent, hthr⟩ := hkept
  obtain rfl | rfl | rfl | rfl | rfl | rfl :
      k = 0 ∨ k = 1 ∨ k = 2 ∨ k = 3 ∨ k = 4 ∨ k = 5 := by omega
  · refine ⟨_, rfl, ?_⟩
    rw [portByteOut_lineCommand]
    exact ⟨⟨hdlm, fun _ _ => rfl, by omega, by omega, by omega, by omega⟩, ⟨hsent, by omega⟩,
      List.Sublist.refl _, le_refl _, rfl⟩
  · refine ⟨_, rfl, ?_⟩
    rw [portByteOut_latch (hlatch (by omega) (by omega))]
    exact ⟨⟨hdlm, fun _ _ => hlatch (by omega) (by omega), by omega, by omega, by omega, by omega⟩,
      ⟨hsent, by omega⟩, List.Sublist.refl _, le_refl _, rfl⟩
  · refine ⟨_, rfl, ?_⟩
    rw [portByteOut_latch (hlatch (by omega) (by omega)), low_and]
    exact ⟨⟨hdlm, fun _ _ => hlatch (by omega) (by omega), fun _ => rfl, by omega, by omega,
      by omega⟩, ⟨hsent, by omega⟩, List.Sublist.refl _, le_refl _, rfl⟩
  · refine ⟨_, rfl, ?_⟩
    rw [portByteOut_lineCommand]
    exact ⟨⟨hdlm, by omega, fun _ => hdll (by omega), fun _ => rfl, by omega, by omega⟩,
      ⟨hsent, by omega⟩, List.Sublist.refl _, le_refl _, rfl⟩
  · refine ⟨_, rfl, ?_⟩
    rw [portByteOut_fifoCommand, writeFifo_clear]
    refine ⟨⟨hdlm, by omega, fun _ => hdll (by omega), fun _ => hlcr (by omega), fun _ => rfl,
      by omega⟩, ⟨?_, fun _ => rfl⟩, List.nil_sublist _, Nat.zero_le _, rfl⟩
    unfold Uart.sent at hsent ⊢
    rw [List.append_nil]
    exact (List.prefix_append _ _).trans hsent
  · refine ⟨_, rfl, ?_⟩
    rw [portByteOut_modemCommand]
    exact ⟨⟨hdlm, by omega, fun _ => hdll (by omega), fun _ => hlcr (by omega),
      fun _ => hfifo (by omega), fun _ => rfl⟩, ⟨hsent, fun _ => hthr (by omega)⟩,
      List.Sublist.refl _, le_refl _, rfl⟩

end

/-! ## Runs -/

/-- A run of `serial_init` and then `calls`, from the port `u₀`. -/
inductive SerialStage (com divisor : BitVec 16) (u₀ : Uart) (calls : List SerialCall)
    (s : SerialSystem) : Prop
  | starting (k : Nat) (hk : k < 6)
      (htodo : s.todo = (serialInit com divisor).drop k ++ callAccesses com calls)
      (hinit : Initialised divisor u₀ k s.uart) (hkept : Kept u₀ k s.uart)
  | serving (old : List (BitVec 8)) (hold : old <+: u₀.sent)
      (hinit : Initialised divisor u₀ 6 s.uart)
      (hcalls : Serving com (old ++ SerialCall.written calls) s.todo s.uart)

section

variable {chip : Chip} {com divisor : BitVec 16} {u₀ : Uart} {calls : List SerialCall}
  {s s' : SerialSystem} {e : SerialEvent} {es : List SerialEvent}

theorem SerialStage.device (h : SerialStage com divisor u₀ calls s)
    (htodo : s'.todo = s.todo) {cs : List (BitVec 8)} (hm : s.uart.Moved s'.uart cs) :
    SerialStage com divisor u₀ calls s' := by
  cases h with
  | starting k hk hinit hreg hkept =>
    exact .starting k hk (htodo.trans hinit) (hreg.of_registers hm.registers) (hkept.moved hm)
  | serving old hold hinit hcalls =>
    exact .serving old hold (hinit.of_registers hm.registers) (htodo ▸ hcalls.moved hm)

theorem SerialStage.spin (h : SerialStage com divisor u₀ calls s)
    (hstep : s.step chip com .spin = some s') : s' = s := by
  cases h with
  | starting k hk htodo hinit hkept =>
    obtain ⟨w, hw, -⟩ := serialInit_write chip com hk hinit hkept
    rw [hw, List.cons_append] at htodo
    rw [not_spin_out htodo] at hstep
    cases hstep
  | serving old hold hinit hcalls => exact hcalls.spin hstep

theorem Initialised.dlab_eq_false {u : Uart} (h : Initialised divisor u₀ 6 u) :
    u.dlab = false := by
  unfold Uart.dlab
  rw [h.lcr (by omega)]
  rfl

theorem SerialStage.access (h : SerialStage com divisor u₀ calls s)
    (hstep : s.step chip com .access = some s') :
    SerialStage com divisor u₀ calls s' ∧
      (s'.got ++ s'.uart.rbr).Sublist (s.got ++ s.uart.rbr) ∧ s'.work com < s.work com := by
  cases h with
  | starting k hk htodo hinit hkept =>
    obtain ⟨w, hw, hinit', hkept', hrbr, hthr, htsr⟩ := serialInit_write chip com hk hinit hkept
    rw [hw, List.cons_append] at htodo
    rw [step_out htodo hstep]
    refine ⟨?_, hrbr.append_left s.got, ?_⟩
    rotate_left
    · simp only [SerialSystem.work, htodo, htsr, pendingBytes, List.length_cons]
      split
      · rw [List.length_cons]
        omega
      · omega
    obtain hlt | rfl : k + 1 < 6 ∨ k = 5 := by omega
    · exact .starting (k + 1) hlt rfl hinit' hkept'
    · refine .serving _ hkept'.sent hinit' (.between calls ?_ rfl)
      rw [hkept'.thr (by omega)]
      exact Nat.zero_le 1
  | serving old hold hinit hcalls =>
    obtain ⟨hcalls', hu, hgot, hwork⟩ := hcalls.access hinit.dlab_eq_false hstep
    refine ⟨.serving old hold (hinit.of_registers ?_) hcalls', hgot ▸ List.Sublist.refl _, hwork⟩
    rw [hu]

theorem SerialStage.step (h : SerialStage com divisor u₀ calls s)
    (hstep : s.step chip com e = some s') :
    SerialStage com divisor u₀ calls s' ∧
      (s'.got ++ s'.uart.rbr).Sublist (s.got ++ s.uart.rbr ++ arrivals [e]) := by
  obtain rfl | ha := eq_or_ne e .access
  · rw [show arrivals [.access] = [] from rfl, List.append_nil]
    obtain ⟨hstage, hgot, -⟩ := h.access hstep
    exact ⟨hstage, hgot⟩
  obtain rfl | hs := eq_or_ne e .spin
  · rw [h.spin hstep]
    exact ⟨h, List.sublist_append_left _ _⟩
  · obtain ⟨htodo, hgot, hm⟩ := step_device hstep ha hs
    refine ⟨h.device htodo hm, ?_⟩
    rw [hgot, List.append_assoc]
    exact hm.rbr.append_left s.got

theorem arrivals_append (es es' : List SerialEvent) :
    arrivals (es ++ es') = arrivals es ++ arrivals es' := by
  induction es with
  | nil => rfl
  | cons e es ih => cases e <;> simp [arrivals, ih]

/-- The system before `serial_init` and the calls behind it. -/
def serialStart (com divisor : BitVec 16) (u₀ : Uart) (calls : List SerialCall) : SerialSystem :=
  ⟨u₀, serialInit com divisor ++ callAccesses com calls, []⟩

theorem serialStage_start :
    SerialStage com divisor u₀ calls (serialStart com divisor u₀ calls) := by
  refine .starting 0 (by omega) rfl ?_ ⟨List.prefix_refl _, by omega⟩
  exact ⟨rfl, by omega, by omega, by omega, by omega, by omega⟩

theorem serialRun
    (hrun : Runs (SerialSystem.step chip com) (serialStart com divisor u₀ calls) es s) :
    SerialStage com divisor u₀ calls s ∧
      (s.got ++ s.uart.rbr).Sublist (u₀.rbr ++ arrivals es) := by
  refine hrun.induct (I := fun es s => SerialStage com divisor u₀ calls s ∧
    (s.got ++ s.uart.rbr).Sublist (u₀.rbr ++ arrivals es)) ⟨serialStage_start, ?_⟩ ?_
  · exact List.sublist_append_left _ _
  · intro es m e m' ⟨hstage, hsub⟩ hstep
    obtain ⟨hstage', hsub'⟩ := hstage.step hstep
    refine ⟨hstage', hsub'.trans ?_⟩
    rw [arrivals_append, ← List.append_assoc]
    exact hsub.append_right _

theorem Serving.pending {total : List (BitVec 8)} {todo : List Access} {u : Uart}
    (h : Serving com total todo u) :
    u.sent ++ pendingBytes com todo = total ∧ u.thr.length ≤ 1 := by
  cases h with
  | between calls hthr hsent =>
    rw [pendingBytes_callAccesses]
    exact ⟨hsent, hthr⟩
  | writing c calls hthr hsent =>
    rw [pendingBytes, if_pos rfl, pendingBytes_callAccesses, hthr]
    exact ⟨hsent, Nat.zero_le 1⟩
  | reading calls hthr hrbr hsent =>
    rw [show pendingBytes com (.input com :: callAccesses com calls) =
      pendingBytes com (callAccesses com calls) from rfl, pendingBytes_callAccesses]
    exact ⟨hsent, hthr⟩

theorem highByte_append_lowByte (divisor : BitVec 16) :
    highByte divisor ++ lowByte divisor = divisor := by
  refine BitVec.eq_of_getLsbD_eq fun i hi => ?_
  unfold highByte lowByte
  rw [BitVec.getLsbD_append, BitVec.getLsbD_setWidth, BitVec.getLsbD_setWidth,
    BitVec.getLsbD_ushiftRight]
  split
  · rename_i hlow
    simp [hlow]
  · rename_i hhigh
    rw [show 8 + (i - 8) = i by omega, decide_eq_true (show i - 8 < 8 by omega), Bool.true_and]

/-- The high byte of the divisor is never written. -/
theorem Initialised.divisor_iff {u : Uart} (h : Initialised divisor u₀ 6 u) :
    u.divisor = divisor ↔ u₀.dlm = highByte divisor := by
  unfold Uart.divisor
  rw [h.dlm, h.dll (by omega)]
  have hinj : u₀.dlm ++ lowByte divisor = highByte divisor ++ lowByte divisor ↔
      u₀.dlm = highByte divisor := BitVec.append_left_inj (lowByte divisor)
  rwa [highByte_append_lowByte] at hinj

/-- Once `serial_init` is over, the bytes sent and the bytes still to write make up what the calls
    write. -/
theorem SerialStage.sends (h : SerialStage com divisor u₀ calls s) :
    ∃ old, old <+: u₀.sent ∧ s.uart.line <+: old ++ SerialCall.written calls ∧
      (s.todo.length ≤ (callAccesses com calls).length →
        s.uart.sent ++ pendingBytes com s.todo = old ++ SerialCall.written calls ∧
        s.uart.thr.length ≤ 1 ∧ Initialised divisor u₀ 6 s.uart) := by
  have hline : s.uart.line <+: s.uart.sent := by
    unfold Uart.sent
    rw [List.append_assoc]
    exact List.prefix_append _ _
  cases h with
  | starting k hk htodo hinit hkept =>
    refine ⟨u₀.sent, List.prefix_refl _, ?_, fun hlen => ?_⟩
    · exact (hline.trans hkept.sent).trans (List.prefix_append _ _)
    · have hsix : (serialInit com divisor).length = 6 := rfl
      rw [htodo, List.length_append, List.length_drop] at hlen
      omega
  | serving old hold hinit hcalls =>
    obtain ⟨hsent, hthr⟩ := hcalls.pending
    refine ⟨old, hold, ?_, fun _ => ⟨hsent, hthr, hinit⟩⟩
    rw [← hsent]
    exact hline.trans (List.prefix_append _ _)

/-- In every state of every run. -/
theorem serial_inOrder
    (hrun : Runs (SerialSystem.step chip com) (serialStart com divisor u₀ calls) es s) :
    ∃ old, old <+: u₀.sent ∧ s.uart.line <+: old ++ SerialCall.written calls ∧
      (s.got ++ s.uart.rbr).Sublist (u₀.rbr ++ arrivals es) ∧
      (s.todo.length ≤ (callAccesses com calls).length →
        s.uart.sent ++ pendingBytes com s.todo = old ++ SerialCall.written calls ∧
        s.uart.thr.length ≤ 1 ∧ s.uart.lcr = 0x03 ∧ s.uart.mcr = 0x0B ∧
        (s.uart.divisor = divisor ↔ u₀.dlm = highByte divisor)) := by
  obtain ⟨hstage, hgot⟩ := serialRun hrun
  obtain ⟨old, hold, hline, hcalls⟩ := hstage.sends
  refine ⟨old, hold, hline, hgot, fun hlen => ?_⟩
  obtain ⟨hsent, hthr, hinit⟩ := hcalls hlen
  exact ⟨hsent, hthr, hinit.lcr (by omega), hinit.mcr (by omega), hinit.divisor_iff⟩

end

def serialCom1 : BitVec 16 := 0x3F8

def serialSpeed115200 : BitVec 16 := 1

/-- A chip that drops a byte written to a full buffer. -/
def droppingChip : Chip := ⟨fun thr _ => thr, 0, fun _ _ => 0⟩

/-- A port in the middle of a byte, its buffers off. -/
def busyUart : Uart := ⟨0, 0, 0, 0x03, 0, false, [], some 0x41, [], []⟩

/-- Two bytes are written and one is read; the second write has to wait. -/
def busyCalls : List SerialCall := [.write 0x6F, .write 0x6B, .read]

def busyEvents : List SerialEvent :=
  List.replicate 6 .access ++ [.access, .access, .spin, .shift, .load, .access, .arrive 0x3F,
    .access, .shift, .load, .access, .access, .shift]

def busyFinal : SerialSystem :=
  ⟨⟨1, 0, 0, 0x03, 0x0B, true, [], none, [0x41, 0x6F, 0x6B], []⟩, [], [0x3F]⟩

theorem busyUart_runs :
    Runs (SerialSystem.step droppingChip serialCom1)
      (serialStart serialCom1 serialSpeed115200 busyUart busyCalls) busyEvents busyFinal := by
  unfold Runs
  decide

theorem serial_inOrder_busyUart :
    ∃ old, old <+: busyUart.sent ∧ busyFinal.uart.line <+: old ++ [0x6F, 0x6B] ∧
      (busyFinal.got ++ busyFinal.uart.rbr).Sublist [0x3F] ∧
      busyFinal.uart.sent = old ++ [0x6F, 0x6B] ∧
      (busyFinal.uart.divisor = serialSpeed115200 ↔ busyUart.dlm = 0) := by
  obtain ⟨old, hold, hline, hgot, hdone⟩ := serial_inOrder busyUart_runs
  obtain ⟨hsent, -, -, -, hdivisor⟩ := hdone (Nat.zero_le _)
  exact ⟨old, hold, hline, hgot, hsent, hdivisor⟩

end Utero.Drivers
