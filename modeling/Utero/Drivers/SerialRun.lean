/-
  `serial_printf` from the format to the line.

  Every access and every step of the transmitter brings the run closer to its end
  (`SerialSystem.work`), and as long as a byte is not on the line one of them is possible: the
  driver waits only while the transmitter has a byte. So a run has a bounded number of steps
  besides those in which the driver waits, whatever their order, and it ends with the whole text
  on the line (`serialPrintf_line`).
-/
import Utero.Libk.Text
import Utero.Drivers.Serial

namespace Utero.Drivers

open Utero.Lib
open Utero.Libk (Arg Fault Write deviceScreen putchark vprintfk takeArgs parse ShortStrings
  formatted vprintfk_formatted sampleFormat)

/-- The accesses of an output; `screen_write` does not reach the port. -/
def writeAccesses : Write → List Access
  | .screen _ => []
  | .serial com c => serialWrite com c

/-- `serial_printf`; the port is an `int` for `vprintfk`. -/
def serialPrintf (fuel : Nat) (com : BitVec 16) (format : CString) (args : List Arg)
    (sVal : Buffer) : Option (Except Fault (List Arg × List Write)) :=
  vprintfk fuel (com.setWidth 32) format args sVal

/-- The events in which the driver or the transmitter does something. -/
def SerialEvent.progress : SerialEvent → Bool
  | .access | .load | .shift => true
  | .spin | .arrive _ => false

/-- Everything is on the line. -/
structure SerialSystem.Idle (s : SerialSystem) : Prop where
  todo : s.todo = []
  thr : s.uart.thr = []
  tsr : s.uart.tsr = none

/-- Such an event is possible. -/
def SerialSystem.GoesOn (chip : Chip) (com : BitVec 16) (s : SerialSystem) : Prop :=
  ∃ e, e.progress = true ∧ (s.step chip com e).isSome = true

section

variable {chip : Chip} {com divisor : BitVec 16} {u₀ : Uart} {calls : List SerialCall}
  {s s' : SerialSystem} {e : SerialEvent} {es : List SerialEvent}

/-! ## The end of a run -/

theorem work_device (h : s.step chip com e = some s') (ha : e ≠ .access) (hs : e ≠ .spin) :
    s'.work com + e.progress.toNat ≤ s.work com := by
  cases e with
  | access => exact absurd rfl ha
  | spin => exact absurd rfl hs
  | load =>
    simp only [SerialSystem.step] at h
    split at h
    · rename_i c thr htsr hthr
      cases h
      simp [SerialSystem.work, SerialEvent.progress, htsr, hthr]
      omega
    · cases h
  | shift =>
    simp only [SerialSystem.step] at h
    split at h
    · rename_i c htsr
      cases h
      simp [SerialSystem.work, SerialEvent.progress, htsr]
    · cases h
  | arrive c =>
    cases h
    have hkept : (s.uart.receive c).thr = s.uart.thr ∧ (s.uart.receive c).tsr = s.uart.tsr := by
      unfold Uart.receive
      split
      · exact ⟨rfl, rfl⟩
      split <;> exact ⟨rfl, rfl⟩
    simp [SerialSystem.work, SerialEvent.progress, hkept]

theorem SerialStage.work_step (h : SerialStage com divisor u₀ calls s)
    (hstep : s.step chip com e = some s') : s'.work com + e.progress.toNat ≤ s.work com := by
  obtain rfl | ha := eq_or_ne e .access
  · obtain ⟨-, -, hwork⟩ := h.access hstep
    exact hwork
  obtain rfl | hs := eq_or_ne e .spin
  · rw [h.spin hstep]
    exact le_refl _
  · exact work_device hstep ha hs

theorem work_run
    (hrun : Runs (SerialSystem.step chip com) (serialStart com divisor u₀ calls) es s) :
    s.work com + es.countP SerialEvent.progress ≤ (serialStart com divisor u₀ calls).work com := by
  refine (hrun.induct (I := fun es s => SerialStage com divisor u₀ calls s ∧
    s.work com + es.countP SerialEvent.progress ≤ (serialStart com divisor u₀ calls).work com)
    ⟨serialStage_start, ?_⟩ ?_).2
  · exact le_refl _
  · intro es m e m' ⟨hstage, hle⟩ hstep
    refine ⟨(hstage.step hstep).1, ?_⟩
    have hwork := hstage.work_step hstep
    rw [List.countP_append, List.countP_singleton]
    cases he : e.progress <;> simp_all <;> omega

theorem step_todo (h : s.step chip com e = some s') : s'.todo <:+ s.todo := by
  obtain rfl | ha := eq_or_ne e .access
  · simp only [SerialSystem.step] at h
    split at h
    · cases h
    · rename_i w todo htodo
      cases h
      exact htodo ▸ List.suffix_cons _ _
    · rename_i port mask todo htodo
      split at h
      · cases h
      · cases h
        exact htodo ▸ List.suffix_cons _ _
    · rename_i port todo htodo
      cases h
      exact htodo ▸ List.suffix_cons _ _
  obtain rfl | hs := eq_or_ne e .spin
  · simp only [SerialSystem.step] at h
    split at h
    · split at h
      · cases h
        exact List.suffix_refl _
      · cases h
    · cases h
  · obtain ⟨htodo, -⟩ := step_device h ha hs
    rw [htodo]

/-- The transmitter does not stop before its buffers are empty. -/
theorem transmitter_goesOn (chip : Chip) (com : BitVec 16)
    (h : ¬ (s.uart.thr = [] ∧ s.uart.tsr = none)) :
    s.GoesOn chip com := by
  cases htsr : s.uart.tsr with
  | some c =>
    refine ⟨.shift, rfl, ?_⟩
    simp only [SerialSystem.step, htsr, Option.isSome_some]
  | none =>
    obtain ⟨c, thr, hthr⟩ := List.exists_cons_of_ne_nil fun hthr => h ⟨hthr, htsr⟩
    refine ⟨.load, rfl, ?_⟩
    simp only [SerialSystem.step, htsr, hthr, Option.isSome_some]

theorem out_goesOn (chip : Chip) (com : BitVec 16) {w : Core.PortWrite} {todo : List Access}
    (htodo : s.todo = .out w :: todo) : s.GoesOn chip com := by
  refine ⟨.access, rfl, ?_⟩
  simp only [SerialSystem.step, htodo, Option.isSome_some]

/-- A driver that does not wait for a byte to arrive never waits in vain. -/
theorem SerialStage.goesOn (chip : Chip) (h : SerialStage com divisor u₀ calls s)
    (hwrites : .await (serialLineStatusPort com) 1 ∉ s.todo) (hidle : ¬ s.Idle) :
    s.GoesOn chip com := by
  cases h with
  | starting k hk htodo hinit hkept =>
    obtain ⟨w, hw, -⟩ := serialInit_write chip com hk hinit hkept
    rw [hw, List.cons_append] at htodo
    exact out_goesOn chip com htodo
  | serving old hold hinit hcalls =>
    generalize htodo : s.todo = todo at hcalls
    cases hcalls with
    | between calls hthr hsent =>
      cases calls with
      | nil =>
        refine transmitter_goesOn chip com fun hempty => hidle ⟨htodo, hempty.1, hempty.2⟩
      | cons call calls =>
        cases call with
        | write c =>
          have htodo : s.todo = .await (serialLineStatusPort com) 0x20 :: .out ⟨com, c⟩ ::
            callAccesses com calls := htodo
          by_cases hempty : s.uart.thr = []
          · refine ⟨.access, rfl, ?_⟩
            have hstatus : ¬ s.uart.lineStatus &&& 0x20 = 0 := by
              rw [lineStatus_transmit, not_not]
              exact hempty
            rw [step_await htodo, if_neg hstatus, Option.isSome_some]
          · exact transmitter_goesOn chip com fun h => hempty h.1
        | read =>
          refine absurd ?_ hwrites
          rw [htodo]
          exact List.mem_cons_self
    | writing c calls => exact out_goesOn chip com htodo
    | reading calls hthr hrbr =>
      obtain ⟨c, rbr, hcons⟩ := List.exists_cons_of_ne_nil hrbr
      refine ⟨.access, rfl, ?_⟩
      rw [step_input htodo hinit.dlab_eq_false hcons, Option.isSome_some]

/-! ## `serial_printf` -/

theorem callAccesses_writes (com : BitVec 16) (cs : List (BitVec 8)) :
    callAccesses com (cs.map .write) = (cs.map (.serial com)).flatMap writeAccesses := by
  unfold callAccesses
  rw [List.flatMap_map, List.flatMap_map]
  rfl

theorem written_writes (cs : List (BitVec 8)) : SerialCall.written (cs.map .write) = cs := by
  induction cs with
  | nil => rfl
  | cons c cs ih => rw [List.map_cons, SerialCall.written, ih]

theorem putchark_serial (hcom : com ≠ 0) : putchark (com.setWidth 32) = .serial com := by
  have hwidth : (com.setWidth 32).toNat = com.toNat := by
    rw [BitVec.toNat_setWidth]
    exact Nat.mod_eq_of_lt (Nat.lt_trans com.isLt (by decide))
  have hpos : deviceScreen.slt (com.setWidth 32) = true := by
    have hne : com.toNat ≠ 0 := fun h => hcom (BitVec.eq_of_toNat_eq h)
    have hlt := com.isLt
    have hint : (com.setWidth 32).toInt = com.toNat := by
      rw [BitVec.toInt_eq_toNat_of_lt (by omega), hwidth]
    rw [BitVec.slt_iff_toInt_lt, hint, show deviceScreen.toInt = 0 from rfl]
    omega
  have hback : (com.setWidth 32).setWidth 16 = com :=
    BitVec.setWidth_setWidth_of_le com (by decide)
  funext c
  unfold putchark
  rw [if_pos hpos, hback]

theorem await_received_notMem (com divisor : BitVec 16) (cs : List (BitVec 8)) :
    .await (serialLineStatusPort com) 1 ∉
      serialInit com divisor ++ callAccesses com (cs.map .write) := by
  simp [serialInit, callAccesses, SerialCall.accesses, serialWrite]

theorem work_start (com divisor : BitVec 16) (u₀ : Uart) (cs : List (BitVec 8)) :
    (serialStart com divisor u₀ (cs.map .write)).work com ≤
      10 + 4 * cs.length + (2 * u₀.thr.length + u₀.tsr.toList.length) := by
  have hlen : (callAccesses com (cs.map .write)).length = 2 * cs.length := by
    induction cs with
    | nil => rfl
    | cons c cs ih =>
      rw [List.map_cons, callAccesses_cons, List.length_append, ih, List.length_cons]
      show 2 + 2 * cs.length = 2 * (cs.length + 1)
      omega
  have hpending : (pendingBytes com (serialInit com divisor ++
      callAccesses com (cs.map .write))).length = 2 + cs.length := by
    simp [serialInit, pendingBytes, serialLineCommandPort, serialDataPort, serialFifoCommandPort,
      serialModemCommandPort, pendingBytes_callAccesses, written_writes]
    omega
  simp only [SerialSystem.work, serialStart]
  rw [hpending, List.length_append, hlen, show (serialInit com divisor).length = 6 from rfl]
  omega

end

/-- `serial_printf` after `serial_init`, from any state of the port. In every state of every run
    the line carries a part of the text from its start on, behind bytes from before. The steps in
    which something happens are bounded in number, and until the whole text is on the line one of
    them is possible. -/
theorem serialPrintf_line {com : BitVec 16} (hcom : com ≠ 0) {format : CString}
    (hlen : format.bytes.length < 2 ^ 32 - 2) {args rest : List Arg}
    (hargs : takeArgs (parse format.bytes) args = some rest) (hstr : ShortStrings args)
    (sVal : Buffer) :
    ∃ out, Returns (fun n => serialPrintf n com format args sVal) (.ok (rest, out)) ∧
      ∀ chip divisor u₀ es s, Runs (SerialSystem.step chip com)
          ⟨u₀, serialInit com divisor ++ out.flatMap writeAccesses, []⟩ es s →
        ∃ old, old <+: u₀.sent ∧ s.uart.line <+: old ++ formatted format args ∧
          es.countP SerialEvent.progress ≤ 10 + 4 * (formatted format args).length +
            (2 * u₀.thr.length + u₀.tsr.toList.length) ∧
          (s.Idle → s.uart.line = old ++ formatted format args) ∧
          (¬ s.Idle → s.GoesOn chip com) := by
  have hout := vprintfk_formatted hlen hargs hstr (com.setWidth 32) sVal
  rw [putchark_serial hcom] at hout
  refine ⟨_, hout, fun chip divisor u₀ es s hrun => ?_⟩
  rw [← callAccesses_writes] at hrun
  have hrun : Runs (SerialSystem.step chip com)
    (serialStart com divisor u₀ ((formatted format args).map .write)) es s := hrun
  obtain ⟨hstage, -⟩ := serialRun hrun
  obtain ⟨old, hold, hline, hdone⟩ := hstage.sends
  rw [written_writes] at hline hdone
  refine ⟨old, hold, hline, ?_, fun hidle => ?_, fun hidle => ?_⟩
  · have hwork := work_run hrun
    have hstart := work_start com divisor u₀ (formatted format args)
    omega
  · obtain ⟨hsent, -⟩ := hdone (by rw [hidle.todo]; exact Nat.zero_le _)
    rw [hidle.todo] at hsent
    simpa [Uart.sent, hidle.thr, hidle.tsr, pendingBytes] using hsent
  · have hsuffix : s.todo <:+ serialInit com divisor ++
        callAccesses com ((formatted format args).map .write) :=
      hrun.invariant (I := fun s => s.todo <:+ serialInit com divisor ++
        callAccesses com ((formatted format args).map .write)) (List.suffix_refl _)
        fun m e m' hm hstep => (step_todo hstep).trans hm
    exact hstage.goesOn chip (fun hmem => await_received_notMem com divisor _ (hsuffix.subset hmem))
      hidle

/-- "x%3d%" with 7 on the first port. -/
theorem serialPrintf_line_com1 :
    ∃ out, Returns (fun n => serialPrintf n serialCom1 sampleFormat [.int 7] fun _ => 0)
        (.ok ([], out)) ∧
      ∀ chip u₀ es s, Runs (SerialSystem.step chip serialCom1)
          ⟨u₀, serialInit serialCom1 serialSpeed115200 ++ out.flatMap writeAccesses, []⟩ es s →
        s.Idle → ∃ old, old <+: u₀.sent ∧
          s.uart.line = old ++ formatted sampleFormat [.int 7] := by
  obtain ⟨out, hret, hruns⟩ := serialPrintf_line (show serialCom1 ≠ 0 by decide)
    (show sampleFormat.bytes.length < 2 ^ 32 - 2 by decide)
    (show takeArgs (parse sampleFormat.bytes) [.int 7] = some [] from rfl)
    (fun s hs => by simp at hs) fun _ => 0
  refine ⟨out, hret, fun chip u₀ es s hrun hidle => ?_⟩
  obtain ⟨old, hold, -, -, hline, -⟩ := hruns chip serialSpeed115200 u₀ es s hrun
  exact ⟨old, hold, hline hidle⟩

end Utero.Drivers
