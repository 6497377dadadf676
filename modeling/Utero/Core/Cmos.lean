/-
  The real-time clock: `src/core/cmos.c`.

  The chip keeps its own time: `history t reg` is the content of CMOS register `reg` at tick `t`,
  where a tick is one port access of the program. Between two accesses any registers may change,
  the status registers too. The low seven bits of the byte last sent to the command port select
  the register that the data port shows; bit 7 switches the NMI off.

  `cmos_read_rtc` reads the eight time registers, one after the other, until two passes in a row
  give the same values. `readUntilEqual` is that part of it; it hands over the last two passes
  with the tick at which each starts. `readUntilEqual_snapshot`: when it ends, and at most one
  update of the time registers falls into the last two passes, its eight values are those of one
  instant of these passes (`Lib.read_twice`).
-/
import Utero.Lib.DoubleRead
import Utero.Lib.Fuel

namespace Utero.Core

open Utero.Lib

/-! ## The chip -/

abbrev CmosHistory := Nat → BitVec 7 → BitVec 8

/-- The port accesses so far, and the byte last sent to the command port. -/
structure Cmos where
  time : Nat
  command : BitVec 8
  deriving DecidableEq

namespace Cmos

/-- `port_byte_out(CMOS_COMMAND_PORT, data)` -/
def commandOut (s : Cmos) (data : BitVec 8) : Cmos := ⟨s.time + 1, data⟩

/-- `port_byte_in(CMOS_DATA_PORT)` -/
def dataIn (history : CmosHistory) (s : Cmos) : BitVec 8 × Cmos :=
  (history s.time (s.command.setWidth 7), { s with time := s.time + 1 })

end Cmos

/-- The registers of the time, in the order in which they are read. -/
inductive TimeRegister where
  | seconds | minutes | hours | weekdays | day | month | year | century
  deriving DecidableEq

namespace TimeRegister

/-- CMOS_REG_SECONDS to CMOS_REG_CENTURY. -/
def address : TimeRegister → BitVec 8
  | seconds => 0x00
  | minutes => 0x02
  | hours => 0x04
  | weekdays => 0x06
  | day => 0x07
  | month => 0x08
  | year => 0x09
  | century => 0x32

def position : TimeRegister → Nat
  | seconds => 0
  | minutes => 1
  | hours => 2
  | weekdays => 3
  | day => 4
  | month => 5
  | year => 6
  | century => 7

end TimeRegister

def cmosRegStatusA : BitVec 8 := 0x0A

def cmosRegStatusB : BitVec 8 := 0x0B

/-- `cmos_rtc_t` -/
structure CmosRtc where
  seconds : BitVec 8
  minutes : BitVec 8
  hours : BitVec 8
  weekdays : BitVec 8
  day : BitVec 8
  month : BitVec 8
  year : BitVec 16
  century : BitVec 8
  deriving DecidableEq

/-! ## Reading -/

def updateInProgress (history : CmosHistory) (s : Cmos) : Bool × Cmos :=
  let (a, s) := (s.commandOut cmosRegStatusA).dataIn history
  (a &&& 0x80 != 0, s)

def readRegister (history : CmosHistory) (reg : BitVec 8) (s : Cmos) : BitVec 8 × Cmos :=
  (s.commandOut ((1 : BitVec 8) <<< 7 ||| reg)).dataIn history

/-- `while (update_in_progress()) ;` -/
def waitStep (history : CmosHistory) (s : Cmos) : Cmos ⊕ Cmos :=
  let (busy, s) := updateInProgress history s
  if busy then .inl s else .inr s

def waitForUpdate (history : CmosHistory) (fuel : Nat) (s : Cmos) : Option Cmos :=
  loop (waitStep history) fuel s

/-- One pass over the eight registers. -/
def readPass (history : CmosHistory) (s : Cmos) : CmosRtc × Cmos :=
  let (seconds, s) := readRegister history TimeRegister.seconds.address s
  let (minutes, s) := readRegister history TimeRegister.minutes.address s
  let (hours, s) := readRegister history TimeRegister.hours.address s
  let (weekdays, s) := readRegister history TimeRegister.weekdays.address s
  let (day, s) := readRegister history TimeRegister.day.address s
  let (month, s) := readRegister history TimeRegister.month.address s
  let (year, s) := readRegister history TimeRegister.year.address s
  let (century, s) := readRegister history TimeRegister.century.address s
  (⟨seconds, minutes, hours, weekdays, day, month, year.setWidth 16, century⟩, s)

def rtcValuesAreNotEqual (c1 c2 : CmosRtc) : Bool :=
  c1.seconds != c2.seconds || c1.minutes != c2.minutes || c1.hours != c2.hours ||
    c1.weekdays != c2.weekdays || c1.day != c2.day || c1.month != c2.month ||
    c1.year != c2.year || c1.century != c2.century

/-- What a pass read, and the tick at which it started. -/
structure Pass where
  start : Nat
  rtc : CmosRtc
  deriving DecidableEq

/-- The tick of the last access of the pass. -/
def Pass.stop (p : Pass) : Nat := p.start + 15

/-- The `do … while` loop: `last` is the pass before. -/
def readAgain (history : CmosHistory) : Nat → Pass → Cmos → Option (Pass × Pass × Cmos)
  | 0, _, _ => none
  | fuel + 1, last, s =>
    (waitForUpdate history fuel s).bind fun s =>
      let (values, s') := readPass history s
      let rtc : Pass := ⟨s.time, values⟩
      if rtcValuesAreNotEqual rtc.rtc last.rtc then readAgain history fuel rtc s'
      else some (last, rtc, s')

/-- `cmos_read_rtc` up to the end of the loop, with the last two passes. -/
def readUntilEqual (history : CmosHistory) (fuel : Nat) (s : Cmos) :
    Option (Pass × Pass × Cmos) :=
  (waitForUpdate history fuel s).bind fun s =>
    let (values, s') := readPass history s
    readAgain history fuel ⟨s.time, values⟩ s'

/-! ## Decoding -/

/-- `(value & 0x0F) + ((value / 16) * 10)` -/
def bcdToBinary {w : Nat} (value : BitVec w) : BitVec w :=
  (value &&& 0x0F) + value / 16 * 10

/-- What `cmos_read_rtc` makes of the raw values, by the formats in status register B. -/
def decode (regB : BitVec 8) (rtc : CmosRtc) : CmosRtc :=
  let rtc := if regB &&& 0x04 = 0 then
      { seconds := bcdToBinary rtc.seconds
        minutes := bcdToBinary rtc.minutes
        hours := ((rtc.hours &&& 0x0F) + (rtc.hours &&& 0x70) / 16 * 10) ||| (rtc.hours &&& 0x80)
        weekdays := bcdToBinary rtc.weekdays
        day := bcdToBinary rtc.day
        month := bcdToBinary rtc.month
        year := bcdToBinary rtc.year
        century := bcdToBinary rtc.century }
    else rtc
  let rtc := if regB &&& 0x02 = 0 ∧ rtc.hours &&& 0x80 ≠ 0 then
      { rtc with hours := ((rtc.hours &&& 0x7F) + 12) % 24 }
    else rtc
  { rtc with year := rtc.year + rtc.century.setWidth 16 * 100 }

def cmosReadRtc (history : CmosHistory) (fuel : Nat) (s : Cmos) : Option (CmosRtc × Cmos) :=
  (readUntilEqual history fuel s).bind fun (_, rtc, s) =>
    let (regB, s) := readRegister history cmosRegStatusB s
    some (decode regB rtc.rtc, s)

/-! ## The values of a pass -/

/-- The time registers at one tick. -/
def timeRegisters (history : CmosHistory) (t : Nat) (r : TimeRegister) : BitVec 8 :=
  history t (r.address.setWidth 7)

/-- The raw values as `cmos_rtc_t` holds them. -/
def CmosRtc.ofRaw (raw : TimeRegister → BitVec 8) : CmosRtc where
  seconds := raw .seconds
  minutes := raw .minutes
  hours := raw .hours
  weekdays := raw .weekdays
  day := raw .day
  month := raw .month
  year := (raw .year).setWidth 16
  century := raw .century

theorem ofRaw_injective {raw raw' : TimeRegister → BitVec 8}
    (h : CmosRtc.ofRaw raw = CmosRtc.ofRaw raw') (r : TimeRegister) : raw r = raw' r := by
  have hyear : (raw .year).setWidth 16 = (raw' .year).setWidth 16 := congrArg CmosRtc.year h
  cases r with
  | seconds => exact congrArg CmosRtc.seconds h
  | minutes => exact congrArg CmosRtc.minutes h
  | hours => exact congrArg CmosRtc.hours h
  | weekdays => exact congrArg CmosRtc.weekdays h
  | day => exact congrArg CmosRtc.day h
  | month => exact congrArg CmosRtc.month h
  | year =>
    have hnat := congrArg BitVec.toNat hyear
    rw [BitVec.toNat_setWidth, BitVec.toNat_setWidth] at hnat
    refine BitVec.eq_of_toNat_eq ?_
    omega
  | century => exact congrArg CmosRtc.century h

/-- The tick at which a pass reads a register. -/
def readTick (start : Nat) (r : TimeRegister) : Nat := start + 2 * r.position + 1

theorem readTick_bounds (start : Nat) (r : TimeRegister) :
    start ≤ readTick start r ∧ readTick start r ≤ start + 15 := by
  have hposition : r.position ≤ 7 := by
    cases r <;> decide
  unfold readTick
  omega

/-- Bit 7 of the command is not part of the register number. -/
theorem readRegister_eq (history : CmosHistory) (r : TimeRegister) (s : Cmos) :
    readRegister history r.address s =
      (timeRegisters history (s.time + 1) r, ⟨s.time + 2, (1 : BitVec 8) <<< 7 ||| r.address⟩) := by
  have hselect : ((1 : BitVec 8) <<< 7 ||| r.address).setWidth 7 = r.address.setWidth 7 := by
    cases r <;> decide
  unfold timeRegisters
  rw [← hselect]
  rfl

theorem readPass_eq (history : CmosHistory) (s : Cmos) :
    readPass history s =
      (CmosRtc.ofRaw fun r => timeRegisters history (readTick s.time r) r,
        ⟨s.time + 16, (1 : BitVec 8) <<< 7 ||| TimeRegister.century.address⟩) := by
  unfold readPass
  simp only [readRegister_eq]
  rfl

theorem rtcValuesAreNotEqual_eq_false {c1 c2 : CmosRtc} :
    rtcValuesAreNotEqual c1 c2 = false ↔ c1 = c2 := by
  unfold rtcValuesAreNotEqual
  cases c1
  cases c2
  simp [and_assoc]

/-- A poll takes two accesses and reads the flag, bit 7 of status register A. -/
theorem waitStep_eq (history : CmosHistory) (s : Cmos) :
    waitStep history s =
      if (history (s.time + 1) (cmosRegStatusA.setWidth 7) &&& 0x80 != 0) = true then
        .inl ⟨s.time + 2, cmosRegStatusA⟩
      else .inr ⟨s.time + 2, cmosRegStatusA⟩ := rfl

theorem waitForUpdate_time {history : CmosHistory} {fuel : Nat} {s s' : Cmos}
    (h : waitForUpdate history fuel s = some s') : s.time ≤ s'.time := by
  have hyields := ((loop_fuelMono (waitStep history) s).returns h).yields
  clear h
  induction hyields with
  | exit hstep =>
    rw [waitStep_eq] at hstep
    split at hstep
    · cases hstep
    · cases hstep
      exact Nat.le_add_right _ 2
  | again hstep _ ih =>
    rw [waitStep_eq] at hstep
    split at hstep
    · cases hstep
      exact Nat.le_of_add_right_le ih
    · cases hstep

/-! ## The last two passes -/

/-- A pass that read what the registers held, each at its own tick. -/
def Pass.Reads (history : CmosHistory) (p : Pass) : Prop :=
  p.rtc = CmosRtc.ofRaw fun r => timeRegisters history (readTick p.start r) r

theorem readPass_reads (history : CmosHistory) (s : Cmos) :
    Pass.Reads history ⟨s.time, (readPass history s).1⟩ := by
  unfold Pass.Reads
  rw [readPass_eq]

/-- Two passes, one behind the other, that read the same values. -/
structure Agree (history : CmosHistory) (last rtc : Pass) : Prop where
  lastReads : last.Reads history
  rtcReads : rtc.Reads history
  behind : last.stop < rtc.start
  equal : rtc.rtc = last.rtc

theorem readAgain_agree {history : CmosHistory} {fuel : Nat} {before last rtc : Pass}
    {s s' : Cmos} (hbefore : before.Reads history) (hstop : before.stop < s.time)
    (h : readAgain history fuel before s = some (last, rtc, s')) : Agree history last rtc := by
  induction fuel generalizing before s with
  | zero => cases h
  | succ fuel ih =>
    rw [readAgain] at h
    obtain ⟨s₁, hwait, hpass⟩ := Option.bind_eq_some_iff.mp h
    have htime := waitForUpdate_time hwait
    have hreads := readPass_reads history s₁
    dsimp only at hpass
    split at hpass
    · refine ih hreads ?_ hpass
      rw [readPass_eq]
      exact Nat.lt_succ_self _
    · rename_i hequal
      have hsame := rtcValuesAreNotEqual_eq_false.mp (Bool.not_eq_true _ ▸ hequal)
      cases hpass
      exact ⟨hbefore, hreads, Nat.lt_of_lt_of_le hstop htime, hsame⟩

theorem readUntilEqual_agree {history : CmosHistory} {fuel : Nat} {s s' : Cmos}
    {last rtc : Pass} (h : readUntilEqual history fuel s = some (last, rtc, s')) :
    Agree history last rtc := by
  obtain ⟨s₁, -, hrest⟩ := Option.bind_eq_some_iff.mp h
  refine readAgain_agree (readPass_reads history s₁) ?_ hrest
  rw [readPass_eq]
  exact Nat.lt_succ_self _

/-- At most one update in the last two passes, wherever it falls: the values are those of one
    instant of these passes. -/
theorem readUntilEqual_snapshot {history : CmosHistory} {fuel : Nat} {s s' : Cmos}
    {last rtc : Pass} (h : readUntilEqual history fuel s = some (last, rtc, s'))
    (hone : UpdatesOnce (timeRegisters history) last.start rtc.stop) :
    ∃ t, last.start ≤ t ∧ t ≤ rtc.stop ∧ rtc.rtc = CmosRtc.ofRaw (timeRegisters history t) := by
  obtain ⟨hlast, hrtc, hbehind, hequal⟩ := readUntilEqual_agree h
  unfold Pass.stop at hbehind hone ⊢
  unfold Pass.Reads at hlast hrtc
  have hsame : ∀ r, timeRegisters history (readTick rtc.start r) r =
      timeRegisters history (readTick last.start r) r := by
    refine ofRaw_injective ?_
    rw [← hrtc, ← hlast, hequal]
  have hfrom : ∀ r, last.start ≤ readTick last.start r := fun r => (readTick_bounds _ r).1
  have hto : ∀ r, readTick rtc.start r ≤ rtc.start + 15 := fun r => (readTick_bounds _ r).2
  have horder : ∀ r r', readTick last.start r < readTick rtc.start r' := by
    intro r r'
    have hr := (readTick_bounds last.start r).2
    have hr' := (readTick_bounds rtc.start r').1
    omega
  obtain ⟨t, htfrom, htto, hread⟩ := read_twice (by omega) hfrom horder hto hone hsame
  refine ⟨t, htfrom, htto, ?_⟩
  rw [hrtc]
  exact congrArg CmosRtc.ofRaw (funext hread)

/-- 12:30:15, and 12:30:16 from tick 22 on: the seconds change right after they were read for
    the second time. -/
def tickingHistory : CmosHistory := fun t reg =>
  if reg = 0x00 then (if t < 22 then 0x15 else 0x16)
  else if reg = 0x02 then 0x30
  else if reg = 0x04 then 0x12
  else 0

theorem tickingHistory_quiet {t : Nat} (ht : t ≠ 21) :
    timeRegisters tickingHistory (t + 1) = timeRegisters tickingHistory t := by
  have hside : t + 1 < 22 ↔ t < 22 := by omega
  funext r
  unfold timeRegisters tickingHistory
  simp only [hside]

theorem readUntilEqual_snapshot_ticking :
    ∃ t, 2 ≤ t ∧ t ≤ 35 ∧ (⟨0x15, 0x30, 0x12, 0, 0, 0, 0, 0⟩ : CmosRtc) =
      CmosRtc.ofRaw (timeRegisters tickingHistory t) := by
  have hrun : readUntilEqual tickingHistory 3 ⟨0, 0⟩ =
      some (⟨2, 0x15, 0x30, 0x12, 0, 0, 0, 0, 0⟩, ⟨20, 0x15, 0x30, 0x12, 0, 0, 0, 0, 0⟩,
        ⟨36, 0xB2⟩) := by decide
  refine readUntilEqual_snapshot hrun fun t u _ _ _ _ hchange hchange' => ?_
  have ht : t = 21 := by
    by_contra hne
    exact hchange (tickingHistory_quiet hne)
  have hu : u = 21 := by
    by_contra hne
    exact hchange' (tickingHistory_quiet hne)
  rw [ht, hu]

end Utero.Core
