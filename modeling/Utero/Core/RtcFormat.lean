/-
  What `cmos_read_rtc` makes of the time that the clock shows.

  Status register B selects the format of the time registers: BCD unless bit 2 is set, and a
  12-hour clock unless bit 1 is set, with the hours 1 to 12 and bit 7 for the afternoon
  (`CalendarTime.encode`). `Stable` says that the registers hold the encoding of one time
  throughout, and that the flag "update in progress" is not set for ever.

  `cmosReadRtc_stable`: then `cmos_read_rtc` ends with the decoding of that encoding. The decoding
  is right (`cmosReadRtc_iff`) except for the hours of midnight and noon on the 12-hour clock:
  12 AM is left at 12, and 12 PM becomes 0.
-/
import Utero.Core.Cmos

namespace Utero.Core

open Utero.Lib

/-! ## The encoding -/

structure CalendarTime where
  seconds : Nat
  minutes : Nat
  hours : Nat
  weekdays : Nat
  day : Nat
  month : Nat
  /-- The last two digits. -/
  year : Nat
  century : Nat
  seconds_lt : seconds < 60
  minutes_lt : minutes < 60
  hours_lt : hours < 24
  weekdays_bounds : 1 ≤ weekdays ∧ weekdays ≤ 7
  day_bounds : 1 ≤ day ∧ day ≤ 31
  month_bounds : 1 ≤ month ∧ month ≤ 12
  year_lt : year < 100
  century_lt : century < 100

/-- Bit 2 of status register B. -/
def binaryFormat (regB : BitVec 8) : Bool := regB.getLsbD 2

/-- Bit 1 of status register B. -/
def hours24 (regB : BitVec 8) : Bool := regB.getLsbD 1

/-- One decimal digit in each half of the byte. -/
def bcdByte (n : Nat) : BitVec 8 := BitVec.ofNat 8 (n / 10 * 16 + n % 10)

def encodeByte (regB : BitVec 8) (n : Nat) : BitVec 8 :=
  if binaryFormat regB then BitVec.ofNat 8 n else bcdByte n

/-- The hour on a clock with 12 hours: midnight and noon are 12. -/
def clockHour (hours : Nat) : Nat := if hours % 12 = 0 then 12 else hours % 12

def encodeHours (regB : BitVec 8) (hours : Nat) : BitVec 8 :=
  if hours24 regB then encodeByte regB hours
  else encodeByte regB (clockHour hours) ||| (if 12 ≤ hours then 0x80 else 0)

/-- The time registers in the format of status register B. -/
def CalendarTime.encode (t : CalendarTime) (regB : BitVec 8) : TimeRegister → BitVec 8
  | .seconds => encodeByte regB t.seconds
  | .minutes => encodeByte regB t.minutes
  | .hours => encodeHours regB t.hours
  | .weekdays => encodeByte regB t.weekdays
  | .day => encodeByte regB t.day
  | .month => encodeByte regB t.month
  | .year => encodeByte regB t.year
  | .century => encodeByte regB t.century

/-- The registers hold the encoding of `t` at every tick. From every tick on, some poll of status
    register A finds that no update is in progress. -/
structure Stable (history : CmosHistory) (t : CalendarTime) (regB : BitVec 8) : Prop where
  time : ∀ tick r, timeRegisters history tick r = t.encode regB r
  statusB : ∀ tick, history tick (cmosRegStatusB.setWidth 7) = regB
  ready : ∀ tick, ∃ k, history (tick + 2 * k) (cmosRegStatusA.setWidth 7) &&& 0x80 = 0

/-! ## The run -/

section Run

variable {history : CmosHistory} {t : CalendarTime} {regB : BitVec 8}

/-- The wait ends with the first poll that finds the flag clear. -/
theorem waitForUpdate_returns (h : Stable history t regB) (s : Cmos) :
    ∃ s', Returns (fun n => waitForUpdate history n s) s' := by
  obtain ⟨k, hk⟩ := h.ready (s.time + 1)
  have hyields : ∃ s', Yields (waitStep history) s s' := by
    induction k generalizing s with
    | zero =>
      rw [Nat.mul_zero, Nat.add_zero] at hk
      refine ⟨⟨s.time + 2, cmosRegStatusA⟩, Yields.exit ?_⟩
      rw [waitStep_eq, hk]
      rfl
    | succ k ih =>
      by_cases hbusy : (history (s.time + 1) (cmosRegStatusA.setWidth 7) &&& 0x80 != 0) = true
      · obtain ⟨s', hs'⟩ := ih ⟨s.time + 2, cmosRegStatusA⟩ (by
          rw [show s.time + 2 + 1 + 2 * k = s.time + 1 + 2 * (k + 1) by omega]
          exact hk)
        refine ⟨s', Yields.again ?_ hs'⟩
        rw [waitStep_eq, if_pos hbusy]
      · refine ⟨⟨s.time + 2, cmosRegStatusA⟩, Yields.exit ?_⟩
        rw [waitStep_eq, if_neg hbusy]
  obtain ⟨s', hs'⟩ := hyields
  exact ⟨s', hs'.returns⟩

theorem readPass_stable (h : Stable history t regB) (s : Cmos) :
    (readPass history s).1 = CmosRtc.ofRaw (t.encode regB) := by
  rw [readPass_eq]
  exact congrArg CmosRtc.ofRaw (funext fun r => h.time _ r)

/-- A pass that reads the same values as the one before is the last. -/
theorem readAgain_returns {last : Pass} {s s' : Cmos}
    (hwait : Returns (fun n => waitForUpdate history n s) s')
    (hequal : rtcValuesAreNotEqual (readPass history s').1 last.rtc = false) :
    Returns (fun n => readAgain history n last s)
      (last, ⟨s'.time, (readPass history s').1⟩, (readPass history s').2) := by
  obtain ⟨n, hn⟩ := hwait
  refine ⟨n + 1, fun m hm => ?_⟩
  obtain ⟨k, rfl⟩ : ∃ k, m = k + 1 := ⟨m - 1, by omega⟩
  have hrun : waitForUpdate history k s = some s' := hn k (by omega)
  show readAgain history (k + 1) last s = _
  rw [readAgain, hrun, Option.bind_some]
  dsimp only
  rw [hequal]
  rfl

/-- The second pass finds what the first one found. -/
theorem readUntilEqual_stable (h : Stable history t regB) (s : Cmos) :
    ∃ last rtc s', Returns (fun n => readUntilEqual history n s) (last, rtc, s') ∧
      rtc.rtc = CmosRtc.ofRaw (t.encode regB) := by
  obtain ⟨s₁, hfirst⟩ := waitForUpdate_returns h s
  obtain ⟨s₂, hsecond⟩ := waitForUpdate_returns h (readPass history s₁).2
  have hequal : rtcValuesAreNotEqual (readPass history s₂).1 (readPass history s₁).1 = false := by
    rw [rtcValuesAreNotEqual_eq_false, readPass_stable h, readPass_stable h]
  have hagain : Returns (fun n => readAgain history n ⟨s₁.time, (readPass history s₁).1⟩
      (readPass history s₁).2) _ := readAgain_returns hsecond hequal
  have hret := hfirst.bind (g := fun (s : Cmos) n =>
    readAgain history n ⟨s.time, (readPass history s).1⟩ (readPass history s).2) hagain
  exact ⟨_, _, _, hret, readPass_stable h s₂⟩

theorem cmosReadRtc_stable (h : Stable history t regB) (s : Cmos) :
    ∃ s', Returns (fun n => cmosReadRtc history n s)
      (decode regB (CmosRtc.ofRaw (t.encode regB)), s') := by
  obtain ⟨last, rtc, s₁, hret, hrtc⟩ := readUntilEqual_stable h s
  have hselect : ((1 : BitVec 8) <<< 7 ||| cmosRegStatusB).setWidth 7 =
      cmosRegStatusB.setWidth 7 := by decide
  have hread : (readRegister history cmosRegStatusB s₁).1 = regB := by
    rw [← h.statusB (s₁.time + 1), ← hselect]
    rfl
  refine ⟨(readRegister history cmosRegStatusB s₁).2, ?_⟩
  rw [← hrtc, ← hread]
  exact hret.bind (returns_const _)

end Run

/-! ## The decoding -/

theorem binaryFormat_iff (regB : BitVec 8) : regB &&& 0x04 = 0 ↔ binaryFormat regB = false := by
  revert regB
  decide

theorem hours24_iff (regB : BitVec 8) : regB &&& 0x02 = 0 ↔ hours24 regB = false := by
  revert regB
  decide

theorem bcdToBinary_bcdByte : ∀ n < 100, bcdToBinary (bcdByte n) = BitVec.ofNat 8 n := by
  decide

theorem bcdToBinary_bcdByte_wide :
    ∀ n < 100, bcdToBinary ((bcdByte n).setWidth 16) = BitVec.ofNat 16 n := by
  decide

/-- A byte that is decoded like the seconds. -/
def decodeByte (regB value : BitVec 8) : BitVec 8 :=
  if regB &&& 0x04 = 0 then bcdToBinary value else value

theorem decodeByte_encodeByte (regB : BitVec 8) {n : Nat} (hn : n < 100) :
    (decodeByte regB (encodeByte regB n)).toNat = n := by
  have hto : (BitVec.ofNat 8 n).toNat = n := by
    rw [BitVec.toNat_ofNat]
    omega
  unfold decodeByte encodeByte
  cases hformat : binaryFormat regB with
  | false =>
    rw [if_pos ((binaryFormat_iff regB).mpr hformat), if_neg Bool.false_ne_true,
      bcdToBinary_bcdByte n hn, hto]
  | true =>
    rw [if_neg (by rw [binaryFormat_iff, hformat]; decide), if_pos rfl, hto]

/-- The hour byte. -/
def decodeHours (regB value : BitVec 8) : BitVec 8 :=
  let hours := if regB &&& 0x04 = 0 then
      ((value &&& 0x0F) + (value &&& 0x70) / 16 * 10) ||| (value &&& 0x80)
    else value
  if regB &&& 0x02 = 0 ∧ hours &&& 0x80 ≠ 0 then ((hours &&& 0x7F) + 12) % 24 else hours

def decodeYear (regB : BitVec 8) (year : BitVec 16) (century : BitVec 8) : BitVec 16 :=
  (if regB &&& 0x04 = 0 then bcdToBinary year else year) +
    (decodeByte regB century).setWidth 16 * 100

theorem decode_eq (regB : BitVec 8) (rtc : CmosRtc) :
    decode regB rtc =
      { seconds := decodeByte regB rtc.seconds
        minutes := decodeByte regB rtc.minutes
        hours := decodeHours regB rtc.hours
        weekdays := decodeByte regB rtc.weekdays
        day := decodeByte regB rtc.day
        month := decodeByte regB rtc.month
        year := decodeYear regB rtc.year rtc.century
        century := decodeByte regB rtc.century } := by
  unfold decode decodeYear decodeHours decodeByte
  by_cases hbcd : regB &&& 0x04 = 0
  · simp only [if_pos hbcd]
    split <;> rfl
  · simp only [if_neg hbcd]
    split <;> rfl

/-- On the 12-hour clock midnight is decoded as 12 and noon as 0. -/
theorem decodeHours_encodeHours (regB : BitVec 8) :
    ∀ h < 24, (decodeHours regB (encodeHours regB h)).toNat = h ↔
      hours24 regB = true ∨ h % 12 ≠ 0 := by
  unfold decodeHours encodeHours encodeByte
  simp only [binaryFormat_iff, hours24_iff]
  cases binaryFormat regB <;> cases hours24 regB <;> decide

theorem decodeYear_encodeByte (regB : BitVec 8) {year century : Nat} (hyear : year < 100)
    (hcentury : century < 100) :
    (decodeYear regB ((encodeByte regB year).setWidth 16) (encodeByte regB century)).toNat =
      century * 100 + year := by
  have hlow : (if regB &&& 0x04 = 0 then bcdToBinary ((encodeByte regB year).setWidth 16)
      else (encodeByte regB year).setWidth 16).toNat = year := by
    unfold encodeByte
    cases hformat : binaryFormat regB with
    | false =>
      rw [if_pos ((binaryFormat_iff regB).mpr hformat), if_neg Bool.false_ne_true,
        bcdToBinary_bcdByte_wide year hyear, BitVec.toNat_ofNat]
      omega
    | true =>
      rw [if_neg (by rw [binaryFormat_iff, hformat]; decide), if_pos rfl, BitVec.toNat_setWidth,
        BitVec.toNat_ofNat]
      omega
  have hhigh := decodeByte_encodeByte regB hcentury
  rw [decodeYear, BitVec.toNat_add, hlow, BitVec.toNat_mul, BitVec.toNat_setWidth, hhigh,
    show (100 : BitVec 16).toNat = 100 from rfl]
  omega

/-- The time that `cmos_read_rtc` returns is `t`. -/
structure CalendarTime.Shown (t : CalendarTime) (rtc : CmosRtc) : Prop where
  hours : rtc.hours.toNat = t.hours
  minutes : rtc.minutes.toNat = t.minutes
  seconds : rtc.seconds.toNat = t.seconds
  day : rtc.day.toNat = t.day
  month : rtc.month.toNat = t.month
  year : rtc.year.toNat = t.century * 100 + t.year

theorem shown_decode_iff (t : CalendarTime) (regB : BitVec 8) :
    t.Shown (decode regB (CmosRtc.ofRaw (t.encode regB))) ↔
      hours24 regB = true ∨ t.hours % 12 ≠ 0 := by
  have hhours := decodeHours_encodeHours regB t.hours t.hours_lt
  have hmonth := t.month_bounds.2
  have hday := t.day_bounds.2
  rw [decode_eq]
  constructor
  · intro hshown
    exact hhours.mp hshown.hours
  · intro hcond
    exact
      { hours := hhours.mpr hcond
        minutes := decodeByte_encodeByte regB (Nat.lt_trans t.minutes_lt (by decide))
        seconds := decodeByte_encodeByte regB (Nat.lt_trans t.seconds_lt (by decide))
        day := decodeByte_encodeByte regB (by omega)
        month := decodeByte_encodeByte regB (by omega)
        year := decodeYear_encodeByte regB t.year_lt t.century_lt }

/-- If the registers stably hold the encoding of a time, `cmos_read_rtc` ends, and it returns that
    time exactly unless the clock has 12 hours and shows midnight or noon. -/
theorem cmosReadRtc_iff {history : CmosHistory} {t : CalendarTime} {regB : BitVec 8}
    (h : Stable history t regB) (s : Cmos) :
    (∃ rtc s', Returns (fun n => cmosReadRtc history n s) (rtc, s') ∧ t.Shown rtc) ↔
      hours24 regB = true ∨ t.hours % 12 ≠ 0 := by
  obtain ⟨s', hret⟩ := cmosReadRtc_stable h s
  rw [← shown_decode_iff]
  constructor
  · rintro ⟨rtc, s'', hret', hshown⟩
    cases hret'.unique hret
    exact hshown
  · intro hshown
    exact ⟨_, s', hret, hshown⟩

/-- A clock that stands still. -/
def frozenHistory (t : CalendarTime) (regB : BitVec 8) : CmosHistory := fun _ reg =>
  if reg = cmosRegStatusA.setWidth 7 then 0
  else if reg = cmosRegStatusB.setWidth 7 then regB
  else if reg = TimeRegister.seconds.address.setWidth 7 then t.encode regB .seconds
  else if reg = TimeRegister.minutes.address.setWidth 7 then t.encode regB .minutes
  else if reg = TimeRegister.hours.address.setWidth 7 then t.encode regB .hours
  else if reg = TimeRegister.weekdays.address.setWidth 7 then t.encode regB .weekdays
  else if reg = TimeRegister.day.address.setWidth 7 then t.encode regB .day
  else if reg = TimeRegister.month.address.setWidth 7 then t.encode regB .month
  else if reg = TimeRegister.year.address.setWidth 7 then t.encode regB .year
  else t.encode regB .century

theorem stable_frozenHistory (t : CalendarTime) (regB : BitVec 8) :
    Stable (frozenHistory t regB) t regB where
  time tick r := by
    cases r <;> rfl
  statusB tick := rfl
  ready tick := by
    refine ⟨0, ?_⟩
    show (0 : BitVec 8) &&& 0x80 = 0
    decide

/-- Half past nine in the evening of 31 December 1999. -/
def evening : CalendarTime :=
  ⟨0, 30, 21, 6, 31, 12, 99, 19, by decide, by decide, by decide, by decide, by decide, by decide,
    by decide, by decide⟩

theorem cmosReadRtc_iff_evening :
    (∃ rtc s', Returns (fun n => cmosReadRtc (frozenHistory evening 0) n ⟨0, 0⟩) (rtc, s') ∧
      evening.Shown rtc) ↔ hours24 0 = true ∨ evening.hours % 12 ≠ 0 :=
  cmosReadRtc_iff (stable_frozenHistory evening 0) ⟨0, 0⟩

/-- The first second of 2000, on the BCD clock with 12 hours. -/
def midnight : CalendarTime :=
  ⟨0, 0, 0, 7, 1, 1, 0, 20, by decide, by decide, by decide, by decide, by decide, by decide,
    by decide, by decide⟩

/-- 12 AM is read as 12 o'clock. -/
theorem cmosReadRtc_midnight :
    Stable (frozenHistory midnight 0) midnight 0 ∧
      ¬ ∃ rtc s', Returns (fun n => cmosReadRtc (frozenHistory midnight 0) n ⟨0, 0⟩) (rtc, s') ∧
        midnight.Shown rtc := by
  have hstable := stable_frozenHistory midnight 0
  refine ⟨hstable, fun ⟨rtc, s', hret, hshown⟩ => ?_⟩
  obtain ⟨s'', hret'⟩ := cmosReadRtc_stable hstable ⟨0, 0⟩
  cases hret.unique hret'
  exact absurd hshown.hours (by decide)

end Utero.Core
