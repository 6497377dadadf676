/-
  `timer_init` of `src/core/timer.c` and the 8254 it programs.

  A command selects a channel, the bytes of the count that will follow and the mode; with both
  bytes the low one comes first. A count of 0 stands for 65536. `timer_init` divides in `int` and
  writes the two low bytes of the quotient, so the channel gets the quotient modulo 65536.

  `timerInit_rate_iff`: from any state of the 8254, the count that channel 0 gets is the one for
  the requested frequency if and only if that is from 19 to 1193180.
-/
import Mathlib.Logic.Function.Basic
import Mathlib.Tactic.Linarith
import Utero.Core.InterruptFrame

namespace Utero.Core

/-! ## The 8254 -/

structure PitChannel where
  /-- The bytes a count is written in: 1 the low one, 2 the high one, 3 both. -/
  access : BitVec 2
  mode : BitVec 3
  bcd : Bool
  /-- The low byte, when the high one is still to come. -/
  low : Option (BitVec 8)
  /-- No count has been written since the command. -/
  reload : Option (BitVec 16)

abbrev Pit := Fin 3 → PitChannel

namespace PitChannel

def writeData (ch : PitChannel) (v : BitVec 8) : PitChannel :=
  if ch.access = 1 then { ch with reload := some (0#8 ++ v) }
  else if ch.access = 2 then { ch with reload := some (v ++ 0#8) }
  else match ch.low with
    | none => { ch with low := some v }
    | some low => { ch with low := none, reload := some (v ++ low) }

/-- The clock pulses in a period. -/
def count (ch : PitChannel) : Option Nat :=
  ch.reload.map fun r => if r = 0 then 65536 else r.toNat

end PitChannel

namespace Pit

/-- The channel with this number. -/
def channel? : Nat → Option (Fin 3)
  | 0 => some 0
  | 1 => some 1
  | 2 => some 2
  | _ => none

/-- Channel 3 is the read-back command, and access 0 latches a count for reading. -/
def writeCommand (pit : Pit) (v : BitVec 8) : Pit :=
  match channel? (v.extractLsb' 6 2).toNat with
  | some k =>
    if v.extractLsb' 4 2 = 0 then pit
    else
      Function.update pit k ⟨v.extractLsb' 4 2, v.extractLsb' 1 3, v.getLsbD 0, none, none⟩
  | none => pit

/-- `port_byte_out` -/
def portByteOut (pit : Pit) (w : PortWrite) : Pit :=
  if w.port = 0x43 then pit.writeCommand w.value
  else match channel? (w.port - 0x40).toNat with
    | some k => Function.update pit k ((pit k).writeData w.value)
    | none => pit

end Pit

/-! ## `timer_init` -/

/-- The port writes; a division by zero faults. -/
def timerInitPorts (freq : BitVec 32) : Option (List PortWrite) :=
  if freq = 0 then none
  else
    let divisor := (1193180 : BitVec 32).sdiv freq
    some [⟨0x43, 0x36⟩, ⟨0x40, (divisor &&& 0xff).setWidth 8⟩,
      ⟨0x40, (divisor.sshiftRight 8).setWidth 8⟩]

def pitChannel0 : Fin 3 := 0

/-- With `n` pulses of the clock in a period, `freq` is the frequency as near as it can be. -/
def Rate (freq n : Int) : Prop := n * freq ≤ 1193180 ∧ 1193180 < (n + 1) * freq

theorem bytes_append (divisor : BitVec 32) :
    (divisor.sshiftRight 8).setWidth 8 ++ (divisor &&& 0xff).setWidth 8 = divisor.setWidth 16 := by
  have hlow : (divisor &&& 0xff).setWidth 8 = divisor.setWidth 8 := by
    rw [BitVec.setWidth_and]
    exact BitVec.and_allOnes
  refine BitVec.eq_of_getLsbD_eq fun i hi => ?_
  rw [hlow, BitVec.getLsbD_append, BitVec.getLsbD_setWidth, BitVec.getLsbD_setWidth,
    BitVec.getLsbD_setWidth, BitVec.getLsbD_sshiftRight]
  split
  · rename_i h
    simp [h, hi]
  · rw [show 8 + (i - 8) = i by omega]
    simp [hi, show i - 8 < 8 by omega, show i < 32 by omega, show i - 8 < 32 by omega]

theorem portByteOut_mode (pit : Pit) :
    pit.portByteOut ⟨0x43, 0x36⟩ =
      Function.update pit pitChannel0 ⟨3, 3, false, none, none⟩ := by
  unfold Pit.portByteOut
  rw [if_pos rfl]
  rfl

theorem portByteOut_channel0 (pit : Pit) (v : BitVec 8) :
    pit.portByteOut ⟨0x40, v⟩ =
      Function.update pit pitChannel0 ((pit pitChannel0).writeData v) := by
  unfold Pit.portByteOut
  have hchannel : Pit.channel? ((0x40 : BitVec 16) - 0x40).toNat = some pitChannel0 := rfl
  simp only [hchannel]
  rw [if_neg (show ¬ (0x40 : BitVec 16) = 0x43 by decide)]

/-- What the three writes leave: channel 0 counts from the low 16 bits of the quotient, and the
    other channels are as they were. -/
theorem timerInit_channel (pit : Pit) {freq : BitVec 32} (hfreq : freq ≠ 0) :
    ∃ ports, timerInitPorts freq = some ports ∧
      ports.foldl Pit.portByteOut pit = Function.update pit pitChannel0
        ⟨3, 3, false, none, some (((1193180 : BitVec 32).sdiv freq).setWidth 16)⟩ := by
  unfold timerInitPorts
  rw [if_neg hfreq]
  refine ⟨_, rfl, ?_⟩
  simp only [List.foldl_cons, List.foldl_nil, portByteOut_mode, portByteOut_channel0,
    Function.update_self, Function.update_idem, ← bytes_append]
  rfl

/-! ## The frequency -/

/-- The quotient, and the count that is left of it. -/
theorem reload_toNat (freq : BitVec 32) :
    ((((1193180 : BitVec 32).sdiv freq).setWidth 16).toNat : Int) =
      ((1193180 : Int).tdiv freq.toInt) % 65536 := by
  have hdiv : ((1193180 : BitVec 32).sdiv freq).toInt = (1193180 : Int).tdiv freq.toInt :=
    BitVec.toInt_sdiv_of_ne_or_ne _ _ (Or.inl (by decide))
  rw [← hdiv, BitVec.toNat_setWidth, BitVec.toInt_eq_toNat_cond]
  split <;> omega

theorem rate_iff {f d n : Int} (hd : d = (1193180 : Int).tdiv f) (hf : f ≠ 0)
    (hn : n = if d % 65536 = 0 then 65536 else d % 65536) :
    Rate f n ↔ 19 ≤ f ∧ f ≤ 1193180 := by
  have hrange : 0 < n ∧ n ≤ 65536 := by
    split at hn <;> omega
  unfold Rate
  by_cases hneg : f < 0
  · refine iff_of_false (fun h => ?_) (by omega)
    nlinarith
  have hquot : d * f ≤ 1193180 ∧ 1193180 < (d + 1) * f := by
    have hdiv : d = 1193180 / f := by rw [hd, Int.tdiv_eq_ediv_of_nonneg (by decide)]
    have hmod := Int.emod_nonneg 1193180 hf
    have hlt := Int.emod_lt_of_pos 1193180 (show 0 < f by omega)
    have hsum := Int.emod_add_mul_ediv 1193180 f
    rw [← hdiv] at hsum
    constructor <;> nlinarith
  constructor
  · intro ⟨hle, hlt⟩
    by_contra hout
    obtain hslow | hfast : f ≤ 18 ∨ 1193180 < f := by omega
    · have hlarge : 66287 ≤ d := by nlinarith
      nlinarith
    · nlinarith
  · intro ⟨hlow, hhigh⟩
    have hd : 0 < d ∧ d < 65536 := by
      constructor <;> nlinarith
    have : n = d := by
      rw [Int.emod_eq_of_lt (by omega) hd.2, if_neg (by omega)] at hn
      exact hn
    rw [this]
    exact hquot

/-- From any state of the 8254, for every frequency that does not fault. -/
theorem timerInit_rate_iff (pit : Pit) (freq : BitVec 32) (hfreq : freq ≠ 0) :
    ∃ ports n, timerInitPorts freq = some ports ∧
      (ports.foldl Pit.portByteOut pit pitChannel0).mode = 3 ∧
      (ports.foldl Pit.portByteOut pit pitChannel0).bcd = false ∧
      (ports.foldl Pit.portByteOut pit pitChannel0).count = some n ∧
      (∀ k, k ≠ pitChannel0 → ports.foldl Pit.portByteOut pit k = pit k) ∧
      (Rate freq.toInt n ↔ 19 ≤ freq.toInt ∧ freq.toInt ≤ 1193180) := by
  obtain ⟨ports, hports, hpit⟩ := timerInit_channel pit hfreq
  have hreload := reload_toNat freq
  generalize ((1193180 : BitVec 32).sdiv freq).setWidth 16 = r at hpit hreload
  refine ⟨ports, if r = 0 then 65536 else r.toNat, hports, ?_⟩
  rw [hpit, Function.update_self]
  refine ⟨rfl, rfl, rfl, fun k hk => Function.update_of_ne hk _ _, ?_⟩
  refine rate_iff rfl (fun h => hfreq (BitVec.eq_of_toInt_eq h)) ?_
  rw [← hreload]
  by_cases hzero : r = 0
  · rw [if_pos hzero, hzero]
    rfl
  · have hpos : (r.toNat : Int) ≠ 0 := by
      intro h
      exact hzero (BitVec.eq_of_toNat_eq (Int.natCast_eq_zero.mp h))
    rw [if_neg hzero, if_neg hpos]

/-- The 50 Hz of `kmain`, on a channel that waits for a high byte. -/
theorem timerInit_rate_iff_50 :
    ∃ ports n, timerInitPorts 50 = some ports ∧
      (ports.foldl Pit.portByteOut (fun _ => ⟨3, 2, true, some 0, none⟩) pitChannel0).count =
        some n ∧ Rate 50 n := by
  obtain ⟨ports, n, hports, -, -, hcount, -, hrate⟩ :=
    timerInit_rate_iff (fun _ => ⟨3, 2, true, some 0, none⟩) 50 (by decide)
  exact ⟨ports, n, hports, hcount, hrate.mpr (by decide)⟩

end Utero.Core
