/-
  Numerals: numbers as strings of digit characters.

  `numeral b n` is the numeral of `n` in base `b`, the highest digit first, with the characters
  '0' to '9' and 'a' on. `readNumeral b cs` reads a string back: it fails on the empty string and
  on a character that is not a digit of the base. `readInt` allows a '-' in front. A string is
  the numeral of a number (`IsNumeral`) if it reads back and has no leading zero, and a numeral
  padded to a width (`IsPaddedInt`) if it reads back and has no more zeros in front than that.

  Nothing here depends on a program.
-/
import Mathlib.Data.Nat.Digits.Lemmas

namespace Utero.Lib

/-! ## Digits -/

/-- The character of a digit below 36. -/
def digitByte (d : Nat) : BitVec 8 := BitVec.ofNat 8 (if d < 10 then 48 + d else 87 + d)

/-- The digit that a character stands for in base `b`. -/
def digitValue (b : Nat) (c : BitVec 8) : Option Nat :=
  if 48 ≤ c.toNat ∧ c.toNat ≤ 57 ∧ c.toNat - 48 < b then some (c.toNat - 48)
  else if 97 ≤ c.toNat ∧ c.toNat ≤ 122 ∧ c.toNat - 87 < b then some (c.toNat - 87)
  else none

theorem digitByte_toNat {d : Nat} (hd : d < 36) :
    (digitByte d).toNat = if d < 10 then 48 + d else 87 + d := by
  unfold digitByte
  rw [BitVec.toNat_ofNat, Nat.mod_eq_of_lt]
  split <;> omega

theorem digitByte_ne_zero {d : Nat} (hd : d < 36) : digitByte d ≠ 0 := by
  have hto := digitByte_toNat hd
  intro hzero
  rw [hzero, show (0 : BitVec 8).toNat = 0 from rfl] at hto
  split at hto <;> omega

theorem digitValue_digitByte {b d : Nat} (hd : d < b) (hb : b ≤ 36) :
    digitValue b (digitByte d) = some d := by
  have hto := digitByte_toNat (Nat.lt_of_lt_of_le hd hb)
  unfold digitValue
  by_cases hten : d < 10
  · rw [if_pos hten] at hto
    rw [hto, if_pos (by omega), Nat.add_sub_cancel_left]
  · rw [if_neg hten] at hto
    rw [hto, if_neg (by omega), if_pos (by omega), Nat.add_sub_cancel_left]

theorem digitValue_zero {b : Nat} (hb : 0 < b) : digitValue b 48 = some 0 := by
  unfold digitValue
  rw [if_pos ⟨by decide, by decide, hb⟩]
  rfl

/-! ## Reading -/

/-- The digits `cs`, read behind digits of value `acc`. -/
def readDigits (b : Nat) : List (BitVec 8) → Nat → Option Nat
  | [], acc => some acc
  | c :: cs, acc => (digitValue b c).bind fun d => readDigits b cs (acc * b + d)

def readNumeral (b : Nat) (cs : List (BitVec 8)) : Option Nat :=
  if cs = [] then none else readDigits b cs 0

/-- A decimal number, with '-' in front if it is negative. -/
def readInt : List (BitVec 8) → Option Int
  | [] => none
  | c :: cs =>
    if c = 45 then (readNumeral 10 cs).map fun n => -(n : Int)
    else (readNumeral 10 (c :: cs)).map fun n => (n : Int)

/-- What is left without a '-' in front. -/
def unsignedPart (cs : List (BitVec 8)) : List (BitVec 8) :=
  if cs.head? = some 45 then cs.tail else cs

/-- The string reads back as `n`, and starts with '0' only if it is "0". -/
structure IsNumeral (b : Nat) (cs : List (BitVec 8)) (n : Nat) : Prop where
  reads : readNumeral b cs = some n
  canonical : cs.head? = some 48 → cs = [48]

/-- The string reads back as `v`, with leading zeros only up to the width `w`. -/
structure IsPaddedInt (w : Nat) (cs : List (BitVec 8)) (v : Int) : Prop where
  reads : readInt cs = some v
  padding : (unsignedPart cs).head? = some 48 → unsignedPart cs = [48] ∨ cs.length ≤ w

theorem digitValue_lt {b d : Nat} {c : BitVec 8} (h : digitValue b c = some d) : d < b := by
  unfold digitValue at h
  split at h
  · cases h
    omega
  · split at h
    · cases h
      omega
    · cases h

theorem readDigits_append (b : Nat) (cs ds : List (BitVec 8)) (acc : Nat) :
    readDigits b (cs ++ ds) acc = (readDigits b cs acc).bind (readDigits b ds) := by
  induction cs generalizing acc with
  | nil => rfl
  | cons c cs ih =>
    rw [List.cons_append, readDigits, readDigits]
    cases digitValue b c with
    | none => rfl
    | some d => exact ih (acc * b + d)

/-- A character that is no digit spoils the string. -/
theorem readNumeral_eq_none {b : Nat} {cs : List (BitVec 8)} {c : BitVec 8} (hc : c ∈ cs)
    (hbad : digitValue b c = none) : readNumeral b cs = none := by
  have hdigits : ∀ acc, readDigits b cs acc = none := by
    induction cs with
    | nil => cases hc
    | cons e cs ih =>
      intro acc
      rw [readDigits]
      rcases List.mem_cons.mp hc with rfl | hc
      · rw [hbad]
        rfl
      · cases digitValue b e with
        | none => rfl
        | some d => exact ih hc _
  unfold readNumeral
  rw [hdigits 0, ite_self]

/-- A numeral has no sign. -/
theorem head_ne_minus {cs : List (BitVec 8)} {n : Nat} (h : readNumeral 10 cs = some n) :
    cs.head? ≠ some 45 := by
  intro hhead
  rw [readNumeral_eq_none (List.mem_of_mem_head? hhead) (by decide)] at h
  cases h

theorem readInt_of_head {cs : List (BitVec 8)} (h : cs.head? ≠ some 45) :
    readInt cs = (readNumeral 10 cs).map fun n => (n : Int) := by
  cases cs with
  | nil => rfl
  | cons c cs =>
    rw [readInt, if_neg fun hc => h (by rw [hc]; rfl)]

theorem readInt_eq_none {cs : List (BitVec 8)} {c : BitVec 8} (hc : c ∈ cs) (hminus : c ≠ 45)
    (hbad : digitValue 10 c = none) : readInt cs = none := by
  cases cs with
  | nil => cases hc
  | cons e cs =>
    rw [readInt, readNumeral_eq_none hc hbad]
    split
    · rename_i he
      have htail : c ∈ cs := by
        rcases List.mem_cons.mp hc with rfl | hc
        · exact absurd he hminus
        · exact hc
      rw [readNumeral_eq_none htail hbad]
      rfl
    · rfl

/-- Zeros in front of the sign. -/
theorem readInt_zeros_minus (k : Nat) (cs : List (BitVec 8)) :
    readInt (List.replicate (k + 1) 48 ++ 45 :: cs) = none := by
  have hmem : 45 ∈ List.replicate (k + 1) 48 ++ 45 :: cs :=
    List.mem_append_right _ (List.mem_cons_self ..)
  have hhead : (List.replicate (k + 1) 48 ++ 45 :: cs).head? = some 48 := rfl
  rw [readInt_of_head (by rw [hhead]; decide), readNumeral_eq_none hmem (by decide)]
  rfl

/-- Leading zeros do not matter. -/
theorem readNumeral_zeros {b : Nat} (hb : 0 < b) (k : Nat) {cs : List (BitVec 8)} (hcs : cs ≠ []) :
    readNumeral b (List.replicate k 48 ++ cs) = readNumeral b cs := by
  have hdigits : readDigits b (List.replicate k 48) 0 = some 0 := by
    induction k with
    | zero => rfl
    | succ k ih =>
      rw [List.replicate_succ, readDigits, digitValue_zero hb, Option.bind_some,
        Nat.zero_mul]
      exact ih
  unfold readNumeral
  rw [if_neg (by simp [hcs]), if_neg hcs, readDigits_append, hdigits]
  rfl

/-! ## Numerals -/

def numeral (b n : Nat) : List (BitVec 8) :=
  if n = 0 then [48] else ((Nat.digits b n).map digitByte).reverse

theorem readDigits_reverse {b : Nat} (hb : b ≤ 36) {ds : List Nat} (hds : ∀ d ∈ ds, d < b)
    (acc : Nat) :
    readDigits b (ds.map digitByte).reverse acc =
      some (acc * b ^ ds.length + Nat.ofDigits b ds) := by
  induction ds with
  | nil => simp [readDigits]
  | cons d ds ih =>
    have hd := hds d (List.mem_cons_self ..)
    rw [List.map_cons, List.reverse_cons, readDigits_append,
      ih fun e he => hds e (List.mem_cons_of_mem _ he)]
    simp only [Option.bind_some, readDigits, digitValue_digitByte hd hb, Nat.ofDigits_cons,
      List.length_cons, Nat.pow_succ]
    congr 1
    ring

theorem numeral_ne_nil (b n : Nat) : numeral b n ≠ [] := by
  unfold numeral
  split
  · exact List.cons_ne_nil _ _
  · rename_i hn
    have hdigits := Nat.digits_ne_nil_iff_ne_zero (b := b).mpr hn
    simpa using hdigits

/-- The first digit of a number that is not 0 is not 0. -/
theorem numeral_head {b n : Nat} (hb : 1 < b) (hb36 : b ≤ 36) (hn : n ≠ 0) :
    (numeral b n).head? ≠ some 48 := by
  have hne := Nat.digits_ne_nil_iff_ne_zero (b := b).mpr hn
  have hlast := Nat.getLast_digit_ne_zero b hn
  have hlt := Nat.digits_lt_base hb (List.getLast_mem hne)
  have hto := digitByte_toNat (Nat.lt_of_lt_of_le hlt hb36)
  unfold numeral
  rw [if_neg hn, List.head?_reverse, List.getLast?_map, List.getLast?_eq_some_getLast hne,
    Option.map_some]
  intro heq
  rw [Option.some.inj heq] at hto
  have h48 : (48 : BitVec 8).toNat = 48 := rfl
  split at hto <;> omega

theorem isNumeral_numeral {b : Nat} (hb : 1 < b) (hb36 : b ≤ 36) (n : Nat) :
    IsNumeral b (numeral b n) n := by
  constructor
  · unfold readNumeral
    rw [if_neg (numeral_ne_nil b n)]
    unfold numeral
    split
    · rename_i hn
      rw [readDigits, digitValue_zero (by omega), Option.bind_some, Nat.zero_mul, hn]
      rfl
    · rw [readDigits_reverse hb36 fun d hd => Nat.digits_lt_base hb hd, Nat.zero_mul,
        Nat.zero_add, Nat.ofDigits_digits]
  · intro hhead
    by_cases hn : n = 0
    · rw [numeral, if_pos hn]
    · exact absurd hhead (numeral_head hb hb36 hn)

theorem numeral_length {b n : Nat} (hn : n ≠ 0) :
    (numeral b n).length = (Nat.digits b n).length := by
  rw [numeral, if_neg hn, List.length_reverse, List.length_map]

theorem numeral_length_le_iff {b n k : Nat} (hb : 1 < b) (hk : 0 < k) :
    (numeral b n).length ≤ k ↔ n < b ^ k := by
  unfold numeral
  split
  · rename_i hn
    rw [hn, List.length_singleton]
    exact iff_of_true hk (Nat.pow_pos (by omega))
  · rw [List.length_reverse, List.length_map, Nat.digits_length_le_iff hb]

/-- A numeral with zeros in front, up to the width. -/
theorem isPaddedInt_numeral (w n : Nat) :
    IsPaddedInt w (List.replicate (w - (numeral 10 n).length) 48 ++ numeral 10 n) n := by
  have hnum := isNumeral_numeral (b := 10) (by omega) (by omega) n
  have hreads : readNumeral 10
      (List.replicate (w - (numeral 10 n).length) 48 ++ numeral 10 n) = some n := by
    rw [readNumeral_zeros (by decide) _ (numeral_ne_nil 10 n)]
    exact hnum.reads
  have hhead := head_ne_minus hreads
  constructor
  · rw [readInt_of_head hhead, hreads]
    rfl
  · rw [unsignedPart, if_neg hhead]
    intro hzero
    by_cases hw : w ≤ (numeral 10 n).length
    · rw [Nat.sub_eq_zero_of_le hw, List.replicate_zero, List.nil_append] at hzero ⊢
      exact Or.inl (hnum.canonical hzero)
    · right
      rw [List.length_append, List.length_replicate]
      omega

/-- A negative number needs no zeros. -/
theorem isPaddedInt_minus (w n : Nat) : IsPaddedInt w (45 :: numeral 10 n) (-(n : Int)) := by
  have hnum := isNumeral_numeral (b := 10) (by omega) (by omega) n
  constructor
  · rw [readInt, if_pos rfl, hnum.reads]
    rfl
  · intro hzero
    exact Or.inl (hnum.canonical hzero)

end Utero.Lib
