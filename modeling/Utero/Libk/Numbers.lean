/-
  The numbers that `itoa`, `ulltoa` and `vprintfk` print.

  The digit loops divide by the base (`Divides`): on the values below `bound` the digits stored are
  those of `Nat.digits`, the lowest first, and the reversal makes the numeral of them. For `ulltoa`
  this is every value. For `itoa` it is the values that are not negative as an `int`. A negative
  one leaves the loop after one round, with one character that is not a digit; in base 10 this is
  the least `int` only, because the others are negated before the loop.

  Which numbers read back from the output:
  * `decimal_readsBack_iff`: "%wd", those that are not negative, and the negative ones, without
    the least, that fill the width: the zeros are put in front of the sign.
  * `unsigned_readsBack_iff`: "%u" and "%x", those below 2^31.
  * `long_readsBack_iff`: "%L", those with bit 31 clear.
  * `longHex_readsBack`: "%X", all.
-/
import Utero.Lib.Numeral
import Utero.Libk.Printfk

namespace Utero.Libk

open Utero.Lib

/-! ## The digit loops divide -/

/-- On numbers below `bound` the loop divides by `b`, a base with digits. -/
structure Divides {w : Nat} (rem : BitVec w → BitVec 32) (quot : BitVec w → BitVec w)
    (more : BitVec w → Bool) (b bound : Nat) : Prop where
  one_lt : 1 < b
  le : b ≤ 36
  char : ∀ n, n.toNat < bound → digitChar (rem n) = digitByte (n.toNat % b)
  quot : ∀ n, n.toNat < bound → (quot n).toNat = n.toNat / b
  more : ∀ n, n.toNat < bound → (more n = true ↔ 0 < n.toNat)

section Loop

variable {w : Nat} {rem : BitVec w → BitVec 32} {quot : BitVec w → BitVec w}
  {more : BitVec w → Bool}

/-- The digits of a number, the lowest first. -/
theorem digits_divide {b bound : Nat} (h : Divides rem quot more b bound) {n : BitVec w}
    (hn : n.toNat < bound) (hpos : 0 < n.toNat) (i : Nat) (str : Buffer) :
    Yields (digitsStep rem quot more) (n, i, str)
      (i + (Nat.digits b n.toNat).length,
        writeAt str i ((Nat.digits b n.toNat).map digitByte)) := by
  obtain ⟨m, hm⟩ : ∃ m, m = n.toNat := ⟨_, rfl⟩
  induction m using Nat.strongRecOn generalizing n i str with
  | ind m ih =>
    have hquot := h.quot n hn
    have hless : n.toNat / b < n.toNat := Nat.div_lt_self hpos h.one_lt
    have hmore := h.more (quot n) (by omega)
    rw [Nat.digits_def' h.one_lt hpos, List.map_cons, ← h.char n hn]
    by_cases hzero : n.toNat / b = 0
    · have hstop : more (quot n) = false := by
        rw [← Bool.not_eq_true, hmore]
        omega
      rw [hzero, Nat.digits_zero]
      exact digits_once hstop i str
    · have hrest := ih (n.toNat / b) (by omega) (n := quot n) (by omega) (by omega) (i + 1)
        (Function.update str i (digitChar (rem n))) hquot.symm
      rw [hquot] at hrest
      rw [List.length_cons, show ∀ k, i + (k + 1) = i + 1 + k by omega]
      refine Yields.again ?_ hrest
      simp only [digitsStep]
      rw [if_pos (hmore.mpr (by omega))]

/-- The string of a loop that divides: the numeral, behind the sign. -/
theorem writes_numeral {b bound : Nat} (h : Divides rem quot more b bound) (hw : w < 2 ^ 32)
    {n : BitVec w} (hn : n.toNat < bound) (hpos : 0 < n.toNat) (negative : Bool) :
    Writes (fun fuel str => (loop (digitsStep rem quot more) fuel (n, 0, str)).bind fun r =>
      finish fuel negative r.1 r.2) ((if negative then [45] else []) ++ numeral b n.toNat) := by
  have hdigits : (Nat.digits b n.toNat).length ≤ w := by
    rw [Nat.digits_length_le_iff h.one_lt]
    exact Nat.lt_of_lt_of_le n.isLt (Nat.pow_le_pow_left h.one_lt w)
  have hrun : ∀ str, Yields (digitsStep rem quot more) (n, 0, str)
      (((Nat.digits b n.toNat).map digitByte).length,
        writeAt str 0 ((Nat.digits b n.toNat).map digitByte)) := by
    intro str
    have hloop := digits_divide h hn hpos 0 str
    rw [Nat.zero_add] at hloop
    rw [List.length_map]
    exact hloop
  have hnum : numeral b n.toNat = ((Nat.digits b n.toNat).map digitByte).reverse :=
    if_neg (by omega)
  have hwrites := writes_of_yields ?_ ?_ ?_ hrun negative
  · rw [List.reverse_append] at hwrites
    rw [hnum]
    cases negative with
    | true => exact hwrites
    | false => exact hwrites
  · rw [Ne, List.map_eq_nil_iff, Nat.digits_eq_nil_iff_eq_zero]
    omega
  · intro d hd
    obtain ⟨k, hk, rfl⟩ := List.mem_map.mp hd
    have hlt := Nat.digits_lt_base h.one_lt hk
    exact digitByte_ne_zero (Nat.lt_of_lt_of_le hlt h.le)
  · rw [List.length_map]
    omega

end Loop

theorem digitChar_digitByte : ∀ d < 16, digitChar (BitVec.ofNat 32 d) = digitByte d := by
  decide

theorem itoaBase_toNat {base : BitVec 32} (hbase : base = 10 ∨ base = 16) :
    base.toNat = 10 ∨ base.toNat = 16 := by
  rcases hbase with rfl | rfl
  · exact Or.inl rfl
  · exact Or.inr rfl

theorem divides_itoa {base : BitVec 32} (hbase : base = 10 ∨ base = 16) :
    Divides (fun n => n.srem base) (fun n => n.sdiv base) (fun n => (0 : BitVec 32).slt n)
      base.toNat (2 ^ 31) := by
  have hnat := itoaBase_toNat hbase
  have hmsb : base.msb = false := by
    rw [BitVec.msb_eq_false_iff_two_mul_lt]
    omega
  have hpos : ∀ n : BitVec 32, n.toNat < 2 ^ 31 → n.msb = false := by
    intro n hn
    rw [BitVec.msb_eq_false_iff_two_mul_lt]
    omega
  refine ⟨by omega, by omega, ?_, ?_, ?_⟩
  · intro n hn
    have hlt : n.toNat % base.toNat < 16 := by
      rcases hnat with hb | hb <;> rw [hb] <;> omega
    rw [← digitChar_digitByte _ hlt, BitVec.srem_eq, hpos n hn, hmsb, ← BitVec.toNat_umod,
      BitVec.ofNat_toNat, BitVec.setWidth_eq]
  · intro n hn
    rw [BitVec.sdiv_eq, hpos n hn, hmsb, ← BitVec.toNat_udiv]
    rfl
  · intro n hn
    have hint := BitVec.toInt_eq_toNat_of_msb (hpos n hn)
    rw [BitVec.slt_iff_toInt_lt, hint, show (0 : BitVec 32).toInt = 0 from rfl]
    omega

theorem divides_ulltoa {base : BitVec 64} (hbase : base = 10 ∨ base = 16) :
    Divides (fun n => (n % base).setWidth 32) (fun n => n / base) (fun n => decide (0 < n))
      base.toNat (2 ^ 64) := by
  have hnat := ulltoaBase_toNat hbase
  refine ⟨by omega, by omega, ?_, ?_, ?_⟩
  · intro n _
    have hlt : n.toNat % base.toNat < 16 := by
      rcases hnat with hb | hb <;> rw [hb] <;> omega
    have heq : (n % base).setWidth 32 = BitVec.ofNat 32 (n.toNat % base.toNat) := by
      apply BitVec.eq_of_toNat_eq
      rw [BitVec.toNat_setWidth, BitVec.toNat_ofNat, BitVec.toNat_umod]
    rw [heq]
    exact digitChar_digitByte _ hlt
  · intro n _
    exact BitVec.toNat_udiv
  · intro n _
    rw [decide_eq_true_iff, BitVec.lt_def]
    exact Iff.rfl

/-! ## The strings of `itoa` and `ulltoa` -/

/-- The least `int`, which is its own negation. -/
def intMin : BitVec 32 := BitVec.ofNat 32 (2 ^ 31)

/-- What `itoa` writes in base 10. The digit loop divides -2^31 as it is: the remainder is -8,
    eight characters before '0', and the quotient ends the loop. -/
def decimalString (v : BitVec 32) : List (BitVec 8) :=
  if v.slt 0 then 45 :: (if v = intMin then [40] else numeral 10 (-v).toNat)
  else numeral 10 v.toNat

/-- What `itoa` writes in base 16: one character if the top bit is set. -/
def hexString (v : BitVec 32) : List (BitVec 8) :=
  if v.slt 0 then [digitChar (v.srem 16)] else numeral 16 v.toNat

/-- What `ulltoa` writes in base 10: bit 31 is taken for the sign. -/
def longString (n : BitVec 64) : List (BitVec 8) :=
  if (n.setWidth 32).slt 0 then 45 :: numeral 10 (-n).toNat else numeral 10 n.toNat

theorem slt_zero_iff (v : BitVec 32) : v.slt 0 = true ↔ 2 ^ 31 ≤ v.toNat := by
  rw [BitVec.slt_iff_toInt_lt, BitVec.toInt_eq_toNat_cond, show (0 : BitVec 32).toInt = 0 from rfl]
  have := v.isLt
  split <;> omega

theorem ne_zero_of_negative {v : BitVec 32} (h : v.slt 0 = true) : v ≠ 0 := by
  intro hzero
  rw [hzero] at h
  exact absurd h (by decide)

theorem toNat_neg_negative {v : BitVec 32} (h : v.slt 0 = true) :
    (-v).toNat = 2 ^ 32 - v.toNat := by
  have hlt := v.isLt
  have hge := (slt_zero_iff v).mp h
  rw [BitVec.toNat_neg]
  omega

theorem itoa_of_ne_zero {v base : BitVec 32} (hv : v ≠ 0) (negative : Bool)
    (hneg : (v.slt 0 && decide (base = 10)) = negative) :
    (fun fuel str => itoa fuel v str base) = fun fuel str =>
      (loop (itoaStep base) fuel (if negative then -v else v, 0, str)).bind fun r =>
        finish fuel negative r.1 r.2 := by
  subst hneg
  funext fuel str
  unfold itoa
  rw [if_neg hv]

theorem ulltoa_of_ne_zero {n base : BitVec 64} (hn : n ≠ 0) (negative : Bool)
    (hneg : ((n.setWidth 32).slt 0 && decide (base = 10)) = negative) :
    (fun fuel str => ulltoa fuel n str base) = fun fuel str =>
      (loop (ulltoaStep base) fuel (if negative then -n else n, 0, str)).bind fun r =>
        finish fuel negative r.1 r.2 := by
  subst hneg
  funext fuel str
  unfold ulltoa
  rw [if_neg hn]

theorem toNat_pos_of_ne_zero {w : Nat} {v : BitVec w} (hv : v ≠ 0) : 0 < v.toNat := by
  refine Nat.pos_of_ne_zero fun h => hv (BitVec.eq_of_toNat_eq ?_)
  rw [h]
  exact BitVec.toNat_zero.symm

theorem itoa_nonneg {v base : BitVec 32} (hbase : base = 10 ∨ base = 16)
    (hpos : ¬ v.slt 0 = true) :
    Writes (fun fuel str => itoa fuel v str base) (numeral base.toNat v.toNat) := by
  by_cases hzero : v = 0
  · subst hzero
    exact writes_zeroString
  · have hlt : v.toNat < 2 ^ 31 := by
      rw [slt_zero_iff] at hpos
      omega
    rw [itoa_of_ne_zero hzero false (by rw [eq_false_of_ne_true hpos, Bool.false_and])]
    exact writes_numeral (divides_itoa hbase) (by omega) hlt (toNat_pos_of_ne_zero hzero) false

theorem itoa_decimal (v : BitVec 32) :
    Writes (fun fuel str => itoa fuel v str 10) (decimalString v) := by
  unfold decimalString
  by_cases hneg : v.slt 0 = true
  · rw [if_pos hneg, itoa_of_ne_zero (ne_zero_of_negative hneg) true (by rw [hneg]; rfl)]
    by_cases hmin : v = intMin
    · -- its negation is negative too, so the loop is left after one round
      subst hmin
      rw [if_pos rfl]
      exact writes_of_yields (List.cons_ne_nil 40 []) (by decide) (by decide)
        (fun str => digits_once (by decide) 0 str) true
    · have hge := (slt_zero_iff v).mp hneg
      have hto := toNat_neg_negative hneg
      have hlt := v.isLt
      have hne : v.toNat ≠ 2 ^ 31 := fun heq => hmin (BitVec.eq_of_toNat_eq heq)
      rw [if_neg hmin]
      exact writes_numeral (n := -v) (divides_itoa (Or.inl rfl)) (by omega) (by omega) (by omega)
        true
  · rw [if_neg hneg]
    exact itoa_nonneg (Or.inl rfl) hneg

theorem itoa_hex (v : BitVec 32) :
    Writes (fun fuel str => itoa fuel v str 16) (hexString v) := by
  unfold hexString
  by_cases hneg : v.slt 0 = true
  · have hhalves := halves_itoa (Or.inr rfl)
    have hstop := sdiv_stops (Or.inr rfl) (BitVec.slt_iff_toInt_lt.mp hneg)
    have hrun : ∀ str, Yields (itoaStep 16) (v, 0, str)
        (1, writeAt str 0 [digitChar (v.srem 16)]) :=
      fun str => digits_once (n := v) hstop 0 str
    rw [if_pos hneg, itoa_of_ne_zero (ne_zero_of_negative hneg) false (Bool.and_false _)]
    refine writes_of_yields (List.cons_ne_nil (digitChar (v.srem 16)) []) ?_ ?_ hrun false
    · intro d hd
      rw [List.mem_singleton.mp hd]
      exact hhalves.char v
    · rw [List.length_singleton]
      omega
  · rw [if_neg hneg]
    exact itoa_nonneg (Or.inr rfl) hneg

theorem ulltoa_decimal (n : BitVec 64) :
    Writes (fun fuel str => ulltoa fuel n str 10) (longString n) := by
  unfold longString
  have hdivides := divides_ulltoa (Or.inl rfl)
  by_cases hzero : n = 0
  · subst hzero
    exact writes_zeroString
  · have hpos := toNat_pos_of_ne_zero hzero
    by_cases hneg : (n.setWidth 32).slt 0 = true
    · have hminus : 0 < (-n).toNat := by
        rw [BitVec.toNat_neg]
        have := n.isLt
        omega
      rw [if_pos hneg, ulltoa_of_ne_zero hzero true (by rw [hneg]; rfl)]
      exact writes_numeral (n := -n) hdivides (by omega) (-n).isLt hminus true
    · rw [if_neg hneg, ulltoa_of_ne_zero hzero false
        (by rw [eq_false_of_ne_true hneg, Bool.false_and])]
      exact writes_numeral (n := n) hdivides (by omega) n.isLt hpos false

theorem ulltoa_hex (n : BitVec 64) :
    Writes (fun fuel str => ulltoa fuel n str 16) (numeral 16 n.toNat) := by
  by_cases hzero : n = 0
  · subst hzero
    exact writes_zeroString
  · rw [ulltoa_of_ne_zero hzero false (Bool.and_false _)]
    exact writes_numeral (n := n) (divides_ulltoa (Or.inr rfl)) (by omega) n.isLt
      (toNat_pos_of_ne_zero hzero) false

/-! ## The output of one directive -/

/-- '%' and a conversion character. -/
def plainFormat (c : BitVec 8) (hc : c ≠ 0) : CString where
  bytes := [ascii '%', c]
  noNul b hb := by
    rcases List.mem_cons.mp hb with rfl | hb
    · decide
    · rw [List.mem_singleton.mp hb]
      exact hc

theorem digit_ne_zero : ∀ w : Fin 10, BitVec.ofNat 8 (48 + w) ≠ 0 := by
  decide

/-- '%', the digit `w` and 'd'. -/
def padFormat (w : Fin 10) : CString where
  bytes := [ascii '%', BitVec.ofNat 8 (48 + w), ascii 'd']
  noNul b hb := by
    simp only [List.mem_cons, List.not_mem_nil, or_false] at hb
    rcases hb with rfl | rfl | rfl
    · decide
    · exact digit_ne_zero w
    · decide

/-- `vprintfk` ends on every device, takes all arguments and outputs `text`. -/
def Prints (format : CString) (args : List Arg) (text : List (BitVec 8)) : Prop :=
  ∀ device sVal, Returns (fun n => vprintfk n device format args sVal)
    (.ok ([], text.map (putchark device)))

theorem putchark_injective (device : BitVec 32) : Function.Injective (putchark device) := by
  intro c d h
  unfold putchark at h
  split at h <;> cases h <;> rfl

theorem Prints.unique {format : CString} {args : List Arg} {s t : List (BitVec 8)}
    (hs : Prints format args s) (ht : Prints format args t) : s = t := by
  have heq := (hs 0 fun _ => 0).unique (ht 0 fun _ => 0)
  simp only [Except.ok.injEq, Prod.mk.injEq, true_and] at heq
  exact List.map_injective_iff.mpr (putchark_injective 0) heq

theorem prints_plain {c : BitVec 8} (hc : c ≠ 0) (hdigit : isDigit c = false) {args : List Arg}
    {text : List (BitVec 8)} (h : Outputs 0 (Conv.ofChar c) args text []) :
    Prints (plainFormat c hc) args text := by
  intro device sVal
  have hread := readDirective_eq (plainFormat c hc) (show 2 < 2 ^ 32 - 2 by decide) (p := 0)
    (show 0 < 2 by decide)
  rw [show ((plainFormat c hc).bytes[0 + 1]?).getD 0 = c from rfl, hdigit] at hread
  exact loop_directive (show 0 < 2 by decide) rfl hread h fun _ =>
    loop_done (show ¬ 2 < 2 by decide)

theorem isDigit_pad : ∀ w : Fin 10, isDigit (BitVec.ofNat 8 (48 + w)) = true := by
  decide

theorem leftpad_pad : ∀ w : Fin 10,
    BitVec.ofNat 8 (48 + w) - ascii '0' = BitVec.ofNat 8 w := by
  decide

theorem prints_padded {w : Fin 10} {args : List Arg} {text : List (BitVec 8)}
    (h : Outputs (BitVec.ofNat 8 w) .decimal args text []) : Prints (padFormat w) args text := by
  intro device sVal
  have hread := readDirective_eq (padFormat w) (show 3 < 2 ^ 32 - 2 by decide) (p := 0)
    (show 0 < 3 by decide)
  rw [show ((padFormat w).bytes[0 + 1]?).getD 0 = BitVec.ofNat 8 (48 + w) from rfl,
    isDigit_pad w, leftpad_pad w] at hread
  exact loop_directive (show 0 < 3 by decide) rfl hread h fun _ =>
    loop_done (show ¬ 3 < 3 by decide)

/-! ## Reading the output back -/

theorem toNat_pad (w : Fin 10) : (BitVec.ofNat 8 w).toNat = w := by
  rw [BitVec.toNat_ofNat]
  omega

theorem decimalString_length (v : BitVec 32) : (decimalString v).length < 2 ^ 8 := by
  obtain ⟨s, hlen, hs⟩ := itoa_string v (Or.inl rfl)
  rw [(itoa_decimal v).unique hs]
  omega

theorem prints_decimal (w : Fin 10) (v : BitVec 32) :
    Prints (padFormat w) [.int v]
      (List.replicate (w - (decimalString v).length) 48 ++ decimalString v) := by
  have hout := decimal_outputs (BitVec.ofNat 8 w) v [] (itoa_decimal v) (decimalString_length v)
  rw [toNat_pad] at hout
  exact prints_padded hout

theorem decimalString_nonneg {v : BitVec 32} (h : ¬ v.toInt < 0) :
    decimalString v = numeral 10 v.toNat ∧ v.toInt = v.toNat := by
  have hslt : ¬ v.slt 0 = true := by rwa [BitVec.slt_iff_toInt_lt]
  refine ⟨if_neg hslt, ?_⟩
  rw [slt_zero_iff] at hslt
  exact BitVec.toInt_eq_toNat_of_lt (by omega)

theorem decimalString_negative {v : BitVec 32} (h : v.toInt < 0) (hmin : v ≠ intMin) :
    decimalString v = 45 :: numeral 10 v.toInt.natAbs := by
  have hslt : v.slt 0 = true := by rwa [BitVec.slt_iff_toInt_lt]
  have hto := toNat_neg_negative hslt
  have hge := (slt_zero_iff v).mp hslt
  have hint := BitVec.toInt_eq_toNat_cond v
  have hlt := v.isLt
  rw [decimalString, if_pos hslt, if_neg hmin, show (-v).toNat = v.toInt.natAbs by omega]

/-- The string with the zeros in front. -/
theorem isPaddedInt_decimal_iff (v : BitVec 32) (w : Nat) :
    IsPaddedInt w (List.replicate (w - (decimalString v).length) 48 ++ decimalString v) v.toInt ↔
      0 ≤ v.toInt ∨ (v ≠ intMin ∧ w ≤ (Nat.digits 10 v.toInt.natAbs).length + 1) := by
  by_cases hneg : v.toInt < 0
  · by_cases hmin : v = intMin
    · subst hmin
      refine iff_of_false (fun hpadded => ?_) fun h => ?_
      · have hreads := hpadded.reads
        rw [readInt_eq_none (c := 40) (List.mem_append_right _ (by decide)) (by decide)
          (by decide)] at hreads
        cases hreads
      · rcases h with h | h
        · omega
        · exact h.1 rfl
    · have hstr := decimalString_negative hneg hmin
      have hlen : (decimalString v).length = (Nat.digits 10 v.toInt.natAbs).length + 1 := by
        rw [hstr, List.length_cons, numeral_length (by omega)]
      rw [← hlen]
      by_cases hw : w ≤ (decimalString v).length
      · refine iff_of_true ?_ (Or.inr ⟨hmin, hw⟩)
        rw [Nat.sub_eq_zero_of_le hw, List.replicate_zero, List.nil_append, hstr,
          show v.toInt = -(v.toInt.natAbs : Int) by omega, Int.natAbs_neg, Int.natAbs_natCast]
        exact isPaddedInt_minus w _
      · -- a zero in front of the sign
        refine iff_of_false (fun hpadded => ?_) fun h => ?_
        · have hreads := hpadded.reads
          obtain ⟨k, hk⟩ : ∃ k, w - (decimalString v).length = k + 1 :=
            ⟨w - (decimalString v).length - 1, by omega⟩
          rw [hk, hstr, readInt_zeros_minus] at hreads
          cases hreads
        · rcases h with h | h
          · omega
          · exact hw h.2
  · obtain ⟨hstr, hint⟩ := decimalString_nonneg hneg
    refine iff_of_true ?_ (Or.inl (by omega))
    rw [hstr, hint]
    exact isPaddedInt_numeral w _

/-- "%wd" reads back for the numbers that are not negative. A negative number does if it is
    not the least one and fills the width, with its sign: zeros in front of the sign spoil it. -/
theorem decimal_readsBack_iff (v : BitVec 32) (w : Fin 10) :
    (∃ text, Prints (padFormat w) [.int v] text ∧ IsPaddedInt w text v.toInt) ↔
      0 ≤ v.toInt ∨ (v ≠ intMin ∧ w.val ≤ (Nat.digits 10 v.toInt.natAbs).length + 1) := by
  have hprints := prints_decimal w v
  rw [← isPaddedInt_decimal_iff]
  constructor
  · rintro ⟨text, htext, hpadded⟩
    rw [htext.unique hprints] at hpadded
    exact hpadded
  · intro hpadded
    exact ⟨_, hprints, hpadded⟩

/-- "%5d" prints -42 as "00-42". -/
theorem decimal_minus42 :
    Prints (padFormat 5) [.int (-42)] [48, 48, 45, 52, 50] ∧
      ¬ ∃ text, Prints (padFormat 5) [.int (-42)] text ∧ IsPaddedInt 5 text (-42) := by
  have hprints : Prints (padFormat 5) [.int (-42)] [48, 48, 45, 52, 50] :=
    prints_decimal 5 (-42)
  refine ⟨hprints, fun ⟨text, htext, hpadded⟩ => ?_⟩
  have hreads := hpadded.reads
  rw [htext.unique hprints, show readInt [48, 48, 45, 52, 50] = none by decide] at hreads
  cases hreads

/-- The conversions without padding print the string of `itoa` or `ulltoa`, which is short. -/
theorem prints_number {c : BitVec 8} (hc : c ≠ 0) (hdigit : isDigit c = false) {args : List Arg}
    {write : Nat → Buffer → Option Buffer} {s : List (BitVec 8)} {m : Nat}
    (hconv : ∀ n device sVal, convert n device 0 (Conv.ofChar c) args sVal =
      printNumber n device write [] sVal)
    (h : Writes write s) (hshort : ∃ t, t.length ≤ m ∧ Writes write t) (hm : m < 2 ^ 32) :
    Prints (plainFormat c hc) args s := by
  obtain ⟨t, hlen, ht⟩ := hshort
  rw [← h.unique ht] at hlen
  refine prints_plain hc hdigit fun device sVal => ?_
  simp only [hconv]
  exact printNumber_returns h (by omega) [] device sVal

theorem prints_unsigned (v : BitVec 32) :
    Prints (plainFormat (ascii 'u') (by decide)) [.int v] (decimalString v) :=
  prints_number (by decide) (by decide) (fun _ _ _ => rfl) (itoa_decimal v)
    (itoa_string v (Or.inl rfl)) (by omega)

theorem prints_hex (v : BitVec 32) :
    Prints (plainFormat (ascii 'x') (by decide)) [.int v] (hexString v) :=
  prints_number (by decide) (by decide) (fun _ _ _ => rfl) (itoa_hex v)
    (itoa_string v (Or.inr rfl)) (by omega)

theorem prints_long (n : BitVec 64) :
    Prints (plainFormat (ascii 'L') (by decide)) [.long n] (longString n) :=
  prints_number (by decide) (by decide) (fun _ _ _ => rfl) (ulltoa_decimal n)
    (ulltoa_string n (Or.inl rfl)) (by omega)

theorem prints_longHex (n : BitVec 64) :
    Prints (plainFormat (ascii 'X') (by decide)) [.long n] (numeral 16 n.toNat) :=
  prints_number (by decide) (by decide) (fun _ _ _ => rfl) (ulltoa_hex n)
    (ulltoa_string n (Or.inr rfl)) (by omega)

/-- A sign in front. -/
theorem not_isNumeral_minus (cs : List (BitVec 8)) (n : Nat) : ¬ IsNumeral 10 (45 :: cs) n := by
  intro h
  exact head_ne_minus h.reads rfl

theorem unsigned_isNumeral_iff (v : BitVec 32) :
    IsNumeral 10 (decimalString v) v.toNat ↔ v.toNat < 2 ^ 31 := by
  unfold decimalString
  split
  · rename_i hneg
    rw [slt_zero_iff] at hneg
    exact iff_of_false (not_isNumeral_minus _ _) (by omega)
  · rename_i hpos
    rw [slt_zero_iff] at hpos
    exact iff_of_true (isNumeral_numeral (by omega) (by omega) _) (by omega)

/-- One digit is too short for a number with the top bit set. -/
theorem hex_isNumeral_iff (v : BitVec 32) :
    IsNumeral 16 (hexString v) v.toNat ↔ v.toNat < 2 ^ 31 := by
  unfold hexString
  split
  · rename_i hneg
    rw [slt_zero_iff] at hneg
    refine iff_of_false (fun h => ?_) (by omega)
    obtain ⟨d, hd, heq⟩ := Option.bind_eq_some_iff.mp h.reads
    have hlt := digitValue_lt hd
    have hval : 0 * 16 + d = v.toNat := Option.some.inj heq
    omega
  · rename_i hpos
    rw [slt_zero_iff] at hpos
    exact iff_of_true (isNumeral_numeral (by omega) (by omega) _) (by omega)

/-- "%u" and "%x" read back for the numbers below 2^31. -/
theorem unsigned_readsBack_iff (v : BitVec 32) :
    ((∃ text, Prints (plainFormat (ascii 'u') (by decide)) [.int v] text ∧
        IsNumeral 10 text v.toNat) ∧
      (∃ text, Prints (plainFormat (ascii 'x') (by decide)) [.int v] text ∧
        IsNumeral 16 text v.toNat)) ↔ v.toNat < 2 ^ 31 := by
  constructor
  · rintro ⟨⟨text, htext, hnum⟩, -⟩
    rw [htext.unique (prints_unsigned v)] at hnum
    exact (unsigned_isNumeral_iff v).mp hnum
  · intro hv
    exact ⟨⟨_, prints_unsigned v, (unsigned_isNumeral_iff v).mpr hv⟩,
      _, prints_hex v, (hex_isNumeral_iff v).mpr hv⟩

/-- 2^32 - 1 is printed as "-1" and as one character that is no digit. -/
theorem unsigned_allOnes :
    Prints (plainFormat (ascii 'u') (by decide)) [.int (BitVec.allOnes 32)] [45, 49] ∧
      Prints (plainFormat (ascii 'x') (by decide)) [.int (BitVec.allOnes 32)] [47] ∧
      ¬ ((∃ text, Prints (plainFormat (ascii 'u') (by decide)) [.int (BitVec.allOnes 32)] text ∧
          IsNumeral 10 text (2 ^ 32 - 1)) ∧
        (∃ text, Prints (plainFormat (ascii 'x') (by decide)) [.int (BitVec.allOnes 32)] text ∧
          IsNumeral 16 text (2 ^ 32 - 1))) := by
  have hprints : Prints (plainFormat (ascii 'u') (by decide)) [.int (BitVec.allOnes 32)] [45, 49] :=
    prints_unsigned (BitVec.allOnes 32)
  refine ⟨hprints, prints_hex (BitVec.allOnes 32), fun ⟨⟨text, htext, hnum⟩, _⟩ => ?_⟩
  rw [htext.unique hprints] at hnum
  exact not_isNumeral_minus _ _ hnum

theorem slt_low_iff (n : BitVec 64) : (n.setWidth 32).slt 0 = true ↔ n.getLsbD 31 = true := by
  have hmsb : (n.setWidth 32).slt 0 = (n.setWidth 32).msb := BitVec.slt_zero_eq_msb
  rw [hmsb, BitVec.msb_setWidth]
  rfl

/-- `ulltoa` in base 10 and "%L" read back for the numbers whose bit 31 is clear. -/
theorem long_readsBack_iff (n : BitVec 64) :
    (∃ s, Writes (fun fuel str => ulltoa fuel n str 10) s ∧ IsNumeral 10 s n.toNat ∧
      Prints (plainFormat (ascii 'L') (by decide)) [.long n] s) ↔ n.getLsbD 31 = false := by
  constructor
  · rintro ⟨s, hs, hnum, -⟩
    rw [hs.unique (ulltoa_decimal n), longString] at hnum
    rw [← Bool.not_eq_true, ← slt_low_iff]
    intro hneg
    rw [if_pos hneg] at hnum
    exact not_isNumeral_minus _ _ hnum
  · intro hbit
    have hpos : ¬ (n.setWidth 32).slt 0 = true := by
      rw [slt_low_iff, hbit]
      decide
    refine ⟨longString n, ulltoa_decimal n, ?_, prints_long n⟩
    rw [longString, if_neg hpos]
    exact isNumeral_numeral (by omega) (by omega) _

/-- 2^31 is printed as the negation of it modulo 2^64. -/
theorem long_bit31 :
    Prints (plainFormat (ascii 'L') (by decide)) [.long (BitVec.ofNat 64 (2 ^ 31))]
        (45 :: numeral 10 18446744071562067968) ∧
      ¬ ∃ s, Writes (fun fuel str => ulltoa fuel (BitVec.ofNat 64 (2 ^ 31)) str 10) s ∧
        IsNumeral 10 s (2 ^ 31) ∧
        Prints (plainFormat (ascii 'L') (by decide)) [.long (BitVec.ofNat 64 (2 ^ 31))] s := by
  have hstr : longString (BitVec.ofNat 64 (2 ^ 31)) = 45 :: numeral 10 18446744071562067968 := rfl
  refine ⟨hstr ▸ prints_long _, fun ⟨s, hs, hnum, _⟩ => ?_⟩
  rw [hs.unique (ulltoa_decimal _), hstr] at hnum
  exact not_isNumeral_minus _ _ hnum

/-- `ulltoa` in base 16 writes the hexadecimal numeral of every number: at most 16 digits, and
    "%X" prints it. -/
theorem longHex_readsBack (n : BitVec 64) :
    ∃ s, Writes (fun fuel str => ulltoa fuel n str 16) s ∧ IsNumeral 16 s n.toNat ∧
      (n = 0 → s = [48]) ∧ s.length ≤ 16 ∧
      Prints (plainFormat (ascii 'X') (by decide)) [.long n] s := by
  refine ⟨numeral 16 n.toNat, ulltoa_hex n, isNumeral_numeral (by omega) (by omega) _, ?_, ?_,
    prints_longHex n⟩
  · rintro rfl
    rfl
  · rw [numeral_length_le_iff (by omega) (by omega)]
    exact n.isLt

end Utero.Libk
