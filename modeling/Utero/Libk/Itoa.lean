/-
  `itoa`, `ulltoa` and `strrev` of `src/libk`.

  Buffers are by index, so an access outside the string is an index past its end. `int` is a
  32-bit vector with signed comparison, division and remainder; the negation of the least
  `int` wraps. The digit loops of the two functions are one definition (`digitsStep`) with
  the divisions of their types, and so is what follows the loop (`finish`).

  `itoa_string`, `ulltoa_string`: in bases 10 and 16 both functions end for every number and
  leave a NUL-terminated string that does not depend on what the buffer held before. Which
  string is read off the digit loop.
-/
import Mathlib.Algebra.Group.Nat.Defs
import Utero.Lib.CString

namespace Utero.Libk

open Utero.Lib

/-! ## `strrev` -/

def swapBytes (s : Buffer) (i j : Nat) : Buffer :=
  Function.update (Function.update s i (s j)) j (s i)

/-- `i` and `j` are `size_t`. -/
structure StrrevState where
  s : Buffer
  i : BitVec 64
  j : BitVec 64

def strrevStep (st : StrrevState) : StrrevState ⊕ Buffer :=
  if st.i < st.j then
    .inl ⟨swapBytes st.s st.i.toNat st.j.toNat, st.i + 1, st.j - 1⟩
  else .inr st.s

/-- For the empty string `strlen(s) - 1` is the largest `size_t`. -/
def strrev (fuel : Nat) (s : Buffer) : Option Buffer :=
  (strlen fuel s).bind fun len =>
    loop strrevStep fuel ⟨s, 0, BitVec.ofNat 64 len - 1⟩

/-- The buffer after `i` swaps: the first and the last `i` bytes have changed places. -/
def mirrored (s : Buffer) (len i : Nat) : Buffer := fun k =>
  if k < len ∧ (k < i ∨ len ≤ k + i) then s (len - 1 - k) else s k

theorem mirrored_zero (s : Buffer) (len : Nat) : mirrored s len 0 = s := by
  funext k
  unfold mirrored
  rw [if_neg (by omega)]

theorem swapBytes_mirrored (s : Buffer) {len i : Nat} (hi : i < len - 1 - i) :
    swapBytes (mirrored s len i) i (len - 1 - i) = mirrored s len (i + 1) := by
  funext k
  unfold swapBytes
  by_cases hj : k = len - 1 - i
  · subst hj
    rw [Function.update_self]
    unfold mirrored
    rw [if_neg (by omega), if_pos (by omega), show len - 1 - (len - 1 - i) = i by omega]
  · rw [Function.update_of_ne hj]
    by_cases hk : k = i
    · subst hk
      rw [Function.update_self]
      unfold mirrored
      rw [if_neg (by omega), if_pos (by omega)]
    · rw [Function.update_of_ne hk]
      unfold mirrored
      have hiff : (k < len ∧ (k < i ∨ len ≤ k + i)) ↔
          (k < len ∧ (k < i + 1 ∨ len ≤ k + (i + 1))) := by
        omega
      rw [if_congr hiff rfl rfl]

/-- From the middle on the buffer is mirrored as a whole. -/
theorem mirrored_middle (s : Buffer) {len i : Nat} (hi : len ≤ i + i + 1) :
    mirrored s len i = mirrored s len len := by
  funext k
  unfold mirrored
  by_cases hmid : k < len ∧ ¬ (k < i ∨ len ≤ k + i)
  · rw [if_neg (by omega), if_pos (by omega), show len - 1 - k = k by omega]
  · have hiff : (k < len ∧ (k < i ∨ len ≤ k + i)) ↔ (k < len ∧ (k < len ∨ len ≤ k + len)) := by
      omega
    rw [if_congr hiff rfl rfl]

theorem strrevLoop_yields (s : Buffer) {len : Nat} (hlen : len < 2 ^ 64) (d i : Nat)
    (hd : len ≤ i + i + 1 + d) (hi : i + i ≤ len) (hpos : 0 < len) :
    Yields strrevStep ⟨mirrored s len i, BitVec.ofNat 64 i, BitVec.ofNat 64 (len - 1 - i)⟩
      (mirrored s len len) := by
  induction d using Nat.strongRecOn generalizing i with
  | ind d ih =>
    have hit : (BitVec.ofNat 64 i).toNat = i := by
      rw [BitVec.toNat_ofNat]
      omega
    have hjt : (BitVec.ofNat 64 (len - 1 - i)).toNat = len - 1 - i := by
      rw [BitVec.toNat_ofNat]
      omega
    by_cases hlt : i < len - 1 - i
    · have hstep : strrevStep ⟨mirrored s len i, BitVec.ofNat 64 i,
          BitVec.ofNat 64 (len - 1 - i)⟩ =
          .inl ⟨mirrored s len (i + 1), BitVec.ofNat 64 (i + 1),
            BitVec.ofNat 64 (len - 1 - (i + 1))⟩ := by
        have hnext : BitVec.ofNat 64 (len - 1 - i) - 1 =
            BitVec.ofNat 64 (len - 1 - (i + 1)) := by
          apply BitVec.eq_of_toNat_eq
          rw [BitVec.toNat_sub, hjt, BitVec.toNat_ofNat, show (1 : BitVec 64).toNat = 1 from rfl]
          omega
        simp only [strrevStep]
        rw [if_pos (by rw [BitVec.lt_def, hit, hjt]; exact hlt), hit, hjt,
          swapBytes_mirrored s hlt, hnext, BitVec.ofNat_add]
        rfl
      exact Yields.again hstep (ih (d - 2) (by omega) (i + 1) (by omega) (by omega))
    · refine Yields.exit ?_
      simp only [strrevStep]
      rw [if_neg (by rw [BitVec.lt_def, hit, hjt]; exact hlt), mirrored_middle s (by omega)]

theorem holds_mirrored {s : Buffer} {cs : List (BitVec 8)} (h : Holds s cs) :
    Holds (mirrored s cs.length cs.length) cs.reverse := by
  constructor
  · intro i b hb
    obtain ⟨hi, -⟩ := List.getElem?_eq_some_iff.mp hb
    rw [List.length_reverse] at hi
    rw [List.getElem?_reverse hi] at hb
    unfold mirrored
    rw [if_pos ⟨hi, Or.inl hi⟩]
    exact h.bytes _ b hb
  · unfold mirrored
    rw [List.length_reverse, if_neg (by omega)]
    exact h.nul
  · intro b hb
    exact h.noNul b (List.mem_reverse.mp hb)

/-- A string that is not empty is reversed in place, and nothing else changes. -/
theorem strrev_mirrored {s : Buffer} {cs : List (BitVec 8)} (h : Holds s cs) (hne : cs ≠ [])
    (hlen : cs.length < 2 ^ 64) :
    Returns (fun n => strrev n s) (mirrored s cs.length cs.length) := by
  have hpos : 0 < cs.length := List.length_pos_iff.mpr hne
  have hloop := strrevLoop_yields s hlen cs.length 0 (by omega) (by omega) hpos
  have hj : BitVec.ofNat 64 cs.length - 1 = BitVec.ofNat 64 (cs.length - 1 - 0) := by
    apply BitVec.eq_of_toNat_eq
    simp only [BitVec.toNat_sub, BitVec.toNat_ofNat, show (1 : BitVec 64).toNat = 1 from rfl]
    omega
  rw [mirrored_zero, ← hj] at hloop
  exact h.strlen.bind (g := fun len n =>
    loop strrevStep n ⟨s, 0, BitVec.ofNat 64 len - 1⟩) hloop.returns

theorem strrev_returns {s : Buffer} {cs : List (BitVec 8)} (h : Holds s cs) (hne : cs ≠ [])
    (hlen : cs.length < 2 ^ 64) :
    ∃ s', Returns (fun n => strrev n s) s' ∧ Holds s' cs.reverse :=
  ⟨_, strrev_mirrored h hne hlen, holds_mirrored h⟩

/-! ## The digit loops -/

/-- `(r < 10) ? r + '0' : r + 'a' - 10`, stored in a `char`. -/
def digitChar (r : BitVec 32) : BitVec 8 :=
  (if r.slt 10 then r + 48 else r + 97 - 10).setWidth 8

/-- One round of the `do` loop: `rem` and `quot` are the remainder and the quotient by the
    base, `more` the test of the `while`. -/
def digitsStep {w : Nat} (rem : BitVec w → BitVec 32) (quot : BitVec w → BitVec w)
    (more : BitVec w → Bool) :
    BitVec w × Nat × Buffer → (BitVec w × Nat × Buffer) ⊕ (Nat × Buffer)
  | (n, i, str) =>
    let str := Function.update str i (digitChar (rem n))
    let n := quot n
    if more n then .inl (n, i + 1, str) else .inr (i + 1, str)

/-- After the loop: the sign, the terminator and the reversal. -/
def finish (fuel : Nat) (negative : Bool) (i : Nat) (str : Buffer) : Option Buffer :=
  if negative then strrev fuel (Function.update (Function.update str i 45) (i + 1) 0)
  else strrev fuel (Function.update str i 0)

/-- `n == 0` is handled first: the string is "0". -/
def zeroString (str : Buffer) : Buffer :=
  Function.update (Function.update str 0 48) 1 0

def itoaStep (base : BitVec 32) :
    BitVec 32 × Nat × Buffer → (BitVec 32 × Nat × Buffer) ⊕ (Nat × Buffer) :=
  digitsStep (fun n => n.srem base) (fun n => n.sdiv base) (fun n => (0 : BitVec 32).slt n)

def itoa (fuel : Nat) (n : BitVec 32) (str : Buffer) (base : BitVec 32) : Option Buffer :=
  if n = 0 then some (zeroString str)
  else
    let sign := n
    let negative := sign.slt 0 && base = 10
    let n := if negative then -n else n
    (loop (itoaStep base) fuel (n, 0, str)).bind fun r => finish fuel negative r.1 r.2

def ulltoaStep (base : BitVec 64) :
    BitVec 64 × Nat × Buffer → (BitVec 64 × Nat × Buffer) ⊕ (Nat × Buffer) :=
  digitsStep (fun n => (n % base).setWidth 32) (fun n => n / base) (fun n => decide (0 < n))

/-- `sign` is an `int`, so it holds the low half of `n`. -/
def ulltoa (fuel : Nat) (n : BitVec 64) (str : Buffer) (base : BitVec 64) : Option Buffer :=
  if n = 0 then some (zeroString str)
  else
    let sign := n.setWidth 32
    let negative := sign.slt 0 && base = 10
    let n := if negative then -n else n
    (loop (ulltoaStep base) fuel (n, 0, str)).bind fun r => finish fuel negative r.1 r.2

/-- Every round at least halves the number, and every digit is a character. -/
structure Halves {w : Nat} (rem : BitVec w → BitVec 32) (quot : BitVec w → BitVec w)
    (more : BitVec w → Bool) : Prop where
  half : ∀ n, more (quot n) = true → 0 < (quot n).toNat ∧ 2 * (quot n).toNat ≤ n.toNat
  char : ∀ n, digitChar (rem n) ≠ 0

section Digits

variable {w : Nat} {rem : BitVec w → BitVec 32} {quot : BitVec w → BitVec w}
  {more : BitVec w → Bool}

/-- A loop that is left after its first round. -/
theorem digits_once {n : BitVec w} (hstop : more (quot n) = false) (i : Nat) (str : Buffer) :
    Yields (digitsStep rem quot more) (n, i, str) (i + 1, writeAt str i [digitChar (rem n)]) := by
  refine Yields.exit ?_
  simp only [digitsStep]
  rw [if_neg (ne_true_of_eq_false hstop)]
  rfl

theorem digits_yields (h : Halves rem quot more) (m : Nat) (n : BitVec w)
    (hn : n.toNat < 2 ^ m) :
    ∃ ds : List (BitVec 8), ds ≠ [] ∧ ds.length ≤ m + 1 ∧ (∀ d ∈ ds, d ≠ 0) ∧
      ∀ i str, Yields (digitsStep rem quot more) (n, i, str)
        (i + ds.length, writeAt str i ds) := by
  induction m generalizing n with
  | zero =>
    have hstop : more (quot n) = false := by
      rw [← Bool.not_eq_true]
      intro hmore
      have := h.half n hmore
      omega
    exact ⟨[digitChar (rem n)], by simp, by simp, by simpa using h.char n, digits_once hstop⟩
  | succ m ih =>
    by_cases hmore : more (quot n) = true
    · obtain ⟨hpos, hhalf⟩ := h.half n hmore
      obtain ⟨ds, hne, hlen, hnul, hrun⟩ := ih (quot n) (by rw [Nat.pow_succ] at hn; omega)
      refine ⟨digitChar (rem n) :: ds, by simp, ?_, ?_, ?_⟩
      · rw [List.length_cons]
        omega
      · intro d hd
        rcases List.mem_cons.mp hd with rfl | hd
        · exact h.char n
        · exact hnul d hd
      · intro i str
        have hnext := hrun (i + 1) (Function.update str i (digitChar (rem n)))
        rw [List.length_cons, show i + (ds.length + 1) = i + 1 + ds.length by omega]
        refine Yields.again ?_ hnext
        simp only [digitsStep]
        rw [if_pos hmore]
    · have hstop := eq_false_of_ne_true hmore
      exact ⟨[digitChar (rem n)], by simp, by simp, by simpa using h.char n, digits_once hstop⟩

end Digits

/-- The digits and the sign, terminated. -/
theorem holds_signed (str : Buffer) {ds : List (BitVec 8)} (hnul : ∀ d ∈ ds, d ≠ 0) :
    Holds (Function.update (Function.update (writeAt str 0 ds) ds.length 45) (ds.length + 1) 0)
      (ds ++ [45]) := by
  have hwrite : Function.update (writeAt str 0 ds) ds.length 45 = writeAt str 0 (ds ++ [45]) := by
    rw [writeAt_append, Nat.zero_add]
    rfl
  have hsign : ∀ d ∈ ds ++ [45], d ≠ 0 := by
    intro d hd
    rcases List.mem_append.mp hd with hd | hd
    · exact hnul d hd
    · rw [List.mem_singleton.mp hd]
      decide
  have hholds := holds_writeAt str hsign
  rw [List.length_append, List.length_singleton] at hholds
  rw [hwrite]
  exact hholds

theorem finish_returns (negative : Bool) (str : Buffer) {ds : List (BitVec 8)} (hne : ds ≠ [])
    (hnul : ∀ d ∈ ds, d ≠ 0) (hlen : ds.length < 2 ^ 32) :
    ∃ str', Returns (fun n => finish n negative ds.length (writeAt str 0 ds)) str' ∧
      Holds str' (ds ++ if negative then [45] else []).reverse := by
  cases negative with
  | true =>
    simp only [finish, if_true]
    refine strrev_returns (holds_signed str hnul) (by simp) ?_
    rw [List.length_append, List.length_singleton]
    omega
  | false =>
    have hholds := holds_writeAt str hnul
    simp only [finish, Bool.false_eq_true, if_false, List.append_nil]
    exact strrev_returns hholds hne (by omega)

/-! ## The strings -/

/-- The function ends for every buffer and leaves the string `s` at its start. -/
def Writes (f : Nat → Buffer → Option Buffer) (s : List (BitVec 8)) : Prop :=
  ∀ str, ∃ str', Returns (fun n => f n str) str' ∧ Holds str' s

theorem writes_zeroString : Writes (fun _ str => some (zeroString str)) [48] := by
  intro str
  have hnul : ∀ d ∈ [(48 : BitVec 8)], d ≠ 0 := by decide
  exact ⟨_, returns_const _, holds_writeAt str hnul⟩

theorem Writes.unique {f : Nat → Buffer → Option Buffer} {s t : List (BitVec 8)}
    (hs : Writes f s) (ht : Writes f t) : s = t := by
  obtain ⟨buf, hret, hholds⟩ := hs fun _ => 0
  obtain ⟨buf', hret', hholds'⟩ := ht fun _ => 0
  obtain rfl := hret.unique hret'
  exact hholds.unique hholds'

/-- A digit loop that stores `ds`, and what follows it. -/
theorem writes_of_yields {w : Nat} {rem : BitVec w → BitVec 32} {quot : BitVec w → BitVec w}
    {more : BitVec w → Bool} {n : BitVec w} {ds : List (BitVec 8)} (hne : ds ≠ [])
    (hnul : ∀ d ∈ ds, d ≠ 0) (hlen : ds.length < 2 ^ 32)
    (hrun : ∀ str, Yields (digitsStep rem quot more) (n, 0, str) (ds.length, writeAt str 0 ds))
    (negative : Bool) :
    Writes (fun fuel str => (loop (digitsStep rem quot more) fuel (n, 0, str)).bind fun r =>
      finish fuel negative r.1 r.2) (ds ++ if negative then [45] else []).reverse := by
  intro str
  have hloop := (hrun str).returns
  obtain ⟨str', hret, hholds⟩ := finish_returns negative str hne hnul hlen
  have hgo := hloop.bind (g := fun r n => finish n negative r.1 r.2) hret
  exact ⟨str', hgo, hholds⟩

/-- The digit loop and what follows it. -/
theorem writes_digits {w : Nat} {rem : BitVec w → BitVec 32} {quot : BitVec w → BitVec w}
    {more : BitVec w → Bool} (h : Halves rem quot more) (hw : w < 2 ^ 31) (n : BitVec w)
    (negative : Bool) :
    ∃ s, s.length ≤ w + 2 ∧ Writes (fun fuel str =>
      (loop (digitsStep rem quot more) fuel (n, 0, str)).bind fun r =>
        finish fuel negative r.1 r.2) s := by
  obtain ⟨ds, hne, hlen, hnul, hrun⟩ := digits_yields h w n n.isLt
  refine ⟨(ds ++ if negative then [45] else []).reverse, ?_, ?_⟩
  · rw [List.length_reverse, List.length_append]
    cases negative
    · simp only [Bool.false_eq_true, if_false, List.length_nil]
      omega
    · simp only [if_true, List.length_singleton]
      omega
  · refine writes_of_yields hne hnul (by omega) (fun str => ?_) negative
    have hloop := hrun 0 str
    rw [Nat.zero_add] at hloop
    exact hloop

theorem digitChar_signed : ∀ k : Nat, k < 31 → digitChar (BitVec.ofInt 32 (k - 15)) ≠ 0 := by
  decide

theorem digitChar_unsigned : ∀ k < 16, digitChar (BitVec.ofNat 32 k) ≠ 0 := by
  decide

theorem itoaBase_toInt {base : BitVec 32} (hbase : base = 10 ∨ base = 16) :
    base.toInt = 10 ∨ base.toInt = 16 := by
  rcases hbase with rfl | rfl
  · exact Or.inl rfl
  · exact Or.inr rfl

theorem toInt_sdiv_itoaBase {base : BitVec 32} (hbase : base = 10 ∨ base = 16) (n : BitVec 32) :
    (n.sdiv base).toInt = n.toInt.tdiv base.toInt := by
  have hne : base ≠ -1 := by rcases hbase with rfl | rfl <;> decide
  exact BitVec.toInt_sdiv_of_ne_or_ne n base (Or.inr hne)

/-- The quotient of a negative number ends the loop. -/
theorem sdiv_stops {base : BitVec 32} (hbase : base = 10 ∨ base = 16) {n : BitVec 32}
    (hn : n.toInt < 0) : (0 : BitVec 32).slt (n.sdiv base) = false := by
  have hint := itoaBase_toInt hbase
  have hflip : n.toInt.tdiv base.toInt = -((-n.toInt).tdiv base.toInt) := by
    rw [Int.neg_tdiv, Int.neg_neg]
  have hnonneg := Int.tdiv_nonneg (a := -n.toInt) (b := base.toInt) (by omega) (by omega)
  rw [← Bool.not_eq_true, BitVec.slt_iff_toInt_lt, toInt_sdiv_itoaBase hbase,
    show (0 : BitVec 32).toInt = 0 from rfl]
  omega

theorem halves_itoa {base : BitVec 32} (hbase : base = 10 ∨ base = 16) :
    Halves (fun n => n.srem base) (fun n => n.sdiv base) (fun n => (0 : BitVec 32).slt n) := by
  have hint := itoaBase_toInt hbase
  constructor
  · intro n hmore
    have hdiv := toInt_sdiv_itoaBase hbase n
    have hpos := BitVec.slt_iff_toInt_lt.mp hmore
    rw [hdiv, show (0 : BitVec 32).toInt = 0 from rfl] at hpos
    have hn : 0 ≤ n.toInt := by
      by_contra hneg
      rw [sdiv_stops hbase (by omega)] at hmore
      cases hmore
    rw [Int.tdiv_eq_ediv_of_nonneg hn] at hdiv hpos
    have hnt := BitVec.toInt_eq_toNat_cond n
    have hqt := BitVec.toInt_eq_toNat_cond (n.sdiv base)
    have := n.isLt
    have := (n.sdiv base).isLt
    rcases hint with hb | hb <;> rw [hb] at hdiv hpos <;> omega
  · intro n
    have hrem := BitVec.toInt_srem n base
    have hlt := Int.tmod_lt_of_pos n.toInt (b := base.toInt) (by omega)
    have hgt := Int.lt_tmod_of_pos n.toInt (b := base.toInt) (by omega)
    obtain ⟨k, hk, heq⟩ : ∃ k : Nat, k < 31 ∧ (n.srem base).toInt = (k : Int) - 15 :=
      ⟨((n.srem base).toInt + 15).toNat, by omega, by omega⟩
    have hchar := digitChar_signed k hk
    rw [← heq, BitVec.ofInt_toInt] at hchar
    exact hchar

theorem ulltoaBase_toNat {base : BitVec 64} (hbase : base = 10 ∨ base = 16) :
    base.toNat = 10 ∨ base.toNat = 16 := by
  rcases hbase with rfl | rfl
  · exact Or.inl rfl
  · exact Or.inr rfl

theorem halves_ulltoa {base : BitVec 64} (hbase : base = 10 ∨ base = 16) :
    Halves (fun n => (n % base).setWidth 32) (fun n => n / base)
      (fun n => decide (0 < n)) := by
  have hnat := ulltoaBase_toNat hbase
  constructor
  · intro n hmore
    have hpos := BitVec.lt_def.mp (of_decide_eq_true hmore)
    rw [show (0 : BitVec 64).toNat = 0 from rfl, BitVec.toNat_udiv] at hpos
    rw [BitVec.toNat_udiv]
    rcases hnat with hb | hb <;> rw [hb] at hpos ⊢ <;> omega
  · intro n
    have hlt : (n % base).toNat < 16 := by
      rw [BitVec.toNat_umod]
      rcases hnat with hb | hb <;> rw [hb] <;> omega
    have hchar := digitChar_unsigned _ hlt
    have heq : (n % base).setWidth 32 = BitVec.ofNat 32 (n % base).toNat := by
      apply BitVec.eq_of_toNat_eq
      rw [BitVec.toNat_setWidth, BitVec.toNat_ofNat]
    rw [heq]
    exact hchar

theorem itoa_string (n : BitVec 32) {base : BitVec 32} (hbase : base = 10 ∨ base = 16) :
    ∃ s, s.length ≤ 34 ∧ Writes (fun fuel str => itoa fuel n str base) s := by
  by_cases hn : n = 0
  · refine ⟨[48], by simp, ?_⟩
    simp only [itoa, if_pos hn]
    exact writes_zeroString
  · simp only [itoa, if_neg hn]
    exact writes_digits (halves_itoa hbase) (by omega) _ _

theorem ulltoa_string (n : BitVec 64) {base : BitVec 64} (hbase : base = 10 ∨ base = 16) :
    ∃ s, s.length ≤ 66 ∧ Writes (fun fuel str => ulltoa fuel n str base) s := by
  by_cases hn : n = 0
  · refine ⟨[48], by simp, ?_⟩
    simp only [ulltoa, if_pos hn]
    exact writes_zeroString
  · simp only [ulltoa, if_neg hn]
    exact writes_digits (halves_ulltoa hbase) (by omega) _ _

end Utero.Libk
