/-
  The indices that `strrev`, `itoa` and `ulltoa` access.

  Every round of a loop accesses the buffer at indices read off its state; `Touches` collects
  them over the rounds of the loop. `strrev` reads what `strlen` reads, up to the terminator, and
  swaps inside the string. `strrev_iff`: so it reverses the string in place and accesses nothing
  behind it, except for the empty string, where the index `strlen(s) - 1` wraps.

  `itoa` and `ulltoa` write the digits, the sign, the terminator and what `strrev` swaps, and leave
  the rest of the buffer alone (`itoa_frame`, `ulltoa_frame`). The highest index written is the
  one of the terminator (`itoa_greatest`, `ulltoa_greatest`). `sVal_fits_iff`: so the 20 bytes of
  `s_val` are enough for all conversions but "%L", and for which numbers "%L" needs more.
-/
import Mathlib.Order.Bounds.Basic
import Utero.Libk.Numbers

namespace Utero.Libk

open Utero.Lib

/-! ## `strrev` -/

/-- The indices that `strlen` reads. -/
def StrlenReads (s : Buffer) (k : Nat) : Prop :=
  Touches (strlenStep s) (fun t k => k = t) 0 k

/-- The indices that a round of `strrev` reads and writes. -/
def Swapped (st : StrrevState) (k : Nat) : Prop :=
  st.i < st.j ∧ (k = st.i.toNat ∨ k = st.j.toNat)

/-- The indices that the loop of `strrev` reads and writes. -/
def StrrevSwaps (s : Buffer) (k : Nat) : Prop :=
  ∃ len, Returns (fun n => strlen n s) len ∧
    Touches strrevStep Swapped ⟨s, 0, BitVec.ofNat 64 len - 1⟩ k

def StrrevAccesses (s : Buffer) (k : Nat) : Prop :=
  StrlenReads s k ∨ StrrevSwaps s k

theorem strlen_yields_le {s : Buffer} {k len : Nat} (h : Yields (strlenStep s) k len) :
    k ≤ len := by
  induction h with
  | @exit k len hexit =>
    unfold strlenStep at hexit
    split at hexit <;> cases hexit
    exact Nat.le_refl k
  | @again k k' len hagain _ ih =>
    unfold strlenStep at hagain
    split at hagain <;> cases hagain
    omega

theorem strlenReads_le {s : Buffer} {cs : List (BitVec 8)} (h : Holds s cs) {k : Nat}
    (hk : StrlenReads s k) : k ≤ cs.length := by
  obtain ⟨t, hvisits, rfl⟩ := hk
  have hyields : Yields (strlenStep s) 0 cs.length := h.strlen.yields
  exact strlen_yields_le ((hvisits.yields_iff _).mp hyields)

/-- The upper index only goes down. -/
theorem strrevStep_upper {st st' : StrrevState} (h : strrevStep st = .inl st') :
    st'.j.toNat < st.j.toNat := by
  unfold strrevStep at h
  split at h
  · rename_i hlt
    cases h
    have hlt := BitVec.lt_def.mp hlt
    have := st.j.isLt
    rw [BitVec.toNat_sub, show (1 : BitVec 64).toNat = 1 from rfl]
    omega
  · cases h

theorem strrevSwaps_lt {s : Buffer} {cs : List (BitVec 8)} (h : Holds s cs) (hne : cs ≠ [])
    (hlen : cs.length < 2 ^ 64) {k : Nat} (hk : StrrevSwaps s k) : k < cs.length := by
  obtain ⟨len, hret, t, hvisits, hlt, hkt⟩ := hk
  obtain rfl := h.strlen.unique hret
  have hpos : 0 < cs.length := List.length_pos_iff.mpr hne
  have hstart : (BitVec.ofNat 64 cs.length - 1).toNat < cs.length := by
    rw [BitVec.toNat_sub, BitVec.toNat_ofNat, show (1 : BitVec 64).toNat = 1 from rfl]
    omega
  have hupper := hvisits.invariant (P := fun st => st.j.toNat < cs.length)
    (fun st st' hst hstep => Nat.lt_trans (strrevStep_upper hstep) hst) hstart
  have hlower := BitVec.lt_def.mp hlt
  rcases hkt with rfl | rfl <;> omega

/-- The empty string: the upper index is the largest `size_t`. -/
theorem strrevSwaps_empty {s : Buffer} (h : Holds s []) : StrrevSwaps s (2 ^ 64 - 1) := by
  have hlt : (0 : BitVec 64) < BitVec.ofNat 64 0 - 1 := by decide
  exact ⟨0, h.strlen, _, Visits.here _, hlt, Or.inr rfl⟩

/-- `strrev` reverses the string in place, changes nothing behind it and accesses nothing behind
    the terminator, exactly if the string is not empty. A string is shorter than the address
    space. -/
theorem strrev_iff {s : Buffer} {cs : List (BitVec 8)} (h : Holds s cs)
    (hlen : cs.length < 2 ^ 64) :
    ((∃ s', Returns (fun n => strrev n s) s' ∧ Holds s' cs.reverse ∧
        ∀ k, cs.length ≤ k → s' k = s k) ∧
      ∀ k, StrrevAccesses s k → k ≤ cs.length) ↔ cs ≠ [] := by
  constructor
  · rintro ⟨-, haccess⟩ rfl
    have hbound := haccess _ (Or.inr (strrevSwaps_empty h))
    exact absurd hbound (by decide)
  · intro hne
    refine ⟨⟨_, strrev_mirrored h hne hlen, holds_mirrored h, ?_⟩, ?_⟩
    · intro k hk
      unfold mirrored
      rw [if_neg (by omega)]
    · intro k hk
      rcases hk with hread | hswap
      · exact strlenReads_le h hread
      · exact Nat.le_of_lt (strrevSwaps_lt h hne hlen hswap)

/-- "ab" -/
def abString : CString where
  bytes := [97, 98]
  noNul := by decide

theorem strrev_iff_abString :
    ((∃ s', Returns (fun n => strrev n abString.buffer) s' ∧ Holds s' [98, 97] ∧
        ∀ k, 2 ≤ k → s' k = abString.buffer k) ∧
      ∀ k, StrrevAccesses abString.buffer k → k ≤ 2) ↔ abString.bytes ≠ [] :=
  strrev_iff abString.holds (by decide)

theorem strrev_emptyString :
    Holds (fun _ => 0) [] ∧ StrrevAccesses (fun _ => 0) (2 ^ 64 - 1) ∧
      ¬ ((∃ s', Returns (fun n => strrev n fun _ => 0) s' ∧ Holds s' [] ∧
          ∀ k, 0 ≤ k → s' k = 0) ∧
        ∀ k, StrrevAccesses (fun _ => 0) k → k ≤ 0) := by
  have hholds : Holds (fun _ => 0) [] := CString.holds ⟨[], by decide⟩
  have haccess : StrrevAccesses (fun _ => 0) (2 ^ 64 - 1) := Or.inr (strrevSwaps_empty hholds)
  refine ⟨hholds, haccess, fun ⟨_, hall⟩ => ?_⟩
  exact absurd (hall _ haccess) (by decide)

/-! ## `itoa` and `ulltoa` -/

/-- The indices that are written after the digit loop. -/
def FinishWrites (negative : Bool) (i : Nat) (str : Buffer) (k : Nat) : Prop :=
  if negative then k = i ∨ k = i + 1 ∨
    StrrevSwaps (Function.update (Function.update str i 45) (i + 1) 0) k
  else k = i ∨ StrrevSwaps (Function.update str i 0) k

/-- The digit loop stores one character a round. -/
def NumberWrites {w : Nat} (rem : BitVec w → BitVec 32) (quot : BitVec w → BitVec w)
    (more : BitVec w → Bool) (n : BitVec w) (negative : Bool) (str : Buffer) (k : Nat) : Prop :=
  Touches (digitsStep rem quot more) (fun t k => k = t.2.1) (n, 0, str) k ∨
    ∃ r, Returns (fun fuel => loop (digitsStep rem quot more) fuel (n, 0, str)) r ∧
      FinishWrites negative r.1 r.2 k

/-- The indices that `itoa` writes. -/
def ItoaWrites (n : BitVec 32) (str : Buffer) (base : BitVec 32) (k : Nat) : Prop :=
  if n = 0 then k = 0 ∨ k = 1
  else
    let negative := n.slt 0 && base = 10
    NumberWrites (fun n => n.srem base) (fun n => n.sdiv base) (fun n => (0 : BitVec 32).slt n)
      (if negative then -n else n) negative str k

/-- The indices that `ulltoa` writes. -/
def UlltoaWrites (n : BitVec 64) (str : Buffer) (base : BitVec 64) (k : Nat) : Prop :=
  if n = 0 then k = 0 ∨ k = 1
  else
    let negative := (n.setWidth 32).slt 0 && base = 10
    NumberWrites (fun n => (n % base).setWidth 32) (fun n => n / base)
      (fun n => decide (0 < n)) (if negative then -n else n) negative str k

/-! Every other index keeps its content. -/

theorem strrev_frame {s s' : Buffer} (h : Returns (fun n => strrev n s) s') {k : Nat}
    (hk : ¬ StrrevSwaps s k) : s' k = s k := by
  obtain ⟨len, hlen, hloop⟩ := (strlen_fuelMono s).returns_bind
    (g := fun len n => loop strrevStep n ⟨s, 0, BitVec.ofNat 64 len - 1⟩) h
  refine hloop.yields.eq_of_not_touches StrrevState.s (fun s => s) ?_ ?_
    fun ht => hk ⟨len, hlen, ht⟩
  · intro st st' a hstep ha
    unfold strrevStep at hstep
    split at hstep
    · rename_i hlt
      cases hstep
      have hne := not_or.mp fun hor => ha ⟨hlt, hor⟩
      show swapBytes st.s st.i.toNat st.j.toNat a = st.s a
      rw [swapBytes, Function.update_of_ne hne.2, Function.update_of_ne hne.1]
    · cases hstep
  · intro st r a hstep _
    unfold strrevStep at hstep
    split at hstep <;> cases hstep
    rfl

theorem finish_frame {negative : Bool} {i : Nat} {str str' : Buffer}
    (h : Returns (fun n => finish n negative i str) str') {k : Nat}
    (hk : ¬ FinishWrites negative i str k) : str' k = str k := by
  unfold finish at h
  unfold FinishWrites at hk
  cases negative with
  | true =>
    simp only [if_true] at h hk
    obtain ⟨hi, hnul, hswap⟩ : k ≠ i ∧ k ≠ i + 1 ∧ ¬ StrrevSwaps _ k := by
      rw [not_or, not_or] at hk
      exact hk
    rw [strrev_frame h hswap, Function.update_of_ne hnul, Function.update_of_ne hi]
  | false =>
    simp only [Bool.false_eq_true, if_false] at h hk
    obtain ⟨hi, hswap⟩ := not_or.mp hk
    rw [strrev_frame h hswap, Function.update_of_ne hi]

section Number

variable {w : Nat} {rem : BitVec w → BitVec 32} {quot : BitVec w → BitVec w}
  {more : BitVec w → Bool}

theorem number_frame {n : BitVec w} {negative : Bool} {str str' : Buffer}
    (h : Returns (fun fuel => (loop (digitsStep rem quot more) fuel (n, 0, str)).bind fun r =>
      finish fuel negative r.1 r.2) str') {k : Nat}
    (hk : ¬ NumberWrites rem quot more n negative str k) : str' k = str k := by
  obtain ⟨hdigits, hfinish⟩ := not_or.mp hk
  obtain ⟨r, hloop, hret⟩ := (loop_fuelMono _ _).returns_bind
    (g := fun (r : Nat × Buffer) fuel => finish fuel negative r.1 r.2) h
  rw [finish_frame hret fun hw => hfinish ⟨r, hloop, hw⟩]
  refine hloop.yields.eq_of_not_touches (fun t => t.2.2) (fun r => r.2) ?_ ?_ hdigits
  · intro t t' a hstep ha
    unfold digitsStep at hstep
    dsimp only at hstep
    split at hstep <;> cases hstep
    exact Function.update_of_ne ha _ _
  · intro t r a hstep ha
    unfold digitsStep at hstep
    dsimp only at hstep
    split at hstep <;> cases hstep
    exact Function.update_of_ne ha _ _

end Number

theorem zeroString_frame (str : Buffer) {k : Nat} (hk : ¬ (k = 0 ∨ k = 1)) :
    zeroString str k = str k := by
  obtain ⟨h0, h1⟩ := not_or.mp hk
  rw [zeroString, Function.update_of_ne h1, Function.update_of_ne h0]

theorem itoa_frame {n base : BitVec 32} {str str' : Buffer}
    (h : Returns (fun fuel => itoa fuel n str base) str') {k : Nat}
    (hk : ¬ ItoaWrites n str base k) : str' k = str k := by
  unfold itoa at h
  unfold ItoaWrites at hk
  by_cases hn : n = 0
  · simp only [if_pos hn] at h hk
    rw [h.unique (returns_const _), zeroString_frame str hk]
  · simp only [if_neg hn] at h hk
    exact number_frame h hk

theorem ulltoa_frame {n base : BitVec 64} {str str' : Buffer}
    (h : Returns (fun fuel => ulltoa fuel n str base) str') {k : Nat}
    (hk : ¬ UlltoaWrites n str base k) : str' k = str k := by
  unfold ulltoa at h
  unfold UlltoaWrites at hk
  by_cases hn : n = 0
  · simp only [if_pos hn] at h hk
    rw [h.unique (returns_const _), zeroString_frame str hk]
  · simp only [if_neg hn] at h hk
    exact number_frame h hk

/-! ## The highest index written -/

/-- After the loop the terminator is the last byte written. -/
theorem finishWrites_greatest (negative : Bool) (str : Buffer) {ds : List (BitVec 8)}
    (hne : ds ≠ []) (hnul : ∀ d ∈ ds, d ≠ 0) (hlen : ds.length < 2 ^ 32) :
    IsGreatest {k | FinishWrites negative ds.length (writeAt str 0 ds) k}
      (ds ++ if negative then [45] else []).length := by
  cases negative with
  | true =>
    rw [if_pos rfl, List.length_append, List.length_singleton]
    refine ⟨Or.inr (Or.inl rfl), fun k hk => ?_⟩
    rcases hk with rfl | rfl | hswap
    · omega
    · omega
    · have hlt := strrevSwaps_lt (holds_signed str hnul) (by simp)
        (by rw [List.length_append, List.length_singleton]; omega) hswap
      rw [List.length_append, List.length_singleton] at hlt
      omega
  | false =>
    rw [if_neg Bool.false_ne_true, List.append_nil]
    refine ⟨Or.inl rfl, fun k hk => ?_⟩
    rcases hk with rfl | hswap
    · omega
    · have hlt := strrevSwaps_lt (holds_writeAt str hnul) hne (by omega) hswap
      omega

section Number

variable {w : Nat} {rem : BitVec w → BitVec 32} {quot : BitVec w → BitVec w}
  {more : BitVec w → Bool}

theorem digits_index_lt {t : BitVec w × Nat × Buffer} {r : Nat × Buffer}
    (h : Yields (digitsStep rem quot more) t r) : t.2.1 < r.1 := by
  induction h with
  | exit hstep =>
    unfold digitsStep at hstep
    dsimp only at hstep
    split at hstep <;> cases hstep
    exact Nat.lt_succ_self _
  | again hstep _ ih =>
    unfold digitsStep at hstep
    dsimp only at hstep
    split at hstep <;> cases hstep
    exact Nat.lt_of_succ_lt ih

theorem number_greatest (h : Halves rem quot more) (hw : w < 2 ^ 31) (n : BitVec w)
    (negative : Bool) :
    ∃ s, Writes (fun fuel str => (loop (digitsStep rem quot more) fuel (n, 0, str)).bind fun r =>
        finish fuel negative r.1 r.2) s ∧
      ∀ str, IsGreatest {k | NumberWrites rem quot more n negative str k} s.length := by
  obtain ⟨ds, hne, hlen, hnul, hyields⟩ := digits_yields h w n n.isLt
  have hrun : ∀ str, Yields (digitsStep rem quot more) (n, 0, str)
      (ds.length, writeAt str 0 ds) := by
    intro str
    have hloop := hyields 0 str
    rw [Nat.zero_add] at hloop
    exact hloop
  refine ⟨_, writes_of_yields hne hnul (by omega) hrun negative, fun str => ?_⟩
  obtain ⟨hmem, hbound⟩ := finishWrites_greatest negative str hne hnul (by omega)
  rw [List.length_reverse]
  refine ⟨Or.inr ⟨_, (hrun str).returns, hmem⟩, fun k hk => ?_⟩
  rcases hk with ⟨t, hvisits, rfl⟩ | ⟨r, hret, hfinish⟩
  · have hlt := digits_index_lt ((hvisits.yields_iff _).mp (hrun str))
    rw [List.length_append]
    exact Nat.le_trans (Nat.le_of_lt hlt) (Nat.le_add_right _ _)
  · rw [hret.unique (hrun str).returns] at hfinish
    exact hbound hfinish

end Number

theorem zeroString_greatest : IsGreatest {k | k = 0 ∨ k = 1} [(48 : BitVec 8)].length := by
  refine ⟨Or.inr rfl, fun k hk => ?_⟩
  rw [List.length_singleton]
  rcases hk with rfl | rfl <;> omega

/-- `itoa` writes the terminator of its string and nothing behind it. -/
theorem itoa_greatest (n : BitVec 32) {base : BitVec 32} (hbase : base = 10 ∨ base = 16) :
    ∃ s, Writes (fun fuel str => itoa fuel n str base) s ∧
      ∀ str, IsGreatest {k | ItoaWrites n str base k} s.length := by
  by_cases hn : n = 0
  · simp only [itoa, ItoaWrites, if_pos hn]
    exact ⟨_, writes_zeroString, fun _ => zeroString_greatest⟩
  · simp only [itoa, ItoaWrites, if_neg hn]
    exact number_greatest (halves_itoa hbase) (by omega) _ _

theorem ulltoa_greatest (n : BitVec 64) {base : BitVec 64} (hbase : base = 10 ∨ base = 16) :
    ∃ s, Writes (fun fuel str => ulltoa fuel n str base) s ∧
      ∀ str, IsGreatest {k | UlltoaWrites n str base k} s.length := by
  by_cases hn : n = 0
  · simp only [ulltoa, UlltoaWrites, if_pos hn]
    exact ⟨_, writes_zeroString, fun _ => zeroString_greatest⟩
  · simp only [ulltoa, UlltoaWrites, if_neg hn]
    exact number_greatest (halves_ulltoa hbase) (by omega) _ _

/-! ## `s_val` -/

/-- The indices of `s_val` that a conversion of `vprintfk` writes. -/
def SValWrites (sVal : Buffer) : Conv → Arg → Nat → Prop
  | .decimal, .int v => ItoaWrites v sVal 10
  | .unsigned, .int v => ItoaWrites v sVal 10
  | .hex, .int v => ItoaWrites v sVal 16
  | .long, .long v => UlltoaWrites v sVal 10
  | .longHex, .long v => UlltoaWrites v sVal 16
  | _, _ => fun _ => False

/-- `char s_val[20]` -/
def sValSize : Nat := 20

theorem fits_iff {f : Nat → Buffer → Option Buffer} {writes : Buffer → Nat → Prop}
    (h : ∃ s, Writes f s ∧ ∀ str, IsGreatest {k | writes str k} s.length)
    {t : List (BitVec 8)} (ht : Writes f t) :
    (∀ str k, writes str k → k < sValSize) ↔ t.length < sValSize := by
  obtain ⟨s, hs, hgreatest⟩ := h
  obtain rfl := hs.unique ht
  constructor
  · intro hall
    exact hall (fun _ => 0) _ (hgreatest _).1
  · intro hlt str k hk
    exact Nat.lt_of_le_of_lt ((hgreatest str).2 hk) hlt

theorem decimalString_fits (v : BitVec 32) : (decimalString v).length < sValSize := by
  have hnum : ∀ u : BitVec 32, (numeral 10 u.toNat).length ≤ 10 := by
    intro u
    rw [numeral_length_le_iff (by omega) (by omega)]
    exact Nat.lt_trans u.isLt (by decide)
  unfold decimalString sValSize
  split
  · rw [List.length_cons]
    split
    · decide
    · have := hnum (-v)
      omega
  · have := hnum v
    omega

theorem hexString_fits (v : BitVec 32) : (hexString v).length < sValSize := by
  unfold hexString sValSize
  split
  · rw [List.length_singleton]
    decide
  · have hnum : (numeral 16 v.toNat).length ≤ 8 := by
      rw [numeral_length_le_iff (by omega) (by omega)]
      exact v.isLt
    omega

theorem longHex_fits (n : BitVec 64) : (numeral 16 n.toNat).length < sValSize := by
  have hnum : (numeral 16 n.toNat).length ≤ 16 := by
    rw [numeral_length_le_iff (by omega) (by omega)]
    exact n.isLt
  unfold sValSize
  omega

/-- The numbers whose decimal string, as `ulltoa` writes it, is shorter than 20 characters. -/
theorem longString_fits_iff (n : BitVec 64) :
    (longString n).length < sValSize ↔
      if n.getLsbD 31 then 2 ^ 64 - 10 ^ 18 < n.toNat else n.toNat < 10 ^ 19 := by
  unfold longString sValSize
  by_cases hneg : (n.setWidth 32).slt 0 = true
  · have hzero : n ≠ 0 := by
      rintro rfl
      exact absurd hneg (by decide)
    have hpos := toNat_pos_of_ne_zero hzero
    have hlt := n.isLt
    have hnum := numeral_length_le_iff (b := 10) (n := (-n).toNat) (k := 18) (by omega) (by omega)
    have hneg' : (-n).toNat = 2 ^ 64 - n.toNat := by
      rw [BitVec.toNat_neg]
      omega
    rw [if_pos hneg, if_pos ((slt_low_iff n).mp hneg), List.length_cons]
    omega
  · have hnum := numeral_length_le_iff (b := 10) (n := n.toNat) (k := 19) (by omega) (by omega)
    rw [if_neg hneg, if_neg fun hbit => hneg ((slt_low_iff n).mpr hbit)]
    omega

/-- What the conversions write stays inside `s_val`, except for some numbers of "%L": from
    10^19 on if bit 31 is clear, and up to 2^64 - 10^18 if it is set. -/
theorem sVal_fits_iff (conv : Conv) (arg : Arg) :
    (∀ sVal k, SValWrites sVal conv arg k → k < sValSize) ↔
      ∀ n, conv = .long → arg = .long n →
        if n.getLsbD 31 then 2 ^ 64 - 10 ^ 18 < n.toNat else n.toNat < 10 ^ 19 := by
  by_cases hlong : ∃ n, conv = .long ∧ arg = .long n
  · obtain ⟨n, rfl, rfl⟩ := hlong
    have hfits := fits_iff (ulltoa_greatest n (Or.inl rfl)) (ulltoa_decimal n)
    rw [longString_fits_iff] at hfits
    constructor
    · rintro hall m - heq
      cases heq
      exact hfits.mp hall
    · intro hall
      exact hfits.mpr (hall n rfl rfl)
  · refine iff_of_true ?_ fun n hconv harg => absurd ⟨n, hconv, harg⟩ hlong
    intro sVal k hk
    unfold SValWrites at hk
    split at hk
    · rename_i v
      exact (fits_iff (itoa_greatest v (Or.inl rfl)) (itoa_decimal v)).mpr
        (decimalString_fits v) sVal k hk
    · rename_i v
      exact (fits_iff (itoa_greatest v (Or.inl rfl)) (itoa_decimal v)).mpr
        (decimalString_fits v) sVal k hk
    · rename_i v
      exact (fits_iff (itoa_greatest v (Or.inr rfl)) (itoa_hex v)).mpr
        (hexString_fits v) sVal k hk
    · rename_i v
      exact absurd ⟨v, rfl, rfl⟩ hlong
    · rename_i v
      exact (fits_iff (ulltoa_greatest v (Or.inr rfl)) (ulltoa_hex v)).mpr
        (longHex_fits v) sVal k hk
    · exact hk.elim

/-- 2^31: a '-' and 20 digits. -/
theorem sVal_bit31 :
    SValWrites (fun _ => 0) .long (.long (BitVec.ofNat 64 (2 ^ 31))) 21 ∧
      ¬ ∀ (conv : Conv) (arg : Arg) (sVal : Buffer) (k : Nat), SValWrites sVal conv arg k →
        k < sValSize := by
  have hwrites : SValWrites (fun _ => 0) .long (.long (BitVec.ofNat 64 (2 ^ 31))) 21 := by
    obtain ⟨s, hs, hgreatest⟩ := ulltoa_greatest (BitVec.ofNat 64 (2 ^ 31)) (Or.inl rfl)
    obtain rfl := hs.unique (ulltoa_decimal _)
    exact (hgreatest fun _ => 0).1
  refine ⟨hwrites, fun hall => ?_⟩
  exact absurd (hall _ _ _ _ hwrites) (by decide)

end Utero.Libk
