/-
  The text of a format, computed.

  `Expands` says what the text of a format is; `expand` computes it, with the numbers as `itoa` and
  `ulltoa` write them. `vprintfk_formatted`: `vprintfk` ends and outputs `formatted format args` on
  every device. Formats are written as string literals (`text`, `literal`).
-/
import Utero.Libk.Numbers

namespace Utero.Libk

open Utero.Lib

/-! ## The text of a format -/

/-- Zeros in front, up to `pad` characters. -/
def padded (pad : Nat) (s : List (BitVec 8)) : List (BitVec 8) :=
  List.replicate (pad - s.length) (ascii '0') ++ s

theorem padded_zero (s : List (BitVec 8)) : padded 0 s = s := by
  unfold padded
  rw [Nat.zero_sub, List.replicate_zero, List.nil_append]

/-- The text of a conversion. -/
def convText (pad : Nat) : Conv → List Arg → List (BitVec 8)
  | .percent, _ => [ascii '%']
  | .char, .int v :: _ => [v.setWidth 8]
  | .decimal, .int v :: _ => padded pad (decimalString v)
  | .unsigned, .int v :: _ => decimalString v
  | .hex, .int v :: _ => hexString v
  | .long, .long v :: _ => longString v
  | .longHex, .long v :: _ => numeral 16 v.toNat
  | .string, .string s :: _ => s.bytes
  | _, _ => []

/-- The text of the items. -/
def expand : List Item → List Arg → List (BitVec 8)
  | [], _ => []
  | .literal c :: items, args => c :: expand items args
  | .directive pad conv :: items, args =>
    convText (padWidth pad) (convOf conv) args ++
      expand items ((takeArg (convOf conv) args).getD [])

theorem Converts.eq_convText {pad : Nat} {conv : Conv} {args rest : List Arg}
    {cs : List (BitVec 8)} (h : Converts pad conv args cs rest) :
    cs = convText pad conv args ∧ takeArg conv args = some rest := by
  cases h with
  | percent => exact ⟨rfl, rfl⟩
  | char => exact ⟨rfl, rfl⟩
  | decimal v args hs =>
    rw [hs.unique (itoa_decimal v)]
    exact ⟨rfl, rfl⟩
  | unsigned v args hs => exact ⟨hs.unique (itoa_decimal v), rfl⟩
  | hex v args hs => exact ⟨hs.unique (itoa_hex v), rfl⟩
  | long v args hs => exact ⟨hs.unique (ulltoa_decimal v), rfl⟩
  | longHex v args hs => exact ⟨hs.unique (ulltoa_hex v), rfl⟩
  | string => exact ⟨rfl, rfl⟩
  | unknown => exact ⟨rfl, rfl⟩

theorem Expands.eq_expand {items : List Item} {args rest : List Arg} {cs : List (BitVec 8)}
    (h : Expands items args cs rest) : cs = expand items args := by
  induction h with
  | nil => rfl
  | literal c _ ih => rw [ih, expand]
  | directive hc _ ih =>
    obtain ⟨hcs, htake⟩ := hc.eq_convText
    rw [expand, htake, Option.getD_some, hcs, ih]

/-- What `vprintfk` prints. -/
def formatted (format : CString) (args : List Arg) : List (BitVec 8) :=
  expand (parse format.bytes) args

theorem vprintfk_formatted {format : CString} (hlen : format.bytes.length < 2 ^ 32 - 2)
    {args rest : List Arg} (hargs : takeArgs (parse format.bytes) args = some rest)
    (hstr : ShortStrings args) (device : BitVec 32) (sVal : Buffer) :
    Returns (fun n => vprintfk n device format args sVal)
      (.ok (rest, (formatted format args).map (putchark device))) := by
  obtain ⟨cs, hexp, hrun⟩ := vprintfkLoop_expands hlen (format.bytes.length + 2) 0
    (by omega) (by omega) hargs hstr
  unfold formatted
  rw [← show cs = expand (parse format.bytes) args from hexp.eq_expand]
  exact hrun device sVal []

/-! ## Literals -/

/-- The bytes of a string literal. -/
def text (s : String) : List (BitVec 8) := s.toList.map ascii

theorem text_ofList (cs : List Char) : text (String.ofList cs) = cs.map ascii := by
  rw [text, String.toList_ofList]

theorem text_append (s t : String) : text (s ++ t) = text s ++ text t := by
  unfold text
  rw [String.toList_append, List.map_append]

def literal (s : String) (h : (text s).all (· != 0) = true) : CString where
  bytes := text s
  noNul b hb := by simpa using List.all_eq_true.mp h b hb

/-! ## Formats without directives -/

theorem parse_plain {cs : List (BitVec 8)} (h : ∀ c ∈ cs, c ≠ ascii '%') :
    parse cs = cs.map .literal := by
  induction cs with
  | nil => rfl
  | cons c cs ih =>
    rw [parse_literal (h c List.mem_cons_self), ih fun d hd => h d (List.mem_cons_of_mem _ hd),
      List.map_cons]

theorem expand_plain (cs : List (BitVec 8)) (args : List Arg) :
    expand (cs.map .literal) args = cs := by
  induction cs with
  | nil => rfl
  | cons c cs ih => rw [List.map_cons, expand, ih]

theorem takeArgs_plain (cs : List (BitVec 8)) (args : List Arg) :
    takeArgs (cs.map .literal) args = some args := by
  induction cs with
  | nil => rfl
  | cons c cs ih => rw [List.map_cons, takeArgs, ih]

end Utero.Libk
