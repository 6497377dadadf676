/-
  `vprintfk` of `src/libk/printfk.c`, with `screen_print` and `serial_print`.

  The output is the list of bytes passed to `screen_write` or `serial_write`. The argument list
  holds what `va_arg` would find: 32-bit words (`c`, `d`, `u`, `x`), 64-bit words (`L`, `X`) and
  pointers to strings (`s`). Two things end a run with a `Fault`: a read of `format` behind its
  terminator, and a `va_arg` that finds no argument of its type. `strlen(format)` is the length
  of the string. `s_val` is a buffer of any content, taken as large enough.

  The meaning of a format is given by `parse`, which cuts it into literal bytes and directives
  '%' [digit] conv, and by `Expands`, the text of each with the argument it takes.
  `vprintfk_expands`: for every format shorter than 2^32 - 2 bytes and every matching argument
  list whose strings are shorter than 2^32 bytes, `vprintfk` ends without a fault, leaves the
  arguments behind the ones the directives take, and outputs exactly that text, on the screen
  and on every serial device.
-/
import Utero.Libk.Itoa

namespace Utero.Libk

open Utero.Lib

/-- A character constant. -/
def ascii (c : Char) : BitVec 8 := BitVec.ofNat 8 c.toNat

/-! ## Output -/

inductive Write where
  | screen (c : BitVec 8)
  | serial (com : BitVec 16) (c : BitVec 8)
  deriving DecidableEq

def deviceScreen : BitVec 32 := 0

/-- `putchark`; the port of a serial device is a `uint16_t`. -/
def putchark (device : BitVec 32) (c : BitVec 8) : Write :=
  if deviceScreen.slt device then .serial (device.setWidth 16) c else .screen c

/-- `for (unsigned int i = 0; i < strlen(str); i++) write(str[i])`: the loop of `screen_print`
    and of `serial_print`. -/
def printStep (write : BitVec 8 → Write) (str : Buffer) (len : Nat) :
    BitVec 32 × List Write → (BitVec 32 × List Write) ⊕ List Write
  | (i, out) =>
    if i.toNat < len then .inl (i + 1, out ++ [write (str i.toNat)]) else .inr out

def printString (write : BitVec 8 → Write) (fuel : Nat) (str : Buffer) : Option (List Write) :=
  (strlen fuel str).bind fun len => loop (printStep write str len) fuel (0, [])

def screenPrint (fuel : Nat) (str : Buffer) : Option (List Write) :=
  printString .screen fuel str

def serialPrint (fuel : Nat) (com : BitVec 16) (str : Buffer) : Option (List Write) :=
  printString (.serial com) fuel str

def putsk (fuel : Nat) (device : BitVec 32) (s : Buffer) : Option (List Write) :=
  if deviceScreen.slt device then serialPrint fuel (device.setWidth 16) s
  else screenPrint fuel s

/-! ## `vprintfk` -/

inductive Arg where
  | int (v : BitVec 32)
  | long (v : BitVec 64)
  | string (s : CString)

inductive Fault where
  | format
  | argument

/-- The labels of the `switch`; any other character is `unknown`. -/
inductive Conv where
  | percent | char | decimal | unsigned | hex | long | longHex | string | unknown
  deriving DecidableEq

def Conv.ofChar (c : BitVec 8) : Conv :=
  if c = ascii '%' then .percent
  else if c = ascii 'c' then .char
  else if c = ascii 'd' then .decimal
  else if c = ascii 'u' then .unsigned
  else if c = ascii 'x' then .hex
  else if c = ascii 'L' then .long
  else if c = ascii 'X' then .longHex
  else if c = ascii 's' then .string
  else .unknown

def isdigitk (c : BitVec 8) : Bool := c ≤ 9

/-- `while ((leftpad - (uint8_t) strlen(s_val)) > 0)`; the subtraction is in `int`. -/
def padStep (device : BitVec 32) (len : Nat) :
    BitVec 8 × List Write → (BitVec 8 × List Write) ⊕ List Write
  | (leftpad, out) =>
    if len % 2 ^ 8 < leftpad.toNat then .inl (leftpad - 1, out ++ [putchark device (ascii '0')])
    else .inr out

/-- What a conversion leaves: the arguments, `s_val` and the output. -/
structure Converted where
  args : List Arg
  sVal : Buffer
  out : List Write

/-- `putsk(device, s_val)`, behind the output `zeros` of the padding. -/
def putNumber (fuel : Nat) (device : BitVec 32) (args : List Arg) (zeros : List Write)
    (sVal : Buffer) : Option (Except Fault Converted) :=
  (putsk fuel device sVal).bind fun out => some (.ok ⟨args, sVal, zeros ++ out⟩)

/-- A number without padding: `convert` writes it to `s_val`. -/
def printNumber (fuel : Nat) (device : BitVec 32) (convert : Nat → Buffer → Option Buffer)
    (args : List Arg) (sVal : Buffer) : Option (Except Fault Converted) :=
  (convert fuel sVal).bind fun sVal => putNumber fuel device args [] sVal

/-- The padding and the number of `d`. -/
def padNumber (fuel : Nat) (device : BitVec 32) (leftpad : BitVec 8) (args : List Arg)
    (sVal : Buffer) : Option (Except Fault Converted) :=
  (strlen fuel sVal).bind fun len =>
    (loop (padStep device len) fuel (leftpad, [])).bind fun zeros =>
      putNumber fuel device args zeros sVal

/-- The `switch`. -/
def convert (fuel : Nat) (device : BitVec 32) (leftpad : BitVec 8) :
    Conv → List Arg → Buffer → Option (Except Fault Converted)
  | .percent, args, sVal => some (.ok ⟨args, sVal, [putchark device (ascii '%')]⟩)
  | .char, .int v :: args, sVal => some (.ok ⟨args, sVal, [putchark device (v.setWidth 8)]⟩)
  | .decimal, .int v :: args, sVal =>
    (itoa fuel v sVal 10).bind fun sVal => padNumber fuel device leftpad args sVal
  | .unsigned, .int v :: args, sVal =>
    printNumber fuel device (fun fuel str => itoa fuel v str 10) args sVal
  | .hex, .int v :: args, sVal =>
    printNumber fuel device (fun fuel str => itoa fuel v str 16) args sVal
  | .long, .long v :: args, sVal =>
    printNumber fuel device (fun fuel str => ulltoa fuel v str 10) args sVal
  | .longHex, .long v :: args, sVal =>
    printNumber fuel device (fun fuel str => ulltoa fuel v str 16) args sVal
  | .string, .string s :: args, sVal =>
    (putsk fuel device s.buffer).bind fun out => some (.ok ⟨args, sVal, out⟩)
  | .unknown, args, sVal => some (.ok ⟨args, sVal, []⟩)
  | _, _, _ => some (.error .argument)

/-- `format[k]`, up to and including the terminator. -/
def formatAt (format : CString) (k : Nat) : Except Fault (BitVec 8) :=
  if k ≤ format.bytes.length then .ok (format.buffer k) else .error .format

/-- A directive whose '%' is at index `i`: the digit, if there is one, the conversion character
    and the index of it. -/
def readDirective (format : CString) (i : BitVec 32) :
    Except Fault (BitVec 8 × BitVec 8 × BitVec 32) := do
  let next ← formatAt format (i + 1).toNat
  let leftpad := next - ascii '0'
  let i' := if isdigitk leftpad then i + 1 else i
  let conv ← formatAt format (i' + 1).toNat
  return (if isdigitk leftpad then leftpad else 0, conv, i' + 1)

def vprintfkLoop (device : BitVec 32) (format : CString) :
    Nat → BitVec 32 → List Arg → Buffer → List Write →
      Option (Except Fault (List Arg × List Write))
  | 0, _, _, _, _ => none
  | fuel + 1, i, args, sVal, out =>
    if i.toNat < format.bytes.length then
      let c := format.buffer i.toNat
      if c = ascii '%' then
        match readDirective format i with
        | .error e => some (.error e)
        | .ok (leftpad, conv, i) =>
          (convert fuel device leftpad (Conv.ofChar conv) args sVal).bind fun
            | .error e => some (.error e)
            | .ok r => vprintfkLoop device format fuel (i + 1) r.args r.sVal (out ++ r.out)
      else vprintfkLoop device format fuel (i + 1) args sVal (out ++ [putchark device c])
    else some (.ok (args, out))

/-- The arguments left over and the output. -/
def vprintfk (fuel : Nat) (device : BitVec 32) (format : CString) (args : List Arg)
    (sVal : Buffer) : Option (Except Fault (List Arg × List Write)) :=
  vprintfkLoop device format fuel 0 args sVal []

/-! ## The meaning of a format -/

inductive Item where
  | literal (c : BitVec 8)
  | directive (pad : Option (BitVec 8)) (conv : Option (BitVec 8))
  deriving DecidableEq

def isDigit (c : BitVec 8) : Bool := ascii '0' ≤ c && c ≤ ascii '9'

/-- The parse from left to right. A directive cut off by the end of the format has no
    conversion character. -/
def parse : List (BitVec 8) → List Item
  | [] => []
  | c :: cs =>
    if c = ascii '%' then
      match cs with
      | [] => [.directive none none]
      | d :: cs =>
        if isDigit d then
          match cs with
          | [] => [.directive (some d) none]
          | v :: cs => .directive (some d) (some v) :: parse cs
        else .directive none (some d) :: parse cs
    else .literal c :: parse cs

def Item.bytes : Item → List (BitVec 8)
  | .literal c => [c]
  | .directive pad conv => ascii '%' :: (pad.toList ++ conv.toList)

/-- The parse spells the format. -/
theorem flatMap_bytes_parse (cs : List (BitVec 8)) : (parse cs).flatMap Item.bytes = cs := by
  fun_induction parse cs with
  | case1 => rfl
  | case2 => rfl
  | case3 => rfl
  | case4 d v cs hd ih =>
    rw [List.flatMap_cons, ih]
    rfl
  | case5 d cs hd ih =>
    rw [List.flatMap_cons, ih]
    rfl
  | case6 c cs hc ih =>
    rw [List.flatMap_cons, ih]
    rfl

/-- The arguments behind the one the conversion takes, if it finds one of its type. -/
def takeArg : Conv → List Arg → Option (List Arg)
  | .percent, args => some args
  | .unknown, args => some args
  | .char, .int _ :: args => some args
  | .decimal, .int _ :: args => some args
  | .unsigned, .int _ :: args => some args
  | .hex, .int _ :: args => some args
  | .long, .long _ :: args => some args
  | .longHex, .long _ :: args => some args
  | .string, .string _ :: args => some args
  | _, _ => none

/-- The conversion a directive selects. -/
def convOf (conv : Option (BitVec 8)) : Conv := Conv.ofChar (conv.getD 0)

/-- The arguments behind the ones the items take: `none` if the list does not match. -/
def takeArgs : List Item → List Arg → Option (List Arg)
  | [], args => some args
  | .literal _ :: items, args => takeArgs items args
  | .directive _ conv :: items, args => (takeArg (convOf conv) args).bind (takeArgs items)

/-- The pad a digit stands for. -/
def padWidth (pad : Option (BitVec 8)) : Nat := (pad.map fun d => d.toNat - 48).getD 0

/-- The text of a conversion with pad `pad`, and the arguments it leaves. -/
inductive Converts (pad : Nat) : Conv → List Arg → List (BitVec 8) → List Arg → Prop
  | percent (args : List Arg) : Converts pad .percent args [ascii '%'] args
  | char (v : BitVec 32) (args : List Arg) :
      Converts pad .char (.int v :: args) [v.setWidth 8] args
  | decimal (v : BitVec 32) (args : List Arg) {s : List (BitVec 8)}
      (h : Writes (fun fuel str => itoa fuel v str 10) s) :
      Converts pad .decimal (.int v :: args)
        (List.replicate (pad - s.length) (ascii '0') ++ s) args
  | unsigned (v : BitVec 32) (args : List Arg) {s : List (BitVec 8)}
      (h : Writes (fun fuel str => itoa fuel v str 10) s) :
      Converts pad .unsigned (.int v :: args) s args
  | hex (v : BitVec 32) (args : List Arg) {s : List (BitVec 8)}
      (h : Writes (fun fuel str => itoa fuel v str 16) s) :
      Converts pad .hex (.int v :: args) s args
  | long (v : BitVec 64) (args : List Arg) {s : List (BitVec 8)}
      (h : Writes (fun fuel str => ulltoa fuel v str 10) s) :
      Converts pad .long (.long v :: args) s args
  | longHex (v : BitVec 64) (args : List Arg) {s : List (BitVec 8)}
      (h : Writes (fun fuel str => ulltoa fuel v str 16) s) :
      Converts pad .longHex (.long v :: args) s args
  | string (s : CString) (args : List Arg) :
      Converts pad .string (.string s :: args) s.bytes args
  | unknown (args : List Arg) : Converts pad .unknown args [] args

/-- The text of the items, and the arguments they leave. -/
inductive Expands : List Item → List Arg → List (BitVec 8) → List Arg → Prop
  | nil (args : List Arg) : Expands [] args [] args
  | literal (c : BitVec 8) {items : List Item} {args rest : List Arg} {text : List (BitVec 8)}
      (h : Expands items args text rest) :
      Expands (.literal c :: items) args (c :: text) rest
  | directive {pad conv : Option (BitVec 8)} {items : List Item} {args args' rest : List Arg}
      {cs text : List (BitVec 8)} (hc : Converts (padWidth pad) (convOf conv) args cs args')
      (h : Expands items args' text rest) :
      Expands (.directive pad conv :: items) args (cs ++ text) rest

/-! ## Strings and padding -/

theorem printLoop_yields (write : BitVec 8 → Write) {str : Buffer} {cs : List (BitVec 8)}
    (h : Holds str cs) (hlen : cs.length < 2 ^ 32) (d i : Nat) (hd : i + d = cs.length)
    (out : List Write) :
    Yields (printStep write str cs.length) (BitVec.ofNat 32 i, out)
      (out ++ (cs.drop i).map write) := by
  have hi : (BitVec.ofNat 32 i).toNat = i := by
    rw [BitVec.toNat_ofNat]
    omega
  induction d generalizing i out with
  | zero =>
    refine Yields.exit ?_
    simp only [printStep, hi]
    rw [if_neg (by omega), List.drop_eq_nil_of_le (by omega), List.map_nil, List.append_nil]
  | succ d ih =>
    have hlt : i < cs.length := by omega
    have hbyte : str i = cs[i] := h.bytes i _ (List.getElem?_eq_getElem hlt)
    have hnext := ih (i + 1) (by omega) (out ++ [write cs[i]]) (by
      rw [BitVec.toNat_ofNat]
      omega)
    rw [List.drop_eq_getElem_cons hlt, List.map_cons, ← List.singleton_append,
      ← List.append_assoc]
    refine Yields.again ?_ hnext
    simp only [printStep, hi, hbyte]
    rw [if_pos hlt, BitVec.ofNat_add]
    rfl

theorem printString_returns (write : BitVec 8 → Write) {str : Buffer} {cs : List (BitVec 8)}
    (h : Holds str cs) (hlen : cs.length < 2 ^ 32) :
    Returns (fun n => printString write n str) (cs.map write) := by
  have hloop := (printLoop_yields write h hlen cs.length 0 (by omega) []).returns
  exact h.strlen.bind (g := fun len n => loop (printStep write str len) n (0, [])) hloop

/-- The 32-bit index of the loop never reaches a length of 2^32 or more. -/
theorem printString_endless (write : BitVec 8 → Write) {str : Buffer} {cs : List (BitVec 8)}
    (h : Holds str cs) (hlen : 2 ^ 32 ≤ cs.length) (n : Nat) : printString write n str = none := by
  have hloop : ∀ m st, loop (printStep write str cs.length) m st = none := by
    intro m
    induction m with
    | zero => exact fun _ => rfl
    | succ m ih =>
      intro ⟨i, out⟩
      have hstep : printStep write str cs.length (i, out) =
          .inl (i + 1, out ++ [write (str i.toNat)]) := by
        simp only [printStep]
        rw [if_pos (Nat.lt_of_lt_of_le i.isLt hlen)]
      rw [loop_again hstep]
      exact ih _
  unfold printString
  cases hrun : strlen n str with
  | none => rfl
  | some len =>
    have hlen := ((strlen_fuelMono _).returns hrun).unique h.strlen
    rw [Option.bind_some, hlen]
    exact hloop n _

/-- `putsk` passes the bytes of the string to the device, one by one. -/
theorem putsk_returns (device : BitVec 32) {s : Buffer} {cs : List (BitVec 8)} (h : Holds s cs)
    (hlen : cs.length < 2 ^ 32) :
    Returns (fun n => putsk n device s) (cs.map (putchark device)) := by
  unfold putsk putchark
  by_cases hdev : deviceScreen.slt device = true
  · simp only [if_pos hdev]
    exact printString_returns _ h hlen
  · simp only [if_neg hdev]
    exact printString_returns _ h hlen

theorem padLoop_yields (device : BitVec 32) {len : Nat} (hlen : len < 2 ^ 8) (d : Nat)
    (leftpad : BitVec 8) (hd : d = leftpad.toNat - len) (out : List Write) :
    Yields (padStep device len) (leftpad, out)
      (out ++ (List.replicate d (ascii '0')).map (putchark device)) := by
  have hmod : len % 2 ^ 8 = len := Nat.mod_eq_of_lt hlen
  induction d generalizing leftpad out with
  | zero =>
    refine Yields.exit ?_
    simp only [padStep, hmod]
    rw [if_neg (by omega), List.replicate_zero, List.map_nil, List.append_nil]
  | succ d ih =>
    have hlt := leftpad.isLt
    have hpred : (leftpad - 1).toNat = leftpad.toNat - 1 := by
      rw [BitVec.toNat_sub, show (1 : BitVec 8).toNat = 1 from rfl]
      omega
    have hnext := ih (leftpad - 1) (by omega) (out ++ [putchark device (ascii '0')])
    rw [List.replicate_succ, List.map_cons, ← List.singleton_append, ← List.append_assoc]
    refine Yields.again ?_ hnext
    simp only [padStep, hmod]
    rw [if_pos (by omega)]

/-! ## One conversion -/

/-- The conversion ends on every device with the text `cs` and leaves `args'`. -/
def Outputs (leftpad : BitVec 8) (conv : Conv) (args : List Arg) (cs : List (BitVec 8))
    (args' : List Arg) : Prop :=
  ∀ device sVal, ∃ sVal', Returns (fun n => convert n device leftpad conv args sVal)
    (.ok ⟨args', sVal', cs.map (putchark device)⟩)

theorem putNumber_returns (device : BitVec 32) (args : List Arg) (zeros : List Write)
    {sVal : Buffer} {s : List (BitVec 8)} (h : Holds sVal s) (hlen : s.length < 2 ^ 32) :
    Returns (fun n => putNumber n device args zeros sVal)
      (.ok ⟨args, sVal, zeros ++ s.map (putchark device)⟩) :=
  (putsk_returns device h hlen).bind (returns_const _)

theorem printNumber_returns {write : Nat → Buffer → Option Buffer} {s : List (BitVec 8)}
    (h : Writes write s) (hlen : s.length < 2 ^ 32) (args : List Arg) (device : BitVec 32)
    (sVal : Buffer) :
    ∃ sVal', Returns (fun n => printNumber n device write args sVal)
      (.ok ⟨args, sVal', s.map (putchark device)⟩) := by
  obtain ⟨sVal', hret, hholds⟩ := h sVal
  exact ⟨sVal', hret.bind (g := fun sVal n => putNumber n device args [] sVal)
    (putNumber_returns device args [] hholds hlen)⟩

theorem padNumber_returns (device : BitVec 32) (leftpad : BitVec 8) (args : List Arg)
    {sVal : Buffer} {s : List (BitVec 8)} (h : Holds sVal s) (hlen : s.length < 2 ^ 8) :
    Returns (fun n => padNumber n device leftpad args sVal)
      (.ok ⟨args, sVal,
        (List.replicate (leftpad.toNat - s.length) (ascii '0') ++ s).map (putchark device)⟩) := by
  have hpad := (padLoop_yields device hlen _ leftpad rfl []).returns
  refine h.strlen.bind (g := fun len n => (loop (padStep device len) n (leftpad, [])).bind
    fun zeros => putNumber n device args zeros sVal) ?_
  refine hpad.bind (g := fun zeros n => putNumber n device args zeros sVal) ?_
  rw [List.map_append]
  exact putNumber_returns device args _ h (by omega)

theorem decimal_outputs (leftpad : BitVec 8) (v : BitVec 32) (args : List Arg)
    {s : List (BitVec 8)} (h : Writes (fun fuel str => itoa fuel v str 10) s)
    (hlen : s.length < 2 ^ 8) :
    Outputs leftpad .decimal (.int v :: args)
      (List.replicate (leftpad.toNat - s.length) (ascii '0') ++ s) args := by
  intro device sVal
  obtain ⟨sVal', hret, hholds⟩ := h sVal
  exact ⟨sVal', hret.bind (g := fun sVal n => padNumber n device leftpad args sVal)
    (padNumber_returns device leftpad args hholds hlen)⟩

/-- Every conversion that finds its argument ends with the text of `Converts`. -/
theorem convert_outputs (leftpad : BitVec 8) {conv : Conv} {args args' : List Arg}
    (hargs : takeArg conv args = some args')
    (hstr : ∀ s, Arg.string s ∈ args → s.bytes.length < 2 ^ 32) :
    ∃ cs, Converts leftpad.toNat conv args cs args' ∧ Outputs leftpad conv args cs args' := by
  cases conv with
  | percent =>
    cases hargs
    exact ⟨_, Converts.percent args, fun _ sVal => ⟨sVal, returns_const _⟩⟩
  | unknown =>
    cases hargs
    exact ⟨_, Converts.unknown args, fun _ sVal => ⟨sVal, returns_const _⟩⟩
  | char =>
    match args, hargs with
    | .int v :: args, rfl =>
      exact ⟨_, Converts.char v args, fun _ sVal => ⟨sVal, returns_const _⟩⟩
  | decimal =>
    match args, hargs with
    | .int v :: args, rfl =>
      obtain ⟨s, hlen, hs⟩ := itoa_string v (Or.inl rfl)
      exact ⟨_, Converts.decimal v args hs, decimal_outputs leftpad v args hs (by omega)⟩
  | unsigned =>
    match args, hargs with
    | .int v :: args, rfl =>
      obtain ⟨s, hlen, hs⟩ := itoa_string v (Or.inl rfl)
      exact ⟨s, Converts.unsigned v args hs, printNumber_returns hs (by omega) args⟩
  | hex =>
    match args, hargs with
    | .int v :: args, rfl =>
      obtain ⟨s, hlen, hs⟩ := itoa_string v (Or.inr rfl)
      exact ⟨s, Converts.hex v args hs, printNumber_returns hs (by omega) args⟩
  | long =>
    match args, hargs with
    | .long v :: args, rfl =>
      obtain ⟨s, hlen, hs⟩ := ulltoa_string v (Or.inl rfl)
      exact ⟨s, Converts.long v args hs, printNumber_returns hs (by omega) args⟩
  | longHex =>
    match args, hargs with
    | .long v :: args, rfl =>
      obtain ⟨s, hlen, hs⟩ := ulltoa_string v (Or.inr rfl)
      exact ⟨s, Converts.longHex v args hs, printNumber_returns hs (by omega) args⟩
  | string =>
    match args, hargs, hstr with
    | .string s :: args, rfl, hstr =>
      refine ⟨s.bytes, Converts.string s args, fun device sVal => ⟨sVal, ?_⟩⟩
      exact (putsk_returns device s.holds (hstr s (List.mem_cons_self ..))).bind
        (returns_const _)

theorem takeArg_subset {conv : Conv} {args args' : List Arg} (h : takeArg conv args = some args')
    {a : Arg} (ha : a ∈ args') : a ∈ args := by
  unfold takeArg at h
  split at h <;> cases h <;> first | exact ha | exact List.mem_cons_of_mem _ ha

/-! ## The loop -/

theorem formatAt_eq (format : CString) {k : Nat} (hk : k ≤ format.bytes.length) :
    formatAt format k = .ok ((format.bytes[k]?).getD 0) := by
  rw [formatAt, if_pos hk, CString.buffer, List.getD_eq_getElem?_getD]

/-- `format[i + 1] - '0'` is at most 9 as a `uint8_t` for the digits only. -/
theorem isdigitk_sub (c : BitVec 8) : isdigitk (c - ascii '0') = isDigit c := by
  revert c
  decide

theorem padWidth_digit {d : BitVec 8} (hd : isDigit d = true) :
    padWidth (some d) = (d - ascii '0').toNat := by
  revert d
  decide

/-- A directive with a digit, and one without. -/
theorem parse_percent (cs : List (BitVec 8)) :
    parse (ascii '%' :: cs) =
      if isDigit ((cs[0]?).getD 0) then .directive cs[0]? cs[1]? :: parse (cs.drop 2)
      else .directive none cs[0]? :: parse (cs.drop 1) := by
  cases cs with
  | nil => rfl
  | cons d cs =>
    cases cs with
    | nil => simp [parse]
    | cons v cs => simp [parse]

theorem readDirective_eq (format : CString) (hlen : format.bytes.length < 2 ^ 32 - 2) {p : Nat}
    (hp : p < format.bytes.length) :
    readDirective format (BitVec.ofNat 32 p) = .ok
      (if isDigit ((format.bytes[p + 1]?).getD 0) then
        ((format.bytes[p + 1]?).getD 0 - ascii '0', (format.bytes[p + 2]?).getD 0,
          BitVec.ofNat 32 (p + 2))
      else (0, (format.bytes[p + 1]?).getD 0, BitVec.ofNat 32 (p + 1))) := by
  have hone : BitVec.ofNat 32 p + 1 = BitVec.ofNat 32 (p + 1) := by
    rw [BitVec.ofNat_add]
    rfl
  have htwo : BitVec.ofNat 32 p + 1 + 1 = BitVec.ofNat 32 (p + 2) := by
    rw [hone, show p + 2 = p + 1 + 1 from rfl, BitVec.ofNat_add (p + 1) 1]
    rfl
  have hto : ∀ k, k < 2 ^ 32 → (BitVec.ofNat 32 k).toNat = k := by
    intro k hk
    rw [BitVec.toNat_ofNat, Nat.mod_eq_of_lt hk]
  unfold readDirective
  rw [hone, hto _ (by omega), formatAt_eq format (by omega)]
  simp only [bind, Except.bind, isdigitk_sub]
  by_cases hd : isDigit ((format.bytes[p + 1]?).getD 0) = true
  · -- a digit is not the terminator, so the conversion is read at most there
    have hlt : p + 1 < format.bytes.length := by
      by_contra hge
      rw [List.getElem?_eq_none (by omega)] at hd
      exact absurd hd (by decide)
    simp only [hd, if_true]
    rw [← hone, htwo, hto _ (by omega), formatAt_eq format (by omega)]
    rfl
  · simp only [hd, if_false, Bool.false_eq_true]
    rw [hone, hto _ (by omega), formatAt_eq format (by omega)]
    rfl

section Loop

variable {device : BitVec 32} {format : CString} {args : List Arg} {sVal : Buffer}
  {out : List Write} {res : Except Fault (List Arg × List Write)} {i : BitVec 32}

theorem loop_done (h : ¬ i.toNat < format.bytes.length) :
    Returns (fun n => vprintfkLoop device format n i args sVal out) (.ok (args, out)) := by
  refine (returns_const _).of_succ fun n => ?_
  simp only [vprintfkLoop]
  rw [if_neg h]

theorem loop_literal (h : i.toNat < format.bytes.length)
    (hc : format.buffer i.toNat ≠ ascii '%')
    (hrec : Returns (fun n => vprintfkLoop device format n (i + 1) args sVal
      (out ++ [putchark device (format.buffer i.toNat)])) res) :
    Returns (fun n => vprintfkLoop device format n i args sVal out) res := by
  refine hrec.of_succ fun n => ?_
  simp only [vprintfkLoop]
  rw [if_pos h, if_neg hc]

theorem loop_directive (h : i.toNat < format.bytes.length)
    (hc : format.buffer i.toNat = ascii '%') {leftpad conv : BitVec 8} {i' : BitVec 32}
    (hread : readDirective format i = .ok (leftpad, conv, i')) {args' : List Arg}
    {cs : List (BitVec 8)} (hout : Outputs leftpad (Conv.ofChar conv) args cs args')
    (hrec : ∀ sVal', Returns (fun n => vprintfkLoop device format n (i' + 1) args' sVal'
      (out ++ cs.map (putchark device))) res) :
    Returns (fun n => vprintfkLoop device format n i args sVal out) res := by
  obtain ⟨sVal', hconv⟩ := hout device sVal
  refine (hconv.bind (g := fun r n => match r with
    | .error e => some (.error e)
    | .ok r => vprintfkLoop device format n (i' + 1) r.args r.sVal (out ++ r.out))
    (hrec sVal')).of_succ fun n => ?_
  simp only [vprintfkLoop]
  rw [if_pos h, if_pos hc, hread]

end Loop

/-- The strings among the arguments are shorter than 2^32 bytes. -/
def ShortStrings (args : List Arg) : Prop :=
  ∀ s, Arg.string s ∈ args → s.bytes.length < 2 ^ 32

theorem parse_literal {c : BitVec 8} (hc : c ≠ ascii '%') (cs : List (BitVec 8)) :
    parse (c :: cs) = .literal c :: parse cs := by
  cases cs with
  | nil => simp [parse, hc]
  | cons d cs =>
    cases cs with
    | nil => simp [parse, hc]
    | cons v cs => simp [parse, hc]

/-- The loop from index `p` on outputs the text of `items`, whatever it has output before. -/
def LoopExpands (format : CString) (p : Nat) (items : List Item) (args rest : List Arg) : Prop :=
  ∃ text, Expands items args text rest ∧
    ∀ device sVal out, Returns
      (fun n => vprintfkLoop device format n (BitVec.ofNat 32 p) args sVal out)
      (.ok (rest, out ++ text.map (putchark device)))

/-- A directive at `p` whose conversion character is at `q`, and the loop behind it. -/
theorem loopExpands_directive {format : CString} {p q : Nat} {leftpad : BitVec 8}
    {pad conv : Option (BitVec 8)} {items : List Item} {args rest : List Arg}
    (hlt : (BitVec.ofNat 32 p).toNat < format.bytes.length)
    (hc : format.buffer (BitVec.ofNat 32 p).toNat = ascii '%')
    (hread : readDirective format (BitVec.ofNat 32 p) =
      .ok (leftpad, conv.getD 0, BitVec.ofNat 32 q))
    (hpad : padWidth pad = leftpad.toNat)
    (hargs : takeArgs (.directive pad conv :: items) args = some rest) (hstr : ShortStrings args)
    (hrec : ∀ args', takeArgs items args' = some rest → ShortStrings args' →
      LoopExpands format (q + 1) items args' rest) :
    LoopExpands format p (.directive pad conv :: items) args rest := by
  obtain ⟨args', htake, hrest⟩ := Option.bind_eq_some_iff.mp hargs
  obtain ⟨cs, hconv, hout⟩ := convert_outputs leftpad htake hstr
  obtain ⟨text, hexp, hrun⟩ := hrec args' hrest fun s hs => hstr s (takeArg_subset htake hs)
  refine ⟨cs ++ text, Expands.directive (hpad ▸ hconv) hexp, ?_⟩
  intro device sVal out
  refine loop_directive hlt hc hread hout fun sVal' => ?_
  rw [List.map_append, ← List.append_assoc,
    show BitVec.ofNat 32 q + 1 = BitVec.ofNat 32 (q + 1) from (BitVec.ofNat_add q 1).symm]
  exact hrun device sVal' _

theorem loopExpands_literal {format : CString} {p : Nat} {c : BitVec 8} {items : List Item}
    {args rest : List Arg} (hlt : (BitVec.ofNat 32 p).toNat < format.bytes.length)
    (hbyte : format.buffer (BitVec.ofNat 32 p).toNat = c) (hc : c ≠ ascii '%')
    (hrec : LoopExpands format (p + 1) items args rest) :
    LoopExpands format p (.literal c :: items) args rest := by
  obtain ⟨text, hexp, hrun⟩ := hrec
  refine ⟨c :: text, Expands.literal c hexp, ?_⟩
  intro device sVal out
  refine loop_literal hlt (by rwa [hbyte]) ?_
  have hrest := hrun device sVal (out ++ [putchark device c])
  rw [List.append_assoc, List.singleton_append] at hrest
  rw [hbyte, List.map_cons,
    show BitVec.ofNat 32 p + 1 = BitVec.ofNat 32 (p + 1) from (BitVec.ofNat_add p 1).symm]
  exact hrest

/-- The index is past the terminator after a directive that the end of the format cuts off. -/
theorem vprintfkLoop_expands {format : CString} (hlen : format.bytes.length < 2 ^ 32 - 2)
    (d p : Nat) (hd : format.bytes.length + 2 = p + d) (hpos : 0 < d) {args rest : List Arg}
    (hargs : takeArgs (parse (format.bytes.drop p)) args = some rest)
    (hstr : ShortStrings args) :
    LoopExpands format p (parse (format.bytes.drop p)) args rest := by
  induction d using Nat.strongRecOn generalizing p args with
  | ind d ih =>
    have hp : (BitVec.ofNat 32 p).toNat = p := by
      rw [BitVec.toNat_ofNat]
      omega
    by_cases hlt : p < format.bytes.length
    · have hnat : (BitVec.ofNat 32 p).toNat < format.bytes.length := by rw [hp]; exact hlt
      have hbyte : format.buffer (BitVec.ofNat 32 p).toNat = format.bytes[p] := by
        rw [hp]
        exact format.holds.bytes p _ (List.getElem?_eq_getElem hlt)
      rw [List.drop_eq_getElem_cons hlt] at hargs ⊢
      by_cases hc : format.bytes[p] = ascii '%'
      · -- the directive, in the form in which `readDirective` reads it
        have hread := readDirective_eq format hlen hlt
        rw [hc, parse_percent] at hargs ⊢
        simp only [List.getElem?_drop, List.drop_drop, Nat.add_zero,
          show p + 1 + 1 = p + 2 from rfl, show p + 1 + 2 = p + 3 from rfl] at hargs ⊢
        by_cases hdigit : isDigit ((format.bytes[p + 1]?).getD 0) = true
        · rw [if_pos hdigit] at hargs hread ⊢
          have hlt1 : p + 1 < format.bytes.length := by
            by_contra hge
            rw [List.getElem?_eq_none (by omega)] at hdigit
            exact absurd hdigit (by decide)
          have hpad : padWidth format.bytes[p + 1]? =
              ((format.bytes[p + 1]?).getD 0 - ascii '0').toNat := by
            rw [List.getElem?_eq_getElem hlt1] at hdigit ⊢
            exact padWidth_digit hdigit
          exact loopExpands_directive hnat (hbyte.trans hc) hread hpad hargs hstr fun _ =>
            ih (d - 3) (by omega) (p + 3) (by omega) (by omega)
        · rw [if_neg hdigit] at hargs hread ⊢
          exact loopExpands_directive hnat (hbyte.trans hc) hread rfl hargs hstr fun _ =>
            ih (d - 2) (by omega) (p + 2) (by omega) (by omega)
      · rw [parse_literal hc] at hargs ⊢
        exact loopExpands_literal hnat hbyte hc
          (ih (d - 1) (by omega) (p + 1) (by omega) (by omega) hargs hstr)
    · rw [List.drop_eq_nil_of_le (by omega)] at hargs ⊢
      cases hargs
      refine ⟨[], Expands.nil _, fun device sVal out => ?_⟩
      rw [List.map_nil, List.append_nil]
      exact loop_done (by omega)

/-- For every format shorter than 2^32 - 2 bytes and every argument list that matches it and
    whose strings are shorter than 2^32 bytes, `vprintfk` ends without a fault: it leaves the
    arguments `rest`, and outputs the text of the format on whichever device it is given. -/
theorem vprintfk_expands (format : CString) (hlen : format.bytes.length < 2 ^ 32 - 2)
    {args rest : List Arg} (hargs : takeArgs (parse format.bytes) args = some rest)
    (hstr : ShortStrings args) :
    ∃ text, Expands (parse format.bytes) args text rest ∧
      ∀ device sVal, Returns (fun n => vprintfk n device format args sVal)
        (.ok (rest, text.map (putchark device))) := by
  obtain ⟨text, hexp, hrun⟩ := vprintfkLoop_expands hlen (format.bytes.length + 2) 0
    (by omega) (by omega) hargs hstr
  exact ⟨text, hexp, fun device sVal => hrun device sVal []⟩

/-- "x%3d%" -/
def sampleFormat : CString where
  bytes := [ascii 'x', ascii '%', ascii '3', ascii 'd', ascii '%']
  noNul := by decide

theorem vprintfk_expands_sampleFormat :
    ∃ text, Expands (parse sampleFormat.bytes) [.int 7] text [] ∧
      ∀ device sVal, Returns (fun n => vprintfk n device sampleFormat [.int 7] sVal)
        (.ok ([], text.map (putchark device))) := by
  refine vprintfk_expands sampleFormat (by decide) rfl ?_
  intro s hs
  simp at hs

/-! ## Strings of 4 GiB -/

/-- A string of 2^32 bytes. -/
def hugeString : CString where
  bytes := List.replicate (2 ^ 32) (ascii 'a')
  noNul b hb := by
    rw [List.eq_of_mem_replicate hb]
    decide

/-- "%s" -/
def stringFormat : CString where
  bytes := [ascii '%', ascii 's']
  noNul := by decide

theorem hugeString_putsk (n : Nat) : putsk n 0 hugeString.buffer = none := by
  have hlen : hugeString.bytes.length = 2 ^ 32 := List.length_replicate
  show printString .screen n hugeString.buffer = none
  exact printString_endless _ hugeString.holds (Nat.le_of_eq hlen.symm) n

/-- "%s" with such a string never ends. -/
theorem vprintfk_hugeString :
    ¬ ∀ (format : CString) (args rest : List Arg), format.bytes.length < 2 ^ 32 - 2 →
      takeArgs (parse format.bytes) args = some rest →
      ∀ device sVal, ∃ out, Returns (fun n => vprintfk n device format args sVal)
        (.ok (rest, out)) := by
  intro h
  obtain ⟨out, n, hn⟩ := h stringFormat [.string hugeString] [] (by decide) rfl 0 fun _ => 0
  have hrun : vprintfk (n + 1) 0 stringFormat [.string hugeString] (fun _ => 0) = some _ :=
    hn (n + 1) (by omega)
  have hconv : convert n 0 0 (Conv.ofChar (ascii 's')) [.string hugeString] (fun _ => 0) =
      none := by
    show ((putsk n 0 hugeString.buffer).bind fun out =>
      some (Except.ok (Converted.mk [] (fun _ => 0) out))) = none
    rw [hugeString_putsk]
    rfl
  have hnone : vprintfk (n + 1) 0 stringFormat [.string hugeString] (fun _ => 0) = none := by
    show (convert n 0 0 (Conv.ofChar (ascii 's')) [.string hugeString]
      (fun _ => 0)).bind _ = none
    rw [hconv]
    rfl
  rw [hnone] at hrun
  exact absurd hrun (by simp)

end Utero.Libk
