/-
  NUL-terminated strings.

  A buffer is the bytes from a pointer on, by index. `Holds buf s` says that the string `s`
  stands at its start, followed by a NUL. `strlen` is the standard function; on such a buffer
  it returns the length of `s` (`Holds.strlen`). `writeAt buf i ds` is the buffer after the
  bytes `ds` are stored at indices `i`, `i + 1`, ….

  Nothing here depends on a program.
-/
import Mathlib.Logic.Function.Basic
import Utero.Lib.Fuel

namespace Utero.Lib

abbrev Buffer := Nat → BitVec 8

structure Holds (buf : Buffer) (s : List (BitVec 8)) : Prop where
  bytes : ∀ i b, s[i]? = some b → buf i = b
  nul : buf s.length = 0
  noNul : ∀ b ∈ s, b ≠ 0

/-- A string without NUL bytes. -/
structure CString where
  bytes : List (BitVec 8)
  noNul : ∀ b ∈ bytes, b ≠ 0

/-- The bytes at the address of a string; behind the terminator they do not matter. -/
def CString.buffer (s : CString) : Buffer := fun k => s.bytes.getD k 0

theorem CString.holds (s : CString) : Holds s.buffer s.bytes where
  bytes i b h := by
    simp [buffer, h]
  nul := by
    simp [buffer]
  noNul := s.noNul

/-! ## `strlen` -/

def strlenStep (buf : Buffer) (k : Nat) : Nat ⊕ Nat :=
  if buf k = 0 then .inr k else .inl (k + 1)

def strlen (fuel : Nat) (buf : Buffer) : Option Nat :=
  loop (strlenStep buf) fuel 0

theorem Holds.strlen {buf : Buffer} {s : List (BitVec 8)} (h : Holds buf s) :
    Returns (fun n => strlen n buf) s.length := by
  have hloop : ∀ d k, k + d = s.length → Yields (strlenStep buf) k s.length := by
    intro d
    induction d with
    | zero =>
      intro k hk
      rw [Nat.add_zero] at hk
      subst hk
      refine Yields.exit ?_
      rw [strlenStep, if_pos h.nul]
    | succ d ih =>
      intro k hk
      have hlt : k < s.length := by omega
      have hget : s[k]? = some s[k] := List.getElem?_eq_getElem hlt
      have hne : buf k ≠ 0 := by
        rw [h.bytes k _ hget]
        exact h.noNul _ (List.getElem_mem hlt)
      refine Yields.again ?_ (ih (k + 1) (by omega))
      rw [strlenStep, if_neg hne]
  exact (hloop s.length 0 (by omega)).returns

/-- A buffer holds one string only. -/
theorem Holds.unique {buf : Buffer} {s t : List (BitVec 8)} (hs : Holds buf s)
    (ht : Holds buf t) : s = t := by
  have hlen := hs.strlen.unique ht.strlen
  refine List.ext_getElem hlen fun i hi hi' => ?_
  rw [← hs.bytes i _ (List.getElem?_eq_getElem hi), ← ht.bytes i _ (List.getElem?_eq_getElem hi')]

theorem strlen_fuelMono (buf : Buffer) : FuelMono (fun n => strlen n buf) :=
  loop_fuelMono _ _

/-! ## Storing bytes -/

def writeAt (buf : Buffer) : Nat → List (BitVec 8) → Buffer
  | _, [] => buf
  | i, d :: ds => writeAt (Function.update buf i d) (i + 1) ds

theorem writeAt_of_lt (buf : Buffer) (ds : List (BitVec 8)) {i k : Nat} (hk : k < i) :
    writeAt buf i ds k = buf k := by
  induction ds generalizing buf i with
  | nil => rfl
  | cons d ds ih =>
    rw [writeAt, ih _ (by omega)]
    exact Function.update_of_ne (by omega) _ _

theorem writeAt_get (buf : Buffer) (ds : List (BitVec 8)) (i : Nat) {j : Nat} {d : BitVec 8}
    (hd : ds[j]? = some d) : writeAt buf i ds (i + j) = d := by
  induction ds generalizing buf i j with
  | nil => simp at hd
  | cons e ds ih =>
    rw [writeAt]
    cases j with
    | zero =>
      obtain rfl : e = d := by simpa using hd
      rw [Nat.add_zero, writeAt_of_lt _ _ (by omega)]
      exact Function.update_self _ _ _
    | succ j =>
      rw [show i + (j + 1) = i + 1 + j by omega]
      exact ih _ (i + 1) (by simpa using hd)

theorem writeAt_append (buf : Buffer) (ds es : List (BitVec 8)) (i : Nat) :
    writeAt buf i (ds ++ es) = writeAt (writeAt buf i ds) (i + ds.length) es := by
  induction ds generalizing buf i with
  | nil => rfl
  | cons d ds ih =>
    rw [List.cons_append, writeAt, writeAt, ih, List.length_cons,
      show i + 1 + ds.length = i + (ds.length + 1) by omega]

/-- A string written from the start of the buffer on, and terminated. -/
theorem holds_writeAt (buf : Buffer) {ds : List (BitVec 8)} (hne : ∀ d ∈ ds, d ≠ 0) :
    Holds (Function.update (writeAt buf 0 ds) ds.length 0) ds where
  bytes i b h := by
    obtain ⟨hi, -⟩ := List.getElem?_eq_some_iff.mp h
    have hget := writeAt_get buf ds 0 h
    rw [Nat.zero_add] at hget
    rw [Function.update_of_ne (by omega), hget]
  nul := Function.update_self _ _ _
  noNul := hne

end Utero.Lib
