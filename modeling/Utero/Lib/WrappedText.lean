/-
  A text as the lines of a screen of a fixed width.

  `wrap width nl text` cuts a text at every `nl` and after every `width` characters. A line that
  is full is complete at once, so a character that follows it starts the next line, and an `nl`
  that follows it leaves an empty one. `Wrapped.line w j` is line `j`: a complete one, the current
  one, or the empty line behind it.

  Nothing here depends on a program.
-/
import Mathlib.Data.List.Induction
import Mathlib.Logic.Function.Basic

namespace Utero.Lib

variable {α : Type}

/-- The complete lines of a text and the line that the next character goes to. -/
structure Wrapped (α : Type) where
  done : List (List α)
  cur : List α

namespace Wrapped

def line (w : Wrapped α) (j : Nat) : List α := (w.done ++ [w.cur]).getD j []

def newline (w : Wrapped α) : Wrapped α := ⟨w.done ++ [w.cur], []⟩

def put (width : Nat) (w : Wrapped α) (c : α) : Wrapped α :=
  if w.cur.length + 1 = width then ⟨w.done ++ [w.cur ++ [c]], []⟩ else ⟨w.done, w.cur ++ [c]⟩

theorem line_lt {w : Wrapped α} {j : Nat} (h : j < w.done.length) :
    w.line j = w.done.getD j [] := by
  unfold line
  rw [List.getD_eq_getElem?_getD, List.getElem?_append_left h, List.getD_eq_getElem?_getD]

theorem line_length (w : Wrapped α) : w.line w.done.length = w.cur := by
  unfold line
  rw [List.getD_eq_getElem?_getD, List.getElem?_append_right (Nat.le_refl _), Nat.sub_self]
  rfl

theorem line_gt {w : Wrapped α} {j : Nat} (h : w.done.length < j) : w.line j = [] := by
  unfold line
  rw [List.getD_eq_getElem?_getD, List.getElem?_eq_none]
  · rfl
  · rw [List.length_append, List.length_singleton]
    omega

theorem line_append (done : List (List α)) (l : List α) (j : Nat) :
    (Wrapped.mk (done ++ [l]) []).line j = (Wrapped.mk done l).line j := by
  unfold line
  rw [List.getD_eq_getElem?_getD, List.getD_eq_getElem?_getD]
  dsimp only
  by_cases hj : j < (done ++ [l]).length
  · rw [List.getElem?_append_left hj]
  · have hnone : (done ++ [l])[j]? = none := List.getElem?_eq_none (by omega)
    rw [List.getElem?_append_right (by omega), hnone]
    cases j - (done ++ [l]).length with
    | zero => rfl
    | succ k => rfl

/-- A newline changes no line: the one it starts was empty before. -/
theorem line_newline (w : Wrapped α) : w.newline.line = w.line := by
  funext j
  exact line_append w.done w.cur j

theorem line_put (width : Nat) (w : Wrapped α) (c : α) :
    (w.put width c).line = Function.update w.line w.done.length (w.cur ++ [c]) := by
  have hput : (w.put width c).line = (Wrapped.mk w.done (w.cur ++ [c])).line := by
    funext j
    unfold put
    split
    · exact line_append w.done (w.cur ++ [c]) j
    · rfl
  rw [hput]
  funext j
  by_cases hj : j = w.done.length
  · rw [hj, Function.update_self]
    exact line_length (Wrapped.mk w.done (w.cur ++ [c]))
  · rw [Function.update_of_ne hj]
    rcases Nat.lt_or_gt_of_ne hj with hlt | hgt
    · rw [line_lt hlt]
      exact line_lt (w := Wrapped.mk w.done (w.cur ++ [c])) hlt
    · rw [line_gt hgt]
      exact line_gt (w := Wrapped.mk w.done (w.cur ++ [c])) hgt

end Wrapped

section Wrap

variable [DecidableEq α]

def wrapStep (width : Nat) (nl : α) (w : Wrapped α) (c : α) : Wrapped α :=
  if c = nl then w.newline else w.put width c

def wrap (width : Nat) (nl : α) (text : List α) : Wrapped α :=
  text.foldl (wrapStep width nl) ⟨[], []⟩

theorem wrap_snoc (width : Nat) (nl : α) (text : List α) (c : α) :
    wrap width nl (text ++ [c]) = wrapStep width nl (wrap width nl text) c := List.foldl_append

/-- The current line has room for a character. -/
theorem wrap_cur_lt {width : Nat} (hwidth : 1 < width) (nl : α) (text : List α) :
    (wrap width nl text).cur.length < width := by
  induction text using List.reverseRecOn with
  | nil => exact Nat.lt_of_succ_lt hwidth
  | append_singleton text c ih =>
    rw [wrap_snoc]
    unfold wrapStep Wrapped.newline Wrapped.put
    split
    · exact Nat.lt_of_succ_lt hwidth
    · split
      · exact Nat.lt_of_succ_lt hwidth
      · rw [List.length_append, List.length_singleton]
        omega

/-- An empty current line behind a line that is not full was started by a newline. -/
theorem wrap_ends_newline {width : Nat} {nl : α} {text : List α}
    (hcur : (wrap width nl text).cur = []) (hdone : 0 < (wrap width nl text).done.length)
    (hshort : ((wrap width nl text).line ((wrap width nl text).done.length - 1)).length < width) :
    text.getLast? = some nl := by
  induction text using List.reverseRecOn with
  | nil => exact absurd hdone (Nat.lt_irrefl 0)
  | append_singleton text c _ =>
    rw [List.getLast?_concat]
    by_cases hc : c = nl
    · rw [hc]
    · rw [wrap_snoc] at hcur hshort
      unfold wrapStep at hcur hshort
      rw [if_neg hc] at hcur hshort
      rw [Wrapped.line_put] at hshort
      unfold Wrapped.put at hcur hshort
      split at hshort
      · -- a full line is the one before the current line
        rename_i hfull
        simp only [List.length_append, List.length_singleton, Nat.add_sub_cancel,
          Function.update_self] at hshort
        omega
      · rename_i hroom
        rw [if_neg hroom] at hcur
        simp at hcur

/-- A text puts no complete line back. -/
theorem wrap_done_le (width : Nat) (nl : α) (text : List α) (c : α) :
    (wrap width nl text).done.length ≤ (wrap width nl (text ++ [c])).done.length := by
  rw [wrap_snoc]
  unfold wrapStep Wrapped.newline Wrapped.put
  split
  · simp
  · split <;> simp

/-- Characters that stay in the current line. -/
theorem wrap_put {width : Nat} {nl : α} {text l : List α} (hnl : nl ∉ l)
    (hlen : (wrap width nl text).cur.length + l.length < width) :
    wrap width nl (text ++ l) = ⟨(wrap width nl text).done, (wrap width nl text).cur ++ l⟩ := by
  induction l using List.reverseRecOn with
  | nil => rw [List.append_nil, List.append_nil]
  | append_singleton l c ih =>
    rw [List.length_append, List.length_singleton] at hlen
    rw [List.mem_append, List.mem_singleton, not_or] at hnl
    have hbefore := ih hnl.1 (by omega)
    have hput : (wrap width nl text).cur.length + l.length + 1 ≠ width := by omega
    rw [← List.append_assoc, wrap_snoc, hbefore]
    unfold wrapStep Wrapped.put
    rw [if_neg (Ne.symm hnl.2), List.length_append, if_neg hput, List.append_assoc]

/-- A text given by its lines. -/
theorem wrap_lines {width : Nat} {nl : α} {ls : List (List α)} {cur : List α}
    (h : ∀ l ∈ cur :: ls, nl ∉ l ∧ l.length < width) :
    wrap width nl (ls.flatMap (· ++ [nl]) ++ cur) = ⟨ls, cur⟩ := by
  induction ls using List.reverseRecOn generalizing cur with
  | nil =>
    have hcur := h cur List.mem_cons_self
    rw [List.flatMap_nil, wrap_put hcur.1 (by simpa [wrap] using hcur.2)]
    rfl
  | append_singleton ls l ih =>
    have hcur := h cur List.mem_cons_self
    have hline : wrap width nl (ls.flatMap (· ++ [nl]) ++ l) = ⟨ls, l⟩ := by
      refine ih fun k hk => h k ?_
      simp only [List.mem_cons, List.mem_append, List.not_mem_nil, or_false] at hk ⊢
      tauto
    have hnewline : wrap width nl ((ls ++ [l]).flatMap (· ++ [nl])) = ⟨ls ++ [l], []⟩ := by
      rw [List.flatMap_append, List.flatMap_singleton, ← List.append_assoc, wrap_snoc, hline]
      unfold wrapStep
      rw [if_pos rfl]
      rfl
    have hroom : (wrap width nl ((ls ++ [l]).flatMap (· ++ [nl]))).cur.length + cur.length <
        width := by
      rw [hnewline, List.length_nil, Nat.zero_add]
      exact hcur.2
    rw [wrap_put hcur.1 hroom, hnewline, List.nil_append]

end Wrap

end Utero.Lib
