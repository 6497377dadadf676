/-
  What the screen shows of a text: `screen_print` after `screen_init` and `screen_clear` of
  `src/drivers/screen.c`.

  The text is cut into lines by `linesOf` (newlines, and a new line after every 80 characters).
  `Follows` says where the cursor is and what every cell holds after a text, in terms of its
  lines alone; `follows_run` is the simulation, over texts of any length. The row copy in
  `screen_write_at` stops at row 23, so scrolling goes wrong from the first time on:
  * row 23 is copied to row 22 but keeps its own content, and the line that comes into it is
    written over it from column 2 on (`covered`);
  * the row of the line that scrolls, row 24, is cleared with its first two characters in it;
  * a line that follows one of at most one character begins in row 25, behind the page
    (`behind`);
  * `screen_clear` leaves row 24 as it was.

  `showsText_iff`: the screen shows the text if and only if its lines hide all of this
  (`Undisturbed`) and the text is shorter than 2^32 bytes. Texts of at most 23 complete lines do
  (`undisturbed_of_few`).
-/
import Mathlib.Data.Nat.Init
import Mathlib.Tactic.SplitIfs
import Utero.Drivers.Screen
import Utero.Lib.WrappedText

namespace Utero.Drivers

open Utero.Lib
open Utero.Libk (ascii)

namespace Screen

/-! ## Cells -/

/-- A zero byte shows as a blank. -/
def glyph (b : BitVec 8) : BitVec 8 := if b = 0 then ascii ' ' else b

theorem glyph_of_ne {b : BitVec 8} (h : b ≠ 0) : glyph b = b := if_neg h

/-- What row `r` shows in column `c`. -/
def cellAt (s : Screen) (r c : Nat) : BitVec 8 := glyph (s.framebuffer.bytes (offsetOf c r))

/-- Cells have even offsets of their own. -/
theorem store_offset {r c y x : Nat} (hc : c < 80) (hx : x < 80) (v : Video) (b scheme : BitVec 8) :
    ((v.store (offsetOf x y) b).store (offsetOf x y + 1) scheme).bytes (offsetOf c r) =
      if r = y ∧ c = x then b else v.bytes (offsetOf c r) := by
  have hcell := offsetOf_eq c r
  have hstore := offsetOf_eq x y
  rw [Video.store_bytes, Video.store_bytes, if_neg (by omega)]
  by_cases heq : r = y ∧ c = x
  · rw [if_pos heq, if_pos (by omega)]
  · rw [if_neg heq, if_neg (by omega)]

/-- The cells with another one at column `x` of row `y`. -/
def setCell (cells : Nat → Nat → BitVec 8) (y x : Nat) (b : BitVec 8) (r c : Nat) : BitVec 8 :=
  if r = y ∧ c = x then b else cells r c

theorem setCell_otherRow (cells : Nat → Nat → BitVec 8) {y r : Nat} (h : r ≠ y) (x : Nat)
    (b : BitVec 8) (c : Nat) : setCell cells y x b r c = cells r c := if_neg fun hs => h hs.1

theorem cellAt_writeAt {s : Screen} {b scheme : BitVec 8} {x y : Nat} (hx : x < 80)
    (hoff : 80 * y + x ≤ 1920) {r c : Nat} (hc : c < 80) :
    (s.screenWriteAt b scheme x y).cellAt r c = setCell s.cellAt y x (glyph b) r c := by
  unfold setCell cellAt
  rw [screenWriteAt_eq]
  dsimp only
  rw [if_neg (by rw [offsetOf_eq]; omega), store_offset hc hx, apply_ite glyph]

/-- The cells of the page after it scrolls. -/
def scrollCells (cells : Nat → Nat → BitVec 8) (r c : Nat) : BitVec 8 :=
  if r ≤ 22 then cells (r + 1) c else if r = 24 then ascii ' ' else cells r c

theorem scrollCells_behind (cells : Nat → Nat → BitVec 8) (c : Nat) :
    scrollCells cells 25 c = cells 25 c := rfl

/-- When the store scrolls, the stored glyph moves with its row. -/
theorem cellAt_writeAt_scroll {s : Screen} {b scheme : BitVec 8} {x y : Nat} (hx : x < 80)
    (hoff : 1920 < 80 * y + x) {r c : Nat} (hc : c < 80) :
    (s.screenWriteAt b scheme x y).cellAt r c =
      scrollCells (setCell s.cellAt y x (glyph b)) r c := by
  have hcell := offsetOf_eq c r
  have hnext : offsetOf c r + 160 = offsetOf c ((r + 1 : Nat) : Int) := by
    rw [offsetOf_eq, offsetOf_eq]
    omega
  unfold scrollCells setCell cellAt
  rw [screenWriteAt_eq]
  dsimp only
  rw [if_pos (by rw [offsetOf_eq]; omega)]
  dsimp only
  rw [Video.scroll_bytes, hnext, store_offset hc hx, store_offset hc hx]
  by_cases hrows : r ≤ 22
  · rw [if_pos hrows, if_pos (by omega), apply_ite glyph]
  · rw [if_neg hrows, if_neg (by omega)]
    by_cases hlast : r = 24
    · rw [if_pos hlast, if_pos (by omega)]
      rfl
    · rw [if_neg hlast, if_neg (by omega), apply_ite glyph]

theorem cellAt_moveCursor (s : Screen) (pos : BitVec 16) :
    (s.moveCursor pos).cellAt = s.cellAt := by
  funext r c
  unfold cellAt
  rw [moveCursor_framebuffer]

theorem cellAt_writeGlyph (s : Screen) (b : BitVec 8) (r c : Nat) :
    (s.writeGlyph b).cellAt r c = (s.screenWriteAt b s.scheme s.col s.row).cellAt r c := by
  unfold cellAt
  rw [writeGlyph_framebuffer]

/-! ## A cleared screen -/

theorem clearCells_succ (s : Screen) (y : Int) (n : Nat) :
    s.clearCells y (n + 1) =
      (s.clearCells y n).screenWriteAt (ascii ' ') (s.clearCells y n).scheme n y := by
  unfold clearCells
  rw [Nat.fold_succ]

theorem clearRows_succ (s : Screen) (n : Nat) :
    s.clearRows (n + 1) = (s.clearRows n).clearCells n 80 := by
  unfold clearRows
  rw [Nat.fold_succ]
  rfl

theorem cellAt_clearCells (s : Screen) {y : Nat} (hy : y < 24) {n : Nat} (hn : n ≤ 80) {r c : Nat}
    (hc : c < 80) :
    (s.clearCells y n).cellAt r c = if r = y ∧ c < n then ascii ' ' else s.cellAt r c := by
  induction n with
  | zero =>
    rw [if_neg (by omega)]
    rfl
  | succ n ih =>
    rw [clearCells_succ, cellAt_writeAt (by omega) (by omega) hc]
    unfold setCell
    rw [ih (by omega)]
    by_cases hcell : r = y ∧ c = n
    · rw [if_pos hcell, if_pos (by omega)]
      rfl
    · rw [if_neg hcell]
      by_cases hin : r = y ∧ c < n
      · rw [if_pos hin, if_pos (by omega)]
      · rw [if_neg hin, if_neg (by omega)]

theorem cellAt_clearRows (s : Screen) {n : Nat} (hn : n ≤ 24) {r c : Nat} (hc : c < 80) :
    (s.clearRows n).cellAt r c = if r < n then ascii ' ' else s.cellAt r c := by
  induction n with
  | zero =>
    rw [if_neg (by omega)]
    rfl
  | succ n ih =>
    rw [clearRows_succ, cellAt_clearCells _ (by omega) (Nat.le_refl 80) hc, ih (by omega)]
    by_cases hrow : r = n
    · rw [if_pos ⟨hrow, hc⟩, if_pos (by omega)]
    · rw [if_neg (fun h => hrow h.1)]
      by_cases hlt : r < n
      · rw [if_pos hlt, if_pos (by omega)]
      · rw [if_neg hlt, if_neg (by omega)]

/-- `screen_clear` leaves the last row of the page as it was. -/
theorem cellAt_screenClear (s : Screen) {r c : Nat} (hc : c < 80) :
    s.screenClear.cellAt r c = if r < 24 then ascii ' ' else s.cellAt r c :=
  cellAt_clearRows s (Nat.le_refl 24) hc

theorem clearCells_cursor (s : Screen) {y : Nat} (hy : y < 24) {n : Nat} (hn : n ≤ 80) :
    (s.clearCells y n).col = s.col ∧ (s.clearCells y n).row = s.row := by
  induction n with
  | zero => exact ⟨rfl, rfl⟩
  | succ n ih =>
    rw [clearCells_succ, screenWriteAt_col, screenWriteAt_row, offsetOf_eq, if_neg (by omega)]
    exact ih (by omega)

theorem screenClear_cursor (s : Screen) :
    s.screenClear.col = s.col ∧ s.screenClear.row = s.row := by
  have hrows : ∀ n, n ≤ 24 → (s.clearRows n).col = s.col ∧ (s.clearRows n).row = s.row := by
    intro n hn
    induction n with
    | zero => exact ⟨rfl, rfl⟩
    | succ n ih =>
      rw [clearRows_succ]
      obtain ⟨hcol, hrow⟩ := clearCells_cursor (s.clearRows n) (show n < 24 by omega)
        (Nat.le_refl 80)
      rw [hcol, hrow]
      exact ih (by omega)
  exact hrows 24 (Nat.le_refl 24)

/-! ## What the framebuffer keeps of the lines of a text -/

abbrev Line := List (BitVec 8)

/-- Column `c` of a line. -/
def cell (l : Line) (c : Nat) : BitVec 8 := l.getD c (ascii ' ')

theorem cell_of_le {l : Line} {c : Nat} (h : l.length ≤ c) : cell l c = ascii ' ' := by
  unfold cell
  rw [List.getD_eq_getElem?_getD, List.getElem?_eq_none h]
  rfl

theorem cell_append_length (l : Line) (b : BitVec 8) : cell (l ++ [b]) l.length = b := by
  unfold cell
  rw [List.getD_eq_getElem?_getD, List.getElem?_concat_length]
  rfl

theorem cell_append_ne {l : Line} {b : BitVec 8} {c : Nat} (h : c ≠ l.length) :
    cell (l ++ [b]) c = cell l c := by
  rcases Nat.lt_or_gt_of_ne h with hlt | hgt
  · unfold cell
    rw [List.getD_eq_getElem?_getD, List.getElem?_append_left hlt, List.getD_eq_getElem?_getD]
  · have hlen : (l ++ [b]).length ≤ c := by
      rw [List.length_append, List.length_singleton]
      omega
    rw [cell_of_le hlen, cell_of_le (Nat.le_of_lt hgt)]

/-- Column `c` of the row that should show line `j`. Lines 0 to 23 are shown as they are. Every
    later one is written into row 23 from column 2 on, over what the line before it left. -/
def covered (ls : Nat → Line) : Nat → Nat → BitVec 8
  | 0, c => cell (ls 0) c
  | j + 1, c =>
    if j + 1 ≤ 23 ∨ (2 ≤ c ∧ c < (ls (j + 1)).length) then cell (ls (j + 1)) c
    else covered ls j c

/-- The cell behind the page, column 0 of row 25, after the first `n` lines: a line behind one
    that ended in row 24 is begun there. -/
def behind (memory : Int → BitVec 8) (ls : Nat → Line) : Nat → BitVec 8
  | 0 => glyph (memory (offsetOf 0 25))
  | n + 1 =>
    if 25 ≤ n ∧ (ls (n - 1)).length ≤ 1 ∧ ls n ≠ [] then cell (ls n) 0 else behind memory ls n

theorem covered_of_le (ls : Nat → Line) {j : Nat} (hj : j ≤ 23) (c : Nat) :
    covered ls j c = cell (ls j) c := by
  cases j with
  | zero => rfl
  | succ j => rw [covered, if_pos (Or.inl hj)]

theorem covered_short {ls : Nat → Line} {j : Nat} (hj : 23 ≤ j) (hshort : (ls (j + 1)).length ≤ 2)
    (c : Nat) : covered ls (j + 1) c = covered ls j c := by
  rw [covered, if_neg (by omega)]

theorem covered_congr {ls ls' : Nat → Line} {j : Nat} (h : ∀ i, i ≤ j → ls i = ls' i) (c : Nat) :
    covered ls j c = covered ls' j c := by
  induction j with
  | zero => rw [covered, covered, h 0 (Nat.le_refl 0)]
  | succ j ih =>
    rw [covered, covered, h (j + 1) (Nat.le_refl _), ih fun i hi => h i (by omega)]

theorem behind_congr (memory : Int → BitVec 8) {ls ls' : Nat → Line} {n : Nat}
    (h : ∀ i, i < n → ls i = ls' i) : behind memory ls n = behind memory ls' n := by
  induction n with
  | zero => rfl
  | succ n ih =>
    rw [behind, behind, h n (by omega), h (n - 1) (by omega), ih fun i hi => h i (by omega)]

theorem behind_nil (memory : Int → BitVec 8) {ls : Nat → Line} {n : Nat} (h : ls n = []) :
    behind memory ls (n + 1) = behind memory ls n := by
  rw [behind, if_neg (fun hn => hn.2.2 h)]

/-- What the cells of the screen are when `d` lines were scrolled off and the first `n` lines of
    `ls` were written. -/
structure Pictures (memory : Int → BitVec 8) (ls : Nat → Line) (d n : Nat)
    (cells : Nat → Nat → BitVec 8) : Prop where
  upper : ∀ r c, r ≤ 23 → c < 80 → cells r c = covered ls (d + r) c
  last : d = 0 → ∀ c, c < 80 → cells 24 c =
    if c < (ls 24).length then cell (ls 24) c else glyph (memory (offsetOf c 24))
  scrolled : 0 < d → ∀ c, c < 80 → cells 24 c =
    if (ls (d + 23)).length ≤ 1 then ascii ' ' else cell (ls (d + 24)) c
  behindFirst : cells 25 0 = behind memory ls n
  behindRest : ∀ c, 0 < c → c < 80 → cells 25 c = glyph (memory (offsetOf c 25))

section Write

variable {memory : Int → BitVec 8} {ls : Nat → Line} {d m : Nat} {l : Line} {b : BitVec 8}
  {cells : Nat → Nat → BitVec 8}

theorem covered_before {j : Nat} (hj : j < m) (c : Nat) :
    covered (Function.update ls m (l ++ [b])) j c = covered ls j c := by
  refine covered_congr (fun i hi => ?_) c
  rw [Function.update_of_ne (by omega)]

/-- A further character of a line changes nothing behind the page. -/
theorem behind_append (hl : ls m = l) (h : m < 25 ∨ 2 ≤ (ls (m - 1)).length ∨ l ≠ []) :
    behind memory (Function.update ls m (l ++ [b])) (m + 1) = behind memory ls (m + 1) := by
  have hbefore : behind memory (Function.update ls m (l ++ [b])) m = behind memory ls m :=
    behind_congr memory fun i hi => Function.update_of_ne (by omega) _ _
  rw [behind, behind, hbefore, Function.update_self, hl]
  by_cases hm : m < 25
  · rw [if_neg (fun h => absurd h.1 (by omega)), if_neg (fun h => absurd h.1 (by omega))]
  · rw [Function.update_of_ne (by omega)]
    by_cases hlong : 2 ≤ (ls (m - 1)).length
    · rw [if_neg (fun h => absurd h.2.1 (by omega)), if_neg (fun h => absurd h.2.1 (by omega))]
    · have hne : l ≠ [] := by
        rcases h with h | h | h
        · exact absurd h hm
        · exact absurd h hlong
        · exact h
      have hfirst : cell (l ++ [b]) 0 = cell l 0 :=
        cell_append_ne (Nat.ne_of_lt (List.length_pos_iff.mpr hne))
      rw [if_pos ⟨by omega, by omega, by simp⟩, if_pos ⟨by omega, by omega, hne⟩, hfirst]

theorem cell_append (l : Line) (b : BitVec 8) (c : Nat) :
    cell (l ++ [b]) c = if c = l.length then b else cell l c := by
  by_cases hc : c = l.length
  · rw [if_pos hc, hc, cell_append_length]
  · rw [if_neg hc, cell_append_ne hc]

/-- A character of one of the first 24 lines. -/
theorem Pictures.writeUpper (h : Pictures memory ls 0 (m + 1) cells) (hl : ls m = l) (hm : m ≤ 23) :
    Pictures memory (Function.update ls m (l ++ [b])) 0 (m + 1)
      (setCell cells m l.length b) where
  upper r c hr hc := by
    unfold setCell
    rw [h.upper r c hr hc, covered_of_le _ (by omega), covered_of_le _ (by omega), Nat.zero_add]
    by_cases hrow : r = m
    · rw [hrow, Function.update_self, cell_append, hl]
      by_cases hcol : c = l.length
      · rw [if_pos ⟨rfl, hcol⟩, if_pos hcol]
      · rw [if_neg (fun h => hcol h.2), if_neg hcol]
    · rw [if_neg (fun h => hrow h.1), Function.update_of_ne hrow]
  last _ c hc := by
    rw [setCell_otherRow _ (by omega), Function.update_of_ne (by omega)]
    exact h.last rfl c hc
  scrolled hd := absurd hd (Nat.lt_irrefl 0)
  behindFirst := by
    rw [setCell_otherRow _ (by omega), h.behindFirst, behind_append hl (Or.inl (by omega))]
  behindRest c hc hlt := by
    rw [setCell_otherRow _ (by omega)]
    exact h.behindRest c hc hlt

/-- A character of a later line, from its third column on. -/
theorem Pictures.writeRow23 (h : Pictures memory ls d (m + 1) cells) (hl : ls m = l)
    (hm : m = d + 23) (hd : 0 < d) (hlen : 2 ≤ l.length) (hnext : ls (m + 1) = []) :
    Pictures memory (Function.update ls m (l ++ [b])) d (m + 1)
      (setCell cells 23 l.length b) where
  upper r c hr hc := by
    unfold setCell
    rw [h.upper r c hr hc]
    by_cases hrow : r = 23
    · -- the line in row 23 covers one more column of the line before it
      obtain ⟨j, rfl⟩ : ∃ j, m = j + 1 := ⟨m - 1, by omega⟩
      rw [hrow, ← hm, covered, covered, Function.update_self, covered_before (by omega), hl,
        List.length_append, List.length_singleton, cell_append]
      by_cases hcol : c = l.length
      · rw [if_pos ⟨rfl, hcol⟩, if_pos (by omega), if_pos hcol]
      · rw [if_neg (fun h => hcol h.2), if_neg hcol]
        by_cases hin : 2 ≤ c ∧ c < l.length
        · rw [if_pos (Or.inr hin), if_pos (by omega)]
        · rw [if_neg (by omega), if_neg (by omega)]
    · rw [if_neg (fun h => hrow h.1), covered_before (by omega)]
  last h0 := absurd h0 (by omega)
  scrolled _ c hc := by
    rw [setCell_otherRow _ (by omega), h.scrolled hd c hc, ← hm, Function.update_self, hl,
      Function.update_of_ne (by omega), show d + 24 = m + 1 by omega, hnext,
      cell_of_le (Nat.zero_le c), ite_self, ite_self]
  behindFirst := by
    have hne : l ≠ [] := List.ne_nil_of_length_pos (by omega)
    rw [setCell_otherRow _ (by omega), h.behindFirst, behind_append hl (Or.inr (Or.inr hne))]
  behindRest c hc hlt := by
    rw [setCell_otherRow _ (by omega)]
    exact h.behindRest c hc hlt

/-- The first character of a line that begins in row 24. -/
theorem Pictures.writeRow24 (h : Pictures memory ls d (m + 1) cells) (hl : ls m = [])
    (hm : m = d + 24) (hbefore : d = 0 ∨ 2 ≤ (ls (m - 1)).length) :
    Pictures memory (Function.update ls m [b]) d (m + 1)
      (setCell cells 24 0 b) where
  upper r c hr hc := by
    rw [setCell_otherRow _ (by omega), h.upper r c hr hc]
    exact (covered_before (l := []) (by omega) c).symm
  last h0 c hc := by
    unfold setCell
    obtain rfl : m = 24 := by omega
    rw [h.last h0 c hc, hl, Function.update_self]
    by_cases hcol : c = 0
    · rw [if_pos ⟨rfl, hcol⟩, if_pos (by simp [hcol]), hcol]
      rfl
    · rw [if_neg (fun h => hcol h.2), if_neg (by simp), if_neg (by simp; omega)]
  scrolled hd c hc := by
    unfold setCell
    have hprev : ¬ (ls (d + 23)).length ≤ 1 := by
      rw [show d + 23 = m - 1 by omega]
      omega
    rw [h.scrolled hd c hc, Function.update_of_ne (by omega), if_neg hprev, if_neg hprev, ← hm,
      Function.update_self, hl]
    by_cases hcol : c = 0
    · rw [if_pos ⟨rfl, hcol⟩, hcol]
      rfl
    · rw [if_neg (fun h => hcol h.2), ← List.nil_append [b], cell_append_ne hcol]
  behindFirst := by
    have hstays : behind memory (Function.update ls m ([] ++ [b])) (m + 1) =
        behind memory ls (m + 1) :=
      behind_append hl (hbefore.elim (fun h => Or.inl (by omega)) fun h => Or.inr (Or.inl h))
    rw [setCell_otherRow _ (by omega), h.behindFirst, ← hstays]
    rfl
  behindRest c hc hlt := by
    rw [setCell_otherRow _ (by omega)]
    exact h.behindRest c hc hlt

/-- The second character of a line in row 24: the line is lost with the row. -/
theorem Pictures.scrollRow24 (h : Pictures memory ls d (m + 1) cells) (hl : ls m = l)
    (hm : m = d + 24) (hlen : l.length = 1) (hnext : ls (m + 1) = []) :
    Pictures memory (Function.update ls m (l ++ [b])) (d + 1) (m + 1)
      (scrollCells (setCell cells 24 l.length b)) where
  upper r c hr hc := by
    unfold scrollCells setCell
    by_cases hrows : r ≤ 22
    · rw [if_pos hrows, if_neg (by omega), h.upper _ c (by omega) hc, covered_before (by omega),
        show d + (r + 1) = d + 1 + r by omega]
    · -- row 23 stays and is taken for the line, of which it shows nothing yet
      have hshort : (Function.update ls m (l ++ [b]) (d + 23 + 1)).length ≤ 2 := by
        rw [← hm, Function.update_self, List.length_append, List.length_singleton]
        omega
      obtain rfl : r = 23 := by omega
      rw [if_neg hrows, if_neg (by omega), if_neg (by omega), h.upper 23 c hr hc,
        show d + 1 + 23 = d + 23 + 1 by omega, covered_short (by omega) hshort,
        covered_before (by omega)]
  last h0 := absurd h0 (by omega)
  scrolled _ c hc := by
    have hblank : cell (Function.update ls m (l ++ [b]) (d + 1 + 24)) c = ascii ' ' := by
      rw [Function.update_of_ne (by omega), show d + 1 + 24 = m + 1 by omega, hnext]
      exact cell_of_le (Nat.zero_le c)
    unfold scrollCells setCell
    rw [hblank, ite_self]
    rfl
  behindFirst := by
    have hne : l ≠ [] := List.ne_nil_of_length_pos (by omega)
    rw [scrollCells_behind, setCell_otherRow _ (by omega), h.behindFirst,
      behind_append hl (Or.inr (Or.inr hne))]
  behindRest c hc hlt := by
    rw [scrollCells_behind, setCell_otherRow _ (by omega)]
    exact h.behindRest c hc hlt

/-- The first character of a line that begins behind the page. -/
theorem Pictures.scrollRow25 (h : Pictures memory ls d (m + 1) cells) (hm : m = d + 25)
    (hbefore : (ls (m - 1)).length ≤ 1) :
    Pictures memory (Function.update ls m [b]) (d + 1) (m + 1)
      (scrollCells (setCell cells 25 0 b)) where
  upper r c hr hc := by
    have hold : covered (Function.update ls m ([] ++ [b])) (d + 1 + r) c =
        covered ls (d + 1 + r) c := covered_before (by omega) c
    rw [List.nil_append] at hold
    unfold scrollCells setCell
    rw [hold]
    by_cases hrows : r ≤ 22
    · rw [if_pos hrows, if_neg (by omega), h.upper _ c (by omega) hc,
        show d + (r + 1) = d + 1 + r by omega]
    · have hshort : (ls (d + 23 + 1)).length ≤ 2 := by
        rw [show d + 23 + 1 = m - 1 by omega]
        omega
      obtain rfl : r = 23 := by omega
      rw [if_neg hrows, if_neg (by omega), if_neg (by omega), h.upper 23 c hr hc,
        show d + 1 + 23 = d + 23 + 1 by omega, covered_short (by omega) hshort]
  last h0 := absurd h0 (by omega)
  scrolled _ c hc := by
    unfold scrollCells setCell
    rw [Function.update_of_ne (by omega), show d + 1 + 23 = m - 1 by omega, if_pos hbefore]
    rfl
  behindFirst := by
    unfold scrollCells setCell
    rw [if_neg (by omega), if_neg (by omega), if_pos ⟨rfl, rfl⟩, behind, Function.update_self,
      Function.update_of_ne (by omega), if_pos ⟨by omega, hbefore, by simp⟩]
    rfl
  behindRest c hc hlt := by
    rw [scrollCells_behind]
    unfold setCell
    rw [if_neg (by omega)]
    exact h.behindRest c hc hlt

end Write

/-! ## The screen follows the text -/

/-- The row of the cursor. A line behind the first 24 begins in row 24, or in row 25 when the one
    before it ended in row 24; its second character takes it to row 23. -/
def currentRow (w : Wrapped (BitVec 8)) : Nat :=
  if w.done.length ≤ 23 then w.done.length
  else if 2 ≤ w.cur.length then 23
  else if w.cur = [] ∧ 25 ≤ w.done.length ∧ (w.line (w.done.length - 1)).length ≤ 1 then 25
  else 24

/-- The number of lines scrolled off. -/
def scrolledOff (w : Wrapped (BitVec 8)) : Nat := w.done.length - currentRow w

/-- The screen after the text with the lines `w`. -/
structure Follows (memory : Int → BitVec 8) (w : Wrapped (BitVec 8)) (s : Screen) : Prop where
  col : s.col = w.cur.length
  row : s.row = currentRow w
  cells : Pictures memory w.line (scrolledOff w) (w.done.length + 1) s.cellAt

theorem currentRow_newline (w : Wrapped (BitVec 8)) :
    currentRow w.newline = if w.done.length ≤ 23 then w.done.length + 1
      else if w.cur.length ≤ 1 then 25 else 24 := by
  unfold currentRow
  rw [Wrapped.line_newline]
  unfold Wrapped.newline
  simp only [List.length_append, List.length_singleton, List.length_nil, Nat.add_sub_cancel,
    Wrapped.line_length, true_and]
  split_ifs <;> omega

theorem currentRow_put (w : Wrapped (BitVec 8)) (b : BitVec 8) :
    currentRow (w.put 80 b) =
      if w.done.length ≤ 23 then w.done.length + (if w.cur.length = 79 then 1 else 0)
      else if w.cur.length = 0 ∨ w.cur.length = 79 then 24 else 23 := by
  unfold currentRow
  rw [Wrapped.line_put]
  unfold Wrapped.put
  by_cases hfull : w.cur.length = 79
  · -- the line is complete, with 80 characters
    rw [if_pos (show w.cur.length + 1 = 80 by omega)]
    simp only [List.length_append, List.length_singleton, List.length_nil, Nat.add_sub_cancel,
      Function.update_self, true_and]
    split_ifs <;> omega
  · rw [if_neg (show ¬ w.cur.length + 1 = 80 by omega)]
    simp only [List.length_append, List.length_singleton, List.append_eq_nil_iff,
      List.cons_ne_nil, and_false, false_and, if_false]
    split_ifs <;> omega

theorem currentRow_cases (w : Wrapped (BitVec 8)) :
    (w.done.length ≤ 23 ∧ currentRow w = w.done.length) ∨
    (24 ≤ w.done.length ∧ 2 ≤ w.cur.length ∧ currentRow w = 23) ∨
    (24 ≤ w.done.length ∧ w.cur.length = 1 ∧ currentRow w = 24) ∨
    (24 ≤ w.done.length ∧ w.cur = [] ∧ currentRow w = 24 ∧
      (w.done.length = 24 ∨ 2 ≤ (w.line (w.done.length - 1)).length)) ∨
    (25 ≤ w.done.length ∧ w.cur = [] ∧ currentRow w = 25 ∧
      (w.line (w.done.length - 1)).length ≤ 1) := by
  have hnil : w.cur = [] ↔ w.cur.length = 0 := List.length_eq_zero_iff.symm
  unfold currentRow
  simp only [hnil]
  split_ifs <;> omega

theorem Pictures.more {memory : Int → BitVec 8} {ls : Nat → Line} {d n : Nat}
    {cells : Nat → Nat → BitVec 8} (h : Pictures memory ls d n cells) (hnil : ls n = []) :
    Pictures memory ls d (n + 1) cells :=
  { h with behindFirst := by rw [behind_nil memory hnil]; exact h.behindFirst }

theorem Pictures.congr {memory : Int → BitVec 8} {ls : Nat → Line} {d n : Nat}
    {cells cells' : Nat → Nat → BitVec 8} (h : Pictures memory ls d n cells)
    (heq : ∀ r c, c < 80 → cells' r c = cells r c) : Pictures memory ls d n cells' where
  upper r c hr hc := (heq r c hc).trans (h.upper r c hr hc)
  last h0 c hc := (heq 24 c hc).trans (h.last h0 c hc)
  scrolled hd c hc := (heq 24 c hc).trans (h.scrolled hd c hc)
  behindFirst := (heq 25 0 (by omega)).trans h.behindFirst
  behindRest c hc hlt := (heq 25 c hlt).trans (h.behindRest c hc hlt)

/-- A newline moves the cursor and nothing else. -/
theorem Follows.newline {memory : Int → BitVec 8} {w : Wrapped (BitVec 8)} {s : Screen}
    (h : Follows memory w s) (hrow : currentRow w ≠ 25) :
    Follows memory w.newline (s.screenWrite (ascii '\n')) := by
  have hnext : currentRow w.newline = currentRow w + 1 := by
    rw [currentRow_newline]
    rcases currentRow_cases w with hc | hc | hc | hc | hc
    · rw [if_pos hc.1, hc.2]
    · rw [if_neg (by omega), if_neg (by omega), hc.2.2]
    · rw [if_neg (by omega), if_pos (by omega), hc.2.2]
    · rw [if_neg (by omega), if_pos (by rw [hc.2.1]; exact Nat.zero_le 1), hc.2.2.1]
    · exact absurd hc.2.2.1 hrow
  have hdone : w.newline.done.length = w.done.length + 1 := by
    unfold Wrapped.newline
    rw [List.length_append, List.length_singleton]
  have hoff : scrolledOff w.newline = scrolledOff w := by
    unfold scrolledOff
    rw [hnext, hdone]
    omega
  have hwrite : s.writeChar (ascii '\n') = { s with col := 0, row := s.row + 1 } := if_pos rfl
  unfold screenWrite
  rw [hwrite]
  constructor
  · rw [moveCursor_col]
    rfl
  · rw [moveCursor_row, hnext, h.row]
    rfl
  · rw [cellAt_moveCursor, hoff, Wrapped.line_newline, hdone]
    exact h.cells.more (Wrapped.line_gt (Nat.lt_succ_self _))

/-- The bytes that `screen_write` puts on the screen and no more. -/
def Printable (b : BitVec 8) : Prop := 0x20 ≤ b.toNat ∧ b.toNat ≤ 0x7E

instance : DecidablePred Printable := fun _ => inferInstanceAs (Decidable (_ ∧ _))

theorem Printable.ne {b : BitVec 8} (h : Printable b) {c : Char} (hc : c.toNat < 0x20) :
    b ≠ ascii c := by
  intro heq
  have hnat : b.toNat = c.toNat := by
    rw [heq]
    unfold ascii
    rw [BitVec.toNat_ofNat]
    omega
  have hlow := h.1
  omega

theorem writeChar_printable {b : BitVec 8} (h : Printable b) (s : Screen) :
    s.writeChar b = s.writeGlyph b := by
  unfold writeChar
  rw [if_neg (h.ne (by decide)), if_neg (fun hb => h.ne (by decide) hb.1),
    if_neg (h.ne (by decide)), if_neg (h.ne (by decide))]

theorem Printable.glyph_eq {b : BitVec 8} (h : Printable b) : glyph b = b := by
  refine glyph_of_ne fun h0 => ?_
  have hlow := h.1
  rw [h0] at hlow
  exact absurd hlow (by decide)

section Put

variable {memory : Int → BitVec 8} {w : Wrapped (BitVec 8)} {s : Screen} {b : BitVec 8}

theorem Follows.cells_put (h : Follows memory w s) (hk : w.cur.length < 80) (hb : Printable b)
    (hoff : 80 * currentRow w + w.cur.length ≤ 1920) (r c : Nat) (hc : c < 80) :
    (s.writeGlyph b).cellAt r c = setCell s.cellAt (currentRow w) w.cur.length b r c := by
  rw [cellAt_writeGlyph, h.col, h.row, cellAt_writeAt hk hoff hc, hb.glyph_eq]

theorem Follows.cells_put_scroll (h : Follows memory w s) (hk : w.cur.length < 80)
    (hb : Printable b) (hoff : 1920 < 80 * currentRow w + w.cur.length) (r c : Nat) (hc : c < 80) :
    (s.writeGlyph b).cellAt r c =
      scrollCells (setCell s.cellAt (currentRow w) w.cur.length b) r c := by
  rw [cellAt_writeGlyph, h.col, h.row, cellAt_writeAt_scroll hk hoff hc, hb.glyph_eq]

theorem Follows.row_put (h : Follows memory w s) (hk : w.cur.length < 80) :
    (s.writeGlyph b).row = currentRow (w.put 80 b) := by
  rw [writeGlyph_row, h.col, h.row, offsetOf_eq, currentRow_put]
  rcases currentRow_cases w with hc | hc | hc | hc | hc
  · rw [hc.2]
    split_ifs <;> omega
  · rw [hc.2.2]
    split_ifs <;> omega
  · rw [hc.2.2]
    split_ifs <;> omega
  · rw [hc.2.2.1, hc.2.1, List.length_nil]
    split_ifs <;> omega
  · rw [hc.2.2.1, hc.2.1, List.length_nil]
    split_ifs <;> omega

theorem done_put (w : Wrapped (BitVec 8)) (b : BitVec 8) :
    (w.put 80 b).done.length = w.done.length + if w.cur.length = 79 then 1 else 0 := by
  unfold Wrapped.put
  split_ifs
  · rw [List.length_append, List.length_singleton]
  · omega
  · omega
  · rfl

theorem cur_put (w : Wrapped (BitVec 8)) (b : BitVec 8) :
    (w.put 80 b).cur.length = if w.cur.length = 79 then 0 else w.cur.length + 1 := by
  unfold Wrapped.put
  split_ifs
  · rfl
  · omega
  · omega
  · rw [List.length_append, List.length_singleton]

theorem Follows.pictures_put (h : Follows memory w s) (hk : w.cur.length < 80)
    (hb : Printable b) :
    Pictures memory (w.put 80 b).line (scrolledOff (w.put 80 b)) (w.done.length + 1)
      (s.writeGlyph b).cellAt := by
  have hrow := currentRow_put w b
  have hdone := done_put w b
  have hline := w.line_length
  have hnext : w.line (w.done.length + 1) = [] := Wrapped.line_gt (Nat.lt_succ_self _)
  have hput : ∀ d, w.done.length - currentRow w = d →
      Pictures memory w.line d (w.done.length + 1) s.cellAt := by
    intro d hd
    rw [← hd]
    exact h.cells
  rw [Wrapped.line_put]
  unfold scrolledOff
  rcases currentRow_cases w with hc | hc | hc | hc | hc
  · have hstore := h.cells_put hk hb (by omega)
    rw [hc.2] at hstore
    have hd : (w.put 80 b).done.length - currentRow (w.put 80 b) = 0 := by
      rw [hrow, hdone, if_pos hc.1]
      omega
    rw [hd]
    exact ((hput 0 (by omega)).writeUpper hline hc.1).congr hstore
  · have hstore := h.cells_put hk hb (by omega)
    rw [hc.2.2] at hstore
    have hd : (w.put 80 b).done.length - currentRow (w.put 80 b) = w.done.length - 23 := by
      rw [hrow, hdone]
      split_ifs <;> omega
    rw [hd]
    exact ((hput _ (by omega)).writeRow23 hline (by omega) (by omega) hc.2.1 hnext).congr hstore
  · have hstore := h.cells_put_scroll hk hb (by omega)
    rw [hc.2.2] at hstore
    have hd : (w.put 80 b).done.length - currentRow (w.put 80 b) = w.done.length - 24 + 1 := by
      rw [hrow, hdone]
      split_ifs <;> omega
    rw [hd]
    exact ((hput _ (by omega)).scrollRow24 hline (by omega) hc.2.1 hnext).congr hstore
  · have hlen : w.cur.length = 0 := by rw [hc.2.1]; rfl
    have hstore := h.cells_put hk hb (by omega)
    rw [hc.2.2.1, hlen] at hstore
    have hd : (w.put 80 b).done.length - currentRow (w.put 80 b) = w.done.length - 24 := by
      rw [hrow, hdone]
      split_ifs <;> omega
    rw [hd, hc.2.1]
    exact ((hput _ (by omega)).writeRow24 (hline.trans hc.2.1) (by omega) (by omega)).congr hstore
  · have hlen : w.cur.length = 0 := by rw [hc.2.1]; rfl
    have hstore := h.cells_put_scroll hk hb (by omega)
    rw [hc.2.2.1, hlen] at hstore
    have hd : (w.put 80 b).done.length - currentRow (w.put 80 b) = w.done.length - 25 + 1 := by
      rw [hrow, hdone]
      split_ifs <;> omega
    rw [hd, hc.2.1]
    exact ((hput _ (by omega)).scrollRow25 (by omega) hc.2.2.2).congr hstore

/-- A printable character is written at the cursor, whether or not the screen scrolls. -/
theorem Follows.put (h : Follows memory w s) (hk : w.cur.length < 80) (hb : Printable b) :
    Follows memory (w.put 80 b) (s.screenWrite b) := by
  unfold screenWrite
  rw [writeChar_printable hb]
  constructor
  · rw [moveCursor_col, writeGlyph_col, cur_put, h.col]
    split_ifs <;> omega
  · rw [moveCursor_row, h.row_put hk]
  · have hcells := h.pictures_put hk hb
    rw [cellAt_moveCursor, done_put]
    by_cases hfull : w.cur.length = 79
    · rw [if_pos hfull]
      refine hcells.more ?_
      rw [Wrapped.line_put, Function.update_of_ne (by omega)]
      exact Wrapped.line_gt (Nat.lt_succ_self _)
    · rw [if_neg hfull]
      exact hcells

end Put

/-- Printable characters and single newlines. -/
def IsText (text : List (BitVec 8)) : Prop :=
  (∀ b ∈ text, Printable b ∨ b = ascii '\n') ∧ ¬ [ascii '\n', ascii '\n'] <:+: text

theorem IsText.before {text : List (BitVec 8)} {c : BitVec 8} (h : IsText (text ++ [c])) :
    IsText text :=
  ⟨fun b hb => h.1 b (List.mem_append_left _ hb),
    fun hnl => h.2 (hnl.trans (List.infix_append' [] text [c]))⟩

theorem IsText.single {text : List (BitVec 8)} (h : IsText (text ++ [ascii '\n'])) :
    text.getLast? ≠ some (ascii '\n') := by
  intro hlast
  obtain ⟨start, rfl⟩ := List.getLast?_eq_some_iff.mp hlast
  refine h.2 ⟨start, [], ?_⟩
  simp

/-- The lines of a text on this screen. -/
def linesOf (text : List (BitVec 8)) : Wrapped (BitVec 8) := wrap 80 (ascii '\n') text

theorem follows_cleared (memory : Int → BitVec 8) :
    Follows memory (linesOf []) (screenInit memory).screenClear := by
  have hline : ∀ j, (linesOf []).line j = [] := by
    intro j
    cases j with
    | zero => rfl
    | succ j => exact Wrapped.line_gt (Nat.succ_pos j)
  obtain ⟨hcol, hrow⟩ := screenClear_cursor (screenInit memory)
  refine ⟨hcol, hrow, ?_⟩
  constructor
  · intro r c hr hc
    rw [cellAt_screenClear _ hc, if_pos (by omega)]
    show _ = covered _ (0 + r) c
    rw [covered_of_le _ (by omega), hline, cell_of_le (Nat.zero_le c)]
  · intro _ c hc
    rw [cellAt_screenClear _ hc, if_neg (by omega), hline, List.length_nil,
      if_neg (Nat.not_lt_zero c)]
    rfl
  · intro hd
    exact absurd hd (Nat.lt_irrefl 0)
  · rw [cellAt_screenClear _ (by omega), if_neg (by omega)]
    rfl
  · intro c _ hc
    rw [cellAt_screenClear _ hc, if_neg (by omega)]
    rfl

/-- Over a whole text, of any length. -/
theorem follows_run (memory : Int → BitVec 8) {text : List (BitVec 8)} (h : IsText text) :
    Follows memory (linesOf text) ((screenInit memory).screenClear.screenRun text) := by
  induction text using List.reverseRecOn with
  | nil => exact follows_cleared memory
  | append_singleton text c ih =>
    have hbefore := ih h.before
    have hlines : linesOf (text ++ [c]) = wrapStep 80 (ascii '\n') (linesOf text) c :=
      wrap_snoc 80 (ascii '\n') text c
    rw [screenRun_append, hlines]
    unfold wrapStep
    by_cases hc : c = ascii '\n'
    · subst hc
      rw [if_pos rfl]
      refine hbefore.newline fun hrow => h.single ?_
      -- the cursor is in row 25 behind a newline only
      rcases currentRow_cases (linesOf text) with hc | hc | hc | hc | hc
      · omega
      · omega
      · omega
      · omega
      · exact wrap_ends_newline hc.2.1 (show 0 < (linesOf text).done.length by omega)
          (Nat.lt_of_le_of_lt hc.2.2.2 (by decide))
    · rw [if_neg hc]
      have hprint := (h.1 c (by simp)).resolve_right hc
      exact hbefore.put (wrap_cur_lt (by decide) _ text) hprint

/-! ## `screen_print` -/

/-- Pass what `vprintfk` or `screen_print` outputs on to the screen. -/
def display (s : Screen) (out : List Libk.Write) : Screen :=
  out.foldl (fun s write => match write with
    | .screen c => s.screenWrite c
    | .serial _ _ => s) s

def screenPrint (fuel : Nat) (str : Buffer) (s : Screen) : Option Screen :=
  (Libk.screenPrint fuel str).map s.display

theorem display_screen (s : Screen) (cs : List (BitVec 8)) :
    s.display (cs.map Libk.Write.screen) = s.screenRun cs := by
  unfold display screenRun
  rw [List.foldl_map]

theorem screenPrint_returns (s : Screen) (str : CString) (hlen : str.bytes.length < 2 ^ 32) :
    Returns (fun n => screenPrint n str.buffer s) (s.screenRun str.bytes) := by
  obtain ⟨n, hn⟩ := Libk.printString_returns Libk.Write.screen str.holds hlen
  refine ⟨n, fun m hm => ?_⟩
  have hrun : Libk.screenPrint m str.buffer = some (str.bytes.map Libk.Write.screen) := hn m hm
  dsimp only
  unfold screenPrint
  rw [hrun, Option.map_some, display_screen]

theorem screenPrint_endless (s : Screen) (str : CString) (hlen : 2 ^ 32 ≤ str.bytes.length)
    (n : Nat) : screenPrint n str.buffer s = none := by
  have hrun : Libk.screenPrint n str.buffer = none :=
    Libk.printString_endless Libk.Write.screen str.holds hlen n
  unfold screenPrint
  rw [hrun]
  rfl

/-- For some number `d` of lines scrolled off, every row from 0 to the one of the cursor shows
    its line, and the cursor is in the row of the current one. -/
def ShowsLines (s : Screen) (w : Wrapped (BitVec 8)) : Prop :=
  ∃ d : Nat, d + s.row = w.done.length ∧
    ∀ r c : Nat, r ≤ s.row → c < 80 → s.cellAt r c = cell (w.line (d + r)) c

/-- `screen_print` comes to an end, and the screen shows the text. -/
def ShowsText (memory : Int → BitVec 8) (str : CString) : Prop :=
  ∃ s, Returns (fun n => screenPrint n str.buffer (screenInit memory).screenClear) s ∧
    s.ShowsLines (linesOf str.bytes)

/-! ## When nothing is lost -/

/-- Line `j` is all that the lines from 23 on leave in row 23: it begins like line 23, and where
    none of the lines behind line `i` up to it reaches, line `i` is blank. -/
def Repeats (ls : Nat → Line) (j : Nat) : Prop :=
  (∀ c, c < 2 → cell (ls j) c = cell (ls 23) c) ∧
    ∀ i c, 23 ≤ i → i < j → 2 ≤ c → c < 80 → (∀ k, i < k → k ≤ j → (ls k).length ≤ c) →
      cell (ls i) c = ascii ' '

/-- Row `r` of the memory is blank from column `first` on. -/
def BlankFrom (memory : Int → BitVec 8) (r first : Nat) : Prop :=
  ∀ c, first ≤ c → c < 80 → glyph (memory (offsetOf c r)) = ascii ' '

/-- The lines that the defects of scrolling leave as they are, for each part of the screen: rows
    0 to 23 repeat what was there before, row 24 is not cleared by `screen_clear` and loses a line
    begun behind the page, and row 25 is such a place. -/
def Undisturbed (memory : Int → BitVec 8) (w : Wrapped (BitVec 8)) : Prop :=
  (∀ j, 24 ≤ j → scrolledOff w ≤ j → j ≤ scrolledOff w + 23 → Repeats w.line j) ∧
  (24 ≤ currentRow w → if scrolledOff w = 0 then BlankFrom memory 24 (w.line 24).length
    else (w.line (scrolledOff w + 23)).length ≤ 1 →
      ∀ c, c < 80 → cell (w.line (scrolledOff w + 24)) c = ascii ' ') ∧
  (currentRow w = 25 →
    behind memory w.line (w.done.length + 1) = ascii ' ' ∧ BlankFrom memory 25 1)

theorem covered_start {ls : Nat → Line} {j c : Nat} (hj : 23 ≤ j) (hc : c < 2) :
    covered ls j c = cell (ls 23) c := by
  induction j, hj using Nat.le_induction with
  | base => exact covered_of_le ls (Nat.le_refl 23) c
  | succ j hj ih => rw [covered, if_neg (by omega), ih]

/-- Lines that do not reach a column leave it as it was. -/
theorem covered_unreached {ls : Nat → Line} {i j c : Nat} (hi : 23 ≤ i) (hij : i ≤ j)
    (h : ∀ k, i < k → k ≤ j → (ls k).length ≤ c) : covered ls j c = covered ls i c := by
  induction j, hij using Nat.le_induction with
  | base => rfl
  | succ j hij ih =>
    have hshort := h (j + 1) (by omega) (Nat.le_refl _)
    rw [covered, if_neg (by omega)]
    exact ih fun k hk hkj => h k hk (by omega)

theorem covered_reached {ls : Nat → Line} {i c : Nat} (hi : 23 ≤ i) (hc : 2 ≤ c)
    (hlen : c < (ls i).length) : covered ls i c = cell (ls i) c := by
  rcases Nat.eq_or_lt_of_le hi with rfl | hlt
  · exact covered_of_le ls (Nat.le_refl 23) c
  · obtain ⟨j, rfl⟩ : ∃ j, i = j + 1 := ⟨i - 1, by omega⟩
    rw [covered, if_pos (Or.inr ⟨hc, hlen⟩)]

/-- The last line that reaches a column, or line 23. -/
theorem covered_last (ls : Nat → Line) {j : Nat} (hj : 23 ≤ j) (c : Nat) :
    ∃ i, 23 ≤ i ∧ i ≤ j ∧ (∀ k, i < k → k ≤ j → (ls k).length ≤ c) ∧
      (i = 23 ∨ c < (ls i).length) := by
  induction j, hj using Nat.le_induction with
  | base => exact ⟨23, Nat.le_refl 23, Nat.le_refl 23, fun k hk hk' => by omega, Or.inl rfl⟩
  | succ j hj ih =>
    by_cases hreach : c < (ls (j + 1)).length
    · exact ⟨j + 1, by omega, Nat.le_refl _, fun k hk hk' => by omega, Or.inr hreach⟩
    · obtain ⟨i, hi, hij, hshort, hlast⟩ := ih
      refine ⟨i, hi, by omega, fun k hk hkj => ?_, hlast⟩
      by_cases heq : k = j + 1
      · rw [heq]
        omega
      · exact hshort k hk (by omega)

theorem covered_eq_iff {ls : Nat → Line} {j : Nat} (hj : 23 ≤ j) :
    (∀ c, c < 80 → covered ls j c = cell (ls j) c) ↔ Repeats ls j := by
  constructor
  · intro h
    refine ⟨fun c hc => ?_, fun i c hi hij hc hlt hshort => ?_⟩
    · rw [← h c (by omega), covered_start hj hc]
    · by_cases hreach : c < (ls i).length
      · rw [← covered_reached hi hc hreach, ← covered_unreached hi (Nat.le_of_lt hij) hshort,
          h c hlt, cell_of_le (hshort j hij (Nat.le_refl j))]
      · exact cell_of_le (by omega)
  · intro h c hlt
    by_cases hc : c < 2
    · rw [covered_start hj hc, h.1 c hc]
    · obtain ⟨i, hi, hij, hshort, hlast⟩ := covered_last ls hj c
      have hcovered : covered ls j c = cell (ls i) c := by
        rw [covered_unreached hi hij hshort]
        rcases hlast with rfl | hreach
        · exact covered_of_le ls (Nat.le_refl 23) c
        · exact covered_reached hi (by omega) hreach
      rcases Nat.eq_or_lt_of_le hij with rfl | hlt'
      · exact hcovered
      · rw [hcovered, h.2 i c hi hlt' (by omega) hlt hshort,
          cell_of_le (hshort j hlt' (Nat.le_refl j))]

theorem currentRow_bounds (w : Wrapped (BitVec 8)) :
    currentRow w ≤ w.done.length ∧ currentRow w ≤ 25 ∧
      (currentRow w < 23 → scrolledOff w = 0) ∧
      (currentRow w = 25 → w.line (scrolledOff w + 25) = []) := by
  unfold scrolledOff
  rcases currentRow_cases w with hc | hc | hc | hc | hc
  · exact ⟨by omega, by omega, fun _ => by omega, fun _ => by omega⟩
  · exact ⟨by omega, by omega, fun _ => by omega, fun _ => by omega⟩
  · exact ⟨by omega, by omega, fun _ => by omega, fun _ => by omega⟩
  · exact ⟨by omega, by omega, fun _ => by omega, fun _ => by omega⟩
  · refine ⟨by omega, by omega, fun _ => by omega, fun hrow => ?_⟩
    rw [hrow, Nat.sub_add_cancel hc.1, Wrapped.line_length, hc.2.1]

section Shows

variable {memory : Int → BitVec 8} {w : Wrapped (BitVec 8)} {s : Screen}

theorem Follows.showsLines_iff_cells (h : Follows memory w s) :
    s.ShowsLines w ↔ ∀ r c, r ≤ currentRow w → c < 80 →
      s.cellAt r c = cell (w.line (scrolledOff w + r)) c := by
  have hle := (currentRow_bounds w).1
  unfold ShowsLines
  rw [h.row]
  constructor
  · rintro ⟨d, hd, hcells⟩ r c hr hc
    have hoff : d = scrolledOff w := by
      unfold scrolledOff
      omega
    rw [← hoff]
    exact hcells r c (by omega) hc
  · intro hcells
    refine ⟨scrolledOff w, ?_, fun r c hr hc => hcells r c (by omega) hc⟩
    unfold scrolledOff
    omega

/-- Row 24 shows its line. -/
theorem Follows.row24_iff (h : Follows memory w s) :
    (∀ c, c < 80 → s.cellAt 24 c = cell (w.line (scrolledOff w + 24)) c) ↔
      if scrolledOff w = 0 then BlankFrom memory 24 (w.line 24).length
      else (w.line (scrolledOff w + 23)).length ≤ 1 →
        ∀ c, c < 80 → cell (w.line (scrolledOff w + 24)) c = ascii ' ' := by
  by_cases hoff : scrolledOff w = 0
  · rw [if_pos hoff, hoff, Nat.zero_add]
    constructor
    · intro hrow c hge hc
      have hcell := hrow c hc
      rw [h.cells.last hoff c hc, if_neg (by omega), cell_of_le hge] at hcell
      exact hcell
    · intro hblank c hc
      rw [h.cells.last hoff c hc]
      by_cases hlt : c < (w.line 24).length
      · rw [if_pos hlt]
      · rw [if_neg hlt, cell_of_le (by omega)]
        exact hblank c (by omega) hc
  · rw [if_neg hoff]
    constructor
    · intro hrow hshort c hc
      rw [← hrow c hc, h.cells.scrolled (by omega) c hc, if_pos hshort]
    · intro hblank c hc
      rw [h.cells.scrolled (by omega) c hc]
      by_cases hshort : (w.line (scrolledOff w + 23)).length ≤ 1
      · rw [if_pos hshort, hblank hshort c hc]
      · rw [if_neg hshort]

/-- Row 25 is blank. -/
theorem Follows.row25_iff (h : Follows memory w s) :
    (∀ c, c < 80 → s.cellAt 25 c = ascii ' ') ↔
      behind memory w.line (w.done.length + 1) = ascii ' ' ∧ BlankFrom memory 25 1 := by
  constructor
  · intro hrow
    refine ⟨?_, fun c hpos hc => ?_⟩
    · rw [← h.cells.behindFirst, hrow 0 (by decide)]
    · have hcell := h.cells.behindRest c hpos hc
      rw [hrow c hc] at hcell
      exact hcell.symm
  · rintro ⟨hfirst, hrest⟩ c hc
    by_cases hzero : c = 0
    · rw [hzero, h.cells.behindFirst, hfirst]
    · rw [h.cells.behindRest c (by omega) hc]
      exact hrest c (by omega) hc

theorem Follows.showsLines_iff (h : Follows memory w s) :
    s.ShowsLines w ↔ Undisturbed memory w := by
  obtain ⟨-, hle, hfew, hlast⟩ := currentRow_bounds w
  rw [h.showsLines_iff_cells]
  constructor
  · intro hrows
    refine ⟨fun j hj hoff hshown => ?_, fun hrow => h.row24_iff.mp fun c hc => hrows 24 c hrow hc,
      fun hrow => h.row25_iff.mp fun c hc => ?_⟩
    · obtain ⟨r, rfl⟩ : ∃ r, j = scrolledOff w + r := ⟨j - scrolledOff w, by omega⟩
      refine (covered_eq_iff (by omega)).mp fun c hc => ?_
      rw [← h.cells.upper r c (by omega) hc]
      exact hrows r c (by omega) hc
    · rw [hrows 25 c (by omega) hc, hlast hrow, cell_of_le (Nat.zero_le c)]
  · rintro ⟨hupper, hrow24, hrow25⟩ r c hr hc
    by_cases hrows : r ≤ 23
    · rw [h.cells.upper r c hrows hc]
      by_cases hearly : scrolledOff w + r ≤ 23
      · exact covered_of_le _ hearly c
      · exact (covered_eq_iff (by omega)).mpr (hupper _ (by omega) (by omega) (by omega)) c hc
    by_cases hr24 : r = 24
    · rw [hr24]
      exact h.row24_iff.mpr (hrow24 (by omega)) c hc
    · obtain rfl : r = 25 := by omega
      rw [h.row25_iff.mpr (hrow25 (by omega)) c hc, hlast (by omega), cell_of_le (Nat.zero_le c)]

end Shows

/-- For every text and every content of the video memory before `screen_init`: the screen shows
    the text after `screen_print` if and only if the text is shorter than 2^32 bytes and its lines
    are undisturbed. -/
theorem showsText_iff (memory : Int → BitVec 8) (str : CString) (h : IsText str.bytes) :
    ShowsText memory str ↔
      str.bytes.length < 2 ^ 32 ∧ Undisturbed memory (linesOf str.bytes) := by
  have hfollows := follows_run memory h
  constructor
  · rintro ⟨s, hs, hshows⟩
    have hlen : str.bytes.length < 2 ^ 32 := by
      by_contra hlong
      obtain ⟨n, hn⟩ := hs
      have hsome : screenPrint n str.buffer (screenInit memory).screenClear = some s :=
        hn n (Nat.le_refl n)
      rw [screenPrint_endless _ str (by omega) n] at hsome
      cases hsome
    rw [hs.unique (screenPrint_returns _ str hlen)] at hshows
    exact ⟨hlen, hfollows.showsLines_iff.mp hshows⟩
  · rintro ⟨hlen, hundisturbed⟩
    exact ⟨_, screenPrint_returns _ str hlen, hfollows.showsLines_iff.mpr hundisturbed⟩

theorem undisturbed_of_few (memory : Int → BitVec 8) {w : Wrapped (BitVec 8)}
    (h : w.done.length ≤ 23) : Undisturbed memory w := by
  have hrow : currentRow w = w.done.length := if_pos h
  have hoff : scrolledOff w = 0 := by
    unfold scrolledOff
    omega
  exact ⟨fun j hj _ hshown => by omega, fun hlast => by omega, fun hlast => by omega⟩

/-- "ab\ncd" -/
def twoLines : CString where
  bytes := [ascii 'a', ascii 'b', ascii '\n', ascii 'c', ascii 'd']
  noNul := by decide

/-- "- a" to "- z", a line each. -/
def listing : CString where
  bytes := ((List.range 25).flatMap fun k =>
    [ascii '-', ascii ' ', ascii 'a' + BitVec.ofNat 8 k, ascii '\n']) ++
      [ascii '-', ascii ' ', ascii 'z']
  noNul := by decide

/-- Two lines scroll off, and the ones behind begin alike. -/
theorem showsText_iff_listing : ShowsText (fun _ => 0) listing := by
  have htext : IsText listing.bytes := ⟨by decide, by decide +kernel⟩
  refine (showsText_iff (fun _ => 0) listing htext).mpr ⟨by decide, ?_⟩
  have hrow : currentRow (linesOf listing.bytes) = 23 ∧
      scrolledOff (linesOf listing.bytes) = 2 := by
    decide +kernel
  have hlines : ((linesOf listing.bytes).line 23 = [ascii '-', ascii ' ', ascii 'x'] ∧
      (linesOf listing.bytes).line 24 = [ascii '-', ascii ' ', ascii 'y']) ∧
      (linesOf listing.bytes).line 25 = [ascii '-', ascii ' ', ascii 'z'] := by
    decide +kernel
  obtain ⟨⟨h23, h24⟩, h25⟩ := hlines
  refine ⟨fun j hj _ hlast => ?_, fun hcur => ?_, fun hcur => ?_⟩
  · have hlength : ∀ i, 23 ≤ i → i ≤ 25 → ((linesOf listing.bytes).line i).length = 3 := by
      intro i hlow hhigh
      obtain rfl | rfl | rfl : i = 23 ∨ i = 24 ∨ i = 25 := by omega
      · rw [h23]
        rfl
      · rw [h24]
        rfl
      · rw [h25]
        rfl
    rw [hrow.2] at hlast
    constructor
    · intro c hc
      obtain rfl | rfl : j = 24 ∨ j = 25 := by omega
      · rw [h24, h23]
        obtain rfl | rfl : c = 0 ∨ c = 1 := by omega
        · rfl
        · rfl
      · rw [h25, h23]
        obtain rfl | rfl : c = 0 ∨ c = 1 := by omega
        · rfl
        · rfl
    · intro i c hi hij _ _ hshort
      have hreach := hshort j hij (Nat.le_refl j)
      rw [hlength j (by omega) (by omega)] at hreach
      exact cell_of_le (by rw [hlength i hi (by omega)]; exact hreach)
  · rw [hrow.1] at hcur
    omega
  · rw [hrow.1] at hcur
    omega

/-- 24 lines "ab" and "cd" behind them. -/
def fullScreen : CString where
  bytes := (List.replicate 24 [ascii 'a', ascii 'b', ascii '\n']).flatten ++ [ascii 'c', ascii 'd']
  noNul := by decide

/-- Row 23 shows "ab" where it should show "cd". -/
theorem fullScreen_overwritten :
    ¬ ∀ memory str, IsText str.bytes → ShowsText memory str := by
  intro h
  have htext : IsText fullScreen.bytes := ⟨by decide, by decide +kernel⟩
  obtain ⟨s, hs, hshows⟩ := h (fun _ => 0) fullScreen htext
  rw [hs.unique (screenPrint_returns _ fullScreen (by decide)),
    (follows_run _ htext).showsLines_iff] at hshows
  have hlines : scrolledOff (linesOf fullScreen.bytes) = 1 ∧
      cell ((linesOf fullScreen.bytes).line 24) 0 ≠
        cell ((linesOf fullScreen.bytes).line 23) 0 := by
    decide +kernel
  have hrepeats := hshows.1 24 (by omega) (by omega) (by omega)
  exact hlines.2 (hrepeats.1 0 (by decide))

end Screen

end Utero.Drivers
