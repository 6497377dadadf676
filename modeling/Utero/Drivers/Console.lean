/-
  The kernel's console: what `printfk` shows, line by line.

  A text given by its lines, each shorter than the screen is wide and of printable characters, is
  on the screen as these lines as long as there are at most 23 complete ones
  (`screenRun_showsLines`), and the memory around the page stays as it is (`bytes_few`). Empty
  lines are lines too, so this is not a case of `IsText`. The cursor of the display controller
  follows the text (`cursor_follows`).
-/
import Utero.Drivers.ScreenText
import Utero.Libk.Text

namespace Utero.Drivers

open Utero.Lib
open Utero.Libk (ascii text decimalString hexString digitChar intMin)

namespace Screen

/-! ## Plain text -/

/-- Printable characters and newlines. -/
def Plain (cs : List (BitVec 8)) : Prop := ∀ b ∈ cs, Printable b ∨ b = ascii '\n'

theorem plain_nil : Plain [] := fun _ hb => absurd hb List.not_mem_nil

theorem plain_append {cs ds : List (BitVec 8)} : Plain (cs ++ ds) ↔ Plain cs ∧ Plain ds :=
  List.forall_mem_append

theorem plain_of_printable {cs : List (BitVec 8)} (h : ∀ b ∈ cs, Printable b) : Plain cs :=
  fun b hb => .inl (h b hb)

/-- A literal is checked by computation. -/
theorem plain_text {s : String}
    (h : (text s).all (fun b => decide (Printable b) || b == ascii '\n') = true) :
    Plain (text s) := by
  intro b hb
  simpa using List.all_eq_true.mp h b hb

theorem printable_digitByte {d : Nat} (hd : d < 36) : Printable (digitByte d) := by
  have hto := digitByte_toNat hd
  unfold Printable
  split at hto <;> omega

theorem printable_numeral {b : Nat} (hb : 1 < b) (hle : b ≤ 36) (n : Nat) :
    ∀ c ∈ numeral b n, Printable c := by
  intro c hc
  unfold numeral at hc
  split at hc
  · rw [List.mem_singleton.mp hc]
    decide
  · rw [List.mem_reverse, List.mem_map] at hc
    obtain ⟨d, hd, rfl⟩ := hc
    exact printable_digitByte (Nat.lt_of_lt_of_le (Nat.digits_lt_base hb hd) hle)

theorem printable_decimalString (v : BitVec 32) : ∀ c ∈ decimalString v, Printable c := by
  intro c hc
  have hten := printable_numeral (show 1 < 10 by decide) (by decide)
  unfold decimalString at hc
  split at hc
  · obtain rfl | hc := List.mem_cons.mp hc
    · decide
    split at hc
    · rw [List.mem_singleton.mp hc]
      decide
    · exact hten _ c hc
  · exact hten _ c hc

/-- What `itoa` makes of the remainder of a negative number. -/
theorem printable_digitChar {r : BitVec 32} (hlow : -16 < r.toInt) (hhigh : r.toInt ≤ 0) :
    Printable (digitChar r) := by
  have hcond := BitVec.toInt_eq_toNat_cond r
  have hlt : r.slt 10 = true := by
    have hten : (10 : BitVec 32).toInt = 10 := rfl
    rw [BitVec.slt_iff_toInt_lt]
    omega
  unfold digitChar Printable
  rw [if_pos hlt, BitVec.toNat_setWidth, BitVec.toNat_add,
    show (48 : BitVec 32).toNat = 48 from rfl]
  split at hcond <;> omega

theorem printable_hexString (v : BitVec 32) : ∀ c ∈ hexString v, Printable c := by
  intro c hc
  unfold hexString at hc
  split at hc
  · rename_i hslt
    rw [BitVec.slt_iff_toInt_lt] at hslt
    have hneg : v.toInt < 0 := hslt
    have hrem : (v.srem 16).toInt = v.toInt.tmod 16 := BitVec.toInt_srem v 16
    have hlow := Int.lt_tmod_of_pos v.toInt (show (0 : Int) < 16 by decide)
    have hhigh := Int.tmod_nonneg 16 (show 0 ≤ -v.toInt by omega)
    rw [Int.neg_tmod] at hhigh
    rw [List.mem_singleton.mp hc]
    exact printable_digitChar (by omega) (by omega)
  · exact printable_numeral (by decide) (by decide) _ c hc

/-! ## Lines -/

/-- Over the start of a screen, newlines included. -/
theorem follows_few (memory : Int → BitVec 8) {cs : List (BitVec 8)} (h : Plain cs)
    (hfew : (linesOf cs).done.length ≤ 23) :
    Follows memory (linesOf cs) ((screenInit memory).screenClear.screenRun cs) := by
  induction cs using List.reverseRecOn with
  | nil => exact follows_cleared memory
  | append_singleton cs c ih =>
    have hle : (linesOf cs).done.length ≤ 23 :=
      Nat.le_trans (wrap_done_le 80 (ascii '\n') cs c) hfew
    have hbefore := ih (fun b hb => h b (List.mem_append_left _ hb)) hle
    have hlines : linesOf (cs ++ [c]) = wrapStep 80 (ascii '\n') (linesOf cs) c :=
      wrap_snoc 80 (ascii '\n') cs c
    rw [screenRun_append, hlines]
    unfold wrapStep
    split
    · rename_i hc
      rw [hc]
      refine hbefore.newline fun hrow => ?_
      rw [currentRow, if_pos hle] at hrow
      omega
    · rename_i hc
      have hprint := (h c (by simp)).resolve_right hc
      exact hbefore.put (wrap_cur_lt (by decide) _ cs) hprint

/-- A text of few lines is on the screen. -/
theorem screenRun_shows (memory : Int → BitVec 8) {cs : List (BitVec 8)} (h : Plain cs)
    (hfew : (linesOf cs).done.length ≤ 23) :
    ((screenInit memory).screenClear.screenRun cs).ShowsLines (linesOf cs) :=
  (follows_few memory h hfew).showsLines_iff.mpr (undisturbed_of_few memory hfew)

theorem linesOf_append_done_le (cs ds : List (BitVec 8)) :
    (linesOf cs).done.length ≤ (linesOf (cs ++ ds)).done.length := by
  induction ds using List.reverseRecOn with
  | nil => rw [List.append_nil]
  | append_singleton ds d ih =>
    rw [← List.append_assoc]
    exact Nat.le_trans ih (wrap_done_le 80 (ascii '\n') _ d)

/-! ## Off the page -/

section OffPage

variable {o : Int} (ho : o < 0 ∨ 4000 ≤ o)

include ho

theorem bytes_screenWriteAt (s : Screen) (c scheme : BitVec 8) {x y : Int} (hx : 0 ≤ x ∧ x < 80)
    (hy : 0 ≤ y ∧ y ≤ 24) :
    (s.screenWriteAt c scheme x y).framebuffer.bytes o = s.framebuffer.bytes o := by
  have hcell : ((s.framebuffer.store (offsetOf x y) c).store (offsetOf x y + 1) scheme).bytes o =
      s.framebuffer.bytes o := by
    rw [offsetOf_eq, Video.store_bytes, if_neg (by omega), Video.store_bytes, if_neg (by omega)]
  rw [screenWriteAt_eq]
  dsimp only
  split
  · rw [Video.scroll_bytes, if_neg (by omega), if_neg (by omega), hcell]
  · exact hcell

theorem bytes_clearCells (s : Screen) {y : Int} (hy : 0 ≤ y ∧ y ≤ 24) {n : Nat} (hn : n ≤ 80) :
    (s.clearCells y n).framebuffer.bytes o = s.framebuffer.bytes o := by
  induction n with
  | zero => rfl
  | succ n ih =>
    rw [clearCells_succ, bytes_screenWriteAt ho _ _ _ (by omega) hy, ih (by omega)]

theorem bytes_screenClear (s : Screen) :
    s.screenClear.framebuffer.bytes o = s.framebuffer.bytes o := by
  have hrows : ∀ n ≤ 24, (s.clearRows n).framebuffer.bytes o = s.framebuffer.bytes o := by
    intro n hn
    induction n with
    | zero => rfl
    | succ n ih =>
      rw [clearRows_succ, bytes_clearCells ho _ (by omega) (Nat.le_refl 80), ih (by omega)]
  exact hrows 24 (Nat.le_refl 24)

/-- A text of few lines leaves the memory around the page alone. -/
theorem bytes_few (memory : Int → BitVec 8) {cs : List (BitVec 8)} (h : Plain cs)
    (hfew : (linesOf cs).done.length ≤ 23) :
    ((screenInit memory).screenClear.screenRun cs).framebuffer.bytes o = memory o := by
  induction cs using List.reverseRecOn with
  | nil => exact bytes_screenClear ho _
  | append_singleton cs c ih =>
    have hle : (linesOf cs).done.length ≤ 23 :=
      Nat.le_trans (wrap_done_le 80 (ascii '\n') cs c) hfew
    have hplain : Plain cs := fun b hb => h b (List.mem_append_left _ hb)
    have hfollows := follows_few memory hplain hle
    have hcur : (linesOf cs).cur.length < 80 := wrap_cur_lt (by decide) _ cs
    rw [screenRun_append, ← ih hplain hle]
    generalize (screenInit memory).screenClear.screenRun cs = s at hfollows
    show (s.screenWrite c).framebuffer.bytes o = _
    unfold screenWrite
    rw [moveCursor_framebuffer]
    by_cases hc : c = ascii '\n'
    · rw [hc]
      rfl
    · have hprint := (h c (by simp)).resolve_right hc
      have hrow : currentRow (linesOf cs) = (linesOf cs).done.length := if_pos hle
      rw [writeChar_printable hprint, writeGlyph_framebuffer, hfollows.col, hfollows.row]
      exact bytes_screenWriteAt ho _ _ _ (by omega) (by omega)

end OffPage

/-- A line of the console. -/
def IsLine (l : Line) : Prop := l.length < 80 ∧ ∀ b ∈ l, Printable b

/-- The text of complete lines and a current one. -/
def textOf (ls : List Line) (cur : Line) : List (BitVec 8) :=
  ls.flatMap (· ++ [ascii '\n']) ++ cur

theorem plain_textOf {ls : List Line} {cur : Line} (h : ∀ l ∈ cur :: ls, IsLine l) :
    Plain (textOf ls cur) := by
  intro b hb
  unfold textOf at hb
  rw [List.mem_append, List.mem_flatMap] at hb
  obtain ⟨l, hl, hb⟩ | hb := hb
  · rw [List.mem_append, List.mem_singleton] at hb
    obtain hb | hb := hb
    · exact .inl ((h l (List.mem_cons_of_mem _ hl)).2 b hb)
    · exact .inr hb
  · exact .inl ((h cur List.mem_cons_self).2 b hb)

theorem linesOf_textOf {ls : List Line} {cur : Line} (h : ∀ l ∈ cur :: ls, IsLine l) :
    linesOf (textOf ls cur) = ⟨ls, cur⟩ := by
  refine wrap_lines fun l hl => ⟨fun hnl => ?_, (h l hl).1⟩
  exact absurd rfl (((h l hl).2 _ hnl).ne (c := '\n') (by decide))

/-- A message that ends the current line. -/
theorem textOf_append_line (ls : List Line) (cur l : Line) :
    textOf ls cur ++ (l ++ [ascii '\n']) = textOf (ls ++ [cur ++ l]) [] := by
  simp [textOf, List.flatMap_append]

theorem screenRun_showsLines (memory : Int → BitVec 8) {ls : List Line} {cur : Line}
    (h : ∀ l ∈ cur :: ls, IsLine l) (hfew : ls.length ≤ 23) :
    ((screenInit memory).screenClear.screenRun (textOf ls cur)).ShowsLines ⟨ls, cur⟩ := by
  have hlines := linesOf_textOf h
  have hshows := screenRun_shows memory (plain_textOf h) (by rw [hlines]; exact hfew)
  rwa [hlines] at hshows

end Screen

/-! ## The cursor -/

/-- The display controller behind the two ports: the data port is the register that the command
    port named last. -/
structure Crtc where
  index : BitVec 8
  registers : BitVec 8 → BitVec 8

namespace Crtc

def portByteOut (d : Crtc) (port : BitVec 16) (data : BitVec 8) : Crtc :=
  if port = Screen.fbCommandPort then { d with index := data }
  else if port = Screen.fbDataPort then
    { d with registers := Function.update d.registers d.index data }
  else d

/-- The cell of the cursor: registers 14 and 15. -/
def cursor (d : Crtc) : BitVec 16 := d.registers 14 ++ d.registers 15

end Crtc

namespace Screen

/-- The controller `d` after all that was sent to it. -/
def controller (s : Screen) (d : Crtc) : Crtc :=
  s.ports.foldr (fun out d => d.portByteOut out.1 out.2) d

/-- The two bytes of a position. -/
theorem bytes_position (pos : BitVec 16) :
    (pos >>> 8 &&& 0x00FF).setWidth 8 ++ (pos &&& 0x00FF).setWidth 8 = pos := by
  refine BitVec.eq_of_getLsbD_eq fun i hi => ?_
  have hmask : ∀ j, j < 8 → (0x00FF#16).getLsbD j = true := by decide
  rw [BitVec.getLsbD_append, BitVec.getLsbD_setWidth, BitVec.getLsbD_setWidth, BitVec.getLsbD_and,
    BitVec.getLsbD_and, BitVec.getLsbD_ushiftRight]
  by_cases hlow : i < 8
  · simp [hlow, hmask i hlow]
  · have hhigh : i - 8 < 8 := by omega
    simp [hlow, hmask _ hhigh, hhigh, Nat.add_sub_cancel' (Nat.le_of_not_lt hlow)]

/-- `move_cursor` moves the cursor, whatever register was named before it. -/
theorem cursor_moveCursor (s : Screen) (pos : BitVec 16) (d : Crtc) :
    ((s.moveCursor pos).controller d).cursor = pos := by
  have hsent : (s.moveCursor pos).controller d =
      ⟨15, Function.update (Function.update (s.controller d).registers 14
        ((pos >>> 8 &&& 0x00FF).setWidth 8)) 15 ((pos &&& 0x00FF).setWidth 8)⟩ := rfl
  unfold Crtc.cursor
  rw [hsent]
  dsimp only
  rw [Function.update_of_ne (by decide), Function.update_self, Function.update_self,
    bytes_position]

theorem screenWriteAt_ports (s : Screen) (c scheme : BitVec 8) (x y : Int) :
    (s.screenWriteAt c scheme x y).ports = s.ports := by
  rw [screenWriteAt_eq]
  dsimp only
  split <;> rfl

theorem clearCells_ports (s : Screen) (y : Int) (n : Nat) : (s.clearCells y n).ports = s.ports := by
  induction n with
  | zero => rfl
  | succ n ih => rw [clearCells_succ, screenWriteAt_ports, ih]

theorem screenClear_ports (s : Screen) : s.screenClear.ports = s.ports := by
  have hrows : ∀ n, (s.clearRows n).ports = s.ports := by
    intro n
    induction n with
    | zero => rfl
    | succ n ih => rw [clearRows_succ, clearCells_ports, ih]
  exact hrows 24

/-- Behind a run of `screen_write`, on any bytes, the cursor is where the next character goes. -/
theorem cursor_screenRun (s : Screen) (d : Crtc) {cs : List (BitVec 8)} (hcs : cs ≠ []) :
    ((s.screenRun cs).controller d).cursor =
      BitVec.ofInt 16 ((s.screenRun cs).row * screenWidth + (s.screenRun cs).col) := by
  cases cs using List.reverseRecOn with
  | nil => exact absurd rfl hcs
  | append_singleton cs c =>
    rw [screenRun_append]
    exact cursor_moveCursor _ _ d

theorem Follows.position {memory : Int → BitVec 8} {w : Wrapped (BitVec 8)} {s : Screen}
    (h : Follows memory w s) (hcur : w.cur.length < 80) :
    (BitVec.ofInt 16 (s.row * screenWidth + s.col)).toNat = 80 * currentRow w + w.cur.length := by
  obtain ⟨-, hrow, -, -⟩ := currentRow_bounds w
  have hpos : s.row * (screenWidth : Int) + s.col =
      ((80 * currentRow w + w.cur.length : Nat) : Int) := by
    rw [h.row, h.col, show (screenWidth : Int) = 80 from rfl]
    omega
  rw [hpos, BitVec.ofInt_natCast, BitVec.toNat_ofNat, Nat.mod_eq_of_lt (by omega)]

/-- The cursor is behind the 25 rows of the screen: a line of at most one character has ended in
    row 24. -/
def CursorLost (w : Wrapped (BitVec 8)) : Prop :=
  w.cur = [] ∧ 25 ≤ w.done.length ∧ (w.line (w.done.length - 1)).length ≤ 1

theorem currentRow_eq_25_iff (w : Wrapped (BitVec 8)) : currentRow w = 25 ↔ CursorLost w := by
  unfold CursorLost
  obtain ⟨hdone, hrow⟩ | ⟨-, hcur, hrow⟩ | ⟨-, hcur, hrow⟩ | ⟨-, -, hrow, hlast⟩ |
    ⟨hdone, hcur, hrow, hlast⟩ := currentRow_cases w
  · exact ⟨fun h => by omega, fun h => by omega⟩
  · exact ⟨fun h => by omega, fun h => by simp [h.1] at hcur⟩
  · exact ⟨fun h => by omega, fun h => by simp [h.1] at hcur⟩
  · exact ⟨fun h => by omega, fun h => by omega⟩
  · exact ⟨fun _ => ⟨hcur, hdone, hlast⟩, fun _ => hrow⟩

theorem cursor_lt_iff {w : Wrapped (BitVec 8)} (hcur : w.cur.length < 80) :
    80 * currentRow w + w.cur.length < 2000 ↔ ¬ CursorLost w := by
  obtain ⟨-, hrow, -, -⟩ := currentRow_bounds w
  rw [← currentRow_eq_25_iff]
  omega

/-- The cursor of the controller over a whole text, without two newlines in a row or with few
    lines: `screen_clear` leaves it where it was, and from the first character on it is in the
    row and the column of the text's end, on the screen unless that row is behind it. -/
theorem cursor_follows (memory : Int → BitVec 8) (d : Crtc) {cs : List (BitVec 8)}
    (h : IsText cs ∨ (Plain cs ∧ (linesOf cs).done.length ≤ 23)) :
    let cursor := (((screenInit memory).screenClear.screenRun cs).controller d).cursor
    if cs = [] then cursor = d.cursor
    else cursor.toNat = 80 * currentRow (linesOf cs) + (linesOf cs).cur.length ∧
      (cursor.toNat < 2000 ↔ ¬ CursorLost (linesOf cs)) := by
  have hcur : (linesOf cs).cur.length < 80 := wrap_cur_lt (by decide) _ cs
  have hfollows : Follows memory (linesOf cs) ((screenInit memory).screenClear.screenRun cs) := by
    obtain h | ⟨hplain, hfew⟩ := h
    · exact follows_run memory h
    · exact follows_few memory hplain hfew
  dsimp only
  split
  · rename_i hnil
    subst hnil
    -- nothing was sent
    have hsame : (screenInit memory).screenClear.controller d = d := by
      unfold controller
      rw [screenClear_ports]
      rfl
    exact congrArg Crtc.cursor hsame
  · rename_i hcs
    rw [cursor_screenRun _ d hcs, hfollows.position hcur]
    exact ⟨rfl, cursor_lt_iff hcur⟩

theorem cursor_follows_twoLines :
    (((screenInit fun _ => 0).screenClear.screenRun twoLines.bytes).controller
      ⟨0, fun _ => 0⟩).cursor.toNat = 82 := by
  have htext : IsText twoLines.bytes := ⟨by decide, by decide⟩
  obtain ⟨hcursor, -⟩ := cursor_follows (fun _ => 0) ⟨0, fun _ => 0⟩ (.inl htext)
  rw [hcursor]
  decide

end Screen

end Utero.Drivers
