/-
  The text screen of `src/drivers/screen.c`.

  The framebuffer is the memory from VIDEO_ADDRESS on, addressed by signed offsets as the C code
  addresses it; nothing in the code keeps an offset inside the 80x25 text page. `Video.written`
  records the offsets of all stores. The cursor (`screen_col`, `screen_row`) is a pair of C
  `int`s, modelled as integers: they leave the page long before they could overflow.

  `screenRun_bounded_iff`: over any run of `screen_write` after `screen_init`, the cursor stays on
  the page and every store falls into it if and only if no '\n' is written in the last row and
  no '\t' in the last eight columns. Both move the cursor without the scrolling or wrapping that
  only follows a glyph (`screenWrite_bounded_iff` is the step).
-/
import Mathlib.Algebra.Group.Nat.Defs
import Mathlib.Data.List.Induction
import Mathlib.Logic.Function.Basic
import Utero.Libk.Printfk

namespace Utero.Drivers

open Utero.Libk (ascii)

def screenWidth : Nat := 80

def screenHeight : Nat := 24

/-! ## The framebuffer -/

/-- The bytes from VIDEO_ADDRESS on, and the offsets stored to, latest first. -/
structure Video where
  bytes : Int → BitVec 8
  written : List Int

namespace Video

def store (v : Video) (offset : Int) (b : BitVec 8) : Video where
  bytes := Function.update v.bytes offset b
  written := offset :: v.written

/-- `memcpyk(src, dest, bytes)`: the source comes first. -/
def memcpyk (src dest : Int) (bytes : Nat) (v : Video) : Video :=
  bytes.fold (fun i _ v => v.store (dest + i) (v.bytes (src + i))) v

/-- The row loop of `screen_write_at`; its `i` is `k + 1`. -/
def copyRows (rows : Nat) (v : Video) : Video :=
  rows.fold (fun k _ v => v.memcpyk (2 * (k + 1) * screenWidth) (2 * k * screenWidth)
    (2 * screenWidth)) v

/-- `for (int i = 0; i < SCREEN_WIDTH * 2; i++) last_line[i] = 0` -/
def clearLine (line : Int) (bytes : Nat) (v : Video) : Video :=
  bytes.fold (fun i _ v => v.store (line + i) 0) v

/-- What `screen_write_at` does to the framebuffer when it scrolls. -/
def scroll (v : Video) : Video :=
  (v.copyRows (screenHeight - 1)).clearLine (2 * screenHeight * screenWidth) (screenWidth * 2)

/-- Every store since `v` went to an offset of [lo, hi). -/
def StoresIn (lo hi : Int) (v v' : Video) : Prop :=
  ∀ o ∈ v'.written, o ∈ v.written ∨ (lo ≤ o ∧ o < hi)

theorem StoresIn.refl (lo hi : Int) (v : Video) : StoresIn lo hi v v :=
  fun _ ho => Or.inl ho

theorem StoresIn.trans {lo hi : Int} {v₁ v₂ v₃ : Video} (h₁ : StoresIn lo hi v₁ v₂)
    (h₂ : StoresIn lo hi v₂ v₃) : StoresIn lo hi v₁ v₃ := by
  intro o ho
  rcases h₂ o ho with ho | ho
  · exact h₁ o ho
  · exact Or.inr ho

theorem StoresIn.mono {lo hi lo' hi' : Int} {v v' : Video} (h : StoresIn lo hi v v')
    (hlo : lo' ≤ lo) (hhi : hi ≤ hi') : StoresIn lo' hi' v v' := by
  intro o ho
  rcases h o ho with ho | ho
  · exact Or.inl ho
  · exact Or.inr ⟨by omega, by omega⟩

theorem storesIn_store (v : Video) (offset : Int) (b : BitVec 8) :
    StoresIn offset (offset + 1) v (v.store offset b) := by
  intro o ho
  rcases List.mem_cons.mp ho with rfl | ho
  · exact Or.inr ⟨by omega, by omega⟩
  · exact Or.inl ho

theorem store_bytes (v : Video) (offset : Int) (b : BitVec 8) (o : Int) :
    (v.store offset b).bytes o = if o = offset then b else v.bytes o :=
  Function.update_apply v.bytes offset b o

theorem memcpyk_succ (src dest : Int) (n : Nat) (v : Video) :
    v.memcpyk src dest (n + 1) =
      (v.memcpyk src dest n).store (dest + n) ((v.memcpyk src dest n).bytes (src + n)) := by
  unfold memcpyk
  rw [Nat.fold_succ]

theorem storesIn_memcpyk (src dest : Int) (n : Nat) (v : Video) :
    StoresIn dest (dest + n) v (v.memcpyk src dest n) := by
  induction n with
  | zero => exact StoresIn.refl _ _ v
  | succ n ih =>
    rw [memcpyk_succ]
    exact (ih.mono (by omega) (by omega)).trans ((storesIn_store _ _ _).mono (by omega) (by omega))

/-- A copy to lower addresses, when the two ranges do not overlap. -/
theorem memcpyk_bytes {src dest : Int} {n : Nat} (hsep : dest + n ≤ src) (v : Video) (o : Int) :
    (v.memcpyk src dest n).bytes o =
      if dest ≤ o ∧ o < dest + n then v.bytes (src + (o - dest)) else v.bytes o := by
  induction n generalizing o with
  | zero =>
    rw [if_neg (by omega)]
    rfl
  | succ n ih =>
    have hsrc : (v.memcpyk src dest n).bytes (src + n) = v.bytes (src + n) := by
      rw [ih (by omega), if_neg (by omega)]
    rw [memcpyk_succ, store_bytes, hsrc, ih (by omega)]
    by_cases heq : o = dest + n
    · rw [if_pos heq, if_pos (by omega), heq]
      congr 1
      omega
    · rw [if_neg heq]
      by_cases hin : dest ≤ o ∧ o < dest + n
      · rw [if_pos hin, if_pos (by omega)]
      · rw [if_neg hin, if_neg (by omega)]

theorem copyRows_succ (k : Nat) (v : Video) :
    v.copyRows (k + 1) = (v.copyRows k).memcpyk (160 * (k + 1)) (160 * k) 160 := by
  have hsrc : 2 * ((k : Int) + 1) * screenWidth = 160 * (k + 1) := by
    unfold screenWidth
    omega
  have hdest : 2 * (k : Int) * screenWidth = 160 * k := by
    unfold screenWidth
    omega
  unfold copyRows
  rw [Nat.fold_succ, hsrc, hdest]
  rfl

theorem storesIn_copyRows (k : Nat) (v : Video) : StoresIn 0 (160 * k) v (v.copyRows k) := by
  induction k with
  | zero => exact StoresIn.refl _ _ v
  | succ k ih =>
    rw [copyRows_succ]
    exact (ih.mono (by omega) (by omega)).trans
      ((storesIn_memcpyk _ _ _ _).mono (by omega) (by omega))

/-- The first `k` rows take over the row below. -/
theorem copyRows_bytes (k : Nat) (v : Video) (o : Int) :
    (v.copyRows k).bytes o =
      if 0 ≤ o ∧ o < 160 * k then v.bytes (o + 160) else v.bytes o := by
  induction k generalizing o with
  | zero =>
    rw [if_neg (by omega)]
    rfl
  | succ k ih =>
    rw [copyRows_succ, memcpyk_bytes (by omega)]
    by_cases hrow : 160 * (k : Int) ≤ o ∧ o < 160 * (k + 1)
    · -- row `k` itself: its source lies behind the rows copied so far
      rw [if_pos (by omega), if_pos (by omega), ih, if_neg (by omega)]
      congr 1
      omega
    · rw [if_neg (by omega), ih]
      by_cases hin : 0 ≤ o ∧ o < 160 * (k : Int)
      · rw [if_pos hin, if_pos (by omega)]
      · rw [if_neg hin, if_neg (by omega)]

theorem storesIn_clearLine (line : Int) (n : Nat) (v : Video) :
    StoresIn line (line + n) v (v.clearLine line n) := by
  induction n with
  | zero => exact StoresIn.refl _ _ v
  | succ n ih =>
    unfold clearLine at ih ⊢
    rw [Nat.fold_succ]
    exact (ih.mono (by omega) (by omega)).trans ((storesIn_store _ _ _).mono (by omega) (by omega))

theorem clearLine_bytes (line : Int) (n : Nat) (v : Video) (o : Int) :
    (v.clearLine line n).bytes o = if line ≤ o ∧ o < line + n then 0 else v.bytes o := by
  induction n with
  | zero =>
    rw [if_neg (by omega)]
    rfl
  | succ n ih =>
    unfold clearLine at ih ⊢
    rw [Nat.fold_succ, store_bytes, ih]
    by_cases heq : o = line + n
    · rw [if_pos heq, if_pos (by omega)]
    · rw [if_neg heq]
      by_cases hin : line ≤ o ∧ o < line + n
      · rw [if_pos hin, if_pos (by omega)]
      · rw [if_neg hin, if_neg (by omega)]

theorem scroll_eq (v : Video) : v.scroll = (v.copyRows 23).clearLine 3840 160 := rfl

theorem storesIn_scroll (v : Video) : StoresIn 0 4000 v v.scroll := by
  rw [scroll_eq]
  exact ((storesIn_copyRows _ v).mono (by omega) (by omega)).trans
    ((storesIn_clearLine _ _ _).mono (by omega) (by omega))

/-- Rows 0 to 22 take over the row below, row 24 is cleared, row 23 stays. -/
theorem scroll_bytes (v : Video) (o : Int) :
    v.scroll.bytes o =
      if 0 ≤ o ∧ o < 3680 then v.bytes (o + 160)
      else if 3840 ≤ o ∧ o < 4000 then 0 else v.bytes o := by
  rw [scroll_eq, clearLine_bytes, copyRows_bytes]
  by_cases hrows : 0 ≤ o ∧ o < 3680
  · rw [if_pos hrows, if_neg (by omega), if_pos (by omega)]
  · rw [if_neg hrows]
    by_cases hlast : 3840 ≤ o ∧ o < 4000
    · rw [if_pos hlast, if_pos (by omega)]
    · rw [if_neg hlast, if_neg (by omega), if_neg (by omega)]

end Video

/-! ## The screen -/

structure Screen where
  framebuffer : Video
  scheme : BitVec 8
  col : Int
  row : Int
  /-- What was sent to the ports of the cursor, port and byte, latest first. -/
  ports : List (BitVec 16 × BitVec 8)

namespace Screen

def colorScheme (fg bg : BitVec 8) : BitVec 8 := fg ||| bg <<< 4

def colorBlack : BitVec 8 := 0

def colorLightGrey : BitVec 8 := 7

/-- `screen_init` in a machine whose memory from VIDEO_ADDRESS on is `memory`. -/
def screenInit (memory : Int → BitVec 8) : Screen where
  framebuffer := ⟨memory, []⟩
  scheme := colorScheme colorLightGrey colorBlack
  col := 0
  row := 0
  ports := []

def portByteOut (s : Screen) (port : BitVec 16) (data : BitVec 8) : Screen :=
  { s with ports := (port, data) :: s.ports }

def fbCommandPort : BitVec 16 := 0x3D4

def fbDataPort : BitVec 16 := 0x3D5

def fbHighByteCommand : BitVec 8 := 14

def fbLowByteCommand : BitVec 8 := 15

def moveCursor (s : Screen) (pos : BitVec 16) : Screen :=
  (((s.portByteOut fbCommandPort fbHighByteCommand).portByteOut fbDataPort
    ((pos >>> 8 &&& 0x00FF).setWidth 8)).portByteOut fbCommandPort fbLowByteCommand).portByteOut
      fbDataPort ((pos &&& 0x00FF).setWidth 8)

def offsetOf (x y : Int) : Int := 2 * (y * screenWidth + x)

def screenWriteAt (s : Screen) (c scheme : BitVec 8) (x y : Int) : Screen :=
  let offset := offsetOf x y
  let v := (s.framebuffer.store offset c).store (offset + 1) scheme
  if offset > screenHeight * screenWidth * 2 then
    { s with framebuffer := v.scroll, row := s.row - 1 }
  else { s with framebuffer := v }

/-- The last branch of `screen_write`. -/
def writeGlyph (s : Screen) (c : BitVec 8) : Screen :=
  let s := s.screenWriteAt c s.scheme s.col s.row
  let s := { s with col := s.col + 1 }
  if s.col = (screenWidth : Int) then { s with col := 0, row := s.row + 1 } else s

/-- `screen_write` without the `move_cursor` at its end. -/
def writeChar (s : Screen) (c : BitVec 8) : Screen :=
  if c = ascii '\n' then { s with col := 0, row := s.row + 1 }
  else if c = ascii '\x08' ∧ s.col > 0 then
    let s := { s with col := s.col - 1 }
    s.screenWriteAt 0 s.scheme s.col s.row
  else if c = ascii '\t' then { s with col := s.col + 8 - s.col.tmod 8 }
  else if c = ascii '\x0d' then { s with col := 0 }
  else s.writeGlyph c

def screenWrite (s : Screen) (c : BitVec 8) : Screen :=
  let s := s.writeChar c
  s.moveCursor (BitVec.ofInt 16 (s.row * screenWidth + s.col))

/-- The inner loop of `screen_clear`: `n` columns of row `y`. -/
def clearCells (s : Screen) (y : Int) (n : Nat) : Screen :=
  n.fold (fun x _ s => s.screenWriteAt (ascii ' ') s.scheme x y) s

/-- The outer loop of `screen_clear`: `n` rows. -/
def clearRows (s : Screen) (n : Nat) : Screen :=
  n.fold (fun y _ s => s.clearCells y screenWidth) s

def screenClear (s : Screen) : Screen := s.clearRows screenHeight

@[simp]
theorem moveCursor_col (s : Screen) (pos : BitVec 16) : (s.moveCursor pos).col = s.col := rfl

@[simp]
theorem moveCursor_row (s : Screen) (pos : BitVec 16) : (s.moveCursor pos).row = s.row := rfl

@[simp]
theorem moveCursor_framebuffer (s : Screen) (pos : BitVec 16) :
    (s.moveCursor pos).framebuffer = s.framebuffer := rfl

/-! ## Bounds -/

/-- The cursor is on the page, and so was every store. -/
def Bounded (s : Screen) : Prop :=
  (0 ≤ s.col ∧ s.col < screenWidth) ∧ (0 ≤ s.row ∧ s.row ≤ screenHeight) ∧
    ∀ o ∈ s.framebuffer.written, 0 ≤ o ∧ o < 2 * screenWidth * (screenHeight + 1)

/-- `screen_write(c)` neither starts a line in the last row nor tabs out of the last column. -/
def StaysInside (s : Screen) (c : BitVec 8) : Prop :=
  ¬ (c = ascii '\n' ∧ s.row = screenHeight) ∧
    ¬ (c = ascii '\t' ∧ (screenWidth : Int) - 8 ≤ s.col)

theorem bounded_iff (s : Screen) :
    s.Bounded ↔ (0 ≤ s.col ∧ s.col < 80) ∧ (0 ≤ s.row ∧ s.row ≤ 24) ∧
      ∀ o ∈ s.framebuffer.written, 0 ≤ o ∧ o < 4000 := Iff.rfl

theorem staysInside_iff (s : Screen) (c : BitVec 8) :
    s.StaysInside c ↔ ¬ (c = ascii '\n' ∧ s.row = 24) ∧ ¬ (c = ascii '\t' ∧ 72 ≤ s.col) := Iff.rfl

theorem offsetOf_eq (x y : Int) : offsetOf x y = 2 * (y * 80 + x) := rfl

theorem screenWriteAt_eq (s : Screen) (c scheme : BitVec 8) (x y : Int) :
    s.screenWriteAt c scheme x y =
      let v := (s.framebuffer.store (offsetOf x y) c).store (offsetOf x y + 1) scheme
      if 3840 < offsetOf x y then { s with framebuffer := v.scroll, row := s.row - 1 }
      else { s with framebuffer := v } := rfl

@[simp]
theorem screenWriteAt_col (s : Screen) (c scheme : BitVec 8) (x y : Int) :
    (s.screenWriteAt c scheme x y).col = s.col := by
  rw [screenWriteAt_eq]
  dsimp only
  split <;> rfl

theorem screenWriteAt_row (s : Screen) (c scheme : BitVec 8) (x y : Int) :
    (s.screenWriteAt c scheme x y).row =
      if 3840 < offsetOf x y then s.row - 1 else s.row := by
  rw [screenWriteAt_eq]
  dsimp only
  split <;> rfl

theorem storesIn_screenWriteAt (s : Screen) (c scheme : BitVec 8) {x y : Int}
    (hx : 0 ≤ x ∧ x < 80) (hy : 0 ≤ y ∧ y ≤ 24) :
    Video.StoresIn 0 4000 s.framebuffer (s.screenWriteAt c scheme x y).framebuffer := by
  have hcell : Video.StoresIn 0 4000 s.framebuffer
      ((s.framebuffer.store (offsetOf x y) c).store (offsetOf x y + 1) scheme) := by
    rw [offsetOf_eq]
    exact ((Video.storesIn_store _ _ _).mono (by omega) (by omega)).trans
      ((Video.storesIn_store _ _ _).mono (by omega) (by omega))
  rw [screenWriteAt_eq]
  dsimp only
  split
  · exact hcell.trans (Video.storesIn_scroll _)
  · exact hcell

theorem writeGlyph_col (s : Screen) (c : BitVec 8) :
    (s.writeGlyph c).col = if s.col = 79 then 0 else s.col + 1 := by
  unfold writeGlyph
  simp only [screenWriteAt_col, screenWidth]
  by_cases hend : s.col = 79
  · rw [if_pos hend, if_pos (by omega)]
  · rw [if_neg hend, if_neg (by omega)]

theorem writeGlyph_row (s : Screen) (c : BitVec 8) :
    (s.writeGlyph c).row =
      (if 3840 < offsetOf s.col s.row then s.row - 1 else s.row) +
        if s.col = 79 then 1 else 0 := by
  unfold writeGlyph
  simp only [screenWriteAt_col, screenWidth, ← screenWriteAt_row s c s.scheme]
  by_cases hend : s.col = 79
  · rw [if_pos hend, if_pos (by omega)]
  · rw [if_neg hend, if_neg (by omega), Int.add_zero]

theorem writeGlyph_framebuffer (s : Screen) (c : BitVec 8) :
    (s.writeGlyph c).framebuffer = (s.screenWriteAt c s.scheme s.col s.row).framebuffer := by
  unfold writeGlyph
  dsimp only
  split <;> rfl

theorem screenWrite_bounded (s : Screen) (c : BitVec 8) :
    (s.screenWrite c).Bounded ↔ (s.writeChar c).Bounded := by
  unfold screenWrite
  rw [bounded_iff, bounded_iff, moveCursor_col, moveCursor_row, moveCursor_framebuffer]

theorem Bounded.of_storesIn {s t : Screen} (hs : s.Bounded)
    (hstores : Video.StoresIn 0 4000 s.framebuffer t.framebuffer)
    (hcol : 0 ≤ t.col ∧ t.col < 80) (hrow : 0 ≤ t.row ∧ t.row ≤ 24) : t.Bounded := by
  refine (bounded_iff t).mpr ⟨hcol, hrow, fun o ho => ?_⟩
  rcases hstores o ho with ho | ho
  · exact ((bounded_iff s).mp hs).2.2 o ho
  · exact ho

theorem firstColumn : (0 : Int) ≤ 0 ∧ (0 : Int) < 80 := by decide

theorem writeGlyph_keeps {s : Screen} (hs : s.Bounded) (c : BitVec 8) :
    (s.writeGlyph c).Bounded := by
  obtain ⟨hcol, hrow, -⟩ := (bounded_iff s).mp hs
  refine hs.of_storesIn ?_ ?_ ?_
  · rw [writeGlyph_framebuffer]
    exact storesIn_screenWriteAt s c s.scheme hcol hrow
  · rw [writeGlyph_col]
    split <;> omega
  · -- the last column scrolls whenever it would leave the last row
    rw [writeGlyph_row, offsetOf_eq]
    split <;> split <;> omega

/-- From inside the page, the two moves of `StaysInside` are the only ones that leave it. -/
theorem screenWrite_bounded_iff {s : Screen} (hs : s.Bounded) (c : BitVec 8) :
    (s.screenWrite c).Bounded ↔ s.StaysInside c := by
  obtain ⟨hcol, hrow, -⟩ := (bounded_iff s).mp hs
  rw [screenWrite_bounded, staysInside_iff]
  unfold writeChar
  by_cases hnewline : c = ascii '\n'
  · rw [if_pos hnewline]
    constructor
    · intro h
      have hlast : s.row + 1 ≤ 24 := ((bounded_iff _).mp h).2.1.2
      exact ⟨by omega, fun h => absurd (hnewline.symm.trans h.1) (by decide)⟩
    · rintro ⟨hlast, -⟩
      have hne : s.row ≠ 24 := fun h => hlast ⟨hnewline, h⟩
      exact hs.of_storesIn (Video.StoresIn.refl _ _ _) firstColumn
        ⟨show 0 ≤ s.row + 1 by omega, show s.row + 1 ≤ 24 by omega⟩
  rw [if_neg hnewline]
  by_cases hback : c = ascii '\x08' ∧ s.col > 0
  · rw [if_pos hback]
    have htab : c ≠ ascii '\t' := fun h => absurd (hback.1.symm.trans h) (by decide)
    refine iff_of_true ?_ ⟨fun h => hnewline h.1, fun h => htab h.1⟩
    refine hs.of_storesIn
      (storesIn_screenWriteAt { s with col := s.col - 1 } _ _ ⟨?_, ?_⟩ hrow) ?_ ?_
    · show 0 ≤ s.col - 1
      omega
    · show s.col - 1 < 80
      omega
    · rw [screenWriteAt_col]
      exact ⟨show 0 ≤ s.col - 1 by omega, show s.col - 1 < 80 by omega⟩
    · rw [screenWriteAt_row, offsetOf_eq]
      dsimp only
      split <;> omega
  rw [if_neg hback]
  by_cases htab : c = ascii '\t'
  · rw [if_pos htab]
    have hmod : s.col.tmod 8 = s.col % 8 := Int.tmod_eq_emod_of_nonneg hcol.1
    constructor
    · intro h
      have hlast : s.col + 8 - s.col.tmod 8 < 80 := ((bounded_iff _).mp h).1.2
      exact ⟨fun h => hnewline h.1, fun h => by omega⟩
    · rintro ⟨-, hlast⟩
      have hlt : ¬ 72 ≤ s.col := fun h => hlast ⟨htab, h⟩
      exact hs.of_storesIn (Video.StoresIn.refl _ _ _)
        ⟨show 0 ≤ s.col + 8 - s.col.tmod 8 by omega, show s.col + 8 - s.col.tmod 8 < 80 by omega⟩
        hrow
  rw [if_neg htab]
  refine iff_of_true ?_ ⟨fun h => hnewline h.1, fun h => htab h.1⟩
  by_cases hreturn : c = ascii '\x0d'
  · rw [if_pos hreturn]
    exact hs.of_storesIn (Video.StoresIn.refl _ _ _) firstColumn hrow
  · rw [if_neg hreturn]
    exact writeGlyph_keeps hs c

/-- The calls of `screen_write` for a sequence of characters. -/
def screenRun (s : Screen) (cs : List (BitVec 8)) : Screen := cs.foldl screenWrite s

theorem screenRun_append (s : Screen) (cs ds : List (BitVec 8)) :
    s.screenRun (cs ++ ds) = (s.screenRun cs).screenRun ds := List.foldl_append

theorem screenInit_bounded (memory : Int → BitVec 8) : (screenInit memory).Bounded :=
  (bounded_iff _).mpr ⟨firstColumn, ⟨Int.le_refl 0, Int.natCast_nonneg 24⟩, fun _ ho => nomatch ho⟩

/-- Over a whole run from `screen_init`: the bounds hold after every call if and only if every
    call stays inside, in the state before it. -/
theorem screenRun_bounded_iff (memory : Int → BitVec 8) (cs : List (BitVec 8)) :
    (∀ done, done <+: cs → ((screenInit memory).screenRun done).Bounded) ↔
      ∀ done c, done ++ [c] <+: cs → ((screenInit memory).screenRun done).StaysInside c := by
  constructor
  · intro h done c hdone
    have hbefore := h done ((List.prefix_append _ _).trans hdone)
    have hafter := h (done ++ [c]) hdone
    rw [screenRun_append] at hafter
    exact (screenWrite_bounded_iff hbefore c).mp hafter
  · intro h done hdone
    induction done using List.reverseRecOn with
    | nil => exact screenInit_bounded memory
    | append_singleton done c ih =>
      rw [screenRun_append]
      exact (screenWrite_bounded_iff (ih ((List.prefix_append _ _).trans hdone)) c).mpr
        (h done c hdone)

/-- 25 newlines leave the page. -/
theorem screenRun_leaves_page :
    ¬ ∀ memory cs, ((screenInit memory).screenRun cs).Bounded := by
  intro h
  have hrow := ((bounded_iff _).mp (h (fun _ => 0) (List.replicate 25 (ascii '\n')))).2.1.2
  exact absurd hrow (by decide)

end Screen

end Utero.Drivers
