/-
  How a walk depends on memory.

  A walk reads only the slots on its path, so memory that agrees with another along the path
  gives the same walk (`AgreesAlong.walk_eq`). For one word changed, `visited` lists the slots
  of a path. Taking a word away makes a walk fault or leaves it as it is
  (`walk_update_absent`), and a walk that succeeds does not depend on absent words
  (`walk_update_of_absent`). Nor does any walk depend on a frame that holds no table
  (`hwTranslate_eq_of_agreesOutside`). What holds of reads holds of writes, in the memory that is
  left of the writable words.

  Nothing here depends on a program.
-/
import Utero.Lib.PageWalk

namespace Utero.Lib

/-! ## Memory that agrees along a path -/

/-- `mem'` has the entries of `mem` in the slots a walk of `is` from `t` visits. -/
def AgreesAlong (mem mem' : PhysMem) (t : FrameNo) (is : List (BitVec 9)) : Prop :=
  ∀ pre i post, is = pre ++ i :: post → Linked mem t pre →
    mem' ⟨reach mem t pre, i⟩ = mem ⟨reach mem t pre, i⟩

theorem AgreesAlong.head {mem mem' : PhysMem} {t : FrameNo} {i : BitVec 9}
    {is : List (BitVec 9)} (h : AgreesAlong mem mem' t (i :: is)) :
    mem' ⟨t, i⟩ = mem ⟨t, i⟩ :=
  h [] i is rfl trivial

theorem AgreesAlong.tail {mem mem' : PhysMem} {t : FrameNo} {i : BitVec 9}
    {is : List (BitVec 9)} (h : AgreesAlong mem mem' t (i :: is))
    (hlink : Pte.Link (mem ⟨t, i⟩)) : AgreesAlong mem mem' (Pte.frame (mem ⟨t, i⟩)) is := by
  intro pre j post heq hpre
  exact h (i :: pre) j post (by rw [heq, List.cons_append]) ⟨hlink, hpre⟩

/-- The walk depends only on the slots it visits. -/
theorem AgreesAlong.walk_eq {mem mem' : PhysMem} {t : FrameNo} {is : List (BitVec 9)}
    (h : AgreesAlong mem mem' t is) : walk mem' is t = walk mem is t := by
  induction is generalizing t with
  | nil => rfl
  | cons i is ih =>
    simp only [walk]
    rw [h.head]
    by_cases hlink : Pte.Link (mem ⟨t, i⟩)
    · rw [ih (h.tail hlink)]
    · cases is with
      | nil => rfl
      | cons j js =>
        -- an entry that is absent or huge ends the walk
        cases hp : Pte.present (mem ⟨t, i⟩) with
        | false => simp
        | true =>
          cases hh : Pte.huge (mem ⟨t, i⟩) with
          | false => exact absurd ⟨hp, hh⟩ hlink
          | true => simp

theorem AgreesAlong.linked {mem mem' : PhysMem} {t : FrameNo} {is : List (BitVec 9)}
    (h : AgreesAlong mem mem' t is) (hlinked : Linked mem t is) :
    Linked mem' t is ∧ reach mem' t is = reach mem t is := by
  induction is generalizing t with
  | nil => exact ⟨trivial, rfl⟩
  | cons i is ih =>
    obtain ⟨hl, hr⟩ := ih (h.tail hlinked.1) hlinked.2
    simp only [Linked, reach, List.foldl_cons, h.head]
    exact ⟨⟨hlinked.1, hl⟩, hr⟩

/-! ## One word changed -/

/-- The slots that the indices `is` lead through from `t`, whatever the flags. -/
def visited (mem : PhysMem) : FrameNo → List (BitVec 9) → List Slot
  | _, [] => []
  | t, i :: is => ⟨t, i⟩ :: visited mem (Pte.frame (mem ⟨t, i⟩)) is

theorem mem_visited (mem : PhysMem) (t : FrameNo) (pre : List (BitVec 9)) (i : BitVec 9)
    (post : List (BitVec 9)) : ⟨reach mem t pre, i⟩ ∈ visited mem t (pre ++ i :: post) := by
  induction pre generalizing t with
  | nil => exact List.mem_cons_self
  | cons j pre ih => exact List.mem_cons_of_mem _ (ih _)

theorem exists_of_mem_visited {mem : PhysMem} {t : FrameNo} {is : List (BitVec 9)} {x : Slot}
    (h : x ∈ visited mem t is) :
    ∃ pre i post, is = pre ++ i :: post ∧ x = ⟨reach mem t pre, i⟩ := by
  induction is generalizing t with
  | nil => cases h
  | cons j is ih =>
    rcases List.mem_cons.mp h with rfl | htail
    · exact ⟨[], j, is, rfl, rfl⟩
    · obtain ⟨pre, i, post, rfl, rfl⟩ := ih htail
      exact ⟨j :: pre, i, post, rfl, rfl⟩

theorem agreesAlong_update {mem : PhysMem} {t : FrameNo} {is : List (BitVec 9)} {x : Slot}
    (h : x ∉ visited mem t is) (v : BitVec 64) :
    AgreesAlong mem (Function.update mem x v) t is := by
  intro pre i post heq _
  have hne : (⟨reach mem t pre, i⟩ : Slot) ≠ x := by
    rintro rfl
    exact h (heq ▸ mem_visited mem t pre i post)
  exact Function.update_of_ne hne v mem

/-- Taking a word away makes a walk fault or does not concern it. -/
theorem walk_update_absent (mem : PhysMem) (x : Slot) {v : BitVec 64}
    (hv : Pte.present v = false) (is : List (BitVec 9)) (t : FrameNo) :
    walk (Function.update mem x v) is t = none ∨
      walk (Function.update mem x v) is t = walk mem is t := by
  induction is generalizing t with
  | nil => exact Or.inr rfl
  | cons i is ih =>
    simp only [walk]
    by_cases hx : (⟨t, i⟩ : Slot) = x
    · left
      rw [hx, Function.update_self, if_pos hv]
    · rw [Function.update_of_ne hx]
      rcases ih (Pte.frame (mem ⟨t, i⟩)) with hnone | hsame
      · split
        · exact Or.inl rfl
        · split
          · exact Or.inr rfl
          · exact Or.inl hnone
      · rw [hsame]
        exact Or.inr rfl

/-- A walk that succeeds has not met an absent word, and does not mind what it becomes. -/
theorem walk_update_of_absent {mem : PhysMem} {x : Slot} (hx : Pte.present (mem x) = false)
    (v : BitVec 64) {is : List (BitVec 9)} {t f : FrameNo} (h : walk mem is t = some f) :
    walk (Function.update mem x v) is t = some f := by
  induction is generalizing t with
  | nil => exact h
  | cons i is ih =>
    simp only [walk] at h ⊢
    have hne : (⟨t, i⟩ : Slot) ≠ x := by
      rintro rfl
      simp [hx] at h
    rw [Function.update_of_ne hne]
    split at h
    · cases h
    · rw [if_neg ‹_›]
      split at h
      · rw [if_pos ‹_›]
        exact h
      · rw [if_neg ‹_›]
        exact ih h

/-- Taking a word away makes no new paths. -/
theorem linked_update_absent (mem : PhysMem) (x : Slot) {v : BitVec 64}
    (hv : Pte.present v = false) {is : List (BitVec 9)} {t : FrameNo}
    (h : Linked (Function.update mem x v) t is) :
    Linked mem t is ∧ reach (Function.update mem x v) t is = reach mem t is := by
  induction is generalizing t with
  | nil => exact ⟨trivial, rfl⟩
  | cons i is ih =>
    obtain ⟨hlink, hrest⟩ := h
    have hne : (⟨t, i⟩ : Slot) ≠ x := by
      intro hx
      rw [hx, Function.update_self] at hlink
      exact absurd hlink.1 (by simp [hv])
    rw [Function.update_of_ne hne] at hlink hrest
    obtain ⟨hl, hr⟩ := ih hrest
    refine ⟨⟨hlink, hl⟩, ?_⟩
    simp only [reach, List.foldl_cons] at hr ⊢
    rw [Function.update_of_ne hne]
    exact hr

theorem hwTranslate_update_absent {mem : PhysMem} {cr3 : FrameNo} {va : BitVec 64} {x : Slot}
    {v : BitVec 64} {p p' : BitVec 52} (hv : Pte.present v = false)
    (h : hwTranslate mem cr3 va = some p)
    (h' : hwTranslate (Function.update mem x v) cr3 va = some p') : p' = p := by
  obtain ⟨-, f, hf, rfl⟩ := hwTranslate_eq_some.mp h
  obtain ⟨-, f', hf', rfl⟩ := hwTranslate_eq_some.mp h'
  rcases walk_update_absent mem x hv (vaIndices va) cr3 with hnone | hsame
  · rw [hnone] at hf'
    cases hf'
  · rw [hsame, hf] at hf'
    rw [Option.some.inj hf']

theorem hwTranslate_update_of_absent {mem : PhysMem} {cr3 : FrameNo} {va : BitVec 64} {x : Slot}
    {p : BitVec 52} (hx : Pte.present (mem x) = false) (v : BitVec 64)
    (h : hwTranslate mem cr3 va = some p) :
    hwTranslate (Function.update mem x v) cr3 va = some p := by
  obtain ⟨hc, f, hf, rfl⟩ := hwTranslate_eq_some.mp h
  exact hwTranslate_eq_some.mpr ⟨hc, f, walk_update_of_absent hx v hf, rfl⟩

theorem writableOnly_update (mem : PhysMem) (x : Slot) (v : BitVec 64) :
    writableOnly (Function.update mem x v) =
      Function.update (writableOnly mem) x (if Pte.writable v then v else 0) := by
  funext y
  by_cases hy : y = x
  · subst hy
    rw [writableOnly, Function.update_self, Function.update_self]
  · rw [writableOnly, Function.update_of_ne hy, Function.update_of_ne hy, writableOnly]

theorem hwWrite_update_of_absent {mem : PhysMem} {cr3 : FrameNo} {va : BitVec 64} {x : Slot}
    {p : BitVec 52} (hx : Pte.present (mem x) = false) (v : BitVec 64)
    (h : hwWrite mem cr3 va = some p) :
    hwWrite (Function.update mem x v) cr3 va = some p := by
  rw [hwWrite_eq_writableOnly] at h ⊢
  rw [writableOnly_update]
  exact hwTranslate_update_of_absent (present_writableOnly hx) _ h

/-- The tables that a write reaches are tables that a read reaches. -/
theorem linked_writableOnly {mem : PhysMem} {t : FrameNo} {is : List (BitVec 9)}
    (h : Linked (writableOnly mem) t is) :
    Linked mem t is ∧ reach (writableOnly mem) t is = reach mem t is := by
  induction is generalizing t with
  | nil => exact ⟨trivial, rfl⟩
  | cons i is ih =>
    obtain ⟨hw, hlink⟩ := link_writableOnly h.1
    have hrest := h.2
    rw [writableOnly_of_writable hw] at hrest
    obtain ⟨hl, hr⟩ := ih hrest
    refine ⟨⟨hlink, hl⟩, ?_⟩
    simp only [reach, List.foldl_cons] at hr ⊢
    rw [writableOnly_of_writable hw]
    exact hr

theorem AgreesAlong.writableOnly {mem mem' : PhysMem} {t : FrameNo} {is : List (BitVec 9)}
    (h : AgreesAlong mem mem' t is) :
    AgreesAlong (writableOnly mem) (Lib.writableOnly mem') t is := by
  intro pre i post heq hpre
  obtain ⟨hl, hreach⟩ := linked_writableOnly hpre
  have hsame := h pre i post heq hl
  rw [hreach, Lib.writableOnly, Lib.writableOnly, hsame]

/-! ## A frame changed -/

/-- No walk goes through frame `f`: it is not the top table, and no path of entries leads a walk
    on to it. -/
def HoldsNoTable (mem : PhysMem) (cr3 f : FrameNo) : Prop :=
  ∀ is : List (BitVec 9), is.length ≤ 3 → Linked mem cr3 is → reach mem cr3 is ≠ f

/-- The two memories differ in frame `f` and in the word `x` only. -/
def AgreesOutside (f : FrameNo) (x : Slot) (mem mem' : PhysMem) : Prop :=
  ∀ y, y ≠ x → y.frame ≠ f → mem' y = mem y

theorem AgreesOutside.refl (f : FrameNo) (x : Slot) (mem : PhysMem) : AgreesOutside f x mem mem :=
  fun _ _ _ => rfl

theorem HoldsNoTable.update_absent {mem : PhysMem} {cr3 f : FrameNo}
    (h : HoldsNoTable mem cr3 f) (x : Slot) {v : BitVec 64} (hv : Pte.present v = false) :
    HoldsNoTable (Function.update mem x v) cr3 f := by
  intro is hlen hl
  obtain ⟨hl', hreach⟩ := linked_update_absent mem x hv hl
  rw [hreach]
  exact h is hlen hl'

/-- A frame of rank 4 or more holds no table if each link goes up by one rank at most. -/
theorem holdsNoTable_of_rank {mem : PhysMem} {cr3 f : FrameNo} (rank : FrameNo → Nat)
    (hcr3 : rank cr3 = 0)
    (hlink : ∀ t i, Pte.Link (mem ⟨t, i⟩) → rank (Pte.frame (mem ⟨t, i⟩)) ≤ rank t + 1)
    (hf : 3 < rank f) : HoldsNoTable mem cr3 f := by
  have hreach : ∀ is t, Linked mem t is → rank (reach mem t is) ≤ rank t + is.length := by
    intro is
    induction is with
    | nil => exact fun t _ => Nat.le_refl _
    | cons i is ih =>
      intro t hl
      have hhead := hlink t i hl.1
      have htail := ih _ hl.2
      simp only [reach, List.foldl_cons, List.length_cons] at htail ⊢
      omega
  intro is hlen hl heq
  have hrank := hreach is cr3 hl
  rw [heq] at hrank
  omega

section Outside

variable {mem mem' : PhysMem} {cr3 f : FrameNo} {x : Slot} (hno : HoldsNoTable mem cr3 f)
  (hx : mem' x = mem x ∨ Pte.present (mem x) = false ∧ Pte.present (mem' x) = false)
  (h : AgreesOutside f x mem mem')

include hno hx h

/-- A walk from a table that a linked path leads to. -/
theorem walk_eq_of_agreesOutside (is : List (BitVec 9)) {pre : List (BitVec 9)}
    (hlen : (pre ++ is).length ≤ 4) (hpre : Linked mem cr3 pre) :
    walk mem' is (reach mem cr3 pre) = walk mem is (reach mem cr3 pre) := by
  induction is generalizing pre with
  | nil => rfl
  | cons i is ih =>
    have hlen3 : pre.length ≤ 3 := by
      simp only [List.length_append, List.length_cons] at hlen
      omega
    -- the entry is the same, or absent in both memories
    have hentry : mem' ⟨reach mem cr3 pre, i⟩ = mem ⟨reach mem cr3 pre, i⟩ ∨
        Pte.present (mem ⟨reach mem cr3 pre, i⟩) = false ∧
          Pte.present (mem' ⟨reach mem cr3 pre, i⟩) = false := by
      by_cases heq : (⟨reach mem cr3 pre, i⟩ : Slot) = x
      · rw [heq]
        exact hx
      · exact Or.inl (h _ heq (hno pre hlen3 hpre))
    rcases hentry with hsame | ⟨habsent, habsent'⟩
    · by_cases hlink : Pte.Link (mem ⟨reach mem cr3 pre, i⟩)
      · have hlen' : (pre ++ [i] ++ is).length ≤ 4 := by simpa using hlen
        have hrest := ih hlen' ((linked_snoc _ _ _ _).mpr ⟨hpre, hlink⟩)
        rw [reach_snoc] at hrest
        rw [walk_link hlink, walk_link (hsame.symm ▸ hlink), hsame, hrest]
      · -- an entry that is absent, huge or the last one ends the walk
        cases is with
        | nil => rw [walk_last, walk_last, hsame]
        | cons j js =>
          simp only [walk, hsame]
          cases hp : Pte.present (mem ⟨reach mem cr3 pre, i⟩) with
          | false => rfl
          | true =>
            have hhuge : Pte.huge (mem ⟨reach mem cr3 pre, i⟩) = true := by
              by_contra hhuge
              exact hlink ⟨hp, Bool.eq_false_of_not_eq_true hhuge⟩
            simp [hhuge]
    · simp only [walk]
      rw [if_pos habsent, if_pos habsent']

/-- Frames without tables, and absent words, have no part in any translation. -/
theorem hwTranslate_eq_of_agreesOutside (va : BitVec 64) :
    hwTranslate mem' cr3 va = hwTranslate mem cr3 va := by
  have hlen : ([] ++ vaIndices va).length ≤ 4 := by simp [vaIndices]
  have hwalk : walk mem' (vaIndices va) cr3 = walk mem (vaIndices va) cr3 :=
    walk_eq_of_agreesOutside hno hx h (vaIndices va) hlen trivial
  rw [hwTranslate, hwTranslate, hwalk]

/-- Nor in any write. -/
theorem hwWrite_eq_of_agreesOutside (va : BitVec 64) :
    hwWrite mem' cr3 va = hwWrite mem cr3 va := by
  have hno' : HoldsNoTable (writableOnly mem) cr3 f := by
    intro is hlen hl
    obtain ⟨hlinked, hreach⟩ := linked_writableOnly hl
    rw [hreach]
    exact hno is hlen hlinked
  have hagree : AgreesOutside f x (writableOnly mem) (writableOnly mem') := by
    intro y hy hyf
    rw [writableOnly, writableOnly, h y hy hyf]
  have hentry : writableOnly mem' x = writableOnly mem x ∨
      Pte.present (writableOnly mem x) = false ∧ Pte.present (writableOnly mem' x) = false := by
    rcases hx with hsame | ⟨habsent, habsent'⟩
    · exact Or.inl (by rw [writableOnly, writableOnly, hsame])
    · exact Or.inr ⟨present_writableOnly habsent, present_writableOnly habsent'⟩
  rw [hwWrite_eq_writableOnly, hwWrite_eq_writableOnly]
  exact hwTranslate_eq_of_agreesOutside hno' hentry hagree va

end Outside

end Utero.Lib
