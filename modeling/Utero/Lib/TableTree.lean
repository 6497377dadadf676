/-
  Trees of page tables.

  In a tree no two entries lead to the same table (`DistinctTables`). Paths that meet are then
  equal (`reach_inj`, by induction from the last index), so that the last entry of one path is
  on no other (`agreesAlong_other`).

  A tree grows by a link in an absent entry (`NewLink`). If the frame it leads to is no table yet
  and has no present word (`Fresh`), the tree is one afterwards (`Attach.distinct`), and every
  address off the recursive entry is translated as before (`Attach.walk_eq`). Links stay
  writable if the new one is (`Attach.writableLinks`).

  Nothing here depends on a program.
-/
import Mathlib.Data.List.Induction
import Utero.Lib.PageUpdate

namespace Utero.Lib

/-! ## Distinct tables -/

/-- Distinct entries of the tables of the upper three levels lead to distinct tables. -/
def DistinctTables (mem : PhysMem) (cr3 : FrameNo) : Prop :=
  ∀ is i js j, is.length ≤ 2 → js.length ≤ 2 →
    Linked mem cr3 (is ++ [i]) → Linked mem cr3 (js ++ [j]) →
    reach mem cr3 (is ++ [i]) = reach mem cr3 (js ++ [j]) →
    reach mem cr3 is = reach mem cr3 js ∧ i = j

/-- Memory in which no two links anywhere have the same frame. -/
theorem distinctTables_of_injective {mem : PhysMem}
    (h : ∀ x y, Pte.Link (mem x) → Pte.Link (mem y) → Pte.frame (mem x) = Pte.frame (mem y) →
      x = y) (cr3 : FrameNo) : DistinctTables mem cr3 := by
  intro is i js j _ _ hl hl' heq
  rw [reach_snoc, reach_snoc] at heq
  have hslot := h _ _ ((linked_snoc _ _ _ _).mp hl).2 ((linked_snoc _ _ _ _).mp hl').2 heq
  exact ⟨congrArg Slot.frame hslot, congrArg Slot.index hslot⟩

/-- The links of the tables of the upper three levels allow writing. -/
def WritableLinks (mem : PhysMem) (cr3 : FrameNo) : Prop :=
  ∀ is i, is.length ≤ 2 → Linked mem cr3 (is ++ [i]) →
    Pte.writable (mem ⟨reach mem cr3 is, i⟩) = true

theorem WritableLinks.walkWritable {mem : PhysMem} {cr3 : FrameNo} (h : WritableLinks mem cr3)
    {is : List (BitVec 9)} (hlen : is.length ≤ 3) (hl : Linked mem cr3 is) :
    Lib.walkWritable mem is cr3 = true := by
  induction is using List.reverseRecOn with
  | nil => rfl
  | append_singleton is i ih =>
    simp only [List.length_append, List.length_cons, List.length_nil] at hlen
    have his := ((linked_snoc _ _ _ _).mp hl).1
    rw [walkWritable_snoc his, ih (by omega) his, h is i (by omega) hl]
    rfl

theorem head?_ne_of_append {is js : List (BitVec 9)} {a : BitVec 9}
    (h : (is ++ js).head? ≠ some a) : is.head? ≠ some a := by
  cases is with
  | nil => simp
  | cons i is => exact h

section Distinct

variable {mem : PhysMem} {cr3 : FrameNo} (hr : Recursive mem cr3) (hd : DistinctTables mem cr3)

include hr hd

/-- Only the recursive entry leads to the top table. -/
theorem reach_ne_root {is : List (BitVec 9)} (hlen : is.length ≤ 3) (hl : Linked mem cr3 is)
    (hne : is ≠ []) (hhead : is.head? ≠ some 511) : reach mem cr3 is ≠ cr3 := by
  induction is using List.reverseRecOn with
  | nil => exact absurd rfl hne
  | append_singleton is i ih =>
    intro hroot
    simp only [List.length_append, List.length_cons, List.length_nil] at hlen
    have hself : reach mem cr3 ([] ++ [511]) = cr3 := hr.self
    obtain ⟨hreach, hi⟩ := hd is i [] 511 (by omega) (by simp) hl ⟨hr.link, trivial⟩
      (hroot.trans hself.symm)
    cases is with
    | nil => exact hhead (congrArg some hi)
    | cons j js => exact ih (by omega) (linked_append hl) (by simp) hhead hreach

/-- Linked paths that stay off the recursive entry and meet in a table are the same. -/
theorem reach_inj {is js : List (BitVec 9)} (hlen : is.length ≤ 3) (hlen' : js.length ≤ 3)
    (hl : Linked mem cr3 is) (hl' : Linked mem cr3 js) (hhead : is.head? ≠ some 511)
    (hhead' : js.head? ≠ some 511) (h : reach mem cr3 is = reach mem cr3 js) : is = js := by
  induction is using List.reverseRecOn generalizing js with
  | nil =>
    by_contra hne
    exact reach_ne_root hr hd hlen' hl' (Ne.symm hne) hhead' h.symm
  | append_singleton is i ih =>
    cases js using List.reverseRecOn with
    | nil => exact absurd h (reach_ne_root hr hd hlen hl (by simp) hhead)
    | append_singleton js j =>
      simp only [List.length_append, List.length_cons, List.length_nil] at hlen hlen'
      obtain ⟨hreach, rfl⟩ := hd is i js j (by omega) (by omega) hl hl' h
      rw [ih (by omega) (by omega) (linked_append hl) (linked_append hl')
        (head?_ne_of_append hhead) (head?_ne_of_append hhead') hreach]

/-- The last entry of a path is on no other path. -/
theorem agreesAlong_other {is : List (BitVec 9)} {i : BitVec 9} (hlen : is.length = 3)
    (hl : Linked mem cr3 is) (hhead : is.head? ≠ some 511) (path : List (BitVec 9))
    (hpath : path.length ≤ 4) (hphead : path.head? ≠ some 511) (hne : path ≠ is ++ [i])
    (v : BitVec 64) :
    AgreesAlong mem (Function.update mem ⟨reach mem cr3 is, i⟩ v) cr3 path := by
  intro pre j post heq hpre
  apply Function.update_of_ne
  intro hslot
  have hreach : reach mem cr3 pre = reach mem cr3 is := congrArg Slot.frame hslot
  have hj : j = i := congrArg Slot.index hslot
  have hprehead : pre.head? ≠ some 511 := head?_ne_of_append (heq ▸ hphead)
  have hlength := congrArg List.length heq
  simp only [List.length_append, List.length_cons] at hlength
  obtain rfl := reach_inj hr hd (by omega) (by omega) hpre hl hprehead hhead hreach
  have hpost : post = [] := List.eq_nil_of_length_eq_zero (by omega)
  exact hne (by rw [heq, hj, hpost])

/-- The last entry of a path is not one of those that lead to it. -/
theorem notMem_visited_last {is : List (BitVec 9)} (hlen : is.length ≤ 3)
    (hl : Linked mem cr3 is) (hne : is ≠ []) (hhead : is.head? ≠ some 511) (i : BitVec 9) :
    ⟨reach mem cr3 is, i⟩ ∉ visited mem cr3 (511 :: is) := by
  rw [visited, hr.self]
  intro hmem
  rcases List.mem_cons.mp hmem with hself | hvisited
  · exact reach_ne_root hr hd hlen hl hne hhead (congrArg Slot.frame hself)
  · obtain ⟨pre, j, post, heq, hslot⟩ := exists_of_mem_visited hvisited
    have hprehead : pre.head? ≠ some 511 := head?_ne_of_append (heq ▸ hhead)
    have hlength := congrArg List.length heq
    simp only [List.length_append, List.length_cons] at hlength
    have hpre := reach_inj hr hd hlen (by omega) hl (linked_append (heq ▸ hl)) hhead hprehead
      (congrArg Slot.frame hslot)
    rw [← hpre] at hlength
    omega

/-- The last of three tables on a path is no table of a shorter one, on whatever way through the
    recursive entry. -/
theorem reach_ne_last {is js : List (BitVec 9)} (hlen : is.length = 3) (hl : Linked mem cr3 is)
    (hhead : is.head? ≠ some 511) (hjlen : js.length ≤ 2) (hjl : Linked mem cr3 js) :
    reach mem cr3 js ≠ reach mem cr3 is := by
  induction js with
  | nil =>
    intro h
    have hnil := reach_inj hr hd (by simp) (by omega) hjl hl (by simp) hhead h
    simp [← hnil] at hlen
  | cons j js ih =>
    intro h
    by_cases hj : j = 511
    · -- the recursive entry leads back to where the path began
      subst hj
      have hrest : Linked mem cr3 js := hr.self ▸ hjl.2
      have hreach : reach mem cr3 (511 :: js) = reach mem cr3 js :=
        congrArg (fun t => reach mem t js) hr.self
      exact ih (by simp only [List.length_cons] at hjlen; omega) hrest (hreach.symm.trans h)
    · have heq := reach_inj hr hd (by omega) (by omega) hjl hl
        (fun hsome => hj (Option.some.inj hsome)) hhead h
      rw [← heq] at hlen
      omega

/-- Writing a word of such a table does not touch the tables above it. -/
theorem linked_update_last {is js : List (BitVec 9)} {i : BitVec 9} (hlen : is.length = 3)
    (hl : Linked mem cr3 is) (hhead : is.head? ≠ some 511) (hjlen : js.length ≤ 3) (v : BitVec 64) :
    (Linked (Function.update mem ⟨reach mem cr3 is, i⟩ v) cr3 js ↔ Linked mem cr3 js) ∧
      (Linked mem cr3 js →
        reach (Function.update mem ⟨reach mem cr3 is, i⟩ v) cr3 js = reach mem cr3 js) := by
  induction js using List.reverseRecOn with
  | nil => exact ⟨Iff.rfl, fun _ => rfl⟩
  | append_singleton js j ih =>
    simp only [List.length_append, List.length_cons, List.length_nil] at hjlen
    obtain ⟨hiff, hreach⟩ := ih (by omega)
    have hentry : Linked mem cr3 js → Function.update mem ⟨reach mem cr3 is, i⟩ v
        ⟨reach mem cr3 js, j⟩ = mem ⟨reach mem cr3 js, j⟩ := by
      intro hjs
      refine Function.update_of_ne (fun hslot => ?_) _ _
      exact reach_ne_last hr hd hlen hl hhead (by omega) hjs (congrArg Slot.frame hslot)
    constructor
    · rw [linked_snoc, linked_snoc, hiff]
      refine and_congr_right fun hjs => ?_
      rw [hreach hjs, hentry hjs]
    · intro hjl
      have hjs := ((linked_snoc _ _ _ _).mp hjl).1
      rw [reach_snoc, reach_snoc, hreach hjs, hentry hjs]

theorem distinct_update_last {is : List (BitVec 9)} {i : BitVec 9} (hlen : is.length = 3)
    (hl : Linked mem cr3 is) (hhead : is.head? ≠ some 511) (v : BitVec 64) :
    DistinctTables (Function.update mem ⟨reach mem cr3 is, i⟩ v) cr3 := by
  have hkeep : ∀ js : List (BitVec 9), js.length ≤ 3 →
      (Linked (Function.update mem ⟨reach mem cr3 is, i⟩ v) cr3 js ↔ Linked mem cr3 js) ∧
        (Linked mem cr3 js →
          reach (Function.update mem ⟨reach mem cr3 is, i⟩ v) cr3 js = reach mem cr3 js) :=
    fun js hjlen => linked_update_last hr hd hlen hl hhead hjlen v
  intro js j ks k hjlen hklen hjl hkl heq
  have hjlen' : (js ++ [j]).length ≤ 3 := by
    simp only [List.length_append, List.length_cons, List.length_nil]
    omega
  have hklen' : (ks ++ [k]).length ≤ 3 := by
    simp only [List.length_append, List.length_cons, List.length_nil]
    omega
  have hjl' := (hkeep _ hjlen').1.mp hjl
  have hkl' := (hkeep _ hklen').1.mp hkl
  rw [(hkeep _ hjlen').2 hjl', (hkeep _ hklen').2 hkl'] at heq
  rw [(hkeep js (by omega)).2 ((linked_snoc _ _ _ _).mp hjl').1,
    (hkeep ks (by omega)).2 ((linked_snoc _ _ _ _).mp hkl').1]
  exact hd js j ks k hjlen hklen hjl' hkl' heq

/-- Neither are their write bits touched. -/
theorem writableLinks_update_last {is : List (BitVec 9)} {i : BitVec 9} (hlen : is.length = 3)
    (hl : Linked mem cr3 is) (hhead : is.head? ≠ some 511) (v : BitVec 64)
    (hw : WritableLinks mem cr3) :
    WritableLinks (Function.update mem ⟨reach mem cr3 is, i⟩ v) cr3 := by
  intro js j hjlen hjl
  have hjlen' : (js ++ [j]).length ≤ 3 := by
    simp only [List.length_append, List.length_cons, List.length_nil]
    omega
  have hjl' := (linked_update_last hr hd hlen hl hhead hjlen' v).1.mp hjl
  have hjs := ((linked_snoc _ _ _ _).mp hjl').1
  rw [(linked_update_last hr hd hlen hl hhead (by omega) v).2 hjs, Function.update_of_ne]
  · exact hw js j hjlen hjl'
  · intro hslot
    exact reach_ne_last hr hd hlen hl hhead hjlen hjs (congrArg Slot.frame hslot)

end Distinct

/-! ## A new table -/

/-- A frame that is no table and has no present word. -/
structure Fresh (mem : PhysMem) (cr3 a : FrameNo) : Prop where
  absent : ∀ i, Pte.present (mem ⟨a, i⟩) = false
  unused : ∀ is : List (BitVec 9), is.length ≤ 3 → Linked mem cr3 is → reach mem cr3 is ≠ a

/-- Entry `i` of the table at the end of path `is` is absent, and `e` is a link to be put there. -/
structure NewLink (mem : PhysMem) (cr3 : FrameNo) (is : List (BitVec 9)) (i : BitVec 9)
    (e : BitVec 64) : Prop where
  length : is.length ≤ 2
  linked : Linked mem cr3 is
  absent : Pte.present (mem ⟨reach mem cr3 is, i⟩) = false
  link : Pte.Link e

/-- And the link leads to a fresh frame. -/
structure Attach (mem : PhysMem) (cr3 : FrameNo) (is : List (BitVec 9)) (i : BitVec 9)
    (e : BitVec 64) : Prop extends NewLink mem cr3 is i e where
  fresh : Fresh mem cr3 (Pte.frame e)

/-- Memory after the link is written. -/
def attached (mem : PhysMem) (cr3 : FrameNo) (is : List (BitVec 9)) (i : BitVec 9)
    (e : BitVec 64) : PhysMem := Function.update mem ⟨reach mem cr3 is, i⟩ e

/-- A link after the change is the new one or was there before. -/
theorem link_of_attached {mem : PhysMem} {cr3 : FrameNo} {is : List (BitVec 9)} {i : BitVec 9}
    {e : BitVec 64} {x : Slot} (hx : Pte.Link (attached mem cr3 is i e x)) :
    x = ⟨reach mem cr3 is, i⟩ ∨ Pte.Link (mem x) := by
  by_cases hnew : x = ⟨reach mem cr3 is, i⟩
  · exact Or.inl hnew
  · rw [attached, Function.update_of_ne hnew] at hx
    exact Or.inr hx

namespace NewLink

variable {mem : PhysMem} {cr3 : FrameNo} {is : List (BitVec 9)} {i : BitVec 9} {e : BitVec 64}
  (h : NewLink mem cr3 is i e)

include h

theorem attached_of_link {x : Slot} (hx : Pte.Link (mem x)) :
    attached mem cr3 is i e x = mem x := by
  refine Function.update_of_ne ?_ _ _
  rintro rfl
  exact absurd hx.1 (by simp [h.absent])

/-- Linked paths stay as they are. -/
theorem linked_path {js : List (BitVec 9)} (hl : Linked mem cr3 js) :
    Linked (attached mem cr3 is i e) cr3 js ∧
      reach (attached mem cr3 is i e) cr3 js = reach mem cr3 js := by
  induction js using List.reverseRecOn with
  | nil => exact ⟨trivial, rfl⟩
  | append_singleton js j ih =>
    obtain ⟨hjs, hj⟩ := (linked_snoc _ _ _ _).mp hl
    obtain ⟨hjs', hreach⟩ := ih hjs
    rw [linked_snoc, reach_snoc, reach_snoc, hreach, h.attached_of_link hj]
    exact ⟨⟨hjs', hj⟩, rfl⟩

theorem recursive (hr : Recursive mem cr3) : Recursive (attached mem cr3 is i e) cr3 := by
  have hself := h.attached_of_link hr.link
  exact ⟨hself.symm ▸ hr.link, hself.symm ▸ hr.self⟩

theorem linked_new : Linked (attached mem cr3 is i e) cr3 (is ++ [i]) ∧
    reach (attached mem cr3 is i e) cr3 (is ++ [i]) = Pte.frame e := by
  obtain ⟨hl, hreach⟩ := h.linked_path h.linked
  have hnew : attached mem cr3 is i e ⟨reach mem cr3 is, i⟩ = e := Function.update_self _ _ _
  rw [linked_snoc, reach_snoc, hreach, hnew]
  exact ⟨⟨hl, h.link⟩, rfl⟩

theorem walkWritable_path {js : List (BitVec 9)} (hl : Linked mem cr3 js) :
    walkWritable (attached mem cr3 is i e) js cr3 = walkWritable mem js cr3 := by
  induction js using List.reverseRecOn with
  | nil => rfl
  | append_singleton js j ih =>
    obtain ⟨hjs, hj⟩ := (linked_snoc _ _ _ _).mp hl
    obtain ⟨hjs', hreach⟩ := h.linked_path hjs
    rw [walkWritable_snoc hjs', walkWritable_snoc hjs, hreach, h.attached_of_link hj, ih hjs]

end NewLink

namespace Attach

variable {mem : PhysMem} {cr3 : FrameNo} {is : List (BitVec 9)} {i : BitVec 9} {e : BitVec 64}
  (h : Attach mem cr3 is i e)

include h

/-- The new table has no entries. -/
theorem attached_fresh (j : BitVec 9) :
    Pte.present (attached mem cr3 is i e ⟨Pte.frame e, j⟩) = false := by
  have hne : (⟨Pte.frame e, j⟩ : Slot) ≠ ⟨reach mem cr3 is, i⟩ := by
    intro heq
    have hlen := h.length
    exact h.fresh.unused is (by omega) h.linked (congrArg Slot.frame heq).symm
  rw [attached, Function.update_of_ne hne]
  exact h.fresh.absent j

/-- The table of a linked path after the change, unless it is the new one. -/
theorem linked_before {js : List (BitVec 9)} (hl : Linked (attached mem cr3 is i e) cr3 js) :
    (Linked mem cr3 js ∧ reach (attached mem cr3 is i e) cr3 js = reach mem cr3 js) ∨
      reach (attached mem cr3 is i e) cr3 js = Pte.frame e := by
  induction js using List.reverseRecOn with
  | nil => exact Or.inl ⟨trivial, rfl⟩
  | append_singleton js j ih =>
    obtain ⟨hjs, hj⟩ := (linked_snoc _ _ _ _).mp hl
    rcases ih hjs with ⟨hold, hreach⟩ | hnew
    · rw [hreach] at hj
      rw [linked_snoc, reach_snoc, reach_snoc, hreach]
      rcases link_of_attached hj with hx | hlink
      · right
        rw [hx, attached, Function.update_self]
      · left
        rw [h.attached_of_link hlink]
        exact ⟨⟨hold, hlink⟩, rfl⟩
    · rw [hnew] at hj
      exact absurd hj.1 (by simp [h.attached_fresh j])

/-- The entry at the end of a linked path after the change: the new link or an old one. -/
theorem last_before {js : List (BitVec 9)} {j : BitVec 9}
    (hl : Linked (attached mem cr3 is i e) cr3 (js ++ [j])) :
    reach (attached mem cr3 is i e) cr3 js = reach mem cr3 js ∧ Linked mem cr3 js ∧
      ((⟨reach mem cr3 js, j⟩ : Slot) = ⟨reach mem cr3 is, i⟩ ∨
        Pte.Link (mem ⟨reach mem cr3 js, j⟩)) := by
  obtain ⟨hjs, hj⟩ := (linked_snoc _ _ _ _).mp hl
  rcases h.linked_before hjs with ⟨hold, hreach⟩ | hnew
  · rw [hreach] at hj
    exact ⟨hreach, hold, link_of_attached hj⟩
  · rw [hnew] at hj
    exact absurd hj.1 (by simp [h.attached_fresh j])

/-- Another fresh frame stays fresh. -/
theorem fresh_other {a : FrameNo} (ha : Fresh mem cr3 a) (hne : a ≠ Pte.frame e) :
    Fresh (attached mem cr3 is i e) cr3 a := by
  refine ⟨fun j => ?_, fun js hlen hl => ?_⟩
  · have hlen := h.length
    have hslot : (⟨a, j⟩ : Slot) ≠ ⟨reach mem cr3 is, i⟩ := fun heq =>
      ha.unused is (by omega) h.linked (congrArg Slot.frame heq).symm
    rw [attached, Function.update_of_ne hslot]
    exact ha.absent j
  · rcases h.linked_before hl with ⟨hold, hreach⟩ | hnew
    · rw [hreach]
      exact ha.unused js hlen hold
    · rw [hnew]
      exact hne.symm

theorem writableLinks (hw : WritableLinks mem cr3) (he : Pte.writable e = true) :
    WritableLinks (attached mem cr3 is i e) cr3 := by
  intro js j hjlen hjl
  obtain ⟨hreach, hjs, hnew | hold⟩ := h.last_before hjl
  · rw [hreach, hnew, attached, Function.update_self]
    exact he
  · rw [hreach, h.attached_of_link hold]
    exact hw js j hjlen ((linked_snoc _ _ _ _).mpr ⟨hjs, hold⟩)

theorem distinct (hd : DistinctTables mem cr3) : DistinctTables (attached mem cr3 is i e) cr3 := by
  intro js j ks k hjlen hklen hjl hkl heq
  have hnew : attached mem cr3 is i e ⟨reach mem cr3 is, i⟩ = e := Function.update_self _ _ _
  obtain ⟨hjreach, hjs, hj⟩ := h.last_before hjl
  obtain ⟨hkreach, hks, hk⟩ := h.last_before hkl
  rw [reach_snoc, reach_snoc, hjreach, hkreach] at heq
  rw [hjreach, hkreach]
  -- an old link never leads to the frame of the new one
  have hold {ls : List (BitVec 9)} {l : BitVec 9} (hlen : ls.length ≤ 2) (hls : Linked mem cr3 ls)
      (hlink : Pte.Link (mem ⟨reach mem cr3 ls, l⟩)) :
      Pte.frame (mem ⟨reach mem cr3 ls, l⟩) ≠ Pte.frame e := by
    rw [← reach_snoc]
    refine h.fresh.unused (ls ++ [l]) ?_ ((linked_snoc _ _ _ _).mpr ⟨hls, hlink⟩)
    simp only [List.length_append, List.length_cons, List.length_nil]
    omega
  rcases hj with hjx | hj <;> rcases hk with hkx | hk
  · have hslot := hjx.trans hkx.symm
    exact ⟨congrArg Slot.frame hslot, congrArg Slot.index hslot⟩
  · rw [hjx, hnew, h.attached_of_link hk] at heq
    exact absurd heq.symm (hold hklen hks hk)
  · rw [hkx, hnew, h.attached_of_link hj] at heq
    exact absurd heq (hold hjlen hjs hj)
  · rw [h.attached_of_link hj, h.attached_of_link hk] at heq
    refine hd js j ks k hjlen hklen ((linked_snoc _ _ _ _).mpr ⟨hjs, hj⟩)
      ((linked_snoc _ _ _ _).mpr ⟨hks, hk⟩) ?_
    rw [reach_snoc, reach_snoc]
    exact heq

/-- A path of four indices off the recursive entry is walked as before: where it runs into
    the entry, it found it absent and now finds the new table empty. -/
theorem walk_eq (hr : Recursive mem cr3) (hd : DistinctTables mem cr3)
    (hhead : is.head? ≠ some 511) {path : List (BitVec 9)} (hlen : path.length = 4)
    (hphead : path.head? ≠ some 511) :
    walk (attached mem cr3 is i e) path cr3 = walk mem path cr3 := by
  by_cases hvisit : ∃ pre j post, path = pre ++ j :: post ∧ Linked mem cr3 pre ∧
      (⟨reach mem cr3 pre, j⟩ : Slot) = ⟨reach mem cr3 is, i⟩
  · obtain ⟨pre, j, post, rfl, hpre, hslot⟩ := hvisit
    have hislen := h.length
    have hprehead := head?_ne_of_append hphead
    simp only [List.length_append, List.length_cons] at hlen
    obtain rfl := reach_inj hr hd (by omega) (by omega) hpre h.linked hprehead hhead
      (congrArg Slot.frame hslot)
    obtain rfl : j = i := congrArg Slot.index hslot
    obtain ⟨hnew, hreach⟩ := h.linked_new
    cases post with
    | nil =>
      simp only [List.length_nil] at hlen
      omega
    | cons k post =>
      have hold : walk mem (pre ++ j :: k :: post) cr3 = none := by
        rw [walk_append hpre, walk, if_pos h.absent]
      have happend : pre ++ j :: k :: post = (pre ++ [j]) ++ k :: post := by simp
      rw [hold, happend, walk_append hnew, hreach, walk, if_pos (h.attached_fresh k)]
  · refine AgreesAlong.walk_eq ?_
    intro pre j post heq hpre
    refine Function.update_of_ne ?_ _ _
    intro hslot
    exact hvisit ⟨pre, j, post, heq, hpre, hslot⟩

end Attach

end Utero.Lib
