/-
  `unmap` and `map_page_to_frame` where a table is missing.

  `nullFree_iff`: `next_table_address` returns 0 for an entry that is absent or huge, and
  neither function tests for it. They keep off the null table exactly on the pages whose
  three upper entries lead to tables. `map_page_to_frame` alone keeps off it also where it can
  make the missing tables (`mapTables_ne_null`).
-/
import Utero.Mmu.Isolation

namespace Utero.Mmu

open Utero.Lib

/-! ## The tables a call indexes -/

/-- The calls of `next_table_address` in `unmap`, one for each index: the tables that are
    indexed, as far as the call gets, and the last one. -/
def descend (s : Machine) : BitVec 64 → List (BitVec 64) → List (BitVec 64) × Option (BitVec 64)
  | table, [] => ([table], some table)
  | table, i :: is =>
    match nextTableAddress s table (i.setWidth 32) with
    | none => ([table], none)
    | some next => (table :: (descend s next is).1, (descend s next is).2)

/-- The calls of `next_table_create` in `map_page_to_frame`. -/
def descendCreate (fuel : Nat) :
    Machine → BitVec 64 → List (BitVec 64) → List (BitVec 64) × Option (BitVec 64 × Machine)
  | s, table, [] => ([table], some (table, s))
  | s, table, i :: is =>
    match nextTableCreate fuel s table i with
    | none => ([table], none)
    | some (next, s') =>
      (table :: (descendCreate fuel s' next is).1, (descendCreate fuel s' next is).2)

theorem descend_cons (s : Machine) (table i : BitVec 64) (is : List (BitVec 64)) :
    descend s table (i :: is) =
      match nextTableAddress s table (i.setWidth 32) with
      | none => ([table], none)
      | some next => (table :: (descend s next is).1, (descend s next is).2) := by
  rfl

theorem descendCreate_cons (fuel : Nat) (s : Machine) (table i : BitVec 64)
    (is : List (BitVec 64)) :
    descendCreate fuel s table (i :: is) =
      match nextTableCreate fuel s table i with
      | none => ([table], none)
      | some (next, s') =>
        (table :: (descendCreate fuel s' next is).1, (descendCreate fuel s' next is).2) := by
  rfl

/-- The indices of the page in the top three tables, as the code computes them. -/
def upperIndices (page : BitVec 64) : List (BitVec 64) :=
  [p4Index (page.setWidth 32), p3Index (page.setWidth 32), p2Index (page.setWidth 32)]

/-- The last lines of `unmap`, on the address of the entry. -/
def dropEntry (s : Machine) (va : BitVec 64) : Option Machine := do
  let entry ← s.load va
  if Pte.present entry = false then return s
  let s ← s.modify va clearPresent
  mmapDeallocateFrame s (pointedFrame entry)

/-- `unmap` is the descent, then the entry. -/
theorem unmap_eq (s : Machine) (page : BitVec 64) :
    unmap s page = (descend s p4Table (upperIndices page)).2.bind fun p1 =>
      dropEntry s (entryAddr p1 (p1Index (page.setWidth 32))) := by
  have hcons : ∀ (table i : BitVec 64) (is : List (BitVec 64)),
      (descend s table (i :: is)).2 =
        (nextTableAddress s table (i.setWidth 32)).bind fun next => (descend s next is).2 := by
    intro table i is
    rw [descend_cons]
    cases nextTableAddress s table (i.setWidth 32) with
    | none => rfl
    | some next => rfl
  simp only [unmap, upperIndices, hcons, Option.bind_eq_bind, Option.bind_assoc]
  rfl

/-- So is `map_page_to_frame`. -/
theorem mapPageToFrame_eq_descend (fuel : Nat) (s : Machine) (page : BitVec 64) (frame : Frame)
    (flags : BitVec 8) :
    mapPageToFrame fuel s page frame flags =
      (descendCreate fuel s p4Table (upperIndices page)).2.bind fun r =>
        writeEntry r.2 (entryAddr r.1 (p1Index (page.setWidth 32))) frame flags := by
  have hcons : ∀ (s : Machine) (table i : BitVec 64) (is : List (BitVec 64)),
      (descendCreate fuel s table (i :: is)).2 =
        (nextTableCreate fuel s table i).bind fun r => (descendCreate fuel r.2 r.1 is).2 := by
    intro s table i is
    rw [descendCreate_cons]
    cases nextTableCreate fuel s table i with
    | none => rfl
    | some r => rfl
  simp only [mapPageToFrame, upperIndices, hcons, Option.bind_eq_bind, Option.bind_assoc]
  rfl

/-- The tables that `unmap(page)` indexes. -/
def unmapTables (s : Machine) (page : BitVec 64) : List (BitVec 64) :=
  (descend s p4Table (upperIndices page)).1

/-- The tables that `map_page_to_frame(page, …)` indexes. -/
def mapTables (fuel : Nat) (s : Machine) (page : BitVec 64) : List (BitVec 64) :=
  (descendCreate fuel s p4Table (upperIndices page)).1

theorem upperIndices_eq (page : BitVec 64) :
    upperIndices page = (tablePath (narrow page)).map (BitVec.setWidth 64) := by
  simp only [upperIndices, p4Index_narrow, p3Index_narrow, p2Index_narrow, tablePath,
    List.map_cons, List.map_nil]

theorem descend_head_mem (s : Machine) (table : BitVec 64) (is : List (BitVec 64)) :
    table ∈ (descend s table is).1 := by
  cases is with
  | nil => exact List.mem_singleton.mpr rfl
  | cons i is =>
    rw [descend_cons]
    cases nextTableAddress s table (i.setWidth 32) with
    | none => exact List.mem_singleton.mpr rfl
    | some next => exact List.mem_cons_self ..

theorem descendCreate_head_mem (fuel : Nat) (s : Machine) (table : BitVec 64)
    (is : List (BitVec 64)) : table ∈ (descendCreate fuel s table is).1 := by
  cases is with
  | nil => exact List.mem_singleton.mpr rfl
  | cons i is =>
    rw [descendCreate_cons]
    cases nextTableCreate fuel s table i with
    | none => exact List.mem_singleton.mpr rfl
    | some r => exact List.mem_cons_self ..

section Descent

variable {s : Machine} (hr : Recursive s.mem s.cr3)

include hr

theorem descend_linked {is js : List (BitVec 9)} (hlen : (is ++ js).length ≤ 3)
    (hl : Linked s.mem s.cr3 (is ++ js)) :
    0 ∉ (descend s (recTable is) (js.map (BitVec.setWidth 64))).1 ∧
      (descend s (recTable is) (js.map (BitVec.setWidth 64))).2 = some (recTable (is ++ js)) := by
  induction js generalizing is with
  | nil =>
    rw [List.append_nil] at hlen ⊢
    refine ⟨?_, rfl⟩
    intro h0
    exact recTable_ne_zero hlen (List.mem_singleton.mp h0).symm
  | cons j js ih =>
    have hislen := length_of_more hlen
    rw [List.append_cons] at hl hlen ⊢
    obtain ⟨his, hlink⟩ := (linked_snoc _ _ _ _).mp (linked_append hl)
    have hnext := nextTableAddress_recTable hr his hislen j
    rw [if_pos hlink] at hnext
    obtain ⟨hnull, hlast⟩ := ih hlen hl
    simp only [List.map_cons, descend_cons, index_widen_narrow, hnext, List.mem_cons, not_or]
    exact ⟨⟨(recTable_ne_zero (by omega)).symm, hnull⟩, hlast⟩

theorem descendCreate_linked (fuel : Nat) {is js : List (BitVec 9)}
    (hlen : (is ++ js).length ≤ 3) (hl : Linked s.mem s.cr3 (is ++ js)) :
    0 ∉ (descendCreate fuel s (recTable is) (js.map (BitVec.setWidth 64))).1 := by
  induction js generalizing is with
  | nil =>
    rw [List.append_nil] at hlen
    intro h0
    exact recTable_ne_zero hlen (List.mem_singleton.mp h0).symm
  | cons j js ih =>
    have hislen := length_of_more hlen
    rw [List.append_cons] at hl hlen
    have hnext := nextTableCreate_link hr is j (linked_append hl) hislen fuel
    simp only [List.map_cons, descendCreate_cons, hnext, List.mem_cons, not_or]
    exact ⟨(recTable_ne_zero (by omega)).symm, ih hlen hl⟩

/-- Where the path breaks off, the descent goes on through table 0. -/
theorem descend_null {is js : List (BitVec 9)} (hlen : (is ++ js).length ≤ 3)
    (his : Linked s.mem s.cr3 is) (hbreak : ¬ Linked s.mem s.cr3 (is ++ js)) :
    0 ∈ (descend s (recTable is) (js.map (BitVec.setWidth 64))).1 := by
  induction js generalizing is with
  | nil =>
    rw [List.append_nil] at hbreak
    exact absurd his hbreak
  | cons j js ih =>
    have hislen := length_of_more hlen
    rw [List.append_cons] at hbreak hlen
    have hnext := nextTableAddress_recTable hr his hislen j
    simp only [List.map_cons, descend_cons, index_widen_narrow, hnext]
    refine List.mem_cons_of_mem _ ?_
    by_cases hlink : Pte.Link (s.mem ⟨reach s.mem s.cr3 is, j⟩)
    · rw [if_pos hlink]
      exact ih hlen ((linked_snoc _ _ _ _).mpr ⟨his, hlink⟩) hbreak
    · rw [if_neg hlink]
      exact descend_head_mem s 0 _

end Descent

/-! ## The null table -/

/-- Bit 7 of an entry on the path stands in the way of a table. -/
def Blocked (s : Machine) (path : List (BitVec 9)) : Prop :=
  ∃ pre i post, path = pre ++ i :: post ∧ Linked s.mem s.cr3 pre ∧
    Pte.huge (s.mem ⟨reach s.mem s.cr3 pre, i⟩) = true

/-- Neither `map_page_to_frame` nor `unmap` indexes table 0, and memory stays as it is where
    the last table cannot be reached. `inUnmap` already needs all tables to be there
    (`unmapTables_null_iff`), and then there is no case left for the last two. -/
structure NullFree (s : Machine) (page : BitVec 64) : Prop where
  inMap : ∀ fuel, 0 ∉ mapTables fuel s page
  inUnmap : 0 ∉ unmapTables s page
  mapKeeps : ∀ fuel frame flags s', Blocked s (tablePath (narrow page)) →
    mapPageToFrame fuel s page frame flags = some s' → s'.mem = s.mem
  unmapKeeps : ∀ s', ¬ Linked s.mem s.cr3 (tablePath (narrow page)) →
    unmap s page = some s' → s'.mem = s.mem

theorem not_blocked_of_linked {s : Machine} {path : List (BitVec 9)}
    (hl : Linked s.mem s.cr3 path) : ¬ Blocked s path := by
  rintro ⟨pre, i, post, rfl, -, hhuge⟩
  rw [List.append_cons] at hl
  have hlink := ((linked_snoc _ _ _ _).mp (linked_append hl)).2
  rw [hlink.2] at hhuge
  cases hhuge

theorem unmapTables_null_iff {s : Machine} (hr : Recursive s.mem s.cr3) (page : BitVec 64) :
    0 ∉ unmapTables s page ↔ Linked s.mem s.cr3 (tablePath (narrow page)) := by
  rw [unmapTables, upperIndices_eq, p4Table_eq]
  constructor
  · intro hnull
    by_contra hbreak
    exact hnull (descend_null hr (by simp [tablePath]) trivial hbreak)
  · intro hl
    exact (descend_linked hr (by simp [tablePath]) hl).1

/-- The null table is left alone exactly if the three upper entries of the page, taken by the
    indices the code computes, are present and not huge. -/
theorem nullFree_iff (s : Machine) (hr : Recursive s.mem s.cr3) (page : BitVec 64) :
    NullFree s page ↔ Linked s.mem s.cr3 (tablePath (narrow page)) := by
  constructor
  · intro h
    exact (unmapTables_null_iff hr page).mp h.inUnmap
  · intro hl
    refine ⟨fun fuel => ?_, (unmapTables_null_iff hr page).mpr hl, ?_, ?_⟩
    · rw [mapTables, upperIndices_eq, p4Table_eq]
      exact descendCreate_linked hr fuel (by simp [tablePath]) hl
    · exact fun _ _ _ _ hblocked _ => absurd hblocked (not_blocked_of_linked hl)
    · exact fun _ hbreak _ => absurd hl hbreak

theorem nullFree_iff_sampleMachine :
    Recursive sampleMachine.mem sampleMachine.cr3 ∧ NullFree sampleMachine 0 :=
  ⟨sampleMachine_recursive,
    (nullFree_iff sampleMachine sampleMachine_recursive 0).mpr (by decide)⟩

/-- Entry 1 of the top table is absent, and `unmap` of the first page behind it reads the entry
    of the next table at address 0. -/
theorem unmap_indexes_null :
    Recursive sampleMachine.mem sampleMachine.cr3 ∧
      unmapTables sampleMachine 0x8000000 = [p4Table, 0, 0, 0] ∧
      ¬ NullFree sampleMachine 0x8000000 := by
  have htables : unmapTables sampleMachine 0x8000000 = [p4Table, 0, 0, 0] := by decide
  refine ⟨sampleMachine_recursive, htables, fun h => h.inUnmap ?_⟩
  rw [htables]
  decide

/-! ## Mapping alone -/

/-- A huge entry on the way sends `map_page_to_frame` through table 0 too. -/
theorem mapTables_null {s : Machine} (hr : Recursive s.mem s.cr3) {page : BitVec 64}
    {pre js : List (BitVec 9)} {i : BitVec 9} (hpath : tablePath (narrow page) = pre ++ i :: js)
    (hl : Linked s.mem s.cr3 pre)
    (hpresent : Pte.present (s.mem ⟨reach s.mem s.cr3 pre, i⟩) = true)
    (hhuge : Pte.huge (s.mem ⟨reach s.mem s.cr3 pre, i⟩) = true) (fuel : Nat) :
    0 ∈ mapTables fuel s page := by
  have hlen := congrArg List.length hpath
  simp only [tablePath, List.length_cons, List.length_nil, List.length_append] at hlen
  have hlink : ¬ Pte.Link (s.mem ⟨reach s.mem s.cr3 pre, i⟩) := by
    rintro ⟨-, hnot⟩
    rw [hhuge] at hnot
    cases hnot
  have hnext := nextTableAddress_recTable hr hl (by omega) i
  rw [if_neg hlink] at hnext
  have hcreate : nextTableCreate fuel s (recTable pre) (i.setWidth 64) = some (0, s) := by
    simp [nextTableCreate, load_recTable hr hl (by omega : pre.length ≤ 3) i, hpresent, hnext]
  -- the tables before the entry are passed, and then comes 0
  have hdescend : ∀ is ks : List (BitVec 9), is ++ ks = pre →
      0 ∈ (descendCreate fuel s (recTable is) ((ks ++ i :: js).map (BitVec.setWidth 64))).1 := by
    intro is ks
    induction ks generalizing is with
    | nil =>
      rintro rfl
      rw [List.append_nil] at hcreate
      simp only [List.nil_append, List.map_cons, descendCreate_cons, hcreate]
      exact List.mem_cons_of_mem _ (descendCreate_head_mem fuel s 0 _)
    | cons k ks ih =>
      intro heq
      rw [List.append_cons] at heq
      have his : Linked s.mem s.cr3 (is ++ [k]) := linked_append (heq ▸ hl)
      have hislen : is.length ≤ 2 := by
        have hsum := congrArg List.length heq
        simp only [List.length_append, List.length_cons, List.length_nil] at hsum
        omega
      have hstep := nextTableCreate_link hr is k his hislen fuel
      simp only [List.cons_append, List.map_cons, descendCreate_cons, hstep]
      exact List.mem_cons_of_mem _ (ih _ heq)
  rw [mapTables, upperIndices_eq, p4Table_eq, hpath]
  exact hdescend [] pre rfl

theorem TableStep.unique {s s1 : Machine} {is : List (BitVec 9)} {i : BitVec 9}
    (h : TableStep s is i s1) (ht : Tree s) (hl : Linked s.mem s.cr3 is) (hlen : is.length ≤ 2)
    {fuel : Nat} {r : BitVec 64 × Machine}
    (hcall : nextTableCreate fuel s (recTable is) (i.setWidth 64) = some r) :
    r = (recTable (is ++ [i]), s1) := by
  cases h with
  | present link =>
    have hlinked := (linked_snoc _ _ _ _).mpr ⟨hl, link⟩
    rw [nextTableCreate_link ht.recursive is i hlinked hlen fuel] at hcall
    exact (Option.some.inj hcall).symm
  | absent absent notHuge allocates fresh =>
    -- a call that came back has written to the entry
    have hgo := hwTranslate_recTable ht.recursive (by omega) hl i
    have hwritable := writable_of_nextTableCreate hgo absent hcall
    rw [hwWritable_recTable ht.recursive (by omega)] at hwritable
    have hreturns := nextTableCreate_absent ht.recursive hwritable allocates
      (newLink_of_absent _ hl hlen absent notHuge)
    exact ((nextTableCreate_fuelMono _ _ _).returns hcall).unique hreturns

theorem Prepares.tables_ne_null {s s' : Machine} {is js : List (BitVec 9)}
    (h : Prepares s is js s') (ht : Tree s) (hl : Linked s.mem s.cr3 is)
    (hlen : (is ++ js).length ≤ 3) (hhead : (is ++ js).head? ≠ some 511) (fuel : Nat) :
    0 ∉ (descendCreate fuel s (recTable is) (js.map (BitVec.setWidth 64))).1 := by
  induction h with
  | nil s is =>
    rw [List.append_nil] at hlen
    intro h0
    exact recTable_ne_zero hlen (List.mem_singleton.mp h0).symm
  | @cons s s1 s' is js i step rest ih =>
    rw [List.append_cons] at hlen hhead
    have hislen := length_le_of_append hlen
    have hishead := head?_ne_of_append (head?_ne_of_append hhead)
    have hne := (recTable_ne_zero (by omega : is.length ≤ 3)).symm
    rw [List.map_cons, descendCreate_cons]
    cases hcall : nextTableCreate fuel s (recTable is) (i.setWidth 64) with
    | none => exact fun h0 => hne (List.mem_singleton.mp h0)
    | some r =>
      obtain rfl := step.unique ht hl hislen hcall
      have hrest := ih (step.grows ht hl hislen hishead).tree (step.linked hl hislen) hlen hhead
      simp only [List.mem_cons, not_or]
      exact ⟨hne, hrest⟩

/-- Where each table is there, or is missing with bit 7 of its entry clear and a fresh frame to be
    had for it, `map_page_to_frame` keeps off table 0. -/
theorem mapTables_ne_null {s s' : Machine} (ht : Tree s) {page : BitVec 64}
    (h : Prepares s [] (tablePath (narrow page)) s') (fuel : Nat) :
    0 ∉ mapTables fuel s page := by
  rw [mapTables, upperIndices_eq, p4Table_eq]
  exact h.tables_ne_null ht trivial (by simp [tablePath]) (tablePath_head_narrow page) fuel

end Utero.Mmu
