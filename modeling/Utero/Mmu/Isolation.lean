/-
  What mapping one page does to the others.

  The tables form a tree (`Tree`). `Prepares s is js s'` says that the descent along `js` from
  the table of path `is` leads from `s` to `s'`: at each level there is a table, or the entry
  is absent with bit 7 clear and the frame it gets is `Fresh`. Such a descent keeps the tree
  and every translation (`Prepares.grows`, from the step `TableStep.grows`). In the tree the
  one word that `map_page_to_frame` then writes is on the path of one page only. This is the
  page `narrow p`, however: for a page from 2^32 on it is another page, and that one loses its
  mapping.

  `mapPageToFrame_keeps_iff` says of the state before the call when it leaves a page alone: by
  the entries of the path if all tables are there, by the memory map and the contents of the
  frames it supplies if some are missing (`Room`), and, for a last table in a frame that is no
  table, by the words left in that frame. It also says where the call does not come back.
-/
import Utero.Mmu.CreateTable
import Utero.Mmu.Exhaustion
import Utero.Mmu.PageNumbers

namespace Utero.Mmu

open Utero.Lib

/-! ## Frames for tables -/

/-- What the allocator gives a new table, by the memory map and `next_free_frame`: it accepts the
    start of the first eligible chunk, or what an exhausted call comes to, and `addr` is the
    address that the number of the one accepted leads to. -/
inductive Supplies (st : MmapState) : PhysicalAddress → MmapState → Prop
  | mk {a addr : PhysicalAddress} {f : Frame} (wellFormed : st.memoryArea.WellFormed)
      (accepts : (∃ k c, Selects st k c ∧ k < 2 ^ 32 ∧ a = c.start) ∨
        (¬ HasEligible st ∧ ComesTo st.memoryArea st.toReservedAreas a))
      (number : AddressLookup st.memoryArea.chunks a f)
      (address : NumberLookup st.memoryArea.chunks f.toNat addr) :
      Supplies st addr { st with nextFreeFrame := f + 1 }

theorem Supplies.allocates {s : Machine} {addr : PhysicalAddress} {st : MmapState}
    (h : Supplies s.mmap addr st) : AllocatesTable s addr st := by
  cases h with
  | @mk a _ f wellFormed accepts number address =>
    have hreturns : Returns (fun n => mmapAllocateFrame n s.mmap) (accepted s.mmap a) := by
      rcases accepts with ⟨k, c, hsel, hk, rfl⟩ | ⟨hex, hcomes⟩
      · exact allocate_selects wellFormed hsel hk
      · exact allocate_comesTo wellFormed hex hcomes
    obtain rfl := number.unique (numberOf_addressLookup _ a)
    obtain rfl := address.unique (scan_numberLookup s.mmap.memoryArea.chunks _)
    exact ⟨_, hreturns, rfl, mmapRead_returns wellFormed _ mmapGetAddr (Or.inr rfl)⟩

/-- On a map with no more chunks than numbers the allocator gives nothing else. -/
theorem supplies_of_allocates {s : Machine} {addr : PhysicalAddress} {st : MmapState}
    (hwf : s.mmap.memoryArea.WellFormed) (hlen : s.mmap.memoryArea.chunks.length ≤ 2 ^ 32)
    (h : AllocatesTable s addr st) : Supplies s.mmap addr st := by
  obtain ⟨r, hreturns, rfl, hread⟩ := h
  have hsupplies : ∀ a, ((∃ k c, Selects s.mmap k c ∧ k < 2 ^ 32 ∧ a = c.start) ∨
      (¬ HasEligible s.mmap ∧ ComesTo s.mmap.memoryArea s.mmap.toReservedAreas a)) →
      r = accepted s.mmap a → Supplies s.mmap addr r.state := by
    rintro a haccepts rfl
    refine Supplies.mk hwf haccepts (numberOf_addressLookup _ a) ?_
    rw [hread.unique (mmapRead_returns hwf _ mmapGetAddr (Or.inr rfl))]
    exact scan_numberLookup _ _
  by_cases hel : HasEligible s.mmap
  · obtain ⟨k, c, hsel⟩ := hel.selects
    obtain ⟨hk, -⟩ := List.getElem?_eq_some_iff.mp hsel.get
    have hk' : k < 2 ^ 32 := by omega
    exact hsupplies c.start (Or.inl ⟨k, c, hsel, hk', rfl⟩)
      (hreturns.unique (allocate_selects hwf hsel hk'))
  · obtain ⟨a, hcomes⟩ := comesTo_of_returns hwf hreturns
    exact hsupplies a (Or.inr ⟨hel, hcomes⟩) (hreturns.unique (allocate_comesTo hwf hel hcomes))

/-- The frames for several tables, one after the other. -/
inductive Supply : MmapState → List PhysicalAddress → Prop
  | nil (st : MmapState) : Supply st []
  | cons {st st' : MmapState} {addr : PhysicalAddress} {addrs : List PhysicalAddress}
      (first : Supplies st addr st') (rest : Supply st' addrs) : Supply st (addr :: addrs)

/-- The entries along `js`, from table `t` and then in the frames of the tables to be made at
    `addrs`, are absent and have bit 7 clear. A new entry leads to frame number `addr`. -/
def Missing (mem : PhysMem) : FrameNo → List (BitVec 9) → List PhysicalAddress → Prop
  | _, [], [] => True
  | t, j :: js, addr :: addrs =>
    Pte.present (mem ⟨t, j⟩) = false ∧ Pte.huge (mem ⟨t, j⟩) = false ∧
      Missing mem (addr.setWidth 40) js addrs
  | _, _, _ => False

/-- There are tables along `pre`, and room for the missing ones along `js`: the entries on the way
    may be written, and the frames supplied are distinct and fresh. -/
structure Room (s : Machine) (pre js : List (BitVec 9)) (addrs : List PhysicalAddress) : Prop where
  linked : Linked s.mem s.cr3 pre
  writable : writablePath s.mem s.cr3 pre = true
  missing : Missing s.mem (reach s.mem s.cr3 pre) js addrs
  supply : Supply s.mmap addrs
  fresh : ∀ addr ∈ addrs, Fresh s.mem s.cr3 (addr.setWidth 40)
  nodup : (addrs.map (BitVec.setWidth 40)).Nodup

theorem Missing.congr {mem mem' : PhysMem} {t : FrameNo} {js : List (BitVec 9)}
    {addrs : List PhysicalAddress} (h : Missing mem t js addrs)
    (ht : ∀ j, mem' ⟨t, j⟩ = mem ⟨t, j⟩)
    (haddrs : ∀ addr ∈ addrs, ∀ j, mem' ⟨addr.setWidth 40, j⟩ = mem ⟨addr.setWidth 40, j⟩) :
    Missing mem' t js addrs := by
  induction js generalizing t addrs with
  | nil =>
    cases addrs with
    | nil => trivial
    | cons addr addrs => exact h.elim
  | cons j js ih =>
    cases addrs with
    | nil => exact h.elim
    | cons addr addrs =>
      obtain ⟨hpresent, hhuge, hrest⟩ := h
      obtain ⟨hfirst, hlater⟩ := List.forall_mem_cons.mp haddrs
      exact ⟨(ht j).symm ▸ hpresent, (ht j).symm ▸ hhuge, ih hrest hfirst hlater⟩

/-! ## The descent -/

/-- The tables of the machine form a tree, apart from the recursive entry. -/
structure Tree (s : Machine) : Prop where
  recursive : Recursive s.mem s.cr3
  distinct : DistinctTables s.mem s.cr3

/-- One call of `next_table_create`: there is a table, or there is no entry and the frame for
    the new table is fresh. The new entry leads to frame number `addr`. -/
inductive TableStep (s : Machine) (is : List (BitVec 9)) (i : BitVec 9) : Machine → Prop
  | present (link : Pte.Link (s.mem ⟨reach s.mem s.cr3 is, i⟩)) : TableStep s is i s
  | absent {addr : PhysicalAddress} {mmap : MmapState}
      (absent : Pte.present (s.mem ⟨reach s.mem s.cr3 is, i⟩) = false)
      (notHuge : Pte.huge (s.mem ⟨reach s.mem s.cr3 is, i⟩) = false)
      (allocates : AllocatesTable s addr mmap) (fresh : Fresh s.mem s.cr3 (addr.setWidth 40)) :
      TableStep s is i (withTable s is i addr mmap)

inductive Prepares : Machine → List (BitVec 9) → List (BitVec 9) → Machine → Prop
  | nil (s : Machine) (is : List (BitVec 9)) : Prepares s is [] s
  | cons {s s1 s' : Machine} {is js : List (BitVec 9)} {i : BitVec 9}
      (step : TableStep s is i s1) (rest : Prepares s1 (is ++ [i]) js s') :
      Prepares s is (i :: js) s'

/-- From `s` to `s'` the tables stay a tree, and the addresses off the recursive entry are
    translated as before. -/
structure Grows (s s' : Machine) : Prop where
  tree : Tree s'
  cr3 : s'.cr3 = s.cr3
  walk : ∀ path : List (BitVec 9), path.length = 4 → path.head? ≠ some 511 →
    Lib.walk s'.mem path s'.cr3 = Lib.walk s.mem path s.cr3

theorem Grows.refl {s : Machine} (h : Tree s) : Grows s s := ⟨h, rfl, fun _ _ _ => rfl⟩

theorem Grows.trans {s t u : Machine} (h : Grows s t) (h' : Grows t u) : Grows s u :=
  ⟨h'.tree, h'.cr3.trans h.cr3, fun path hlen hhead =>
    (h'.walk path hlen hhead).trans (h.walk path hlen hhead)⟩

section Step

variable {s s1 : Machine} {is : List (BitVec 9)} {i : BitVec 9}

theorem newLink_of_absent (addr : PhysicalAddress) (hl : Linked s.mem s.cr3 is)
    (hlen : is.length ≤ 2) (habsent : Pte.present (s.mem ⟨reach s.mem s.cr3 is, i⟩) = false)
    (hhuge : Pte.huge (s.mem ⟨reach s.mem s.cr3 is, i⟩) = false) :
    NewLink s.mem s.cr3 is i (created (s.mem ⟨reach s.mem s.cr3 is, i⟩) addr) :=
  ⟨hlen, hl, habsent, link_created hhuge addr⟩

theorem attach_of_absent {addr : PhysicalAddress} (hl : Linked s.mem s.cr3 is)
    (hlen : is.length ≤ 2) (habsent : Pte.present (s.mem ⟨reach s.mem s.cr3 is, i⟩) = false)
    (hhuge : Pte.huge (s.mem ⟨reach s.mem s.cr3 is, i⟩) = false)
    (hfresh : Fresh s.mem s.cr3 (addr.setWidth 40)) :
    Attach s.mem s.cr3 is i (created (s.mem ⟨reach s.mem s.cr3 is, i⟩) addr) :=
  ⟨newLink_of_absent addr hl hlen habsent hhuge, (frame_created _ addr).symm ▸ hfresh⟩

/-- The entries of a linked path after a new link is written, and the new one. -/
theorem writablePath_attached {e : BitVec 64} (h : NewLink s.mem s.cr3 is i e)
    (hr : Recursive s.mem s.cr3) {js : List (BitVec 9)} (hl : Linked s.mem s.cr3 js) :
    writablePath (attached s.mem s.cr3 is i e) s.cr3 js = writablePath s.mem s.cr3 js := by
  rw [writablePath, writablePath, h.attached_of_link hr.link, h.walkWritable_path hl]

theorem writablePath_new {e : BitVec 64} (h : NewLink s.mem s.cr3 is i e)
    (hr : Recursive s.mem s.cr3) (he : Pte.writable e = true)
    (hw : writablePath s.mem s.cr3 is = true) :
    writablePath (attached s.mem s.cr3 is i e) s.cr3 (is ++ [i]) = true := by
  obtain ⟨hl, hreach⟩ := h.linked_path h.linked
  have hentry : attached s.mem s.cr3 is i e ⟨reach s.mem s.cr3 is, i⟩ = e :=
    Function.update_self _ _ _
  rw [← writablePath_attached h hr h.linked, writablePath] at hw
  rw [writablePath, walkWritable_snoc hl, hreach, hentry, he, Bool.and_true, hw]

theorem TableStep.returns (h : TableStep s is i s1) (ht : Tree s) (hl : Linked s.mem s.cr3 is)
    (hlen : is.length ≤ 2) (hw : writablePath s.mem s.cr3 is = true) :
    Returns (fun n => nextTableCreate n s (recTable is) (i.setWidth 64))
      (recTable (is ++ [i]), s1) := by
  cases h with
  | present link =>
    refine ⟨0, fun n _ => ?_⟩
    exact nextTableCreate_link ht.recursive is i ((linked_snoc _ _ _ _).mpr ⟨hl, link⟩) hlen n
  | absent absent notHuge allocates fresh =>
    exact nextTableCreate_absent ht.recursive hw allocates
      (newLink_of_absent _ hl hlen absent notHuge)

theorem TableStep.linked (h : TableStep s is i s1) (hl : Linked s.mem s.cr3 is)
    (hlen : is.length ≤ 2) : Linked s1.mem s1.cr3 (is ++ [i]) := by
  cases h with
  | present link => exact (linked_snoc _ _ _ _).mpr ⟨hl, link⟩
  | absent absent notHuge allocates fresh =>
    exact (newLink_of_absent _ hl hlen absent notHuge).linked_new.1

/-- A path of tables keeps its write bits. -/
theorem TableStep.writablePath_eq (h : TableStep s is i s1) (ht : Tree s)
    (hl : Linked s.mem s.cr3 is) (hlen : is.length ≤ 2) {js : List (BitVec 9)}
    (hjs : Linked s.mem s.cr3 js) :
    Linked s1.mem s1.cr3 js ∧ writablePath s1.mem s1.cr3 js = writablePath s.mem s.cr3 js := by
  cases h with
  | present link => exact ⟨hjs, rfl⟩
  | @absent addr _ absent notHuge allocates fresh =>
    have hnew := newLink_of_absent addr hl hlen absent notHuge
    exact ⟨(hnew.linked_path hjs).1, writablePath_attached hnew ht.recursive hjs⟩

theorem TableStep.grows (h : TableStep s is i s1) (ht : Tree s) (hl : Linked s.mem s.cr3 is)
    (hlen : is.length ≤ 2) (hhead : is.head? ≠ some 511) : Grows s s1 := by
  cases h with
  | present link => exact Grows.refl ht
  | absent absent notHuge allocates fresh =>
    have hattach := attach_of_absent hl hlen absent notHuge fresh
    refine ⟨⟨hattach.recursive ht.recursive, hattach.distinct ht.distinct⟩, rfl, ?_⟩
    intro path hplen hphead
    exact hattach.walk_eq ht.recursive ht.distinct hhead hplen hphead

end Step

/-- A path of at most three indices, split before its last ones. -/
theorem length_le_of_append {is js : List (BitVec 9)} {i : BitVec 9}
    (h : (is ++ [i] ++ js).length ≤ 3) : is.length ≤ 2 := by
  simp only [List.length_append, List.length_cons, List.length_nil] at h
  omega

/-- The calls of `next_table_create` along a path. -/
theorem Prepares.grows {s s' : Machine} {is js : List (BitVec 9)} (h : Prepares s is js s')
    (ht : Tree s) (hl : Linked s.mem s.cr3 is) (hlen : (is ++ js).length ≤ 3)
    (hhead : (is ++ js).head? ≠ some 511) :
    Grows s s' ∧ Linked s'.mem s'.cr3 (is ++ js) := by
  induction h with
  | nil s is =>
    rw [List.append_nil]
    exact ⟨Grows.refl ht, hl⟩
  | @cons s s1 s' is js i step rest ih =>
    have happend : is ++ i :: js = is ++ [i] ++ js := by simp
    rw [happend] at hlen hhead ⊢
    have hislen := length_le_of_append hlen
    have hishead := head?_ne_of_append (head?_ne_of_append hhead)
    have hstep := step.grows ht hl hislen hishead
    obtain ⟨hgrows, hlinked⟩ := ih hstep.tree (step.linked hl hislen) hlen hhead
    exact ⟨hstep.trans hgrows, hlinked⟩

theorem Prepares.writablePath_eq {s s' : Machine} {is js ks : List (BitVec 9)}
    (h : Prepares s is js s') (ht : Tree s) (hl : Linked s.mem s.cr3 is)
    (hlen : (is ++ js).length ≤ 3) (hhead : (is ++ js).head? ≠ some 511)
    (hks : Linked s.mem s.cr3 ks) :
    writablePath s'.mem s'.cr3 ks = writablePath s.mem s.cr3 ks := by
  induction h with
  | nil => rfl
  | @cons s s1 s' is js i step rest ih =>
    have happend : is ++ i :: js = is ++ [i] ++ js := by simp
    rw [happend] at hlen hhead
    have hislen := length_le_of_append hlen
    have hishead := head?_ne_of_append (head?_ne_of_append hhead)
    obtain ⟨hks', hsame⟩ := step.writablePath_eq ht hl hislen hks
    exact (ih (step.grows ht hl hislen hishead).tree (step.linked hl hislen) hlen hhead hks').trans
      hsame

theorem writablePath_of_append {mem : PhysMem} {cr3 : FrameNo} {is js : List (BitVec 9)}
    (hl : Linked mem cr3 is) (h : writablePath mem cr3 (is ++ js) = true) :
    writablePath mem cr3 is = true := by
  rw [writablePath, Bool.and_eq_true] at h ⊢
  refine ⟨h.1, ?_⟩
  have hwalk := h.2
  clear h
  -- the entries of a shorter path are among those of a longer one
  induction is generalizing cr3 with
  | nil => rfl
  | cons i is ih =>
    have hhuge := hl.1.2
    simp only [List.cons_append, walkWritable, hhuge, Bool.false_eq_true, and_false, decide_false,
      Bool.false_or, Bool.and_eq_true] at hwalk ⊢
    exact ⟨hwalk.1, ih hl.2 hwalk.2⟩

/-- The calls come back if the entries on the way allow writing in the end. -/
theorem Prepares.returns {s s' : Machine} {is js : List (BitVec 9)} (h : Prepares s is js s')
    (ht : Tree s) (hl : Linked s.mem s.cr3 is) (hlen : (is ++ js).length ≤ 3)
    (hhead : (is ++ js).head? ≠ some 511) (hw : writablePath s'.mem s'.cr3 (is ++ js) = true) :
    Returns (fun n => createPath n s (recTable is) js) (recTable (is ++ js), s') := by
  induction h with
  | nil s is =>
    rw [List.append_nil]
    exact returns_const _
  | @cons s s1 s' is js i step rest ih =>
    have hall := Prepares.cons step rest
    have hsame := hall.writablePath_eq ht hl hlen hhead hl
    have happend : is ++ i :: js = is ++ [i] ++ js := by simp
    rw [happend] at hlen hhead hw ⊢
    have hislen := length_le_of_append hlen
    have hishead := head?_ne_of_append (head?_ne_of_append hhead)
    have hlinked := (rest.grows (step.grows ht hl hislen hishead).tree (step.linked hl hislen)
      hlen hhead).2
    have his : writablePath s.mem s.cr3 is = true := by
      rw [← hsame]
      exact writablePath_of_append (linked_append (linked_append hlinked))
        (writablePath_of_append (linked_append hlinked) hw)
    have htree := (step.grows ht hl hislen hishead).tree
    exact (step.returns ht hl hislen his).bind
      (ih htree (step.linked hl hislen) hlen hhead hw)

/-- The tables that are there already need no preparation. -/
theorem Prepares.through {s s' : Machine} {is pre js : List (BitVec 9)}
    (hl : Linked s.mem s.cr3 (is ++ pre)) (h : Prepares s (is ++ pre) js s') :
    Prepares s is (pre ++ js) s' := by
  induction pre generalizing is with
  | nil => rwa [List.append_nil] at h
  | cons i pre ih =>
    have happend : is ++ i :: pre = is ++ [i] ++ pre := by simp
    rw [happend] at hl h
    have hlink := ((linked_snoc _ _ _ _).mp (linked_append hl)).2
    exact Prepares.cons (TableStep.present hlink) (ih hl h)

/-- Where there is room the descent comes to the last table. -/
theorem Room.prepares {s : Machine} {pre js : List (BitVec 9)} {addrs : List PhysicalAddress}
    (h : Room s pre js addrs) (ht : Tree s) (hlen : (pre ++ js).length ≤ 3)
    (hhead : (pre ++ js).head? ≠ some 511) :
    ∃ s', Prepares s pre js s' ∧ writablePath s'.mem s'.cr3 (pre ++ js) = true := by
  induction js generalizing s pre addrs with
  | nil =>
    rw [List.append_nil]
    exact ⟨s, Prepares.nil s pre, h.writable⟩
  | cons i js ih =>
    obtain ⟨hl, hw, hmissing, hsupply, hfresh, hnodup⟩ := h
    cases addrs with
    | nil => exact hmissing.elim
    | cons addr addrs =>
      obtain ⟨habsent, hhuge, hrest⟩ := hmissing
      obtain ⟨hfirst, hlater⟩ := List.forall_mem_cons.mp hfresh
      rw [List.map_cons, List.nodup_cons] at hnodup
      have happend : pre ++ i :: js = pre ++ [i] ++ js := by simp
      rw [happend] at hlen hhead ⊢
      have hprelen := length_le_of_append hlen
      have hprehead := head?_ne_of_append (head?_ne_of_append hhead)
      cases hsupply with
      | @cons _ st' _ _ first rest =>
        have hattach := attach_of_absent hl hprelen habsent hhuge hfirst
        have hstep : TableStep s pre i (withTable s pre i addr st') :=
          TableStep.absent habsent hhuge first.allocates hfirst
        obtain ⟨hlnew, hreach⟩ := hattach.linked_new
        have hkeep : ∀ f, Fresh s.mem s.cr3 f → ∀ j,
            (withTable s pre i addr st').mem ⟨f, j⟩ = s.mem ⟨f, j⟩ := by
          intro f hf j
          refine Function.update_of_ne (fun hslot => ?_) _ _
          exact hf.unused pre (by omega) hl (congrArg Slot.frame hslot).symm
        have hroom : Room (withTable s pre i addr st') (pre ++ [i]) js addrs := by
          refine ⟨hlnew, writablePath_new hattach.toNewLink ht.recursive (writable_created _ _) hw,
            ?_, rest, fun a ha => ?_, hnodup.2⟩
          · have hsame := hrest.congr (hkeep _ hfirst) fun a ha => hkeep _ (hlater a ha)
            have hframe : reach (withTable s pre i addr st').mem (withTable s pre i addr st').cr3
                (pre ++ [i]) = addr.setWidth 40 := hreach.trans (frame_created _ _)
            rw [hframe]
            exact hsame
          · refine hattach.fresh_other (hlater a ha) fun heq => hnodup.1 ?_
            rw [frame_created] at heq
            exact heq ▸ List.mem_map_of_mem ha
        obtain ⟨s', hprep, hwritable⟩ :=
          ih hroom (hstep.grows ht hl hprelen hprehead).tree hlen hhead
        exact ⟨s', Prepares.cons hstep hprep, hwritable⟩

/-! ## The written word -/

section Written

variable {s : Machine} (ht : Tree s) {p : BitVec 64}
  (hl : Linked s.mem s.cr3 (tablePath (narrow p)))

include ht hl

theorem apart_of_tree : Apart s (narrow p) :=
  notMem_visited_last ht.recursive ht.distinct (by simp [tablePath]) hl (by simp [tablePath])
    (tablePath_head_narrow p) _

/-- Every page but the narrowed one keeps its translation. -/
theorem hwTranslate_mapped_other {q : BitVec 64} (hq : CanonicalPage q)
    (hq4 : vaIndex 4 (pageStartingAddress q) ≠ 511) (hne : q ≠ narrow p) (flags : BitVec 8) :
    hwTranslate (mapped s (narrow p) flags).mem s.cr3 (pageStartingAddress q) =
      hwTranslate s.mem s.cr3 (pageStartingAddress q) := by
  have hpath : vaIndices (pageStartingAddress q) ≠
      tablePath (narrow p) ++ [lastIndex (narrow p)] := by
    intro h
    exact hne (page_eq_of_path hq (canonicalPage_narrow p) h)
  have hagree := agreesAlong_other ht.recursive ht.distinct (by simp [tablePath]) hl
    (tablePath_head_narrow p) (vaIndices (pageStartingAddress q)) (by simp [vaIndices])
    (fun h => hq4 (Option.some.inj h)) hpath (mappedEntry flags)
  have hwalk := hagree.walk_eq
  rw [hwTranslate, hwTranslate, if_pos hq.2, if_pos hq.2]
  exact congrArg _ hwalk

/-- The narrowed page is now translated to frame 0. -/
theorem hwTranslate_mapped_narrow (flags : BitVec 8) :
    hwTranslate (mapped s (narrow p) flags).mem s.cr3 (pageStartingAddress (narrow p)) =
      some 0 := by
  obtain ⟨-, hlinked, -⟩ := mapped_path ht.recursive hl (apart_of_tree ht hl) flags
  have hentry := mapped_entry ht.recursive hl (apart_of_tree ht hl) flags
  have hpresent := hentry ▸ present_mappedEntry flags
  have hgo := hwTranslate_present (canonicalPage_narrow p).2 hlinked hpresent
  refine hgo.trans ?_
  have hframe := (congrArg Pte.frame hentry).trans (frame_mappedEntry flags)
  rw [vaOffset_page]
  exact congrArg (fun f => some (f ++ 0#12)) hframe

end Written

/-! ## Other pages -/

/-- `map_page_to_frame(p, frame, flags)` comes back and page `q` is translated as before. -/
def Keeps (s : Machine) (p : BitVec 64) (frame : Frame) (flags : BitVec 8) (q : BitVec 64) : Prop :=
  ∃ s', Returns (fun n => mapPageToFrame n s p frame flags) s' ∧
    hwTranslate s'.mem s'.cr3 (pageStartingAddress q) =
      hwTranslate s.mem s.cr3 (pageStartingAddress q)

theorem Grows.hwTranslate_eq {s s' : Machine} (h : Grows s s') {q : BitVec 64}
    (hq4 : vaIndex 4 (pageStartingAddress q) ≠ 511) :
    hwTranslate s'.mem s'.cr3 (pageStartingAddress q) =
      hwTranslate s.mem s.cr3 (pageStartingAddress q) := by
  have hwalk := h.walk (vaIndices (pageStartingAddress q)) rfl fun h => hq4 (Option.some.inj h)
  rw [hwTranslate, hwTranslate, hwalk]

/-- The call, after the tables are there, changes one word. -/
theorem mapPageToFrame_ready {s : Machine} (ht : Tree s) {p : BitVec 64} {s' : Machine}
    (hs' : Prepares s [] (tablePath (narrow p)) s') (hw : WritablePath s' (narrow p))
    (frame : Frame) (flags : BitVec 8) :
    Grows s s' ∧ Linked s'.mem s'.cr3 (tablePath (narrow p)) ∧
      Returns (fun n => mapPageToFrame n s p frame flags) (mapped s' (narrow p) flags) := by
  have hlen : ([] ++ tablePath (narrow p)).length ≤ 3 := by simp [tablePath]
  obtain ⟨hgrows, hl⟩ := hs'.grows ht trivial hlen (tablePath_head_narrow p)
  obtain ⟨n, hn⟩ := hs'.returns ht trivial hlen (tablePath_head_narrow p) hw
  refine ⟨hgrows, hl, n, fun k hk => ?_⟩
  have hpath : createPath k s (recTable []) (tablePath (narrow p)) =
      some (recTable (tablePath (narrow p)), s') := hn k hk
  have hwrite := writeEntry_apart hgrows.tree.recursive hl (apart_of_tree hgrows.tree hl) hw frame
    flags
  dsimp only
  rw [mapPageToFrame_eq, p4Table_eq, hpath, Option.bind_some]
  exact hwrite

theorem keeps_iff_of_returns {s u : Machine} {p : BitVec 64} {frame : Frame} {flags : BitVec 8}
    (hrun : Returns (fun n => mapPageToFrame n s p frame flags) u) (q : BitVec 64) :
    Keeps s p frame flags q ↔
      hwTranslate u.mem u.cr3 (pageStartingAddress q) =
        hwTranslate s.mem s.cr3 (pageStartingAddress q) := by
  constructor
  · rintro ⟨v, hv, hkeep⟩
    rw [hv.unique hrun] at hkeep
    exact hkeep
  · exact fun hkeep => ⟨_, hrun, hkeep⟩

/-- Where there is room, mapping `p` leaves page `q` alone exactly if `q` is not the page that the
    number of `p` cut to 32 bits names, or is in frame 0 already. -/
theorem keeps_iff_of_room {s : Machine} (ht : Tree s) {p q : BitVec 64} (hq : CanonicalPage q)
    (hq4 : vaIndex 4 (pageStartingAddress q) ≠ 511) {pre js : List (BitVec 9)}
    {addrs : List PhysicalAddress} (hpath : tablePath (narrow p) = pre ++ js)
    (hroom : Room s pre js addrs) (frame : Frame) (flags : BitVec 8) :
    Keeps s p frame flags q ↔
      (q ≠ narrow p ∨ hwTranslate s.mem s.cr3 (pageStartingAddress q) = some 0) := by
  have hhead := tablePath_head_narrow p
  have hlen : (tablePath (narrow p)).length ≤ 3 := by simp [tablePath]
  rw [hpath] at hhead hlen
  obtain ⟨s', hprep, hw⟩ := hroom.prepares ht hlen hhead
  have hs' : Prepares s [] (tablePath (narrow p)) s' := by
    rw [hpath]
    exact Prepares.through hroom.linked hprep
  rw [← hpath] at hw
  obtain ⟨hgrows, hl, hrun⟩ := mapPageToFrame_ready ht hs' hw frame flags
  rw [keeps_iff_of_returns hrun, ← hgrows.hwTranslate_eq hq4]
  have hcr3 : (mapped s' (narrow p) flags).cr3 = s'.cr3 := rfl
  rw [hcr3]
  by_cases hne : q = narrow p
  · rw [hne, hwTranslate_mapped_narrow hgrows.tree hl]
    constructor
    · exact fun h => Or.inr h.symm
    · rintro (h | h)
      · exact absurd rfl h
      · exact h.symm
  · exact ⟨fun _ => Or.inl hne, fun _ => hwTranslate_mapped_other hgrows.tree hl hq hq4 hne flags⟩

/-! ## Where the call does not come back -/

theorem createPath_of_keeps {s : Machine} {p q : BitVec 64} {frame : Frame} {flags : BitVec 8}
    (h : Keeps s p frame flags q) :
    ∃ n s', ∀ k, n ≤ k → ∃ r, createPath k s (recTable []) (tablePath (narrow p)) = some r ∧
      writeEntry r.2 (entryAddr r.1 ((lastIndex (narrow p)).setWidth 64)) frame flags =
        some s' := by
  obtain ⟨s', ⟨n, hn⟩, -⟩ := h
  refine ⟨n, s', fun k hk => ?_⟩
  have hrun : mapPageToFrame k s p frame flags = some s' := hn k hk
  rw [mapPageToFrame_eq, p4Table_eq] at hrun
  exact Option.bind_eq_some_iff.mp hrun

/-- With all tables there the call needs the entries on the way to allow writing. -/
theorem writable_of_keeps {s : Machine} (hr : Recursive s.mem s.cr3) {p q : BitVec 64}
    {frame : Frame} {flags : BitVec 8} (hl : Linked s.mem s.cr3 (tablePath (narrow p)))
    (h : Keeps s p frame flags q) : WritablePath s (narrow p) := by
  obtain ⟨n, s', hn⟩ := createPath_of_keeps h
  obtain ⟨r, hpath, hwrite⟩ := hn n (Nat.le_refl n)
  have hlinked : createPath n s (recTable []) (tablePath (narrow p)) =
      some (recTable (tablePath (narrow p)), s) :=
    @createPath_linked s hr n [] (tablePath (narrow p)) (by simp [tablePath]) hl
  rw [hlinked] at hpath
  obtain rfl := Option.some.inj hpath
  exact writablePath_of_writeEntry hr hwrite

/-- The calls up to the first table that is missing change nothing. -/
theorem createPath_split {s : Machine} (hr : Recursive s.mem s.cr3) {pre js : List (BitVec 9)}
    (hl : Linked s.mem s.cr3 pre) (hlen : pre.length ≤ 3) (n : Nat) :
    createPath n s (recTable []) (pre ++ js) = createPath n s (recTable pre) js := by
  have hlinked : createPath n s (recTable []) pre = some (recTable pre, s) :=
    @createPath_linked s hr n [] pre hlen hl
  rw [createPath_append, hlinked, Option.bind_some]

/-- With a table missing it needs this too, and a frame. -/
theorem supplied_of_keeps {s : Machine} (hr : Recursive s.mem s.cr3) {p q : BitVec 64}
    {frame : Frame} {flags : BitVec 8} {pre js : List (BitVec 9)} {i : BitVec 9}
    (hpath : tablePath (narrow p) = pre ++ i :: js) (hl : Linked s.mem s.cr3 pre)
    (habsent : Pte.present (s.mem ⟨reach s.mem s.cr3 pre, i⟩) = false)
    (h : Keeps s p frame flags q) :
    writablePath s.mem s.cr3 pre = true ∧ ∃ addr st, AllocatesTable s addr st := by
  have hlen : (pre ++ i :: js).length ≤ 3 := by
    rw [← hpath]
    simp [tablePath]
  have hprelen := length_of_more hlen
  have hgo := hwTranslate_recTable hr (by omega) hl i
  obtain ⟨n, s', hn⟩ := createPath_of_keeps h
  have hcreate : ∃ r, nextTableCreate n s (recTable pre) (i.setWidth 64) = some r := by
    obtain ⟨r, hrun, -⟩ := hn n (Nat.le_refl n)
    rw [hpath, createPath_split hr hl (by omega)] at hrun
    obtain ⟨a, ha, -⟩ := Option.bind_eq_some_iff.mp hrun
    exact ⟨a, ha⟩
  obtain ⟨r, hr'⟩ := hcreate
  have hwritable := writable_of_nextTableCreate hgo habsent hr'
  rw [hwWritable_recTable hr (by omega)] at hwritable
  exact ⟨hwritable, allocatesTable_of_nextTableCreate hgo habsent hr'⟩

/-- A huge entry is left as it is, and the call goes on with table 0. If no page is mapped there it
    faults. -/
theorem not_keeps_of_huge {s : Machine} (hr : Recursive s.mem s.cr3) {p q : BitVec 64}
    {frame : Frame} {flags : BitVec 8} {pre js : List (BitVec 9)} {i : BitVec 9}
    (hpath : tablePath (narrow p) = pre ++ i :: js) (hl : Linked s.mem s.cr3 pre)
    (hpresent : Pte.present (s.mem ⟨reach s.mem s.cr3 pre, i⟩) = true)
    (hhuge : Pte.huge (s.mem ⟨reach s.mem s.cr3 pre, i⟩) = true)
    (hnull : ∀ j : BitVec 9, hwTranslate s.mem s.cr3 (entryAddr 0 (j.setWidth 64)) = none) :
    ¬ Keeps s p frame flags q := by
  intro h
  have hlen : (pre ++ i :: js).length ≤ 3 := by
    rw [← hpath]
    simp [tablePath]
  have hprelen := length_of_more hlen
  have hload : ∀ j : BitVec 9, s.load (entryAddr 0 (j.setWidth 64)) = none := by
    intro j
    rw [Machine.load, hnull j]
    rfl
  have hlink : ¬ Pte.Link (s.mem ⟨reach s.mem s.cr3 pre, i⟩) := by
    rintro ⟨-, hnot⟩
    rw [hhuge] at hnot
    cases hnot
  have hnext := nextTableAddress_recTable hr hl hprelen i
  rw [if_neg hlink] at hnext
  obtain ⟨n, s', hn⟩ := createPath_of_keeps h
  obtain ⟨r, hrun, hwrite⟩ := hn n (Nat.le_refl n)
  have hcreate : nextTableCreate n s (recTable pre) (i.setWidth 64) = some (0, s) := by
    simp [nextTableCreate, load_recTable hr hl (by omega : pre.length ≤ 3) i, hpresent, hnext]
  rw [hpath, createPath_split hr hl (by omega), createPath, hcreate, Option.bind_eq_bind,
    Option.bind_some] at hrun
  cases js with
  | nil =>
    obtain rfl := Option.some.inj hrun
    obtain ⟨s1, hmask, -⟩ := Option.bind_eq_some_iff.mp hwrite
    obtain ⟨s2, hclear, -⟩ := Option.bind_eq_some_iff.mp hmask
    obtain ⟨e, he, -⟩ := Option.bind_eq_some_iff.mp hclear
    cases (hload _).symm.trans he
  | cons j js =>
    obtain ⟨a, ha, -⟩ := Option.bind_eq_some_iff.mp hrun
    obtain ⟨e, he, -⟩ := Option.bind_eq_some_iff.mp ha
    cases (hload _).symm.trans he

/-! ## A last table in a frame with old contents -/

section LastTable

variable {s : Machine} {is : List (BitVec 9)} {i : BitVec 9} {addr : PhysicalAddress}
  (hnew : NewLink s.mem s.cr3 is i (created (s.mem ⟨reach s.mem s.cr3 is, i⟩) addr))
  (hunused : ∀ js : List (BitVec 9), js.length ≤ 3 → Linked s.mem s.cr3 js →
    reach s.mem s.cr3 js ≠ addr.setWidth 40)

include hnew hunused

/-- The last table is none of those on the way to it. -/
theorem apart_withTable (hr : Recursive s.mem s.cr3) {page : BitVec 64}
    (hpath : tablePath page = is ++ [i]) (mmap : MmapState) :
    Apart (withTable s is i addr mmap) page := by
  have hself : Pte.frame ((withTable s is i addr mmap).mem ⟨s.cr3, 511⟩) = s.cr3 :=
    (hnew.recursive hr).self
  have hlength := congrArg List.length hpath
  simp only [tablePath, List.length_cons, List.length_nil, List.length_append] at hlength
  -- a shorter path leads to an old table
  have hold : ∀ pre post, is = pre ++ post →
      reach (withTable s is i addr mmap).mem s.cr3 pre ≠ addr.setWidth 40 := by
    intro pre post heq
    have hpre : Linked s.mem s.cr3 pre := linked_append (heq ▸ hnew.linked)
    have hsame : reach (withTable s is i addr mmap).mem s.cr3 pre = reach s.mem s.cr3 pre :=
      (hnew.linked_path hpre).2
    have hprelen := congrArg List.length heq
    rw [List.length_append] at hprelen
    rw [hsame]
    exact hunused pre (by omega) hpre
  intro hmem
  have hslot : (pageSlot (withTable s is i addr mmap) page).frame = addr.setWidth 40 := by
    rw [pageSlot, hpath]
    exact hnew.linked_new.2.trans (frame_created _ _)
  rcases List.mem_cons.mp hmem with htop | hvisited
  · rw [htop] at hslot
    exact hold [] is rfl hslot
  · have hcr3 : (withTable s is i addr mmap).cr3 = s.cr3 := rfl
    rw [hcr3, hself] at hvisited
    obtain ⟨pre, j, post, heq, hvisit⟩ := exists_of_mem_visited hvisited
    rw [hvisit] at hslot
    rw [hpath] at heq
    obtain ⟨post', rfl⟩ : ∃ post', is = pre ++ post' := by
      rcases List.append_eq_append_iff.mp heq with ⟨as, h1, h2⟩ | ⟨bs, h1, -⟩
      · cases as with
        | nil => exact ⟨[], by simpa using h1.symm⟩
        | cons a as => simp at h2
      · exact ⟨bs, h1⟩
    exact hold pre post' rfl hslot

variable (hr : Recursive s.mem s.cr3) {p : BitVec 64} (hpath : tablePath (narrow p) = is ++ [i])
  (mmap : MmapState) (flags : BitVec 8)

include hr hpath

omit hunused hr in
theorem linked_withTable :
    Linked (withTable s is i addr mmap).mem s.cr3 (tablePath (narrow p)) ∧
      pageSlot (withTable s is i addr mmap) (narrow p) =
        ⟨addr.setWidth 40, lastIndex (narrow p)⟩ := by
  obtain ⟨hl, hreach⟩ := hnew.linked_new
  rw [frame_created] at hreach
  refine ⟨hpath ▸ hl, ?_⟩
  rw [pageSlot, hpath]
  exact congrArg (fun f => Slot.mk f (lastIndex (narrow p))) hreach

/-- The call makes the table and writes one word of it. -/
theorem mapPageToFrame_withTable (hw : writablePath s.mem s.cr3 is = true)
    (halloc : AllocatesTable s addr mmap) (frame : Frame) :
    Returns (fun n => mapPageToFrame n s p frame flags)
      (mapped (withTable s is i addr mmap) (narrow p) flags) := by
  have hlen := hnew.length
  have hl := (linked_withTable hnew hpath mmap).1
  have hwritable : WritablePath (withTable s is i addr mmap) (narrow p) := by
    rw [WritablePath, hpath]
    exact writablePath_new hnew hr (writable_created _ _) hw
  obtain ⟨n, hn⟩ := nextTableCreate_absent hr hw halloc hnew
  refine ⟨n, fun k hk => ?_⟩
  have hcreate : nextTableCreate k s (recTable is) (i.setWidth 64) =
      some (recTable (is ++ [i]), withTable s is i addr mmap) := hn k hk
  have hapart := apart_withTable hnew hunused hr hpath mmap
  have hwrite := writeEntry_apart (hnew.recursive hr) hl hapart hwritable frame flags
  have htables : createPath k s (recTable is) [i] =
      some (recTable (is ++ [i]), withTable s is i addr mmap) := by
    simp only [createPath, hcreate, Option.bind_eq_bind, Option.bind_some]
  rw [entryOf, hpath] at hwrite
  dsimp only
  rw [mapPageToFrame_eq, p4Table_eq, hpath, createPath_split hr hnew.linked (by omega), htables]
  exact hwrite

/-- Pages behind other entries are as they were. -/
theorem hwTranslate_withTable_other (hd : DistinctTables s.mem s.cr3)
    (hhead : is.head? ≠ some 511) {q : BitVec 64}
    (hq4 : vaIndex 4 (pageStartingAddress q) ≠ 511) (hother : tablePath q ≠ is ++ [i]) :
    hwTranslate (mapped (withTable s is i addr mmap) (narrow p) flags).mem s.cr3
        (pageStartingAddress q) =
      hwTranslate s.mem s.cr3 (pageStartingAddress q) := by
  have hislen := congrArg List.length hpath
  simp only [tablePath, List.length_cons, List.length_nil, List.length_append] at hislen
  have hagree : AgreesAlong s.mem (mapped (withTable s is i addr mmap) (narrow p) flags).mem s.cr3
      (vaIndices (pageStartingAddress q)) := by
    intro pre j post heq hpre
    have hprelen := congrArg List.length heq
    simp only [vaIndices, List.length_cons, List.length_nil, List.length_append] at hprelen
    have hlast : (⟨reach s.mem s.cr3 pre, j⟩ : Slot) ≠
        pageSlot (withTable s is i addr mmap) (narrow p) := by
      rw [(linked_withTable hnew hpath mmap).2]
      exact fun hslot => hunused pre (by omega) hpre (congrArg Slot.frame hslot)
    have hentry : (⟨reach s.mem s.cr3 pre, j⟩ : Slot) ≠ ⟨reach s.mem s.cr3 is, i⟩ := by
      intro hslot
      have hprehead : pre.head? ≠ some 511 := by
        have hwhole : (pre ++ j :: post).head? ≠ some 511 := by
          rw [← heq]
          exact fun h => hq4 (Option.some.inj h)
        exact head?_ne_of_append hwhole
      obtain rfl := reach_inj hr hd (by omega) (by omega) hpre hnew.linked hprehead hhead
        (congrArg Slot.frame hslot)
      obtain rfl : j = i := congrArg Slot.index hslot
      have hsplit : tablePath q ++ [lastIndex q] = pre ++ [j] ++ post := by
        rw [List.append_assoc]
        exact heq
      exact hother (List.append_inj_left hsplit (by simp [tablePath]; omega))
    exact (Function.update_of_ne hlast _ _).trans (Function.update_of_ne hentry _ _)
  rw [hwTranslate, hwTranslate, hagree.walk_eq]

/-- Pages behind the new entry are mapped where the frame held a present word, and at the page
    that was asked for. -/
theorem hwTranslate_withTable_new {q : BitVec 64} (hq : CanonicalPage q)
    (hsame : tablePath q = is ++ [i]) :
    (hwTranslate (mapped (withTable s is i addr mmap) (narrow p) flags).mem s.cr3
        (pageStartingAddress q) = hwTranslate s.mem s.cr3 (pageStartingAddress q) ↔
      lastIndex q ≠ lastIndex (narrow p) ∧
        Pte.present (s.mem ⟨addr.setWidth 40, lastIndex q⟩) = false) := by
  obtain ⟨hl, hslot⟩ := linked_withTable hnew hpath mmap
  obtain ⟨-, hl', hslot'⟩ := mapped_path (hnew.recursive hr) hl
    (apart_withTable hnew hunused hr hpath mmap) flags
  rw [hslot, pageSlot, Slot.mk.injEq] at hslot'
  have hindices : vaIndices (pageStartingAddress q) = tablePath (narrow p) ++ [lastIndex q] := by
    rw [hpath, ← hsame]
    rfl
  have hbefore : walk s.mem (vaIndices (pageStartingAddress q)) s.cr3 = none := by
    rw [hindices, hpath, List.append_assoc, walk_append hnew.linked]
    exact if_pos hnew.absent
  have hafter := walk_append hl' [lastIndex q]
  rw [hslot'.1, walk_last] at hafter
  have hcr3 : (mapped (withTable s is i addr mmap) (narrow p) flags).cr3 = s.cr3 := rfl
  rw [hcr3] at hafter
  rw [hwTranslate, hwTranslate, if_pos hq.2, if_pos hq.2, hbefore, hindices, hafter]
  by_cases hne : lastIndex q = lastIndex (narrow p)
  · have hentry : (mapped (withTable s is i addr mmap) (narrow p) flags).mem
        ⟨addr.setWidth 40, lastIndex q⟩ = mappedEntry flags := by
      rw [hne, ← hslot]
      exact Function.update_self _ _ _
    rw [hentry, if_pos (present_mappedEntry flags)]
    simp [hne]
  · have hentry : (mapped (withTable s is i addr mmap) (narrow p) flags).mem
        ⟨addr.setWidth 40, lastIndex q⟩ = s.mem ⟨addr.setWidth 40, lastIndex q⟩ := by
      have hlast : (⟨addr.setWidth 40, lastIndex q⟩ : Slot) ≠
          pageSlot (withTable s is i addr mmap) (narrow p) := by
        rw [hslot]
        exact fun h => hne (congrArg Slot.index h)
      have hlen := hnew.length
      have hold : (⟨addr.setWidth 40, lastIndex q⟩ : Slot) ≠ ⟨reach s.mem s.cr3 is, i⟩ :=
        fun h => hunused is (by omega) hnew.linked (congrArg Slot.frame h).symm
      exact (Function.update_of_ne hlast _ _).trans (Function.update_of_ne hold _ _)
    rw [hentry]
    cases hp : Pte.present (s.mem ⟨addr.setWidth 40, lastIndex q⟩) <;> simp [hne]

end LastTable

/-! ## Which pages are left alone -/

/-- Only the last table is missing. It may be linked, and gets a frame that is no table, whatever
    its words. -/
structure LastMissing (s : Machine) (is : List (BitVec 9)) (i : BitVec 9)
    (addr : PhysicalAddress) : Prop where
  linked : Linked s.mem s.cr3 is
  absent : Pte.present (s.mem ⟨reach s.mem s.cr3 is, i⟩) = false
  notHuge : Pte.huge (s.mem ⟨reach s.mem s.cr3 is, i⟩) = false
  writable : writablePath s.mem s.cr3 is = true
  supplies : ∃ st, Supplies s.mmap addr st
  unused : ∀ js : List (BitVec 9), js.length ≤ 3 → Linked s.mem s.cr3 js →
    reach s.mem s.cr3 js ≠ addr.setWidth 40

theorem keeps_iff_of_lastMissing {s : Machine} (ht : Tree s) {p q : BitVec 64}
    (hq : CanonicalPage q) (hq4 : vaIndex 4 (pageStartingAddress q) ≠ 511) {is : List (BitVec 9)}
    {i : BitVec 9} {addr : PhysicalAddress} (hpath : tablePath (narrow p) = is ++ [i])
    (h : LastMissing s is i addr) (frame : Frame) (flags : BitVec 8) :
    Keeps s p frame flags q ↔ (tablePath q = is ++ [i] →
      lastIndex q ≠ lastIndex (narrow p) ∧
        Pte.present (s.mem ⟨addr.setWidth 40, lastIndex q⟩) = false) := by
  obtain ⟨hl, habsent, hhuge, hw, ⟨st, hsupplies⟩, hunused⟩ := h
  have hhead : is.head? ≠ some 511 := head?_ne_of_append (hpath ▸ tablePath_head_narrow p)
  have hislen := congrArg List.length hpath
  simp only [tablePath, List.length_cons, List.length_nil, List.length_append] at hislen
  have hnew := newLink_of_absent addr hl (by omega) habsent hhuge
  have hrun := mapPageToFrame_withTable hnew hunused ht.recursive hpath st flags hw
    hsupplies.allocates frame
  rw [keeps_iff_of_returns hrun]
  by_cases hsame : tablePath q = is ++ [i]
  · have hnewPage := hwTranslate_withTable_new hnew hunused ht.recursive hpath st flags hq hsame
    exact hnewPage.trans ⟨fun hkeep _ => hkeep, fun hkeep => hkeep hsame⟩
  · have hother := hwTranslate_withTable_other hnew hunused ht.recursive hpath st flags ht.distinct
      hhead hq4 hsame
    exact ⟨fun _ hq => absurd hq hsame, fun _ => hother⟩

/-- When mapping page `p` leaves page `q` alone, by the state before.

    With all tables there, exactly if the entries on the way may be written and `q` is not the
    page that the number of `p` cut to 32 bits names, or is in frame 0 already. With room for
    the missing tables, under the same condition on `q`. With only the last table missing and
    a frame that is no table, exactly if `q` does not lie behind the new entry, or is another
    page there whose word in the frame is absent. With a table missing that may not be linked
    or gets no frame, never; nor behind a huge entry if no page is mapped at address 0. -/
theorem mapPageToFrame_keeps_iff (s : Machine) (hr : Recursive s.mem s.cr3)
    (hd : DistinctTables s.mem s.cr3) (p q : BitVec 64) (hq : CanonicalPage q)
    (hq4 : vaIndex 4 (pageStartingAddress q) ≠ 511) (frame : Frame) (flags : BitVec 8) :
    (Linked s.mem s.cr3 (tablePath (narrow p)) →
      (Keeps s p frame flags q ↔ WritablePath s (narrow p) ∧
        (q ≠ narrow p ∨ hwTranslate s.mem s.cr3 (pageStartingAddress q) = some 0))) ∧
    (∀ pre js addrs, tablePath (narrow p) = pre ++ js → Room s pre js addrs →
      (Keeps s p frame flags q ↔
        (q ≠ narrow p ∨ hwTranslate s.mem s.cr3 (pageStartingAddress q) = some 0))) ∧
    (∀ is i addr, tablePath (narrow p) = is ++ [i] → LastMissing s is i addr →
      (Keeps s p frame flags q ↔ (tablePath q = is ++ [i] →
        lastIndex q ≠ lastIndex (narrow p) ∧
          Pte.present (s.mem ⟨addr.setWidth 40, lastIndex q⟩) = false))) ∧
    (∀ pre i js, tablePath (narrow p) = pre ++ i :: js → Linked s.mem s.cr3 pre →
      Pte.present (s.mem ⟨reach s.mem s.cr3 pre, i⟩) = false →
      s.mmap.memoryArea.WellFormed → s.mmap.memoryArea.chunks.length ≤ 2 ^ 32 →
      Keeps s p frame flags q →
        writablePath s.mem s.cr3 pre = true ∧ ∃ addr st, Supplies s.mmap addr st) ∧
    (∀ pre i js, tablePath (narrow p) = pre ++ i :: js → Linked s.mem s.cr3 pre →
      Pte.present (s.mem ⟨reach s.mem s.cr3 pre, i⟩) = true →
      Pte.huge (s.mem ⟨reach s.mem s.cr3 pre, i⟩) = true →
      (∀ j : BitVec 9, hwTranslate s.mem s.cr3 (entryAddr 0 (j.setWidth 64)) = none) →
        ¬ Keeps s p frame flags q) := by
  have ht : Tree s := ⟨hr, hd⟩
  have hroom : ∀ pre js addrs, tablePath (narrow p) = pre ++ js → Room s pre js addrs →
      (Keeps s p frame flags q ↔
        (q ≠ narrow p ∨ hwTranslate s.mem s.cr3 (pageStartingAddress q) = some 0)) :=
    fun pre js addrs hpath h => keeps_iff_of_room ht hq hq4 hpath h frame flags
  refine ⟨fun hl => ?_, hroom, ?_, ?_, ?_⟩
  · -- there is room for no table more
    have hnone : WritablePath s (narrow p) → Room s (tablePath (narrow p)) [] [] := fun hw =>
      ⟨hl, hw, trivial, Supply.nil _, by simp, List.nodup_nil⟩
    constructor
    · intro h
      have hw := writable_of_keeps hr hl h
      exact ⟨hw, (hroom _ [] [] (List.append_nil _).symm (hnone hw)).mp h⟩
    · rintro ⟨hw, h⟩
      exact (hroom _ [] [] (List.append_nil _).symm (hnone hw)).mpr h
  · exact fun is i addr hpath h => keeps_iff_of_lastMissing ht hq hq4 hpath h frame flags
  · intro pre i js hpath hl habsent hwf hlen h
    obtain ⟨hw, addr, st, halloc⟩ := supplied_of_keeps hr hpath hl habsent h
    exact ⟨hw, addr, st, supplies_of_allocates hwf hlen halloc⟩
  · exact fun pre i js hpath hl hpresent hhuge hnull =>
      not_keeps_of_huge hr hpath hl hpresent hhuge hnull

/-! ## A small tree -/

/-- The slots of `sampleMem` that are not 0. -/
def sampleSlots : List Slot := [⟨1, 511⟩, ⟨1, 0⟩, ⟨2, 0⟩, ⟨3, 0⟩, ⟨4, 0⟩]

theorem sampleMem_present {x : Slot} (h : Pte.present (sampleMem x) = true) : x ∈ sampleSlots := by
  by_contra hx
  simp only [sampleSlots, List.mem_cons, List.not_mem_nil, or_false, not_or] at hx
  obtain ⟨h1, h2, h3, h4, h5⟩ := hx
  have hzero : sampleMem x = 0 := by
    rw [sampleMem, if_neg h1, if_neg h2, if_neg h3, if_neg h4, if_neg h5]
  rw [hzero] at h
  exact absurd h (by decide)

theorem sampleMem_distinct : DistinctTables sampleMem 1 := by
  apply distinctTables_of_injective
  intro x y hx hy
  have hall : ∀ x ∈ sampleSlots, ∀ y ∈ sampleSlots,
      Pte.frame (sampleMem x) = Pte.frame (sampleMem y) → x = y := by decide
  exact hall x (sampleMem_present hx.1) y (sampleMem_present hy.1)

/-- Frame number 0x1000 is unused and empty. -/
theorem sampleMem_fresh : Fresh sampleMem 1 0x1000 := by
  refine ⟨fun i => ?_, fun is _ hl => ?_⟩
  · by_contra hpresent
    have hmem := sampleMem_present (Bool.of_not_eq_false hpresent)
    have hframes : ∀ x ∈ sampleSlots, x.frame ≠ 0x1000 := by decide
    exact hframes _ hmem rfl
  · cases is using List.reverseRecOn with
    | nil => decide
    | append_singleton is i =>
      have hlink := ((linked_snoc _ _ _ _).mp hl).2
      have hframes : ∀ x ∈ sampleSlots, Pte.frame (sampleMem x) ≠ 0x1000 := by decide
      rw [reach_snoc]
      exact hframes _ (sampleMem_present hlink.1)

/-- Page 512 lacks its last table, and gets one in frame number 0x1000. -/
theorem roomyMachine_room : Room roomyMachine [0, 0] [1] [0x1000] where
  linked := by decide
  writable := by decide
  missing := ⟨by decide, by decide, trivial⟩
  supply := Supply.cons (supplies_of_allocates acpiMap.wellFormed (by decide)
    roomyMachine_allocates) (Supply.nil _)
  fresh := by
    intro addr haddr
    rw [List.mem_singleton.mp haddr]
    exact sampleMem_fresh
  nodup := by simp

/-- Mapping page 512 makes a table and leaves page 0 in frame 5. -/
theorem mapPageToFrame_keeps_iff_roomyMachine :
    Keeps roomyMachine 512 7 3 0 ∧
    hwTranslate roomyMachine.mem roomyMachine.cr3 (pageStartingAddress 0) = some 0x5000 :=
  ⟨((mapPageToFrame_keeps_iff roomyMachine sampleMachine_recursive sampleMem_distinct 512 0
    (by decide) (by decide) 7 3).2.1 [0, 0] [1] [0x1000] (by decide) roomyMachine_room).mpr
      (Or.inl (by decide)), by decide⟩

/-- Mapping page 2^32 moves page 0 from frame 5 to frame 0. -/
theorem mapPageToFrame_disturbs :
    Recursive sampleMachine.mem sampleMachine.cr3 ∧
    DistinctTables sampleMachine.mem sampleMachine.cr3 ∧
    CanonicalPage 0x100000000 ∧ vaIndex 4 (pageStartingAddress 0x100000000) ≠ 511 ∧
    CanonicalPage 0 ∧ vaIndex 4 (pageStartingAddress 0) ≠ 511 ∧
    ¬ Keeps sampleMachine 0x100000000 7 3 0 := by
  refine ⟨sampleMachine_recursive, sampleMem_distinct, by decide, by decide, by decide, by decide,
    ?_⟩
  have ht : Tree sampleMachine := ⟨sampleMachine_recursive, sampleMem_distinct⟩
  have hroom : Room sampleMachine [0, 0, 0] [] [] :=
    ⟨by decide, by decide, trivial, Supply.nil _, by simp, List.nodup_nil⟩
  rw [keeps_iff_of_room ht (by decide) (by decide) (by decide) hroom 7 3]
  decide

end Utero.Mmu
