/-
  Runs of the calls that map pages, from the tables of `boot.asm` on.

  `map_page_to_frame`, `identity_map` and `map` (`src/mmu/paging.c`) are the three ways to map a
  page. `ReadyRun s calls s'`: each call finds its tables, or absent entries and fresh frames for
  new ones. The links of the tables are writable at boot and stay so. What the processor makes of
  the addresses off the recursive entry is the address space; a call changes it in one page, which
  then shows frame 0 whatever frame was asked for (`mapsZero`). So over a run it is changed in the
  pages of the calls and nowhere else (`readyRun_space`).

  `mapRun_space`: after `set_up_page_tables` and any such run, the first GiB is mapped to itself,
  the pages of the calls show frame 0, and every other address outside the recursive window
  faults.
-/
import Utero.Mmu.BootTables
import Utero.Mmu.Isolation

namespace Utero.Mmu

open Utero.Lib

/-! ## Address spaces -/

/-- What an address is translated to. -/
abbrev AddressSpace := BitVec 64 → Option (BitVec 52)

/-- One page shows frame 0. -/
def AddressSpace.withZero (m : AddressSpace) (page : BitVec 64) : AddressSpace := fun v =>
  if pageContainingAddress v = page then some (0#40 ++ vaOffset v) else m v

def Machine.space (s : Machine) : AddressSpace := hwTranslate s.mem s.cr3

/-- The two agree off the recursive entry. -/
def Shows (s : Machine) (m : AddressSpace) : Prop :=
  ∀ v, vaIndex 4 v ≠ 511 → s.space v = m v

theorem vaIndices_page (v : BitVec 64) :
    vaIndices (pageStartingAddress (pageContainingAddress v)) = vaIndices v := by
  unfold vaIndices
  rw [vaIndex_page _ (by decide), vaIndex_page _ (by decide), vaIndex_page _ (by decide),
    vaIndex_page _ (by decide)]

theorem canonicalPage_containing {v : BitVec 64} (h : Canonical v) :
    CanonicalPage (pageContainingAddress v) := by
  constructor
  · rw [pageContainingAddress, BitVec.toNat_udiv, pageSize_toNat]
    omega
  · rw [pageStartingAddress_eq, pageContainingAddress_eq]
    unfold Canonical at h ⊢
    apply BitVec.eq_of_getLsbD_eq
    intro k hk
    have hbit := congrArg (fun w => BitVec.getLsbD w k) h
    simp only [BitVec.getLsbD_signExtend, BitVec.getLsbD_setWidth, BitVec.msb_eq_getLsbD_last,
      BitVec.getLsbD_shiftLeft, BitVec.getLsbD_ushiftRight] at hbit ⊢
    grind

/-- The addresses of a page are those with its path. -/
theorem inPage_iff {v : BitVec 64} (h : Canonical v) (p : BitVec 64) :
    pageContainingAddress v = narrow p ↔
      vaIndices v = tablePath (narrow p) ++ [lastIndex (narrow p)] := by
  have hpath : tablePath (narrow p) ++ [lastIndex (narrow p)] =
      vaIndices (pageStartingAddress (narrow p)) := rfl
  rw [hpath, ← vaIndices_page v]
  constructor
  · intro heq
    rw [heq]
  · exact page_eq_of_path (canonicalPage_containing h) (canonicalPage_narrow p)

theorem canonical_of_page {v p : BitVec 64} (h : pageContainingAddress v = narrow p) :
    Canonical v := by
  have hlt := narrow_lt p
  rw [← h, pageContainingAddress, BitVec.toNat_udiv, pageSize_toNat] at hlt
  exact canonical_of_lt (by omega)

/-! ## One call -/

section Call

variable {s : Machine} (ht : Tree s) {p : BitVec 64}
  (hl : Linked s.mem s.cr3 (tablePath (narrow p)))

include ht hl

theorem tree_mapped (flags : BitVec 8) : Tree (mapped s (narrow p) flags) :=
  ⟨(mapped_path ht.recursive hl (apart_of_tree ht hl) flags).1,
    distinct_update_last ht.recursive ht.distinct (by simp [tablePath]) hl
      (tablePath_head_narrow p) (mappedEntry flags)⟩

/-- The written word shows in the addresses of its page only. -/
theorem mapsZero (flags : BitVec 8) :
    Shows (mapped s (narrow p) flags) (s.space.withZero (narrow p)) := by
  intro v hv
  unfold AddressSpace.withZero Machine.space
  by_cases hc : Canonical v
  · by_cases hpage : pageContainingAddress v = narrow p
    · rw [if_pos hpage]
      have hindices := (inPage_iff hc p).mp hpage
      obtain ⟨-, hlinked, -⟩ := mapped_path ht.recursive hl (apart_of_tree ht hl) flags
      have hentry := mapped_entry ht.recursive hl (apart_of_tree ht hl) flags
      have hwalk := walk_append hlinked [lastIndex (narrow p)]
      rw [walk_last] at hwalk
      unfold pageSlot at hentry
      rw [hentry, if_pos (present_mappedEntry flags), frame_mappedEntry, ← hindices] at hwalk
      unfold hwTranslate
      rw [if_pos hc, hwalk]
      rfl
    · rw [if_neg hpage]
      have hagree := agreesAlong_other ht.recursive ht.distinct (by simp [tablePath]) hl
        (tablePath_head_narrow p) (vaIndices v) (by simp [vaIndices])
        (fun h => hv (Option.some.inj h)) (fun h => hpage ((inPage_iff hc p).mpr h))
        (mappedEntry flags)
      unfold hwTranslate
      rw [if_pos hc, if_pos hc]
      exact congrArg _ hagree.walk_eq
  · rw [if_neg fun h => hc (canonical_of_page h)]
    unfold hwTranslate
    rw [if_neg hc, if_neg hc]

/-- The links stay writable. -/
theorem writableLinks_mapped (hw : WritableLinks s.mem s.cr3) (flags : BitVec 8) :
    WritableLinks (mapped s (narrow p) flags).mem s.cr3 :=
  writableLinks_update_last ht.recursive ht.distinct (by simp [tablePath]) hl
    (tablePath_head_narrow p) (mappedEntry flags) hw

omit ht hl in
/-- With writable links the processor may write the entry of every page that has its tables. -/
theorem writablePath_of_links (hr : Recursive s.mem s.cr3) (hw : WritableLinks s.mem s.cr3)
    {page : BitVec 64} (hl : Linked s.mem s.cr3 (tablePath page)) : WritablePath s page := by
  have hself : Pte.writable (s.mem ⟨s.cr3, 511⟩) = true :=
    hw [] 511 (by simp) ⟨hr.link, trivial⟩
  rw [WritablePath, writablePath, hself, hw.walkWritable (by simp [tablePath]) hl]
  rfl

end Call

theorem TableStep.writableLinks {s s1 : Machine} {is : List (BitVec 9)} {i : BitVec 9}
    (h : TableStep s is i s1) (hl : Linked s.mem s.cr3 is) (hlen : is.length ≤ 2)
    (hw : WritableLinks s.mem s.cr3) : WritableLinks s1.mem s1.cr3 := by
  cases h with
  | present link => exact hw
  | absent absent notHuge allocates fresh =>
    exact (attach_of_absent hl hlen absent notHuge fresh).writableLinks hw (writable_created _ _)

theorem Prepares.writableLinks {s s' : Machine} {is js : List (BitVec 9)}
    (h : Prepares s is js s') (hl : Linked s.mem s.cr3 is) (hlen : (is ++ js).length ≤ 3)
    (hw : WritableLinks s.mem s.cr3) : WritableLinks s'.mem s'.cr3 := by
  induction h with
  | nil => exact hw
  | @cons s s1 s' is js i step rest ih =>
    have happend : is ++ i :: js = is ++ [i] ++ js := by simp
    rw [happend] at hlen
    have hislen := length_le_of_append hlen
    exact ih (step.linked hl hislen) hlen (step.writableLinks hl hislen hw)

/-- The calls that map a page. -/
inductive MapCall where
  | mapPageToFrame (page : BitVec 64) (frame : Frame) (flags : BitVec 8)
  | identityMap (frame : Frame) (flags : BitVec 8)
  | map (page : BitVec 64) (flags : BitVec 8)

namespace MapCall

def run (fuel : Nat) (s : Machine) : MapCall → Option Machine
  | .mapPageToFrame page frame flags => Mmu.mapPageToFrame fuel s page frame flags
  | .identityMap frame flags => Mmu.identityMap fuel s frame flags
  | .map page flags => Mmu.map fuel s page flags

/-- The page asked for. -/
def page : MapCall → BitVec 64
  | .mapPageToFrame page _ _ => page
  | .identityMap frame _ => pageContainingAddress (frameStartingAddress frame)
  | .map page _ => page

def flags : MapCall → BitVec 8
  | .mapPageToFrame _ _ flags => flags
  | .identityMap _ flags => flags
  | .map _ flags => flags

/-- The state in which the call comes to the tables: `map` has taken a frame before. -/
def Begins (s : Machine) : MapCall → Machine → Prop
  | .map _ _, t => ∃ r, Returns (fun n => mmapAllocateFrame n s.mmap) r ∧
      t = { s with mmap := r.state }
  | _, t => t = s

theorem Begins.same {s t : Machine} {call : MapCall} (h : call.Begins s t) :
    t.mem = s.mem ∧ t.cr3 = s.cr3 := by
  cases call with
  | mapPageToFrame page frame flags =>
    obtain rfl : t = s := h
    exact ⟨rfl, rfl⟩
  | identityMap frame flags =>
    obtain rfl : t = s := h
    exact ⟨rfl, rfl⟩
  | map page flags =>
    obtain ⟨r, -, rfl⟩ := h
    exact ⟨rfl, rfl⟩

theorem Begins.tree {s t : Machine} {call : MapCall} (h : call.Begins s t) (ht : Tree s) :
    Tree t := by
  obtain ⟨hmem, hcr3⟩ := h.same
  refine ⟨?_, ?_⟩
  · rw [hmem, hcr3]
    exact ht.recursive
  · rw [hmem, hcr3]
    exact ht.distinct

/-- The call adds tables and then has those of its page. -/
theorem grows {s t u : Machine} {call : MapCall} (hbegin : call.Begins s t) (ht : Tree s)
    (hprep : Prepares t [] (tablePath (narrow call.page)) u) :
    Grows t u ∧ Linked u.mem u.cr3 (tablePath (narrow call.page)) :=
  hprep.grows (hbegin.tree ht) trivial (by simp [tablePath]) (tablePath_head_narrow _)

/-- From the state in which it comes to the tables, the call maps its page to frame 0. -/
theorem returns {s t u : Machine} {call : MapCall} (hbegin : call.Begins s t) (ht : Tree s)
    (hprep : Prepares t [] (tablePath (narrow call.page)) u)
    (hw : WritablePath u (narrow call.page)) :
    Returns (fun n => call.run n s) (mapped u (narrow call.page) call.flags) := by
  cases call with
  | mapPageToFrame page frame flags =>
    obtain rfl : t = s := hbegin
    exact (mapPageToFrame_ready ht hprep hw frame flags).2.2
  | identityMap frame flags =>
    obtain rfl : t = s := hbegin
    exact (mapPageToFrame_ready ht hprep hw frame flags).2.2
  | map page flags =>
    obtain ⟨r, hallocate, rfl⟩ := hbegin
    have ht' : Tree { s with mmap := r.state } := ⟨ht.recursive, ht.distinct⟩
    exact hallocate.bind (mapPageToFrame_ready ht' hprep hw r.frame flags).2.2

end MapCall

/-! ## Runs -/

def runCalls (fuel : Nat) (s : Machine) (calls : List MapCall) : Option Machine :=
  calls.foldlM (fun s call => call.run fuel s) s

/-- Each call finds its tables, or room for them. -/
inductive ReadyRun : Machine → List MapCall → Machine → Prop
  | nil (s : Machine) : ReadyRun s [] s
  | cons {s t u s' : Machine} {call : MapCall} {calls : List MapCall}
      (begins : call.Begins s t) (prepares : Prepares t [] (tablePath (narrow call.page)) u)
      (rest : ReadyRun (mapped u (narrow call.page) call.flags) calls s') :
      ReadyRun s (call :: calls) s'

/-- The page of an address is one of those the calls get to. -/
def Targeted (calls : List MapCall) (v : BitVec 64) : Prop :=
  ∃ call ∈ calls, pageContainingAddress v = narrow call.page

instance (calls : List MapCall) (v : BitVec 64) : Decidable (Targeted calls v) :=
  inferInstanceAs (Decidable (∃ call ∈ calls, _))

/-- The pages of the calls show frame 0, the others are as before. -/
def AddressSpace.after (m : AddressSpace) (calls : List MapCall) : AddressSpace := fun v =>
  if Targeted calls v then some (0#40 ++ vaOffset v) else m v

theorem AddressSpace.after_nil (m : AddressSpace) : m.after [] = m := by
  funext v
  refine if_neg ?_
  rintro ⟨call, hcall, -⟩
  simp at hcall

theorem AddressSpace.after_cons (m : AddressSpace) (call : MapCall) (calls : List MapCall) :
    m.after (call :: calls) = (m.withZero (narrow call.page)).after calls := by
  funext v
  unfold AddressSpace.after AddressSpace.withZero
  have hcons : Targeted (call :: calls) v ↔
      pageContainingAddress v = narrow call.page ∨ Targeted calls v := by
    unfold Targeted
    simp only [List.mem_cons, exists_eq_or_imp]
  by_cases hrest : Targeted calls v
  · rw [if_pos (hcons.mpr (.inr hrest)), if_pos hrest]
  · rw [if_neg hrest]
    by_cases hpage : pageContainingAddress v = narrow call.page
    · rw [if_pos (hcons.mpr (.inl hpage)), if_pos hpage]
    · rw [if_neg hpage, if_neg fun h => (hcons.mp h).elim hpage hrest]

/-- The pages of a run, in address spaces that agree where it matters. -/
theorem AddressSpace.after_congr {m m' : AddressSpace} {v : BitVec 64} (h : m v = m' v)
    (calls : List MapCall) : m.after calls v = m'.after calls v := by
  unfold AddressSpace.after
  rw [h]

/-- A property of the machine that the steps of `next_table_create` and the writing of an entry
    keep is kept along a run. -/
theorem ReadyRun.keeps {P : Machine → Prop}
    (hmmap : ∀ s t, t.mem = s.mem → t.cr3 = s.cr3 → P s → P t)
    (hstep : ∀ s s1 is i, TableStep s is i s1 → P s → P s1)
    (hmapped : ∀ s p flags, Tree s → Linked s.mem s.cr3 (tablePath (narrow p)) → P s →
      P (mapped s (narrow p) flags))
    {s s' : Machine} {calls : List MapCall} (h : ReadyRun s calls s') (ht : Tree s) (hs : P s) :
    P s' := by
  have hprepares : ∀ {s s' is js}, Prepares s is js s' → P s → P s' := by
    intro s s' is js hprep
    induction hprep with
    | nil => exact id
    | cons step _ ih => exact fun hs => ih (hstep _ _ _ _ step hs)
  induction h with
  | nil => exact hs
  | @cons s t u s' call calls begins prepares rest ih =>
    obtain ⟨hmem, hcr3⟩ := begins.same
    obtain ⟨hgrows, hl⟩ := MapCall.grows begins ht prepares
    have hu := hprepares prepares (hmmap s t hmem hcr3 hs)
    exact ih (tree_mapped hgrows.tree hl _) (hmapped u _ _ hgrows.tree hl hu)

/-- The address space over a run. -/
theorem readyRun_space {s s' : Machine} {calls : List MapCall} (h : ReadyRun s calls s')
    (ht : Tree s) (hw : WritableLinks s.mem s.cr3) :
    Returns (fun n => runCalls n s calls) s' ∧ Tree s' ∧ s'.cr3 = s.cr3 ∧
      Shows s' (s.space.after calls) := by
  induction h with
  | nil s =>
    rw [AddressSpace.after_nil]
    exact ⟨returns_const s, ht, rfl, fun v _ => rfl⟩
  | @cons s t u s' call calls begins prepares rest ih =>
    obtain ⟨hmem, hcr3⟩ := begins.same
    obtain ⟨hgrows, hl⟩ := MapCall.grows begins ht prepares
    have hwt : WritableLinks t.mem t.cr3 := by
      rw [hmem, hcr3]
      exact hw
    have hwu : WritableLinks u.mem u.cr3 := prepares.writableLinks trivial (by simp [tablePath]) hwt
    have hreturns := MapCall.returns begins ht prepares
      (writablePath_of_links hgrows.tree.recursive hwu hl)
    obtain ⟨hrun, ht', hcr3', hshows⟩ := ih (tree_mapped hgrows.tree hl _)
      (writableLinks_mapped hgrows.tree hl hwu _)
    refine ⟨hreturns.bind hrun, ht', hcr3'.trans (hgrows.cr3.trans hcr3), fun v hv => ?_⟩
    have hspace : u.space v = s.space v := by
      have hwalk := hgrows.walk (vaIndices v) rfl fun h => hv (Option.some.inj h)
      unfold Machine.space hwTranslate
      rw [hwalk, hmem, hcr3]
    have hone := mapsZero hgrows.tree hl call.flags v hv
    rw [hshows v hv, AddressSpace.after_cons]
    refine AddressSpace.after_congr (hone.trans ?_) calls
    unfold AddressSpace.withZero
    rw [hspace]

/-! ## The tables of `boot.asm` -/

section Boot

variable {t : BootTables} {mem : PhysMem}

theorem not_link_pageEntry (i : BitVec 9) : ¬ Pte.Link (pageEntry i) := by
  rintro ⟨-, hhuge⟩
  exact absurd (hhuge.symm.trans (pageEntry_flags i).2.2) (by decide)

/-- The links of the three tables. -/
theorem BootMapped.link_cases (h : BootMapped t mem) {f : FrameNo} {i : BitVec 9}
    (hf : f = tableFrame t.p4 ∨ f = tableFrame t.p3 ∨ f = tableFrame t.p2)
    (hlink : Pte.Link (mem ⟨f, i⟩)) :
    (f = tableFrame t.p4 ∧ i = 511 ∧ Pte.frame (mem ⟨f, i⟩) = tableFrame t.p4) ∨
      (f = tableFrame t.p4 ∧ i = 0 ∧ Pte.frame (mem ⟨f, i⟩) = tableFrame t.p3) ∨
      (f = tableFrame t.p3 ∧ i = 0 ∧ Pte.frame (mem ⟨f, i⟩) = tableFrame t.p2) := by
  have hzero : ¬ Pte.Link 0 := by decide
  rcases hf with rfl | rfl | rfl
  · by_cases hlast : i = 511
    · rw [hlast, h.last4, frame_linkEntry]
      exact .inl ⟨rfl, rfl, rfl⟩
    · by_cases hfirst : i = 0
      · rw [hfirst, h.first4, frame_linkEntry]
        exact .inr (.inl ⟨rfl, rfl, rfl⟩)
      · rw [h.rest4 i hfirst hlast] at hlink
        exact absurd hlink hzero
  · by_cases hfirst : i = 0
    · rw [hfirst, h.first3, frame_linkEntry]
      exact .inr (.inr ⟨rfl, rfl, rfl⟩)
    · rw [h.rest3 i hfirst] at hlink
      exact absurd hlink hzero
  · rw [h.pages2 i] at hlink
    exact absurd hlink (not_link_pageEntry i)

theorem BootMapped.reach_cases (h : BootMapped t mem) {is : List (BitVec 9)}
    (hl : Linked mem (tableFrame t.p4) is) :
    reach mem (tableFrame t.p4) is = tableFrame t.p4 ∨
      reach mem (tableFrame t.p4) is = tableFrame t.p3 ∨
      reach mem (tableFrame t.p4) is = tableFrame t.p2 := by
  induction is using List.reverseRecOn with
  | nil => exact .inl rfl
  | append_singleton is i ih =>
    obtain ⟨his, hi⟩ := (linked_snoc _ _ _ _).mp hl
    rw [reach_snoc]
    rcases h.link_cases (ih his) hi with ⟨-, -, hframe⟩ | ⟨-, -, hframe⟩ | ⟨-, -, hframe⟩
    · exact .inl hframe
    · exact .inr (.inl hframe)
    · exact .inr (.inr hframe)

theorem BootMapped.writableLinks (h : BootMapped t mem) :
    WritableLinks mem (tableFrame t.p4) := by
  intro is i _ hl
  obtain ⟨his, hi⟩ := (linked_snoc _ _ _ _).mp hl
  rcases h.link_cases (h.reach_cases his) hi with ⟨hf, hi, -⟩ | ⟨hf, hi, -⟩ | ⟨hf, hi, -⟩
  · rw [hf, hi, h.last4, writable_linkEntry]
  · rw [hf, hi, h.first4, writable_linkEntry]
  · rw [hf, hi, h.first3, writable_linkEntry]

theorem BootMapped.distinct (h : BootMapped t mem) : DistinctTables mem (tableFrame t.p4) := by
  obtain ⟨h43, h42, h32⟩ := t.frames_distinct
  intro is i js j _ _ hl hl' heq
  obtain ⟨his, hi⟩ := (linked_snoc _ _ _ _).mp hl
  obtain ⟨hjs, hj⟩ := (linked_snoc _ _ _ _).mp hl'
  rw [reach_snoc, reach_snoc] at heq
  rcases h.link_cases (h.reach_cases his) hi with ⟨hf, hi, hframe⟩ | ⟨hf, hi, hframe⟩ |
      ⟨hf, hi, hframe⟩ <;>
    rcases h.link_cases (h.reach_cases hjs) hj with ⟨hg, hj, hframe'⟩ | ⟨hg, hj, hframe'⟩ |
      ⟨hg, hj, hframe'⟩ <;>
    rw [hframe, hframe'] at heq
  · exact ⟨hf.trans hg.symm, hi.trans hj.symm⟩
  · exact absurd heq h43
  · exact absurd heq h42
  · exact absurd heq.symm h43
  · exact ⟨hf.trans hg.symm, hi.trans hj.symm⟩
  · exact absurd heq h32
  · exact absurd heq.symm h42
  · exact absurd heq.symm h32
  · exact ⟨hf.trans hg.symm, hi.trans hj.symm⟩

/-- The three tables are on the path of the first GiB. -/
theorem LowMapped.linked (h : LowMapped t mem) :
    Linked mem (tableFrame t.p4) [0, 0] ∧ reach mem (tableFrame t.p4) [0] = tableFrame t.p3 ∧
      reach mem (tableFrame t.p4) [0, 0] = tableFrame t.p2 := by
  have h4 : Pte.frame (mem ⟨tableFrame t.p4, 0⟩) = tableFrame t.p3 := by
    rw [h.first4, frame_linkEntry]
  have h3 : Pte.frame (mem ⟨tableFrame t.p3, 0⟩) = tableFrame t.p2 := by
    rw [h.first3, frame_linkEntry]
  refine ⟨⟨?_, ?_, trivial⟩, h4, ?_⟩
  · rw [h.first4]
    exact link_linkEntry t.aligned3
  · rw [h4, h.first3]
    exact link_linkEntry t.aligned2
  · show Pte.frame (mem ⟨Pte.frame (mem ⟨tableFrame t.p4, 0⟩), 0⟩) = tableFrame t.p2
    rw [h4, h3]

/-- A link is put where nothing is, so not into the mapping of the first GiB. -/
theorem LowMapped.update_absent (h : LowMapped t mem) {x : Slot}
    (hx : Pte.present (mem x) = false) (v : BitVec 64) :
    LowMapped t (Function.update mem x v) := by
  have hkeep : ∀ y, Pte.present (mem y) = true → Function.update mem x v y = mem y := by
    intro y hy
    have hyx : y ≠ x := by
      intro heq
      rw [heq, hx] at hy
      exact absurd hy (by decide)
    exact Function.update_of_ne hyx v mem
  have h4 : Pte.present (mem ⟨tableFrame t.p4, 0⟩) = true := h.linked.1.1.1
  have h3 : Pte.present (mem ⟨tableFrame t.p3, 0⟩) = true := by
    rw [h.first3]
    exact (link_linkEntry t.aligned2).1
  have h2 : ∀ i, Pte.present (mem ⟨tableFrame t.p2, i⟩) = true := by
    intro i
    rw [h.pages2 i]
    exact (pageEntry_flags i).1
  exact ⟨(hkeep _ h4).trans h.first4, (hkeep _ h3).trans h.first3,
    fun i => (hkeep _ (h2 i)).trans (h.pages2 i)⟩

/-- The first GiB stays mapped as it is. -/
theorem lowMapped_readyRun {s s' : Machine} {calls : List MapCall} (h : ReadyRun s calls s')
    (ht : Tree s) (hcr3 : s.cr3 = tableFrame t.p4) (hlow : LowMapped t s.mem) :
    LowMapped t s'.mem := by
  have hkept := h.keeps (P := fun s => s.cr3 = tableFrame t.p4 ∧ LowMapped t s.mem) ?_ ?_ ?_ ht
    ⟨hcr3, hlow⟩
  · exact hkept.2
  · intro s s1 hmem hcr3 hs
    exact ⟨hcr3.trans hs.1, hmem ▸ hs.2⟩
  · intro s s1 is i hstep hs
    cases hstep with
    | present link => exact hs
    | absent absent notHuge allocates fresh => exact ⟨hs.1, hs.2.update_absent absent _⟩
  · intro s p flags ht hl hs
    obtain ⟨hlinked, hreach3, hreach2⟩ := hs.2.linked
    refine ⟨hs.1, ?_⟩
    -- the entry of a page is in a table of the fourth level
    have hne : ∀ js : List (BitVec 9), js.length ≤ 2 → Linked s.mem s.cr3 js →
        reach s.mem s.cr3 (tablePath (narrow p)) ≠ reach s.mem s.cr3 js := fun js hlen hjs =>
      (reach_ne_last ht.recursive ht.distinct (by simp [tablePath]) hl (tablePath_head_narrow p)
        hlen hjs).symm
    rw [← hs.1] at hlinked hreach3 hreach2
    refine hs.2.update ?_ ?_ ?_ _
    · rw [← hs.1]
      exact hne [] (by simp) trivial
    · rw [← hreach3]
      exact hne [0] (by simp) ⟨hlinked.1, trivial⟩
    · rw [← hreach2]
      exact hne [0, 0] (by simp) hlinked

/-- Where the last table of a page is there, `translate_page` gives the frame of the entry the
    processor uses. It is 0 if the page shows frame 0 or nothing. -/
theorem translatePage_eq_zero {s : Machine} (ht : Tree s) {page : BitVec 64}
    (h : Linked s.mem s.cr3 (tablePath (narrow page)) →
      s.space (pageStartingAddress (narrow page)) = some 0 ∨
        s.space (pageStartingAddress (narrow page)) = none) :
    translatePage s page = some 0 := by
  rw [translatePage_eq ht.recursive]
  by_cases hl : Linked s.mem s.cr3 (tablePath (narrow page))
  · rw [if_pos hl]
    by_cases hpresent : Pte.present (s.mem (pageSlot s (narrow page))) = true
    · have hgo : s.space (pageStartingAddress (narrow page)) = some _ :=
        hwTranslate_present (canonicalPage_narrow page).2 hl hpresent
      rcases h hl with hzero | hnone
      · rw [hgo, vaOffset_page] at hzero
        have hframe : Pte.frame (s.mem (pageSlot s (narrow page))) = 0 := by
          have happend := Option.some.inj hzero
          have hbits := congrArg (fun w => BitVec.extractLsb' 12 40 w) happend
          rw [BitVec.extractLsb'_append_eq_left] at hbits
          exact hbits
        refine congrArg some ((pointedFrame_present hpresent).trans ?_)
        rw [hframe]
        rfl
      · rw [hgo] at hnone
        exact absurd hnone (by simp)
    · exact congrArg some (if_neg hpresent)
  · rw [if_neg hl]

/-- Below 1 GiB there is no last table. -/
theorem LowMapped.not_linked (h : LowMapped t mem) (page : BitVec 64)
    (hlow : (pageStartingAddress page).toNat < 2 ^ 30) :
    ¬ Linked mem (tableFrame t.p4) (tablePath page) := by
  intro hl
  have hpath : tablePath page = [0, 0] ++ [vaIndex 2 (pageStartingAddress page)] := by
    have h4 : vaIndex 4 (pageStartingAddress page) = 0 := vaIndex_of_low hlow (by decide)
    have h3 : vaIndex 3 (pageStartingAddress page) = 0 := vaIndex_of_low hlow (by decide)
    unfold tablePath
    dsimp only
    rw [h4, h3]
    rfl
  rw [hpath, linked_snoc, h.linked.2.2, h.pages2] at hl
  exact not_link_pageEntry _ hl.2

/-- At boot nothing else is mapped. -/
theorem BootMapped.space_none (h : BootMapped t mem) {v : BitVec 64} (hv : 2 ^ 30 ≤ v.toNat)
    (h511 : vaIndex 4 v ≠ 511) : hwTranslate mem (tableFrame t.p4) v = none := by
  unfold hwTranslate
  by_cases hc : Canonical v
  · have habsent := h.absent hc (by
      by_cases hfirst : vaIndex 4 v = 0
      · exact .inr ⟨hfirst, hv⟩
      · exact .inl ⟨hfirst, h511⟩)
    unfold hwAbsent at habsent
    rw [if_pos hc, walk_absent habsent]
    rfl
  · rw [if_neg hc]

end Boot

/-- The machine on the tables `set_up_page_tables` left. -/
def bootMachine (t : BootTables) (b : BootMachine) (mmap : MmapState) : Machine :=
  ⟨b.mem, tableFrame t.p4, mmap⟩

/-- The address space after boot and any run of mappings that find room for their tables: the
    first GiB is mapped to itself, the pages the calls got to show frame 0, and the rest faults.
    `translate_page` gives 0 for every page. -/
theorem mapRun_space (t : BootTables) (b : BootMachine) (hzero : ZeroFilled t b.mem)
    (mmap : MmapState) :
    ∃ b', Returns (fun n => setUpPageTables t n b) b' ∧
      ∀ calls s', ReadyRun (bootMachine t b' mmap) calls s' →
        Returns (fun n => runCalls n (bootMachine t b' mmap) calls) s' ∧
        (∀ v : BitVec 64, v.toNat < 2 ^ 30 →
          hwTranslate s'.mem s'.cr3 v = some (v.setWidth 52)) ∧
        (∀ v : BitVec 64, 2 ^ 30 ≤ v.toNat → vaIndex 4 v ≠ 511 →
          hwTranslate s'.mem s'.cr3 v =
            if Targeted calls v then some (0#40 ++ vaOffset v) else none) ∧
        ∀ page, translatePage s' page = some 0 := by
  obtain ⟨b', hreturns, hmem⟩ := setUpPageTables_returns t hzero
  have hmapped := bootMapped hzero
  rw [← hmem] at hmapped
  have ht : Tree (bootMachine t b' mmap) := ⟨hmapped.recursive, hmapped.distinct⟩
  refine ⟨b', hreturns, fun calls s' hready => ?_⟩
  obtain ⟨hrun, ht', hcr3, hshows⟩ := readyRun_space hready ht hmapped.writableLinks
  have hcr3' : s'.cr3 = tableFrame t.p4 := hcr3
  have hlow := lowMapped_readyRun hready ht rfl hmapped.low
  have hhigh : ∀ v : BitVec 64, 2 ^ 30 ≤ v.toNat → vaIndex 4 v ≠ 511 →
      hwTranslate s'.mem s'.cr3 v =
        if Targeted calls v then some (0#40 ++ vaOffset v) else none := by
    intro v hv h511
    have hstart : (bootMachine t b' mmap).space v = none := hmapped.space_none hv h511
    refine (hshows v h511).trans ?_
    unfold AddressSpace.after
    rw [hstart]
  refine ⟨hrun, fun v hv => ?_, hhigh, fun page => translatePage_eq_zero ht' fun hl => ?_⟩
  · rw [hcr3']
    exact (hlow.translates_low hv).1
  · rw [hcr3'] at hl
    have hpage : 2 ^ 30 ≤ (pageStartingAddress (narrow page)).toNat :=
      Nat.le_of_not_lt fun hlt => hlow.not_linked (narrow page) hlt hl
    have hspace := hhigh _ hpage (narrow_index4 page)
    rw [vaOffset_page] at hspace
    unfold Machine.space
    rw [hspace]
    by_cases htarget : Targeted calls (pageStartingAddress (narrow page))
    · rw [if_pos htarget]
      exact .inl rfl
    · rw [if_neg htarget]
      exact .inr rfl

/-! ## A page above the first GiB -/

/-- Frames that are no table of the boot code, in memory that holds nothing else. -/
theorem BootMapped.fresh {t : BootTables} {mem : PhysMem} (h : BootMapped t mem) {a : FrameNo}
    (habsent : ∀ i, Pte.present (mem ⟨a, i⟩) = false) (h4 : a ≠ tableFrame t.p4)
    (h3 : a ≠ tableFrame t.p3) (h2 : a ≠ tableFrame t.p2) : Fresh mem (tableFrame t.p4) a := by
  refine ⟨habsent, fun is _ hl => ?_⟩
  rcases h.reach_cases hl with hreach | hreach | hreach
  · rw [hreach]
    exact h4.symm
  · rw [hreach]
    exact h3.symm
  · rw [hreach]
    exact h2.symm

/-- Memory after `set_up_page_tables` on empty memory. -/
def lowMem : PhysMem := withPages (withLinks lowTables fun _ => 0) (tableFrame lowTables.p2) 512

theorem lowMem_mapped : BootMapped lowTables lowMem :=
  bootMapped ⟨fun _ => rfl, fun _ => rfl, fun _ => rfl⟩

theorem lowMem_fresh {a : FrameNo} (h4 : a ≠ tableFrame lowTables.p4)
    (h3 : a ≠ tableFrame lowTables.p3) (h2 : a ≠ tableFrame lowTables.p2) :
    Fresh lowMem (tableFrame lowTables.p4) a := by
  refine lowMem_mapped.fresh (fun i => ?_) h4 h3 h2
  unfold lowMem
  rw [withPages_other _ _ _ h2, withLinks_other _ _ _ h4 h3]
  rfl

/-- A page whose last two tables are to be made, in frames `a` and `b`. -/
theorem prepares_two {s : Machine} {i j k : BitVec 9} {a b : PhysicalAddress} {m n : MmapState}
    (hi : Pte.Link (s.mem ⟨s.cr3, i⟩)) (hj : s.mem ⟨reach s.mem s.cr3 [i], j⟩ = 0)
    (hk : s.mem ⟨a.setWidth 40, k⟩ = 0) (ha : AllocatesTable s a m)
    (hb : AllocatesTable { s with mmap := m } b n) (hfa : Fresh s.mem s.cr3 (a.setWidth 40))
    (hfb : Fresh s.mem s.cr3 (b.setWidth 40)) (hab : b.setWidth 40 ≠ a.setWidth 40) :
    ∃ u, Prepares s [] [i, j, k] u := by
  have hl : Linked s.mem s.cr3 [i] := ⟨hi, trivial⟩
  have hattach := attach_of_absent (i := j) hl (by simp) (by rw [hj]; rfl) (by rw [hj]; rfl) hfa
  have hnew := hattach.linked_new.2
  rw [frame_created] at hnew
  have hslot : (withTable s [i] j a m).mem
      ⟨reach (withTable s [i] j a m).mem s.cr3 ([i] ++ [j]), k⟩ = 0 := by
    show attached s.mem s.cr3 [i] j _
      ⟨reach (attached s.mem s.cr3 [i] j _) s.cr3 ([i] ++ [j]), k⟩ = 0
    rw [hnew, attached, Function.update_of_ne, hk]
    exact fun heq => hfa.unused [i] (by simp) hl (congrArg Slot.frame heq).symm
  have hfresh := hattach.fresh_other hfb (by rw [frame_created]; exact hab)
  have hpresent := congrArg Pte.present hslot
  have hhuge := congrArg Pte.huge hslot
  exact ⟨withTable (withTable s [i] j a m) ([i] ++ [j]) k b n, .cons (.present hi) (.cons
    (.absent hattach.absent (congrArg Pte.huge hj) ha hfa)
    (.cons (.absent hpresent hhuge hb hfresh) (.nil _ _)))⟩

/-- Page 2^18 needs two new tables, which get the frames at 0x1000 and 0x2000. -/
theorem gigabyte_prepares : ∃ u, Prepares
    ⟨lowMem, tableFrame lowTables.p4, stateAt acpiMap sampleAreas 1⟩ []
    (tablePath (narrow 0x40000)) u := by
  have hpath : tablePath (narrow 0x40000) = [0, 1, 0] := by decide
  have hlinked := lowMem_mapped.low.linked
  rw [hpath]
  refine prepares_two (a := 0x1000) (b := 0x2000) (m := stateAt acpiMap sampleAreas 2)
    (n := stateAt acpiMap sampleAreas 3) hlinked.1.1 ?_ ?_ roomyMachine_allocates ?_ ?_ ?_ ?_
  · dsimp only
    rw [hlinked.2.1]
    exact lowMem_mapped.rest3 1 (by decide)
  · dsimp only
    unfold lowMem
    rw [withPages_other _ _ _ (by decide), withLinks_other _ _ _ (by decide) (by decide)]
  · exact ⟨⟨0x2000, 2, stateAt acpiMap sampleAreas 3⟩, returns_of_eval rfl, rfl,
      (mmapRead_fuelMono _ _ _).returns (n := 20) rfl⟩
  · exact lowMem_fresh (by decide) (by decide) (by decide)
  · exact lowMem_fresh (by decide) (by decide) (by decide)
  · decide

/-- Page 2^18 asked for in frame 7 shows frame 0, and the screen is where it was. -/
theorem mapRun_space_gigabyte :
    ∃ b' s', Returns (fun n => setUpPageTables lowTables n ⟨0, 0, 0, fun _ => 0⟩) b' ∧
      ReadyRun (bootMachine lowTables b' (stateAt acpiMap sampleAreas 1))
        [.mapPageToFrame 0x40000 7 3] s' ∧
      hwTranslate s'.mem s'.cr3 0x40000123 = some 0x123 ∧
      hwTranslate s'.mem s'.cr3 0xb8000 = some 0xb8000 := by
  have hzero : ZeroFilled lowTables (fun _ => 0) := ⟨fun _ => rfl, fun _ => rfl, fun _ => rfl⟩
  obtain ⟨b', hreturns, hall⟩ := mapRun_space lowTables ⟨0, 0, 0, fun _ => 0⟩ hzero
    (stateAt acpiMap sampleAreas 1)
  obtain ⟨b'', hreturns', hmem⟩ := setUpPageTables_returns lowTables
    (s := ⟨0, 0, 0, fun _ => 0⟩) hzero
  obtain rfl := hreturns.unique hreturns'
  obtain ⟨u, hprepares⟩ := gigabyte_prepares
  have hready : ReadyRun (bootMachine lowTables b' (stateAt acpiMap sampleAreas 1))
      [.mapPageToFrame 0x40000 7 3] (mapped u (narrow 0x40000) 3) := by
    refine .cons (t := bootMachine lowTables b' (stateAt acpiMap sampleAreas 1)) rfl ?_ (.nil _)
    unfold bootMachine
    rw [hmem]
    exact hprepares
  obtain ⟨-, hlow, hhigh, -⟩ := hall _ _ hready
  refine ⟨b', _, hreturns, hready, ?_, hlow 0xb8000 (by decide)⟩
  rw [hhigh 0x40000123 (by decide) (by decide), if_pos]
  · rfl
  · exact ⟨_, List.mem_singleton_self _, by decide⟩

end Utero.Mmu
