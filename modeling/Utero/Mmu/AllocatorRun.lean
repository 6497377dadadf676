/-
  Whole runs of the frame allocator, from `mmap_init` on.

  * `frames_nodup`: if every call of a run takes a chunk that starts below 4 GiB, the
    numbers returned are pairwise distinct (they increase). Above 4 GiB the address is cut
    to 32 bits before the number is looked up, and an old number comes back
    (`frames_repeat`).
  * `picked`: which chunks the runs on a map take, by the map and the reserved ranges alone. A
    property of calls holds in all runs exactly if it holds for the chunks picked
    (`forall_calls_iff`).
  * `handedOut_clear_iff`: the page that `next_table_create` uses (`mmap_read` of the number)
    stays clear of the kernel and of the boot information in every run exactly if no range
    begins inside a chunk picked, and, behind a first chunk of an entry that is picked, the
    next chunk that is not RESERVED meets no range. The allocator checks one address only,
    and for the first chunk of an entry it is the address of another chunk.
  * `handedOut_usable`: that page is an aligned page of AVAILABLE memory, if the entry is
    AVAILABLE, starts on a page boundary and has a second chunk.
  * `frameStartingAddress_eq_iff`: paging reads a number as address / 4096, the allocator as
    an ordinal. They agree in every run exactly if no memory below the entries of the chunks
    picked is left out by earlier chunks, or one page if it is the first chunk of an entry.
-/
import Mathlib.Order.CompletePartialOrder
import Mathlib.Order.Interval.Set.Disjoint
import Utero.Mmu.Allocator

namespace Utero.Mmu

open Utero.Lib

/-! ## Runs -/

/-- One call: the globals before it and what it leaves behind. -/
structure AllocCall where
  before : MmapState
  result : AllocateResult

/-- A run of calls from `s` to `s'`, each made while an eligible chunk is left. -/
inductive AllocRun : MmapState → List AllocCall → MmapState → Prop
  | nil (s : MmapState) : AllocRun s [] s
  | cons {s s' : MmapState} {r : AllocateResult} {calls : List AllocCall}
      (eligible : HasEligible s) (returns : Returns (fun n => mmapAllocateFrame n s) r)
      (rest : AllocRun r.state calls s') : AllocRun s (⟨s, r⟩ :: calls) s'

theorem AllocRun.append {s t u : MmapState} {calls calls' : List AllocCall}
    (h : AllocRun s calls t) (h' : AllocRun t calls' u) : AllocRun s (calls ++ calls') u := by
  induction h with
  | nil => exact h'
  | cons eligible returns rest ih => exact AllocRun.cons eligible returns (ih h')

/-- A call changes `next_free_frame` only. -/
theorem mmapAllocateFrame_keeps {n : Nat} {s : MmapState} {r : AllocateResult}
    (h : mmapAllocateFrame n s = some r) :
    r.state.memoryArea = s.memoryArea ∧ r.state.toReservedAreas = s.toReservedAreas := by
  induction n generalizing s with
  | zero => simp [mmapAllocateFrame] at h
  | succ n ih =>
    simp only [mmapAllocateFrame] at h
    obtain ⟨addr, -, h⟩ := Option.bind_eq_some_iff.mp h
    split at h
    · have hrec := ih h
      exact hrec
    · obtain ⟨num, -, h⟩ := Option.bind_eq_some_iff.mp h
      cases h
      exact ⟨rfl, rfl⟩

/-- What every call of a run on map `m` with reserved areas `r` has. -/
structure CallOn (m : MemoryMap) (r : ReservedAreas) (call : AllocCall) : Prop where
  area : call.before.memoryArea = m.area
  areas : call.before.toReservedAreas = r
  eligible : HasEligible call.before
  returns : Returns (fun n => mmapAllocateFrame n call.before) call.result

theorem AllocRun.callOn {m : MemoryMap} {r : ReservedAreas} {s s' : MmapState}
    {calls : List AllocCall} (h : AllocRun s calls s') (hs : s.memoryArea = m.area)
    (hr : s.toReservedAreas = r) : ∀ call ∈ calls, CallOn m r call := by
  induction h with
  | nil => simp
  | cons eligible returns rest ih =>
    obtain ⟨n, hn⟩ := returns
    obtain ⟨harea, hareas⟩ := mmapAllocateFrame_keeps (hn n (le_refl n))
    intro call hcall
    rcases List.mem_cons.mp hcall with rfl | hcall
    · exact ⟨hs, hr, eligible, ⟨n, hn⟩⟩
    · exact ih (harea.trans hs) (hareas.trans hr) call hcall

/-- The chunk a call in state `s` should take starts below 4 GiB. -/
def SelectsLow (s : MmapState) : Prop :=
  ∀ k c, Selects s k c → c.start.toNat < 2 ^ 32

/-- On a map below 4 GiB every call meets this. -/
theorem MemoryMap.Below4GiB.selectsLow {m : MemoryMap} (hm : m.Below4GiB) {s : MmapState}
    (hs : s.memoryArea = m.area) : SelectsLow s := by
  intro k c h
  have := hm.start_lt (List.mem_of_getElem? (hs ▸ h.get))
  omega

/-- The result of a call whose chunk is below 4 GiB. -/
theorem CallOn.result_eq {m : MemoryMap} {r : ReservedAreas} {call : AllocCall}
    (h : CallOn m r call) (hlow : SelectsLow call.before) :
    ∃ k c, Selects call.before k c ∧ m.area.chunks[k]? = some c ∧ c.start.toNat < 2 ^ 32 ∧
      call.result = allocated call.before k c := by
  obtain ⟨k, c, hsel⟩ := h.eligible.selects
  have hc := hlow k c hsel
  exact ⟨k, c, hsel, h.area ▸ hsel.get, hc, h.returns.unique (allocate_returns h.area hsel hc)⟩

/-! ## Frame numbers increase -/

/-- Every number is at least `next_free_frame` at its call, which is above every earlier
    number. -/
theorem frames_increase {m : MemoryMap} {s s' : MmapState} {calls : List AllocCall}
    (h : AllocRun s calls s') (hs : s.memoryArea = m.area)
    (hlow : ∀ call ∈ calls, SelectsLow call.before) :
    (∀ call ∈ calls, s.nextFreeFrame.toNat ≤ call.result.frame.toNat) ∧
      calls.Pairwise fun a b => a.result.frame.toNat < b.result.frame.toNat := by
  induction h with
  | nil => simp
  | @cons s s' r calls eligible returns rest ih =>
    have hcall : CallOn m s.toReservedAreas ⟨s, r⟩ := ⟨hs, rfl, eligible, returns⟩
    obtain ⟨k, c, hsel, hget, hc, hres⟩ := hcall.result_eq (hlow _ (List.mem_cons_self ..))
    dsimp only at hsel hres
    subst hres
    have hk := m.ordinal_lt hget hc
    have hframe := allocated_frame_toNat s c hk
    have hnext := allocated_nextFreeFrame_toNat s c hk
    have hge := frameNumber_ge k c
    have hnff := hsel.le
    obtain ⟨hlater, hpair⟩ := ih hs fun call hcall => hlow call (List.mem_cons_of_mem _ hcall)
    refine ⟨?_, List.pairwise_cons.mpr ⟨?_, hpair⟩⟩
    · intro call hcall
      rcases List.mem_cons.mp hcall with rfl | hcall
      · dsimp only
        omega
      · have := hlater call hcall
        omega
    · intro call hcall
      have := hlater call hcall
      dsimp only
      omega

/-- In every run from `mmap_init` in which each call takes a chunk below 4 GiB, the frame
    numbers returned are pairwise distinct. -/
theorem frames_nodup (m : MemoryMap) (r : ReservedAreas) {calls : List AllocCall}
    {s' : MmapState} (h : AllocRun (mmapInit m.area r) calls s')
    (hlow : ∀ call ∈ calls, SelectsLow call.before) :
    (calls.map fun call => call.result.frame).Nodup := by
  obtain ⟨-, hpair⟩ := frames_increase h rfl hlow
  rw [List.Nodup, List.pairwise_map]
  refine hpair.imp ?_
  intro a b hab heq
  rw [heq] at hab
  omega

/-- Twelve KiB of memory at 0 and twelve at 4 GiB. -/
def highMap : MemoryMap where
  area := tagOf [⟨0, 0x3001, multibootMemoryAvailable⟩,
    ⟨0x100000000, 0x3001, multibootMemoryAvailable⟩]
  wellFormed := ⟨by decide, ⟨by decide, by decide⟩, by decide⟩
  sorted := by decide

/-- The first two calls on `highMap`. -/
def highCalls : List AllocCall :=
  [⟨stateAt highMap sampleAreas 1, ⟨0x1000, 1, stateAt highMap sampleAreas 2⟩⟩,
    ⟨stateAt highMap sampleAreas 2, ⟨0x2000, 2, stateAt highMap sampleAreas 3⟩⟩]

theorem highCalls_run : AllocRun (mmapInit highMap.area sampleAreas) highCalls
    (stateAt highMap sampleAreas 3) := by
  refine AllocRun.cons (hasEligible_self (c := ⟨⟨0, 0x3001, 1⟩, 1⟩) (by decide) (by decide))
    (returns_of_eval rfl) ?_
  refine AllocRun.cons (hasEligible_self (c := ⟨⟨0, 0x3001, 1⟩, 2⟩) (by decide) (by decide))
    (returns_of_eval rfl) ?_
  exact AllocRun.nil _

theorem frames_nodup_highCalls :
    AllocRun (mmapInit highMap.area sampleAreas) highCalls (stateAt highMap sampleAreas 3) ∧
      (highCalls.map fun call => call.result.frame).Nodup := by
  refine ⟨highCalls_run, frames_nodup highMap sampleAreas highCalls_run ?_⟩
  intro call hcall k c hsel
  simp only [highCalls, List.mem_cons, List.not_mem_nil, or_false] at hcall
  rcases hcall with rfl | rfl
  · obtain ⟨-, rfl⟩ := hsel.unique
      (selects_self (c := ⟨⟨0, 0x3001, 1⟩, 1⟩) (by decide) (by decide))
    decide
  · obtain ⟨-, rfl⟩ := hsel.unique
      (selects_self (c := ⟨⟨0, 0x3001, 1⟩, 2⟩) (by decide) (by decide))
    decide

/-- On `highMap` the third call takes the chunk at 4 GiB, looks up address 0 and returns
    number 1 again. -/
theorem frames_repeat :
    ¬ ∀ (m : MemoryMap) (r : ReservedAreas) (calls : List AllocCall) (s' : MmapState),
      AllocRun (mmapInit m.area r) calls s' →
        (calls.map fun call => call.result.frame).Nodup := by
  intro h
  have hthird : AllocRun (stateAt highMap sampleAreas 3)
      [⟨stateAt highMap sampleAreas 3, ⟨0x100000000, 1, stateAt highMap sampleAreas 2⟩⟩]
      (stateAt highMap sampleAreas 2) :=
    AllocRun.cons (hasEligible_self (c := ⟨⟨0x100000000, 0x3001, 1⟩, 0⟩) (by decide) (by decide))
      (returns_of_eval rfl) (AllocRun.nil _)
  exact absurd (h highMap sampleAreas _ _ (highCalls_run.append hthird)) (by decide)

/-! ## Which chunks the runs take -/

/-- The chunk with ordinal `k` is taken by every run that is long enough: it is eligible, unless
    its predecessor is taken and is the first chunk of an entry. Such a chunk gets the number of
    its successor, and `next_free_frame` goes past both. The search begins at ordinal 1. -/
def picked (r : ReservedAreas) (cs : List Chunk) : Nat → Bool
  | 0 => false
  | k + 1 =>
    match cs[k]?, cs[k + 1]? with
    | some c, some d => decide (d.Eligible r) && !(picked r cs k && c.index == 0)
    | _, _ => false

theorem picked_succ {r : ReservedAreas} {cs : List Chunk} {k : Nat} {c d : Chunk}
    (hc : cs[k]? = some c) (hd : cs[k + 1]? = some d) :
    picked r cs (k + 1) = true ↔ d.Eligible r ∧ ¬ (picked r cs k = true ∧ c.index = 0) := by
  simp only [picked, hc, hd, Bool.and_eq_true, decide_eq_true_eq, Bool.not_eq_true',
    Bool.and_eq_false_iff, beq_eq_false_iff_ne, ne_eq, not_and_or, Bool.not_eq_true]

theorem exists_pred {cs : List Chunk} {k : Nat} {d : Chunk} (hd : cs[k + 1]? = some d) :
    ∃ c, cs[k]? = some c := by
  obtain ⟨hlt, -⟩ := List.getElem?_eq_some_iff.mp hd
  exact ⟨_, List.getElem?_eq_getElem (by omega)⟩

/-- A chunk picked is eligible and has a predecessor. -/
theorem picked_eligible {r : ReservedAreas} {cs : List Chunk} {k : Nat} {c : Chunk}
    (hget : cs[k]? = some c) (h : picked r cs k = true) : c.Eligible r ∧ 0 < k := by
  cases k with
  | zero => cases h
  | succ k =>
    obtain ⟨d, hd⟩ := exists_pred hget
    exact ⟨((picked_succ hd hget).mp h).1, Nat.succ_pos k⟩

/-- The globals of a run on the map: `next_free_frame` is that of the start, or stands behind the
    number of a chunk picked. -/
structure OnMap (m : MemoryMap) (r : ReservedAreas) (s : MmapState) : Prop where
  area : s.memoryArea = m.area
  areas : s.toReservedAreas = r
  next : s.nextFreeFrame.toNat = 1 ∨ ∃ k c, m.area.chunks[k]? = some c ∧
    picked r m.area.chunks k = true ∧ s.nextFreeFrame.toNat = frameNumber k c + 1

namespace OnMap

variable {m : MemoryMap} {r : ReservedAreas} {s : MmapState} (h : OnMap m r s)

include h

/-- The first eligible chunk from `next_free_frame` on is picked. -/
theorem picked_of_selects {k : Nat} {c : Chunk} (hsel : Selects s k c) :
    m.area.chunks[k]? = some c ∧ picked r m.area.chunks k = true := by
  have hget : m.area.chunks[k]? = some c := h.area ▸ hsel.get
  have hel : c.Eligible r := h.areas ▸ hsel.holds
  have hle := hsel.le
  refine ⟨hget, ?_⟩
  cases k with
  | zero =>
    rcases h.next with hone | ⟨j, d, -, -, hnext⟩
    · omega
    · omega
  | succ k =>
    obtain ⟨b, hb⟩ := exists_pred hget
    refine (picked_succ hb hget).mpr ⟨hel, ?_⟩
    rintro ⟨hpicked, hindex⟩
    obtain ⟨hbel, hpos⟩ := picked_eligible hb hpicked
    -- the predecessor is eligible, so `next_free_frame` is past it
    have hbefore : k < s.nextFreeFrame.toNat := by
      by_contra hk
      have := hsel.least k b (by omega) (h.area ▸ hb) (h.areas ▸ hbel)
      omega
    rcases h.next with hone | ⟨j, d, hd, hj, hnext⟩
    · omega
    · rw [frameNumber] at hnext
      split at hnext
      · -- `next_free_frame` went past the chunk after the first one of an entry
        obtain rfl : k = j + 1 := by omega
        exact ((picked_succ hd hb).mp hpicked).2 ⟨hj, ‹_›⟩
      · obtain rfl : k = j := by omega
        obtain rfl : b = d := Option.some.inj (hb.symm.trans hd)
        exact absurd hindex ‹_›

theorem allocated_next (hm : m.Below4GiB) {k : Nat} {c : Chunk} (hsel : Selects s k c) :
    OnMap m r (allocated s k c).state ∧
      (allocated s k c).state.nextFreeFrame.toNat = frameNumber k c + 1 := by
  obtain ⟨hget, hpicked⟩ := h.picked_of_selects hsel
  have hlow := hm.start_lt (List.mem_of_getElem? hget)
  have hnext := allocated_nextFreeFrame_toNat s c (m.ordinal_lt hget (by omega))
  exact ⟨⟨h.area, h.areas, Or.inr ⟨k, c, hget, hpicked, hnext⟩⟩, hnext⟩

/-- A run from here comes to every chunk picked that is not behind. -/
theorem run_to (hm : m.Below4GiB) {k : Nat} {c : Chunk} (hget : m.area.chunks[k]? = some c)
    (hpicked : picked r m.area.chunks k = true) (hle : s.nextFreeFrame.toNat ≤ k) :
    ∃ calls s', AllocRun s calls s' ∧ ∃ call ∈ calls, Selects call.before k c := by
  -- induction on the ordinals between `next_free_frame` and the chunk
  obtain ⟨d, hd⟩ : ∃ d, d = k - s.nextFreeFrame.toNat := ⟨_, rfl⟩
  induction d using Nat.strong_induction_on generalizing s with
  | _ d ih =>
    have hel := (picked_eligible hget hpicked).1
    have heligible : HasEligible s := ⟨k, c, hle, h.area ▸ hget, h.areas ▸ hel⟩
    obtain ⟨i, a, hsel⟩ := heligible.selects
    obtain ⟨hi, hipicked⟩ := h.picked_of_selects hsel
    have hik : i ≤ k := hsel.least k c hle (h.area ▸ hget) (h.areas ▸ hel)
    have hlow := hm.start_lt (List.mem_of_getElem? hi)
    have hreturns := allocate_returns h.area hsel (by omega)
    obtain ⟨hnext, hnextFree⟩ := h.allocated_next hm hsel
    rcases Nat.eq_or_lt_of_le hik with rfl | hlt
    · obtain rfl : a = c := Option.some.inj (hi.symm.trans hget)
      exact ⟨_, _, AllocRun.cons heligible hreturns (AllocRun.nil _), _,
        List.mem_cons_self .., hsel⟩
    · have hilow := hsel.le
      have hge := frameNumber_ge i a
      have hbehind : frameNumber i a + 1 ≤ k := by
        rw [frameNumber]
        split
        · -- the chunk after the first one of an entry is not picked
          by_contra hk
          obtain rfl : k = i + 1 := by omega
          exact ((picked_succ hi hget).mp hpicked).2 ⟨hipicked, ‹_›⟩
        · omega
      obtain ⟨calls, s', hrun, call, hcall, hcallsel⟩ :=
        ih (k - (frameNumber i a + 1)) (by omega) hnext (by omega) (by rw [hnextFree])
      exact ⟨_, s', AllocRun.cons heligible hreturns hrun, call, List.mem_cons_of_mem _ hcall,
        hcallsel⟩

end OnMap

theorem onMap_init (m : MemoryMap) (r : ReservedAreas) : OnMap m r (mmapInit m.area r) :=
  ⟨rfl, rfl, Or.inl rfl⟩

/-- Every call of a run is made with such globals. -/
theorem AllocRun.onMap {m : MemoryMap} (hm : m.Below4GiB) {r : ReservedAreas} {s s' : MmapState}
    {calls : List AllocCall} (h : AllocRun s calls s') (hs : OnMap m r s) :
    ∀ call ∈ calls, OnMap m r call.before := by
  induction h with
  | nil => simp
  | @cons s s' res calls eligible returns rest ih =>
    obtain ⟨k, c, hsel⟩ := eligible.selects
    have hlow := hm.start_lt (List.mem_of_getElem? (hs.picked_of_selects hsel).1)
    obtain rfl := returns.unique (allocate_returns hs.area hsel (by omega))
    intro call hcall
    rcases List.mem_cons.mp hcall with rfl | hcall
    · exact hs
    · exact ih (hs.allocated_next hm hsel).1 call hcall

/-- What depends on the chunk that a call takes holds in every call of every run exactly if it
    holds of every chunk picked. -/
theorem forall_calls_iff {m : MemoryMap} (hm : m.Below4GiB) {r : ReservedAreas}
    {Q : AllocCall → Prop} {P : Nat → Chunk → Prop}
    (hQ : ∀ call k c, CallOn m r call → Selects call.before k c → (Q call ↔ P k c)) :
    (∀ calls s', AllocRun (mmapInit m.area r) calls s' → ∀ call ∈ calls, Q call) ↔
      ∀ k c, m.area.chunks[k]? = some c → picked r m.area.chunks k = true → P k c := by
  constructor
  · intro hall k c hget hpicked
    have hpos := (picked_eligible hget hpicked).2
    obtain ⟨calls, s', hrun, call, hcall, hsel⟩ :=
      (onMap_init m r).run_to hm hget hpicked hpos
    exact (hQ call k c (hrun.callOn rfl rfl call hcall) hsel).mp (hall calls s' hrun call hcall)
  · intro hall calls s' hrun call hcall
    have hon := hrun.callOn rfl rfl call hcall
    obtain ⟨k, c, hsel⟩ := hon.eligible.selects
    obtain ⟨hget, hpicked⟩ := (hrun.onMap hm (onMap_init m r) call hcall).picked_of_selects hsel
    exact (hQ call k c hon hsel).mpr (hall k c hget hpicked)

/-- Twelve KiB of memory at 0. -/
def smallMap : MemoryMap where
  area := tagOf [⟨0, 0x3001, multibootMemoryAvailable⟩]
  wellFormed := ⟨by decide, ⟨by decide, by decide⟩, by decide⟩
  sorted := by decide

theorem smallMap_below4GiB : smallMap.Below4GiB := by
  unfold MemoryMap.Below4GiB
  decide

/-- Its chunks, of which the second and the third are picked. -/
theorem smallMap_picked {k : Nat} {c : Chunk} (hget : smallMap.area.chunks[k]? = some c)
    (hpicked : picked sampleAreas smallMap.area.chunks k = true) :
    (k = 1 ∨ k = 2) ∧ c = ⟨⟨0, 0x3001, 1⟩, k⟩ := by
  obtain ⟨hlt, -⟩ := List.getElem?_eq_some_iff.mp hget
  have hlen : smallMap.area.chunks.length = 3 := by decide
  obtain rfl | rfl | rfl : k = 0 ∨ k = 1 ∨ k = 2 := by omega
  · cases hpicked
  · have hone : smallMap.area.chunks[1]? = some ⟨⟨0, 0x3001, 1⟩, 1⟩ := by decide
    exact ⟨Or.inl rfl, Option.some.inj (hget.symm.trans hone)⟩
  · have htwo : smallMap.area.chunks[2]? = some ⟨⟨0, 0x3001, 1⟩, 2⟩ := by decide
    exact ⟨Or.inr rfl, Option.some.inj (hget.symm.trans htwo)⟩

/-! ## The page behind a frame number -/

/-- The chunk that the number of `c` names: `c`, or the next one if `c` is the first of its
    entry. -/
def Chunk.named (c : Chunk) : Chunk := ⟨c.entry, max c.index 1⟩

/-- The address `next_table_create` computes from the number a call returned. -/
def HandsOut (call : AllocCall) (addr : PhysicalAddress) : Prop :=
  Returns (fun n => mmapRead n call.before.memoryArea call.result.frame mmapGetAddr) addr

theorem named_getElem? {m : MemoryMap} {k : Nat} {c : Chunk}
    (hc : m.area.chunks[k]? = some c) (hn : c.named.index < chunkCount c.entry) :
    m.area.chunks[frameNumber k c]? = some c.named := by
  obtain ⟨e, j⟩ := c
  cases j with
  | zero => exact chunksOf_succ hc hn
  | succ j => simpa [frameNumber, Chunk.named] using hc

/-- `mmap_read` turns the number into the address of the chunk it names, when that chunk is
    in the entry of the selected one. -/
theorem CallOn.handsOut {m : MemoryMap} {r : ReservedAreas} {call : AllocCall}
    (h : CallOn m r call) {k : Nat} {c : Chunk} (hsel : Selects call.before k c)
    (hlow : c.start.toNat < 2 ^ 32) (hn : c.named.index < chunkCount c.entry) :
    HandsOut call c.named.start := by
  have hget : m.area.chunks[k]? = some c := h.area ▸ hsel.get
  have hk := m.ordinal_lt hget hlow
  have hres : call.result = allocated call.before k c :=
    h.returns.unique (allocate_returns h.area hsel hlow)
  have hframe := allocated_frame_toNat call.before c hk
  have hle := frameNumber_le k c
  unfold HandsOut
  rw [h.area, hres]
  refine mmapRead_getAddr m.wellFormed (k := frameNumber k c) ?_
  refine ⟨by omega, named_getElem? hget hn, hsel.holds.1, ?_⟩
  intro j _ hj _ _
  omega

theorem named_mem {m : MemoryMap} {k : Nat} {c : Chunk} (hc : m.area.chunks[k]? = some c)
    (hn : c.named.index < chunkCount c.entry) : c.named ∈ m.area.chunks :=
  List.mem_of_getElem? (named_getElem? hc hn)

/-! ## Reserved memory -/

/-- The page at `addr` meets neither [kernel_start, kernel_end) nor
    [multiboot_start, multiboot_end). -/
def PageClear (r : ReservedAreas) (addr : PhysicalAddress) : Prop :=
  Disjoint (Set.Ico addr.toNat (addr.toNat + 4096))
      (Set.Ico r.kernelStart.toNat r.kernelEnd.toNat) ∧
    Disjoint (Set.Ico addr.toNat (addr.toNat + 4096))
      (Set.Ico r.multibootStart.toNat r.multibootEnd.toNat)

/-- A non-empty range begins inside the chunk, above its start. -/
def BeginsInside (c : Chunk) (lo hi : PhysicalAddress) : Prop :=
  c.start.toNat < lo.toNat ∧ lo.toNat < c.start.toNat + 4096 ∧ lo.toNat < hi.toNat

/-- The page at `a` and the non-empty range [lo, hi) have an address in common. -/
def Meets (a lo hi : PhysicalAddress) : Prop :=
  lo.toNat < hi.toNat ∧ lo.toNat < a.toNat + 4096 ∧ a.toNat < hi.toNat

/-- The page at `a` meets neither range. -/
def MeetsNone (r : ReservedAreas) (a : PhysicalAddress) : Prop :=
  ¬ Meets a r.kernelStart r.kernelEnd ∧ ¬ Meets a r.multibootStart r.multibootEnd

/-- Where the page of the number of chunk `c`, with ordinal `k`, must be clear. For the first
    chunk of an entry this is the page of the next chunk that is not RESERVED, or the page at 0
    if there is none. For any other chunk it is its own, whose start lies outside the ranges. -/
structure NumberClear (r : ReservedAreas) (cs : List Chunk) (k : Nat) (c : Chunk) : Prop where
  own : c.index ≠ 0 →
    ¬ BeginsInside c r.kernelStart r.kernelEnd ∧ ¬ BeginsInside c r.multibootStart r.multibootEnd
  next : c.index = 0 → ∀ j d, FirstFrom (fun c => ¬ c.Reserved) cs (k + 1) j d →
    MeetsNone r d.start
  none : c.index = 0 → (∀ j d, k + 1 ≤ j → cs[j]? = some d → d.Reserved) → MeetsNone r 0

theorem disjoint_iff_not_meets (a lo hi : PhysicalAddress) :
    Disjoint (Set.Ico a.toNat (a.toNat + 4096)) (Set.Ico lo.toNat hi.toNat) ↔ ¬ Meets a lo hi := by
  unfold Meets
  rw [Set.Ico_disjoint_Ico]
  omega

theorem pageClear_iff (r : ReservedAreas) (a : PhysicalAddress) :
    PageClear r a ↔ MeetsNone r a := by
  rw [PageClear, MeetsNone, disjoint_iff_not_meets, disjoint_iff_not_meets]

/-- A range that does not hold the start of the chunk meets its page only from inside. -/
theorem meets_start_iff {c : Chunk} {lo hi : PhysicalAddress}
    (hout : ¬ (lo ≤ c.start ∧ c.start ≤ hi)) : Meets c.start lo hi ↔ BeginsInside c lo hi := by
  unfold Meets BeginsInside
  rw [BitVec.le_def, BitVec.le_def] at hout
  omega

theorem meetsNone_start_iff {r : ReservedAreas} {c : Chunk} (hc : c.Eligible r) :
    MeetsNone r c.start ↔ ¬ BeginsInside c r.kernelStart r.kernelEnd ∧
      ¬ BeginsInside c r.multibootStart r.multibootEnd := by
  rw [MeetsNone, meets_start_iff fun h => hc.2 (Or.inr h), meets_start_iff fun h => hc.2 (Or.inl h)]

/-- What `mmap_read` makes of the number of an eligible chunk. -/
theorem numberLookup_number_iff {r : ReservedAreas} {cs : List Chunk} {k : Nat} {c : Chunk}
    (hget : cs[k]? = some c) (hc : c.Eligible r) :
    (∀ a, NumberLookup cs (frameNumber k c) a → MeetsNone r a) ↔ NumberClear r cs k c := by
  by_cases hzero : c.index = 0
  · rw [frameNumber, if_pos hzero]
    constructor
    · intro h
      exact ⟨fun hne => absurd hzero hne, fun _ j d hfirst => h _ (Or.inl ⟨j, d, hfirst, rfl⟩),
        fun _ hall => h 0 (Or.inr ⟨hall, rfl⟩)⟩
    · rintro ⟨-, hnext, hnone⟩ a (⟨j, d, hfirst, rfl⟩ | ⟨hall, rfl⟩)
      · exact hnext hzero j d hfirst
      · exact hnone hzero hall
  · rw [frameNumber, if_neg hzero]
    have hself : FirstFrom (fun c => ¬ c.Reserved) cs k k c :=
      ⟨Nat.le_refl k, hget, hc.1, fun j _ hj _ _ => hj⟩
    constructor
    · intro h
      exact ⟨fun _ => (meetsNone_start_iff hc).mp (h _ (Or.inl ⟨k, c, hself, rfl⟩)),
        fun h0 => absurd h0 hzero, fun h0 => absurd h0 hzero⟩
    · rintro ⟨hown, -, -⟩ a (⟨j, d, hfirst, rfl⟩ | ⟨hall, -⟩)
      · rw [(hfirst.unique hself).2]
        exact (meetsNone_start_iff hc).mpr (hown hzero)
      · exact absurd (hall k c (Nat.le_refl k) hget) hc.1

/-- The page handed out by a call is found by the number search, from the number on. -/
theorem CallOn.handsOut_iff {m : MemoryMap} (hm : m.Below4GiB) {r : ReservedAreas}
    {call : AllocCall} (h : CallOn m r call) {k : Nat} {c : Chunk}
    (hsel : Selects call.before k c) (a : PhysicalAddress) :
    HandsOut call a ↔ NumberLookup m.area.chunks (frameNumber k c) a := by
  have hget : m.area.chunks[k]? = some c := h.area ▸ hsel.get
  have hlow := hm.start_lt (List.mem_of_getElem? hget)
  have hres : call.result = allocated call.before k c :=
    h.returns.unique (allocate_returns h.area hsel (by omega))
  have hframe := allocated_frame_toNat call.before c (m.ordinal_lt hget (by omega))
  have hread := mmapRead_returns m.wellFormed (allocated call.before k c).frame mmapGetAddr
    (Or.inr rfl)
  have hfound := scan_numberLookup m.area.chunks (allocated call.before k c).frame
  rw [hframe] at hfound
  rw [HandsOut, h.area, hres]
  constructor
  · intro ha
    rw [ha.unique hread]
    exact hfound
  · intro ha
    rw [ha.unique hfound]
    exact hread

/-- On a map below 4 GiB, every page handed out in every run is clear of the kernel and of the
    boot information exactly if the number of every chunk picked is `NumberClear`. -/
theorem handedOut_clear_iff (m : MemoryMap) (hm : m.Below4GiB) (r : ReservedAreas) :
    (∀ calls s', AllocRun (mmapInit m.area r) calls s' → ∀ call ∈ calls,
        ∃ addr, HandsOut call addr ∧ PageClear r addr) ↔
      ∀ k c, m.area.chunks[k]? = some c → picked r m.area.chunks k = true →
        NumberClear r m.area.chunks k c := by
  refine forall_calls_iff hm fun call k c hon hsel => ?_
  have hget : m.area.chunks[k]? = some c := hon.area ▸ hsel.get
  have hel : c.Eligible r := hon.areas ▸ hsel.holds
  rw [← numberLookup_number_iff hget hel]
  simp only [hon.handsOut_iff hm hsel, pageClear_iff]
  constructor
  · rintro ⟨addr, haddr, hclear⟩ a ha
    rw [ha.unique haddr]
    exact hclear
  · intro hall
    have hfound := scan_numberLookup m.area.chunks (BitVec.ofNat 32 (frameNumber k c))
    have hlow := hm.start_lt (List.mem_of_getElem? hget)
    have hk := m.ordinal_lt hget (by omega)
    have hle := frameNumber_le k c
    rw [BitVec.toNat_ofNat, Nat.mod_eq_of_lt (by omega)] at hfound
    exact ⟨_, hfound, hall _ hfound⟩

/-- On `smallMap` no range begins inside the two chunks picked. -/
theorem handedOut_clear_iff_smallMap :
    smallMap.Below4GiB ∧ ∀ calls s', AllocRun (mmapInit smallMap.area sampleAreas) calls s' →
      ∀ call ∈ calls, ∃ addr, HandsOut call addr ∧ PageClear sampleAreas addr := by
  refine ⟨smallMap_below4GiB, (handedOut_clear_iff smallMap smallMap_below4GiB sampleAreas).mpr ?_⟩
  intro k c hget hpicked
  obtain ⟨hk, rfl⟩ := smallMap_picked hget hpicked
  have hindex : k ≠ 0 := by omega
  refine ⟨fun _ => ?_, fun h0 => absurd h0 hindex, fun h0 => absurd h0 hindex⟩
  unfold BeginsInside
  obtain rfl | rfl := hk <;> decide

/-- The first call on `acpiMap`. -/
def acpiFirst (r : ReservedAreas) : AllocCall :=
  ⟨stateAt acpiMap r 1, ⟨0x1000, 1, stateAt acpiMap r 2⟩⟩

theorem acpiFirst_run : AllocRun (mmapInit acpiMap.area sampleAreas) [acpiFirst sampleAreas]
    (stateAt acpiMap sampleAreas 2) :=
  AllocRun.cons (hasEligible_self (c := ⟨⟨0, 0x3001, 1⟩, 1⟩) (by decide) (by decide))
    (returns_of_eval rfl) (AllocRun.nil _)

theorem acpiFirst_selects {k : Nat} {c : Chunk}
    (hsel : Selects (acpiFirst sampleAreas).before k c) : c = ⟨⟨0, 0x3001, 1⟩, 1⟩ :=
  (hsel.unique (selects_self (c := ⟨⟨0, 0x3001, 1⟩, 1⟩) (by decide) (by decide))).2

/-- The boot information starts 8 bytes into the chunk at 0x1000. -/
def overlapAreas : ReservedAreas where
  kernelStart := 0x100000
  kernelEnd := 0x200000
  multibootStart := 0x1008
  multibootEnd := 0x1100

/-- The chunk at 0x1000 is handed out all the same. -/
theorem handedOut_meets_multiboot :
    ¬ ∀ (m : MemoryMap), m.Below4GiB → ∀ r : ReservedAreas, 8 ∣ r.multibootStart.toNat →
      ∀ (calls : List AllocCall) (s' : MmapState), AllocRun (mmapInit m.area r) calls s' →
        ∀ call ∈ calls, ∃ addr, HandsOut call addr ∧ PageClear r addr := by
  intro h
  have hrun : AllocRun (mmapInit acpiMap.area overlapAreas) [acpiFirst overlapAreas]
      (stateAt acpiMap overlapAreas 2) :=
    AllocRun.cons (hasEligible_self (c := ⟨⟨0, 0x3001, 1⟩, 1⟩) (by decide) (by decide))
      (returns_of_eval rfl) (AllocRun.nil _)
  obtain ⟨addr, hout, -, hdisj⟩ := h acpiMap acpiMap_below4GiB overlapAreas (by decide)
    _ _ hrun (acpiFirst overlapAreas) (List.mem_cons_self ..)
  have haddr : addr = 0x1000 := hout.unique ((mmapRead_fuelMono _ _ _).returns (n := 20) rfl)
  subst haddr
  rw [Set.Ico_disjoint_Ico] at hdisj
  exact absurd hdisj (by decide)

/-! ## Usable memory -/

/-- The page at `addr` is an aligned page inside an AVAILABLE entry. -/
def PageUsable (area : MultibootTagMmap) (addr : PhysicalAddress) : Prop :=
  4096 ∣ addr.toNat ∧ ∃ e ∈ area.entries, e.type = multibootMemoryAvailable ∧
    e.addr.toNat ≤ addr.toNat ∧ addr.toNat + 4096 ≤ e.addr.toNat + e.len.toNat

instance (area : MultibootTagMmap) : DecidablePred (PageUsable area) :=
  fun _ => inferInstanceAs (Decidable (_ ∧ _))

/-- The entry is AVAILABLE, starts on a page boundary and has a second chunk. -/
structure UsableEntry (e : MultibootMmapEntry) : Prop where
  available : e.type = multibootMemoryAvailable
  aligned : 4096 ∣ e.addr.toNat
  second : 1 < chunkCount e

/-- In every run whose calls all select a chunk of a `UsableEntry` below 4 GiB, every page
    handed out is an aligned page of AVAILABLE memory. -/
theorem handedOut_usable (m : MemoryMap) (r : ReservedAreas) {calls : List AllocCall}
    {s' : MmapState} (h : AllocRun (mmapInit m.area r) calls s')
    (husable : ∀ call ∈ calls, ∀ k c, Selects call.before k c →
      UsableEntry c.entry ∧ c.start.toNat < 2 ^ 32) :
    ∀ call ∈ calls, ∃ addr, HandsOut call addr ∧ PageUsable m.area addr := by
  intro call hcall
  have hon := h.callOn rfl rfl call hcall
  obtain ⟨k, c, hsel, hget, hlow, -⟩ :=
    hon.result_eq fun k c hsel => (husable call hcall k c hsel).2
  obtain ⟨havail, halign, hsecond⟩ := (husable call hcall k c hsel).1
  have hindex := (mem_chunksOf.mp (List.mem_of_getElem? hget)).2
  have hin : c.named.index < chunkCount c.entry := max_lt hindex hsecond
  have hmem := named_mem hget hin
  have hstart := m.start_toNat hmem
  have hend := m.start_lt_end hmem
  have hentry : c.named.entry = c.entry := rfl
  rw [hentry] at hstart hend
  refine ⟨c.named.start, hon.handsOut hsel hlow hin, ?_, c.entry, ?_, havail, ?_, ?_⟩
  · rw [hstart]
    exact Nat.dvd_add halign (Nat.dvd_mul_right _ _)
  · exact (mem_chunksOf.mp hmem).1
  · omega
  · omega

theorem handedOut_usable_acpiFirst :
    ∃ addr, HandsOut (acpiFirst sampleAreas) addr ∧ PageUsable acpiMap.area addr := by
  refine handedOut_usable acpiMap sampleAreas acpiFirst_run ?_ (acpiFirst sampleAreas)
    (List.mem_cons_self ..)
  intro call hcall k c hsel
  obtain rfl : call = acpiFirst sampleAreas := by simpa using hcall
  obtain rfl := acpiFirst_selects hsel
  exact ⟨⟨by decide, by decide, by decide⟩, by decide⟩

/-- The third call on `acpiMap` takes the ACPI tables. -/
def acpiThird : AllocCall :=
  ⟨stateAt acpiMap sampleAreas 3, ⟨0x10000, 4, stateAt acpiMap sampleAreas 5⟩⟩

theorem acpiThird_run : AllocRun (mmapInit acpiMap.area sampleAreas)
    [acpiFirst sampleAreas,
      ⟨stateAt acpiMap sampleAreas 2, ⟨0x2000, 2, stateAt acpiMap sampleAreas 3⟩⟩, acpiThird]
    (stateAt acpiMap sampleAreas 5) := by
  refine acpiFirst_run.append (AllocRun.cons
    (hasEligible_self (c := ⟨⟨0, 0x3001, 1⟩, 2⟩) (by decide) (by decide))
    (returns_of_eval rfl) (AllocRun.cons ?_ (returns_of_eval rfl) (AllocRun.nil _)))
  exact hasEligible_self (c := ⟨⟨0x10000, 0x4001, 3⟩, 0⟩) (by decide) (by decide)

theorem handedOut_not_available :
    ¬ ∀ (m : MemoryMap), m.Below4GiB → ∀ (r : ReservedAreas) (calls : List AllocCall)
      (s' : MmapState), AllocRun (mmapInit m.area r) calls s' →
        ∀ call ∈ calls, ∃ addr, HandsOut call addr ∧ PageUsable m.area addr := by
  intro h
  obtain ⟨addr, hout, husable⟩ := h acpiMap acpiMap_below4GiB sampleAreas _ _ acpiThird_run
    acpiThird (by simp)
  have haddr : addr = 0x11000 := hout.unique ((mmapRead_fuelMono _ _ _).returns (n := 20) rfl)
  subst haddr
  exact absurd husable (by decide)

/-! ## The two numberings -/

theorem frameStartingAddress_allocated {m : MemoryMap} (hm : m.Below4GiB) {s : MmapState} {k : Nat}
    {c : Chunk} (hget : m.area.chunks[k]? = some c) :
    frameStartingAddress (allocated s k c).frame = c.start ↔
      4096 * frameNumber k c = c.start.toNat := by
  have hfit := hm.start_lt (List.mem_of_getElem? hget)
  have hk := m.ordinal_lt hget (by omega)
  have hle := frameNumber_le k c
  have hspaced := m.chunks_spaced.mul_le hget
  have hframe := allocated_frame_toNat s c hk
  have hstart : (frameStartingAddress (allocated s k c).frame).toNat = 4096 * frameNumber k c := by
    simp only [frameStartingAddress, BitVec.toNat_setWidth, BitVec.toNat_mul, BitVec.toNat_ofNat,
      hframe]
    omega
  rw [← BitVec.toNat_inj, hstart]

/-- The ordinal of a chunk: the chunks of the entries before its own, and those before it in its
    entry. -/
theorem exists_entry_of_getElem? {es : List MultibootMmapEntry} {k : Nat} {c : Chunk}
    (h : (chunksOf es)[k]? = some c) :
    ∃ pre post, es = pre ++ c.entry :: post ∧ k = (chunksOf pre).length + c.index := by
  induction es generalizing k with
  | nil => simp [chunksOf] at h
  | cons e es ih =>
    rw [chunksOf_cons] at h
    by_cases hk : k < chunkCount e
    · rw [List.getElem?_append_left (by rw [entryChunks_length]; exact hk),
        entryChunks_getElem? hk] at h
      cases h
      exact ⟨[], es, rfl, by simp [chunksOf]⟩
    · rw [List.getElem?_append_right (by rw [entryChunks_length]; omega), entryChunks_length] at h
      obtain ⟨pre, post, rfl, heq⟩ := ih h
      refine ⟨e :: pre, post, rfl, ?_⟩
      rw [chunksOf_cons, List.length_append, entryChunks_length]
      omega

theorem chunksOf_getElem? {pre post : List MultibootMmapEntry} {e : MultibootMmapEntry} {j : Nat}
    (hj : j < chunkCount e) :
    (chunksOf (pre ++ e :: post))[(chunksOf pre).length + j]? = some ⟨e, j⟩ := by
  have happend : chunksOf (pre ++ e :: post) = chunksOf pre ++ chunksOf (e :: post) := by
    simp [chunksOf]
  rw [happend, List.getElem?_append_right (by omega), Nat.add_sub_cancel_left, chunksOf_cons,
    List.getElem?_append_left (by rw [entryChunks_length]; exact hj), entryChunks_getElem? hj]

/-- The memory below entry `e` that the chunks of the entries before it leave out: holes, and the
    last page of an entry. -/
def uncovered (pre : List MultibootMmapEntry) (e : MultibootMmapEntry) : Int :=
  e.addr.toNat - 4096 * (chunksOf pre).length

/-- On a map below 4 GiB, `frame_starting_address` of the numbers of every run gives the addresses
    the calls accepted exactly if, below every entry with a chunk picked, no memory is left out,
    or one page if the chunk is the first of the entry. -/
theorem frameStartingAddress_eq_iff (m : MemoryMap) (hm : m.Below4GiB) (r : ReservedAreas) :
    (∀ calls s', AllocRun (mmapInit m.area r) calls s' → ∀ call ∈ calls,
        frameStartingAddress call.result.frame = call.result.currentAddr) ↔
      ∀ pre e post j, m.area.entries = pre ++ e :: post → j < chunkCount e →
        picked r m.area.chunks ((chunksOf pre).length + j) = true →
          uncovered pre e = if j = 0 then 4096 else 0 := by
  have hcall : ∀ call k c, CallOn m r call → Selects call.before k c →
      (frameStartingAddress call.result.frame = call.result.currentAddr ↔
        4096 * frameNumber k c = c.start.toNat) := by
    intro call k c hon hsel
    have hget : m.area.chunks[k]? = some c := hon.area ▸ hsel.get
    have hlow := hm.start_lt (List.mem_of_getElem? hget)
    rw [hon.returns.unique (allocate_returns hon.area hsel (by omega)),
      ← frameStartingAddress_allocated hm hget]
    rfl
  rw [forall_calls_iff hm hcall]
  -- the ordinal of a chunk counts the chunks below its entry
  have hchunk : ∀ pre (e : MultibootMmapEntry) j, (⟨e, j⟩ : Chunk) ∈ m.area.chunks →
      (4096 * frameNumber ((chunksOf pre).length + j) ⟨e, j⟩ = (Chunk.mk e j).start.toNat ↔
        uncovered pre e = if j = 0 then 4096 else 0) := by
    intro pre e j hmem
    rw [m.start_toNat hmem, frameNumber, uncovered]
    dsimp only
    split <;> omega
  constructor
  · intro hall pre e post j hsplit hj hpicked
    have hget : m.area.chunks[(chunksOf pre).length + j]? = some ⟨e, j⟩ := by
      rw [MultibootTagMmap.chunks, hsplit]
      exact chunksOf_getElem? hj
    exact (hchunk pre e j (List.mem_of_getElem? hget)).mp (hall _ _ hget hpicked)
  · rintro hall k ⟨e, j⟩ hget hpicked
    have hmem := List.mem_of_getElem? hget
    obtain ⟨pre, post, hsplit, rfl⟩ := exists_entry_of_getElem? hget
    exact (hchunk pre e j hmem).mpr
      (hall pre e post j hsplit (mem_chunksOf.mp hmem).2 hpicked)

/-- The one entry of `smallMap` begins at 0, and its first chunk is not picked. -/
theorem frameStartingAddress_eq_iff_smallMap :
    smallMap.Below4GiB ∧ ∀ calls s', AllocRun (mmapInit smallMap.area sampleAreas) calls s' →
      ∀ call ∈ calls, frameStartingAddress call.result.frame = call.result.currentAddr := by
  refine ⟨smallMap_below4GiB,
    (frameStartingAddress_eq_iff smallMap smallMap_below4GiB sampleAreas).mpr ?_⟩
  intro pre e post j hsplit hj hpicked
  have hentries : smallMap.area.entries = [⟨0, 0x3001, multibootMemoryAvailable⟩] := by decide
  have hget : smallMap.area.chunks[(chunksOf pre).length + j]? = some ⟨e, j⟩ := by
    rw [MultibootTagMmap.chunks, hsplit]
    exact chunksOf_getElem? hj
  obtain ⟨hk, heq⟩ := smallMap_picked hget hpicked
  have hlength := congrArg List.length (hentries.symm.trans hsplit)
  simp only [List.length_append, List.length_cons, List.length_nil] at hlength
  obtain rfl : pre = [] := List.length_eq_zero_iff.mp (by omega)
  rw [hentries] at hsplit
  obtain rfl := (List.cons.inj hsplit).1
  have hzero : (chunksOf []).length = 0 := rfl
  have hj0 : j ≠ 0 := by omega
  rw [if_neg hj0]
  decide

/-- Below the ACPI tables lie three chunks and a hole of 52 KiB. -/
theorem frameStartingAddress_ne_currentAddr :
    ¬ ∀ (m : MemoryMap), m.Below4GiB → ∀ (r : ReservedAreas) (calls : List AllocCall)
      (s' : MmapState), AllocRun (mmapInit m.area r) calls s' → ∀ call ∈ calls,
        frameStartingAddress call.result.frame = call.result.currentAddr := by
  intro h
  have heq := h acpiMap acpiMap_below4GiB sampleAreas _ _ acpiThird_run acpiThird (by simp)
  exact absurd heq (by decide)

end Utero.Mmu
