/-
  The memory map as a list of chunks, and `mmap_read` as a scan of that list.

  The entry loop of `mmap_read` visits `area.entries`, and inside an entry the chunk loop
  visits addr, addr + 4096, … as long as chunk + 4096 < addr + len: `chunkCount` of them.
  A chunk is its entry and its index there; its ordinal is its position in `area.chunks`,
  which counts the RESERVED chunks too.

  `scan` is `mmap_read` on the list. `mmapRead_returns`: for every tag with a positive entry
  size that lies an entry below the top of the 64-bit space, and whose entries stay a page
  below it (`WellFormed`), both loops end and `mmap_read` returns what `scan` gives, for every
  request and both modes.

  `MemoryMap` adds what the boot loader promises: entries sorted by address and disjoint.
  There the chunks are 4096 bytes apart (`chunks_spaced`), and the chunk before the first
  one of an entry ends strictly below it (`chunks_before_first`).
-/
import Utero.Lib.Search
import Utero.Mmu.Mmap

namespace Utero.Mmu

open Utero.Lib

/-! ## Entries and chunks -/

/-- The entries that the entry loop visits from address `p` on, at most `n` of them. -/
def MultibootTagMmap.entriesFrom (area : MultibootTagMmap) :
    Nat → BitVec 64 → List MultibootMmapEntry
  | 0, _ => []
  | n + 1, p =>
    if p < area.limit then area.entryAt p :: area.entriesFrom n (p + area.stride) else []

/-- A tag of 24-byte entries at address 0x9000. -/
def tagOf (es : List MultibootMmapEntry) : MultibootTagMmap where
  base := 0x9000
  size := BitVec.ofNat 32 (16 + 24 * es.length)
  entrySize := 24
  entryAt p := es.getD ((p.toNat - 0x9010) / 24) ⟨0, 0, 0⟩

/-- The entries the entry loop visits, in a tag that lies below the top of the address space. -/
def MultibootTagMmap.entries (area : MultibootTagMmap) : List MultibootMmapEntry :=
  area.entriesFrom area.size.toNat area.first

/-- The tag ends an entry or more below 2^64, so that the pointer to the entries cannot wrap. -/
structure MultibootTagMmap.Placed (area : MultibootTagMmap) : Prop where
  first : area.base.toNat + 16 < 2 ^ 64
  limit : area.base.toNat + area.size.toNat + area.entrySize.toNat ≤ 2 ^ 64

/-- How often the chunk loop runs in an entry. The page that would end exactly at the end of
    the entry is not visited: the loop test is strict. -/
def chunkCount (e : MultibootMmapEntry) : Nat :=
  (e.len.toNat - 1) / 4096

/-- The chunks of an entry are addr, addr + 4096, … as long as chunk + 4096 is below its end. -/
theorem lt_chunkCount_iff (e : MultibootMmapEntry) (j : Nat) :
    j < chunkCount e ↔
      e.addr.toNat + 4096 * j + 4096 < e.addr.toNat + e.len.toNat := by
  unfold chunkCount
  omega

def chunkAddr (e : MultibootMmapEntry) (j : Nat) : PhysicalAddress :=
  e.addr + BitVec.ofNat 64 (4096 * j)

structure Chunk where
  entry : MultibootMmapEntry
  index : Nat
  deriving DecidableEq

namespace Chunk

def start (c : Chunk) : PhysicalAddress := chunkAddr c.entry c.index

/-- The entry's type is RESERVED. -/
def Reserved (c : Chunk) : Prop := c.entry.type = multibootMemoryReserved

instance (c : Chunk) : Decidable c.Reserved := inferInstanceAs (Decidable (_ = _))

/-- The test of the address search. The upper bound is included. -/
def Matches (c : Chunk) (request : Frame) : Prop :=
  c.start ≤ request.setWidth 64 ∧ request.setWidth 64 ≤ c.start + pageSize

instance (c : Chunk) (request : Frame) : Decidable (c.Matches request) :=
  inferInstanceAs (Decidable (_ ∧ _))

end Chunk

/-- The chunks of an entry from index `j` on, `n` of them. -/
def entryChunks (e : MultibootMmapEntry) (j n : Nat) : List Chunk :=
  (List.range' j n).map (Chunk.mk e)

theorem entryChunks_succ (e : MultibootMmapEntry) (j n : Nat) :
    entryChunks e j (n + 1) = ⟨e, j⟩ :: entryChunks e (j + 1) n := by
  simp [entryChunks, List.range'_succ]

def chunksOf (es : List MultibootMmapEntry) : List Chunk :=
  es.flatMap fun e => entryChunks e 0 (chunkCount e)

theorem chunksOf_cons (e : MultibootMmapEntry) (es : List MultibootMmapEntry) :
    chunksOf (e :: es) = entryChunks e 0 (chunkCount e) ++ chunksOf es := rfl

def MultibootTagMmap.chunks (area : MultibootTagMmap) : List Chunk :=
  chunksOf area.entries

/-- `mmap_read` on the list of chunks. -/
def scan (mode : BitVec 8) : Frame → Frame → List Chunk → PhysicalAddress
  | _, _, [] => 0
  | curNum, request, c :: cs =>
    if mode = mmapGetNum ∧ c.Matches request then (curNum + 1).setWidth 64
    else if c.Reserved then
      scan mode (curNum + 1)
        (if mode = mmapGetAddr ∧ curNum = request then request + 1 else request) cs
    else if mode = mmapGetAddr ∧ curNum = request then c.start
    else scan mode (curNum + 1) request cs

/-! ## The loops are the scan -/

/-- The entry ends at least a page below 2^64, so the loop counter cannot wrap. -/
def Fits (e : MultibootMmapEntry) : Prop :=
  e.addr.toNat + e.len.toNat + 4096 < 2 ^ 64

instance : DecidablePred Fits := fun _ => inferInstanceAs (Decidable (_ < _))

theorem chunkAddr_zero (e : MultibootMmapEntry) : chunkAddr e 0 = e.addr := by
  simp [chunkAddr]

theorem chunkAddr_succ (e : MultibootMmapEntry) (j : Nat) :
    chunkAddr e (j + 1) = chunkAddr e j + pageSize := by
  apply BitVec.eq_of_toNat_eq
  simp only [chunkAddr, BitVec.toNat_add, BitVec.toNat_ofNat, pageSize_toNat]
  omega

theorem chunkAddr_toNat {e : MultibootMmapEntry} (he : Fits e) {j : Nat} (hj : j ≤ chunkCount e) :
    (chunkAddr e j).toNat = e.addr.toNat + 4096 * j := by
  unfold Fits at he
  unfold chunkCount at hj
  simp only [chunkAddr, BitVec.toNat_add, BitVec.toNat_ofNat]
  omega

/-- The loop test holds on the first `n` chunks of the entry and then fails. -/
def Counts (e : MultibootMmapEntry) (n : Nat) : Prop :=
  ∀ j ≤ n, chunkAddr e j + pageSize < e.addr + e.len ↔ j < n

theorem counts_chunkCount {e : MultibootMmapEntry} (he : Fits e) : Counts e (chunkCount e) := by
  intro j hj
  have haddr := chunkAddr_toNat he hj
  unfold Fits at he
  rw [BitVec.lt_def, BitVec.toNat_add, BitVec.toNat_add, haddr, pageSize_toNat, lt_chunkCount_iff]
  unfold chunkCount at hj
  omega

/-- The body of the chunk loop, read on the chunk it is at. -/
theorem mmapReadStep_chunk {area : MultibootTagMmap} (mode : BitVec 8) {p : BitVec 64} {j : Nat}
    (htest : chunkAddr (area.entryAt p) j + pageSize <
      (area.entryAt p).addr + (area.entryAt p).len) (cur req : Frame) :
    mmapReadStep area mode (.chunk p (chunkAddr (area.entryAt p) j)
        ((area.entryAt p).addr + (area.entryAt p).len) cur req) =
      let c : Chunk := ⟨area.entryAt p, j⟩
      let next := fun req' => ReadState.chunk p (chunkAddr (area.entryAt p) (j + 1))
        ((area.entryAt p).addr + (area.entryAt p).len) (cur + 1) req'
      if mode = mmapGetNum ∧ c.Matches req then .inr ((cur + 1).setWidth 64)
      else if c.Reserved then
        .inl (next (if mode = mmapGetAddr ∧ cur = req then req + 1 else req))
      else if mode = mmapGetAddr ∧ cur = req then .inr c.start
      else .inl (next req) := by
  simp only [mmapReadStep, chunkAddr_succ]
  rw [if_pos htest]
  rfl

/-- `scan` on a stretch of the list: the value returned, or the counters after it. -/
def scanTo (mode : BitVec 8) : Frame → Frame → List Chunk → (Frame × Frame) ⊕ PhysicalAddress
  | curNum, request, [] => .inl (curNum, request)
  | curNum, request, c :: cs =>
    if mode = mmapGetNum ∧ c.Matches request then .inr ((curNum + 1).setWidth 64)
    else if c.Reserved then
      scanTo mode (curNum + 1)
        (if mode = mmapGetAddr ∧ curNum = request then request + 1 else request) cs
    else if mode = mmapGetAddr ∧ curNum = request then .inr c.start
    else scanTo mode (curNum + 1) request cs

theorem scan_append (mode : BitVec 8) (cur req : Frame) (cs ds : List Chunk) :
    scan mode cur req (cs ++ ds) =
      match scanTo mode cur req cs with
      | .inl (cur', req') => scan mode cur' req' ds
      | .inr a => a := by
  induction cs generalizing cur req with
  | nil => rfl
  | cons c cs ih =>
    rw [List.cons_append, scan, scanTo]
    split
    · rfl
    · split
      · exact ih _ _
      · split
        · rfl
        · exact ih _ _

/-- What a stretch of chunks does to the loop in state `s`: it returns, or comes to the state
    that the counters are passed on to. -/
def Passes (step : ReadState → ReadState ⊕ PhysicalAddress) (s : ReadState)
    (next : Frame → Frame → ReadState) : (Frame × Frame) ⊕ PhysicalAddress → Prop
  | .inl (cur, req) => Visits step s (next cur req)
  | .inr a => Yields step s a

theorem Passes.again {step : ReadState → ReadState ⊕ PhysicalAddress} {s s' : ReadState}
    {next : Frame → Frame → ReadState} {out : (Frame × Frame) ⊕ PhysicalAddress}
    (hs : step s = .inl s') (h : Passes step s' next out) : Passes step s next out := by
  cases out with
  | inl c => exact Visits.next hs h
  | inr a => exact Yields.again hs h

/-- The chunk loop from chunk `j` on passes the rest of the entry. -/
theorem chunkLoop_passes {area : MultibootTagMmap} (mode : BitVec 8) {p : BitVec 64} {count : Nat}
    (hcount : Counts (area.entryAt p) count) (n j : Nat) (hj : j + n = count)
    (cur req : Frame) :
    Passes (mmapReadStep area mode)
      (.chunk p (chunkAddr (area.entryAt p) j)
        ((area.entryAt p).addr + (area.entryAt p).len) cur req)
      (ReadState.entry (p + area.stride))
      (scanTo mode cur req (entryChunks (area.entryAt p) j n)) := by
  induction n generalizing j cur req with
  | zero =>
    refine Visits.next ?_ (Visits.here _)
    simp only [mmapReadStep]
    rw [if_neg (by rw [hcount j (by omega)]; omega)]
  | succ n ih =>
    have hstep := mmapReadStep_chunk mode ((hcount j (by omega)).mpr (by omega)) cur req
    have hnext := ih (j + 1) (by omega) (cur + 1)
    rw [entryChunks_succ, scanTo]
    -- the outcomes of the loop body, in the order of the source
    by_cases hnum : mode = mmapGetNum ∧ (Chunk.mk (area.entryAt p) j).Matches req
    · simp only [if_pos hnum] at hstep ⊢
      exact Yields.exit hstep
    simp only [if_neg hnum] at hstep ⊢
    by_cases hres : (Chunk.mk (area.entryAt p) j).Reserved
    · simp only [if_pos hres] at hstep ⊢
      exact (hnext _).again hstep
    simp only [if_neg hres] at hstep ⊢
    by_cases hreq : mode = mmapGetAddr ∧ cur = req
    · simp only [if_pos hreq] at hstep ⊢
      exact Yields.exit hstep
    · simp only [if_neg hreq] at hstep ⊢
      exact (hnext _).again hstep

/-- The entry at `p`, from the entry loop. -/
theorem entry_passes {area : MultibootTagMmap} (mode : BitVec 8) {p : BitVec 64} {count : Nat}
    (hp : p < area.limit) (hcount : Counts (area.entryAt p) count)
    (cur req : Frame) :
    Passes (mmapReadStep area mode) (.entry p cur req)
      (ReadState.entry (p + area.stride))
      (scanTo mode cur req (entryChunks (area.entryAt p) 0 count)) := by
  have hloop := chunkLoop_passes mode hcount count 0 (by omega) cur req
  rw [chunkAddr_zero] at hloop
  refine hloop.again ?_
  simp only [mmapReadStep]
  rw [if_pos hp]

/-- What `mmap_read` needs of the tag in order to end: a positive stride, a tag that does not
    reach the top of the address space, and entries that do not either. -/
structure MultibootTagMmap.WellFormed (area : MultibootTagMmap) : Prop where
  stride : 0 < area.entrySize.toNat
  placed : area.Placed
  fits : ∀ e ∈ area.entries, Fits e

theorem MultibootTagMmap.stride_toNat (area : MultibootTagMmap) :
    area.stride.toNat = area.entrySize.toNat := by
  have := area.entrySize.isLt
  rw [stride, BitVec.toNat_setWidth]
  omega

namespace MultibootTagMmap.Placed

variable {area : MultibootTagMmap} (h : area.Placed)

include h

theorem first_toNat : area.first.toNat = area.base.toNat + 16 := by
  have := h.first
  rw [MultibootTagMmap.first, BitVec.toNat_add, show (16#64).toNat = 16 from rfl]
  omega

/-- The end of the tag and one more step stay below 2^64. -/
theorem limit_add (hstride : 0 < area.entrySize.toNat) :
    area.limit.toNat = area.base.toNat + area.size.toNat ∧
      area.limit.toNat + area.entrySize.toNat ≤ 2 ^ 64 := by
  have hlimit := h.limit
  have hsize := area.size.isLt
  have heq : area.limit.toNat = area.base.toNat + area.size.toNat := by
    rw [MultibootTagMmap.limit, BitVec.toNat_add, BitVec.toNat_setWidth]
    omega
  exact ⟨heq, by omega⟩

theorem next_toNat (hstride : 0 < area.entrySize.toNat) {p : BitVec 64} (hp : p < area.limit) :
    (p + area.stride).toNat = p.toNat + area.entrySize.toNat := by
  have hlimit := (h.limit_add hstride).2
  rw [BitVec.lt_def] at hp
  rw [BitVec.toNat_add, area.stride_toNat]
  omega

end MultibootTagMmap.Placed

theorem entryLoop_yields {area : MultibootTagMmap} (hstride : 0 < area.entrySize.toNat)
    (hplaced : area.Placed) (mode : BitVec 8) (n : Nat) (p : BitVec 64)
    (hn : area.limit.toNat ≤ p.toNat + n) (hfits : ∀ e ∈ area.entriesFrom n p, Fits e)
    (cur req : Frame) :
    Yields (mmapReadStep area mode) (.entry p cur req)
      (scan mode cur req (chunksOf (area.entriesFrom n p))) := by
  induction n generalizing p cur req with
  | zero =>
    refine Yields.exit ?_
    simp only [mmapReadStep]
    rw [if_neg (by rw [BitVec.lt_def]; omega)]
    rfl
  | succ n ih =>
    by_cases hp : p < area.limit
    · simp only [MultibootTagMmap.entriesFrom, if_pos hp, List.mem_cons, forall_eq_or_imp]
        at hfits ⊢
      obtain ⟨he, hrest⟩ := hfits
      have hpass := entry_passes mode hp (counts_chunkCount he) cur req
      have hnext := hplaced.next_toNat hstride hp
      rw [chunksOf_cons, scan_append]
      cases hout : scanTo mode cur req
          (entryChunks (area.entryAt p) 0 (chunkCount (area.entryAt p))) with
      | inl c =>
        rw [hout] at hpass
        exact (hpass.yields_iff _).mpr (ih _ (by omega) hrest c.1 c.2)
      | inr a =>
        rw [hout] at hpass
        exact hpass
    · refine Yields.exit ?_
      simp only [mmapReadStep, MultibootTagMmap.entriesFrom]
      rw [if_neg hp, if_neg hp]
      rfl

/-- `mmap_read` ends, with the result of the scan. -/
theorem mmapRead_returns {area : MultibootTagMmap} (h : area.WellFormed) (request : Frame)
    (mode : BitVec 8) (hmode : mode = mmapGetNum ∨ mode = mmapGetAddr) :
    Returns (fun n => mmapRead n area request mode) (scan mode 0 request area.chunks) := by
  have hfirst := h.placed.first_toNat
  have hlimit := (h.placed.limit_add h.stride).1
  have hloop := entryLoop_yields h.stride h.placed mode area.size.toNat area.first (by omega)
    h.fits 0 request
  obtain ⟨n, hn⟩ := hloop.returns
  refine ⟨n, fun m hm => ?_⟩
  simp only [mmapRead]
  rw [if_neg (by rintro ⟨h1, h2⟩; exact hmode.elim h1 h2)]
  exact hn m hm

/-! ## What the scan finds -/

theorem frame_succ_toNat {f : Frame} (h : f.toNat + 1 < 2 ^ 32) :
    (f + 1).toNat = f.toNat + 1 := by
  rw [BitVec.toNat_add, show (1 : Frame).toNat = 1 from rfl, Nat.mod_eq_of_lt h]

/-- One chunk of the number search. A RESERVED chunk moves the request on when it is the one
    asked for, so the ordinal never overtakes the request. -/
theorem scan_getAddr_cons (cur req : Frame) (d : Chunk) (ds : List Chunk) :
    scan mmapGetAddr cur req (d :: ds) =
      if cur = req then
        if d.Reserved then scan mmapGetAddr (cur + 1) (req + 1) ds else d.start
      else scan mmapGetAddr (cur + 1) req ds := by
  have hnum : ¬ (mmapGetAddr = mmapGetNum ∧ d.Matches req) := by
    rintro ⟨h, -⟩
    exact absurd h (by decide)
  rw [scan, if_neg hnum]
  by_cases heq : cur = req
  · simp only [heq, and_self, if_true]
  · simp only [heq, and_false, if_false, ite_self]

theorem lt_of_ordinal_ne {cur req : Frame} (hcur : cur.toNat ≤ req.toNat) (hne : cur ≠ req) :
    cur.toNat < req.toNat := by
  rcases Nat.lt_or_eq_of_le hcur with h | h
  · exact h
  · exact absurd (BitVec.eq_of_toNat_eq h) hne

/-- The number search returns the first non-RESERVED chunk at or after the request. The two
    counters may wrap: from the request on they move together. -/
theorem scan_getAddr {cs : List Chunk} {cur req : Frame} {i : Nat} {c : Chunk}
    (hcur : cur.toNat ≤ req.toNat) (hreq : req.toNat ≤ cur.toNat + i)
    (hget : cs[i]? = some c) (hc : ¬ c.Reserved)
    (hmin : ∀ j d, j < i → req.toNat ≤ cur.toNat + j → cs[j]? = some d → d.Reserved) :
    scan mmapGetAddr cur req cs = c.start := by
  induction cs generalizing cur req i with
  | nil => simp at hget
  | cons d ds ih =>
    rw [scan_getAddr_cons]
    cases i with
    | zero =>
      obtain rfl : d = c := by simpa using hget
      have heq : cur = req := BitVec.eq_of_toNat_eq (by omega)
      rw [if_pos heq, if_neg hc]
    | succ i =>
      have hget' : ds[i]? = some c := by simpa using hget
      by_cases heq : cur = req
      · -- the chunk asked for comes before the one found, so it is RESERVED
        subst heq
        have hd : d.Reserved := hmin 0 d (by omega) (by omega) (by simp)
        rw [if_pos rfl, if_pos hd]
        refine ih (le_refl _) (by omega) hget' ?_
        intro j e hj hle he
        exact hmin (j + 1) e (by omega) (by omega) (by simpa using he)
      · have hlt := lt_of_ordinal_ne hcur heq
        have hcur1 : (cur + 1).toNat = cur.toNat + 1 := frame_succ_toNat (by omega)
        rw [if_neg heq]
        refine ih (by omega) (by omega) hget' ?_
        intro j e hj hle he
        exact hmin (j + 1) e (by omega) (by omega) (by simpa using he)

/-- Without such a chunk the number search returns 0. -/
theorem scan_getAddr_none {cs : List Chunk} {cur req : Frame} (hcur : cur.toNat ≤ req.toNat)
    (hall : ∀ j d, req.toNat ≤ cur.toNat + j → cs[j]? = some d → d.Reserved) :
    scan mmapGetAddr cur req cs = 0 := by
  induction cs generalizing cur req with
  | nil => rfl
  | cons d ds ih =>
    rw [scan_getAddr_cons]
    by_cases heq : cur = req
    · subst heq
      rw [if_pos rfl, if_pos (hall 0 d (by omega) (by simp))]
      refine ih (le_refl _) ?_
      intro j e hle he
      exact hall (j + 1) e (by omega) (by simpa using he)
    · have hlt := lt_of_ordinal_ne hcur heq
      have hcur1 : (cur + 1).toNat = cur.toNat + 1 := frame_succ_toNat (by omega)
      rw [if_neg heq]
      refine ih (by omega) ?_
      intro j e hle he
      exact hall (j + 1) e (by omega) (by simpa using he)

/-- The address search returns one more than the ordinal of the first chunk that matches. -/
theorem scan_getNum {cs : List Chunk} {cur req : Frame} {i : Nat} {c : Chunk}
    (hget : cs[i]? = some c) (hc : c.Matches req)
    (hmin : ∀ j d, j < i → cs[j]? = some d → ¬ d.Matches req) :
    scan mmapGetNum cur req cs = (cur + BitVec.ofNat 32 (i + 1)).setWidth 64 := by
  induction cs generalizing cur i with
  | nil => simp at hget
  | cons d ds ih =>
    have haddr : ∀ cur : Frame, ¬ (mmapGetNum = mmapGetAddr ∧ cur = req) := by
      rintro cur ⟨h, -⟩
      exact absurd h (by decide)
    rw [scan]
    cases i with
    | zero =>
      obtain rfl : d = c := by simpa using hget
      rw [if_pos ⟨rfl, hc⟩]
      rfl
    | succ i =>
      have hd : ¬ d.Matches req := hmin 0 d (by omega) (by simp)
      have hgo : scan mmapGetNum (cur + 1) req ds =
          (cur + 1 + BitVec.ofNat 32 (i + 1)).setWidth 64 := by
        refine ih (by simpa using hget) ?_
        intro j e hj he
        exact hmin (j + 1) e (by omega) (by simpa using he)
      have hadd : cur + 1 + BitVec.ofNat 32 (i + 1) = cur + BitVec.ofNat 32 (i + 1 + 1) := by
        apply BitVec.eq_of_toNat_eq
        simp only [BitVec.toNat_add, BitVec.toNat_ofNat, show (1 : Frame).toNat = 1 from rfl]
        omega
      rw [if_neg (by simp [hd]), if_neg (haddr _), if_neg (haddr _), hgo, hadd, ite_self]

theorem scan_getNum_none {cs : List Chunk} {cur req : Frame}
    (hall : ∀ d ∈ cs, ¬ d.Matches req) : scan mmapGetNum cur req cs = 0 := by
  induction cs generalizing cur with
  | nil => rfl
  | cons d ds ih =>
    have haddr : ¬ (mmapGetNum = mmapGetAddr ∧ cur = req) := by
      rintro ⟨h, -⟩
      exact absurd h (by decide)
    have hd := hall d (List.mem_cons_self ..)
    have hgo : scan mmapGetNum (cur + 1) req ds = 0 :=
      ih fun e he => hall e (List.mem_cons_of_mem _ he)
    rw [scan, if_neg (by simp [hd]), if_neg haddr, if_neg haddr, hgo, ite_self]

/-! ## The number search -/

/-- What `mmap_read` should give for a number: the start of the first non-RESERVED chunk from
    that ordinal on, and 0 if there is none. -/
def NumberLookup (cs : List Chunk) (request : Nat) (addr : PhysicalAddress) : Prop :=
  (∃ k c, FirstFrom (fun c => ¬ c.Reserved) cs request k c ∧ addr = c.start) ∨
    ((∀ k c, request ≤ k → cs[k]? = some c → c.Reserved) ∧ addr = 0)

theorem NumberLookup.unique {cs : List Chunk} {request : Nat} {a b : PhysicalAddress}
    (ha : NumberLookup cs request a) (hb : NumberLookup cs request b) : a = b := by
  rcases ha with ⟨k, c, hfirst, rfl⟩ | ⟨hall, rfl⟩
  · rcases hb with ⟨j, d, hfirst', rfl⟩ | ⟨hall', -⟩
    · rw [(hfirst.unique hfirst').2]
    · exact absurd (hall' k c hfirst.le hfirst.get) hfirst.holds
  · rcases hb with ⟨j, d, hfirst', -⟩ | ⟨-, rfl⟩
    · exact absurd (hall j d hfirst'.le hfirst'.get) hfirst'.holds
    · rfl

theorem scan_numberLookup (cs : List Chunk) (request : Frame) :
    NumberLookup cs request.toNat (scan mmapGetAddr 0 request cs) := by
  by_cases h : ∃ k c, request.toNat ≤ k ∧ cs[k]? = some c ∧ ¬ c.Reserved
  · obtain ⟨k, c, hfirst⟩ := firstFrom_exists h
    refine Or.inl ⟨k, c, hfirst, ?_⟩
    refine scan_getAddr (by simp) (by simpa using hfirst.le) hfirst.get hfirst.holds ?_
    intro j d hj hle hd
    by_contra hres
    have := hfirst.least j d (by simpa using hle) hd hres
    omega
  · have hall : ∀ k c, request.toNat ≤ k → cs[k]? = some c → c.Reserved := by
      intro k c hle hget
      by_contra hres
      exact h ⟨k, c, hle, hget, hres⟩
    refine Or.inr ⟨hall, scan_getAddr_none (by simp) ?_⟩
    intro j d hle hd
    exact hall j d (by simpa using hle) hd

/-- `mmap_read` by number, on every tag of 24-byte entries that end a page below 2^64, the tag
    itself below the top of memory: it ends with the start of the first non-RESERVED chunk from
    `request` on, or with 0. Entries of any order, type and length are allowed, and any number
    of chunks. -/
theorem mmapRead_numberLookup (area : MultibootTagMmap) (hsize : area.entrySize = 24)
    (hplaced : area.Placed) (hfits : ∀ e ∈ area.entries, Fits e) (request : Frame) :
    ∃ addr, Returns (fun n => mmapRead n area request mmapGetAddr) addr ∧
      NumberLookup area.chunks request.toNat addr := by
  have hwf : area.WellFormed := ⟨by rw [hsize]; decide, hplaced, hfits⟩
  exact ⟨_, mmapRead_returns hwf request mmapGetAddr (Or.inr rfl), scan_numberLookup _ _⟩

/-- A RESERVED entry, one too short for a chunk, and one with two chunks. -/
def mixedTag : MultibootTagMmap :=
  tagOf [⟨0x8000, 0x3001, multibootMemoryReserved⟩, ⟨0, 0x1000, multibootMemoryAvailable⟩,
    ⟨0x4000, 0x2001, multibootMemoryAvailable⟩]

theorem mmapRead_numberLookup_mixedTag :
    ∃ addr, Returns (fun n => mmapRead n mixedTag 1 mmapGetAddr) addr ∧
      NumberLookup mixedTag.chunks 1 addr :=
  mmapRead_numberLookup mixedTag rfl ⟨by decide, by decide⟩ (by decide) 1

/-! ## Positions in the list of chunks -/

theorem mem_chunksOf {es : List MultibootMmapEntry} {c : Chunk} :
    c ∈ chunksOf es ↔ c.entry ∈ es ∧ c.index < chunkCount c.entry := by
  obtain ⟨e, j⟩ := c
  simp only [chunksOf, entryChunks, List.mem_flatMap, List.mem_map, List.mem_range'_1]
  constructor
  · rintro ⟨e', he', k, hk, heq⟩
    cases heq
    exact ⟨he', by omega⟩
  · rintro ⟨he, hj⟩
    exact ⟨e, he, j, by omega, rfl⟩

theorem entryChunks_getElem? {e : MultibootMmapEntry} {n k : Nat} (hk : k < n) :
    (entryChunks e 0 n)[k]? = some ⟨e, k⟩ := by
  simp [entryChunks, hk]

theorem entryChunks_length (e : MultibootMmapEntry) (n : Nat) :
    (entryChunks e 0 n).length = n := by
  simp [entryChunks]

/-- Before a chunk that is not the first of its entry stands the chunk one page below. -/
theorem chunksOf_pred {es : List MultibootMmapEntry} {e : MultibootMmapEntry} {j k : Nat}
    (h : (chunksOf es)[k]? = some ⟨e, j + 1⟩) :
    ∃ k', k = k' + 1 ∧ (chunksOf es)[k']? = some ⟨e, j⟩ := by
  induction es generalizing k with
  | nil => simp [chunksOf] at h
  | cons f es ih =>
    rw [chunksOf_cons] at h ⊢
    by_cases hk : k < chunkCount f
    · rw [List.getElem?_append_left (by rw [entryChunks_length]; exact hk),
        entryChunks_getElem? hk] at h
      cases h
      refine ⟨j, rfl, ?_⟩
      rw [List.getElem?_append_left (by rw [entryChunks_length]; omega),
        entryChunks_getElem? (by omega)]
    · rw [List.getElem?_append_right (by rw [entryChunks_length]; omega),
        entryChunks_length] at h
      obtain ⟨k', hk', hget⟩ := ih h
      refine ⟨chunkCount f + k', by omega, ?_⟩
      rw [List.getElem?_append_right (by rw [entryChunks_length]; omega), entryChunks_length,
        Nat.add_sub_cancel_left]
      exact hget

/-- After a chunk that is not the last of its entry stands the chunk one page above. -/
theorem chunksOf_succ {es : List MultibootMmapEntry} {e : MultibootMmapEntry} {j k : Nat}
    (h : (chunksOf es)[k]? = some ⟨e, j⟩) (hj : j + 1 < chunkCount e) :
    (chunksOf es)[k + 1]? = some ⟨e, j + 1⟩ := by
  induction es generalizing k with
  | nil => simp [chunksOf] at h
  | cons f es ih =>
    rw [chunksOf_cons] at h ⊢
    by_cases hk : k < chunkCount f
    · rw [List.getElem?_append_left (by rw [entryChunks_length]; exact hk),
        entryChunks_getElem? hk] at h
      cases h
      rw [List.getElem?_append_left (by rw [entryChunks_length]; exact hj),
        entryChunks_getElem? hj]
    · rw [List.getElem?_append_right (by rw [entryChunks_length]; omega),
        entryChunks_length] at h
      rw [List.getElem?_append_right (by rw [entryChunks_length]; omega), entryChunks_length,
        show k + 1 - chunkCount f = k - chunkCount f + 1 by omega]
      exact ih h

/-! ## Sorted, disjoint maps -/

/-- A memory map as the boot loader promises it. -/
structure MemoryMap where
  area : MultibootTagMmap
  wellFormed : area.WellFormed
  sorted : area.entries.Pairwise fun e e' => e.addr.toNat + e.len.toNat ≤ e'.addr.toNat

namespace MemoryMap

variable (m : MemoryMap)

/-- Every entry lies below 4 GiB. -/
def Below4GiB : Prop :=
  ∀ e ∈ m.area.entries, e.addr.toNat + e.len.toNat ≤ 2 ^ 32

variable {m}

theorem start_toNat {c : Chunk} (hc : c ∈ m.area.chunks) :
    c.start.toNat = c.entry.addr.toNat + 4096 * c.index := by
  obtain ⟨he, hj⟩ := mem_chunksOf.mp hc
  exact chunkAddr_toNat (m.wellFormed.fits _ he) (by omega)

/-- A chunk ends strictly below the end of its entry. -/
theorem start_lt_end {c : Chunk} (hc : c ∈ m.area.chunks) :
    c.start.toNat + 4096 < c.entry.addr.toNat + c.entry.len.toNat := by
  obtain ⟨-, hj⟩ := mem_chunksOf.mp hc
  rw [start_toNat hc]
  exact (lt_chunkCount_iff c.entry c.index).mp hj

/-- An earlier chunk is in the same entry with a smaller index, or in an entry that ends at
    or below the later one's start. -/
theorem chunks_order : m.area.chunks.Pairwise fun c d =>
    (c.entry = d.entry ∧ c.index < d.index) ∨
      c.entry.addr.toNat + c.entry.len.toNat ≤ d.entry.addr.toNat := by
  unfold MultibootTagMmap.chunks chunksOf
  rw [List.pairwise_flatMap]
  constructor
  · intro e _
    unfold entryChunks
    rw [List.pairwise_map]
    exact (List.pairwise_lt_range' 1).imp fun h => Or.inl ⟨rfl, h⟩
  · refine m.sorted.imp ?_
    intro e e' h c hc d hd
    obtain ⟨j, -, rfl⟩ := List.mem_map.mp hc
    obtain ⟨j', -, rfl⟩ := List.mem_map.mp hd
    exact Or.inr h

/-- The chunks are 4096 bytes apart. -/
theorem chunks_spaced : Spaced 4096 (fun c => c.start.toNat) m.area.chunks := by
  refine List.Pairwise.imp_of_mem ?_ chunks_order
  intro c d hc hd h
  dsimp only
  have hc' := start_toNat hc
  have hd' := start_toNat hd
  have hend := start_lt_end hc
  rcases h with ⟨he, hi⟩ | h
  · rw [he] at hc'
    omega
  · omega

/-- Every chunk before the first one of an entry ends strictly below it. -/
theorem chunks_before_first {j k : Nat} {c d : Chunk} (hc : m.area.chunks[k]? = some c)
    (hd : m.area.chunks[j]? = some d) (hjk : j < k) (hfirst : c.index = 0) :
    d.start.toNat + 4096 < c.start.toNat := by
  have hcs := start_toNat (List.mem_of_getElem? hc)
  have hend := start_lt_end (List.mem_of_getElem? hd)
  obtain ⟨hk, rfl⟩ := List.getElem?_eq_some_iff.mp hc
  obtain ⟨hj, rfl⟩ := List.getElem?_eq_some_iff.mp hd
  rcases List.pairwise_iff_getElem.mp m.chunks_order j k hj hk hjk with ⟨-, hi⟩ | h
  · omega
  · omega

end MemoryMap

end Utero.Mmu
