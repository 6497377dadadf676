/-
  The loops of `mmap_read` on entries of any address and length.

  * `wholePages_iff`: below 2^52 the chunk loop visits the whole pages of an entry, except
    that it leaves out the last one of an entry that is made of whole pages. The loop test is
    strict.
  * `mmapRead_ends_iff`: when the loops end. The test adds the page size modulo 2^64. An entry
    is `Endless` if the test holds at every address that the steps can come to, and such an
    entry is left by a return only. Every other entry has `passes` chunks, also when it wraps
    around the top of the address space. The pointer to the entries may wrap in the same way,
    in a tag whose entry_size takes it past the top of the address space.
-/
import Utero.Mmu.MemoryMap

namespace Utero.Mmu

open Utero.Lib

/-! ## Whole pages -/

/-- A run of the chunk loop: the addresses at which its body runs, and how it is left, for the
    next entry or with a return. -/
inductive ChunkRun (area : MultibootTagMmap) (mode : BitVec 8) :
    ReadState → List PhysicalAddress → ReadState ⊕ PhysicalAddress → Prop
  | leave {p : BitVec 64} {i entryEnd : PhysicalAddress} {cur req : Frame} {s : ReadState}
      (test : ¬ i + pageSize < entryEnd)
      (step : mmapReadStep area mode (.chunk p i entryEnd cur req) = .inl s) :
      ChunkRun area mode (.chunk p i entryEnd cur req) [] (.inl s)
  | ret {p : BitVec 64} {i entryEnd : PhysicalAddress} {cur req : Frame} {a : PhysicalAddress}
      (test : i + pageSize < entryEnd)
      (step : mmapReadStep area mode (.chunk p i entryEnd cur req) = .inr a) :
      ChunkRun area mode (.chunk p i entryEnd cur req) [i] (.inr a)
  | body {p : BitVec 64} {i entryEnd : PhysicalAddress} {cur req : Frame} {s : ReadState}
      {is : List PhysicalAddress} {out : ReadState ⊕ PhysicalAddress}
      (test : i + pageSize < entryEnd)
      (step : mmapReadStep area mode (.chunk p i entryEnd cur req) = .inl s)
      (rest : ChunkRun area mode s is out) :
      ChunkRun area mode (.chunk p i entryEnd cur req) (i :: is) out

/-- The state in which the chunk loop begins on the entry at `p`. -/
def chunkStart (area : MultibootTagMmap) (p : BitVec 64) (cur req : Frame) : ReadState :=
  .chunk p (area.entryAt p).addr ((area.entryAt p).addr + (area.entryAt p).len) cur req

theorem chunkStart_eq (area : MultibootTagMmap) (p : BitVec 64) (cur req : Frame) :
    chunkStart area p cur req = .chunk p (chunkAddr (area.entryAt p) 0)
      ((area.entryAt p).addr + (area.entryAt p).len) cur req := by
  rw [chunkStart, chunkAddr_zero]

/-- The body of the loop at chunk `j` returns or goes on with chunk `j + 1`. -/
theorem chunk_step {area : MultibootTagMmap} (mode : BitVec 8) {p : BitVec 64} {j : Nat}
    (htest : chunkAddr (area.entryAt p) j + pageSize <
      (area.entryAt p).addr + (area.entryAt p).len) (cur req : Frame) :
    (∃ a, mmapReadStep area mode (.chunk p (chunkAddr (area.entryAt p) j)
        ((area.entryAt p).addr + (area.entryAt p).len) cur req) = .inr a) ∨
      ∃ req', mmapReadStep area mode (.chunk p (chunkAddr (area.entryAt p) j)
        ((area.entryAt p).addr + (area.entryAt p).len) cur req) =
          .inl (.chunk p (chunkAddr (area.entryAt p) (j + 1))
            ((area.entryAt p).addr + (area.entryAt p).len) (cur + 1) req') := by
  rw [mmapReadStep_chunk mode htest cur req]
  dsimp only
  split
  · exact Or.inl ⟨_, rfl⟩
  · split
    · exact Or.inr ⟨_, rfl⟩
    · split
      · exact Or.inl ⟨_, rfl⟩
      · exact Or.inr ⟨_, rfl⟩

/-- The chunk loop comes to an end, and a run that is not cut short visits the chunks from `j`
    on. -/
theorem chunkRun_exists {area : MultibootTagMmap} (mode : BitVec 8) {p : BitVec 64} {count : Nat}
    (hcount : Counts (area.entryAt p) count) (n j : Nat) (hj : j + n = count)
    (cur req : Frame) :
    ∃ is out, ChunkRun area mode (.chunk p (chunkAddr (area.entryAt p) j)
        ((area.entryAt p).addr + (area.entryAt p).len) cur req) is out ∧
      ∀ s, out = .inl s → is = (List.range' j n).map (chunkAddr (area.entryAt p)) := by
  induction n generalizing j cur req with
  | zero =>
    have htest : ¬ chunkAddr (area.entryAt p) j + pageSize <
        (area.entryAt p).addr + (area.entryAt p).len := by
      rw [hcount j (by omega)]
      omega
    have hstep : mmapReadStep area mode (.chunk p (chunkAddr (area.entryAt p) j)
        ((area.entryAt p).addr + (area.entryAt p).len) cur req) =
          .inl (.entry (p + area.stride) cur req) := by
      simp only [mmapReadStep]
      rw [if_neg htest]
    exact ⟨[], _, ChunkRun.leave htest hstep, fun _ _ => rfl⟩
  | succ n ih =>
    have htest := (hcount j (by omega)).mpr (by omega)
    rcases chunk_step mode htest cur req with ⟨a, hret⟩ | ⟨req', hnext⟩
    · exact ⟨_, _, ChunkRun.ret htest hret, fun _ h => by cases h⟩
    · obtain ⟨is, out, hrest, hvisited⟩ := ih (j + 1) (by omega) (cur + 1) req'
      refine ⟨_, _, ChunkRun.body htest hnext hrest, fun s hs => ?_⟩
      rw [hvisited s hs, List.range'_succ, List.map_cons]

theorem ChunkRun.unique {area : MultibootTagMmap} {mode : BitVec 8} {s : ReadState}
    {is is' : List PhysicalAddress} {out out' : ReadState ⊕ PhysicalAddress}
    (h : ChunkRun area mode s is out) (h' : ChunkRun area mode s is' out') :
    is = is' ∧ out = out' := by
  induction h generalizing is' out' with
  | leave test step =>
    cases h' with
    | leave test' step' => exact ⟨rfl, step.symm.trans step' ▸ rfl⟩
    | ret test' step' => exact absurd test' test
    | body test' step' rest' => exact absurd test' test
  | ret test step =>
    cases h' with
    | leave test' step' => exact absurd test test'
    | ret test' step' => exact ⟨rfl, step.symm.trans step'⟩
    | body test' step' rest' => exact absurd (step.symm.trans step') (by simp)
  | body test step rest ih =>
    cases h' with
    | leave test' step' => exact absurd test test'
    | ret test' step' => exact absurd (step.symm.trans step') (by simp)
    | body test' step' rest' =>
      obtain rfl := Sum.inl.inj (step.symm.trans step')
      obtain ⟨his, hout⟩ := ih rest'
      exact ⟨congrArg _ his, hout⟩

/-- The address is one of addr, addr + 4096, …, and its whole page lies inside the entry. -/
def WholePage (e : MultibootMmapEntry) (a : PhysicalAddress) : Prop :=
  ∃ j : Nat, a = chunkAddr e j ∧
    e.addr.toNat + (j + 1) * 4096 ≤ e.addr.toNat + e.len.toNat

/-- The addresses are those of the whole pages of the entry, each once. -/
def Enumerates (e : MultibootMmapEntry) (is : List PhysicalAddress) : Prop :=
  (∀ a, a ∈ is ↔ WholePage e a) ∧ is.length = e.len.toNat / 4096

/-- The entry consists of one or more whole pages. -/
def MadeOfPages (e : MultibootMmapEntry) : Prop :=
  0 < e.len.toNat ∧ 4096 ∣ e.len.toNat

theorem fits_of_lt {e : MultibootMmapEntry} (haddr : e.addr.toNat < 2 ^ 52)
    (hlen : e.len.toNat < 2 ^ 52) : Fits e := by
  unfold Fits
  omega

/-- The chunks `mmap_read` visits in an entry are its whole pages, unless it is made of pages:
    then there is one page more. -/
theorem enumerates_chunks_iff {e : MultibootMmapEntry} :
    Enumerates e ((List.range' 0 (chunkCount e)).map (chunkAddr e)) ↔ ¬ MadeOfPages e := by
  unfold Enumerates MadeOfPages
  rw [List.length_map, List.length_range']
  constructor
  · rintro ⟨-, hcount⟩ ⟨hpos, hdvd⟩
    unfold chunkCount at hcount
    omega
  · intro hpages
    have hcount : chunkCount e = e.len.toNat / 4096 := by
      unfold chunkCount
      omega
    refine ⟨fun a => ?_, hcount⟩
    rw [hcount, List.mem_map]
    constructor
    · rintro ⟨j, hj, rfl⟩
      rw [List.mem_range'_1] at hj
      exact ⟨j, rfl, by omega⟩
    · rintro ⟨j, rfl, hj⟩
      exact ⟨j, List.mem_range'_1.mpr (by omega), rfl⟩

/-- For an entry below 2^52, a chunk loop that no return cuts short visits exactly the whole
    pages of the entry if and only if the entry is not made of whole pages. -/
theorem wholePages_iff (area : MultibootTagMmap) (mode : BitVec 8) (p : BitVec 64) (cur req : Frame)
    (haddr : (area.entryAt p).addr.toNat < 2 ^ 52)
    (hlen : (area.entryAt p).len.toNat < 2 ^ 52)
    (huncut : ∀ is a, ¬ ChunkRun area mode (chunkStart area p cur req) is (.inr a)) :
    (∃ is s, ChunkRun area mode (chunkStart area p cur req) is (.inl s) ∧
        Enumerates (area.entryAt p) is) ↔ ¬ MadeOfPages (area.entryAt p) := by
  have hcount := counts_chunkCount (fits_of_lt haddr hlen)
  rw [chunkStart_eq] at huncut ⊢
  obtain ⟨is, out, hrun, hvisited⟩ := chunkRun_exists mode hcount _ 0 (Nat.zero_add _) cur req
  constructor
  · rintro ⟨is', s, hrun', henum⟩
    obtain ⟨rfl, rfl⟩ := hrun.unique hrun'
    rw [hvisited s rfl] at henum
    exact enumerates_chunks_iff.mp henum
  · intro hpages
    cases out with
    | inl s =>
      refine ⟨is, s, hrun, ?_⟩
      rw [hvisited s rfl]
      exact enumerates_chunks_iff.mpr hpages
    | inr a => exact absurd hrun (huncut is a)

/-- A page and a half at 4 KiB. -/
def halfPageTag : MultibootTagMmap := tagOf [⟨0x1000, 0x1800, multibootMemoryAvailable⟩]

/-- Two pages at 4 KiB. -/
def twoPageTag : MultibootTagMmap := tagOf [⟨0x1000, 0x2000, multibootMemoryAvailable⟩]

/-- The search for number 5 leaves the entry after one chunk. -/
theorem halfPageTag_run : ChunkRun halfPageTag mmapGetAddr (chunkStart halfPageTag 0x9010 0 5)
    [0x1000] (.inl (.entry 0x9028 1 5)) :=
  ChunkRun.body (by decide) rfl (ChunkRun.leave (by decide) rfl)

theorem twoPageTag_run : ChunkRun twoPageTag mmapGetAddr (chunkStart twoPageTag 0x9010 0 5)
    [0x1000] (.inl (.entry 0x9028 1 5)) :=
  ChunkRun.body (by decide) rfl (ChunkRun.leave (by decide) rfl)

/-- A run that is not cut short is the only one. -/
theorem ChunkRun.uncut {area : MultibootTagMmap} {mode : BitVec 8} {s t : ReadState}
    {is : List PhysicalAddress} (h : ChunkRun area mode s is (.inl t))
    (is' : List PhysicalAddress) (a : PhysicalAddress) : ¬ ChunkRun area mode s is' (.inr a) :=
  fun h' => absurd (h.unique h').2 (by simp)

theorem wholePages_iff_halfPageTag :
    (halfPageTag.entryAt 0x9010).addr.toNat < 2 ^ 52 ∧
    (halfPageTag.entryAt 0x9010).len.toNat < 2 ^ 52 ∧
    ((∃ is s, ChunkRun halfPageTag mmapGetAddr (chunkStart halfPageTag 0x9010 0 5) is (.inl s) ∧
        Enumerates (halfPageTag.entryAt 0x9010) is) ↔ ¬ MadeOfPages (halfPageTag.entryAt 0x9010)) :=
  ⟨by decide, by decide, wholePages_iff halfPageTag mmapGetAddr 0x9010 0 5 (by decide) (by decide)
    halfPageTag_run.uncut⟩

/-- Of the two pages only the first is visited. -/
theorem wholePages_lost :
    ¬ ∀ (area : MultibootTagMmap) (mode : BitVec 8) (p : BitVec 64) (cur req : Frame),
      (area.entryAt p).addr.toNat < 2 ^ 52 → (area.entryAt p).len.toNat < 2 ^ 52 →
      (∀ is a, ¬ ChunkRun area mode (chunkStart area p cur req) is (.inr a)) →
      ∃ is s, ChunkRun area mode (chunkStart area p cur req) is (.inl s) ∧
        Enumerates (area.entryAt p) is := by
  intro h
  obtain ⟨is, s, hrun, -, hlength⟩ := h twoPageTag mmapGetAddr 0x9010 0 5 (by decide) (by decide)
    twoPageTag_run.uncut
  obtain ⟨rfl, -⟩ := twoPageTag_run.unique hrun
  exact absurd hlength (by decide)

/-! ## Entries that the loop never leaves -/

/-- The end of the entry lies above every address that the steps of a page from its start, taken
    modulo 2^64, come to. -/
def Endless (e : MultibootMmapEntry) : Prop :=
  2 ^ 64 - 4096 + e.addr.toNat % 4096 < (e.addr + e.len).toNat

instance : DecidablePred Endless := fun _ => inferInstanceAs (Decidable (_ < _))

/-- How often the loop runs in an entry that is not endless. -/
def passes (e : MultibootMmapEntry) : Nat :=
  ((e.addr + e.len).toNat + 4095 - (e.addr + pageSize).toNat) / 4096

theorem chunkAddr_add_toNat (e : MultibootMmapEntry) (j : Nat) :
    (chunkAddr e j + pageSize).toNat = (e.addr.toNat + 4096 * j + 4096) % 2 ^ 64 := by
  simp only [chunkAddr, BitVec.toNat_add, BitVec.toNat_ofNat, pageSize_toNat]
  omega

theorem counts_passes {e : MultibootMmapEntry} (h : ¬ Endless e) : Counts e (passes e) := by
  intro j hj
  have hend := (e.addr + e.len).isLt
  unfold Endless at h
  unfold passes at hj ⊢
  rw [BitVec.lt_def, chunkAddr_add_toNat]
  rw [BitVec.toNat_add e.addr pageSize, pageSize_toNat] at hj ⊢
  omega

theorem endless_test {e : MultibootMmapEntry} (h : Endless e) (j : Nat) :
    chunkAddr e j + pageSize < e.addr + e.len := by
  unfold Endless at h
  rw [BitVec.lt_def, chunkAddr_add_toNat]
  omega

/-- The chunks of entries that are not endless. -/
def loopChunks (es : List MultibootMmapEntry) : List Chunk :=
  es.flatMap fun e => entryChunks e 0 (passes e)

/-- The chunks answer the request: one matches the address, or one that is not RESERVED has the
    number or a later one. -/
def Answered (mode : BitVec 8) (request : Frame) (cs : List Chunk) : Prop :=
  (mode = mmapGetNum ∧ ∃ c ∈ cs, c.Matches request) ∨
    (mode = mmapGetAddr ∧ ∃ k c, request.toNat ≤ k ∧ cs[k]? = some c ∧ ¬ c.Reserved)

/-- The loop returns from the endless entry. -/
def Escapes (mode : BitVec 8) (request : Frame) (e : MultibootMmapEntry) : Prop :=
  (mode = mmapGetNum ∧ e.addr.toNat % 4096 ≤ request.toNat) ∨
    (mode = mmapGetAddr ∧ e.type ≠ multibootMemoryReserved)

/-! ## Before the first endless entry -/

theorem scanTo_append (mode : BitVec 8) (cur req : Frame) (cs ds : List Chunk) :
    scanTo mode cur req (cs ++ ds) =
      match scanTo mode cur req cs with
      | .inl (cur', req') => scanTo mode cur' req' ds
      | .inr a => .inr a := by
  induction cs generalizing cur req with
  | nil => rfl
  | cons c cs ih =>
    rw [List.cons_append, scanTo, scanTo]
    split
    · rfl
    · split
      · exact ih _ _
      · split
        · rfl
        · exact ih _ _

theorem Passes.trans {step : ReadState → ReadState ⊕ PhysicalAddress} {s : ReadState}
    {next next' : Frame → Frame → ReadState} {mode : BitVec 8} {cur req : Frame}
    {cs ds : List Chunk} (h : Passes step s next (scanTo mode cur req cs))
    (h' : ∀ cur' req', Passes step (next cur' req') next' (scanTo mode cur' req' ds)) :
    Passes step s next' (scanTo mode cur req (cs ++ ds)) := by
  rw [scanTo_append]
  cases hcs : scanTo mode cur req cs with
  | inr a =>
    rw [hcs] at h
    exact h
  | inl c =>
    obtain ⟨cur', req'⟩ := c
    rw [hcs] at h
    have hrest := h' cur' req'
    dsimp only
    cases hds : scanTo mode cur' req' ds with
    | inr a =>
      rw [hds] at hrest
      exact (Visits.yields_iff h a).mpr hrest
    | inl c' =>
      rw [hds] at hrest
      exact Visits.trans h hrest

/-- The pointer after `n` steps from `p`, modulo 2^64. -/
def MultibootTagMmap.pointer (area : MultibootTagMmap) (p : BitVec 64) : Nat → BitVec 64
  | 0 => p
  | n + 1 => area.pointer (p + area.stride) n

theorem MultibootTagMmap.pointer_succ (area : MultibootTagMmap) (p : BitVec 64) (n : Nat) :
    area.pointer p (n + 1) = area.pointer p n + area.stride := by
  induction n generalizing p with
  | zero => rfl
  | succ n ih => exact ih (p + area.stride)

/-- One entry more, if the pointer has not come to the end of the tag. -/
theorem entriesFrom_succ {area : MultibootTagMmap} {n : Nat} {p : BitVec 64}
    (hlen : (area.entriesFrom n p).length = n) (hp : area.pointer p n < area.limit) :
    area.entriesFrom (n + 1) p = area.entriesFrom n p ++ [area.entryAt (area.pointer p n)] := by
  induction n generalizing p with
  | zero =>
    rw [MultibootTagMmap.entriesFrom]
    exact if_pos hp
  | succ n ih =>
    rw [MultibootTagMmap.entriesFrom] at hlen
    by_cases hfirst : p < area.limit
    · rw [if_pos hfirst, List.length_cons, Nat.add_right_cancel_iff] at hlen
      have hrest := ih hlen hp
      rw [MultibootTagMmap.entriesFrom, if_pos hfirst, hrest, MultibootTagMmap.entriesFrom,
        if_pos hfirst]
      rfl
    · rw [if_neg hfirst] at hlen
      cases hlen

/-- The entry loop over the first `n` entries, none of them endless. -/
theorem entryLoop_passes {area : MultibootTagMmap} (mode : BitVec 8) {n : Nat} {p : BitVec 64}
    (hlen : (area.entriesFrom n p).length = n)
    (hends : ∀ e ∈ area.entriesFrom n p, ¬ Endless e) (cur req : Frame) :
    Passes (mmapReadStep area mode) (.entry p cur req) (ReadState.entry (area.pointer p n))
      (scanTo mode cur req (loopChunks (area.entriesFrom n p))) := by
  induction n generalizing p cur req with
  | zero => exact Visits.here _
  | succ n ih =>
    rw [MultibootTagMmap.entriesFrom] at hlen hends ⊢
    by_cases hp : p < area.limit
    · rw [if_pos hp] at hlen hends ⊢
      rw [List.length_cons, Nat.add_right_cancel_iff] at hlen
      obtain ⟨hfirst, hrest⟩ := List.forall_mem_cons.mp hends
      have hentry := entry_passes mode hp (counts_passes hfirst) cur req
      exact hentry.trans (ih hlen hrest)
    · rw [if_neg hp] at hlen
      cases hlen

theorem scanTo_getNum (cur req : Frame) (cs : List Chunk) :
    ((∃ c ∈ cs, c.Matches req) ∧ ∃ a, scanTo mmapGetNum cur req cs = .inr a) ∨
      ((∀ c ∈ cs, ¬ c.Matches req) ∧ ∃ cur', scanTo mmapGetNum cur req cs = .inl (cur', req)) := by
  induction cs generalizing cur with
  | nil => exact Or.inr ⟨by simp, cur, rfl⟩
  | cons d ds ih =>
    have haddr : ¬ (mmapGetNum = mmapGetAddr ∧ cur = req) := fun h => absurd h.1 (by decide)
    by_cases hd : d.Matches req
    · exact Or.inl ⟨⟨d, List.mem_cons_self .., hd⟩, _, if_pos ⟨rfl, hd⟩⟩
    · have hgo : scanTo mmapGetNum cur req (d :: ds) = scanTo mmapGetNum (cur + 1) req ds := by
        rw [scanTo, if_neg (fun h => hd h.2), if_neg haddr, if_neg haddr, ite_self]
      rw [hgo]
      rcases ih (cur + 1) with ⟨⟨c, hc, hm⟩, ha⟩ | ⟨hall, hcur⟩
      · exact Or.inl ⟨⟨c, List.mem_cons_of_mem _ hc, hm⟩, ha⟩
      · exact Or.inr ⟨List.forall_mem_cons.mpr ⟨hd, hall⟩, hcur⟩

theorem scanTo_getAddr_cons (cur req : Frame) (d : Chunk) (ds : List Chunk) :
    scanTo mmapGetAddr cur req (d :: ds) =
      if cur = req then
        if d.Reserved then scanTo mmapGetAddr (cur + 1) (req + 1) ds else .inr d.start
      else scanTo mmapGetAddr (cur + 1) req ds := by
  have hnum : ¬ (mmapGetAddr = mmapGetNum ∧ d.Matches req) := fun h => absurd h.1 (by decide)
  rw [scanTo, if_neg hnum]
  by_cases heq : cur = req
  · simp only [heq, and_self, if_true]
  · simp only [heq, and_false, if_false, ite_self]

theorem scanTo_getAddr {cur req : Frame} (hcur : cur.toNat ≤ req.toNat) (cs : List Chunk) :
    ((∃ k c, req.toNat ≤ cur.toNat + k ∧ cs[k]? = some c ∧ ¬ c.Reserved) ∧
        ∃ a, scanTo mmapGetAddr cur req cs = .inr a) ∨
      ((∀ k c, req.toNat ≤ cur.toNat + k → cs[k]? = some c → c.Reserved) ∧
        ∃ p, scanTo mmapGetAddr cur req cs = .inl p) := by
  induction cs generalizing cur req with
  | nil => exact Or.inr ⟨by simp, _, rfl⟩
  | cons d ds ih =>
    rw [scanTo_getAddr_cons]
    by_cases heq : cur = req
    · subst heq
      rw [if_pos rfl]
      by_cases hd : d.Reserved
      · rw [if_pos hd]
        rcases ih (Nat.le_refl (cur + 1).toNat) with ⟨⟨k, c, -, hget, hc⟩, ha⟩ | ⟨hall, hp⟩
        · exact Or.inl ⟨⟨k + 1, c, by omega, by simpa using hget, hc⟩, ha⟩
        · refine Or.inr ⟨fun k c _ hget => ?_, hp⟩
          cases k with
          | zero =>
            obtain rfl : d = c := by simpa using hget
            exact hd
          | succ k => exact hall k c (by omega) (by simpa using hget)
      · rw [if_neg hd]
        exact Or.inl ⟨⟨0, d, by omega, by simp, hd⟩, _, rfl⟩
    · have hlt := lt_of_ordinal_ne hcur heq
      have hsucc : (cur + 1).toNat = cur.toNat + 1 := frame_succ_toNat (by omega)
      have hle : (cur + 1).toNat ≤ req.toNat := by omega
      rw [if_neg heq]
      rcases ih hle with ⟨⟨k, c, hk, hget, hc⟩, ha⟩ | ⟨hall, hp⟩
      · exact Or.inl ⟨⟨k + 1, c, by omega, by simpa using hget, hc⟩, ha⟩
      · refine Or.inr ⟨fun k c hk hget => ?_, hp⟩
        cases k with
        | zero => omega
        | succ k => exact hall k c (by omega) (by simpa using hget)

/-- The first stretch of chunks is left by a return exactly if it answers the request. The
    search by address keeps its request. -/
theorem scanTo_answered {mode : BitVec 8} (hmode : mode = mmapGetNum ∨ mode = mmapGetAddr)
    (request : Frame) (cs : List Chunk) :
    (Answered mode request cs ∧ ∃ a, scanTo mode 0 request cs = .inr a) ∨
      (¬ Answered mode request cs ∧ ∃ cur req, scanTo mode 0 request cs = .inl (cur, req) ∧
        (mode = mmapGetNum → req = request)) := by
  rcases hmode with rfl | rfl
  · rcases scanTo_getNum 0 request cs with ⟨hmatch, ha⟩ | ⟨hall, cur, hcur⟩
    · exact Or.inl ⟨Or.inl ⟨rfl, hmatch⟩, ha⟩
    · refine Or.inr ⟨?_, cur, request, hcur, fun _ => rfl⟩
      rintro (⟨-, c, hc, hm⟩ | ⟨h, -⟩)
      · exact hall c hc hm
      · exact absurd h (by decide)
  · have hzero : (0 : Frame).toNat = 0 := rfl
    have hle : (0 : Frame).toNat ≤ request.toNat := by omega
    rcases scanTo_getAddr hle cs with ⟨⟨k, c, hk, hget, hc⟩, ha⟩ | ⟨hall, p, hp⟩
    · exact Or.inl ⟨Or.inr ⟨rfl, k, c, by omega, hget, hc⟩, ha⟩
    · refine Or.inr ⟨?_, p.1, p.2, hp, fun h => absurd h (by decide)⟩
      rintro (⟨h, -⟩ | ⟨-, k, c, hk, hget, hc⟩)
      · exact absurd h (by decide)
      · exact hc (hall k c (by omega) hget)

/-! ## In an endless entry -/

theorem chunkAddr_wrap_toNat (e : MultibootMmapEntry) (j : Nat) :
    (chunkAddr e j).toNat = (e.addr.toNat + 4096 * j) % 2 ^ 64 := by
  simp only [chunkAddr, BitVec.toNat_add, BitVec.toNat_ofNat]
  omega

theorem request_widen_toNat (req : Frame) : (req.setWidth 64).toNat = req.toNat := by
  have := req.isLt
  rw [BitVec.toNat_setWidth]
  omega

/-- Going round the address space, the steps come to the page of every address from the first
    page boundary on. -/
theorem exists_matches {e : MultibootMmapEntry} {req : Frame}
    (hreq : e.addr.toNat % 4096 ≤ req.toNat) : ∃ n, (Chunk.mk e n).Matches req := by
  have hlt := req.isLt
  have haddr := e.addr.isLt
  refine ⟨(req.toNat - e.addr.toNat % 4096) / 4096 + 2 ^ 52 - e.addr.toNat / 4096, ?_⟩
  unfold Chunk.Matches Chunk.start
  rw [BitVec.le_def, BitVec.le_def, request_widen_toNat, chunkAddr_add_toNat, chunkAddr_wrap_toNat]
  dsimp only
  omega

/-- They stay p the bytes below it. -/
theorem not_matches_low {e : MultibootMmapEntry} {req : Frame}
    (hreq : ¬ e.addr.toNat % 4096 ≤ req.toNat) (j : Nat) : ¬ (Chunk.mk e j).Matches req := by
  rintro ⟨hle, -⟩
  unfold Chunk.start at hle
  rw [BitVec.le_def, request_widen_toNat, chunkAddr_wrap_toNat] at hle
  dsimp only at hle
  omega

section EndlessEntry

variable {area : MultibootTagMmap} {p : BitVec 64} (h : Endless (area.entryAt p))

include h

/-- A loop that does not return at chunk `j` and does at chunk `j + n` ends. The request stays
    as it is unless a RESERVED chunk is looked up by number. -/
theorem endless_yields (mode : BitVec 8)
    (hkeep : ¬ (mode = mmapGetAddr ∧ (area.entryAt p).type = multibootMemoryReserved))
    (n j : Nat) (cur req : Frame)
    (hret : ∃ a, mmapReadStep area mode (.chunk p (chunkAddr (area.entryAt p) (j + n))
      ((area.entryAt p).addr + (area.entryAt p).len) (cur + BitVec.ofNat 32 n) req) =
        .inr a) :
    ∃ a, Yields (mmapReadStep area mode) (.chunk p (chunkAddr (area.entryAt p) j)
      ((area.entryAt p).addr + (area.entryAt p).len) cur req) a := by
  induction n generalizing j cur with
  | zero =>
    obtain ⟨a, ha⟩ := hret
    rw [Nat.add_zero, BitVec.add_zero] at ha
    exact ⟨a, Yields.exit ha⟩
  | succ n ih =>
    have hnext : cur + 1 + BitVec.ofNat 32 n = cur + BitVec.ofNat 32 (n + 1) := by
      rw [BitVec.ofNat_add, BitVec.add_assoc, BitVec.add_comm 1]
      rfl
    have hstep := mmapReadStep_chunk mode (endless_test h j) cur req
    obtain ⟨a, ha⟩ := ih (j + 1) (cur + 1)
      (by rw [hnext, show j + 1 + n = j + (n + 1) by omega]; exact hret)
    dsimp only at hstep
    by_cases hnum : mode = mmapGetNum ∧ (Chunk.mk (area.entryAt p) j).Matches req
    · rw [if_pos hnum] at hstep
      exact ⟨_, Yields.exit hstep⟩
    rw [if_neg hnum] at hstep
    by_cases hres : (Chunk.mk (area.entryAt p) j).Reserved
    · rw [if_pos hres, if_neg (fun hm => hkeep ⟨hm.1, hres⟩)] at hstep
      exact ⟨a, Yields.again hstep ha⟩
    rw [if_neg hres] at hstep
    by_cases hreq : mode = mmapGetAddr ∧ cur = req
    · rw [if_pos hreq] at hstep
      exact ⟨_, Yields.exit hstep⟩
    · rw [if_neg hreq] at hstep
      exact ⟨a, Yields.again hstep ha⟩

/-- Looking up an address of 32 bits that is not below the first page boundary of the entry. -/
theorem endless_getNum {cur req : Frame} (hreq : (area.entryAt p).addr.toNat % 4096 ≤ req.toNat) :
    ∃ a, Yields (mmapReadStep area mmapGetNum) (chunkStart area p cur req) a := by
  obtain ⟨n, hmatch⟩ := exists_matches hreq
  rw [chunkStart_eq]
  refine endless_yields h mmapGetNum (fun hm => absurd hm.1 (by decide)) n 0 cur req ?_
  rw [Nat.zero_add, mmapReadStep_chunk mmapGetNum (endless_test h n)]
  exact ⟨_, if_pos ⟨rfl, hmatch⟩⟩

/-- The counter comes to every number. -/
theorem endless_getAddr {cur req : Frame}
    (htype : (area.entryAt p).type ≠ multibootMemoryReserved) :
    ∃ a, Yields (mmapReadStep area mmapGetAddr) (chunkStart area p cur req) a := by
  have hcur : cur + BitVec.ofNat 32 (req - cur).toNat = req := by
    rw [BitVec.ofNat_toNat, BitVec.setWidth_eq, BitVec.add_comm, BitVec.sub_add_cancel]
  rw [chunkStart_eq]
  have hres : ¬ (Chunk.mk (area.entryAt p) (req - cur).toNat).Reserved := htype
  refine endless_yields h mmapGetAddr (fun hm => htype hm.2) (req - cur).toNat 0 cur req ?_
  rw [Nat.zero_add, hcur, mmapReadStep_chunk mmapGetAddr (endless_test h _)]
  dsimp only
  rw [if_neg (fun hm => absurd hm.1 (by decide)), if_neg hres, if_pos ⟨rfl, rfl⟩]
  exact ⟨_, rfl⟩

/-- A request that does not escape is never answered. -/
theorem endless_stuck {mode : BitVec 8} (hmode : mode = mmapGetNum ∨ mode = mmapGetAddr)
    {cur req : Frame} (hstuck : ¬ Escapes mode req (area.entryAt p)) (a : PhysicalAddress) :
    ¬ Yields (mmapReadStep area mode) (chunkStart area p cur req) a := by
  -- the loop stays on the chunks of the entry, and a search by address keeps its request
  refine not_yields_of_invariant (P := fun s => ∃ j cur' req',
    s = .chunk p (chunkAddr (area.entryAt p) j)
      ((area.entryAt p).addr + (area.entryAt p).len) cur' req' ∧
    (mode = mmapGetNum → req' = req)) ?_
    ⟨0, cur, req, chunkStart_eq area p cur req, fun _ => rfl⟩ a
  rintro s ⟨j, cur', req', rfl, hreq'⟩
  rw [mmapReadStep_chunk mode (endless_test h j)]
  dsimp only
  rcases hmode with rfl | rfl
  · obtain rfl := hreq' rfl
    have hlow : ¬ (area.entryAt p).addr.toNat % 4096 ≤ req'.toNat :=
      fun hle => hstuck (Or.inl ⟨rfl, hle⟩)
    have haddr : ∀ c : Frame, ¬ (mmapGetNum = mmapGetAddr ∧ c = req') :=
      fun _ hm => absurd hm.1 (by decide)
    rw [if_neg (fun hm => not_matches_low hlow j hm.2), if_neg (haddr _), if_neg (haddr _),
      ite_self]
    exact ⟨_, rfl, j + 1, _, _, rfl, fun _ => rfl⟩
  · have hres : (Chunk.mk (area.entryAt p) j).Reserved := by
      by_contra hres
      exact hstuck (Or.inr ⟨rfl, hres⟩)
    rw [if_neg (fun hm => absurd hm.1 (by decide)), if_pos hres]
    exact ⟨_, rfl, j + 1, _, _, rfl, fun hm => absurd hm (by decide)⟩

theorem endless_yields_iff {mode : BitVec 8} (hmode : mode = mmapGetNum ∨ mode = mmapGetAddr)
    (cur req : Frame) :
    (∃ a, Yields (mmapReadStep area mode) (chunkStart area p cur req) a) ↔
      Escapes mode req (area.entryAt p) := by
  constructor
  · rintro ⟨a, ha⟩
    by_contra hstuck
    exact endless_stuck h hmode hstuck a ha
  · rintro (⟨rfl, hreq⟩ | ⟨rfl, htype⟩)
    · exact endless_getNum h hreq
    · exact endless_getAddr h htype

end EndlessEntry

/-! ## The whole read -/

theorem mmapRead_ends_yields {area : MultibootTagMmap} {request : Frame} {mode : BitVec 8}
    (hmode : mode = mmapGetNum ∨ mode = mmapGetAddr) :
    (∃ a, Returns (fun n => mmapRead n area request mode) a) ↔
      ∃ a, Yields (mmapReadStep area mode) (.entry area.first 0 request) a := by
  have hread : (fun n => mmapRead n area request mode) =
      fun n => loop (mmapReadStep area mode) n (.entry area.first 0 request) := by
    funext n
    rw [mmapRead, if_neg]
    rintro ⟨h1, h2⟩
    exact hmode.elim h1 h2
  rw [hread]
  exact exists_congr fun a => ⟨Returns.yields, Yields.returns⟩

section Read

variable {area : MultibootTagMmap} {mode : BitVec 8} {n : Nat}
  (hmode : mode = mmapGetNum ∨ mode = mmapGetAddr) (request : Frame)
  (hlen : (area.entriesFrom n area.first).length = n)
  (hends : ∀ e ∈ area.entriesFrom n area.first, ¬ Endless e)

include hmode hlen hends

/-- The first `n` entries are left by a return, or the loop comes to the next one. -/
theorem entryLoop_first :
    (Answered mode request (loopChunks (area.entriesFrom n area.first)) ∧
        ∃ a, Yields (mmapReadStep area mode) (.entry area.first 0 request) a) ∨
      (¬ Answered mode request (loopChunks (area.entriesFrom n area.first)) ∧
        ∃ cur req, Visits (mmapReadStep area mode) (.entry area.first 0 request)
            (.entry (area.pointer area.first n) cur req) ∧
          scanTo mode 0 request (loopChunks (area.entriesFrom n area.first)) = .inl (cur, req) ∧
          (Escapes mode req = Escapes mode request)) := by
  have hpass := entryLoop_passes mode hlen hends 0 request
  rcases scanTo_answered hmode request (loopChunks (area.entriesFrom n area.first)) with
    ⟨hans, a, ha⟩ | ⟨hans, cur, req, hto, hreq⟩
  · rw [ha] at hpass
    exact Or.inl ⟨hans, a, hpass⟩
  · rw [hto] at hpass
    refine Or.inr ⟨hans, cur, req, hpass, hto, ?_⟩
    rcases hmode with rfl | rfl
    · rw [hreq rfl]
    · funext e
      simp only [Escapes, show mmapGetAddr ≠ mmapGetNum by decide, false_and, false_or]

/-- With an endless entry after them the loops end if the chunks before it answer the request,
    or if the loop returns from that entry. -/
theorem yields_iff_of_endless (hp : area.pointer area.first n < area.limit)
    (he : Endless (area.entryAt (area.pointer area.first n))) :
    (∃ a, Yields (mmapReadStep area mode) (.entry area.first 0 request) a) ↔
      Answered mode request (loopChunks (area.entriesFrom n area.first)) ∨
        Escapes mode request (area.entryAt (area.pointer area.first n)) := by
  rcases entryLoop_first hmode request hlen hends with
    ⟨hans, hyields⟩ | ⟨hans, cur, req, hvisits, -, hescape⟩
  · exact ⟨fun _ => Or.inl hans, fun _ => hyields⟩
  · have henter : Visits (mmapReadStep area mode) (.entry area.first 0 request)
        (chunkStart area (area.pointer area.first n) cur req) := by
      refine Visits.trans hvisits (Visits.next ?_ (Visits.here _))
      simp only [mmapReadStep]
      rw [if_pos hp]
      rfl
    rw [or_iff_right hans, ← hescape, ← endless_yields_iff he hmode cur req]
    exact exists_congr fun a => Visits.yields_iff henter a

/-- At the end of the tag the loops end. -/
theorem yields_of_end (hp : ¬ area.pointer area.first n < area.limit) :
    ∃ a, Yields (mmapReadStep area mode) (.entry area.first 0 request) a := by
  rcases entryLoop_first hmode request hlen hends with
    ⟨-, hyields⟩ | ⟨-, cur, req, hvisits, -, -⟩
  · exact hyields
  · refine ⟨0, (Visits.yields_iff hvisits 0).mpr (Yields.exit ?_)⟩
    simp only [mmapReadStep]
    rw [if_neg hp]

end Read

/-- The loops come to an end after `n` entries: the pointer is then at the end of the tag, or a
    chunk of these entries answers the request, or the loop returns from an endless entry that
    comes next. -/
def EndsAfter (area : MultibootTagMmap) (mode : BitVec 8) (request : Frame) (n : Nat) : Prop :=
  ¬ area.pointer area.first n < area.limit ∨
    Answered mode request (loopChunks (area.entriesFrom n area.first)) ∨
    (Endless (area.entryAt (area.pointer area.first n)) ∧
      Escapes mode request (area.entryAt (area.pointer area.first n)))

/-- The entry loop never gets past the tag, and no entry that it comes to ends it. -/
theorem not_yields_of_endless_tag {area : MultibootTagMmap} {mode : BitVec 8}
    (hmode : mode = mmapGetNum ∨ mode = mmapGetAddr) (request : Frame)
    (hgo : ∀ n, (area.entriesFrom n area.first).length = n →
      (∀ e ∈ area.entriesFrom n area.first, ¬ Endless e) →
      area.pointer area.first n < area.limit ∧
        ¬ Answered mode request (loopChunks (area.entriesFrom n area.first)) ∧
        ¬ Endless (area.entryAt (area.pointer area.first n))) (a : PhysicalAddress) :
    ¬ Yields (mmapReadStep area mode) (.entry area.first 0 request) a := by
  -- the loop comes back to its head with one entry more, none of them endless
  refine not_yields_of_returning (P := fun s => ∃ n cur req,
    s = .entry (area.pointer area.first n) cur req ∧
    (area.entriesFrom n area.first).length = n ∧
    (∀ e ∈ area.entriesFrom n area.first, ¬ Endless e) ∧
    scanTo mode 0 request (loopChunks (area.entriesFrom n area.first)) = .inl (cur, req)) ?_
    ⟨0, 0, request, rfl, rfl, by simp [MultibootTagMmap.entriesFrom], rfl⟩ a
  rintro s ⟨n, cur, req, rfl, hlen, hends, hto⟩
  obtain ⟨hp, -, hend⟩ := hgo n hlen hends
  have hsucc := entriesFrom_succ hlen hp
  have hlen' : (area.entriesFrom (n + 1) area.first).length = n + 1 := by
    rw [hsucc, List.length_append, hlen, List.length_singleton]
  have hends' : ∀ e ∈ area.entriesFrom (n + 1) area.first, ¬ Endless e := by
    rw [hsucc]
    intro e he
    rcases List.mem_append.mp he with hold | hnew
    · exact hends e hold
    · rw [List.mem_singleton.mp hnew]
      exact hend
  obtain ⟨-, hans', -⟩ := hgo (n + 1) hlen' hends'
  obtain ⟨cur', req', hto', -⟩ :=
    ((scanTo_answered hmode request _).resolve_left fun h => hans' h.1).2
  have hchunks : loopChunks (area.entriesFrom (n + 1) area.first) =
      loopChunks (area.entriesFrom n area.first) ++
        entryChunks (area.entryAt (area.pointer area.first n)) 0
          (passes (area.entryAt (area.pointer area.first n))) := by
    rw [hsucc]
    simp [loopChunks]
  have hpass := chunkLoop_passes mode (counts_passes hend) _ 0 (Nat.zero_add _) cur req
  have hlast : scanTo mode cur req (entryChunks (area.entryAt (area.pointer area.first n)) 0
      (passes (area.entryAt (area.pointer area.first n)))) = .inl (cur', req') := by
    rw [hchunks, scanTo_append, hto] at hto'
    exact hto'
  rw [hlast, ← area.pointer_succ, ← chunkStart_eq] at hpass
  have hstep : mmapReadStep area mode (.entry (area.pointer area.first n) cur req) =
      .inl (chunkStart area (area.pointer area.first n) cur req) := by
    simp only [mmapReadStep]
    rw [if_pos hp]
    rfl
  exact ⟨_, _, hstep, hpass, n + 1, cur', req', rfl, hlen', hends', hto'⟩

/-- `mmap_read` ends, on every tag at whatever address and of whatever entry_size, exactly if
    after some number of entries, all before the end of the tag and none of them endless, the
    pointer is at the end of the tag, a chunk has answered the request, or an endless entry
    comes from which the loop returns. -/
theorem mmapRead_ends_iff (area : MultibootTagMmap) (request : Frame) (mode : BitVec 8)
    (hmode : mode = mmapGetNum ∨ mode = mmapGetAddr) :
    (∃ a, Returns (fun n => mmapRead n area request mode) a) ↔
      ∃ n, (area.entriesFrom n area.first).length = n ∧
        (∀ e ∈ area.entriesFrom n area.first, ¬ Endless e) ∧
        EndsAfter area mode request n := by
  rw [mmapRead_ends_yields hmode]
  constructor
  · rintro ⟨a, hyields⟩
    by_contra hnone
    have hfail : ∀ n, (area.entriesFrom n area.first).length = n →
        (∀ e ∈ area.entriesFrom n area.first, ¬ Endless e) → ¬ EndsAfter area mode request n :=
      fun n hlen hends hafter => hnone ⟨n, hlen, hends, hafter⟩
    refine not_yields_of_endless_tag hmode request (fun n hlen hends => ?_) a hyields
    have hafter := hfail n hlen hends
    rw [EndsAfter, not_or, not_or, not_not] at hafter
    obtain ⟨hp, hans, hescape⟩ := hafter
    refine ⟨hp, hans, fun he => ?_⟩
    rcases (yields_iff_of_endless hmode request hlen hends hp he).mp ⟨a, hyields⟩ with h | h
    · exact hans h
    · exact hescape ⟨he, h⟩
  · rintro ⟨n, hlen, hends, hp | hans | ⟨he, hescape⟩⟩
    · exact yields_of_end hmode request hlen hends hp
    · rcases entryLoop_first hmode request hlen hends with ⟨-, hyields⟩ | ⟨hans', -⟩
      · exact hyields
      · exact absurd hans hans'
    · by_cases hp : area.pointer area.first n < area.limit
      · exact (yields_iff_of_endless hmode request hlen hends hp he).mpr (Or.inr hescape)
      · exact yields_of_end hmode request hlen hends hp

/-- The last page of the address space but its last byte, RESERVED. -/
def topTag : MultibootTagMmap :=
  tagOf [⟨0xfffffffffffff000, 0xfff, multibootMemoryReserved⟩]

/-- A page of memory before it. -/
def coveredTopTag : MultibootTagMmap :=
  tagOf [⟨0x1000, 0x1001, multibootMemoryAvailable⟩,
    ⟨0xfffffffffffff000, 0xfff, multibootMemoryReserved⟩]

theorem mmapRead_ends_iff_coveredTopTag :
    24 ≤ coveredTopTag.entrySize.toNat ∧
    ∃ a, Returns (fun n => mmapRead n coveredTopTag 0 mmapGetAddr) a := by
  refine ⟨by decide, (mmapRead_ends_iff coveredTopTag 0 mmapGetAddr (Or.inr rfl)).mpr
    ⟨1, by decide, by decide, Or.inr (Or.inl (Or.inr ⟨rfl, 0, ?_⟩))⟩⟩
  exact ⟨⟨⟨0x1000, 0x1001, multibootMemoryAvailable⟩, 0⟩, by decide, by decide, by decide⟩

/-- The search for any number in `topTag` goes round the address space for ever. -/
theorem mmapRead_endless :
    ¬ ∀ area : MultibootTagMmap, 24 ≤ area.entrySize.toNat → ∀ (request : Frame) (mode : BitVec 8),
      (mode = mmapGetNum ∨ mode = mmapGetAddr) →
        ∃ a, Returns (fun n => mmapRead n area request mode) a := by
  intro h
  have hends := h topTag (by decide) 0 mmapGetAddr (Or.inr rfl)
  rw [mmapRead_ends_yields (Or.inr rfl), yields_iff_of_endless (n := 0) (Or.inr rfl) 0 rfl
    (by simp [MultibootTagMmap.entriesFrom]) (by decide) (by decide)] at hends
  rcases hends with (⟨h, -⟩ | ⟨-, k, c, -, hget, -⟩) | (⟨h, -⟩ | ⟨-, htype⟩)
  · exact absurd h (by decide)
  · simp [loopChunks, MultibootTagMmap.entriesFrom] at hget
  · exact absurd h (by decide)
  · exact htype rfl

end Utero.Mmu
