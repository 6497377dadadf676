/-
  `src/core/boot.c`: the walk over the multiboot2 information block.

  Memory is a function from 64-bit addresses to bytes, read in little-endian words; pointers
  wrap at 2^64. Both functions step from a tag to the next one with the size the tag itself
  gives, rounded up in 32 bits, until a tag of type END. Neither looks at `mbi->size`.

  `readMultibootInfo` is one loop over `InfoState`: `tag` is the head of the tag loop, `mmap`
  and `elf` are the heads of the two inner loops. `DEBUG` is empty unless
  `ENABLE_KERNEL_DEBUG` is defined, and every case of the `switch` that only calls it goes on
  with the next tag.

  `Chain mem n tag`: from `tag` on, `n` tags come before the first END. `Walkable` adds that
  the entry loop of each MMAP tag among them ends, which is a matter of its `entry_size`.
  `readMultibootInfo_iff`: these are exactly the blocks on which the walk ends.
-/
import Utero.Mmu.Mmap

namespace Utero.Core

open Utero.Lib Utero.Mmu

abbrev Memory := BitVec 64 → BitVec 8

def load32 (mem : Memory) (a : BitVec 64) : BitVec 32 :=
  mem (a + 3) ++ mem (a + 2) ++ mem (a + 1) ++ mem a

def load64 (mem : Memory) (a : BitVec 64) : BitVec 64 :=
  load32 mem (a + 4) ++ load32 mem a

def multiboot2MagicValue : BitVec 64 := 0x36d76289

def multibootIsValid (magic addr : BitVec 64) : Bool :=
  magic = multiboot2MagicValue ∧ addr &&& 7 = 0

def multibootTagTypeEnd : BitVec 32 := 0
def multibootTagTypeMmap : BitVec 32 := 6
def multibootTagTypeElfSections : BitVec 32 := 9
def multibootElfSectionTypeNull : BitVec 32 := 0

section Model

variable (mem : Memory)

/-! ## Tags -/

def tagType (tag : BitVec 64) : BitVec 32 := load32 mem tag

def tagSize (tag : BitVec 64) : BitVec 32 := load32 mem (tag + 4)

/-- `tag + ((tag->size + 7) & ~7)`; the rounding is in 32 bits. -/
def nextTag (tag : BitVec 64) : BitVec 64 :=
  tag + ((tagSize mem tag + 7) &&& ~~~7).setWidth 64

/-- `find_multiboot_tag`: one test of the loop condition, with the body when it holds. -/
def findMultibootTagStep (type : BitVec 16) (tag : BitVec 64) : BitVec 64 ⊕ BitVec 64 :=
  if tagType mem tag ≠ multibootTagTypeEnd then
    if tagType mem tag = type.setWidth 32 then .inr tag else .inl (nextTag mem tag)
  else .inr 0

def findMultibootTag (fuel : Nat) (tags : BitVec 64) (type : BitVec 16) : Option (BitVec 64) :=
  loop (findMultibootTagStep mem type) fuel tags

/-! ## `read_multiboot_info` -/

def mmapEntrySize (tag : BitVec 64) : BitVec 64 := (load32 mem (tag + 8)).setWidth 64

/-- The address after the last byte of the tag, without padding. -/
def tagEnd (tag : BitVec 64) : BitVec 64 := tag + (tagSize mem tag).setWidth 64

def elfNum (tag : BitVec 64) : BitVec 32 := load32 mem (tag + 8)

def elfSectionSize (tag : BitVec 64) : BitVec 64 := (load32 mem (tag + 12)).setWidth 64

/-- The body of the ELF loop: the kernel range takes in a section that is not NULL. -/
def elfSection (elf : BitVec 64) (reserved : ReservedAreas) : ReservedAreas :=
  if load32 mem (elf + 4) = multibootElfSectionTypeNull then reserved
  else
    let addr := load64 mem (elf + 16)
    let size := load64 mem (elf + 32)
    let reserved :=
      if addr < reserved.kernelStart then { reserved with kernelStart := addr } else reserved
    if reserved.kernelEnd < addr + size then { reserved with kernelEnd := addr + size }
    else reserved

inductive InfoState where
  | tag (tag : BitVec 64) (reserved : ReservedAreas)
  | mmap (tag mmap : BitVec 64) (reserved : ReservedAreas)
  | elf (tag : BitVec 64) (i : BitVec 32) (elf : BitVec 64) (reserved : ReservedAreas)

/-- The tag a state is at. -/
def InfoState.current : InfoState → BitVec 64
  | .tag t _ => t
  | .mmap t _ _ => t
  | .elf t _ _ _ => t

def readMultibootInfoStep : InfoState → InfoState ⊕ ReservedAreas
  | .tag tag reserved =>
    if tagType mem tag ≠ multibootTagTypeEnd then
      if tagType mem tag = multibootTagTypeMmap then .inl (.mmap tag (tag + 16) reserved)
      else if tagType mem tag = multibootTagTypeElfSections then
        .inl (.elf tag 0 (tag + 20) reserved)
      else .inl (.tag (nextTag mem tag) reserved)
    else .inr { reserved with multibootEnd := nextTag mem tag }
  | .mmap tag mmap reserved =>
    if mmap < tagEnd mem tag then .inl (.mmap tag (mmap + mmapEntrySize mem tag) reserved)
    else .inl (.tag (nextTag mem tag) reserved)
  | .elf tag i elf reserved =>
    if i < elfNum mem tag then
      .inl (.elf tag (i + 1) (elf + elfSectionSize mem tag) (elfSection mem elf reserved))
    else .inl (.tag (nextTag mem tag) reserved)

/-- `reserved` at the start; -1 is the largest `uint64_t`. -/
def initialAreas (mbi : BitVec 64) : ReservedAreas where
  kernelStart := -1
  kernelEnd := 0
  multibootStart := mbi
  multibootEnd := 0

def readMultibootInfo (fuel : Nat) (mbi : BitVec 64) : Option ReservedAreas :=
  loop (readMultibootInfoStep mem) fuel (.tag (mbi + 8) (initialAreas mbi))

/-! ## Chains of tags -/

/-- From `tag` on, `n` tags come before the first END. -/
def Chain : Nat → BitVec 64 → Prop
  | 0, tag => tagType mem tag = multibootTagTypeEnd
  | n + 1, tag => tagType mem tag ≠ multibootTagTypeEnd ∧ Chain n (nextTag mem tag)

/-- The `k`-th tag from `tag` on. -/
def tagAt : Nat → BitVec 64 → BitVec 64
  | 0, tag => tag
  | k + 1, tag => tagAt k (nextTag mem tag)

/-- The entry loop of an MMAP tag ends when it stands at pointer `mmap`: some number of entries
    leads to or past the end of the tag, counting modulo 2^64. -/
def EntriesEnd (tag mmap : BitVec 64) : Prop :=
  ∃ k : Nat, tagEnd mem tag ≤ mmap + BitVec.ofNat 64 k * mmapEntrySize mem tag

/-- Of the `n` tags from `tag` on, the entry loop of every MMAP tag ends. -/
def MmapLoopsEnd (n : Nat) (tag : BitVec 64) : Prop :=
  ∀ k < n, tagType mem (tagAt mem k tag) = multibootTagTypeMmap →
    EntriesEnd mem (tagAt mem k tag) (tagAt mem k tag + 16)

/-- The ELF loop over `n` sections from pointer `elf` on. -/
def elfSections (sectionSize : BitVec 64) : Nat → BitVec 64 → ReservedAreas → ReservedAreas
  | 0, _, reserved => reserved
  | n + 1, elf, reserved =>
    elfSections sectionSize n (elf + sectionSize) (elfSection mem elf reserved)

/-- What one tag adds to the reserved areas. -/
def readTag (tag : BitVec 64) (reserved : ReservedAreas) : ReservedAreas :=
  if tagType mem tag = multibootTagTypeElfSections then
    elfSections mem (elfSectionSize mem tag) (elfNum mem tag).toNat (tag + 20) reserved
  else reserved

/-- The result of the walk over `n` tags and the END tag. -/
def readChain : Nat → BitVec 64 → ReservedAreas → ReservedAreas
  | 0, tag, reserved => { reserved with multibootEnd := nextTag mem tag }
  | n + 1, tag, reserved => readChain n (nextTag mem tag) (readTag mem tag reserved)

end Model

section Walk

variable {mem : Memory}

theorem MmapLoopsEnd.tail {n : Nat} {tag : BitVec 64} (h : MmapLoopsEnd mem (n + 1) tag) :
    MmapLoopsEnd mem n (nextTag mem tag) :=
  fun k hk => h (k + 1) (by omega)

theorem MmapLoopsEnd.cons {n : Nat} {tag : BitVec 64}
    (h0 : tagType mem tag = multibootTagTypeMmap → EntriesEnd mem tag (tag + 16))
    (h : MmapLoopsEnd mem n (nextTag mem tag)) : MmapLoopsEnd mem (n + 1) tag := by
  intro k hk
  cases k with
  | zero => exact h0
  | succ k => exact h k (by omega)

/-- The pointer after one more entry. -/
theorem entryPointer_succ (mmap size : BitVec 64) (k : Nat) :
    mmap + BitVec.ofNat 64 (k + 1) * size = mmap + size + BitVec.ofNat 64 k * size := by
  rw [BitVec.ofNat_add, BitVec.add_mul, BitVec.one_mul,
    BitVec.add_comm (BitVec.ofNat 64 k * size), BitVec.add_assoc]

/-! ## The walk ends on a walkable chain -/

theorem elfLoop_yields {tag : BitVec 64} {res : ReservedAreas → ReservedAreas}
    (hnext : ∀ r, Yields (readMultibootInfoStep mem) (.tag (nextTag mem tag) r) (res r))
    (n : Nat) (i : BitVec 32) (hn : i.toNat + n = (elfNum mem tag).toNat) (elf : BitVec 64)
    (r : ReservedAreas) :
    Yields (readMultibootInfoStep mem) (.elf tag i elf r)
      (res (elfSections mem (elfSectionSize mem tag) n elf r)) := by
  induction n generalizing i elf r with
  | zero =>
    refine Yields.again ?_ (hnext r)
    simp only [readMultibootInfoStep]
    rw [if_neg (by rw [BitVec.lt_def]; omega)]
  | succ n ih =>
    have hlt := (elfNum mem tag).isLt
    have hi : (i + 1).toNat = i.toNat + 1 := by
      rw [BitVec.toNat_add, show (1 : BitVec 32).toNat = 1 from rfl]
      omega
    refine Yields.again ?_ (ih (i + 1) (by omega) _ _)
    simp only [readMultibootInfoStep]
    rw [if_pos (by rw [BitVec.lt_def]; omega)]

theorem mmapLoop_yields {tag : BitVec 64} {r res : ReservedAreas}
    (hnext : Yields (readMultibootInfoStep mem) (.tag (nextTag mem tag) r) res) (k : Nat)
    (mmap : BitVec 64)
    (hk : tagEnd mem tag ≤ mmap + BitVec.ofNat 64 k * mmapEntrySize mem tag) :
    Yields (readMultibootInfoStep mem) (.mmap tag mmap r) res := by
  induction k generalizing mmap with
  | zero =>
    refine Yields.again ?_ hnext
    simp only [readMultibootInfoStep]
    rw [BitVec.zero_mul, BitVec.add_zero, BitVec.le_def] at hk
    rw [if_neg (by rw [BitVec.lt_def]; omega)]
  | succ k ih =>
    by_cases hlt : mmap < tagEnd mem tag
    · refine Yields.again ?_ (ih (mmap + mmapEntrySize mem tag) ?_)
      · simp only [readMultibootInfoStep]
        rw [if_pos hlt]
      · rwa [entryPointer_succ] at hk
    · refine Yields.again ?_ hnext
      simp only [readMultibootInfoStep]
      rw [if_neg hlt]

/-- The walk from a tag, `n` tags before END, all of whose entry loops end. -/
theorem readChain_yields {n : Nat} {tag : BitVec 64} (hchain : Chain mem n tag)
    (hmmap : MmapLoopsEnd mem n tag) (r : ReservedAreas) :
    Yields (readMultibootInfoStep mem) (.tag tag r) (readChain mem n tag r) := by
  induction n generalizing tag r with
  | zero =>
    have hend : tagType mem tag = multibootTagTypeEnd := hchain
    refine Yields.exit ?_
    simp only [readMultibootInfoStep]
    rw [if_neg (not_not_intro hend)]
    rfl
  | succ n ih =>
    obtain ⟨hne, hchain⟩ := hchain
    have hnext := fun r => ih hchain hmmap.tail r
    rw [readChain, readTag]
    by_cases hm : tagType mem tag = multibootTagTypeMmap
    · obtain ⟨k, hk⟩ := hmmap 0 (by omega) hm
      rw [if_neg (by rw [hm]; decide)]
      refine Yields.again ?_ (mmapLoop_yields (hnext r) k _ hk)
      simp only [readMultibootInfoStep]
      rw [if_pos hne, if_pos hm]
      rfl
    by_cases he : tagType mem tag = multibootTagTypeElfSections
    · rw [if_pos he]
      refine Yields.again ?_ (elfLoop_yields hnext (elfNum mem tag).toNat 0 (by simp) _ r)
      simp only [readMultibootInfoStep]
      rw [if_pos hne, if_neg hm, if_pos he]
    · rw [if_neg he]
      refine Yields.again ?_ (hnext r)
      simp only [readMultibootInfoStep]
      rw [if_pos hne, if_neg hm, if_neg he]

/-! ## The walk ends only on a walkable chain -/

/-- Some END tag is reached, and every entry loop on the way ends. -/
def Walkable (mem : Memory) (tag : BitVec 64) : Prop :=
  ∃ n, Chain mem n tag ∧ MmapLoopsEnd mem n tag

theorem Walkable.cons {tag : BitVec 64} (hne : tagType mem tag ≠ multibootTagTypeEnd)
    (h0 : tagType mem tag = multibootTagTypeMmap → EntriesEnd mem tag (tag + 16))
    (h : Walkable mem (nextTag mem tag)) : Walkable mem tag := by
  obtain ⟨n, hchain, hmmap⟩ := h
  exact ⟨n + 1, ⟨hne, hchain⟩, hmmap.cons h0⟩

/-- What a state that leads to an end has ahead of it. -/
def Ahead (mem : Memory) : InfoState → Prop
  | .tag tag _ => Walkable mem tag
  | .mmap tag mmap _ => EntriesEnd mem tag mmap ∧ Walkable mem (nextTag mem tag)
  | .elf tag _ _ _ => Walkable mem (nextTag mem tag)

theorem EntriesEnd.here {tag mmap : BitVec 64} (h : ¬ mmap < tagEnd mem tag) :
    EntriesEnd mem tag mmap := by
  refine ⟨0, ?_⟩
  rw [BitVec.zero_mul, BitVec.add_zero]
  exact BitVec.not_lt.mp h

theorem EntriesEnd.before {tag mmap : BitVec 64}
    (h : EntriesEnd mem tag (mmap + mmapEntrySize mem tag)) : EntriesEnd mem tag mmap := by
  obtain ⟨k, hk⟩ := h
  exact ⟨k + 1, by rwa [entryPointer_succ]⟩

/-- The steps of `read_multiboot_info` that do not end it. -/
inductive InfoMove (mem : Memory) : InfoState → InfoState → Prop
  | mmapTag {tag : BitVec 64} (r : ReservedAreas)
      (hne : tagType mem tag ≠ multibootTagTypeEnd) :
      InfoMove mem (.tag tag r) (.mmap tag (tag + 16) r)
  | elfTag {tag : BitVec 64} (r : ReservedAreas) (hne : tagType mem tag ≠ multibootTagTypeEnd)
      (hm : tagType mem tag ≠ multibootTagTypeMmap) :
      InfoMove mem (.tag tag r) (.elf tag 0 (tag + 20) r)
  | otherTag {tag : BitVec 64} (r : ReservedAreas) (hne : tagType mem tag ≠ multibootTagTypeEnd)
      (hm : tagType mem tag ≠ multibootTagTypeMmap) :
      InfoMove mem (.tag tag r) (.tag (nextTag mem tag) r)
  | mmapEntry (tag mmap : BitVec 64) (r : ReservedAreas) :
      InfoMove mem (.mmap tag mmap r) (.mmap tag (mmap + mmapEntrySize mem tag) r)
  | mmapEnd {tag mmap : BitVec 64} (r : ReservedAreas) (h : ¬ mmap < tagEnd mem tag) :
      InfoMove mem (.mmap tag mmap r) (.tag (nextTag mem tag) r)
  | elfEntry (tag : BitVec 64) (i : BitVec 32) (elf : BitVec 64) (r : ReservedAreas) :
      InfoMove mem (.elf tag i elf r)
        (.elf tag (i + 1) (elf + elfSectionSize mem tag) (elfSection mem elf r))
  | elfEnd (tag : BitVec 64) (i : BitVec 32) (elf : BitVec 64) (r : ReservedAreas) :
      InfoMove mem (.elf tag i elf r) (.tag (nextTag mem tag) r)

theorem move_of_step {s s' : InfoState} (hstep : readMultibootInfoStep mem s = .inl s') :
    InfoMove mem s s' := by
  cases s with
  | tag tag r =>
    simp only [readMultibootInfoStep] at hstep
    split at hstep
    · rename_i hne
      split at hstep
      · cases hstep
        exact InfoMove.mmapTag r hne
      · rename_i hm
        split at hstep
        · cases hstep
          exact InfoMove.elfTag r hne hm
        · cases hstep
          exact InfoMove.otherTag r hne hm
    · cases hstep
  | mmap tag mmap r =>
    simp only [readMultibootInfoStep] at hstep
    split at hstep
    · cases hstep
      exact InfoMove.mmapEntry tag mmap r
    · rename_i hlt
      cases hstep
      exact InfoMove.mmapEnd r hlt
  | elf tag i elf r =>
    simp only [readMultibootInfoStep] at hstep
    split at hstep
    · cases hstep
      exact InfoMove.elfEntry tag i elf r
    · cases hstep
      exact InfoMove.elfEnd tag i elf r

/-- It ends at an END tag only. -/
theorem end_of_step {s : InfoState} {res : ReservedAreas}
    (hstep : readMultibootInfoStep mem s = .inr res) :
    ∃ tag r, s = .tag tag r ∧ tagType mem tag = multibootTagTypeEnd := by
  cases s with
  | tag tag r =>
    simp only [readMultibootInfoStep] at hstep
    split at hstep
    · split at hstep
      · cases hstep
      · split at hstep <;> cases hstep
    · rename_i hend
      exact ⟨tag, r, rfl, Decidable.not_not.mp hend⟩
  | mmap tag mmap r =>
    simp only [readMultibootInfoStep] at hstep
    split at hstep <;> cases hstep
  | elf tag i elf r =>
    simp only [readMultibootInfoStep] at hstep
    split at hstep <;> cases hstep

theorem ahead_of_move {s s' : InfoState} (hmove : InfoMove mem s s') (h : Ahead mem s') :
    Ahead mem s := by
  cases hmove with
  | mmapTag r hne => exact h.2.cons hne fun _ => h.1
  | elfTag r hne hm => exact Walkable.cons hne (fun hm' => absurd hm' hm) h
  | otherTag r hne hm => exact Walkable.cons hne (fun hm' => absurd hm' hm) h
  | mmapEntry tag mmap r => exact ⟨h.1.before, h.2⟩
  | mmapEnd r hlt => exact ⟨EntriesEnd.here hlt, h⟩
  | elfEntry tag i elf r => exact h
  | elfEnd tag i elf r => exact h

theorem ahead_of_yields {s : InfoState} {res : ReservedAreas}
    (h : Yields (readMultibootInfoStep mem) s res) : Ahead mem s := by
  induction h with
  | exit hs =>
    obtain ⟨tag, r, rfl, hend⟩ := end_of_step hs
    exact ⟨0, hend, fun k hk => absurd hk (Nat.not_lt_zero k)⟩
  | again hs _ ih => exact ahead_of_move (move_of_step hs) ih

/-- `read_multiboot_info` ends exactly on the blocks whose first tag is `Walkable`. -/
theorem readMultibootInfo_iff (mem : Memory) (mbi : BitVec 64) :
    (∃ res, Returns (fun n => readMultibootInfo mem n mbi) res) ↔ Walkable mem (mbi + 8) := by
  constructor
  · rintro ⟨res, h⟩
    exact ahead_of_yields (Returns.yields h)
  · rintro ⟨n, hchain, hmmap⟩
    exact ⟨_, (readChain_yields hchain hmmap (initialAreas mbi)).returns⟩

/-! ## The tags visited -/

theorem tagAt_succ (k : Nat) (tag : BitVec 64) :
    tagAt mem (k + 1) tag = nextTag mem (tagAt mem k tag) := by
  induction k generalizing tag with
  | zero => rfl
  | succ k ih => exact ih (nextTag mem tag)

theorem Chain.atEnd {n : Nat} {tag : BitVec 64} (h : Chain mem n tag) :
    tagType mem (tagAt mem n tag) = multibootTagTypeEnd := by
  induction n generalizing tag with
  | zero => exact h
  | succ n ih => exact ih h.2

theorem Chain.before {n k : Nat} {tag : BitVec 64} (h : Chain mem n tag) (hk : k < n) :
    tagType mem (tagAt mem k tag) ≠ multibootTagTypeEnd := by
  induction n generalizing k tag with
  | zero => exact absurd hk (Nat.not_lt_zero k)
  | succ n ih =>
    cases k with
    | zero => exact h.1
    | succ k =>
      have hrest := ih h.2 (Nat.lt_of_succ_lt_succ hk)
      exact hrest

/-- A tag of the chain that is not END has another one after it. -/
theorem Chain.next {n k : Nat} {tag : BitVec 64} (h : Chain mem n tag) (hk : k ≤ n)
    (hne : tagType mem (tagAt mem k tag) ≠ multibootTagTypeEnd) : k < n := by
  rcases Nat.lt_or_eq_of_le hk with hlt | rfl
  · exact hlt
  · exact absurd h.atEnd hne

theorem findVisits_of_chain {n : Nat} {tag t : BitVec 64} {type : BitVec 16}
    (hchain : Chain mem n tag) (h : Visits (findMultibootTagStep mem type) tag t) :
    ∃ k ≤ n, t = tagAt mem k tag := by
  refine h.invariant (P := fun t => ∃ k ≤ n, t = tagAt mem k tag) ?_ ⟨0, by omega, rfl⟩
  rintro _ t' ⟨k, hk, rfl⟩ hstep
  simp only [findMultibootTagStep] at hstep
  split at hstep
  · rename_i hne
    split at hstep
    · cases hstep
    · cases hstep
      exact ⟨k + 1, hchain.next hk hne, (tagAt_succ k tag).symm⟩
  · cases hstep

/-- The search for END passes through every tag of the chain. -/
theorem findVisits_tagAt {n k : Nat} {tag : BitVec 64} (hchain : Chain mem n tag) (hk : k ≤ n) :
    Visits (findMultibootTagStep mem 0) tag (tagAt mem k tag) := by
  induction k generalizing n tag with
  | zero => exact Visits.here tag
  | succ k ih =>
    cases n with
    | zero => exact absurd hk (by omega)
    | succ n =>
      have htype : ¬ tagType mem tag = (0 : BitVec 16).setWidth 32 := hchain.1
      refine Visits.next ?_ (ih hchain.2 (by omega))
      simp only [findMultibootTagStep]
      rw [if_pos hchain.1, if_neg htype]

/-- A state of `read_multiboot_info` on a chain. The inner loops are never at the END tag. -/
def OnChain (mem : Memory) (n : Nat) (tag : BitVec 64) : InfoState → Prop
  | .tag t _ => ∃ k ≤ n, t = tagAt mem k tag
  | .mmap t _ _ => ∃ k < n, t = tagAt mem k tag
  | .elf t _ _ _ => ∃ k < n, t = tagAt mem k tag

theorem onChain_step {n : Nat} {tag : BitVec 64} (hchain : Chain mem n tag) {s s' : InfoState}
    (h : OnChain mem n tag s) (hstep : readMultibootInfoStep mem s = .inl s') :
    OnChain mem n tag s' := by
  have hnext : ∀ k < n, ∃ j ≤ n, nextTag mem (tagAt mem k tag) = tagAt mem j tag :=
    fun k hk => ⟨k + 1, hk, (tagAt_succ k tag).symm⟩
  cases move_of_step hstep with
  | mmapTag r hne =>
    obtain ⟨k, hk, rfl⟩ := h
    exact ⟨k, hchain.next hk hne, rfl⟩
  | elfTag r hne hm =>
    obtain ⟨k, hk, rfl⟩ := h
    exact ⟨k, hchain.next hk hne, rfl⟩
  | otherTag r hne hm =>
    obtain ⟨k, hk, rfl⟩ := h
    exact hnext k (hchain.next hk hne)
  | mmapEntry t mmap r => exact h
  | mmapEnd r hlt =>
    obtain ⟨k, hk, rfl⟩ := h
    exact hnext k hk
  | elfEntry t i elf r => exact h
  | elfEnd t i elf r =>
    obtain ⟨k, hk, rfl⟩ := h
    exact hnext k hk

theorem OnChain.current {n : Nat} {tag : BitVec 64} {s : InfoState} (h : OnChain mem n tag s) :
    ∃ k ≤ n, s.current = tagAt mem k tag := by
  cases s with
  | tag t r => exact h
  | mmap t mmap r =>
    obtain ⟨k, hk, heq⟩ := h
    exact ⟨k, Nat.le_of_lt hk, heq⟩
  | elf t i elf r =>
    obtain ⟨k, hk, heq⟩ := h
    exact ⟨k, Nat.le_of_lt hk, heq⟩

/-! ## The search -/

/-- What `find_multiboot_tag` should return on a chain of `n` tags: the first tag of the type,
    or null. -/
def FirstOfType (mem : Memory) (n : Nat) (tag : BitVec 64) (type : BitVec 32) (p : BitVec 64) :
    Prop :=
  (∃ k < n, tagType mem (tagAt mem k tag) = type ∧
      (∀ j < k, tagType mem (tagAt mem j tag) ≠ type) ∧ p = tagAt mem k tag) ∨
    ((∀ k < n, tagType mem (tagAt mem k tag) ≠ type) ∧ p = 0)

theorem findMultibootTag_yields {n : Nat} {tag : BitVec 64} (hchain : Chain mem n tag)
    (type : BitVec 16) :
    ∃ p, Yields (findMultibootTagStep mem type) tag p ∧
      FirstOfType mem n tag (type.setWidth 32) p := by
  induction n generalizing tag with
  | zero =>
    have hend : tagType mem tag = multibootTagTypeEnd := hchain
    refine ⟨0, Yields.exit ?_, Or.inr ⟨fun k hk => absurd hk (Nat.not_lt_zero k), rfl⟩⟩
    simp only [findMultibootTagStep]
    rw [if_neg (not_not_intro hend)]
  | succ n ih =>
    obtain ⟨hne, hchain⟩ := hchain
    by_cases htype : tagType mem tag = type.setWidth 32
    · refine ⟨tag, Yields.exit ?_, Or.inl ⟨0, by omega, htype, fun j hj => by omega, rfl⟩⟩
      simp only [findMultibootTagStep]
      rw [if_pos hne, if_pos htype]
    · obtain ⟨p, hp, hfirst⟩ := ih hchain
      refine ⟨p, Yields.again ?_ hp, ?_⟩
      · simp only [findMultibootTagStep]
        rw [if_pos hne, if_neg htype]
      · -- the tag passed over is not of the type
        rcases hfirst with ⟨k, hk, hkt, hlt, heq⟩ | ⟨hall, heq⟩
        · refine Or.inl ⟨k + 1, by omega, hkt, ?_, heq⟩
          intro j hj
          cases j with
          | zero => exact htype
          | succ j => exact hlt j (by omega)
        · refine Or.inr ⟨?_, heq⟩
          intro k hk
          cases k with
          | zero => exact htype
          | succ k => exact hall k (by omega)

/-! ## Malformed blocks -/

/-- The address lies in the announced block, `[mbi, mbi + mbi->size)`. -/
def InBlock (mem : Memory) (mbi a : BitVec 64) : Prop :=
  mbi.toNat ≤ a.toNat ∧ a.toNat < mbi.toNat + (load32 mem mbi).toNat

/-- Both walks end and visit only tags that start in the block. -/
structure SafeWalk (mem : Memory) (mbi : BitVec 64) : Prop where
  findEnds : ∀ type, ∃ p, Returns (fun n => findMultibootTag mem n (mbi + 8) type) p
  findVisits : ∀ type t, Visits (findMultibootTagStep mem type) (mbi + 8) t → InBlock mem mbi t
  readEnds : ∃ res, Returns (fun n => readMultibootInfo mem n mbi) res
  readVisits : ∀ s, Visits (readMultibootInfoStep mem) (.tag (mbi + 8) (initialAreas mbi)) s →
    InBlock mem mbi s.current

/-- Whatever the block holds, both walks end and stay inside it exactly if the tags, each found
    by the rounded size of the one before, come to an END tag inside the block without leaving
    it, and the entry loop of every MMAP tag on the way ends. -/
theorem safeWalk_iff (mem : Memory) (mbi : BitVec 64) :
    SafeWalk mem mbi ↔ ∃ n, Chain mem n (mbi + 8) ∧
      (∀ k ≤ n, InBlock mem mbi (tagAt mem k (mbi + 8))) ∧ MmapLoopsEnd mem n (mbi + 8) := by
  constructor
  · intro h
    obtain ⟨n, hchain, hmmap⟩ := (readMultibootInfo_iff mem mbi).mp h.readEnds
    refine ⟨n, hchain, fun k hk => ?_, hmmap⟩
    exact h.findVisits 0 _ (findVisits_tagAt hchain hk)
  · rintro ⟨n, hchain, hblock, hmmap⟩
    constructor
    · intro type
      obtain ⟨p, hp, -⟩ := findMultibootTag_yields hchain type
      exact ⟨p, hp.returns⟩
    · intro type t ht
      obtain ⟨k, hk, rfl⟩ := findVisits_of_chain hchain ht
      exact hblock k hk
    · exact (readMultibootInfo_iff mem mbi).mpr ⟨n, hchain, hmmap⟩
    · intro s hs
      have hon : OnChain mem n (mbi + 8) s :=
        hs.invariant (fun _ _ => onChain_step hchain) ⟨0, by omega, rfl⟩
      obtain ⟨k, hk, heq⟩ := hon.current
      rw [heq]
      exact hblock k hk

/-- A block of 16 bytes whose first tag (a command line) has size 0. -/
def zeroSizeTag : Memory := fun a => if a = 0x1000 then 16 else if a = 0x1008 then 1 else 0

/-- The walk stays at that tag for ever. -/
theorem zeroSizeTag_not_chain (n : Nat) : ¬ Chain zeroSizeTag n 0x1008 := by
  induction n with
  | zero =>
    have htype : tagType zeroSizeTag 0x1008 = 1 := by decide
    intro h
    exact absurd (htype.symm.trans h) (by decide)
  | succ n ih =>
    have hnext : nextTag zeroSizeTag 0x1008 = 0x1008 := by decide
    rintro ⟨-, h⟩
    rw [hnext] at h
    exact ih h

theorem safeWalk_fails : ¬ ∀ (mem : Memory) (mbi : BitVec 64), SafeWalk mem mbi := by
  intro h
  obtain ⟨n, hchain, -⟩ := (readMultibootInfo_iff zeroSizeTag 0x1000).mp
    (h zeroSizeTag 0x1000).readEnds
  exact zeroSizeTag_not_chain n hchain

end Walk

end Utero.Core
