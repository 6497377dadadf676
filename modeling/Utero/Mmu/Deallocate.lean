/-
  `mmap_deallocate_frame` (`src/mmu/mmap.c`), and `unmap` around it.

  The loop clears eight pages instead of one. `unmapsOnly_iff`: `unmap` stays within its page and
  frame exactly if the words of the seven pages after the frame may be written and are 0 already.
  For a page number from 2^32 on the tables are walked for the number cut to 32 bits, so the entry
  may be another page's, or be looked for in frame 0 where that page has no tables (`lowTable`).
  There it may be a word of the frame itself, which the loop clears on the way or not at all.

  The loop is proved for any entry `x` that it may clear before it needs it again (`Stage`):
  `clearWords_iff` says when the rest of memory is as before, `clearWords_zero_iff` what is 0.
-/
import Mathlib.Tactic.SplitIfs
import Utero.Mmu.BootTables
import Utero.Mmu.PageNumbers
import Utero.Mmu.Unmap

namespace Utero.Mmu

open Utero.Lib

/-! ## Clearing through the tables -/

/-- The loop only writes zeros, so what is true of a word and of 0 stays true of the word. -/
theorem clearWords_keeps {addr : BitVec 64} {n i : Nat} {s s' : Machine}
    (h : clearWords addr n i s = some s') {P : BitVec 64 → Prop} (h0 : P 0) {y : Slot}
    (hy : P (s.mem y)) : P (s'.mem y) := by
  induction n generalizing i s with
  | zero =>
    obtain rfl := Option.some.inj h
    exact hy
  | succ n ih =>
    rw [clearWords] at h
    obtain ⟨s1, hstore, h⟩ := Option.bind_eq_some_iff.mp h
    obtain ⟨p, -, rfl⟩ := Option.map_eq_some_iff.mp hstore
    refine ih h ?_
    show P (Function.update s.mem (slotOf p) 0 y)
    by_cases heq : y = slotOf p
    · rw [heq, Function.update_self]
      exact h0
    · rw [Function.update_of_ne heq]
      exact hy

theorem clearWords_zero {addr : BitVec 64} {n i : Nat} {s s' : Machine}
    (h : clearWords addr n i s = some s') {y : Slot} (hy : s.mem y = 0) : s'.mem y = 0 :=
  clearWords_keeps h (P := (· = 0)) rfl hy

/-- Memory with entry `x` no longer present. -/
def without (mem : PhysMem) (x : Slot) : PhysMem :=
  Function.update mem x (clearPresent (mem x))

theorem present_clearPresent (e : BitVec 64) : Pte.present (clearPresent e) = false := by
  simp [Pte.present, clearPresent]

theorem absent_without (mem : PhysMem) (x : Slot) : Pte.present (without mem x x) = false := by
  rw [without, Function.update_self]
  exact present_clearPresent _

theorem without_without (mem : PhysMem) (x : Slot) : without (without mem x) x = without mem x := by
  have htwice : clearPresent (clearPresent (mem x)) = clearPresent (mem x) := by
    rw [clearPresent, clearPresent, BitVec.and_assoc, BitVec.and_self]
  rw [without, without, Function.update_self, Function.update_idem, htwice]

/-- To take away `x` or a word of frame `f` changes nothing outside. -/
theorem agreesOutside_without {f : FrameNo} {x y : Slot} (hy : y = x ∨ y.frame = f)
    (mem m : PhysMem) : AgreesOutside f x (without mem y) m ↔ AgreesOutside f x mem m := by
  have hsame : ∀ z, z ≠ x → z.frame ≠ f → without mem y z = mem z := by
    intro z hz hzf
    refine Function.update_of_ne ?_ _ _
    rintro rfl
    exact hy.elim hz hzf
  constructor
  · intro hm z hz hzf
    exact (hm z hz hzf).trans (hsame z hz hzf)
  · intro hm z hz hzf
    exact (hm z hz hzf).trans (hsame z hz hzf).symm

/-- The word `j` at `addr`, if it may be written. -/
def wordAt (mem : PhysMem) (cr3 : FrameNo) (addr : BitVec 64) (j : Nat) : Option Slot :=
  (hwWrite mem cr3 (entryAddr addr (BitVec.ofNat 64 j))).map slotOf

/-- Word `j` at `addr` may be written, and is `x`, in frame `f`, or 0 already. -/
def Harmless (mem : PhysMem) (cr3 f : FrameNo) (x : Slot) (addr : BitVec 64) (j : Nat) : Prop :=
  ∃ y, wordAt mem cr3 addr j = some y ∧ (y = x ∨ y.frame = f ∨ mem y = 0)

/-- The memory through which the loop finds word `j`: without entry `x`, once an earlier word was
    `x`. -/
def memAt (mem : PhysMem) (cr3 : FrameNo) (x : Slot) (addr : BitVec 64) (j : Nat) : PhysMem :=
  if ∃ i < j, wordAt mem cr3 addr i = some x then without mem x else mem

theorem memAt_of_ne {mem : PhysMem} {cr3 : FrameNo} {x y : Slot} (hy : y ≠ x) (addr : BitVec 64)
    (j : Nat) : memAt mem cr3 x addr j y = mem y := by
  unfold memAt
  split
  · exact Function.update_of_ne hy _ _
  · rfl

theorem memAt_without (mem : PhysMem) (cr3 : FrameNo) (x : Slot) (addr : BitVec 64) (j : Nat) :
    memAt (without mem x) cr3 x addr j = without mem x := by
  rw [memAt, without_without, ite_self]

/-- Entry `x` before word `j`: as it was, or cleared with an earlier word. -/
def Stage (mem : PhysMem) (cr3 : FrameNo) (x : Slot) (addr : BitVec 64) (m : PhysMem) (j : Nat) :
    Prop :=
  (m x = mem x ∧ ¬ ∃ i < j, wordAt mem cr3 addr i = some x) ∨
    (Pte.present (m x) = false ∧ ∃ i < j, wordAt mem cr3 addr i = some x)

theorem forall_words_succ (P : Nat → Prop) (i n : Nat) :
    (∀ j, i ≤ j → j < i + (n + 1) → P j) ↔ P i ∧ ∀ j, i + 1 ≤ j → j < i + 1 + n → P j := by
  constructor
  · intro hall
    exact ⟨hall i (by omega) (by omega), fun j hij hj => hall j (by omega) (by omega)⟩
  · rintro ⟨hfirst, hrest⟩ j hij hj
    rcases Nat.eq_or_lt_of_le hij with rfl | hlt
    · exact hfirst
    · exact hrest j hlt (by omega)

/-- The 4096 words at `addr` may be cleared: each is `x`, in frame `f`, or 0 already, and frame `f`
    is 0 afterwards. -/
structure Clears (mem : PhysMem) (cr3 f : FrameNo) (x : Slot) (addr : BitVec 64) : Prop where
  harmless : ∀ j < 4096, Harmless (memAt mem cr3 x addr j) cr3 f x addr j
  covers : ∀ i, mem ⟨f, i⟩ = 0 ∨
    ∃ j < 4096, wordAt (memAt mem cr3 x addr j) cr3 addr j = some ⟨f, i⟩

section Clear

variable {mem : PhysMem} {cr3 f : FrameNo} {x : Slot} (addr : BitVec 64)

theorem agreesOutside_store {m : PhysMem} (hm : AgreesOutside f x mem m) {y : Slot}
    (hy : y = x ∨ y.frame = f ∨ mem y = 0) : AgreesOutside f x mem (Function.update m y 0) := by
  intro z hz hzf
  by_cases heq : z = y
  · subst heq
    rw [Function.update_self]
    exact ((hy.resolve_left hz).resolve_left hzf).symm
  · rw [Function.update_of_ne heq]
    exact hm z hz hzf

theorem harmless_iff {j : Nat} {y : Slot}
    (hy : wordAt (memAt mem cr3 x addr j) cr3 addr j = some y) :
    Harmless (memAt mem cr3 x addr j) cr3 f x addr j ↔ y = x ∨ y.frame = f ∨ mem y = 0 := by
  have hword : (y = x ∨ y.frame = f ∨ memAt mem cr3 x addr j y = 0) ↔
      (y = x ∨ y.frame = f ∨ mem y = 0) := by
    by_cases heq : y = x
    · simp only [heq, true_or]
    · rw [memAt_of_ne heq]
  rw [← hword]
  constructor
  · rintro ⟨z, hz, hgood⟩
    obtain rfl := Option.some.inj (hy.symm.trans hz)
    exact hgood
  · exact fun hgood => ⟨y, hy, hgood⟩

theorem Stage.next {m : PhysMem} {i : Nat} (h : Stage mem cr3 x addr m i) {y : Slot}
    (hy : wordAt (memAt mem cr3 x addr i) cr3 addr i = some y) :
    Stage mem cr3 x addr (Function.update m y 0) (i + 1) := by
  rcases h with ⟨hsame, hnone⟩ | ⟨habsent, j, hj, hfound⟩
  · rw [memAt, if_neg hnone] at hy
    by_cases heq : y = x
    · refine Or.inr ⟨?_, i, Nat.lt_succ_self i, heq ▸ hy⟩
      rw [heq, Function.update_self]
      rfl
    · refine Or.inl ⟨(Function.update_of_ne (Ne.symm heq) _ _).trans hsame, ?_⟩
      rintro ⟨j, hj, hfound⟩
      rcases Nat.lt_succ_iff_lt_or_eq.mp hj with hlt | rfl
      · exact hnone ⟨j, hlt, hfound⟩
      · exact heq (Option.some.inj (hy.symm.trans hfound))
  · refine Or.inr ⟨?_, j, Nat.lt_succ_of_lt hj, hfound⟩
    by_cases heq : x = y
    · rw [heq, Function.update_self]
      rfl
    · rw [Function.update_of_ne heq]
      exact habsent

variable (hno : HoldsNoTable mem cr3 f)

include hno

/-- Frame `f` holds no table, so a word is found as if no other had been cleared but `x`. -/
theorem clearWords_step (mmap : MmapState) (n i : Nat) {m : PhysMem}
    (hm : AgreesOutside f x mem m) (hstage : Stage mem cr3 x addr m i) :
    clearWords addr (n + 1) i ⟨m, cr3, mmap⟩ =
      (wordAt (memAt mem cr3 x addr i) cr3 addr i).bind fun y =>
        clearWords addr n (i + 1) ⟨Function.update m y 0, cr3, mmap⟩ := by
  have hgo : hwWrite m cr3 (entryAddr addr (BitVec.ofNat 64 i)) =
      hwWrite (memAt mem cr3 x addr i) cr3 (entryAddr addr (BitVec.ofNat 64 i)) := by
    unfold memAt
    rcases hstage with ⟨hsame, hnone⟩ | ⟨habsent, hfound⟩
    · rw [if_neg hnone]
      exact hwWrite_eq_of_agreesOutside hno (Or.inl hsame) hm _
    · rw [if_pos hfound]
      have hbase := (agreesOutside_without (Or.inl rfl) mem m).mpr hm
      exact hwWrite_eq_of_agreesOutside (hno.update_absent x (present_clearPresent _))
        (Or.inr ⟨absent_without mem x, habsent⟩) hbase _
  simp only [clearWords, Machine.store, hgo, wordAt, Option.bind_eq_bind, Option.bind_map]
  rfl

/-- The loop ends with the rest of memory as it was exactly if each word is `Harmless`. -/
theorem clearWords_iff (mmap : MmapState) (n i : Nat) {m : PhysMem}
    (hm : AgreesOutside f x mem m) (hstage : Stage mem cr3 x addr m i) :
    (∃ s', clearWords addr n i ⟨m, cr3, mmap⟩ = some s' ∧ AgreesOutside f x mem s'.mem) ↔
      ∀ j, i ≤ j → j < i + n → Harmless (memAt mem cr3 x addr j) cr3 f x addr j := by
  induction n generalizing i m with
  | zero =>
    refine ⟨fun _ j hij hj => absurd hj (by omega), fun _ => ⟨_, rfl, hm⟩⟩
  | succ n ih =>
    rw [clearWords_step addr hno mmap n i hm hstage, forall_words_succ]
    cases hword : wordAt (memAt mem cr3 x addr i) cr3 addr i with
    | none =>
      refine iff_of_false ?_ ?_
      · rintro ⟨s', hs', -⟩
        cases hs'
      · rintro ⟨⟨y, hy, -⟩, -⟩
        rw [hword] at hy
        cases hy
    | some y =>
      rw [Option.bind_some, harmless_iff addr hword]
      by_cases hy : y = x ∨ y.frame = f ∨ mem y = 0
      · rw [ih (i + 1) (agreesOutside_store hm hy) (hstage.next addr hword), and_iff_right hy]
      · refine iff_of_false ?_ fun hall => hy hall.1
        -- the word is set to 0 and stays so
        rintro ⟨s', hs', hagree⟩
        rw [not_or, not_or] at hy
        have hzero : s'.mem y = 0 := clearWords_zero hs' (Function.update_self _ _ _)
        rw [hagree _ hy.1 hy.2.1] at hzero
        exact hy.2.2 hzero

/-- The words that are 0 behind the loop: those that were, and those that it has gone over. -/
theorem clearWords_zero_iff {mmap : MmapState} {n i : Nat} {m : PhysMem} {s' : Machine}
    (hm : AgreesOutside f x mem m) (hstage : Stage mem cr3 x addr m i)
    (h : clearWords addr n i ⟨m, cr3, mmap⟩ = some s')
    (hharmless : ∀ j, i ≤ j → j < i + n → Harmless (memAt mem cr3 x addr j) cr3 f x addr j)
    (z : Slot) :
    s'.mem z = 0 ↔ m z = 0 ∨
      ∃ j, i ≤ j ∧ j < i + n ∧ wordAt (memAt mem cr3 x addr j) cr3 addr j = some z := by
  induction n generalizing i m with
  | zero =>
    obtain rfl := Option.some.inj h
    refine ⟨Or.inl, ?_⟩
    rintro (hz | ⟨j, hij, hj, -⟩)
    · exact hz
    · omega
  | succ n ih =>
    rw [clearWords_step addr hno mmap n i hm hstage] at h
    obtain ⟨y, hy, h⟩ := Option.bind_eq_some_iff.mp h
    obtain ⟨hfirst, hrest⟩ := (forall_words_succ _ i n).mp hharmless
    rw [harmless_iff addr hy] at hfirst
    rw [ih (agreesOutside_store hm hfirst) (hstage.next addr hy) h hrest]
    have hstore : Function.update m y 0 z = 0 ↔ m z = 0 ∨ y = z := by
      by_cases heq : z = y
      · rw [heq, Function.update_self]
        simp only [or_true]
      · rw [Function.update_of_ne heq]
        simp only [Ne.symm heq, or_false]
    rw [hstore]
    constructor
    · rintro ((hz | rfl) | ⟨j, hij, hj, hword⟩)
      · exact Or.inl hz
      · exact Or.inr ⟨i, Nat.le_refl i, by omega, hy⟩
      · exact Or.inr ⟨j, by omega, by omega, hword⟩
    · rintro (hz | ⟨j, hij, hj, hword⟩)
      · exact Or.inl (Or.inl hz)
      · rcases Nat.eq_or_lt_of_le hij with rfl | hlt
        · exact Or.inl (Or.inr (Option.some.inj (hy.symm.trans hword)))
        · exact Or.inr ⟨j, hlt, by omega, hword⟩

/-- The whole loop, from memory in which frame `f` holds no table. -/
theorem clears_iff (mmap : MmapState) :
    (∃ s', clearWords addr 4096 0 ⟨mem, cr3, mmap⟩ = some s' ∧ AgreesOutside f x mem s'.mem ∧
        ∀ i, s'.mem ⟨f, i⟩ = 0) ↔ Clears mem cr3 f x addr := by
  have hfirst : Stage mem cr3 x addr mem 0 := Or.inl ⟨rfl, fun ⟨_, hi, _⟩ => Nat.not_lt_zero _ hi⟩
  have hrefl := AgreesOutside.refl f x mem
  have hwords := clearWords_iff addr hno mmap 4096 0 hrefl hfirst
  have hzeros := fun {s'} (hrun : clearWords addr 4096 0 ⟨mem, cr3, mmap⟩ = some s')
    (hall : ∀ j < 4096, Harmless (memAt mem cr3 x addr j) cr3 f x addr j) (i : BitVec 9) =>
      clearWords_zero_iff addr hno hrefl hfirst hrun (fun j _ hj => hall j (by omega)) ⟨f, i⟩
  simp only [Nat.zero_le, true_implies, true_and, Nat.zero_add] at hwords hzeros
  constructor
  · rintro ⟨s', hrun, hagree, hzero⟩
    have hall := hwords.mp ⟨s', hrun, hagree⟩
    exact ⟨hall, fun i => (hzeros hrun hall i).mp (hzero i)⟩
  · rintro ⟨hall, hcovers⟩
    obtain ⟨s', hrun, hagree⟩ := hwords.mpr hall
    exact ⟨s', hrun, hagree, fun i => (hzeros hrun hall i).mpr (hcovers i)⟩

end Clear

theorem clearWords_cr3 {addr : BitVec 64} {n i : Nat} {s s' : Machine}
    (h : clearWords addr n i s = some s') : s'.cr3 = s.cr3 := by
  induction n generalizing i s with
  | zero =>
    obtain rfl := Option.some.inj h
    rfl
  | succ n ih =>
    rw [clearWords] at h
    obtain ⟨s1, hstore, h⟩ := Option.bind_eq_some_iff.mp h
    obtain ⟨p, -, rfl⟩ := Option.map_eq_some_iff.mp hstore
    have hrest := ih h
    exact hrest

/-! ## Low memory -/

/-- The first GiB is mapped to itself. -/
def LowIdentity (mem : PhysMem) (cr3 : FrameNo) : Prop :=
  ∀ va : BitVec 64, va.toNat < 2 ^ 30 → hwTranslate mem cr3 va = some (va.setWidth 52)

/-- The physical address of a frame. -/
def frameAddr (f : FrameNo) : BitVec 64 := BitVec.ofNat 64 (f.toNat * 4096)

theorem entryAddr_low {f : FrameNo} (hf : f.toNat < 2 ^ 18) (j : BitVec 9) :
    (entryAddr (frameAddr f) (j.setWidth 64)).toNat = f.toNat * 4096 + j.toNat * 8 := by
  have hj := j.isLt
  simp only [entryAddr, frameAddr, BitVec.toNat_add, BitVec.toNat_mul, BitVec.toNat_ofNat,
    BitVec.toNat_setWidth]
  omega

/-- Word `j` of a low frame is found there. -/
theorem LowIdentity.word {mem : PhysMem} {cr3 : FrameNo} (h : LowIdentity mem cr3) {f : FrameNo}
    (hf : f.toNat < 2 ^ 18) (j : BitVec 9) :
    hwTranslate mem cr3 (entryAddr (frameAddr f) (j.setWidth 64)) =
      some (Slot.addr ⟨f, j⟩) := by
  have hj := j.isLt
  have hva := entryAddr_low hf j
  rw [h _ (by omega)]
  refine congrArg some (BitVec.eq_of_toNat_eq ?_)
  have hword : (j ++ 0#3 : BitVec 12).toNat = j.toNat * 8 := by
    rw [BitVec.toNat_append, BitVec.toNat_zero, Nat.or_zero, Nat.shiftLeft_eq]
  have hslot : (Slot.addr ⟨f, j⟩).toNat = f.toNat * 4096 + j.toNat * 8 := by
    have happend := frame_append_toNat (f := f) (j ++ 0#3 : BitVec 12)
    have hbound := (f ++ (j ++ 0#3 : BitVec 12) : BitVec 52).isLt
    rw [BitVec.toNat_setWidth, hword, Nat.mod_eq_of_lt (by omega)] at happend
    exact happend
  rw [BitVec.toNat_setWidth, hva, hslot]
  omega

/-- The frame in which the code finds a table, from the frame `t` along `js`, where addresses are
    physical ones: an entry that leads to no table leads on to frame 0. -/
def lowTable (mem : PhysMem) : FrameNo → List (BitVec 9) → FrameNo
  | t, [] => t
  | t, j :: js =>
    lowTable mem (if Pte.Link (mem ⟨t, j⟩) then t * 512#40 + j.setWidth 40 else 0) js

theorem lowTable_step_toNat {t : FrameNo} (ht : t.toNat < 2 ^ 9) (j : BitVec 9) :
    (t * 512#40 + j.setWidth 40).toNat = t.toNat * 512 + j.toNat := by
  have hj := j.isLt
  simp only [BitVec.toNat_add, BitVec.toNat_mul, BitVec.toNat_ofNat, BitVec.toNat_setWidth]
  omega

/-- What `next_table_address` computes from a low address. -/
theorem frameAddr_step {t : FrameNo} (ht : t.toNat < 2 ^ 9) (j : BitVec 9) :
    (frameAddr t <<< 9) ||| ((j.setWidth 32) <<< 12).setWidth 64 =
      frameAddr (t * 512#40 + j.setWidth 40) := by
  have hj := j.isLt
  have hindex : (j.setWidth 64 <<< 12).toNat = j.toNat * 4096 := by
    rw [BitVec.toNat_shiftLeft, BitVec.toNat_setWidth, Nat.shiftLeft_eq]
    omega
  have htable : (frameAddr t <<< 9).toNat = t.toNat <<< 21 := by
    rw [BitVec.toNat_shiftLeft, frameAddr, BitVec.toNat_ofNat, Nat.shiftLeft_eq, Nat.shiftLeft_eq]
    omega
  apply BitVec.eq_of_toNat_eq
  rw [shift_index_narrow, BitVec.toNat_or, hindex, htable,
    ← Nat.shiftLeft_add_eq_or_of_lt (by omega), frameAddr, lowTable_step_toNat ht,
    BitVec.toNat_ofNat, Nat.shiftLeft_eq]
  omega

section LowDescent

variable {s : Machine} (hid : LowIdentity s.mem s.cr3)

include hid

theorem nextTableAddress_low {t : FrameNo} (ht : t.toNat < 2 ^ 9) (j : BitVec 9) :
    nextTableAddress s (frameAddr t) (j.setWidth 32) =
      some (frameAddr (if Pte.Link (s.mem ⟨t, j⟩) then t * 512#40 + j.setWidth 40 else 0)) := by
  have hload : s.load (entryAddr (frameAddr t) (j.setWidth 64)) = some (s.mem ⟨t, j⟩) := by
    rw [Machine.load, hid.word (by omega), Option.map_some, slotOf_addr]
  rw [nextTableAddress, setWidth_index, hload, frameAddr_step ht,
    Option.bind_eq_bind, Option.bind_some]
  by_cases hlink : Pte.Link (s.mem ⟨t, j⟩)
  · rw [if_pos hlink]
    exact if_pos hlink
  · rw [if_neg hlink]
    exact if_neg hlink

theorem descend_low {js : List (BitVec 9)} (hlen : js.length ≤ 2) {t : FrameNo}
    (ht : t.toNat < 2 ^ (18 - 9 * js.length)) :
    (descend s (frameAddr t) (js.map (BitVec.setWidth 64))).2 =
        some (frameAddr (lowTable s.mem t js)) ∧
      (lowTable s.mem t js).toNat < 2 ^ 18 := by
  induction js generalizing t with
  | nil => exact ⟨rfl, ht⟩
  | cons j js ih =>
    rw [List.length_cons] at hlen ht
    have hj := j.isLt
    have ht9 : t.toNat < 2 ^ 9 :=
      Nat.lt_of_lt_of_le ht (Nat.pow_le_pow_right (by omega) (by omega))
    have hnext : (if Pte.Link (s.mem ⟨t, j⟩) then t * 512#40 + j.setWidth 40 else 0).toNat <
        2 ^ (18 - 9 * js.length) := by
      have hpow : 2 ^ (18 - 9 * js.length) = 2 ^ (18 - 9 * (js.length + 1)) * 512 := by
        rw [show 18 - 9 * js.length = 18 - 9 * (js.length + 1) + 9 by omega, Nat.pow_add]
      split
      · rw [lowTable_step_toNat ht9, hpow]
        omega
      · exact Nat.two_pow_pos _
    obtain ⟨hrest, hlow⟩ := ih (by omega) hnext
    rw [List.map_cons, descend_cons, index_widen_narrow, nextTableAddress_low hid ht9]
    exact ⟨hrest, hlow⟩

end LowDescent

theorem descend_append (s : Machine) (table : BitVec 64) (is js : List (BitVec 64)) :
    (descend s table (is ++ js)).2 =
      (descend s table is).2.bind fun next => (descend s next js).2 := by
  induction is generalizing table with
  | nil => rfl
  | cons i is ih =>
    rw [List.cons_append, descend_cons, descend_cons]
    cases nextTableAddress s table (i.setWidth 32) with
    | none => rfl
    | some next => exact ih next

/-! ## The entry -/

theorem dropEntry_absent {s : Machine} {va : BitVec 64} {x : Slot}
    (hva : hwTranslate s.mem s.cr3 va = some x.addr) (hx : Pte.present (s.mem x) = false) :
    dropEntry s va = some s := by
  rw [dropEntry, Machine.load, hva, Option.map_some, slotOf_addr, Option.bind_eq_bind,
    Option.bind_some, if_pos hx]
  rfl

/-- A present entry is taken away, and 4096 words are cleared from its frame on. -/
theorem dropEntry_present {s : Machine} {va : BitVec 64} {y : Slot}
    (hva : hwTranslate s.mem s.cr3 va = some y.addr) (hy : Pte.present (s.mem y) = true) :
    dropEntry s va =
      if hwWritable s.mem s.cr3 va = true then
        clearWords (frameStartingAddress (pointedFrame (s.mem y))) 4096 0
          ⟨without s.mem y, s.cr3, s.mmap⟩
      else none := by
  have hload : s.load va = some (s.mem y) := by
    rw [Machine.load, hva, Option.map_some, slotOf_addr]
  have hmodify : s.modify va clearPresent =
      if hwWritable s.mem s.cr3 va = true then some ⟨without s.mem y, s.cr3, s.mmap⟩ else none := by
    rw [Machine.modify, hload, Option.bind_eq_bind, Option.bind_some, Machine.store, hwWrite, hva]
    by_cases hw : hwWritable s.mem s.cr3 va = true
    · rw [if_pos hw, if_pos hw, Option.map_some, slotOf_addr]
      rfl
    · rw [if_neg hw, if_neg hw, Option.map_none]
  rw [dropEntry, Option.bind_eq_bind, hload, Option.bind_some, hy,
    if_neg Bool.true_eq_false.mp, hmodify, Option.bind_eq_bind]
  by_cases hw : hwWritable s.mem s.cr3 va = true
  · rw [if_pos hw, if_pos hw, Option.bind_some, mmapDeallocateFrame, pageSize_toNat]
  · rw [if_neg hw, if_neg hw, Option.bind_none]

/-! ## Unmapping one page -/

/-- Memory with the page's entry no longer present. -/
def withoutEntry (s : Machine) (page : BitVec 64) : PhysMem := without s.mem (pageSlot s page)

/-- What `unmap(page)` should leave for a page in frame `f`: the page is not mapped, the frame
    is 0, and nothing else has changed but the entry. -/
structure UnmapsOnly (s : Machine) (page : BitVec 64) (f : FrameNo) (s' : Machine) : Prop where
  absent : translatePage s' page = some 0
  cleared : ∀ i, s'.mem ⟨f, i⟩ = 0
  others : ∀ y, y ≠ pageSlot s page → y.frame ≠ f → s'.mem y = s.mem y

/-- A page that the processor finds, through tables, in a low frame that holds no table. -/
structure MappedLow (s : Machine) (page : BitVec 64) (f : FrameNo) : Prop where
  canonical : CanonicalPage page
  recursive : Recursive s.mem s.cr3
  linked : Linked s.mem s.cr3 (tablePath page)
  present : Pte.present (s.mem (pageSlot s page)) = true
  frame : Pte.frame (s.mem (pageSlot s page)) = f
  low : f.toNat < 2 ^ 18
  identity : LowIdentity s.mem s.cr3
  noTable : HoldsNoTable s.mem s.cr3 f

namespace MappedLow

variable {s : Machine} {page : BitVec 64} {f : FrameNo} (h : MappedLow s page f)

include h

/-- The processor finds the page in the frame. -/
theorem translates :
    hwTranslate s.mem s.cr3 (pageStartingAddress page) = some (f ++ 0#12) := by
  have hgo := hwTranslate_present h.canonical.2 h.linked h.present
  rw [vaOffset_page] at hgo
  exact hgo.trans (congrArg (fun g => some (g ++ 0#12)) h.frame)

/-- The entry is not one of those that lead to tables. -/
theorem slot_ne {is : List (BitVec 9)} {i : BitVec 9} (hlen : is.length ≤ 2)
    (hl : Linked s.mem s.cr3 (is ++ [i])) :
    (⟨reach s.mem s.cr3 is, i⟩ : Slot) ≠ pageSlot s page := by
  intro heq
  have hsnoc : (is ++ [i]).length ≤ 3 := by
    rw [List.length_append, List.length_singleton]
    omega
  refine h.noTable (is ++ [i]) hsnoc hl ?_
  rw [reach_snoc, heq]
  exact h.frame

/-- Memory that differs only in the frame and in the entry, if that is absent, has no new tables. -/
theorem linked_outside {m : PhysMem} (hm : AgreesOutside f (pageSlot s page) s.mem m)
    (hx : m (pageSlot s page) = s.mem (pageSlot s page) ∨ Pte.present (m (pageSlot s page)) = false)
    {is : List (BitVec 9)} (hlen : is.length ≤ 3) (hl : Linked m s.cr3 is) :
    Linked s.mem s.cr3 is ∧ reach m s.cr3 is = reach s.mem s.cr3 is := by
  induction is using List.reverseRecOn with
  | nil => exact ⟨trivial, rfl⟩
  | append_singleton is i ih =>
    rw [List.length_append, List.length_singleton] at hlen
    obtain ⟨his, hlink⟩ := (linked_snoc _ _ _ _).mp hl
    obtain ⟨hold, hreach⟩ := ih (by omega) his
    rw [hreach] at hlink
    have hsame : m ⟨reach s.mem s.cr3 is, i⟩ = s.mem ⟨reach s.mem s.cr3 is, i⟩ := by
      by_cases heq : (⟨reach s.mem s.cr3 is, i⟩ : Slot) = pageSlot s page
      · rw [heq] at hlink ⊢
        exact hx.resolve_right fun habsent => absurd hlink.1 (ne_true_of_eq_false habsent)
      · exact hm _ heq (h.noTable is (by omega) hold)
    rw [hsame] at hlink
    refine ⟨(linked_snoc _ _ _ _).mpr ⟨hold, hlink⟩, ?_⟩
    rw [reach_snoc, reach_snoc, hreach, hsame]

theorem recursive_outside {m : PhysMem} (hm : AgreesOutside f (pageSlot s page) s.mem m) :
    Recursive m s.cr3 := by
  have hne : (⟨s.cr3, 511⟩ : Slot) ≠ pageSlot s page :=
    @slot_ne s page f h [] 511 (by simp) ⟨h.recursive.link, trivial⟩
  have htop : m ⟨s.cr3, 511⟩ = s.mem ⟨s.cr3, 511⟩ := hm _ hne (h.noTable [] (by simp) trivial)
  exact ⟨htop.symm ▸ h.recursive.link, htop.symm ▸ h.recursive.self⟩

/-- The code finds no frame for the page if it finds no last table, or the page's entry and that
    is absent. -/
theorem translatePage_absent {s' : Machine} (hcr3 : s'.cr3 = s.cr3)
    (hm : AgreesOutside f (pageSlot s page) s.mem s'.mem)
    (hx : s'.mem (pageSlot s page) = s.mem (pageSlot s page) ∨
      Pte.present (s'.mem (pageSlot s page)) = false)
    (hcode : Linked s.mem s.cr3 (tablePath (narrow page)) →
      pageSlot s (narrow page) = pageSlot s page ∧
        Pte.present (s'.mem (pageSlot s page)) = false) :
    translatePage s' page = some 0 := by
  have hr := h.recursive_outside hm
  rw [← hcr3] at hr
  rw [translatePage_eq hr, hcr3]
  by_cases hl : Linked s'.mem s.cr3 (tablePath (narrow page))
  · obtain ⟨hold, hreach⟩ := h.linked_outside hm hx (by simp [tablePath]) hl
    obtain ⟨hslot, habsent⟩ := hcode hold
    rw [pageSlot] at hslot
    rw [if_pos hl, hreach, hslot]
    exact congrArg some (if_neg (ne_true_of_eq_false habsent))
  · rw [if_neg hl]

/-- The page's entry is in a table, and so outside the frame. -/
theorem pageSlot_frame_ne : (pageSlot s page).frame ≠ f :=
  h.noTable _ (by simp [tablePath]) h.linked

/-- Word `j` of the frame is found in the frame, unless the page's entry was needed for it. -/
theorem word_slot {j : BitVec 9} {y : Slot}
    (hy : wordAt (withoutEntry s page) s.cr3 (frameAddr f) j.toNat = some y) : y = ⟨f, j⟩ := by
  have hindex : BitVec.ofNat 64 j.toNat = j.setWidth 64 := by
    apply BitVec.eq_of_toNat_eq
    rw [BitVec.toNat_ofNat, BitVec.toNat_setWidth]
  obtain ⟨p, hp, rfl⟩ := Option.map_eq_some_iff.mp hy
  rw [hindex] at hp
  have hsame := hwTranslate_update_absent (present_clearPresent _) (h.identity.word h.low j)
    (hwWrite_eq_some.mp hp).1
  rw [hsame, slotOf_addr]

/-- From the page's frame on it is enough that the words are harmless: the first 512 are those of
    the frame. -/
theorem clears_own_iff :
    Clears (withoutEntry s page) s.cr3 f (pageSlot s page) (frameAddr f) ↔
      ∀ j < 4096, Harmless (withoutEntry s page) s.cr3 f (pageSlot s page) (frameAddr f) j := by
  have hmem := memAt_without s.mem s.cr3 (pageSlot s page) (frameAddr f)
  constructor
  · rintro ⟨hall, -⟩ j hj
    have hword := hall j hj
    rwa [withoutEntry, hmem] at hword
  · intro hall
    refine ⟨fun j hj => ?_, fun i => Or.inr ⟨i.toNat, by omega, ?_⟩⟩
    · rw [withoutEntry, hmem]
      exact hall j hj
    · obtain ⟨y, hy, -⟩ := hall i.toNat (by omega)
      rw [withoutEntry, hmem, ← h.word_slot hy]
      exact hy

section Drop

variable {va : BitVec 64} {y : Slot} (hva : hwTranslate s.mem s.cr3 va = some y.addr)

/-- Behind the loop the code finds no frame for the page. -/
theorem translatePage_cleared {addr : BitVec 64} {s' : Machine}
    (hrun : clearWords addr 4096 0 ⟨without s.mem y, s.cr3, s.mmap⟩ = some s')
    (hm : AgreesOutside f (pageSlot s page) s.mem s'.mem)
    (hcode : Linked s.mem s.cr3 (tablePath (narrow page)) →
      pageSlot s (narrow page) = pageSlot s page ∧ y = pageSlot s page) :
    translatePage s' page = some 0 := by
  have hcr3 : s'.cr3 = s.cr3 := @clearWords_cr3 _ _ _ ⟨without s.mem y, s.cr3, s.mmap⟩ _ hrun
  have habsent : y = pageSlot s page → Pte.present (s'.mem (pageSlot s page)) = false := by
    rintro rfl
    exact clearWords_keeps hrun (P := fun e => Pte.present e = false) rfl (absent_without _ _)
  have hx : s'.mem (pageSlot s page) = s.mem (pageSlot s page) ∨
      Pte.present (s'.mem (pageSlot s page)) = false := by
    by_cases hy : y = pageSlot s page
    · exact Or.inr (habsent hy)
    · refine clearWords_keeps hrun (P := fun e => e = s.mem (pageSlot s page) ∨
        Pte.present e = false) (Or.inr rfl) (Or.inl (Function.update_of_ne (Ne.symm hy) _ _))
  exact h.translatePage_absent hcr3 hm hx fun hl => ⟨(hcode hl).1, habsent (hcode hl).2⟩

include hva

/-- A present entry that may change, the page's own or a word of the frame, comes back as it
    should exactly if the words from its frame on may be cleared. -/
theorem drops_iff (hy : Pte.present (s.mem y) = true) (hin : y = pageSlot s page ∨ y.frame = f)
    (hcode : Linked s.mem s.cr3 (tablePath (narrow page)) →
      pageSlot s (narrow page) = pageSlot s page ∧ y = pageSlot s page) :
    (∃ s', dropEntry s va = some s' ∧ UnmapsOnly s page f s') ↔
      hwWritable s.mem s.cr3 va = true ∧ Clears (without s.mem y) s.cr3 f (pageSlot s page)
        (frameStartingAddress (pointedFrame (s.mem y))) := by
  have hno : HoldsNoTable (without s.mem y) s.cr3 f :=
    h.noTable.update_absent y (present_clearPresent _)
  rw [dropEntry_present hva hy, ← clears_iff _ hno s.mmap]
  by_cases hw : hwWritable s.mem s.cr3 va = true
  · rw [if_pos hw, and_iff_right hw]
    refine exists_congr fun s' => and_congr_right fun hrun => ?_
    rw [agreesOutside_without hin]
    constructor
    · rintro ⟨-, hcleared, hothers⟩
      exact ⟨hothers, hcleared⟩
    · rintro ⟨hothers, hcleared⟩
      exact ⟨h.translatePage_cleared hrun hothers hcode, hcleared, hothers⟩
  · rw [if_neg hw]
    refine iff_of_false ?_ fun hall => hw hall.1
    rintro ⟨s', hrun, -⟩
    cases hrun

omit h in
/-- An absent entry ends the call, with the frame as it was. -/
theorem drops_absent_iff (hy : Pte.present (s.mem y) = false)
    (hzero : translatePage s page = some 0) :
    (∃ s', dropEntry s va = some s' ∧ UnmapsOnly s page f s') ↔ ∀ i, s.mem ⟨f, i⟩ = 0 := by
  rw [dropEntry_absent hva hy]
  constructor
  · rintro ⟨s', hrun, honly⟩
    rw [Option.some.inj hrun]
    exact honly.cleared
  · exact fun hclear => ⟨s, rfl, hzero, hclear, fun _ _ _ => rfl⟩

omit h in
/-- A present entry elsewhere does not come back. -/
theorem not_drops (hy : Pte.present (s.mem y) = true) (hne : y ≠ pageSlot s page)
    (hf : y.frame ≠ f) : ¬ ∃ s', dropEntry s va = some s' ∧ UnmapsOnly s page f s' := by
  rintro ⟨s', hrun, honly⟩
  rw [dropEntry_present hva hy] at hrun
  split at hrun
  · have hlast := clearWords_keeps hrun (P := fun e => Pte.present e = false) rfl
      (absent_without s.mem y)
    rw [honly.others y hne hf, hy] at hlast
    cases hlast
  · cases hrun

/-- The page's own entry comes back as it should by the words from the frame on. -/
theorem drops_own_iff (hy : y = pageSlot s page)
    (hcode : Linked s.mem s.cr3 (tablePath (narrow page)) → pageSlot s (narrow page) = y) :
    (∃ s', dropEntry s va = some s' ∧ UnmapsOnly s page f s') ↔
      hwWritable s.mem s.cr3 va = true ∧
        ∀ j < 4096, Harmless (withoutEntry s page) s.cr3 f (pageSlot s page) (frameAddr f) j := by
  subst hy
  have haddr : frameStartingAddress (pointedFrame (s.mem (pageSlot s page))) = frameAddr f := by
    have hlow := h.low
    rw [pointedFrame_present h.present, h.frame]
    apply BitVec.eq_of_toNat_eq
    rw [frameStartingAddress_toNat, frameAddr, BitVec.toNat_setWidth, BitVec.toNat_ofNat]
    omega
  rw [h.drops_iff hva h.present (Or.inl rfl) fun hl => ⟨hcode hl, rfl⟩, haddr, ← h.clears_own_iff]
  rfl

/-- What is left for the entry that the code comes to: it is absent, it is the page's, or it is a
    word of the frame. -/
theorem drops_cases
    (hcode : Linked s.mem s.cr3 (tablePath (narrow page)) → pageSlot s (narrow page) = y)
    (hframe : y.frame = f → ¬ Linked s.mem s.cr3 (tablePath (narrow page))) :
    (∃ s', dropEntry s va = some s' ∧ UnmapsOnly s page f s') ↔
      (Pte.present (s.mem y) = false ∧ ∀ i, s.mem ⟨f, i⟩ = 0) ∨
      (y = pageSlot s page ∧ hwWritable s.mem s.cr3 va = true ∧
        ∀ j < 4096, Harmless (withoutEntry s page) s.cr3 f (pageSlot s page) (frameAddr f) j) ∨
      (y.frame = f ∧ Pte.present (s.mem y) = true ∧ hwWritable s.mem s.cr3 va = true ∧
        Clears (without s.mem y) s.cr3 f (pageSlot s page)
          (frameStartingAddress (pointedFrame (s.mem y)))) := by
  cases hpresent : Pte.present (s.mem y) with
  | false =>
    have hzero : translatePage s page = some 0 := by
      rw [translatePage_eq h.recursive]
      by_cases hl : Linked s.mem s.cr3 (tablePath (narrow page))
      · have hslot := hcode hl
        rw [pageSlot] at hslot
        rw [if_pos hl, hslot]
        exact congrArg some (if_neg (ne_true_of_eq_false hpresent))
      · rw [if_neg hl]
    have hne : y ≠ pageSlot s page := by
      rintro rfl
      exact absurd h.present (ne_true_of_eq_false hpresent)
    rw [drops_absent_iff hva hpresent hzero]
    simp [hne]
  | true =>
    by_cases hy : y = pageSlot s page
    · have hf : (pageSlot s page).frame ≠ f := h.pageSlot_frame_ne
      rw [h.drops_own_iff hva hy hcode]
      simp only [hy, hf, Bool.true_eq_false, false_and, false_or, or_false, true_and]
    · by_cases hf : y.frame = f
      · rw [h.drops_iff hva hpresent (Or.inr hf) fun hl => absurd hl (hframe hf)]
        simp [hy, hf]
      · simp only [hy, hf, Bool.true_eq_false, false_and, or_false, iff_false]
        exact not_drops hva hpresent hy hf

end Drop

/-- Where the cut number has its tables the code comes to its entry. -/
theorem unmap_linked (hl : Linked s.mem s.cr3 (tablePath (narrow page))) :
    unmap s page = dropEntry s (entryOf (narrow page)) ∧
      hwTranslate s.mem s.cr3 (entryOf (narrow page)) =
        some (pageSlot s (narrow page)).addr := by
  have hlen : ([] ++ tablePath (narrow page)).length ≤ 3 := by simp [tablePath]
  have hlast : (descend s (recTable []) ((tablePath (narrow page)).map (BitVec.setWidth 64))).2 =
      some (recTable (tablePath (narrow page))) := (descend_linked h.recursive hlen hl).2
  refine ⟨?_, hwTranslate_entryOf_linked h.recursive hl⟩
  rw [unmap_eq, upperIndices_eq, p4Table_eq, hlast, Option.bind_some, p1Index_narrow]
  rfl

/-- Where it has not, the code goes on in low memory. -/
theorem unmap_broken {pre js : List (BitVec 9)} {i : BitVec 9}
    (hpath : tablePath (narrow page) = pre ++ i :: js) (hl : Linked s.mem s.cr3 pre)
    (hbreak : ¬ Pte.Link (s.mem ⟨reach s.mem s.cr3 pre, i⟩)) :
    unmap s page = dropEntry s
        (entryAddr (frameAddr (lowTable s.mem 0 js)) ((lastIndex (narrow page)).setWidth 64)) ∧
      hwTranslate s.mem s.cr3
          (entryAddr (frameAddr (lowTable s.mem 0 js)) ((lastIndex (narrow page)).setWidth 64)) =
        some (Slot.addr ⟨lowTable s.mem 0 js, lastIndex (narrow page)⟩) := by
  have hlen := congrArg List.length hpath
  simp only [tablePath, List.length_cons, List.length_nil, List.length_append] at hlen
  have hzero : frameAddr 0 = 0 := rfl
  have hfirst : (descend s (recTable []) (pre.map (BitVec.setWidth 64))).2 =
      some (recTable pre) :=
    (@descend_linked s h.recursive [] pre (by simp only [List.nil_append]; omega) hl).2
  have hnext := nextTableAddress_recTable h.recursive hl (by omega) i
  rw [if_neg hbreak] at hnext
  have hjs : js.length ≤ 2 := by omega
  obtain ⟨hrest, hlow⟩ := descend_low h.identity hjs (t := 0) (Nat.two_pow_pos _)
  rw [hzero] at hrest
  refine ⟨?_, h.identity.word hlow _⟩
  rw [unmap_eq, upperIndices_eq, p4Table_eq, hpath, List.map_append, descend_append, hfirst,
    Option.bind_some, List.map_cons, descend_cons, index_widen_narrow, hnext]
  simp only [hrest, Option.bind_some, p1Index_narrow]

/-- Below 2^32 the words of all eight pages are `Harmless` if nothing else changes. -/
theorem harmless_of_unmapsOnly (hlow : page.toNat < 2 ^ 32)
    (hex : ∃ s', unmap s page = some s' ∧ UnmapsOnly s page f s') :
    ∀ j < 4096, Harmless (withoutEntry s page) s.cr3 f (pageSlot s page) (frameAddr f) j := by
  have hnarrow := narrow_eq hlow
  obtain ⟨hrun, hva⟩ := h.unmap_linked (hnarrow.symm ▸ h.linked)
  rw [hrun] at hex
  rw [hnarrow] at hva hex
  exact ((h.drops_own_iff hva rfl fun _ => congrArg (pageSlot s) hnarrow).mp hex).2

/-- The processor may write the entry that the code comes to exactly if its path is writable. -/
theorem hwWritable_entryOf_iff (page : BitVec 64) :
    hwWritable s.mem s.cr3 (entryOf page) = true ↔ WritablePath s page := by
  rw [entryOf, hwWritable_recTable h.recursive (by simp [tablePath])]
  rfl

end MappedLow

/-- When `unmap` keeps to its page and frame, by the state before.

    Below 2^32, exactly if the page's entry may be written and the 4096 words from the frame on,
    which are eight pages, may be written once the entry is gone, each of them being this entry,
    in the frame, or 0 to begin with. From 2^32 on the code takes the entry of the cut number:
    exactly if that one is the page's own and the same holds, or it is absent and the frame is 0
    already. Where the cut number lacks a table the code takes a word `y` of low memory instead.
    To the two cases comes a third then: `y` is itself a word of the frame, and the 4096 words
    from where it points clear the frame and nothing else. -/
theorem unmapsOnly_iff (s : Machine) (page : BitVec 64) (f : FrameNo) (h : MappedLow s page f) :
    (page.toNat < 2 ^ 32 →
      ((∃ s', unmap s page = some s' ∧ UnmapsOnly s page f s') ↔
        WritablePath s page ∧
        ∀ j < 4096, Harmless (withoutEntry s page) s.cr3 f (pageSlot s page) (frameAddr f) j)) ∧
    (Linked s.mem s.cr3 (tablePath (narrow page)) →
      ((∃ s', unmap s page = some s' ∧ UnmapsOnly s page f s') ↔
        (Pte.present (s.mem (pageSlot s (narrow page))) = false ∧ ∀ i, s.mem ⟨f, i⟩ = 0) ∨
        (pageSlot s (narrow page) = pageSlot s page ∧ WritablePath s (narrow page) ∧
          ∀ j < 4096,
            Harmless (withoutEntry s page) s.cr3 f (pageSlot s page) (frameAddr f) j))) ∧
    (∀ pre i js y, tablePath (narrow page) = pre ++ i :: js → Linked s.mem s.cr3 pre →
      ¬ Pte.Link (s.mem ⟨reach s.mem s.cr3 pre, i⟩) →
      y = ⟨lowTable s.mem 0 js, lastIndex (narrow page)⟩ →
      ((∃ s', unmap s page = some s' ∧ UnmapsOnly s page f s') ↔
        (Pte.present (s.mem y) = false ∧ ∀ i, s.mem ⟨f, i⟩ = 0) ∨
        (y = pageSlot s page ∧
          hwWritable s.mem s.cr3 (entryAddr (frameAddr y.frame) (y.index.setWidth 64)) = true ∧
          ∀ j < 4096,
            Harmless (withoutEntry s page) s.cr3 f (pageSlot s page) (frameAddr f) j) ∨
        (y.frame = f ∧ Pte.present (s.mem y) = true ∧
          hwWritable s.mem s.cr3 (entryAddr (frameAddr y.frame) (y.index.setWidth 64)) = true ∧
          Clears (without s.mem y) s.cr3 f (pageSlot s page)
            (frameStartingAddress (pointedFrame (s.mem y)))))) := by
  have hlinked : Linked s.mem s.cr3 (tablePath (narrow page)) →
      ((∃ s', unmap s page = some s' ∧ UnmapsOnly s page f s') ↔
        (Pte.present (s.mem (pageSlot s (narrow page))) = false ∧ ∀ i, s.mem ⟨f, i⟩ = 0) ∨
        (pageSlot s (narrow page) = pageSlot s page ∧ WritablePath s (narrow page) ∧
          ∀ j < 4096,
            Harmless (withoutEntry s page) s.cr3 f (pageSlot s page) (frameAddr f) j)) := by
    intro hl
    obtain ⟨hrun, hva⟩ := h.unmap_linked hl
    have hf : (pageSlot s (narrow page)).frame ≠ f := h.noTable _ (by simp [tablePath]) hl
    rw [hrun, ← h.hwWritable_entryOf_iff,
      h.drops_cases hva (fun _ => rfl) fun hframe => absurd hframe hf]
    simp only [hf, false_and, or_false]
  refine ⟨fun hlow => ?_, hlinked, ?_⟩
  · have hnarrow := narrow_eq hlow
    rw [hnarrow] at hlinked
    rw [hlinked h.linked, h.present]
    simp only [Bool.true_eq_false, false_and, false_or, true_and]
  · rintro pre i js y hpath hl hbreak rfl
    obtain ⟨hrun, hva⟩ := h.unmap_broken hpath hl hbreak
    have hnone : ¬ Linked s.mem s.cr3 (tablePath (narrow page)) := by
      intro hnarrow
      rw [hpath, List.append_cons] at hnarrow
      exact absurd ((linked_snoc _ _ _ _).mp (linked_append hnarrow)).2 hbreak
    rw [hrun]
    exact h.drops_cases hva (fun hnarrow => absurd hnarrow hnone) fun _ => hnone

/-- The tables in frames 0x100 to 0x104 map the first GiB to itself, and page 0x40000 behind it
    to frame 0x200. All other words are 0, but for one in frame 0x201 if that is in use. -/
def neighbourMem (used : Bool) : PhysMem := fun x =>
  if x = ⟨0x100, 511⟩ then 0x100003
  else if x = ⟨0x100, 0⟩ then 0x101003
  else if x = ⟨0x101, 0⟩ then 0x102003
  else if x = ⟨0x101, 1⟩ then 0x103003
  else if x = ⟨0x103, 0⟩ then 0x104003
  else if x = ⟨0x104, 0⟩ then 0x200003
  else if x.frame = 0x102 then pageEntry x.index
  else if x = ⟨0x201, 0⟩ ∧ used = true then 2
  else 0

def neighbourMachine (used : Bool) : Machine :=
  { sampleMachine with mem := neighbourMem used, cr3 := 0x100 }

theorem neighbourMem_low (used : Bool) : LowMapped lowTables (neighbourMem used) := by
  refine ⟨rfl, rfl, fun i => ?_⟩
  simp [neighbourMem, tableFrame, lowTables]

/-- How many links of `neighbourMem` lead to a frame. -/
def neighbourRank (t : FrameNo) : Nat :=
  if t = 0x100 then 0
  else if t = 0x101 then 1
  else if t = 0x102 ∨ t = 0x103 then 2
  else if t = 0x104 then 3
  else 4

theorem neighbourMem_noTable (used : Bool) : HoldsNoTable (neighbourMem used) 0x100 0x200 := by
  refine holdsNoTable_of_rank neighbourRank rfl ?_ (by decide)
  intro t i hlink
  unfold neighbourMem at hlink ⊢
  split_ifs at hlink ⊢ with h1 h2 h3 h4 h5 h6 h7 h8
  · obtain ⟨rfl, rfl⟩ := Slot.mk.inj h1
    decide
  · obtain ⟨rfl, rfl⟩ := Slot.mk.inj h2
    decide
  · obtain ⟨rfl, rfl⟩ := Slot.mk.inj h3
    decide
  · obtain ⟨rfl, rfl⟩ := Slot.mk.inj h4
    decide
  · obtain ⟨rfl, rfl⟩ := Slot.mk.inj h5
    decide
  · obtain ⟨rfl, rfl⟩ := Slot.mk.inj h6
    decide
  · exact absurd hlink.2 (ne_false_of_eq_true (pageEntry_flags i).2.2)
  · exact absurd hlink.1 (by decide)
  · exact absurd hlink.1 (by decide)

theorem neighbourMachine_slot (used : Bool) :
    pageSlot (neighbourMachine used) 0x40000 = ⟨0x104, 0⟩ := by
  revert used
  decide

theorem neighbourMachine_mapped (used : Bool) :
    MappedLow (neighbourMachine used) 0x40000 0x200 where
  canonical := by decide
  recursive := ⟨by revert used; decide, by revert used; decide⟩
  linked := by revert used; decide
  present := by revert used; decide
  frame := by revert used; decide
  low := by decide
  identity := fun va hva => ((neighbourMem_low used).translates_low hva).1
  noTable := neighbourMem_noTable used

theorem neighbour_addr {j : Nat} (hj : j < 4096) :
    (entryAddr (frameAddr 0x200) (BitVec.ofNat 64 j)).toNat = 0x200000 + j * 8 := by
  have hframe : frameAddr 0x200 = 0x200000#64 := rfl
  rw [hframe]
  simp only [entryAddr, BitVec.toNat_add, BitVec.toNat_mul, BitVec.toNat_ofNat]
  omega

/-- The words from the frame on are found where they are. -/
theorem neighbourMachine_word (used : Bool) {j : Nat} (hj : j < 4096) :
    wordAt (withoutEntry (neighbourMachine used) 0x40000) 0x100 (frameAddr 0x200) j =
      some (slotOf ((entryAddr (frameAddr 0x200) (BitVec.ofNat 64 j)).setWidth 52)) := by
  have hlow : LowMapped lowTables (withoutEntry (neighbourMachine used) 0x40000) := by
    rw [withoutEntry, neighbourMachine_slot]
    exact (neighbourMem_low used).update (by decide) (by decide) (by decide) _
  have haddr := neighbour_addr hj
  exact Option.map_eq_some_iff.mpr ⟨_, hwWrite_eq_some.mpr (hlow.translates_low (by omega)), rfl⟩

theorem neighbourMem_unused {x : Slot} (hx : 0x104 < x.frame.toNat) :
    neighbourMem false x = 0 := by
  have hne : ∀ y : Slot, y.frame.toNat ≤ 0x104 → x ≠ y := by
    rintro y hy rfl
    omega
  have hframe : x.frame ≠ 0x102 := by
    intro heq
    rw [heq] at hx
    exact absurd hx (by decide)
  rw [neighbourMem, if_neg (hne _ (by decide)), if_neg (hne _ (by decide)),
    if_neg (hne _ (by decide)), if_neg (hne _ (by decide)), if_neg (hne _ (by decide)),
    if_neg (hne _ (by decide)), if_neg hframe, if_neg (by simp)]

/-- With frames 0x201 to 0x207 unused, unmapping page 0x40000 does what it should. -/
theorem unmapsOnly_iff_neighbourMachine :
    MappedLow (neighbourMachine false) 0x40000 0x200 ∧
      ∃ s', unmap (neighbourMachine false) 0x40000 = some s' ∧
        UnmapsOnly (neighbourMachine false) 0x40000 0x200 s' := by
  have hmapped := neighbourMachine_mapped false
  refine ⟨hmapped, ((unmapsOnly_iff _ _ _ hmapped).1 (by decide)).mpr ⟨by decide, fun j hj => ?_⟩⟩
  refine ⟨_, neighbourMachine_word false hj, Or.inr (Or.inr ?_)⟩
  have haddr := neighbour_addr hj
  have hframe : (slotOf ((entryAddr (frameAddr 0x200) (BitVec.ofNat 64 j)).setWidth 52)).frame.toNat
      = 0x200 + j / 512 := by
    rw [slotOf, BitVec.extractLsb'_toNat, BitVec.toNat_setWidth, haddr,
      Nat.shiftRight_eq_div_pow]
    omega
  rw [withoutEntry, neighbourMachine_slot, without, Function.update_of_ne ?_]
  · exact neighbourMem_unused (by omega)
  · intro heq
    have hslot : (⟨0x104, 0⟩ : Slot).frame.toNat = 0x104 := rfl
    rw [heq, hslot] at hframe
    omega

/-- Word 512 from the frame on is the first of frame 0x201, and is cleared with the rest. -/
theorem unmap_clears_neighbour :
    MappedLow (neighbourMachine true) 0x40000 0x200 ∧
      ¬ ∃ s', unmap (neighbourMachine true) 0x40000 = some s' ∧
        UnmapsOnly (neighbourMachine true) 0x40000 0x200 s' := by
  have hmapped := neighbourMachine_mapped true
  refine ⟨hmapped, fun hex => ?_⟩
  obtain ⟨y, hy, hword⟩ := hmapped.harmless_of_unmapsOnly (by decide) hex 512 (by decide)
  have hfound : wordAt (withoutEntry (neighbourMachine true) 0x40000) 0x100 (frameAddr 0x200) 512 =
      some y := hy
  rw [neighbourMachine_word true (by decide)] at hfound
  rw [← Option.some.inj hfound, withoutEntry, neighbourMachine_slot] at hword
  exact absurd hword (by decide)

end Utero.Mmu
