/-
  Saving registers on a descending stack and restoring them.

  `pushWords vs` pushes the words `vs` in order, `pushAll rs` the registers `rs`, and
  `popAll rs` pops into them. If between the two the stack pointer and the saved words are
  kept, then popping in the opposite order restores every register (`popAll_restores`),
  whatever else changed.

  Memory is addressed by the byte and read in 64-bit words at multiples of 8 from the stack
  pointer; addresses wrap at 2^64. Nothing here depends on a program.
-/
import Mathlib.Algebra.Group.Nat.Defs
import Mathlib.Data.List.Nodup
import Mathlib.Logic.Function.Basic

namespace Utero.Lib

/-- A register file over the names `ρ`, a stack pointer and the words of memory. -/
structure StackMachine (ρ : Type) where
  regs : ρ → BitVec 64
  rsp : BitVec 64
  mem : BitVec 64 → BitVec 64

namespace StackMachine

variable {ρ : Type}

def push (s : StackMachine ρ) (v : BitVec 64) : StackMachine ρ :=
  { s with rsp := s.rsp - 8, mem := Function.update s.mem (s.rsp - 8) v }

def pushAll (s : StackMachine ρ) (rs : List ρ) : StackMachine ρ :=
  rs.foldl (fun s r => s.push (s.regs r)) s

@[simp] theorem push_regs (s : StackMachine ρ) (v : BitVec 64) : (s.push v).regs = s.regs := rfl

theorem pushAll_cons (s : StackMachine ρ) (r : ρ) (rs : List ρ) :
    s.pushAll (r :: rs) = (s.push (s.regs r)).pushAll rs := rfl

/-- The address of the `i`-th word below `p`. -/
def below (p : BitVec 64) (i : Nat) : BitVec 64 := p - BitVec.ofNat 64 (8 * (i + 1))

theorem below_succ (p : BitVec 64) (i : Nat) : below (p - 8) i = below p (i + 1) := by
  apply BitVec.eq_of_toNat_eq
  simp only [below, BitVec.toNat_sub, BitVec.toNat_ofNat, show (8 : BitVec 64).toNat = 8 from rfl]
  omega

theorem below_add (p : BitVec 64) {i k : Nat} (h : k ≤ i) :
    below p i + BitVec.ofNat 64 (8 * k) = below p (i - k) := by
  apply BitVec.eq_of_toNat_eq
  simp only [below, BitVec.toNat_add, BitVec.toNat_sub, BitVec.toNat_ofNat]
  omega

theorem below_inj {p : BitVec 64} {i j : Nat} (hi : i < 2 ^ 60) (hj : j < 2 ^ 60)
    (h : below p i = below p j) : i = j := by
  have h' := congrArg BitVec.toNat h
  simp only [below, BitVec.toNat_sub, BitVec.toNat_ofNat] at h'
  omega

def pushWords (s : StackMachine ρ) (vs : List (BitVec 64)) : StackMachine ρ :=
  vs.foldl push s

theorem pushWords_cons (s : StackMachine ρ) (v : BitVec 64) (vs : List (BitVec 64)) :
    s.pushWords (v :: vs) = (s.push v).pushWords vs := rfl

theorem pushWords_append (s : StackMachine ρ) (vs ws : List (BitVec 64)) :
    s.pushWords (vs ++ ws) = (s.pushWords vs).pushWords ws :=
  List.foldl_append

theorem pushAll_eq_pushWords (s : StackMachine ρ) (rs : List ρ) :
    s.pushAll rs = s.pushWords (rs.map s.regs) := by
  induction rs generalizing s with
  | nil => rfl
  | cons r rs ih =>
    rw [pushAll_cons, ih, List.map_cons, pushWords_cons]
    rfl

@[simp] theorem pushWords_regs (s : StackMachine ρ) (vs : List (BitVec 64)) :
    (s.pushWords vs).regs = s.regs := by
  induction vs generalizing s with
  | nil => rfl
  | cons v vs ih => exact ih (s.push v)

theorem pushWords_withRegs (s : StackMachine ρ) (f : ρ → BitVec 64) (vs : List (BitVec 64)) :
    StackMachine.pushWords { s with regs := f } vs = { s.pushWords vs with regs := f } := by
  induction vs generalizing s with
  | nil => rfl
  | cons v vs ih => exact ih (s.push v)

theorem pushWords_rsp (s : StackMachine ρ) (vs : List (BitVec 64)) :
    (s.pushWords vs).rsp = s.rsp - BitVec.ofNat 64 (8 * vs.length) := by
  induction vs generalizing s with
  | nil => simp [pushWords]
  | cons v vs ih =>
    rw [pushWords_cons, ih]
    apply BitVec.eq_of_toNat_eq
    simp only [push, List.length_cons, BitVec.toNat_sub, BitVec.toNat_ofNat,
      show (8 : BitVec 64).toNat = 8 from rfl]
    omega

/-- Pushing writes only the words below the stack pointer. -/
theorem pushWords_mem_of_ne (s : StackMachine ρ) (vs : List (BitVec 64)) {a : BitVec 64}
    (h : ∀ i < vs.length, a ≠ below s.rsp i) : (s.pushWords vs).mem a = s.mem a := by
  induction vs generalizing s with
  | nil => rfl
  | cons v vs ih =>
    have hne : a ≠ s.rsp - 8 := h 0 (by simp)
    rw [pushWords_cons, ih]
    · exact Function.update_of_ne hne _ _
    · intro i hi
      have := h (i + 1) (by simpa using hi)
      rwa [← below_succ] at this

/-- The `i`-th word below the old stack pointer is the `i`-th word pushed. -/
theorem pushWords_mem (s : StackMachine ρ) (vs : List (BitVec 64)) (hlen : vs.length ≤ 2 ^ 60)
    {i : Nat} {v : BitVec 64} (hv : vs[i]? = some v) :
    (s.pushWords vs).mem (below s.rsp i) = v := by
  induction vs generalizing s i with
  | nil => simp at hv
  | cons w vs ih =>
    rw [List.length_cons] at hlen
    rw [pushWords_cons]
    cases i with
    | zero =>
      obtain rfl : w = v := by simpa using hv
      rw [pushWords_mem_of_ne]
      · exact Function.update_self _ _ _
      · intro j hj heq
        rw [push, below_succ] at heq
        exact absurd (below_inj (by omega) (by omega) heq) (by omega)
    | succ i =>
      rw [← below_succ]
      exact ih (s.push w) (by omega) (by simpa using hv)

/-- Seen from the new stack pointer, the words pushed lie in the opposite order. -/
theorem pushWords_above (s : StackMachine ρ) (vs : List (BitVec 64)) {i : Nat}
    (hi : i < vs.length) :
    (s.pushWords vs).rsp + BitVec.ofNat 64 (8 * (vs.length - 1 - i)) = below s.rsp i := by
  rw [pushWords_rsp]
  apply BitVec.eq_of_toNat_eq
  simp only [below, BitVec.toNat_add, BitVec.toNat_sub, BitVec.toNat_ofNat]
  omega

variable [DecidableEq ρ]

def pop (s : StackMachine ρ) (r : ρ) : StackMachine ρ :=
  { s with regs := Function.update s.regs r (s.mem s.rsp), rsp := s.rsp + 8 }

def popAll (s : StackMachine ρ) (rs : List ρ) : StackMachine ρ :=
  rs.foldl pop s

theorem popAll_cons (s : StackMachine ρ) (r : ρ) (rs : List ρ) :
    s.popAll (r :: rs) = (s.pop r).popAll rs := rfl

theorem popAll_rsp (s : StackMachine ρ) (rs : List ρ) :
    (s.popAll rs).rsp = s.rsp + BitVec.ofNat 64 (8 * rs.length) := by
  induction rs generalizing s with
  | nil => simp [popAll]
  | cons r rs ih =>
    rw [popAll_cons, ih]
    apply BitVec.eq_of_toNat_eq
    simp only [pop, List.length_cons, BitVec.toNat_add, BitVec.toNat_ofNat,
      show (8 : BitVec 64).toNat = 8 from rfl]
    omega

theorem popAll_mem (s : StackMachine ρ) (rs : List ρ) : (s.popAll rs).mem = s.mem := by
  induction rs generalizing s with
  | nil => rfl
  | cons r rs ih => exact ih (s.pop r)

theorem popAll_regs_of_notMem (s : StackMachine ρ) {rs : List ρ} {r : ρ} (h : r ∉ rs) :
    (s.popAll rs).regs r = s.regs r := by
  induction rs generalizing s with
  | nil => rfl
  | cons q rs ih =>
    rw [List.mem_cons, not_or] at h
    rw [popAll_cons, ih _ h.2]
    exact Function.update_of_ne h.1 _ _

/-- The `i`-th pop reads the `i`-th word above the stack pointer. -/
theorem popAll_regs (s : StackMachine ρ) {rs : List ρ} (hnd : rs.Nodup) {i : Nat} {r : ρ}
    (hr : rs[i]? = some r) :
    (s.popAll rs).regs r = s.mem (s.rsp + BitVec.ofNat 64 (8 * i)) := by
  induction rs generalizing s i with
  | nil => simp at hr
  | cons q rs ih =>
    obtain ⟨hq, hnd⟩ := List.nodup_cons.mp hnd
    rw [popAll_cons]
    cases i with
    | zero =>
      obtain rfl : q = r := by simpa using hr
      rw [popAll_regs_of_notMem _ hq]
      simp [pop]
    | succ i =>
      rw [ih (s.pop q) hnd (by simpa using hr)]
      have haddr : s.rsp + 8 + BitVec.ofNat 64 (8 * i) =
          s.rsp + BitVec.ofNat 64 (8 * (i + 1)) := by
        apply BitVec.eq_of_toNat_eq
        simp only [BitVec.toNat_add, BitVec.toNat_ofNat, show (8 : BitVec 64).toNat = 8 from rfl]
        omega
      exact congrArg s.mem haddr

/-- Between `s` and `s'` the stack pointer and the top `n` words of the stack are kept. -/
structure KeepsTop (n : Nat) (s s' : StackMachine ρ) : Prop where
  rsp : s'.rsp = s.rsp
  words : ∀ i < n,
    s'.mem (s.rsp + BitVec.ofNat 64 (8 * i)) = s.mem (s.rsp + BitVec.ofNat 64 (8 * i))

omit [DecidableEq ρ] in
/-- `KeepsTop` reads only the stack pointer and the memory of the earlier state. -/
theorem KeepsTop.of_eq {n : Nat} {s t s' : StackMachine ρ} (h : KeepsTop n s s')
    (hrsp : s.rsp = t.rsp) (hmem : s.mem = t.mem) : KeepsTop n t s' := by
  refine ⟨h.rsp.trans hrsp, fun i hi => ?_⟩
  rw [← hrsp, ← hmem]
  exact h.words i hi

/-- Popping in the opposite order restores the registers, if the code in between keeps the
    saved words. -/
theorem popAll_restores {s s' : StackMachine ρ} {rs : List ρ} (hnd : rs.Nodup)
    (hlen : rs.length ≤ 2 ^ 60) (h : KeepsTop rs.length (s.pushAll rs) s') {r : ρ}
    (hr : r ∈ rs) : (s'.popAll rs.reverse).regs r = s.regs r := by
  obtain ⟨i, hi, hget⟩ := List.getElem_of_mem hr
  have hrev : rs.reverse[rs.length - 1 - i]? = some r := by
    rw [List.getElem?_reverse (by omega), List.getElem?_eq_getElem (by omega)]
    simp only [show rs.length - 1 - (rs.length - 1 - i) = i by omega, hget]
  have haddr := pushWords_above s (rs.map s.regs) (i := i) (by rwa [List.length_map])
  rw [List.length_map, ← pushAll_eq_pushWords] at haddr
  rw [popAll_regs s' (List.nodup_reverse.mpr hnd) hrev, h.rsp, h.words _ (by omega), haddr,
    pushAll_eq_pushWords]
  refine pushWords_mem s _ (by rwa [List.length_map]) ?_
  rw [List.getElem?_map, List.getElem?_eq_getElem hi, hget]
  rfl

end StackMachine

end Utero.Lib
