/-
  Searching a list from an index on, and lists spaced by a distance.

  `FirstFrom p l k i a`: of the positions of `l` from `k` on, `i` is the first whose element
  satisfies `p`, and `a` is that element. This is what a first-fit search promises.
  `Spaced d f l`: along `l` the values of `f` grow by at least `d` from each element to every
  later one, as the addresses of disjoint blocks of size `d` do.

  Nothing here depends on a program.
-/
import Mathlib.Algebra.Group.Nat.Defs
import Mathlib.Data.Nat.Find

namespace Utero.Lib

variable {α : Type}

/-! ## First position from an index on -/

structure FirstFrom (p : α → Prop) (l : List α) (k i : Nat) (a : α) : Prop where
  le : k ≤ i
  get : l[i]? = some a
  holds : p a
  least : ∀ j b, k ≤ j → l[j]? = some b → p b → i ≤ j

theorem firstFrom_exists {p : α → Prop} {l : List α} {k : Nat}
    (h : ∃ i a, k ≤ i ∧ l[i]? = some a ∧ p a) : ∃ i a, FirstFrom p l k i a := by
  classical
  obtain ⟨a, hle, hget, ha⟩ := Nat.find_spec h
  refine ⟨Nat.find h, a, hle, hget, ha, fun j b hj hb hp => ?_⟩
  exact Nat.find_min' h ⟨b, hj, hb, hp⟩

namespace FirstFrom

variable {p q : α → Prop} {l : List α} {k i j : Nat} {a b : α}

theorem index_eq (h : FirstFrom p l k i a) (h' : FirstFrom p l k j b) : i = j := by
  have h1 := h.least j b h'.le h'.get h'.holds
  have h2 := h'.least i a h.le h.get h.holds
  omega

theorem unique (h : FirstFrom p l k i a) (h' : FirstFrom p l k j b) : i = j ∧ a = b := by
  have hij := h.index_eq h'
  subst hij
  exact ⟨rfl, Option.some.inj (h.get.symm.trans h'.get)⟩

/-- A stronger condition is met no earlier. -/
theorem index_le (h : FirstFrom p l k i a) (h' : FirstFrom q l k j b) (hqp : q b → p b) :
    i ≤ j :=
  h.least j b h'.le h'.get (hqp h'.holds)

/-- Starting later, but not past the position found, finds the same. -/
theorem start_later (h : FirstFrom p l k i a) {k' : Nat} (hk : k ≤ k') (hi : k' ≤ i) :
    FirstFrom p l k' i a :=
  ⟨hi, h.get, h.holds, fun j b hj hb hp => h.least j b (by omega) hb hp⟩

end FirstFrom

/-- The only element that satisfies `p` is found. -/
theorem find?_eq_some_of_unique {p : α → Bool} {l : List α} {a : α} (hmem : a ∈ l) (ha : p a)
    (hunique : ∀ b, p b → b = a) : l.find? p = some a := by
  cases hfound : l.find? p with
  | none => exact absurd ha (List.find?_eq_none.mp hfound a hmem)
  | some b => rw [hunique b (List.find?_some hfound)]

/-! ## Spaced lists -/

def Spaced (d : Nat) (f : α → Nat) (l : List α) : Prop :=
  l.Pairwise fun a b => f a + d ≤ f b

namespace Spaced

variable {d : Nat} {f : α → Nat} {l : List α}

theorem add_le (h : Spaced d f l) {i j : Nat} {a b : α} (hij : i < j)
    (ha : l[i]? = some a) (hb : l[j]? = some b) : f a + d ≤ f b := by
  obtain ⟨hi, rfl⟩ := List.getElem?_eq_some_iff.mp ha
  obtain ⟨hj, rfl⟩ := List.getElem?_eq_some_iff.mp hb
  exact List.pairwise_iff_getElem.mp h i j hi hj hij

/-- The element at position `k` has `k` blocks below it. -/
theorem mul_le (h : Spaced d f l) {k : Nat} {a : α} (ha : l[k]? = some a) : d * k ≤ f a := by
  induction k generalizing a with
  | zero => simp
  | succ k ih =>
    obtain ⟨hk, -⟩ := List.getElem?_eq_some_iff.mp ha
    have hprev : l[k]? = some (l[k]) := List.getElem?_eq_getElem (by omega)
    have h1 := ih hprev
    have h2 := h.add_le (Nat.lt_succ_self k) hprev ha
    rw [Nat.mul_succ]
    omega

end Spaced

end Utero.Lib
