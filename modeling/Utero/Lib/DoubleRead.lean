/-
  Reading a set of registers twice.

  `V t i` is what register `i` holds at time `t`. A pass reads every register once, each at its
  own time, so an update in the middle of a pass leaves it with values of two instants. When the
  same values are read in two passes, one behind the other, and at most one update falls into the
  two, then they are the values of one instant (`read_twice`).

  Nothing here depends on a program.
-/
import Mathlib.Tactic.ByContra

namespace Utero.Lib

variable {ι α β : Type}

/-- At most one step from `a` to `b` changes the value. -/
def UpdatesOnce (V : Nat → β) (a b : Nat) : Prop :=
  ∀ t u, a ≤ t → t < b → a ≤ u → u < b → V (t + 1) ≠ V t → V (u + 1) ≠ V u → t = u

theorem constant_of_no_update {V : Nat → β} {a b : Nat}
    (h : ∀ t, a ≤ t → t < b → V (t + 1) = V t) {t : Nat} (ha : a ≤ t) (hb : t ≤ b) :
    V t = V a := by
  obtain ⟨k, rfl⟩ := Nat.exists_eq_add_of_le ha
  clear ha
  induction k with
  | zero => rfl
  | succ k ih =>
    rw [← Nat.add_assoc, h (a + k) (by omega) (by omega)]
    exact ih (by omega)

/-- The value before the update and the value behind it. -/
theorem UpdatesOnce.split {V : Nat → β} {a b : Nat} (h : UpdatesOnce V a b) :
    ∃ u, (∀ t, a ≤ t → t ≤ b → t ≤ u → V t = V a) ∧
      ∀ t, a ≤ t → t ≤ b → u < t → V t = V b := by
  by_cases hupdate : ∃ u, a ≤ u ∧ u < b ∧ V (u + 1) ≠ V u
  · obtain ⟨u, hau, hub, hchange⟩ := hupdate
    have hquiet : ∀ t, a ≤ t → t < b → t ≠ u → V (t + 1) = V t := by
      intro t hat htb hne
      by_contra htu
      exact hne (h t u hat htb hau hub htu hchange)
    have hbefore : ∀ t, a ≤ t → t < u → V (t + 1) = V t :=
      fun t hat htu => hquiet t hat (by omega) (by omega)
    have hafter : ∀ t, u + 1 ≤ t → t < b → V (t + 1) = V t :=
      fun t htu htb => hquiet t (by omega) htb (by omega)
    refine ⟨u, fun t hat _ htu => constant_of_no_update hbefore hat htu, fun t _ htb htu => ?_⟩
    rw [constant_of_no_update hafter htu htb, constant_of_no_update hafter hub (Nat.le_refl b)]
  · refine ⟨b, fun t hat htb _ => ?_, fun t _ htb hlt => by omega⟩
    refine constant_of_no_update (fun v hav hvb => ?_) hat htb
    by_contra hchange
    exact hupdate ⟨v, hav, hvb, hchange⟩

/-- Register `i` is read at `p i` in the first pass and at `q i` in the second. -/
theorem read_twice {V : Nat → ι → α} {a b : Nat} {p q : ι → Nat} (hab : a ≤ b)
    (hp : ∀ i, a ≤ p i) (hpq : ∀ i j, p i < q j) (hq : ∀ i, q i ≤ b) (hone : UpdatesOnce V a b)
    (hsame : ∀ i, V (q i) i = V (p i) i) :
    ∃ t, a ≤ t ∧ t ≤ b ∧ ∀ i, V (q i) i = V t i := by
  obtain ⟨u, hbefore, hafter⟩ := hone.split
  by_cases hlate : ∀ j, u < q j
  · -- the second pass lies behind the update
    refine ⟨b, hab, Nat.le_refl b, fun i => ?_⟩
    have hpi := hp i
    have hlt := hpq i i
    rw [hafter (q i) (by omega) (hq i) (hlate i)]
  · -- some read of the second pass lies before it, and so does the first pass
    obtain ⟨j, hj⟩ := Classical.not_forall.mp hlate
    refine ⟨a, Nat.le_refl a, hab, fun i => ?_⟩
    have hlt := hpq i j
    have hqj := hq j
    rw [hsame i, hbefore (p i) (hp i) (by omega) (by omega)]

end Utero.Lib
