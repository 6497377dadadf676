/-
  The hull of a set of intervals, by two running values.

  A loop that looks for the least start and the greatest end of intervals begins with two values
  outside the range, `top` and `bot`, and takes the intervals in one by one. `Hull` says what the
  two values are after the members of a set: the least of the starts and `top`, and the greatest
  of the ends and `bot`. The order in which the members came has no part in it.

  Nothing here depends on a program.
-/
import Mathlib.Order.Bounds.Basic

namespace Utero.Lib

variable {ι α : Type} [LinearOrder α]

structure Hull (top bot : α) (start stop : ι → α) (S : Set ι) (lo hi : α) : Prop where
  least : IsLeast (insert top (Set.image start S)) lo
  greatest : IsGreatest (insert bot (Set.image stop S)) hi

variable {top bot lo hi : α} {start stop : ι → α} {S : Set ι}

theorem hull_empty (top bot : α) (start stop : ι → α) : Hull top bot start stop ∅ top bot := by
  constructor
  · rw [Set.image_empty, insert_empty_eq]
    exact isLeast_singleton
  · rw [Set.image_empty, insert_empty_eq]
    exact isGreatest_singleton

/-- One more interval. -/
theorem Hull.insert (h : Hull top bot start stop S lo hi) (x : ι) :
    Hull top bot start stop (insert x S) (min (start x) lo) (max (stop x) hi) := by
  constructor
  · rw [Set.image_insert_eq, Set.insert_comm]
    exact h.least.insert (start x)
  · rw [Set.image_insert_eq, Set.insert_comm]
    exact h.greatest.insert (stop x)

theorem Hull.of_empty (h : Hull top bot start stop ∅ lo hi) : lo = top ∧ hi = bot := by
  obtain ⟨hleast, hgreatest⟩ := h
  rw [Set.image_empty, insert_empty_eq] at hleast hgreatest
  exact ⟨hleast.1, hgreatest.1⟩

/-- Where there are members, `top` and `bot` are forgotten. -/
theorem Hull.bounds (h : Hull top bot start stop S lo hi) (hne : S.Nonempty)
    (htop : ∀ x ∈ S, start x ≤ top) (hbot : ∀ x ∈ S, bot ≤ stop x) :
    IsLeast (Set.image start S) lo ∧ IsGreatest (Set.image stop S) hi := by
  obtain ⟨x, hx⟩ := hne
  have hlo : ∀ y ∈ S, lo ≤ start y := fun y hy => h.least.2 (Or.inr ⟨y, hy, rfl⟩)
  have hhi : ∀ y ∈ S, stop y ≤ hi := fun y hy => h.greatest.2 (Or.inr ⟨y, hy, rfl⟩)
  refine ⟨⟨?_, ?_⟩, ⟨?_, ?_⟩⟩
  · rcases h.least.1 with heq | hmem
    · -- `lo` is `top`, so every member starts there
      exact ⟨x, hx, le_antisymm (heq ▸ htop x hx) (hlo x hx)⟩
    · exact hmem
  · rintro _ ⟨y, hy, rfl⟩
    exact hlo y hy
  · rcases h.greatest.1 with heq | hmem
    · exact ⟨x, hx, le_antisymm (hhi x hx) (heq ▸ hbot x hx)⟩
    · exact hmem
  · rintro _ ⟨y, hy, rfl⟩
    exact hhi y hy

end Utero.Lib
