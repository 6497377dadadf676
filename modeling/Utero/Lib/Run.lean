/-
  Runs of a partial step function: states `σ`, events `ε`, and `none` where an event is not
  possible.

  `Runs step s es s'`: the events `es`, one after the other, lead from `s` to `s'`. A property is
  carried along a run together with the events so far (`Runs.induct`), so that it may count them.
  Where the runs are bounded, one comes to its end (`Runs.exists_complete`).

  Nothing here depends on a program.
-/
import Mathlib.Data.List.Induction

namespace Utero.Lib

variable {σ ε : Type} {step : σ → ε → Option σ} {s s' s'' : σ} {e : ε} {es es' : List ε}

/-- The events lead from `s` to `s'`. -/
def Runs (step : σ → ε → Option σ) (s : σ) (es : List ε) (s' : σ) : Prop :=
  es.foldlM step s = some s'

namespace Runs

theorem nil_iff : Runs step s [] s' ↔ s = s' := Option.some_inj

theorem cons_iff : Runs step s (e :: es) s' ↔ ∃ m, step s e = some m ∧ Runs step m es s' := by
  unfold Runs
  rw [List.foldlM_cons]
  exact Option.bind_eq_some_iff

theorem append_iff :
    Runs step s (es ++ es') s' ↔ ∃ m, Runs step s es m ∧ Runs step m es' s' := by
  unfold Runs
  rw [List.foldlM_append]
  exact Option.bind_eq_some_iff

theorem concat_iff :
    Runs step s (es ++ [e]) s' ↔ ∃ m, Runs step s es m ∧ step m e = some s' := by
  rw [append_iff]
  refine exists_congr fun m => and_congr_right fun _ => ?_
  rw [cons_iff]
  simp only [nil_iff, exists_eq_right]

theorem refl (step : σ → ε → Option σ) (s : σ) : Runs step s [] s := rfl

theorem trans (h : Runs step s es s') (h' : Runs step s' es' s'') :
    Runs step s (es ++ es') s'' :=
  append_iff.mpr ⟨s', h, h'⟩

theorem single (h : step s e = some s') : Runs step s [e] s' :=
  cons_iff.mpr ⟨s', h, refl step s'⟩

/-- What holds at the start and is kept by every step holds at the end, the events so far
    included. -/
theorem induct {I : List ε → σ → Prop} (hrun : Runs step s es s') (hinit : I [] s)
    (hstep : ∀ es m e m', I es m → step m e = some m' → I (es ++ [e]) m') : I es s' := by
  induction es using List.reverseRec generalizing s' with
  | nil =>
    rw [nil_iff] at hrun
    exact hrun ▸ hinit
  | append_singleton es e ih =>
    obtain ⟨m, hm, hs⟩ := concat_iff.mp hrun
    exact hstep es m e s' (ih hm) hs

/-- If the runs are bounded, one of them cannot go on. -/
theorem exists_complete {n : Nat} (hbound : ∀ es s', Runs step s es s' → es.length ≤ n) :
    ∃ es s', Runs step s es s' ∧ ∀ e, step s' e = none := by
  -- on the steps left when `es` are done
  suffices h : ∀ d es m, Runs step s es m → es.length + d = n →
      ∃ es s', Runs step s es s' ∧ ∀ e, step s' e = none from
    h n [] s (refl step s) (Nat.zero_add n)
  intro d
  induction d with
  | zero =>
    intro es m hrun hlen
    refine ⟨es, m, hrun, fun e => ?_⟩
    cases hstep : step m e with
    | none => rfl
    | some m' =>
      have hle := hbound (es ++ [e]) m' (concat_iff.mpr ⟨m, hrun, hstep⟩)
      rw [List.length_append, List.length_singleton] at hle
      omega
  | succ d ih =>
    intro es m hrun hlen
    by_cases hend : ∀ e, step m e = none
    · exact ⟨es, m, hrun, hend⟩
    · obtain ⟨e, he⟩ := not_forall.mp hend
      obtain ⟨m', hstep⟩ := Option.ne_none_iff_exists'.mp he
      refine ih (es ++ [e]) m' (concat_iff.mpr ⟨m, hrun, hstep⟩) ?_
      rw [List.length_append, List.length_singleton]
      omega

/-- The same for a property of the state alone. -/
theorem invariant {I : σ → Prop} (hrun : Runs step s es s') (hinit : I s)
    (hstep : ∀ m e m', I m → step m e = some m' → I m') : I s' :=
  hrun.induct (I := fun _ => I) hinit fun _ m e m' => hstep m e m'

end Runs

end Utero.Lib
