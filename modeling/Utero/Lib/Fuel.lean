/-
  Computations on fuel.

  A C function that may loop for ever is modelled as `f : Nat → Option α`: `f n` is the
  result when `n` steps suffice and `none` when they do not. `Returns f a` says that the
  computation terminates with `a`, that is, every large enough amount of fuel gives `a`.
  `FuelMono f` says that more fuel never changes a result, so one run that comes to an end
  settles `Returns` (`FuelMono.returns`).

  A `for` or `while` loop whose body may return early is `loop step`, where `step` sends the
  loop state to the next one (`inl`) or to the value returned (`inr`). `Yields step s r` is
  its meaning without fuel: `Yields.returns` and `Returns.yields` go from one to the other.
  `Visits step s t` says that the loop started in `s` comes through state `t`, whether or not
  it ends. A loop that can always go on from an invariant does not (`not_yields_of_invariant`),
  and only the states visited matter for the result (`loop_congr`). `guarded` is a loop that stops
  with an error where a check in front of its body fails. `Touches` collects what the
  rounds read or write; the rest of a memory is left alone (`Yields.eq_of_not_touches`).

  Nothing here depends on a program.
-/

namespace Utero.Lib

variable {α β σ ρ : Type}

/-! ## Terminating with a result -/

/-- Every large enough amount of fuel gives `a`. -/
def Returns (f : Nat → Option α) (a : α) : Prop :=
  ∃ n, ∀ m, n ≤ m → f m = some a

/-- More fuel keeps a result. -/
def FuelMono (f : Nat → Option α) : Prop :=
  ∀ n a, f n = some a → f (n + 1) = some a

theorem Returns.unique {f : Nat → Option α} {a b : α} (ha : Returns f a) (hb : Returns f b) :
    a = b := by
  obtain ⟨n, hn⟩ := ha
  obtain ⟨m, hm⟩ := hb
  have h := hn (max n m) (by omega)
  rw [hm (max n m) (by omega)] at h
  exact (Option.some.inj h).symm

theorem returns_const (a : α) : Returns (fun _ => some a) a :=
  ⟨0, fun _ _ => rfl⟩

theorem Returns.bind {f : Nat → Option α} {g : α → Nat → Option β} {a : α} {b : β}
    (hf : Returns f a) (hg : Returns (g a) b) :
    Returns (fun n => (f n).bind fun x => g x n) b := by
  obtain ⟨n, hn⟩ := hf
  obtain ⟨m, hm⟩ := hg
  refine ⟨max n m, fun k hk => ?_⟩
  simp only [hn k (by omega), Option.bind_some]
  exact hm k (by omega)

/-- A function that spends one unit of fuel before it goes on with `f`. -/
theorem Returns.of_succ {f g : Nat → Option α} {a : α} (hf : Returns f a)
    (hg : ∀ n, g (n + 1) = f n) : Returns g a := by
  obtain ⟨n, hn⟩ := hf
  refine ⟨n + 1, fun m hm => ?_⟩
  obtain ⟨k, rfl⟩ : ∃ k, m = k + 1 := ⟨m - 1, by omega⟩
  rw [hg]
  exact hn k (by omega)

theorem FuelMono.le {f : Nat → Option α} (hf : FuelMono f) {n m : Nat} {a : α}
    (h : f n = some a) (hnm : n ≤ m) : f m = some a := by
  induction m with
  | zero =>
    rw [Nat.le_zero.mp hnm] at h
    exact h
  | succ m ih =>
    rcases Nat.lt_or_eq_of_le hnm with hlt | rfl
    · exact hf m a (ih (by omega))
    · exact h

/-- One run that ends settles the result. -/
theorem FuelMono.returns {f : Nat → Option α} (hf : FuelMono f) {n : Nat} {a : α}
    (h : f n = some a) : Returns f a :=
  ⟨n, fun _ hm => hf.le h hm⟩

theorem FuelMono.bind {f : Nat → Option α} {g : α → Nat → Option β} (hf : FuelMono f)
    (hg : ∀ a, FuelMono (g a)) : FuelMono (fun n => (f n).bind fun x => g x n) := by
  intro n b h
  obtain ⟨a, ha, hb⟩ := Option.bind_eq_some_iff.mp h
  refine Option.bind_eq_some_iff.mpr ⟨a, hf n a ha, hg a n b hb⟩

/-- A sequence that ends consists of two computations that end. -/
theorem FuelMono.returns_bind {f : Nat → Option α} {g : α → Nat → Option β} {b : β}
    (hf : FuelMono f) (h : Returns (fun n => (f n).bind fun x => g x n) b) :
    ∃ a, Returns f a ∧ Returns (g a) b := by
  obtain ⟨n, hn⟩ := h
  obtain ⟨a, ha, -⟩ := Option.bind_eq_some_iff.mp (hn n (Nat.le_refl n))
  refine ⟨a, hf.returns ha, n, fun m hm => ?_⟩
  have hrun : (f m).bind (fun x => g x m) = some b := hn m hm
  rw [hf.le ha hm] at hrun
  exact hrun

/-! ## Loops with an early return -/

/-- Run the loop body `step` from `s`, at most `fuel` times. -/
def loop (step : σ → σ ⊕ ρ) : Nat → σ → Option ρ
  | 0, _ => none
  | fuel + 1, s =>
    match step s with
    | .inl s' => loop step fuel s'
    | .inr r => some r

theorem loop_again {step : σ → σ ⊕ ρ} {s s' : σ} (h : step s = .inl s') (n : Nat) :
    loop step (n + 1) s = loop step n s' := by
  simp [loop, h]

theorem loop_exit {step : σ → σ ⊕ ρ} {s : σ} {r : ρ} (h : step s = .inr r) (n : Nat) :
    loop step (n + 1) s = some r := by
  simp [loop, h]

/-- The loop started in `s` ends with `r`. -/
inductive Yields (step : σ → σ ⊕ ρ) : σ → ρ → Prop
  | exit {s : σ} {r : ρ} : step s = .inr r → Yields step s r
  | again {s s' : σ} {r : ρ} : step s = .inl s' → Yields step s' r → Yields step s r

theorem loop_fuelMono (step : σ → σ ⊕ ρ) (s : σ) : FuelMono (fun n => loop step n s) := by
  intro n r h
  induction n generalizing s with
  | zero => simp [loop] at h
  | succ n ih =>
    dsimp only at h ⊢
    cases hs : step s with
    | inl s' =>
      rw [loop_again hs] at h ⊢
      exact ih s' h
    | inr r' =>
      rw [loop_exit hs] at h ⊢
      exact h

theorem Yields.returns {step : σ → σ ⊕ ρ} {s : σ} {r : ρ} (h : Yields step s r) :
    Returns (fun n => loop step n s) r := by
  induction h with
  | exit hs => exact (loop_fuelMono step _).returns (loop_exit hs 0)
  | again hs _ ih => exact ih.of_succ fun n => loop_again hs n

theorem Returns.yields {step : σ → σ ⊕ ρ} {s : σ} {r : ρ}
    (h : Returns (fun n => loop step n s) r) : Yields step s r := by
  obtain ⟨n, hn⟩ := h
  have hrun : loop step n s = some r := hn n (Nat.le_refl n)
  clear hn
  induction n generalizing s with
  | zero => simp [loop] at hrun
  | succ n ih =>
    cases hs : step s with
    | inl s' =>
      rw [loop_again hs] at hrun
      exact Yields.again hs (ih hrun)
    | inr r' =>
      rw [loop_exit hs] at hrun
      cases hrun
      exact Yields.exit hs

/-- The loop started in the first state comes through the second one. -/
inductive Visits (step : σ → σ ⊕ ρ) : σ → σ → Prop
  | here (s : σ) : Visits step s s
  | next {s s' t : σ} : step s = .inl s' → Visits step s' t → Visits step s t

theorem Visits.trans {step : σ → σ ⊕ ρ} {s t u : σ} (h : Visits step s t)
    (h' : Visits step t u) : Visits step s u := by
  induction h with
  | here => exact h'
  | next hnext _ ih => exact Visits.next hnext (ih h')

/-- The loop ends with `r` from every state visited, or from none. -/
theorem Visits.yields_iff {step : σ → σ ⊕ ρ} {s t : σ} (h : Visits step s t) (r : ρ) :
    Yields step s r ↔ Yields step t r := by
  induction h with
  | here => exact Iff.rfl
  | @next s s' t hnext _ ih =>
    rw [← ih]
    constructor
    · intro hs
      cases hs with
      | exit hexit =>
        rw [hnext] at hexit
        cases hexit
      | again hagain hrest =>
        rw [hnext] at hagain
        cases hagain
        exact hrest
    · exact Yields.again hnext

/-- A loop that can always go on from an invariant does not end. -/
theorem not_yields_of_invariant {step : σ → σ ⊕ ρ} {P : σ → Prop}
    (hstep : ∀ s, P s → ∃ s', step s = .inl s' ∧ P s') {s : σ} (hs : P s) (r : ρ) :
    ¬ Yields step s r := by
  intro h
  induction h with
  | exit hexit =>
    obtain ⟨s', hnext, -⟩ := hstep _ hs
    rw [hexit] at hnext
    cases hnext
  | again hagain _ ih =>
    obtain ⟨s', hnext, hs'⟩ := hstep _ hs
    rw [hagain] at hnext
    cases hnext
    exact ih hs'

/-- Nor does one that comes back to the invariant again and again. -/
theorem not_yields_of_returning {step : σ → σ ⊕ ρ} {P : σ → Prop}
    (hstep : ∀ s, P s → ∃ s' t, step s = .inl s' ∧ Visits step s' t ∧ P t) {s : σ} (hs : P s)
    (r : ρ) : ¬ Yields step s r := by
  refine not_yields_of_invariant (P := fun s => ∃ t, Visits step s t ∧ P t) ?_
    ⟨s, Visits.here s, hs⟩ r
  rintro s ⟨t, hvisits, ht⟩
  cases hvisits with
  | here =>
    obtain ⟨s', u, hnext, hu, hPu⟩ := hstep s ht
    exact ⟨s', hnext, u, hu, hPu⟩
  | next hnext hrest => exact ⟨_, hnext, t, hrest, ht⟩

/-- A body that agrees with another one in the states visited gives the same loop. -/
theorem loop_congr {step step' : σ → σ ⊕ ρ} {s : σ}
    (h : ∀ t, Visits step s t → step' t = step t) (n : Nat) :
    loop step' n s = loop step n s := by
  induction n generalizing s with
  | zero => rfl
  | succ n ih =>
    have hs := h s (Visits.here s)
    cases hnext : step s with
    | inl s' =>
      rw [loop_again hnext, loop_again (hs.trans hnext)]
      exact ih fun t ht => h t (Visits.next hnext ht)
    | inr r => rw [loop_exit hnext, loop_exit (hs.trans hnext)]

/-- The body behind a check: where the check fails the loop ends with the error. -/
def guarded {ε : Type} (ok : σ → Bool) (e : ε) (step : σ → σ ⊕ ρ) (s : σ) : σ ⊕ Except ε ρ :=
  if ok s then (step s).map id Except.ok else .inr (.error e)

/-- On an invariant under which the check holds and the bodies agree, it ends as without. -/
theorem Yields.guarded {ε : Type} {ok : σ → Bool} {e : ε} {step step' : σ → σ ⊕ ρ} {P : σ → Prop}
    (hstep : ∀ s s', P s → step s = .inl s' → P s')
    (hok : ∀ s, P s → ok s = true ∧ step' s = step s) {s : σ} {r : ρ} (h : Yields step s r)
    (hs : P s) : Yields (Utero.Lib.guarded ok e step') s (.ok r) := by
  induction h with
  | exit hexit =>
    obtain ⟨hcheck, hsame⟩ := hok _ hs
    refine Yields.exit ?_
    rw [Utero.Lib.guarded, if_pos hcheck, hsame, hexit]
    rfl
  | again hnext _ ih =>
    obtain ⟨hcheck, hsame⟩ := hok _ hs
    refine Yields.again ?_ (ih (hstep _ _ hs hnext))
    rw [Utero.Lib.guarded, if_pos hcheck, hsame, hnext]
    rfl

/-- What every step keeps holds in every state visited. -/
theorem Visits.invariant {step : σ → σ ⊕ ρ} {P : σ → Prop}
    (hstep : ∀ s s', P s → step s = .inl s' → P s') {s t : σ} (h : Visits step s t) (hs : P s) :
    P t := by
  induction h with
  | here => exact hs
  | next hnext _ ih => exact ih (hstep _ _ hs hnext)

/-- Some round of the loop touches `a`. -/
def Touches (step : σ → σ ⊕ ρ) (touched : σ → α → Prop) (s : σ) (a : α) : Prop :=
  ∃ t, Visits step s t ∧ touched t a

theorem Touches.of_next {step : σ → σ ⊕ ρ} {touched : σ → α → Prop} {s s' : σ} {a : α}
    (hnext : step s = .inl s') (h : Touches step touched s' a) : Touches step touched s a := by
  obtain ⟨t, hvisits, ht⟩ := h
  exact ⟨t, Visits.next hnext hvisits, ht⟩

/-- What no round touches is after the loop as before it. -/
theorem Yields.eq_of_not_touches {step : σ → σ ⊕ ρ} {touched : σ → α → Prop}
    (mem : σ → α → β) (res : ρ → α → β)
    (hnext : ∀ s s' a, step s = .inl s' → ¬ touched s a → mem s' a = mem s a)
    (hexit : ∀ s r a, step s = .inr r → ¬ touched s a → res r a = mem s a)
    {s : σ} {r : ρ} (h : Yields step s r) {a : α} (ha : ¬ Touches step touched s a) :
    res r a = mem s a := by
  induction h with
  | exit hr => exact hexit _ _ a hr fun ht => ha ⟨_, Visits.here _, ht⟩
  | again hs _ ih =>
    rw [ih fun ht => ha (ht.of_next hs)]
    exact hnext _ _ a hs fun ht => ha ⟨_, Visits.here _, ht⟩

end Utero.Lib
