/-
  Programs with a state, on fuel, that may stop before their end.

  `p n s` is, if the fuel `n` suffices, how `p` ends from the state `s` (`.error` if it stops with
  `e`) and the state it leaves. `Ends p s r s'` says so for every large enough amount of fuel; it
  composes along `>>=`.

  Nothing here depends on a program.
-/
import Utero.Lib.Fuel

namespace Utero.Lib

variable {ε σ α β : Type}

def Prog (ε σ α : Type) : Type := Nat → σ → Option (Except ε α × σ)

namespace Prog

protected def pure (a : α) : Prog ε σ α := fun _ s => some (.ok a, s)

protected def bind (p : Prog ε σ α) (f : α → Prog ε σ β) : Prog ε σ β := fun n s =>
  (p n s).bind fun
    | (.ok a, s') => f a n s'
    | (.error e, s') => some (.error e, s')

instance : Monad (Prog ε σ) where
  pure := Prog.pure
  bind := Prog.bind

/-- Stop. -/
def stop (e : ε) : Prog ε σ α := fun _ s => some (.error e, s)

def modify (f : σ → σ) : Prog ε σ Unit := fun _ s => some (.ok (), f s)

protected def get : Prog ε σ σ := fun _ s => some (.ok s, s)

/-- A computation that does not touch the state. -/
def call (f : Nat → Option α) : Prog ε σ α := fun n s => (f n).map fun a => (.ok a, s)

/-- The same, where the computation may stop the program. -/
def attempt (f : Nat → Option (Except ε α)) : Prog ε σ α := fun n s => (f n).map fun r => (r, s)

/-- From `s` the program ends with `r` and leaves `s'`. -/
def Ends (p : Prog ε σ α) (s : σ) (r : Except ε α) (s' : σ) : Prop :=
  Returns (fun n => p n s) (r, s')

variable {p : Prog ε σ α} {f : α → Prog ε σ β} {s s' s'' : σ} {a : α} {e : ε}

theorem Ends.congr {r : Except ε α} (h : Ends p s r s') (hs : s' = s'') : Ends p s r s'' := hs ▸ h

theorem ends_pure (a : α) (s : σ) : Ends (pure a : Prog ε σ α) s (.ok a) s :=
  returns_const _

theorem ends_stop (e : ε) (s : σ) : Ends (stop e : Prog ε σ α) s (.error e) s :=
  returns_const _

theorem ends_modify (f : σ → σ) (s : σ) : Ends (modify f : Prog ε σ Unit) s (.ok ()) (f s) :=
  returns_const _

theorem ends_get (s : σ) : Ends (Prog.get : Prog ε σ σ) s (.ok s) s :=
  returns_const _

theorem ends_call {f : Nat → Option α} (h : Returns f a) (s : σ) :
    Ends (call f : Prog ε σ α) s (.ok a) s := by
  obtain ⟨n, hn⟩ := h
  exact ⟨n, fun m hm => Option.map_eq_some_iff.mpr ⟨a, hn m hm, rfl⟩⟩

theorem ends_attempt {f : Nat → Option (Except ε α)} {r : Except ε α} (h : Returns f r) (s : σ) :
    Ends (attempt f : Prog ε σ α) s r s := by
  obtain ⟨n, hn⟩ := h
  exact ⟨n, fun m hm => Option.map_eq_some_iff.mpr ⟨r, hn m hm, rfl⟩⟩

theorem Ends.bind {r : Except ε β} (hp : Ends p s (.ok a) s') (hf : Ends (f a) s' r s'') :
    Ends (p >>= f) s r s'' := by
  obtain ⟨n, hn⟩ := hp
  obtain ⟨m, hm⟩ := hf
  exact ⟨max n m, fun k hk =>
    Option.bind_eq_some_iff.mpr ⟨(.ok a, s'), hn k (by omega), hm k (by omega)⟩⟩

/-- A program that stops takes no further step. -/
theorem Ends.bind_stop (hp : Ends p s (.error e) s') : Ends (p >>= f) s (.error e) s' := by
  obtain ⟨n, hn⟩ := hp
  exact ⟨n, fun k hk => Option.bind_eq_some_iff.mpr ⟨(.error e, s'), hn k hk, rfl⟩⟩

end Prog

end Utero.Lib
