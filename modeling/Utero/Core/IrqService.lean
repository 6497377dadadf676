/-
  What becomes of an interrupt request (`Core/IrqSystem`).

  `requests_served`: from every state of a run that has not halted, in every run of the stubs and
  the processor without further requests, the stubs on the stack return and every requested line
  with a gate is served, each exactly once; nothing stays in service. `isr_init` masks no line,
  though, and sets gates for vectors 32 to 36 only, so a request on any other line halts the
  kernel, and so does an acknowledgement behind which there is no request any more.

  `tick_counts`: once `timer_init` has registered its handler, `tick` is the number of timer
  interrupts taken, modulo 2 ^ 32, less one while the handler of the last is under way. No tick is
  lost: the load and the store of `tick++` are not interrupted, because the stub cleared the flag.
-/
import Mathlib.Algebra.BigOperators.Group.Finset.Basic
import Mathlib.Data.Finset.Max
import Utero.Core.IrqSystem

namespace Utero.Core

open Utero.Lib

/-- The store of `tick++` is still to be done. -/
def Frame.untold (f : Frame) : Nat := if .handler .storeTick ∈ f.todo then 1 else 0

theorem Frame.untold_eq_zero {f : Frame} (h : .handler .storeTick ∉ f.todo) : f.untold = 0 :=
  if_neg h

namespace IrqSystem

variable {addr : Stub → BitVec 64} {s : IrqSystem}

/-! ## Stubs return -/

/-- Steps the stubs on the stack have still to do. -/
def work (s : IrqSystem) : Nat := (s.frames.map fun f => f.todo.length).sum

theorem work_execute {stub : Stub} {op : IrqOp} {todo : List IrqOp} {loaded : BitVec 32}
    {fs : List Frame} (hframes : s.frames = ⟨stub, op :: todo, loaded⟩ :: fs) (hop : op ≠ .panic) :
    (s.execute ⟨stub, todo, loaded⟩ fs op).work < s.work := by
  have hwork : s.work = todo.length + 1 + (fs.map fun f => f.todo.length).sum := by
    unfold work
    rw [hframes]
    rfl
  have hcases : (s.execute ⟨stub, todo, loaded⟩ fs op).work =
      todo.length + (fs.map fun f => f.todo.length).sum ∨
      (s.execute ⟨stub, todo, loaded⟩ fs op).work = (fs.map fun f => f.todo.length).sum := by
    cases op with
    | handler op =>
      cases op <;> exact .inl rfl
    | panic => exact absurd rfl hop
    | stiIretq => exact .inr rfl
    | _ => exact .inl rfl
  omega

/-- A state with a stub on the stack has a next step. -/
theorem Consistent.run_next (h : Consistent s) (addr : Stub → BitVec 64) (hup : s.halted = false)
    (hbusy : s.frames ≠ []) :
    ∃ s', s.step addr .run = some s' ∧ Consistent s' ∧ SameDemand s s' ∧ s'.work < s.work ∧
      (s'.frames = [] → s'.interruptFlag = true) := by
  obtain ⟨⟨stub, todo, loaded⟩, fs, hframes⟩ := List.exists_cons_of_ne_nil hbusy
  have hrunning := h.running _ (by rw [hframes]; rfl)
  cases todo with
  | nil =>
    -- a running stub has at least its `iretq` to do
    rcases hrunning with ⟨⟨ops, htodo⟩, -⟩ | ⟨⟨ops, htodo⟩ | ⟨ops, htodo⟩, -⟩
    · exact absurd htodo (by simp)
    · exact absurd htodo (by simp)
    · exact absurd htodo (by simp)
  | cons op todo =>
    obtain ⟨hnext, hsame, hop⟩ := h.run hframes
    refine ⟨_, ?_, hnext, hsame, work_execute hframes hop, ?_⟩
    · unfold IrqSystem.step
      rw [hup, hframes]
      rfl
    · intro hempty
      cases op with
      | handler op => cases op <;> exact absurd hempty (by simp [execute])
      | panic => exact absurd rfl hop
      | stiIretq => rfl
      | _ => exact absurd hempty (by simp [execute])

/-! ## Requests are served -/

/-- The vector of a line of the master. -/
def vectorOf (l : Fin 8) : BitVec 8 := BitVec.ofNat 8 (32 + l.val)

theorem vectorOf_toNat (l : Fin 8) : (vectorOf l).toNat = 32 + l.val := by
  unfold vectorOf
  rw [BitVec.toNat_ofNat, Nat.mod_eq_of_lt (by omega)]

theorem vectorOf_injective : Function.Injective vectorOf := by
  intro l k h
  have hval := congrArg BitVec.toNat h
  rw [vectorOf_toNat, vectorOf_toNat] at hval
  exact Fin.ext (by omega)

/-- The steps without a device and without the program: the running stub's, and the processor's
    when the master reports a request. -/
def own (s : IrqSystem) : IrqEvent → Bool
  | .run => true
  | .take _ => s.pics.master.request.isSome
  | _ => false

def ownStep (addr : Stub → BitVec 64) (s : IrqSystem) (e : IrqEvent) : Option IrqSystem :=
  if s.own e then s.step addr e else none

/-- How often each line should be served. -/
def ServedOnce (irr : Finset (Fin 8)) (es : List IrqEvent) : Prop :=
  ∀ l, es.count (.take (vectorOf l)) = if l ∈ irr then 1 else 0

/-- The steps of the stub for a line. -/
def stubSteps (handlers : HandlerTable) (l : Fin 8) : Nat :=
  if h : l.val < 5 then ((Stub.irq ⟨l.val, h⟩).ops handlers).length else 0

/-- Own steps still to come: those of the stubs on the stack, and for each request one to take it
    and those of its stub. -/
def demand (s : IrqSystem) : Nat :=
  s.work + ∑ l ∈ s.pics.master.irr, (stubSteps s.handlers l + 1)

theorem demand_erase {s s' : IrqSystem} {l : Fin 8} (hl : l ∈ s.pics.master.irr)
    (hirr : s'.pics.master.irr = s.pics.master.irr.erase l) (hhandlers : s'.handlers = s.handlers)
    (hwork : s'.work = stubSteps s.handlers l + s.work) : s'.demand + 1 = s.demand := by
  have hsum := Finset.add_sum_erase s.pics.master.irr (fun l => stubSteps s.handlers l + 1) hl
  unfold demand
  rw [hirr, hhandlers, hwork]
  omega

theorem step_take (addr : Stub → BitVec 64) (hup : s.halted = false)
    (hflag : s.interruptFlag = true) {v : BitVec 8} {pics : Pics}
    (hack : s.pics.acknowledge = some (v, pics)) :
    s.step addr (.take v) = some ({ s with pics := pics }.enter addr v) ∧
      ∀ w, s.step addr (.take w) ≠ none → w = v := by
  unfold IrqSystem.step
  rw [hup, hflag, hack]
  simp only [Bool.false_eq_true, if_false, if_true]
  refine ⟨trivial, fun w hw => ?_⟩
  by_contra hne
  rw [if_neg fun heq => hne heq.symm] at hw
  exact hw rfl

/-- The processor takes the master's request: its stub starts, or there is no gate. -/
theorem Consistent.take_cases (haddr : Function.Injective addr) (h : Consistent s)
    (hup : s.halted = false) (hflag : s.interruptFlag = true) {l : Fin 8}
    (hreq : s.pics.master.request = some l) :
    ∃ v s', s.step addr (.take v) = some s' ∧ (∀ w, s.step addr (.take w) ≠ none → w = v) ∧
      if l ∈ servedLines then
        v = vectorOf l ∧ Consistent s' ∧ s'.halted = false ∧ s'.interruptFlag = true ∧
          s'.handlers = s.handlers ∧ s'.pics.master.irr = s.pics.master.irr.erase l ∧
          s'.demand + 1 = s.demand
      else s'.halted = true := by
  have hlines : ∀ l ∈ servedLines, l.val < 5 ∧ l ≠ cascadeLine := by decide
  have hothers : ∀ l ∉ servedLines, l ≠ cascadeLine → 5 ≤ l.val := by decide
  have hprogrammed := h.programmed
  have hmem : l ∈ s.pics.master.irr :=
    ((Pic.request_eq_some_iff hprogrammed.master).mp hreq).1.1
  by_cases hserved : l ∈ servedLines
  · obtain ⟨hn, hcascade⟩ := hlines l hserved
    have hvector : s.pics.master.vector l = vectorOf l := by
      apply BitVec.eq_of_toNat_eq
      rw [hprogrammed.vector_master, vectorOf_toNat]
    have hack := acknowledge_request hprogrammed hreq hcascade
    obtain ⟨htake, honly⟩ := step_take addr hup hflag hack
    rw [enter_irq haddr _ ⟨l.val, hn⟩ (hprogrammed.vector_master l)] at htake
    have hnext := h.take (n := ⟨l.val, hn⟩) hflag hreq hcascade
    refine ⟨_, _, htake, honly, ?_⟩
    rw [if_pos hserved]
    refine ⟨hvector, hnext, hup, hflag, rfl, rfl, demand_erase hmem rfl rfl ?_⟩
    unfold work stubSteps
    rw [dif_pos hn, List.map_cons, List.sum_cons]
  · obtain ⟨v, pics, hack, hv⟩ : ∃ v pics, s.pics.acknowledge = some (v, pics) ∧ 37 ≤ v.toNat := by
      by_cases hcascade : l = cascadeLine
      · obtain ⟨v, pics, hack, hv⟩ := acknowledge_cascade hprogrammed (hcascade ▸ hreq)
        exact ⟨v, pics, hack, by omega⟩
      · refine ⟨_, _, acknowledge_request hprogrammed hreq hcascade, ?_⟩
        have := hothers l hserved hcascade
        rw [hprogrammed.vector_master]
        omega
    obtain ⟨htake, honly⟩ := step_take addr hup hflag hack
    rw [enter_none haddr _ hv] at htake
    refine ⟨v, _, htake, honly, ?_⟩
    rw [if_neg hserved]

/-- The state `m` behind the own steps `es` from `s`. -/
inductive Serving (s : IrqSystem) (es : List IrqEvent) (m : IrqSystem) : Prop
  | up (consistent : Consistent m) (up : m.halted = false)
      (idle : m.frames = [] → m.interruptFlag = true) (handlers : m.handlers = s.handlers)
      (requests : m.pics.master.irr ⊆ s.pics.master.irr)
      (served : s.pics.master.irr \ m.pics.master.irr ⊆ servedLines)
      (once : ServedOnce (s.pics.master.irr \ m.pics.master.irr) es)
      (bound : es.length + m.demand ≤ s.demand)
  | halted (halted : m.halted = true) (missing : ¬ s.pics.master.irr ⊆ servedLines)
      (bound : es.length ≤ s.demand)

theorem Serving.start (h : Consistent s) (hup : s.halted = false)
    (hon : s.frames = [] → s.interruptFlag = true) : Serving s [] s := by
  refine .up h hup hon rfl (Finset.Subset.refl _) ?_ (fun l => ?_) (Nat.le_of_eq (Nat.zero_add _))
  · rw [Finset.sdiff_self]
    exact Finset.empty_subset _
  · rw [Finset.sdiff_self]
    simp

theorem ServedOnce.run {irr : Finset (Fin 8)} {es : List IrqEvent} (h : ServedOnce irr es) :
    ServedOnce irr (es ++ [.run]) := by
  intro l
  have hrun : [IrqEvent.run].count (.take (vectorOf l)) = 0 := List.count_eq_zero.mpr (by simp)
  rw [List.count_append, h l, hrun, Nat.add_zero]

theorem ServedOnce.take {irr irr' : Finset (Fin 8)} {es : List IrqEvent} {l : Fin 8}
    (h : ServedOnce irr es) (hl : l ∉ irr) (hirr : ∀ k, k ∈ irr' ↔ k = l ∨ k ∈ irr) :
    ServedOnce irr' (es ++ [.take (vectorOf l)]) := by
  intro k
  rw [List.count_append, h k, List.count_singleton]
  by_cases heq : k = l
  · subst heq
    rw [if_neg hl, if_pos (by simp), if_pos ((hirr k).mpr (.inl rfl))]
  · have hne : ¬ (IrqEvent.take (vectorOf l) == .take (vectorOf k)) = true := fun hbeq =>
      heq (vectorOf_injective (IrqEvent.take.inj (beq_iff_eq.mp hbeq))).symm
    rw [if_neg hne, Nat.add_zero]
    exact if_congr (by rw [hirr]; simp [heq]) rfl rfl

theorem run_busy {s s' : IrqSystem} (hup : s.halted = false) (h : s.step addr .run = some s') :
    s.frames ≠ [] := by
  intro hempty
  unfold IrqSystem.step at h
  rw [hup, hempty] at h
  exact absurd h (by simp)

theorem take_flag {s s' : IrqSystem} {w : BitVec 8} (h : s.step addr (.take w) = some s') :
    s.interruptFlag = true := by
  obtain ⟨-, ⟨pics, -, -, -, hnot, -⟩ | ⟨v, pics, -, hflag, -⟩ |
    ⟨stub, op, todo, loaded, fs, hrun, -⟩ | ⟨-, hprogram⟩⟩ := step_cases h
  · exact absurd rfl (hnot w)
  · exact hflag
  · exact absurd hrun (by simp)
  · obtain ⟨hprogram, -⟩ | ⟨hprogram, -⟩ | ⟨id, ops, hprogram, -⟩ := hprogram <;>
      exact absurd hprogram (by simp)

theorem demand_pos {s : IrqSystem} {l : Fin 8} (h : l ∈ s.pics.master.irr) : 1 ≤ s.demand := by
  have hsum := Finset.add_sum_erase s.pics.master.irr (fun l => stubSteps s.handlers l + 1) h
  unfold demand
  omega

/-- With one more request taken, one more line has been served. -/
theorem mem_sdiff_erase {irr₀ irr : Finset (Fin 8)} {l : Fin 8} (hl : l ∈ irr₀) (k : Fin 8) :
    k ∈ irr₀ \ irr.erase l ↔ k = l ∨ k ∈ irr₀ \ irr := by
  rw [Finset.mem_sdiff, Finset.mem_sdiff, Finset.mem_erase]
  by_cases hk : k = l
  · simp [hk, hl]
  · simp [hk]

/-- One own step. -/
theorem Serving.step (haddr : Function.Injective addr) {s m m' : IrqSystem} {es : List IrqEvent}
    {e : IrqEvent} (h : Serving s es m) (hstep : m.ownStep addr e = some m') :
    Serving s (es ++ [e]) m' := by
  unfold ownStep at hstep
  split at hstep
  case isFalse => exact absurd hstep (by simp)
  case isTrue hown =>
    cases h with
    | halted hhalted _ _ => exact absurd ((step_cases hstep).1.symm.trans hhalted) (by decide)
    | up hm hup hidle hhandlers hopen hserved honce hbound =>
      cases e with
      | run =>
        obtain ⟨m₁, hstep₁, hm₁, hsame, hwork, hflag⟩ := hm.run_next addr hup (run_busy hup hstep)
        obtain rfl := Option.some.inj (hstep₁.symm.trans hstep)
        refine .up hm₁ (hsame.1.trans hup) hflag (hsame.2.1.trans hhandlers) ?_ ?_ ?_ ?_
        · rw [hsame.2.2]
          exact hopen
        · rw [hsame.2.2]
          exact hserved
        · rw [hsame.2.2]
          exact honce.run
        · unfold demand at hbound ⊢
          rw [hsame.2.1, hsame.2.2, List.length_append, List.length_singleton]
          omega
      | take w =>
        obtain ⟨l, hreq⟩ := Option.isSome_iff_exists.mp hown
        have hmem : l ∈ m.pics.master.irr :=
          ((Pic.request_eq_some_iff hm.programmed.master).mp hreq).1.1
        obtain ⟨v, m₁, hstep₁, honly, hend⟩ := hm.take_cases haddr hup (take_flag hstep) hreq
        obtain rfl := honly w (by rw [hstep]; simp)
        obtain rfl := Option.some.inj (hstep₁.symm.trans hstep)
        split at hend
        · next hline =>
          obtain ⟨rfl, hm₁, hup₁, hflag₁, hhandlers₁, hirr, hdemand⟩ := hend
          have hgone : ∀ k, k ∈ s.pics.master.irr \ m₁.pics.master.irr ↔
              k = l ∨ k ∈ s.pics.master.irr \ m.pics.master.irr := by
            rw [hirr]
            exact mem_sdiff_erase (hopen hmem)
          refine .up hm₁ hup₁ (fun _ => hflag₁) (hhandlers₁.trans hhandlers) ?_ ?_ ?_ ?_
          · rw [hirr]
            exact (Finset.erase_subset _ _).trans hopen
          · intro k hk
            obtain rfl | hk := (hgone k).mp hk
            · exact hline
            · exact hserved hk
          · exact honce.take (fun hnot => (Finset.mem_sdiff.mp hnot).2 hmem) hgone
          · rw [List.length_append, List.length_singleton]
            omega
        · next hline =>
          refine .halted hend (fun hall => hline (hall (hopen hmem))) ?_
          have hpos := demand_pos hmem
          rw [List.length_append, List.length_singleton]
          omega
      | _ => exact absurd hown (by simp [own])

/-- Where no own step is left. -/
theorem Serving.complete (haddr : Function.Injective addr) {s m : IrqSystem} {es : List IrqEvent}
    (h : Serving s es m) (hend : ∀ e, m.ownStep addr e = none) :
    if s.pics.master.irr ⊆ servedLines then
      m.halted = false ∧ m.frames = [] ∧ m.pics.master.irr = ∅ ∧ m.pics.master.isr = ∅ ∧
        ServedOnce s.pics.master.irr es
    else m.halted = true := by
  cases h with
  | halted hhalted hmissing _ =>
    rw [if_neg hmissing]
    exact hhalted
  | up hm hup hidle hhandlers hopen hserved honce hbound =>
    have hframes : m.frames = [] := by
      by_contra hbusy
      obtain ⟨m', hstep, -⟩ := hm.run_next addr hup hbusy
      have hnone : m.step addr .run = none := hend .run
      exact absurd (hstep.symm.trans hnone) (by simp)
    have hisr : m.pics.master.isr = ∅ := by
      rw [hm.inService, owing, hframes]
      rfl
    have hirr : m.pics.master.irr = ∅ := by
      by_contra hsome
      obtain ⟨l, hl⟩ : ∃ l, IsLeast (m.pics.master.irr : Set (Fin 8)) l :=
        ⟨_, Finset.isLeast_min' _ (Finset.nonempty_of_ne_empty hsome)⟩
      have hreq : m.pics.master.request = some l :=
        (Pic.request_eq_some_iff hm.programmed.master).mpr ⟨hl, by rw [hisr]; simp⟩
      obtain ⟨v, m', hstep, -⟩ := hm.take_cases haddr hup (hidle hframes) hreq
      have hnone := hend (.take v)
      unfold ownStep own at hnone
      rw [hreq, Option.isSome_some, if_pos rfl, hstep] at hnone
      exact absurd hnone (by simp)
    rw [hirr, Finset.sdiff_empty] at hserved honce
    rw [if_pos hserved]
    exact ⟨hup, hframes, hirr, hisr, honce⟩

/-- An acknowledgement without a request gets line 7, which has no gate. -/
theorem Consistent.spurious (haddr : Function.Injective addr) (h : Consistent s)
    (hup : s.halted = false) (hflag : s.interruptFlag = true)
    (hreq : s.pics.master.request = none) :
    ∃ s', s.step addr (.take (vectorOf 7)) = some s' ∧ s'.halted = true := by
  have hvector : s.pics.master.vector 7 = vectorOf 7 := by
    apply BitVec.eq_of_toNat_eq
    rw [h.programmed.vector_master, vectorOf_toNat]
  have hack : s.pics.acknowledge = some (vectorOf 7, s.pics) := by
    unfold Pics.acknowledge
    rw [hreq, hvector]
  refine ⟨_, (step_take addr hup hflag hack).1, ?_⟩
  rw [enter_none haddr _ (by rw [vectorOf_toNat]; decide)]

/-- `timer_init` has registered `timer_callback`, and no other handler touches `tick`. -/
structure TimerTable (handlers : HandlerTable) : Prop where
  timer : handlers 32 = some timerCallback
  others : ∀ id ops, id ≠ 32 → handlers id = some ops → ∀ op ∈ ops, op = .other

/-- The steps of the timer's stub. -/
def timerOps : List IrqOp :=
  [.cli, masterEoi, .handler .loadTick, .handler .storeTick, .stiIretq]

/-- The timer's stub is where its steps are, with `tick` loaded before the store. The other stubs
    do not touch it. -/
def TickShape (tick : BitVec 32) (f : Frame) : Prop :=
  (f.stub = .irq 0 ∧ f.todo <:+ timerOps ∧
      (f.todo = [.handler .storeTick, .stiIretq] → f.loaded = tick)) ∨
    (.handler .loadTick ∉ f.todo ∧ .handler .storeTick ∉ f.todo)

/-- Timer interrupts taken whose tick is not stored yet. -/
def untold (s : IrqSystem) : Nat := (s.frames.map Frame.untold).sum

theorem untold_cons {f : Frame} {fs : List Frame} (hframes : s.frames = f :: fs) :
    s.untold = f.untold + (fs.map Frame.untold).sum := by
  unfold untold
  rw [hframes]
  rfl

/-- A stub that has not started holds no copy of `tick`. -/
theorem TickShape.of_fresh {tick tick' : BitVec 32} {f : Frame} (h : TickShape tick f)
    (hf : f.Fresh) : TickShape tick' f := by
  obtain ⟨ops, htodo⟩ := hf
  rcases h with ⟨hstub, hsuffix, -⟩ | hother
  · exact .inl ⟨hstub, hsuffix, fun hstore => absurd (htodo.symm.trans hstore) (by simp)⟩
  · exact .inr hother

/-- Where the timer's stub can be. -/
theorem timerOps_suffix {op : IrqOp} {todo : List IrqOp} (h : op :: todo <:+ timerOps) :
    (op = .cli ∧ todo = [masterEoi, .handler .loadTick, .handler .storeTick, .stiIretq]) ∨
      (op = masterEoi ∧ todo = [.handler .loadTick, .handler .storeTick, .stiIretq]) ∨
      (op = .handler .loadTick ∧ todo = [.handler .storeTick, .stiIretq]) ∨
      (op = .handler .storeTick ∧ todo = [.stiIretq]) ∨ (op = .stiIretq ∧ todo = []) := by
  simpa [timerOps, List.suffix_cons_iff] using h

section Run

variable {stub : Stub} {op : IrqOp} {todo : List IrqOp} {loaded : BitVec 32} {fs : List Frame}

/-- What a step of the running stub has to leave. -/
def TickKept (s s' : IrqSystem) : Prop :=
  (∀ f ∈ s'.frames, TickShape s'.tick f) ∧
    s'.tick + BitVec.ofNat 32 s'.untold = s.tick + BitVec.ofNat 32 s.untold

/-- The running stub goes on and `tick` stays. -/
theorem tickKept_advance {f g : Frame} {s' : IrqSystem}
    (hframes : s.frames = f :: fs) (hframes' : s'.frames = g :: fs) (htick : s'.tick = s.tick)
    (hshape : ∀ f ∈ fs, TickShape s.tick f) (hg : TickShape s.tick g)
    (huntold : g.untold = f.untold) : TickKept s s' := by
  refine ⟨?_, ?_⟩
  · rw [hframes', htick]
    rintro f' (_ | ⟨_, hf'⟩)
    · exact hg
    · exact hshape f' hf'
  · rw [untold_cons hframes, untold_cons hframes', htick, huntold]

theorem tickKept_return {f : Frame} {s' : IrqSystem} (hframes : s.frames = f :: fs)
    (hframes' : s'.frames = fs) (htick : s'.tick = s.tick)
    (hshape : ∀ f ∈ fs, TickShape s.tick f) (huntold : f.untold = 0) : TickKept s s' := by
  refine ⟨?_, ?_⟩
  · rw [hframes', htick]
    exact hshape
  · rw [untold_cons hframes, huntold, Nat.zero_add, htick]
    unfold untold
    rw [hframes']

/-- A step of the running stub: the store adds the tick that was not told before. -/
theorem Consistent.tickKept (h : Consistent s) (hshape : ∀ f ∈ s.frames, TickShape s.tick f)
    (hframes : s.frames = ⟨stub, op :: todo, loaded⟩ :: fs) :
    TickKept s (s.execute ⟨stub, todo, loaded⟩ fs op) := by
  have hbelow : ∀ f ∈ fs, TickShape s.tick f := fun f hf =>
    hshape f (hframes ▸ List.mem_cons_of_mem _ hf)
  rcases hshape ⟨stub, op :: todo, loaded⟩ (hframes ▸ List.mem_cons_self) with
    ⟨hstub, hsuffix, hloaded⟩ | ⟨hload, hstore⟩
  · have hnext : todo <:+ timerOps := (List.suffix_cons op todo).trans hsuffix
    rcases timerOps_suffix hsuffix with ⟨rfl, rfl⟩ | ⟨rfl, rfl⟩ | ⟨rfl, rfl⟩ | ⟨rfl, rfl⟩ |
      ⟨rfl, rfl⟩
    · exact tickKept_advance hframes rfl rfl hbelow (.inl ⟨hstub, hnext, by simp [masterEoi]⟩) rfl
    · exact tickKept_advance hframes rfl rfl hbelow (.inl ⟨hstub, hnext, by simp⟩) rfl
    · exact tickKept_advance hframes rfl rfl hbelow (.inl ⟨hstub, hnext, fun _ => rfl⟩) rfl
    · have hfresh := h.below
      rw [hframes] at hfresh
      refine ⟨?_, ?_⟩
      · rintro f (_ | ⟨_, hf⟩)
        · exact .inl ⟨hstub, hnext, by simp⟩
        · exact (hbelow f hf).of_fresh (hfresh f hf)
      · rw [untold_cons hframes]
        show loaded + 1 + BitVec.ofNat 32 (0 + (fs.map Frame.untold).sum) =
          s.tick + BitVec.ofNat 32 (1 + (fs.map Frame.untold).sum)
        have htick : loaded = s.tick := hloaded rfl
        rw [htick, Nat.zero_add, BitVec.ofNat_add, BitVec.add_assoc]
        rfl
    · exact tickKept_return hframes rfl rfl hbelow rfl
  · have htodo : TickShape s.tick ⟨stub, todo, loaded⟩ :=
      .inr ⟨fun hmem => hload (List.mem_cons_of_mem _ hmem),
        fun hmem => hstore (List.mem_cons_of_mem _ hmem)⟩
    have huntold : Frame.untold ⟨stub, todo, loaded⟩ = Frame.untold ⟨stub, op :: todo, loaded⟩ := by
      rw [Frame.untold_eq_zero hstore,
        Frame.untold_eq_zero fun hmem => hstore (List.mem_cons_of_mem _ hmem)]
    cases op with
    | handler op =>
      cases op with
      | loadTick => exact absurd List.mem_cons_self hload
      | storeTick => exact absurd List.mem_cons_self hstore
      | other => exact tickKept_advance hframes rfl rfl hbelow htodo huntold
    | panic => exact absurd rfl (h.run hframes).2.2
    | stiIretq =>
      exact tickKept_return hframes rfl rfl hbelow (Frame.untold_eq_zero hstore)
    | _ => exact tickKept_advance hframes rfl rfl hbelow htodo huntold

end Run

/-- The stub of the timer, and those of the other devices. -/
theorem irq_ops_tick {handlers : HandlerTable} (htable : TimerTable handlers) (n : Fin 5)
    (tick : BitVec 32) :
    TickShape tick ⟨.irq n, (Stub.irq n).ops handlers, 0⟩ ∧
      Frame.untold ⟨.irq n, (Stub.irq n).ops handlers, 0⟩ = if n = 0 then 1 else 0 := by
  by_cases hn : n = 0
  · have htimer : handlers (BitVec.ofNat 64 (Stub.irq 0).vector) = some timerCallback :=
      htable.timer
    have hops : (Stub.irq n).ops handlers = timerOps := by
      unfold Stub.ops Stub.body
      rw [hn, ports_irq, htimer]
      rfl
    rw [hops, if_pos hn]
    exact ⟨.inl ⟨congrArg Stub.irq hn, List.suffix_refl _, by simp [timerOps]⟩, rfl⟩
  · have hid : BitVec.ofNat 64 (Stub.irq n).vector ≠ 32 := by
      revert hn
      revert n
      decide
    have hops : ∀ op : HandlerOp, op ≠ .other → .handler op ∉ (Stub.irq n).ops handlers := by
      intro op hop hmem
      unfold Stub.ops Stub.body at hmem
      rw [ports_irq] at hmem
      cases hreg : handlers (BitVec.ofNat 64 (Stub.irq n).vector) with
      | none => simp [hreg, Stub.handler] at hmem
      | some ops =>
        simp only [hreg] at hmem
        have hmem' : op ∈ ops := by simpa using hmem
        exact hop (htable.others _ ops hid hreg op hmem')
    rw [if_neg hn]
    exact ⟨.inr ⟨hops _ (by simp), hops _ (by simp)⟩, Frame.untold_eq_zero (hops _ (by simp))⟩

/-- The invariant: what `tick` was, and the timer interrupts taken since. -/
structure Counted (tick : BitVec 32) (taken : Nat) (s : IrqSystem) : Prop where
  consistent : Consistent s
  table : TimerTable s.handlers
  shape : ∀ f ∈ s.frames, TickShape s.tick f
  count : s.tick + BitVec.ofNat 32 s.untold = tick + BitVec.ofNat 32 taken

/-- The program leaves the timer's handler alone. -/
def KeepsTimer (e : IrqEvent) : Prop :=
  ∀ id ops, e = .register id ops → id ≠ 32 ∧ ∀ op ∈ ops, op = HandlerOp.other

theorem Counted.take {tick : BitVec 32} {taken : Nat} (h : Counted tick taken s)
    {pics : Pics} (n : Fin 5)
    (hnext : Consistent { s with
      pics := pics, frames := ⟨.irq n, (Stub.irq n).ops s.handlers, 0⟩ :: s.frames }) :
    Counted tick (taken + if n = 0 then 1 else 0) { s with
      pics := pics, frames := ⟨.irq n, (Stub.irq n).ops s.handlers, 0⟩ :: s.frames } := by
  obtain ⟨hshape, huntold⟩ := irq_ops_tick h.table n s.tick
  refine ⟨hnext, h.table, ?_, ?_⟩
  · rintro f (_ | ⟨_, hf⟩)
    · exact hshape
    · exact h.shape f hf
  · have hsum : untold { s with
        pics := pics, frames := ⟨.irq n, (Stub.irq n).ops s.handlers, 0⟩ :: s.frames } =
        s.untold + if n = 0 then 1 else 0 := by
      rw [untold_cons rfl, huntold, Nat.add_comm]
      rfl
    rw [hsum, BitVec.ofNat_add, BitVec.ofNat_add, ← BitVec.add_assoc, ← BitVec.add_assoc]
    exact congrArg (· + _) h.count

/-- One step of the system. -/
theorem Counted.step (haddr : Function.Injective addr) {tick : BitVec 32} {taken : Nat}
    (h : Counted tick taken s) {e : IrqEvent} (he : KeepsTimer e) {s' : IrqSystem}
    (hstep : s.step addr e = some s') (hup : s'.halted = false) :
    Counted tick (taken + if e = .take 32 then 1 else 0) s' := by
  have hnext := h.consistent.step haddr hstep hup
  obtain ⟨-, ⟨pics, -, rfl, -, hnot, -⟩ | ⟨v, pics, rfl, hflag, hack, rfl⟩ |
    ⟨stub, op, todo, loaded, fs, rfl, hframes, rfl⟩ | ⟨hframes, hprogram⟩⟩ := step_cases hstep
  · rw [if_neg (hnot 32)]
    exact ⟨hnext, h.table, h.shape, h.count⟩
  · have hv : v.toNat < 37 := by
      by_contra hv
      rw [enter_none haddr _ (Nat.le_of_not_lt hv)] at hup
      exact absurd hup (by simp)
    obtain ⟨l, -, -, hvector, -⟩ :=
      (acknowledge_cases h.consistent.programmed hack).resolve_right (by omega)
    have hn : l.val < 5 := by omega
    rw [enter_irq haddr _ ⟨l.val, hn⟩ hvector] at hnext ⊢
    have htake := h.take ⟨l.val, hn⟩ hnext
    have hzero : (⟨l.val, hn⟩ : Fin 5) = 0 ↔ IrqEvent.take v = .take 32 := by
      rw [IrqEvent.take.injEq, Fin.ext_iff, ← BitVec.toNat_inj, hvector]
      show l.val = 0 ↔ 32 + l.val = 32
      omega
    rwa [if_congr hzero rfl rfl] at htake
  · obtain ⟨hshape, hcount⟩ := h.consistent.tickKept h.shape hframes
    have hsame := (h.consistent.run hframes).2.1
    exact ⟨hnext, hsame.2.1 ▸ h.table, hshape, hcount.trans h.count⟩
  · obtain ⟨rfl, rfl⟩ | ⟨rfl, rfl⟩ | ⟨id, ops, rfl, rfl⟩ := hprogram
    · exact ⟨hnext, h.table, h.shape, h.count⟩
    · exact ⟨hnext, h.table, h.shape, h.count⟩
    · obtain ⟨hid, hops⟩ := he id ops rfl
      refine ⟨hnext, ⟨?_, ?_⟩, h.shape, h.count⟩
      · show Function.update s.handlers id (some ops) 32 = _
        rw [Function.update_of_ne hid.symm]
        exact h.table.timer
      · intro id' ops' hid' hreg
        by_cases heq : id' = id
        · have hreg' : Function.update s.handlers id (some ops) id' = some ops' := hreg
          rw [heq, Function.update_self] at hreg'
          exact Option.some.inj hreg' ▸ hops
        · have hreg' : Function.update s.handlers id (some ops) id' = some ops' := hreg
          rw [Function.update_of_ne heq] at hreg'
          exact h.table.others id' ops' hid' hreg'

/-- Only one stub of the timer is on the stack. -/
theorem Counted.untold_le {tick : BitVec 32} {taken : Nat} (h : Counted tick taken s) :
    s.untold ≤ 1 := by
  have hnested := h.consistent.nested
  have hshape := h.shape
  cases hframes : s.frames with
  | nil =>
    unfold untold
    rw [hframes]
    exact Nat.zero_le 1
  | cons f fs =>
    rw [hframes] at hnested hshape
    obtain ⟨hfirst, -⟩ := List.pairwise_cons.mp hnested
    have hrest : ∀ g ∈ fs, g.untold = 0 := by
      intro g hg
      rcases hshape g (List.mem_cons_of_mem f hg) with ⟨hstub, -⟩ | ⟨-, hstore⟩
      · -- no line comes before line 0
        have hlt := hfirst g.line (List.mem_map_of_mem hg)
        have hline : g.line = 0 := by
          unfold Frame.line
          rw [hstub]
          rfl
        rw [hline] at hlt
        exact absurd hlt (Fin.not_lt_zero _)
      · exact Frame.untold_eq_zero hstore
    have hsum : (fs.map Frame.untold).sum = 0 := by
      rw [List.sum_eq_zero_iff_forall_eq_nat]
      intro n hn
      obtain ⟨g, hg, rfl⟩ := List.mem_map.mp hn
      exact hrest g hg
    rw [untold_cons hframes, hsum]
    unfold Frame.untold
    split <;> omega

/-- From any state after `timer_init` in which no stub is on the stack, whatever happens: `tick`
    and the ticks of timer stubs still on the stack make up exactly the timer interrupts taken
    since, modulo 2 ^ 32. -/
theorem tick_counts (haddr : Function.Injective addr) (pics : Pics) (handlers : HandlerTable)
    {es₀ es : List IrqEvent} {s₀ : IrqSystem}
    (hrun₀ : Runs (step addr) (afterIsrInit pics handlers) es₀ s₀) (hidle : s₀.frames = [])
    (htable : TimerTable s₀.handlers) (hrun : Runs (step addr) s₀ es s)
    (hkeeps : ∀ e ∈ es, KeepsTimer e) (hup : s.halted = false) :
    s.tick + BitVec.ofNat 32 s.untold = s₀.tick + BitVec.ofNat 32 (es.count (.take 32)) ∧
      s.untold ≤ 1 := by
  have hstart : s₀.halted = false → Counted s₀.tick 0 s₀ := by
    intro hup₀
    refine ⟨(Consistent.init pics handlers).reached haddr hrun₀ hup₀, htable, ?_, ?_⟩
    · simp [hidle]
    · unfold untold
      rw [hidle]
      rfl
  have hcounted : (∀ e ∈ es, KeepsTimer e) → s.halted = false →
      Counted s₀.tick (es.count (.take 32)) s := by
    refine hrun.induct (I := fun es m => (∀ e ∈ es, KeepsTimer e) → m.halted = false →
      Counted s₀.tick (es.count (.take 32)) m) (fun _ => hstart) ?_
    intro es m e m' ih hstep hkeeps hup'
    have hm := ih (fun e' he' => hkeeps e' (List.mem_append_left _ he')) (step_cases hstep).1
    have hnext := hm.step haddr (hkeeps e (by simp)) hstep hup'
    rw [List.count_append, List.count_singleton]
    simpa only [beq_iff_eq] using hnext
  exact ⟨(hcounted hkeeps hup).count, (hcounted hkeeps hup).untold_le⟩

/-- The table after `timer_init`. -/
def timerHandlers : HandlerTable := Function.update (fun _ => none) 32 (some timerCallback)

theorem timerTable_timerHandlers : TimerTable timerHandlers := by
  refine ⟨Function.update_self _ _ _, fun id ops hid hreg => ?_⟩
  unfold timerHandlers at hreg
  rw [Function.update_of_ne hid] at hreg
  exact absurd hreg (by simp)

/-- One timer interrupt handled, and a second one under way. -/
def twoTicks : List IrqEvent :=
  [.raise (.inl timerLine), .take 32, .run, .run, .run, .run, .run, .raise (.inl timerLine),
    .take 32, .run]

theorem tick_counts_twoTicks :
    ∃ s₀ s, Runs (step sampleAddr) (afterIsrInit busyPics timerHandlers) [.irqInit] s₀ ∧
      Runs (step sampleAddr) s₀ twoTicks s ∧ s.untold = 1 ∧ s.tick + BitVec.ofNat 32 1 = 2 := by
  obtain ⟨s₀, hrun₀, hidle, htable, s, hrun, hup, huntold⟩ :
      ∃ s₀, Runs (step sampleAddr) (afterIsrInit busyPics timerHandlers) [.irqInit] s₀ ∧
        s₀.frames = [] ∧ s₀.handlers = timerHandlers ∧
        ∃ s, Runs (step sampleAddr) s₀ twoTicks s ∧ s.halted = false ∧ s.untold = 1 :=
    ⟨_, by rfl, by rfl, by rfl, _, by rfl, by rfl, by rfl⟩
  have hkeeps : ∀ e ∈ twoTicks, KeepsTimer e := by
    intro e he id ops hreg
    rw [hreg] at he
    exact absurd he (by simp [twoTicks])
  have hcount := (tick_counts sampleAddr_injective busyPics timerHandlers hrun₀ hidle
    (htable ▸ timerTable_timerHandlers) hrun hkeeps hup).1
  have hstart : s₀.tick = 0 := by
    obtain ⟨m, hstep, hm⟩ := Runs.cons_iff.mp hrun₀
    rw [← Runs.nil_iff.mp hm, ← Option.some.inj hstep]
    rfl
  rw [huntold, hstart] at hcount
  exact ⟨s₀, s, hrun₀, hrun, huntold, hcount⟩

end IrqSystem

end Utero.Core
