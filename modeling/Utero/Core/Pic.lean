/-
  The two 8259A interrupt controllers, and the port writes of `isr_init` and `irq_handler`
  (`src/core/isr.c`) as the chips see them.

  A chip is programmed by ICW1 to ICW4; after that its data port is the mask. `lowest` is the
  line of lowest priority, so 7 is the order 0, 1, .., 7. The slave's output is wired to line 2 of
  the master. Polling, reading the registers back and rotation on automatic end of interrupt are
  left out: the kernel uses none of them.

  `isrInit_modes`: whatever state the chips are in, in the middle of an initialisation or with
  interrupts in service, the writes of `isr_init` leave them initialised and idle, with vectors
  32 to 47. Nothing is masked, although the comment at the last two writes says "mask all IRQs".
-/
import Mathlib.Algebra.Order.Ring.Nat
import Mathlib.Data.Finset.Basic
import Mathlib.Data.Finset.Filter
import Mathlib.Data.Fintype.Basic
import Mathlib.Order.Bounds.Basic
import Utero.Core.InterruptFrame

namespace Utero.Core

/-! ## One chip -/

/-- What a write to the data port is. -/
inductive PicPhase where
  | icw2 | icw3 | icw4 | ready
  deriving DecidableEq

/-- What the initialisation and the operation command words set. -/
structure PicMode where
  phase : PicPhase
  icw1 : BitVec 8
  icw2 : BitVec 8
  icw3 : BitVec 8
  icw4 : BitVec 8
  imr : BitVec 8
  lowest : Fin 8
  specialMask : Bool
  deriving DecidableEq

/-- An 8259A: its mode, the lines that request service and those in service. -/
structure Pic extends PicMode where
  irr : Finset (Fin 8)
  isr : Finset (Fin 8)
  deriving DecidableEq

namespace Pic

/-- The line of `s` with the highest priority. -/
def highest (p : Pic) (s : Finset (Fin 8)) : Option (Fin 8) :=
  ((List.finRange 8).map (· + (p.lowest + 1))).find? (· ∈ s)

def rank (p : Pic) (l : Fin 8) : Fin 8 := l - (p.lowest + 1)

def unmasked (p : Pic) (s : Finset (Fin 8)) : Finset (Fin 8) :=
  s.filter fun l => p.imr.getLsbD l = false

/-- The lines in service that keep lower priorities waiting. -/
def blocking (p : Pic) : Finset (Fin 8) :=
  if p.specialMask then p.unmasked p.isr else p.isr

/-- The line for which the chip raises its output, if it does. -/
def request (p : Pic) : Option (Fin 8) :=
  (p.highest (p.unmasked p.irr)).filter fun l => ∀ k ∈ p.blocking, p.rank l < p.rank k

/-- The request is acknowledged. With automatic end of interrupt it is not held in service. -/
def accept (p : Pic) (l : Fin 8) : Pic :=
  { p with
    irr := p.irr.erase l
    isr := if p.icw4.getLsbD 1 then p.isr else insert l p.isr }

def vector (p : Pic) (l : Fin 8) : BitVec 8 := (p.icw2 &&& 0xF8) ||| BitVec.ofNat 8 l

/-- ICW1 starts an initialisation and resets the chip. -/
def icw1Write (p : Pic) (v : BitVec 8) : Pic where
  phase := .icw2
  icw1 := v
  icw2 := p.icw2
  icw3 := p.icw3
  icw4 := if v.getLsbD 0 then p.icw4 else 0
  imr := 0
  lowest := 7
  specialMask := false
  irr := ∅
  isr := ∅

/-- End of interrupt for one line, which may also become the lowest. -/
def endLine (p : Pic) (rotate : Bool) : Option (Fin 8) → Pic
  | none => p
  | some l => { p with isr := p.isr.erase l, lowest := if rotate then l else p.lowest }

/-- OCW2: rotate, specific level, end of interrupt, and the level. -/
def ocw2Write (p : Pic) (v : BitVec 8) : Pic :=
  let level : Fin 8 := Fin.ofNat 8 v.toNat
  match v.getLsbD 7, v.getLsbD 6, v.getLsbD 5 with
  | rotate, false, true => p.endLine rotate (p.highest p.isr)
  | rotate, true, true => p.endLine rotate (some level)
  | true, true, false => { p with lowest := level }
  | _, _, _ => p

/-- OCW3 sets or resets the special mask mode. -/
def ocw3Write (p : Pic) (v : BitVec 8) : Pic :=
  if v.getLsbD 6 then { p with specialMask := v.getLsbD 5 } else p

def writeCommand (p : Pic) (v : BitVec 8) : Pic :=
  if v.getLsbD 4 then p.icw1Write v
  else if v.getLsbD 3 then p.ocw3Write v
  else p.ocw2Write v

/-- A single chip has no ICW3, and ICW4 is announced by ICW1. -/
def writeData (p : Pic) (v : BitVec 8) : Pic :=
  let afterIcw3 := if p.icw1.getLsbD 0 then PicPhase.icw4 else .ready
  match p.phase with
  | .icw2 => { p with icw2 := v, phase := if p.icw1.getLsbD 1 then afterIcw3 else .icw3 }
  | .icw3 => { p with icw3 := v, phase := afterIcw3 }
  | .icw4 => { p with icw4 := v, phase := .ready }
  | .ready => { p with imr := v }

end Pic

/-! ## The pair -/

structure Pics where
  master : Pic
  slave : Pic
  deriving DecidableEq

def pic1Data : BitVec 16 := pic1 + 1
def pic2Data : BitVec 16 := pic2 + 1

/-- The master's line for the slave. -/
def cascadeLine : Fin 8 := 2

def timerLine : Fin 8 := 0
def keyboardLine : Fin 8 := 1

/-- The lines with a gate: IRQ0 to IRQ4, but line 2 is the slave's. -/
def servedLines : Finset (Fin 8) := {timerLine, keyboardLine, 3, 4}

namespace Pics

def portByteOut (s : Pics) (w : PortWrite) : Pics :=
  if w.port = pic1 then { s with master := s.master.writeCommand w.value }
  else if w.port = pic1Data then { s with master := s.master.writeData w.value }
  else if w.port = pic2 then { s with slave := s.slave.writeCommand w.value }
  else if w.port = pic2Data then { s with slave := s.slave.writeData w.value }
  else s

theorem portByteOut_pic1 (s : Pics) (v : BitVec 8) :
    s.portByteOut ⟨pic1, v⟩ = { s with master := s.master.writeCommand v } :=
  if_pos rfl

theorem portByteOut_pic1Data (s : Pics) (v : BitVec 8) :
    s.portByteOut ⟨pic1Data, v⟩ = { s with master := s.master.writeData v } := by
  rfl

theorem portByteOut_pic2 (s : Pics) (v : BitVec 8) :
    s.portByteOut ⟨pic2, v⟩ = { s with slave := s.slave.writeCommand v } := by
  rfl

theorem portByteOut_pic2Data (s : Pics) (v : BitVec 8) :
    s.portByteOut ⟨pic2Data, v⟩ = { s with slave := s.slave.writeData v } := by
  rfl

/-- A device raises its line. Lines 8 to 15 are those of the slave. -/
def raise (s : Pics) : Fin 8 ⊕ Fin 8 → Pics
  | .inl l => { s with master.irr := insert l s.master.irr }
  | .inr k => { s with slave.irr := insert k s.slave.irr }

/-- A device lowers its line before it was served. -/
def withdraw (s : Pics) : Fin 8 ⊕ Fin 8 → Pics
  | .inl l => { s with master.irr := s.master.irr.erase l }
  | .inr k => { s with slave.irr := s.slave.irr.erase k }

/-- The master sees the slave's output. -/
def cascade (s : Pics) : Pics :=
  { s with master.irr :=
      if s.slave.request.isSome then insert cascadeLine s.master.irr
      else s.master.irr.erase cascadeLine }

/-- The processor acknowledges. A chip that has nothing to report answers with line 7, and holds
    nothing in service. -/
def acknowledge (s : Pics) : Option (BitVec 8 × Pics) :=
  match s.master.request with
  | none => some (s.master.vector 7, s)
  | some l =>
    let taken := { s with master := s.master.accept l }
    if s.master.icw3.getLsbD l then
      -- the slave answers to its number
      if s.slave.icw3.setWidth 3 = BitVec.ofNat 3 l then
        match s.slave.request with
        | none => some (s.slave.vector 7, taken)
        | some k => some (s.slave.vector k, { taken with slave := s.slave.accept k })
      else none
    else some (s.master.vector l, taken)

end Pics

/-! ## `isr_init` -/

def irqBase : BitVec 8 := 0x20

/-- The port writes of `isr_init`. -/
def isrInitPorts : List PortWrite :=
  [⟨pic1, 0x11⟩, ⟨pic2, 0x11⟩, ⟨pic1Data, irqBase⟩, ⟨pic2Data, irqBase + 8⟩,
    ⟨pic1Data, 0x04⟩, ⟨pic2Data, 0x02⟩, ⟨pic1Data, 0x01⟩, ⟨pic2Data, 0x01⟩,
    ⟨pic1Data, 0x00⟩, ⟨pic2Data, 0x00⟩]

/-- Edge triggered, two chips, 8086 mode, normal end of interrupt, nothing masked. -/
def initialised (base cascade : BitVec 8) : PicMode where
  phase := .ready
  icw1 := 0x11
  icw2 := base
  icw3 := cascade
  icw4 := 0x01
  imr := 0
  lowest := 7
  specialMask := false

/-- Both chips work as `isr_init` programs them. -/
structure Programmed (s : Pics) : Prop where
  master : s.master.toPicMode = initialised irqBase 0x04
  slave : s.slave.toPicMode = initialised (irqBase + 8) 0x02

/-- One chip's part of `isr_init`. -/
theorem Pic.initialise (p : Pic) (base cascade : BitVec 8) :
    ((((p.writeCommand 0x11).writeData base).writeData cascade).writeData 0x01).writeData 0x00 =
      ⟨initialised base cascade, ∅, ∅⟩ := by
  have hicw1 : p.writeCommand 0x11 = p.icw1Write 0x11 := rfl
  rw [hicw1]
  simp [Pic.writeData, Pic.icw1Write, initialised]

/-- Both chips after `isr_init`. -/
theorem isrInit_modes (s : Pics) :
    isrInitPorts.foldl Pics.portByteOut s =
      ⟨⟨initialised irqBase 0x04, ∅, ∅⟩, ⟨initialised (irqBase + 8) 0x02, ∅, ∅⟩⟩ := by
  simp only [isrInitPorts, List.foldl_cons, List.foldl_nil, Pics.portByteOut_pic1,
    Pics.portByteOut_pic1Data, Pics.portByteOut_pic2, Pics.portByteOut_pic2Data, Pic.initialise]

/-! ## A programmed chip -/

namespace Pic

variable {p : Pic} {base cascade : BitVec 8} {l : Fin 8}

/-- The lines in the order of the priorities. -/
theorem highest_eq_some_iff (hlowest : p.lowest = 7) {s : Finset (Fin 8)} :
    p.highest s = some l ↔ IsLeast (s : Set (Fin 8)) l := by
  have horder : (List.finRange 8).map (· + (p.lowest + 1)) = List.finRange 8 := by
    rw [hlowest]
    rfl
  have hsorted : (List.finRange 8).Pairwise (· < ·) := by decide
  unfold highest
  rw [horder, List.find?_eq_some_iff_append]
  constructor
  · rintro ⟨hl, before, after, hsplit, hbefore⟩
    refine ⟨by simpa using hl, fun k hk => ?_⟩
    rw [hsplit, List.pairwise_append, List.pairwise_cons] at hsorted
    have hmem : k ∈ before ++ l :: after := hsplit ▸ List.mem_finRange k
    rcases List.mem_append.mp hmem with hk' | hk'
    · exact absurd hk (by simpa using hbefore k hk')
    · rcases List.mem_cons.mp hk' with rfl | hk'
      · exact le_refl k
      · exact (hsorted.2.1.1 k hk').le
  · rintro ⟨hl, hleast⟩
    obtain ⟨before, after, hsplit⟩ := List.append_of_mem (List.mem_finRange l)
    refine ⟨by simpa using hl, before, after, hsplit, fun k hk => ?_⟩
    rw [hsplit, List.pairwise_append] at hsorted
    have hlt := hsorted.2.2 k hk l List.mem_cons_self
    have hnot : k ∉ s := fun hmem => absurd (hleast hmem) (not_le.mpr hlt)
    simpa using hnot

/-- The chip reports its first request, if it comes before all lines in service. -/
theorem request_eq_some_iff (hmode : p.toPicMode = initialised base cascade) :
    p.request = some l ↔ IsLeast (p.irr : Set (Fin 8)) l ∧ ∀ k ∈ p.isr, l < k := by
  have hlowest : p.lowest = 7 := by rw [hmode]; rfl
  have himr : p.imr = 0 := by rw [hmode]; rfl
  have hmask : p.specialMask = false := by rw [hmode]; rfl
  have hrank : ∀ k : Fin 8, p.rank k = k := by
    unfold rank
    rw [hlowest]
    decide
  have hunmasked : p.unmasked p.irr = p.irr := by
    unfold unmasked
    rw [himr]
    exact Finset.filter_true_of_mem fun k _ => BitVec.getLsbD_zero
  unfold request blocking
  rw [Option.filter_eq_some_iff, hunmasked, highest_eq_some_iff hlowest, hmask]
  simp only [hrank, decide_eq_true_eq, if_neg Bool.false_ne_true]

/-- Holding a line in service that comes before all others, the chip ends that line. -/
theorem writeCommand_eoi (hmode : p.toPicMode = initialised base cascade)
    {s : Finset (Fin 8)} (hisr : p.isr = insert l s) (hl : ∀ k ∈ s, l < k) :
    p.writeCommand picEoi = { p with isr := s } := by
  have hlowest : p.lowest = 7 := by rw [hmode]; rfl
  have hleast : IsLeast (p.isr : Set (Fin 8)) l := by
    rw [hisr]
    refine ⟨Finset.mem_insert_self l s, fun k hk => ?_⟩
    rcases Finset.mem_insert.mp hk with rfl | hk
    · exact le_refl k
    · exact (hl k hk).le
  have hnot : l ∉ s := fun hmem => absurd (hl l hmem) (lt_irrefl l)
  have heoi : p.writeCommand picEoi = p.endLine false (p.highest p.isr) := rfl
  rw [heoi, (highest_eq_some_iff hlowest).mpr hleast, endLine, hisr, Finset.erase_insert hnot]
  rfl

theorem accept_eq (hmode : p.toPicMode = initialised base cascade) :
    p.accept l = { p with irr := p.irr.erase l, isr := insert l p.isr } := by
  have hicw4 : p.icw4 = 0x01 := by rw [hmode]; rfl
  unfold accept
  rw [hicw4]
  rfl

end Pic

/-! ## Programmed chips -/

section Programmed

variable {s s' : Pics} {v : BitVec 8}

theorem Programmed.vector_master (h : Programmed s) (l : Fin 8) :
    (s.master.vector l).toNat = 32 + l.val := by
  have hicw2 : s.master.icw2 = irqBase := by rw [h.master]; rfl
  unfold Pic.vector
  rw [hicw2]
  revert l
  decide

theorem Programmed.vector_slave (h : Programmed s) (l : Fin 8) :
    40 ≤ (s.slave.vector l).toNat := by
  have hicw2 : s.slave.icw2 = irqBase + 8 := by rw [h.slave]; rfl
  unfold Pic.vector
  rw [hicw2]
  revert l
  decide

/-- The processor gets the vector of the request the master reports, or one from 39 on: that of
    the slave, or one without a request. -/
theorem acknowledge_cases (h : Programmed s) (hack : s.acknowledge = some (v, s')) :
    (∃ l, s.master.request = some l ∧ l ≠ cascadeLine ∧ v.toNat = 32 + l.val ∧
      s' = { s with master := s.master.accept l }) ∨ 39 ≤ v.toNat := by
  have hicw3 : s.master.icw3 = 0x04 := by rw [h.master]; rfl
  have hbit : ∀ l : Fin 8, (0x04 : BitVec 8).getLsbD l = true ↔ l = cascadeLine := by decide
  unfold Pics.acknowledge at hack
  cases hreq : s.master.request with
  | none =>
    simp only [hreq, Option.some.injEq, Prod.mk.injEq] at hack
    rw [← hack.1]
    exact .inr (Nat.le_of_eq (h.vector_master 7).symm)
  | some l =>
    simp only [hreq, hicw3] at hack
    split at hack
    · -- the slave's vectors
      right
      have hslave : ∃ k, v = s.slave.vector k := by
        split at hack
        · split at hack <;> simp only [Option.some.injEq, Prod.mk.injEq] at hack
          · exact ⟨7, hack.1.symm⟩
          · exact ⟨_, hack.1.symm⟩
        · exact absurd hack (by simp)
      obtain ⟨k, rfl⟩ := hslave
      have := h.vector_slave k
      omega
    · next hl =>
      simp only [Option.some.injEq, Prod.mk.injEq] at hack
      rw [hbit] at hl
      exact .inl ⟨l, rfl, hl, by rw [← hack.1, h.vector_master], hack.2.symm⟩

theorem acknowledge_request (h : Programmed s) {l : Fin 8} (hreq : s.master.request = some l)
    (hl : l ≠ cascadeLine) :
    s.acknowledge = some (s.master.vector l, { s with master := s.master.accept l }) := by
  have hicw3 : s.master.icw3 = 0x04 := by rw [h.master]; rfl
  have hbit : ∀ l : Fin 8, l ≠ cascadeLine → (0x04 : BitVec 8).getLsbD l = false := by decide
  unfold Pics.acknowledge
  rw [hreq]
  dsimp only
  rw [hicw3, hbit l hl]
  rfl

/-- The slave answers for its line, if only to say that it has nothing. -/
theorem acknowledge_cascade (h : Programmed s) (hreq : s.master.request = some cascadeLine) :
    ∃ v s', s.acknowledge = some (v, s') ∧ 39 ≤ v.toNat := by
  obtain ⟨⟨v, s'⟩, hack⟩ : ∃ answer, s.acknowledge = some answer := by
    have hicw3 : s.master.icw3 = 0x04 := by rw [h.master]; rfl
    have hslave : s.slave.icw3 = 0x02 := by rw [h.slave]; rfl
    unfold Pics.acknowledge
    rw [hreq]
    dsimp only
    rw [hicw3, hslave, if_pos (by decide), if_pos (by decide)]
    cases s.slave.request with
    | none => exact ⟨_, rfl⟩
    | some k => exact ⟨_, rfl⟩
  refine ⟨v, s', hack, (acknowledge_cases h hack).resolve_left ?_⟩
  rintro ⟨l, hl, hne, -⟩
  exact hne (Option.some.inj (hl.symm.trans hreq))

end Programmed

end Utero.Core
