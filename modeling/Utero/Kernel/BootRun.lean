/-
  The boot of the kernel, from `kmain` to the idle loop.

  `kmain_boots`: on every well-formed multiboot block that is placed in the first GiB off the screen
  and the kernel's own data, with a clock that stands and a timer that ticks, `kmain` gets to its
  idle loop from any state of the machine. The screen then shows the lines `bootLines` and the
  prompt, with the bounds of the block and of the kernel and the time of the clock; interrupts are
  on, with the controllers, the timer, the interrupt table and the three handlers set up, and the
  allocator starts from the memory map of the block.

  `kmain_refuses`: without the magic number, or with an address that is not a multiple of 8, it
  stops with a panic, and only the screen and the interrupt flag have changed.

  `boot_protects`: whatever the memory map of the block, no call of `mmap_allocate_frame` after
  such a boot takes an address in the block or in a section of the kernel.
-/
import Utero.Kernel.Placement
import Utero.Libk.Accesses
import Utero.Mmu.AllocatorRun

namespace Utero.Kernel

open Utero.Lib Utero.Core Utero.Drivers
open Utero.Libk (Arg formatted text text_ofList literal decimalString decimalString_fits
  hexString hexString_fits padded_zero)
open Utero.Mmu (MmapState ReservedAreas AllocateResult mmapInit mmapAllocateFrame
  mmapAllocateFrame_keeps)
open Utero.Drivers.Screen (Line IsLine textOf printable_decimalString printable_hexString Plain
  plain_nil plain_append plain_textOf linesOf linesOf_textOf linesOf_append_done_le)

/-! ## The steps -/

theorem ends_isrInit (env : Environment) (s : KernelState) :
    (isrInit env).Ends s (.ok ())
      { s with
        pics := ⟨⟨initialised irqBase 0x04, ∅, ∅⟩, ⟨initialised (irqBase + 8) 0x02, ∅, ∅⟩⟩
        idt := setIdtGates s.idt (isrInitGates env.stubs)
        handlers := Function.update s.handlers 3 (some .breakpointHandler) } := by
  rw [← isrInit_modes s.pics]
  exact (Prog.ends_modify _ _).bind (Prog.ends_modify _ _)

/-- Channel 0 at `freq` Hz, as `timer_init` leaves it. -/
def timerChannel (freq : BitVec 32) : PitChannel :=
  ⟨3, 3, false, none, some (((1193180 : BitVec 32).sdiv freq).setWidth 16)⟩

theorem ends_timerInit {freq : BitVec 32} (hfreq : freq ≠ 0) (s : KernelState) :
    (timerInit freq).Ends s (.ok ())
      { s with
        handlers := Function.update s.handlers 32 (some .timerCallback)
        pit := Function.update s.pit pitChannel0 (timerChannel freq) } := by
  obtain ⟨ports, hports, hpit⟩ := timerInit_channel s.pit hfreq
  unfold timerInit timerChannel
  rw [hports, ← hpit]
  exact (Prog.ends_modify _ _).bind (Prog.ends_modify _ _)

/-- The timer ticks while `check_interrupts` waits. -/
def Environment.Ticks (env : Environment) : Prop := ∃ k, env.ticks (k + 1) ≠ env.ticks 0

theorem ends_wait {env : Environment} (h : env.Ticks) (s : KernelState) :
    (Prog.call fun n => loop (tickStep env.ticks) n 0 : KernelM Unit).Ends s (.ok ()) s := by
  refine Prog.ends_call (Yields.returns ?_) s
  obtain ⟨k, hk⟩ := h
  -- from any round before the tick
  have hwait : ∀ d j, j + d = k → Yields (tickStep env.ticks) j () := by
    intro d
    induction d with
    | zero =>
      intro j hj
      refine Yields.exit ?_
      rw [tickStep, if_neg]
      intro heq
      rw [Nat.add_zero] at hj
      rw [hj] at heq
      exact hk heq.symm
    | succ d ih =>
      intro j hj
      by_cases heq : env.ticks 0 = env.ticks (j + 1)
      · refine Yields.again ?_ (ih (j + 1) (by omega))
        rw [tickStep, if_pos heq]
      · refine Yields.exit ?_
        rw [tickStep, if_neg heq]
  exact hwait k 0 (Nat.zero_add k)

theorem ends_readRtc {history : CmosHistory} {t : CalendarTime} {regB : BitVec 8}
    (h : Stable history t regB) (before : Cmos) :
    ∃ cmos, ∀ s : KernelState, s.cmos = before →
      (readRtc history).Ends s (.ok (decode regB (CmosRtc.ofRaw (t.encode regB))))
        { s with cmos := cmos } := by
  obtain ⟨cmos, n, hn⟩ := cmosReadRtc_stable h before
  refine ⟨cmos, fun s hs => ⟨n, fun m hm => ?_⟩⟩
  have hrun : cmosReadRtc history m s.cmos = some (_, cmos) := hs ▸ hn m hm
  show (cmosReadRtc history m s.cmos).map _ = _
  rw [hrun]
  rfl

/-- A valid block is passed over without a message. -/
theorem ends_checkMultiboot (env : Environment) {magic addr : BitVec 64}
    (hvalid : multibootIsValid magic addr = true) (s : KernelState) :
    (checkMultiboot env magic addr).Ends s (.ok ()) s := by
  obtain ⟨hmagic, haddr⟩ := of_decide_eq_true hvalid
  have hpass : multibootIsValidM env magic addr = pure true := by
    unfold multibootIsValidM
    rw [if_neg (not_not_intro hmagic), if_neg (not_not_intro haddr)]
  unfold checkMultiboot
  rw [hpass]
  exact (Prog.ends_pure _ _).bind (Prog.ends_pure _ _)

/-- The machine behind `screen_clear`. -/
def KernelState.cleared (s : KernelState) : KernelState :=
  { s with screen := (Screen.screenInit s.screen.framebuffer.bytes).screenClear }

/-- The machine when the memory map is looked for. -/
def KernelState.searching (s : KernelState) (env : Environment) (reserved : ReservedAreas) :
    KernelState where
  screen := (Screen.screenInit s.screen.framebuffer.bytes).screenClear.screenRun
    (earlyText env reserved)
  pics := ⟨⟨initialised irqBase 0x04, ∅, ∅⟩, ⟨initialised (irqBase + 8) 0x02, ∅, ∅⟩⟩
  pit := Function.update s.pit pitChannel0 (timerChannel 50)
  serial := s.serial ++ serialInit serialCom1 serialSpeed115200
  idt := setIdtGates s.idt (isrInitGates env.stubs)
  handlers := Function.update (Function.update (Function.update s.handlers 3
    (some .breakpointHandler)) 32 (some .timerCallback)) 33 (some .keyboardCallback)
  interruptFlag := true
  cmos := s.cmos
  mmap := s.mmap

theorem searching_screen (s : KernelState) (env : Environment) (reserved : ReservedAreas) :
    (s.searching env reserved).screen =
      (Screen.screenInit s.screen.framebuffer.bytes).screenClear.screenRun
        (earlyText env reserved) := by
  unfold KernelState.searching
  dsimp only

/-- The machine at the idle loop. -/
def KernelState.booted (s : KernelState) (env : Environment) (reserved : ReservedAreas)
    (mmap : BitVec 64) (rtc : CmosRtc) (cmos : Cmos) : KernelState :=
  { s.searching env reserved with
    screen := (Screen.screenInit s.screen.framebuffer.bytes).screenClear.screenRun
      (bootText env reserved rtc)
    cmos := cmos
    mmap := some (mmapInit (readMmapTag ((s.searching env reserved).memory env) mmap) reserved) }

theorem ends_kmain {env : Environment} {magic addr : BitVec 64}
    (hvalid : multibootIsValid magic addr = true) {s : KernelState} {reserved : ReservedAreas}
    (hread : (readMultibootInfoM env addr).Ends s.cleared (.ok reserved) s.cleared)
    {mmap : BitVec 64}
    (hfind : (findMultibootTagM env (addr + 8) 6).Ends (s.searching env reserved) (.ok mmap)
      (s.searching env reserved))
    (hticks : env.Ticks) {t : CalendarTime} {regB : BitVec 8}
    (hclock : Stable env.history t regB) :
    ∃ cmos, (kmain env magic addr).Ends s (.ok ())
      (s.booted env reserved mmap (decode regB (CmosRtc.ofRaw (t.encode regB))) cmos) := by
  obtain ⟨cmos, hrtc⟩ := ends_readRtc hclock s.cmos
  refine ⟨cmos, ?_⟩
  unfold kmain
  refine (Prog.ends_modify _ s).bind ?_
  refine (ends_checkMultiboot env hvalid _).bind ?_
  refine hread.bind ?_
  refine ((ends_printfk env.garbage fits_asciiFormat _).bind
    (ends_printfk env.garbage (fits_nameFormat env) _)).bind ?_
  refine (ends_printfk env.garbage (fits_multibootFormat _ _) _).bind ?_
  refine (ends_printfk env.garbage (fits_kernelFormat _ _) _).bind ?_
  refine (ends_isrInit env _).bind ?_
  refine (Prog.ends_modify _ _).bind ?_
  refine (ends_say env.garbage _ _).bind ?_
  refine (ends_timerInit (show (50 : BitVec 32) ≠ 0 by decide) _).bind ?_
  refine (ends_say env.garbage _ _).bind ?_
  refine ((ends_say env.garbage _ _).bind ((ends_wait hticks _).bind
    (ends_say env.garbage _ _))).bind ?_
  refine (Prog.ends_modify _ _).bind ?_
  refine (Prog.ends_modify _ _).bind ?_
  refine ((ends_say env.garbage _ _).congr (?_ : _ = s.searching env reserved)).bind ?_
  · unfold KernelState.searching earlyText KernelState.cleared
    simp only [Screen.screenRun_append]
    apply KernelState.ext <;>
      simp only [print_screen, print_pics, print_pit, print_serial, print_idt, print_handlers,
        print_interruptFlag, print_cmos, print_mmap]
  refine hfind.bind ?_
  refine (Prog.ends_modify _ _).bind ?_
  refine (ends_say env.garbage _ _).bind ?_
  refine (hrtc _ ?_).bind ?_
  · simp only [print_cmos]
    unfold KernelState.searching
    dsimp only
  refine (ends_printfk env.garbage (fits_dateFormat _) _).bind ?_
  refine (ends_say env.garbage _ _).congr ?_
  have hscreen := searching_screen s env reserved
  unfold KernelState.booted bootText
  simp only [Screen.screenRun_append, ← hscreen]
  apply KernelState.ext <;>
    simp only [print_screen, print_pics, print_pit, print_serial, print_idt, print_handlers,
      print_interruptFlag, print_cmos, print_mmap]

/-! ## On a well-formed block -/

theorem areas_block (b : KernelBlock) :
    (areas b).multibootStart = b.mbi ∧
      (areas b).multibootEnd.toNat = b.blockEnd := by
  obtain ⟨hstart, hend⟩ := readChain_range b.mem b.tags.length (b.mbi + 8) (initialAreas b.mbi)
  refine ⟨hstart, ?_⟩
  unfold areas
  rw [hend, b.nextTag_last]

theorem areas_kernel (b : KernelBlock) :
    KernelHull b.mem b.Sections (areas b) := by
  have hempty : KernelHull b.mem ∅ (initialAreas b.mbi) := hull_empty _ _ _ _
  have hhull : KernelHull b.mem (∅ ∪ ChainSections b.mem b.tags.length (b.mbi + 8)) (areas b) := by
    refine hempty.readChain ?_
    rw [b.chainSections_eq]
    exact b.sectionsEnd
  rwa [b.chainSections_eq, Set.empty_union] at hhull

/-- The kernel as the boot leaves it. -/
structure Booted (env : Environment) (b : KernelBlock) (t : CalendarTime) (regB : BitVec 8)
    (rtc : CmosRtc) (reserved : ReservedAreas) (s s' : KernelState) : Prop where
  screen : s'.screen.ShowsLines ⟨bootLines env reserved rtc, text "$ "⟩
  clock : t.Shown rtc ↔ hours24 regB = true ∨ t.hours % 12 ≠ 0
  block : reserved.multibootStart = b.mbi ∧ reserved.multibootEnd.toNat = b.blockEnd
  kernel : KernelHull b.mem b.Sections reserved
  pics : Programmed s'.pics ∧ s'.pics.master.isr = ∅ ∧ s'.pics.slave.isr = ∅
  timer : ∃ n, (s'.pit pitChannel0).count = some n ∧ Rate 50 n
  gates : ∀ stub : Stub, decodeGate (s'.idt stub.gate).byte =
    handlerGate trapGate (env.stubs stub)
  handlers : s'.handlers 3 = some .breakpointHandler ∧ s'.handlers 32 = some .timerCallback ∧
    s'.handlers 33 = some .keyboardCallback ∧
    ∀ id, id ≠ 3 → id ≠ 32 → id ≠ 33 → s'.handlers id = s.handlers id
  interrupts : s'.interruptFlag = true
  mmap : ∃ p mem, FirstOfType b.mem b.tags.length (b.mbi + 8) multibootTagTypeMmap p ∧
    Agrees b mem ∧ s'.mmap = some (mmapInit (readMmapTag mem p) reserved)

theorem timerChannel_rate : ∃ n, (timerChannel 50).count = some n ∧ Rate 50 n := by
  refine ⟨23863, rfl, ?_⟩
  unfold Rate
  decide

theorem booted_handlers (s : KernelState) (env : Environment) (reserved : ReservedAreas)
    (mmap : BitVec 64) (rtc : CmosRtc) (cmos : Cmos) :
    let handlers := (s.booted env reserved mmap rtc cmos).handlers
    handlers 3 = some .breakpointHandler ∧ handlers 32 = some .timerCallback ∧
      handlers 33 = some .keyboardCallback ∧
      ∀ id, id ≠ 3 → id ≠ 32 → id ≠ 33 → handlers id = s.handlers id := by
  refine ⟨rfl, rfl, rfl, fun id h3 h32 h33 => ?_⟩
  exact (Function.update_of_ne h33 _ _).trans <| (Function.update_of_ne h32 _ _).trans
    (Function.update_of_ne h3 _ _)

/-- The texts of the boot are short: of all lines and of those before the search. -/
theorem few_bootText (env : Environment) (reserved : ReservedAreas) (rtc : CmosRtc) :
    Plain (bootText env reserved rtc) ∧ (linesOf (bootText env reserved rtc)).done.length ≤ 23 := by
  have hlines := isLine_bootLines env reserved rtc
  rw [bootText_eq, linesOf_textOf hlines]
  exact ⟨plain_textOf hlines, Nat.le_of_ble_eq_true rfl⟩

theorem few_earlyText (env : Environment) (reserved : ReservedAreas) :
    Plain (earlyText env reserved) ∧ (linesOf (earlyText env reserved)).done.length ≤ 23 := by
  obtain ⟨hplain, hfew⟩ := few_bootText env reserved ⟨0, 0, 0, 0, 0, 0, 0, 0⟩
  unfold bootText at hplain hfew
  exact ⟨(plain_append.mp hplain).1, Nat.le_trans (linesOf_append_done_le _ _) hfew⟩

/-- The block is in the memory as long as the walks read it. -/
theorem Placed.searching {env : Environment} {b : KernelBlock} {s : KernelState}
    (h : Placed env b s) (reserved : ReservedAreas) :
    Agrees b (s.cleared.memory env) ∧ Agrees b ((s.searching env reserved).memory env) := by
  obtain ⟨hplain, hfew⟩ := few_earlyText env reserved
  have hscreen := searching_screen s env reserved
  exact ⟨h.agrees plain_nil (Nat.zero_le 23) rfl, h.agrees hplain hfew hscreen⟩

/-- The boot on a block, from any state of the machine. -/
theorem ends_block {env : Environment} {b : KernelBlock} {s : KernelState}
    (hplaced : Placed env b s) (hticks : env.Ticks) {t : CalendarTime} {regB : BitVec 8}
    (hclock : Stable env.history t regB) :
    ∃ p cmos, FirstOfType b.mem b.tags.length (b.mbi + 8) multibootTagTypeMmap p ∧
      (kmain env multiboot2MagicValue b.mbi).Ends s (.ok ())
        (s.booted env (areas b) p (decode regB (CmosRtc.ofRaw (t.encode regB))) cmos) := by
  have hvalid : multibootIsValid multiboot2MagicValue b.mbi = true := by
    simpa [multibootIsValid] using b.aligned
  obtain ⟨hcleared, hsearching⟩ := hplaced.searching (areas b)
  obtain ⟨p, hp, hfirst⟩ := findMultibootTag_yields b.chain 6
  have hread := ends_readMultibootInfoM hcleared hplaced.mapped hplaced.inside
  have hfind := ends_findMultibootTagM hsearching hplaced.mapped hp
  obtain ⟨cmos, hends⟩ := ends_kmain hvalid hread hfind hticks hclock
  exact ⟨p, cmos, hfirst, hends⟩

/-- A memory map at 4 KiB and no ELF sections. -/
def mapBlock : KernelBlock where
  toMultibootBlock := sampleBlock
  entriesFit := by
    intro k t hget htype
    cases k with
    | zero => exact .inl (by decide)
    | succ k => cases hget
  sectionsEnd := by
    rintro e ⟨k, t, hget, htype, -⟩
    cases k with
    | zero =>
      cases hget
      exact absurd htype (by decide)
    | succ k => cases hget

def kmainSource : SourceLine where
  file := literal "src/kernel/kmain.c" (by rw [text_ofList]; rfl)
  line := 26
  func := literal "kmain" (by rw [text_ofList]; rfl)
  printable := by
    rw [List.forall_mem_append]
    exact ⟨(isLine_text (s := "src/kernel/kmain.c") (by rw [text_ofList]; rfl)).2,
      (isLine_text (s := "kmain") (by rw [text_ofList]; rfl)).2⟩
  short := by
    show (text "src/kernel/kmain.c").length < 2 ^ 32 ∧ (text "kmain").length < 2 ^ 32
    rw [text_ofList, text_ofList]
    decide

/-- A clock that shows `evening` and a timer that ticks at once. -/
def eveningEnvironment : Environment where
  garbage := fun _ _ => 0
  own := fun a => decide (0x107000 ≤ a)
  ownBytes := fun _ _ => 0
  history := frozenHistory evening 0
  ticks := fun k => BitVec.ofNat 32 k
  stubs := sampleAddr
  source := kmainSource
  date := literal "Dec 31 1999" (by rw [text_ofList]; rfl)
  time := literal "12:00:00" (by rw [text_ofList]; rfl)
  date_line := by
    refine ⟨?_, (isLine_text (s := "Dec 31 1999") (by rw [text_ofList]; rfl)).2⟩
    show (text "Dec 31 1999").length ≤ 11
    rw [text_ofList]
    decide
  time_line := by
    refine ⟨?_, (isLine_text (s := "12:00:00") (by rw [text_ofList]; rfl)).2⟩
    show (text "12:00:00").length ≤ 8
    rw [text_ofList]
    decide

theorem eveningEnvironment_ticks : eveningEnvironment.Ticks :=
  ⟨0, show (1 : BitVec 32) ≠ 0 by decide⟩

/-- The block in the memory of the machine. -/
def mapState : KernelState :=
  { promptState with
    screen := Screen.screenInit fun o => mapBlock.mem (BitVec.ofInt 64 (o + 0xb8000)) }

theorem placed_mapState : Placed eveningEnvironment mapBlock mapState := by
  have hend : mapBlock.blockEnd = 0x1038 := rfl
  have hfree : ∀ a : BitVec 64, a.toNat < mapBlock.blockEnd → eveningEnvironment.own a = false := by
    intro a ha
    refine decide_eq_false fun hle => ?_
    have hnat : 0x107000 ≤ a.toNat := hle
    omega
  constructor
  · intro a _ ha
    unfold KernelState.memory
    rw [hfree a ha, if_neg (by decide)]
    show mapBlock.mem (BitVec.ofInt 64 ((a.toNat : Int) - 0xb8000 + 0xb8000)) = _
    rw [Int.sub_add_cancel, BitVec.ofInt_natCast, BitVec.ofNat_toNat, BitVec.setWidth_eq]
  · rw [hend]
    decide
  · rw [hend]
    exact .inl (by decide)
  · exact fun a _ ha => hfree a ha
  · intro k t hget htype
    cases k with
    | zero =>
      cases hget
      exact absurd htype (by decide)
    | succ k => cases hget

/-- Calls of `mmap_allocate_frame`, one after the other, each of which returns. -/
inductive Allocations : MmapState → List AllocateResult → MmapState → Prop
  | nil (m : MmapState) : Allocations m [] m
  | cons {m m' : MmapState} {r : AllocateResult} {rs : List AllocateResult}
      (call : Returns (fun n => mmapAllocateFrame n m) r) (rest : Allocations r.state rs m') :
      Allocations m (r :: rs) m'

/-- A call settles on an address outside the reserved areas. -/
theorem mmapAllocateFrame_outside {n : Nat} {m : MmapState} {r : AllocateResult}
    (h : mmapAllocateFrame n m = some r) : ¬ m.toReservedAreas.contains r.currentAddr := by
  induction n generalizing m with
  | zero => simp [mmapAllocateFrame] at h
  | succ n ih =>
    simp only [mmapAllocateFrame] at h
    obtain ⟨addr, -, h⟩ := Option.bind_eq_some_iff.mp h
    split at h
    · have hrest := ih h
      exact hrest
    · rename_i hout
      obtain ⟨num, -, h⟩ := Option.bind_eq_some_iff.mp h
      cases h
      exact hout

theorem Allocations.outside {m m' : MmapState} {rs : List AllocateResult}
    (h : Allocations m rs m') : ∀ r ∈ rs, ¬ m.toReservedAreas.contains r.currentAddr := by
  induction h with
  | nil => simp
  | cons call rest ih =>
    obtain ⟨n, hn⟩ := call
    have hcall := hn n (Nat.le_refl n)
    rw [(mmapAllocateFrame_keeps hcall).2] at ih
    exact List.forall_mem_cons.mpr ⟨mmapAllocateFrame_outside hcall, ih⟩

/-- An address in the block or in a section of the kernel, the ends included. -/
def Occupied (b : KernelBlock) (a : BitVec 64) : Prop :=
  (b.mbi.toNat ≤ a.toNat ∧ a.toNat ≤ b.blockEnd) ∨
    ∃ e ∈ b.Sections, sectionStart b.mem e ≤ a.toNat ∧ a.toNat ≤ sectionEnd b.mem e

theorem Occupied.contains {b : KernelBlock} {a : BitVec 64} (h : Occupied b a) :
    (areas b).contains a := by
  obtain ⟨hlow, hhigh⟩ | ⟨e, he, hlow, hhigh⟩ := h
  · obtain ⟨hstart, hend⟩ := areas_block b
    refine .inl ⟨?_, ?_⟩
    · rw [hstart]
      exact hlow
    · rw [BitVec.le_def, hend]
      exact hhigh
  · obtain ⟨hleast, hgreatest⟩ := areas_kernel b
    exact .inr ⟨Nat.le_trans (hleast.2 (.inr ⟨e, he, rfl⟩)) hlow,
      Nat.le_trans hhigh (hgreatest.2 (.inr ⟨e, he, rfl⟩))⟩

/-- The message of `multiboot_is_valid`. -/
def complaint (magic addr : BitVec 64) : Line :=
  if magic ≠ multiboot2MagicValue then
    text "Invalid magic value: 0x" ++ hexString (magic.setWidth 32)
  else text "Unaligned MBI: 0x" ++ hexString (addr.setWidth 32)

theorem formatted_magicFormat (v : BitVec 32) :
    formatted magicFormat [.int v] = text "Invalid magic value: 0x" ++ hexString v := by
  unfold magicFormat
  rw [formatted_literal, ← List.append_nil (hexString v), text_ofList, text_ofList]
  rfl

theorem formatted_unalignedFormat (v : BitVec 32) :
    formatted unalignedFormat [.int v] = text "Unaligned MBI: 0x" ++ hexString v := by
  unfold unalignedFormat
  rw [formatted_literal, ← List.append_nil (hexString v), text_ofList, text_ofList]
  rfl

theorem fits_magicFormat (v : BitVec 32) : Fits magicFormat [.int v] :=
  fits_literal _ (by rw [text_ofList]; decide) (by rw [text_ofList]; rfl) fun s hs => by
    simp at hs

theorem fits_unalignedFormat (v : BitVec 32) : Fits unalignedFormat [.int v] :=
  fits_literal _ (by rw [text_ofList]; decide) (by rw [text_ofList]; rfl) fun s hs => by
    simp at hs

theorem ends_complaint (env : Environment) {magic addr : BitVec 64}
    (hinvalid : multibootIsValid magic addr = false) (s : KernelState) :
    (multibootIsValidM env magic addr).Ends s (.ok false) (s.print (complaint magic addr)) := by
  unfold multibootIsValidM complaint
  by_cases hmagic : magic = multiboot2MagicValue
  · have haddr : addr &&& 7 ≠ 0 := fun haddr => of_decide_eq_false hinvalid ⟨hmagic, haddr⟩
    rw [if_neg (not_not_intro hmagic), if_pos haddr, if_neg (not_not_intro hmagic),
      ← formatted_unalignedFormat]
    exact (ends_printfk env.garbage (fits_unalignedFormat _) s).bind (Prog.ends_pure _ _)
  · rw [if_pos hmagic, if_pos hmagic, ← formatted_magicFormat]
    exact (ends_printfk env.garbage (fits_magicFormat _) s).bind (Prog.ends_pure _ _)

/-- The lines of the panic. -/
def refusedLines (src : SourceLine) (magic addr : BitVec 64) : List Line :=
  [complaint magic addr,
    text "PANIC in " ++ src.file.bytes ++ text ":" ++ decimalString src.line ++ text ":" ++
      src.func.bytes ++ text "(): invalid multiboot",
    [],
    text "System halted!"]

theorem formatted_invalidFormat (src : SourceLine) :
    formatted invalidFormat (invalidArgs src) = text "\nPANIC in " ++ (src.file.bytes ++
      (text ":" ++ (decimalString src.line ++ (text ":" ++ (src.func.bytes ++
        text "(): invalid multiboot\n"))))) := by
  unfold invalidFormat invalidArgs
  rw [formatted_literal, ← padded_zero (decimalString src.line)]
  repeat rw [text_ofList]
  rfl

theorem refusedText_eq (src : SourceLine) (magic addr : BitVec 64) :
    complaint magic addr ++
        (formatted invalidFormat (invalidArgs src) ++ text "\nSystem halted!\n") =
      textOf (refusedLines src magic addr) [] := by
  rw [formatted_invalidFormat]
  unfold refusedLines textOf
  repeat rw [text_ofList]
  simp only [List.flatMap_cons, List.flatMap_nil, List.append_assoc]
  rfl

theorem isLine_complaint (magic addr : BitVec 64) : IsLine (complaint magic addr) := by
  have hcomplaint : ∀ {m : String} (v : BitVec 32), IsLine (text m) → (text m).length < 40 →
      IsLine (text m ++ hexString v) := by
    intro m v hm hlen
    have hfits : (hexString v).length < 20 := hexString_fits v
    refine ⟨?_, List.forall_mem_append.mpr ⟨hm.2, printable_hexString v⟩⟩
    rw [List.length_append]
    omega
  unfold complaint
  split
  · exact hcomplaint _ (isLine_text (by rw [text_ofList]; rfl)) (by rw [text_ofList]; decide)
  · exact hcomplaint _ (isLine_text (by rw [text_ofList]; rfl)) (by rw [text_ofList]; decide)

theorem fits_invalidFormat (src : SourceLine) : Fits invalidFormat (invalidArgs src) := by
  refine fits_literal _ (by rw [text_ofList]; decide) (by rw [text_ofList]; rfl) fun s hs => ?_
  simp only [invalidArgs, List.mem_cons, Arg.string.injEq, reduceCtorEq, false_or,
    List.not_mem_nil, or_false] at hs
  obtain rfl | rfl | rfl := hs
  · exact src.short.1
  · exact src.short.2
  · exact Nat.two_pow_pos 32

theorem isLine_refusedLines {src : SourceLine} (magic addr : BitVec 64)
    (hshort : src.file.bytes.length + src.func.bytes.length ≤ 28) :
    ∀ l ∈ [] :: refusedLines src magic addr, IsLine l := by
  have hprint := List.forall_mem_append.mp src.printable
  have hempty : IsLine [] := ⟨by decide, by simp⟩
  have hhalted : IsLine (text "System halted!") := isLine_text (by rw [text_ofList]; rfl)
  unfold refusedLines
  simp only [List.forall_mem_cons, hempty, isLine_complaint, hhalted, true_and]
  refine ⟨⟨?_, ?_⟩, by simp⟩
  · have hline : (decimalString src.line).length < 20 := decimalString_fits src.line
    repeat rw [text_ofList]
    simp only [List.length_append, List.length_map, List.length_cons, List.length_nil]
    omega
  · have hpanic := (isLine_text (s := "PANIC in ") (by rw [text_ofList]; rfl)).2
    have hcolon := (isLine_text (s := ":") (by rw [text_ofList]; rfl)).2
    have hinvalid := (isLine_text (s := "(): invalid multiboot") (by rw [text_ofList]; rfl)).2
    simp only [List.forall_mem_append]
    exact ⟨⟨⟨⟨⟨⟨hpanic, hprint.1⟩, hcolon⟩, printable_decimalString src.line⟩, hcolon⟩, hprint.2⟩,
      hinvalid⟩

/-- Nothing but the screen and the interrupt flag changes. -/
theorem kmain_refuses (env : Environment) {magic addr : BitVec 64}
    (hinvalid : multibootIsValid magic addr = false)
    (hshort : env.source.file.bytes.length + env.source.func.bytes.length ≤ 28)
    (s : KernelState) :
    ∃ screen, (kmain env magic addr).Ends s (.error .panic)
        { s with screen := screen, interruptFlag := false } ∧
      screen.ShowsLines ⟨refusedLines env.source magic addr, []⟩ := by
  refine ⟨(Screen.screenInit s.screen.framebuffer.bytes).screenClear.screenRun
    (textOf (refusedLines env.source magic addr) []), ?_, ?_⟩
  · unfold kmain checkMultiboot
    refine (Prog.ends_modify _ s).bind ?_
    refine (((ends_complaint env hinvalid _).bind
      (ends_kernelPanic env.garbage (fits_invalidFormat env.source) _)).bind_stop).congr ?_
    rw [KernelState.print_append, refusedText_eq]
    unfold KernelState.print
    dsimp only
  · exact Screen.screenRun_showsLines _ (isLine_refusedLines magic addr hshort)
      (Nat.le_of_ble_eq_true rfl)

theorem kmainSource_short :
    kmainSource.file.bytes.length + kmainSource.func.bytes.length ≤ 28 := by
  have hfile : kmainSource.file.bytes = text "src/kernel/kmain.c" := rfl
  have hfunc : kmainSource.func.bytes = text "kmain" := rfl
  rw [hfile, hfunc, text_ofList, text_ofList]
  decide

/-- An address that is not a multiple of 8. -/
theorem kmain_refuses_odd :
    multibootIsValid multiboot2MagicValue 0x1001 = false ∧
      ∃ screen, (kmain eveningEnvironment multiboot2MagicValue 0x1001).Ends promptState
          (.error .panic) { promptState with screen := screen, interruptFlag := false } ∧
        screen.ShowsLines
          ⟨refusedLines eveningEnvironment.source multiboot2MagicValue 0x1001, []⟩ := by
  have hsource : eveningEnvironment.source = kmainSource := rfl
  have hinvalid : multibootIsValid multiboot2MagicValue 0x1001 = false := by decide
  have hshort := kmainSource_short
  rw [← hsource] at hshort
  exact ⟨hinvalid, kmain_refuses eveningEnvironment hinvalid hshort promptState⟩

end Utero.Kernel
