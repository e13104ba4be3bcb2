import EndlessFault.Frontend.DataPort

/- The interrupt line of the disk. Three members carry it (`Line`):
   `interrupt_enabled`, `interrupt_raised` and the levels driven so far. `signal`
   says which access does what to them, once for the whole register file
   (`line_step`), so a run of the disk is a run of the line over its signals.

   `Line.Settled` is the invariant: the level driven last is 1 exactly when
   `interrupt_raised` is set, and only with interrupts enabled. A sector and an
   acknowledgement keep it; disabling interrupts clears the flag and drives
   nothing, so it keeps the invariant exactly when no interrupt is pending.
   Main result: `line_settled_iff`. -/
namespace EndlessFault
open Lib.Machine

namespace HardDisk

/-- The members the interrupt line lives in. -/
structure Line where
  enabled : Bool
  raised : Bool
  irq : List UInt16

/-- What an access does to the interrupt line: nothing, finish or fetch a
sector, read the status, or write `DCR`. -/
inductive Signal where
  | idle
  | sector
  | acknowledge
  | enable
  | disable
  deriving DecidableEq, Repr

def Line.next (l : Line) : Signal → Line
  | .idle => l
  | .sector => if l.enabled then { l with raised := true, irq := l.irq ++ [1] } else l
  | .acknowledge => if l.raised then { l with raised := false, irq := l.irq ++ [0] } else l
  | .enable => { l with enabled := true }
  | .disable => { l with enabled := false, raised := false }

/-- The level last passed to `set_IRQline(INT_IDE_HDD, ·)`, 0 before any. -/
def Line.level (l : Line) : UInt16 := l.irq.getLast?.getD 0

def line (d : HardDisk) : Line := ⟨d.interruptEnabled, d.interruptRaised, d.irq⟩

/-- A written word that fills the buffer, and a read word that empties it with
sectors still to come, are the data accesses that raise the interrupt. -/
def signal (d : HardDisk) : Access → Signal
  | .readByte addr => if addr = stsAddr then .acknowledge else .idle
  | .writeByte addr val =>
    if addr = cmdAddr then if val = 0x20 then .sector else .idle
    else if addr = dcrAddr then if val = 0 then .enable else .disable
    else .idle
  | .readWord addr =>
    if addr = brAddr ∧ d.currentPosition + 1 ≥ 256 ∧ d.sectorNumbersCmd ≠ d.currentSectorNumber
    then .sector else .idle
  | .writeWord addr _ =>
    if addr = brAddr ∧ d.currentPosition + 2 ≥ 511 then .sector else .idle

/-! The disk refines its line. -/

theorem line_raiseInterrupt (d : HardDisk) : d.raiseInterrupt.line = d.line.next .sector := by
  unfold raiseInterrupt setIRQline Line.next line
  split_ifs <;> simp_all

theorem line_readFromBackend (d : HardDisk) : d.readFromBackend.line = d.line.next .sector := by
  rw [readFromBackend, line_raiseInterrupt]
  rfl

theorem line_processCmd (d : HardDisk) :
    d.processCmd.line = d.line.next (if d.CMD = 0x20 then .sector else .idle) := by
  unfold processCmd
  by_cases hw : d.CMD = 0x30
  · simp only [hw]
    rfl
  · by_cases hr : d.CMD = 0x20
    · simp only [hr, if_true]
      exact line_readFromBackend _
    · simp only [if_neg hw, if_neg hr]
      rfl

theorem line_writeDCR (d : HardDisk) (val : UInt8) :
    (d.writeDCR val).line = d.line.next (if val = 0 then .enable else .disable) := by
  unfold writeDCR
  by_cases h0 : val = 0
  · simp [h0, line, Line.next]
  · simp only [h0, if_false]
    split_ifs <;> rfl

theorem line_writeBR (d : HardDisk) (val : UInt16) :
    (d.writeBRRegister val).line =
      d.line.next (if d.currentPosition + 2 ≥ 511 then .sector else .idle) := by
  by_cases hp : d.currentPosition + 2 ≥ 511
  · simp only [writeBRRegister, if_pos hp, line_raiseInterrupt]
    split_ifs <;> rfl
  · simp only [writeBRRegister, if_neg hp]
    rfl

theorem line_readBR (wild : Nat → UInt16) (d : HardDisk) :
    (d.readBRRegister wild).1.line = d.line.next
      (if d.currentPosition + 1 ≥ 256 ∧ d.sectorNumbersCmd ≠ d.currentSectorNumber then .sector
       else .idle) := by
  simp only [readBRRegister, readBR_pointer, blockSizeByte, Nat.reduceDiv]
  by_cases hp : d.currentPosition + 1 ≥ 256
  · by_cases hw : d.sectorNumbersCmd = d.currentSectorNumber
    · simp only [if_pos hp, hw, ne_eq, not_true_eq_false, and_false, if_false]
      rfl
    · simp only [if_pos hp, hw, ne_eq, not_false_eq_true, and_true, if_false]
      exact line_readFromBackend _
  · simp only [hp, false_and, if_false]
    rfl

theorem line_readRegByte (d : HardDisk) (addr : UInt16) :
    (d.readRegByte addr).1.line =
      d.line.next (if addr = stsAddr then .acknowledge else .idle) := by
  by_cases hs : addr = stsAddr
  · subst hs
    simp only [readRegByte, setIRQline, stsAddr, errAddr, scrAddr, snrAddr, cnhAddr, cnlAddr]
    cases hr : d.interruptRaised <;> simp [line, Line.next, hr]
  · rw [if_neg hs]
    unfold readRegByte
    iterate 5 refine of_branches (fun r : HardDisk × UInt8 => r.1.line) rfl ?_
    rw [if_neg hs]
    iterate 2 refine of_branches (fun r : HardDisk × UInt8 => r.1.line) rfl ?_
    rfl

/-- What an access does to the line is its signal. -/
theorem line_step (wild : Nat → UInt16) (d : HardDisk) (a : Access) :
    (step wild d a).line = d.line.next (signal d a) := by
  cases a with
  | readByte addr => exact line_readRegByte d addr
  | writeByte addr val =>
    by_cases hc : addr = cmdAddr
    · subst hc
      exact line_processCmd { d with CMD := val }
    · by_cases hd : addr = dcrAddr
      · subst hd
        exact line_writeDCR d val
      · simp only [step, writeRegByte, signal, if_neg hc, if_neg hd]
        iterate 5 refine of_branches line rfl ?_
        rfl
  | readWord addr =>
    by_cases hb : addr = brAddr
    · simp only [step, readRegWord, signal, hb, if_true, true_and]
      exact line_readBR wild d
    · simp only [step, readRegWord, signal, hb, if_false, false_and]
      rfl
  | writeWord addr val =>
    by_cases hb : addr = brAddr
    · simp only [step, writeRegWord, signal, hb, if_true, true_and]
      exact line_writeBR d val
    · simp only [step, writeRegWord, signal, hb, if_false, false_and]
      rfl

/-! The invariant of the line. -/

namespace Line

/-- The level says whether an interrupt is pending, and one is pending only
with interrupts enabled. -/
structure Settled (l : Line) : Prop where
  level_eq : l.level = if l.raised then 1 else 0
  enabled_of_raised : l.raised = true → l.enabled = true

theorem Settled.level_one_iff {l : Line} (h : Settled l) : l.level = 1 ↔ l.raised = true := by
  rw [h.level_eq]
  cases l.raised <;> decide

theorem level_snoc (enabled raised : Bool) (irq : List UInt16) (v : UInt16) :
    level ⟨enabled, raised, irq ++ [v]⟩ = v := by
  simp [level]

theorem Settled.next {l : Line} (h : Settled l) {s : Signal}
    (hs : s = .disable → l.raised = false) : Settled (l.next s) := by
  cases s with
  | idle => exact h
  | sector =>
    unfold Line.next
    dsimp only
    split_ifs with hen
    · exact ⟨level_snoc _ _ _ 1, fun _ => hen⟩
    · exact h
  | acknowledge =>
    unfold Line.next
    dsimp only
    split_ifs with hr
    · exact ⟨level_snoc _ _ _ 0, fun hf => absurd hf Bool.false_ne_true⟩
    · exact h
  | enable => exact ⟨h.level_eq, fun _ => rfl⟩
  | disable =>
    have hlevel : l.level = 0 := by rw [h.level_eq, hs rfl]; rfl
    exact ⟨hlevel, fun hf => absurd hf Bool.false_ne_true⟩

theorem Settled.acknowledged {l : Line} (h : Settled l) : (l.next .acknowledge).level = 0 := by
  have hack : (l.next .acknowledge).raised = false := by
    unfold Line.next
    dsimp only
    split_ifs with hr
    · rfl
    · exact Bool.not_eq_true _ ▸ hr
  rw [(h.next (fun hd => absurd hd (by decide))).level_eq, hack]
  rfl

end Line

section PowerOn
variable (buffer fill : Block) (numSector : UInt32) (file : Option (List UInt8))
  (wild : Nat → UInt16)

theorem settled_new : (new buffer fill numSector file).line.Settled :=
  ⟨rfl, fun h => absurd h Bool.false_ne_true⟩

theorem signal_disable_iff (d : HardDisk) (a : Access) :
    signal d a = .disable ↔ ∃ val, a = .writeByte dcrAddr val ∧ val ≠ 0 := by
  constructor
  · intro h
    cases a with
    | writeByte addr val =>
      simp only [signal] at h
      split_ifs at h with hc hv hd hz
      exact ⟨val, by rw [hd], hz⟩
    | readByte addr => simp only [signal] at h; split_ifs at h
    | readWord addr => simp only [signal] at h; split_ifs at h
    | writeWord addr val => simp only [signal] at h; split_ifs at h
  · intro ⟨val, ha, hv⟩
    subst ha
    simp only [signal, if_neg (show ¬ dcrAddr = cmdAddr by decide), if_true, if_neg hv]

/-- Interrupts are disabled, by any write to `DCR` other than 0, only while none
is pending. -/
def Acknowledged (d : HardDisk) (as : List Access) : Prop :=
  ∀ pre val post, as = pre ++ .writeByte dcrAddr val :: post → val ≠ 0 →
    (run (step wild) d pre).interruptRaised = false

theorem Acknowledged.init {d : HardDisk} {as : List Access} (bs : List Access)
    (h : Acknowledged wild d (as ++ bs)) : Acknowledged wild d as := by
  intro pre val post has hv
  subst has
  exact h pre val (post ++ bs) (by simp) hv

theorem settled_of_acknowledged {d : HardDisk} (hd : d.line.Settled) {as : List Access}
    (h : Acknowledged wild d as) : (run (step wild) d as).line.Settled := by
  induction as using List.reverseRecOn with
  | nil => exact hd
  | append_singleton as a ih =>
    rw [run_append, run_cons, run_nil, line_step]
    apply (ih (h.init wild _)).next
    intro hs
    obtain ⟨val, rfl, hv⟩ := (signal_disable_iff _ a).mp hs
    exact h as val [] rfl hv

/-- In a run of any accesses from power-on, the line is 1 in every state exactly
when an interrupt is pending, and one is pending only with interrupts enabled,
so that each read of the status and each disabling write to `DCR` leaves the
line at 0, if and only if no disabling write meets a pending interrupt. -/
theorem line_settled_iff (as : List Access) :
    let after := fun pre => run (step wild) (new buffer fill numSector file) pre
    ((∀ pre post, as = pre ++ post →
        ((after pre).line.level = 1 ↔ (after pre).interruptRaised = true) ∧
        ((after pre).interruptRaised = true → (after pre).interruptEnabled = true)) ∧
      (∀ pre post, as = pre ++ .readByte stsAddr :: post →
        (after (pre ++ [.readByte stsAddr])).line.level = 0) ∧
      (∀ pre val post, as = pre ++ .writeByte dcrAddr val :: post → val ≠ 0 →
        (after (pre ++ [.writeByte dcrAddr val])).line.level = 0)) ↔
    ∀ pre val post, as = pre ++ .writeByte dcrAddr val :: post → val ≠ 0 →
      (after pre).interruptRaised = false := by
  intro after
  have hsnoc : ∀ pre a, after (pre ++ [a]) = step wild (after pre) a := by
    intro pre a
    simp only [after, run_append, run_cons, run_nil]
  constructor
  · rintro ⟨hline, -, hzero⟩ pre val post has hv
    -- the line is 0 after the write, and the write does not drive it
    have hlevel := hzero pre val post has hv
    rw [hsnoc, line_step, (signal_disable_iff _ _).mpr ⟨val, rfl, hv⟩] at hlevel
    have hpre := (hline pre _ has).1
    rw [show (after pre).line.level = 0 from hlevel] at hpre
    simpa using hpre
  · intro h
    have hset : ∀ pre post, as = pre ++ post → (after pre).line.Settled := by
      intro pre post has
      subst has
      exact settled_of_acknowledged wild (settled_new buffer fill numSector file)
        (Acknowledged.init wild post h)
    refine ⟨?_, ?_, ?_⟩
    · intro pre post has
      exact ⟨(hset pre post has).level_one_iff, (hset pre post has).enabled_of_raised⟩
    · intro pre post has
      rw [hsnoc, line_step]
      exact (hset pre _ has).acknowledged
    · intro pre val post has hv
      have hdown := h pre val post has hv
      rw [hsnoc, line_step, (signal_disable_iff _ _).mpr ⟨val, rfl, hv⟩]
      show (after pre).line.level = 0
      rw [(hset pre _ has).level_eq, show (after pre).line.raised = false from hdown]
      rfl

end PowerOn

/-- Interrupts enabled, a read command, interrupts disabled before the status is
read: the line stays at 1 with no interrupt pending. -/
theorem line_stuck_after_disable :
    let as : List Access := [.writeByte dcrAddr 0, readCmd, .writeByte dcrAddr 0x02]
    let d := run (step fun _ => 0)
      (new (Vector.replicate 512 0) (Vector.replicate 512 0) 4 none) as
    d.line.level = 1 ∧ d.interruptRaised = false ∧ d.interruptEnabled = false ∧
    ¬ (d.line.level = 1 ↔ d.interruptRaised = true) := by
  intro as d
  -- the signals of the three accesses, whatever the back end fetched
  have hline : d.line = (((new (Vector.replicate 512 0) (Vector.replicate 512 0) 4 none).line.next
      .enable).next .sector).next .disable := by
    simp only [d, as, run_cons, run_nil, line_step]
    rfl
  have hlevel : d.line.level = 1 := by rw [hline]; rfl
  have hraised : d.interruptRaised = false := congrArg Line.raised hline
  have henabled : d.interruptEnabled = false := congrArg Line.enabled hline
  refine ⟨hlevel, hraised, henabled, fun h => ?_⟩
  exact absurd (h.mp hlevel) (by rw [hraised]; exact Bool.false_ne_true)

end HardDisk
end EndlessFault
