import Mathlib.Data.List.Induction
import Mathlib.Tactic.SplitIfs
import EndlessFault.Frontend.HardDisk

/- The data port of the disk, apart from its register file. A transfer is
   carried by eight members (`Port`): the staging buffer, the pointer and the
   cursor into it, the latched address and count, the sectors moved so far, the
   back end and the status register. Word accesses of `BR` move them on their
   own, byte accesses that start no command leave them alone
   (`port_run`, `words_run`), so what a transfer does is a matter of the guest's
   data words in their order, whatever register traffic lies between them.

   The cursor is shared by reads, which count words, and writes, which count
   bytes. `cursor_le`: every access of every kind, commands included, starts
   with the cursor at most 510, so a written word stays inside the buffer.
   `safe_reads_iff`: a read stays inside it exactly when the guest's own data
   accesses so far left the cursor in the first half of the buffer and, unless
   the cursor is 0, some earlier read started at cursor 0. -/
namespace EndlessFault
open Lib.Bytes Lib.Machine

namespace HardDisk

/-- A word access of the data register. -/
inductive Data where
  | read
  | write (val : UInt16)
  deriving DecidableEq, Repr

/-- The data access an access makes, if any. -/
def Access.data : Access → Option Data
  | .readWord addr => if addr = brAddr then some .read else none
  | .writeWord addr val => if addr = brAddr then some (.write val) else none
  | _ => none

/-- An access that may start a command: a byte write to `CMD`. -/
def Access.command : Access → Bool
  | .writeByte addr _ => addr == cmdAddr
  | _ => false

theorem Access.eq_of_command {a : Access} (h : a.command = true) : ∃ cmd, a = .writeByte cmdAddr cmd := by
  cases a with
  | writeByte addr cmd =>
    obtain rfl : addr = cmdAddr := by simpa [Access.command] using h
    exact ⟨cmd, rfl⟩
  | readByte addr => simp [Access.command] at h
  | readWord addr => simp [Access.command] at h
  | writeWord addr val => simp [Access.command] at h

/-- The members a transfer lives in. -/
structure Port where
  buffer : Block
  pointer : Option Nat
  position : Nat
  wanted : UInt32
  moved : UInt32
  lba : UInt32
  disk : DiskManager
  status : UInt8

def port (d : HardDisk) : Port where
  buffer := d.internalBuffer
  pointer := d.newBuffer
  position := d.currentPosition
  wanted := d.sectorNumbersCmd
  moved := d.currentSectorNumber
  lba := d.lba
  disk := d.diskManager
  status := d.STS

namespace Port

/-- The buffer with one word stored at byte offset `pos`. -/
def store (buffer : Block) (pos : Nat) (val : UInt16) : Block :=
  (buffer.setIfInBounds pos (val &&& 0x00FF).toUInt8).setIfInBounds (pos + 1) (val >>> 8).toUInt8

/-- The status at a sector boundary: busy off, data request on until the last
sector the command asked for. -/
def boundary (status : UInt8) (last : Bool) : UInt8 :=
  let s := ((status ||| busyMask) &&& ~~~busyMask) ||| drqMask
  if last then s &&& ~~~drqMask else s

def write (p : Port) (val : UInt16) : Port :=
  let buffer := store p.buffer p.position val
  if p.position + 2 ≥ 511 then
    { p with
      buffer := buffer
      position := 0
      disk := (p.disk.write buffer (p.lba + p.moved)).1
      moved := p.moved + 1
      status := boundary p.status (p.wanted == p.moved + 1) }
  else { p with buffer := buffer, position := p.position + 2, status := p.status ||| busyMask }

/-- The pointer a read goes through. -/
def source (p : Port) : Option Nat := if p.position = 0 then some 0 else p.pointer

def read (p : Port) : Port :=
  if p.position + 1 ≥ 256 then
    if p.wanted = p.moved then
      { p with pointer := p.source, position := 0, status := boundary p.status true }
    else
      { p with
        pointer := p.source
        position := 0
        buffer := (p.disk.read p.buffer (p.lba + p.moved)).1
        moved := p.moved + 1
        status := boundary p.status false }
  else { p with pointer := p.source, position := p.position + 1, status := p.status ||| busyMask }

/-- The word a read returns. -/
def word (wild : Nat → UInt16) (p : Port) : UInt16 := loadWord wild p.buffer p.source p.position

def step (p : Port) : Data → Port
  | .read => p.read
  | .write val => p.write val

def dataRead (wild : Nat → UInt16) (p : Port) : Data → List UInt16
  | .read => [p.word wild]
  | .write _ => []

end Port

/-! The disk refines its port. -/

@[simp] theorem port_raiseInterrupt (d : HardDisk) : d.raiseInterrupt.port = d.port := by
  unfold raiseInterrupt setIRQline
  split <;> rfl

theorem port_writeBR (d : HardDisk) (val : UInt16) :
    (d.writeBRRegister val).port = d.port.write val := by
  by_cases hp : d.currentPosition + 2 ≥ 511
  · by_cases hw : d.sectorNumbersCmd = d.currentSectorNumber + 1
    · simp only [writeBRRegister, if_pos hp, if_pos hw, port_raiseInterrupt]
      simp only [port, Port.write, if_pos hp, hw, beq_self_eq_true]
      rfl
    · simp only [writeBRRegister, if_pos hp, if_neg hw, port_raiseInterrupt]
      simp only [port, Port.write, if_pos hp, beq_eq_false_iff_ne.mpr hw]
      rfl
  · simp only [writeBRRegister, Port.write, if_neg hp]
    rw [if_neg (show ¬ d.port.position + 2 ≥ 511 from hp)]
    rfl

theorem port_readFromBackend (d : HardDisk) :
    d.readFromBackend.port = { d.port with
      buffer := (d.diskManager.read d.internalBuffer (d.lba + d.currentSectorNumber)).1
      moved := d.currentSectorNumber + 1 } := by
  simp only [readFromBackend, port_raiseInterrupt]
  rfl

/-- The pointer a load goes through, once the branch at cursor 0 is taken. -/
theorem readBR_pointer (d : HardDisk) :
    (if d.currentPosition = 0 then { d with STS := d.STS ||| busyMask, newBuffer := some 0 }
      else { d with STS := d.STS ||| busyMask }) =
    { d with STS := d.STS ||| busyMask, newBuffer := d.port.source } := by
  unfold Port.source
  by_cases h0 : d.currentPosition = 0
  · rw [if_pos h0, if_pos (show d.port.position = 0 from h0)]
  · rw [if_neg h0, if_neg (show ¬ d.port.position = 0 from h0)]
    rfl

theorem readBR_spec (wild : Nat → UInt16) (d : HardDisk) :
    (d.readBRRegister wild).1.port = d.port.read ∧ (d.readBRRegister wild).2 = d.port.word wild := by
  simp only [readBRRegister, readBR_pointer, blockSizeByte, Nat.reduceDiv, Port.read]
  by_cases hp : d.currentPosition + 1 ≥ 256
  · rw [if_pos (show d.port.position + 1 ≥ 256 from hp), if_pos hp]
    by_cases hw : d.sectorNumbersCmd = d.currentSectorNumber
    · rw [if_pos (show d.port.wanted = d.port.moved from hw), if_pos hw]
      exact ⟨rfl, rfl⟩
    · rw [if_neg (show ¬ d.port.wanted = d.port.moved from hw), if_neg hw, port_readFromBackend]
      refine ⟨rfl, ?_⟩
      simp only [readFromBackend, raiseInterrupt, setIRQline]
      split <;> rfl
  · rw [if_neg (show ¬ d.port.position + 1 ≥ 256 from hp), if_neg hp]
    exact ⟨rfl, rfl⟩

theorem port_readRegByte (d : HardDisk) (addr : UInt16) : (d.readRegByte addr).1.port = d.port := by
  unfold readRegByte
  iterate 5 refine of_branches (fun r : HardDisk × UInt8 => r.1.port) rfl ?_
  refine of_branches (fun r : HardDisk × UInt8 => r.1.port) (of_branches port rfl rfl) ?_
  iterate 2 refine of_branches (fun r : HardDisk × UInt8 => r.1.port) rfl ?_
  rfl

theorem port_writeRegByte (d : HardDisk) {addr : UInt16} (hne : addr ≠ cmdAddr) (val : UInt8) :
    (d.writeRegByte addr val).port = d.port := by
  have hdcr : (d.writeDCR val).port = d.port := of_branches port rfl (of_branches port rfl rfl)
  unfold writeRegByte
  iterate 5 refine of_branches port rfl ?_
  rw [if_neg hne]
  exact of_branches port hdcr rfl

/-- A byte access that starts no command, or a word access elsewhere, leaves
the port alone and returns no data word. -/
theorem port_step_quiet (wild : Nat → UInt16) (d : HardDisk) (a : Access)
    (hc : a.command = false) (hd : a.data = none) :
    (step wild d a).port = d.port ∧ dataRead wild d a = [] := by
  cases a with
  | readByte addr => exact ⟨port_readRegByte d addr, rfl⟩
  | writeByte addr val =>
    have hne : addr ≠ cmdAddr := by simpa [Access.command] using hc
    exact ⟨port_writeRegByte d hne val, rfl⟩
  | readWord addr =>
    have hne : addr ≠ brAddr := by simpa [Access.data] using hd
    exact ⟨by simp only [step, readRegWord, if_neg hne], by simp only [dataRead, if_neg hne]⟩
  | writeWord addr val =>
    have hne : addr ≠ brAddr := by simpa [Access.data] using hd
    exact ⟨by simp only [step, writeRegWord, if_neg hne], rfl⟩

/-- A data access moves the port by itself. -/
theorem port_step_data (wild : Nat → UInt16) (d : HardDisk) (a : Access) (c : Data)
    (hd : a.data = some c) :
    (step wild d a).port = d.port.step c ∧ dataRead wild d a = d.port.dataRead wild c := by
  cases a with
  | readByte addr => simp [Access.data] at hd
  | writeByte addr val => simp [Access.data] at hd
  | readWord addr =>
    obtain ⟨rfl, rfl⟩ : addr = brAddr ∧ Data.read = c := by simpa [Access.data] using hd
    have hspec := readBR_spec wild d
    simp only [step, dataRead, readRegWord, if_true]
    exact ⟨hspec.1, by rw [hspec.2]; rfl⟩
  | writeWord addr val =>
    obtain ⟨rfl, rfl⟩ : addr = brAddr ∧ Data.write val = c := by simpa [Access.data] using hd
    simp only [step, dataRead, writeRegWord, if_true]
    exact ⟨port_writeBR d val, rfl⟩

/-- Between commands, the port after any accesses is the port after their data
accesses alone. -/
theorem port_run (wild : Nat → UInt16) (d : HardDisk) {as : List Access}
    (has : ∀ a ∈ as, a.command = false) :
    (run (step wild) d as).port = run Port.step d.port (as.filterMap Access.data) :=
  run_stutter (fun a => a.command = false)
    (fun d a hc hd => (port_step_quiet wild d a hc hd).1)
    (fun d a c _ hd => (port_step_data wild d a c hd).1) d has

/-- Between commands, the data words read are those the data accesses alone read. -/
theorem words_run (wild : Nat → UInt16) (d : HardDisk) {as : List Access}
    (has : ∀ a ∈ as, a.command = false) :
    observe (step wild) (dataRead wild) d as =
      observe Port.step (Port.dataRead wild) d.port (as.filterMap Access.data) :=
  observe_stutter (fun a => a.command = false)
    (fun d a hc hd => port_step_quiet wild d a hc hd)
    (fun d a c _ hd => port_step_data wild d a c hd) d has

/-! The cursor, over every access. -/

/-- The cursor into the staging buffer and the pointer reads go through. -/
def cursor (d : HardDisk) : Nat × Option Nat := (d.currentPosition, d.newBuffer)

/-- Where a data access leaves the cursor. -/
def advance (position : Nat) : Data → Nat
  | .read => if position + 1 ≥ 256 then 0 else position + 1
  | .write _ => if position + 2 ≥ 511 then 0 else position + 2

def moveCursor (c : Nat × Option Nat) (a : Data) : Nat × Option Nat :=
  (advance c.1 a, if a = .read ∧ c.1 = 0 then some 0 else c.2)

theorem Port.step_cursor (p : Port) (c : Data) :
    ((p.step c).position, (p.step c).pointer) = moveCursor (p.position, p.pointer) c := by
  cases c with
  | read =>
    simp only [Port.step, Port.read, Port.source, moveCursor, advance, true_and]
    split_ifs <;> rfl
  | write val =>
    simp only [Port.step, Port.write, moveCursor, advance]
    split_ifs <;> simp_all

theorem cursor_data (wild : Nat → UInt16) (d : HardDisk) (a : Access) (c : Data)
    (hd : a.data = some c) : (step wild d a).cursor = moveCursor d.cursor c := by
  have hport := (port_step_data wild d a c hd).1
  calc (step wild d a).cursor
      = ((step wild d a).port.position, (step wild d a).port.pointer) := rfl
    _ = ((d.port.step c).position, (d.port.step c).pointer) := by rw [hport]
    _ = moveCursor d.cursor c := d.port.step_cursor c

theorem cursor_raiseInterrupt (d : HardDisk) : d.raiseInterrupt.cursor = d.cursor := by
  unfold raiseInterrupt setIRQline
  split <;> rfl

/-- No byte access moves the cursor: a command neither resets it nor sets the pointer. -/
theorem cursor_other (wild : Nat → UInt16) (d : HardDisk) (a : Access) (hd : a.data = none) :
    (step wild d a).cursor = d.cursor := by
  cases hc : a.command with
  | false =>
    have hport := (port_step_quiet wild d a hc hd).1
    exact congrArg (fun p : Port => (p.position, p.pointer)) hport
  | true =>
    obtain ⟨cmd, rfl⟩ := Access.eq_of_command hc
    -- a read command replaces the buffer and leaves the place in it
    show (processCmd { d with CMD := cmd }).cursor = d.cursor
    simp only [processCmd, readFromBackend]
    split_ifs
    · rfl
    · exact cursor_raiseInterrupt _
    · rfl

theorem cursor_run (wild : Nat → UInt16) (d : HardDisk) (as : List Access) :
    (run (step wild) d as).cursor = run moveCursor d.cursor (as.filterMap Access.data) :=
  run_stutter (fun _ => True) (fun d a _ hd => cursor_other wild d a hd)
    (fun d a c _ hd => cursor_data wild d a c hd) d (fun _ _ => trivial)

theorem advance_le {position : Nat} (h : position ≤ 510) (c : Data) :
    advance position c ≤ 510 := by
  cases c <;> simp only [advance] <;> split <;> omega

/-- The cursor the guest's data accesses leave, from power-on. -/
def offset (cs : List Data) : Nat := run advance 0 cs

theorem offset_le (cs : List Data) : offset cs ≤ 510 :=
  run_invariant (fun p => p ≤ 510) (fun _ => True)
    (fun _ c _ h => advance_le h c) (Nat.zero_le _) (fun _ _ => trivial)

theorem offset_snoc (cs : List Data) (c : Data) : offset (cs ++ [c]) = advance (offset cs) c := by
  simp only [offset, run_append, run_cons, run_nil]

/-- Some read started at cursor 0: only such a read sets `new_buffer`. -/
def Primed (cs : List Data) : Prop := ∃ pre post, cs = pre ++ .read :: post ∧ offset pre = 0

theorem primed_snoc (cs : List Data) (c : Data) :
    Primed (cs ++ [c]) ↔ Primed cs ∨ (c = .read ∧ offset cs = 0) := by
  constructor
  · rintro ⟨pre, post, h, h0⟩
    rcases List.eq_nil_or_concat post with rfl | ⟨post', c', rfl⟩
    · obtain ⟨rfl, hc⟩ := List.append_inj' h rfl
      exact .inr ⟨by simpa using hc, h0⟩
    · rw [List.concat_eq_append, ← List.cons_append, ← List.append_assoc] at h
      exact .inl ⟨pre, post', (List.append_inj' h rfl).1, h0⟩
  · rintro (⟨pre, post, rfl, h0⟩ | ⟨rfl, h0⟩)
    · exact ⟨pre, post ++ [c], by simp, h0⟩
    · exact ⟨cs, [], rfl, h0⟩

/-- From power-on the pointer is set exactly when some read started at cursor 0. -/
theorem cursor_of_data (cs : List Data) :
    run moveCursor (0, none) cs = (offset cs, none) ∧ ¬ Primed cs ∨
    run moveCursor (0, none) cs = (offset cs, some 0) ∧ Primed cs := by
  -- from the end: `Primed` is about the accesses before a read
  induction cs using List.reverseRecOn with
  | nil => exact .inl ⟨rfl, fun ⟨pre, post, h, _⟩ => by simp at h⟩
  | append_singleton cs c ih =>
    rw [run_append, run_cons, run_nil, offset_snoc, primed_snoc]
    by_cases hc : c = .read ∧ offset cs = 0
    · refine .inr ⟨?_, .inr hc⟩
      rcases ih with ⟨hrun, _⟩ | ⟨hrun, _⟩ <;> rw [hrun] <;> simp only [moveCursor, if_pos hc]
    · rcases ih with ⟨hrun, hp⟩ | ⟨hrun, hp⟩
      · refine .inl ⟨?_, fun h => h.elim hp hc⟩
        rw [hrun]; simp only [moveCursor, if_neg hc]
      · refine .inr ⟨?_, .inl hp⟩
        rw [hrun]; simp only [moveCursor, if_neg hc]

/-- The pointer and the word index of the load `new_buffer[current_position]`
in `read_BR_register`. -/
def deref (d : HardDisk) : Option Nat × Nat :=
  (if d.currentPosition = 0 then some 0 else d.newBuffer, d.currentPosition)

theorem readBR_load (wild : Nat → UInt16) (d : HardDisk) :
    (d.readBRRegister wild).2 = loadWord wild d.internalBuffer d.deref.1 d.deref.2 :=
  (readBR_spec wild d).2

/-- The load goes through a pointer that has been set, to one of the 256 words
of the buffer. -/
def SafeLoad (d : HardDisk) : Prop := d.deref.1 = some 0 ∧ d.deref.2 < 256

section PowerOn
variable (buffer fill : Block) (numSector : UInt32) (file : Option (List UInt8))
  (wild : Nat → UInt16)

theorem cursor_from_new (as : List Access) :
    (run (step wild) (new buffer fill numSector file) as).cursor =
      run moveCursor (0, none) (as.filterMap Access.data) :=
  cursor_run wild _ as

theorem position_from_new (as : List Access) :
    (run (step wild) (new buffer fill numSector file) as).currentPosition =
      offset (as.filterMap Access.data) := by
  have h := cursor_from_new buffer fill numSector file wild as
  rcases cursor_of_data (as.filterMap Access.data) with ⟨hr, _⟩ | ⟨hr, _⟩ <;>
  · rw [hr] at h
    exact congrArg Prod.fst h

/-- Every access, of any kind and in any order, finds the cursor at most 510:
both bytes of a word written to `BR` go inside the 512-byte buffer. -/
theorem cursor_le (as : List Access) :
    (run (step wild) (new buffer fill numSector file) as).currentPosition ≤ 510 ∧
    (run (step wild) (new buffer fill numSector file) as).currentPosition + 1 < blockSizeByte := by
  have h := offset_le (as.filterMap Access.data)
  rw [position_from_new]
  exact ⟨h, by simp only [blockSizeByte]; omega⟩

/-- A read made after the accesses `as` is safe exactly when their data
accesses allow it. -/
theorem safeLoad_iff (as : List Access) :
    SafeLoad (run (step wild) (new buffer fill numSector file) as) ↔
      offset (as.filterMap Access.data) < 256 ∧
      (offset (as.filterMap Access.data) = 0 ∨ Primed (as.filterMap Access.data)) := by
  have h := cursor_from_new buffer fill numSector file wild as
  unfold SafeLoad deref
  rw [position_from_new]
  rcases cursor_of_data (as.filterMap Access.data) with ⟨hr, hp⟩ | ⟨hr, hp⟩
  · have hnone : (run (step wild) (new buffer fill numSector file) as).newBuffer = none := by
      rw [hr] at h; exact congrArg Prod.snd h
    by_cases h0 : offset (as.filterMap Access.data) = 0
    · simp [h0]
    · simp [h0, hnone, hp]
  · have hset : (run (step wild) (new buffer fill numSector file) as).newBuffer = some 0 := by
      rw [hr] at h; exact congrArg Prod.snd h
    simp [hset, hp]

/-- Over any sequence of accesses from power-on, every read of `BR` stays inside
the buffer if and only if each one is allowed by the data accesses before it. -/
theorem safe_reads_iff (as : List Access) :
    (∀ pre post, as = pre ++ .readWord brAddr :: post →
      SafeLoad (run (step wild) (new buffer fill numSector file) pre)) ↔
    (∀ pre post, as.filterMap Access.data = pre ++ .read :: post →
      offset pre < 256 ∧ (offset pre = 0 ∨ Primed pre)) := by
  constructor
  · intro h cs cs' hcs
    obtain ⟨l₁, l₂, rfl, rfl, h₂⟩ := List.filterMap_eq_append_iff.mp hcs
    obtain ⟨l₃, a, l₄, rfl, hnone, ha, -⟩ := List.filterMap_eq_cons_iff.mp h₂
    have hread : a = .readWord brAddr := by
      cases a <;> simp_all [Access.data]
    -- the accesses `l₃` between the last data access and this read carry no data
    have hskip : (l₁ ++ l₃).filterMap Access.data = l₁.filterMap Access.data := by
      rw [List.filterMap_append, List.filterMap_eq_nil_iff.mpr hnone, List.append_nil]
    have hsafe := h (l₁ ++ l₃) l₄ (by rw [hread, List.append_assoc])
    rwa [safeLoad_iff, hskip] at hsafe
  · rintro h pre post rfl
    rw [safeLoad_iff]
    refine h _ (post.filterMap Access.data) ?_
    rw [List.filterMap_append, List.filterMap_cons_some (b := .read) (by simp [Access.data])]

end PowerOn

/-- One word written at power-on, then one read: the read goes through the
pointer the constructor never set. -/
theorem unset_pointer_read :
    ¬ ∀ pre post, [Access.writeWord brAddr 0, .readWord brAddr] = pre ++ .readWord brAddr :: post →
      SafeLoad (run (step fun _ => 0) (new (Vector.replicate 512 0) (Vector.replicate 512 0) 4 none)
        pre) := by
  intro h
  have hsafe := h [.writeWord brAddr 0] [] rfl
  rw [safeLoad_iff] at hsafe
  have hdata : [Access.writeWord brAddr 0].filterMap Access.data = [.write 0] := by decide
  rw [hdata] at hsafe
  rcases hsafe.2 with h0 | ⟨pre, post, hp, -⟩
  · exact absurd h0 (by decide)
  · rcases pre with _ | ⟨x, pre⟩ <;> simp at hp

end HardDisk
end EndlessFault
