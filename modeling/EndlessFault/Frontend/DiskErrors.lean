import EndlessFault.Frontend.DiskWrites

/- Failed sector accesses. `disk_manager.read` and `disk_manager.write` return a status,
   and `HardDisk` drops it at each of its calls: a read command, the read of the last
   word of a sector, and the write of the word that fills the buffer.
   `backendStatus` is that status. `Visible` is what the guest is owed after a failure:
   the error register or the error bit of the status register tells of it before the
   next command, and the words of a sector that could not be read are not those of an
   earlier one.

   No access ever sets either of them (`Steady`), so a failure is never visible
   (`not_visible`), and the runs whose failures are all visible are those without one:
   every sector the back end is asked for is on the disk (`OnDisk`). Main result:
   `failures_visible_iff`. -/
namespace EndlessFault
open Lib.Bytes Lib.Machine DiskManager

namespace HardDisk

/-- The block the next call to the back end is for. -/
def block (d : HardDisk) : UInt32 := d.lba + d.currentSectorNumber

/-- The status of the call an access makes to the back end, if it makes one. -/
def backendStatus (d : HardDisk) : Access → Option DiskStatus
  | .readByte _ => none
  | .writeByte addr val =>
    if addr = cmdAddr ∧ val = 0x20 then some (d.diskManager.read d.internalBuffer d.block).2 else none
  | .readWord addr =>
    if addr = brAddr ∧ d.currentPosition + 1 ≥ 256 ∧ d.sectorNumbersCmd ≠ d.currentSectorNumber then
      some (d.diskManager.read d.internalBuffer d.block).2
    else none
  | .writeWord addr val =>
    if addr = brAddr ∧ d.currentPosition + 2 ≥ 511 then
      some (d.diskManager.write (Port.store d.internalBuffer d.currentPosition val) d.block).2
    else none

/-- The access makes a call that fails. -/
def Failed (d : HardDisk) (a : Access) : Prop := ∃ s, backendStatus d a = some s ∧ s ≠ .noErrors

/-- Any call the access makes is for a block of the disk, whose file has its size. -/
def OnDisk (d : HardDisk) (a : Access) : Prop :=
  backendStatus d a ≠ none →
    d.diskManager.checkConsistency = true ∧ blockAddress d.block < d.diskManager.diskSize

/-- The registers tell of an error. -/
def ErrorShown (d : HardDisk) : Prop := d.ERR ≠ 0 ∨ d.STS &&& 1 ≠ 0

/-- An access that can only make the back end read. -/
def Access.fetches : Access → Bool
  | .writeWord _ _ => false
  | _ => true

/-- The next `n` words read from the data register. -/
def nextWords (wild : Nat → UInt16) (d : HardDisk) (n : Nat) : List UInt16 :=
  observe (step wild) (dataRead wild) d (List.replicate n (.readWord brAddr))

/-- What the guest is owed after the failed access `a`: before the next command it can
find an error shown; and if a read failed, the words left in the buffer are the same
whatever the buffer held before. -/
structure Visible (wild : Nat → UInt16) (d : HardDisk) (a : Access) : Prop where
  shown : ∃ as : List Access, (∀ b ∈ as, b.command = false) ∧
    ErrorShown (run (step wild) (step wild d a) as)
  fresh : a.fetches = true → ∀ (earlier : Block) (n : Nat), (step wild d a).currentPosition + n ≤ 256 →
    nextWords wild (step wild d a) n =
      nextWords wild (step wild { d with internalBuffer := earlier } a) n

/-- Every failure along the run is visible. -/
def FailuresVisible (wild : Nat → UInt16) (d : HardDisk) (as : List Access) : Prop :=
  Along (step wild) (fun d a => Failed d a → Visible wild d a) d as

variable (wild : Nat → UInt16)

/-! The error register. -/

theorem err_raiseInterrupt (d : HardDisk) : d.raiseInterrupt.ERR = d.ERR := by
  unfold raiseInterrupt setIRQline
  split <;> rfl

theorem err_readFromBackend (d : HardDisk) : d.readFromBackend.ERR = d.ERR := by
  rw [readFromBackend, err_raiseInterrupt]

theorem err_processCmd (d : HardDisk) : d.processCmd.ERR = d.ERR := by
  unfold processCmd
  exact of_branches ERR rfl (of_branches ERR (err_readFromBackend _) rfl)

theorem err_writeBR (d : HardDisk) (val : UInt16) : (d.writeBRRegister val).ERR = d.ERR := by
  unfold writeBRRegister
  refine of_branches ERR ?_ rfl
  rw [err_raiseInterrupt]
  exact of_branches ERR rfl rfl

theorem err_readBR (d : HardDisk) : (d.readBRRegister wild).1.ERR = d.ERR := by
  simp only [readBRRegister, readBR_pointer]
  exact of_branches ERR (of_branches ERR rfl (err_readFromBackend _)) rfl

theorem err_readRegByte (d : HardDisk) (addr : UInt16) : (d.readRegByte addr).1.ERR = d.ERR := by
  unfold readRegByte
  iterate 5 refine of_branches (fun r : HardDisk × UInt8 => r.1.ERR) rfl ?_
  refine of_branches (fun r : HardDisk × UInt8 => r.1.ERR) (of_branches ERR rfl rfl) ?_
  iterate 2 refine of_branches (fun r : HardDisk × UInt8 => r.1.ERR) rfl ?_
  rfl

theorem err_writeRegByte (d : HardDisk) (addr : UInt16) (val : UInt8) :
    (d.writeRegByte addr val).ERR = d.ERR := by
  have hdcr : (d.writeDCR val).ERR = d.ERR := of_branches ERR rfl (of_branches ERR rfl rfl)
  unfold writeRegByte
  iterate 5 refine of_branches ERR rfl ?_
  exact of_branches ERR (err_processCmd _) (of_branches ERR hdcr rfl)

/-- No access writes the error register. -/
theorem err_step (d : HardDisk) (a : Access) : (step wild d a).ERR = d.ERR := by
  cases a with
  | readByte addr => exact err_readRegByte d addr
  | writeByte addr val => exact err_writeRegByte d addr val
  | readWord addr => exact of_branches (fun r : HardDisk × UInt16 => r.1.ERR) (err_readBR wild d) rfl
  | writeWord addr val => exact of_branches ERR (err_writeBR d val) rfl

/-! What every access keeps. -/

theorem statusOk_step {d : HardDisk} (h : Port.StatusOk d.STS) (a : Access) :
    Port.StatusOk (step wild d a).STS := by
  cases hd : a.data with
  | some c =>
    have hport := (port_step_data wild d a c hd).1
    rw [show (step wild d a).STS = (d.port.step c).status from congrArg Port.status hport]
    exact Port.StatusOk.step (p := d.port) h c
  | none =>
    cases hc : a.command with
    | false =>
      have hport := (port_step_quiet wild d a hc hd).1
      rw [show (step wild d a).STS = d.STS from congrArg Port.status hport]
      exact h
    | true =>
      obtain ⟨cmd, rfl⟩ := Access.eq_of_command hc
      by_cases hr : cmd = 0x20
      · subst hr
        have hport : (step wild d (.writeByte cmdAddr 0x20)).STS = _ :=
          congrArg Port.status (port_readCmd wild d)
        rw [hport]
        exact .inr (.inl (start_status h).2)
      · by_cases hw : cmd = 0x30
        · subst hw
          have hport : (step wild d (.writeByte cmdAddr 0x30)).STS = _ :=
            congrArg Port.status (port_writeCmd wild d)
          rw [hport]
          exact .inr (.inl (start_status h).1)
        · have hport : (step wild d (.writeByte cmdAddr cmd)).STS = d.STS :=
            congrArg Port.status (port_otherCmd wild d hr hw)
          rw [hport]
          exact h

theorem diskSize_step (d : HardDisk) (a : Access) :
    (step wild d a).diskManager.diskSize = d.diskManager.diskSize := by
  have hout : ∀ (ws : List (Block × UInt32)) (m : DiskManager), (writeOut m ws).diskSize = m.diskSize := by
    intro ws
    induction ws with
    | nil => exact fun m => rfl
    | cons w ws ih => exact fun m => (ih _).trans (diskSize_write m w.1 w.2)
  rw [disk_step, hout]

/-- No error is shown, and the disk is one of whole blocks. -/
structure Steady (d : HardDisk) : Prop where
  err : d.ERR = 0
  status : Port.StatusOk d.STS
  disk : Sized d.diskManager

theorem Steady.step {d : HardDisk} (h : Steady d) (a : Access) : Steady (step wild d a) where
  err := (err_step wild d a).trans h.err
  status := statusOk_step wild h.status a
  disk :=
    ⟨by rw [diskSize_step]; exact h.disk.whole, by rw [diskSize_step]; exact h.disk.small⟩

theorem Steady.run {d : HardDisk} (h : Steady d) (as : List Access) : Steady (run (HardDisk.step wild) d as) :=
  run_invariant Steady (fun _ => True) (fun _ a _ hd => hd.step wild a) h (fun _ _ => trivial)

theorem Steady.not_shown {d : HardDisk} (h : Steady d) : ¬ ErrorShown d := by
  have hbit : d.STS &&& 1 = 0 := by
    rcases h.status with hs | hs | hs | hs <;> rw [hs] <;> decide
  exact fun hshown => hshown.elim (fun herr => herr h.err) (fun hsts => hsts hbit)

/-- No failure is ever visible. -/
theorem Steady.not_visible {d : HardDisk} (h : Steady d) (a : Access) : ¬ Visible wild d a := by
  intro hvis
  obtain ⟨as, -, hshown⟩ := hvis.shown
  exact ((h.step wild a).run wild as).not_shown hshown

/-- The status of a call tells whether its block is on the disk. -/
theorem Steady.status_iff {d : HardDisk} (h : Steady d) {a : Access} {s : DiskStatus}
    (hs : backendStatus d a = some s) :
    s = .noErrors ↔ d.diskManager.checkConsistency = true ∧
      blockAddress d.block < d.diskManager.diskSize := by
  cases a with
  | readByte addr => simp [backendStatus] at hs
  | writeByte addr val =>
    simp only [backendStatus] at hs
    split_ifs at hs
    rw [← Option.some.inj hs]
    exact h.disk.read_noErrors_iff _ _
  | readWord addr =>
    simp only [backendStatus] at hs
    split_ifs at hs
    rw [← Option.some.inj hs]
    exact h.disk.read_noErrors_iff _ _
  | writeWord addr val =>
    simp only [backendStatus] at hs
    split_ifs at hs
    rw [← Option.some.inj hs]
    exact h.disk.write_noErrors_iff _ _

/-- A call fails exactly when its block is not on the disk. -/
theorem Steady.failed_iff {d : HardDisk} (h : Steady d) (a : Access) : Failed d a ↔ ¬ OnDisk d a := by
  unfold Failed OnDisk
  cases hs : backendStatus d a with
  | none => simp
  | some s => simp [h.status_iff hs]

/-! Whole runs. -/

section
variable (buffer fill : Block) (numSector : UInt32) (file : Option (List UInt8))

theorem new_steady : Steady (new buffer fill numSector file) where
  err := rfl
  status := .inl rfl
  disk := new_sized fill numSector file

/-- On a disk of any size over any file, the failures of a run are all visible if and
only if it has none: every sector the back end is asked for is on the disk. -/
theorem failures_visible_iff (as : List Access) :
    FailuresVisible wild (new buffer fill numSector file) as ↔
      Along (step wild) OnDisk (new buffer fill numSector file) as := by
  have hsame : ∀ (d : HardDisk) (a : Access), Steady d →
      ((Failed d a → Visible wild d a) ↔ OnDisk d a) := by
    intro d a hd
    rw [← not_not (a := OnDisk d a), ← hd.failed_iff a]
    exact ⟨fun h hfailed => hd.not_visible wild a (h hfailed), fun h hfailed => absurd hfailed h⟩
  exact along_congr Steady (fun d a hd => hd.step wild a) hsame (new_steady buffer fill numSector file) as

end

/-- A disk of one sector, and two read commands for sector 1. The first reads at the
address latched before it, the second is refused by the back end. -/
def beyondDisk : List Access := setup 1 1 ++ [readCmd, readCmd]

theorem refused_read_not_visible :
    let zero : Nat → UInt16 := fun _ => 0
    let d := new (blockOf 0) (blockOf 0) 1 (some (blockOf 7).toList)
    let e := run (step zero) d (setup 1 1 ++ [readCmd])
    backendStatus e readCmd = some .outOfBound ∧
    (step zero e readCmd).ERR = 0 ∧ (step zero e readCmd).STS = drqMask ∧
    nextWords zero (step zero e readCmd) 1 = [0x0707] ∧
    ¬ FailuresVisible zero d beyondDisk := by
  intro zero d e
  have hstatus : backendStatus e readCmd = some .outOfBound := by decide +kernel
  refine ⟨hstatus, by decide +kernel, by decide +kernel, by decide +kernel, ?_⟩
  intro h
  have hsteady : Steady e := (new_steady _ _ _ _).run zero _
  have hlast : Failed e readCmd → Visible zero e readCmd := h.2.2.2.2.2.2.1
  exact hsteady.not_visible zero readCmd (hlast ⟨_, hstatus, by decide⟩)

end HardDisk
end EndlessFault
