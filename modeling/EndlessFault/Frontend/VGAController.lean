import Mathlib.Tactic.SplitIfs
import EndlessFault.Lib.Machine
import EndlessFault.Lib.Words
import EndlessFault.GuestMemory

/- The video card (`frontend/vgaController.cpp`): an index register that selects one of two
   cursor registers, and a data register through which the selected one is written and
   read. The text memory is not a register: it is guest memory from `0xB8000` on, which
   the monitor sets once (`setVMem`).

   Every member function holds the mutex for its whole body, so a run is any sequence of
   whole accesses. `DAT` also keeps what went through it last, and no one reads it there.
   What the guest wrote last through each index is what the cursor is made of. Main
   result: `cursor_registers`. -/
namespace EndlessFault
open Lib.Words Lib.Machine

structure VGAController where
  IND : UInt8
  DAT : UInt8
  curHigh : UInt8
  curLow : UInt8
  deriving DecidableEq, Repr

namespace VGAController

def new : VGAController := ⟨0, 0, 0, 0⟩

def indAddr : UInt16 := 0x03D4
def datAddr : UInt16 := 0x03D5
def curHighInd : UInt8 := 0x0e
def curLowInd : UInt8 := 0x0f

def writeRegByte (v : VGAController) (addr : UInt16) (val : UInt8) : VGAController :=
  if addr = indAddr then { v with IND := val }
  else if addr = datAddr then
    let v := { v with DAT := val }
    if v.IND = curHighInd then { v with curHigh := v.DAT }
    else if v.IND = curLowInd then { v with curLow := v.DAT }
    else v
  else v

def readRegByte (v : VGAController) (addr : UInt16) : VGAController × UInt8 :=
  if addr = indAddr then (v, v.IND)
  else if addr = datAddr then
    if v.IND = curHighInd then ({ v with DAT := v.curHigh }, v.curHigh)
    else if v.IND = curLowInd then ({ v with DAT := v.curLow }, v.curLow)
    else (v, 0)
  else (v, 0)

def cursorPosition (v : VGAController) : UInt16 := (v.curHigh.toUInt16 <<< 8) + v.curLow.toUInt16

/-- The offset of the text memory that `initIO` sets. -/
def vMem : Int := 0xB8000

/-- The word of a cell of the text memory. -/
def videoMatrix (memory : Memory) (index : Nat) : UInt16 := UInt16.ofNat (load memory (vMem + 2 * index) 2)

inductive Access where
  | readByte (addr : UInt16)
  | writeByte (addr : UInt16) (val : UInt8)
  deriving DecidableEq, Repr

def step (v : VGAController) : Access → VGAController
  | .readByte addr => (v.readRegByte addr).1
  | .writeByte addr val => v.writeRegByte addr val

/-- What a read returns. -/
def reply (v : VGAController) : Access → List UInt8
  | .readByte addr => [(v.readRegByte addr).2]
  | .writeByte _ _ => []

/-! What is wanted. -/

/-- The index that is selected after an access. -/
def select (ind : UInt8) : Access → UInt8
  | .readByte _ => ind
  | .writeByte addr val => if addr = indAddr then val else ind

/-- The value an access writes through the index `target`, `ind` being selected. -/
def through (target : UInt8) (ind : UInt8) : Access → List UInt8
  | .readByte _ => []
  | .writeByte addr val => if addr = datAddr ∧ ind = target then [val] else []

/-- The value written last through the index `target`, 0 if none was. -/
def latest (target : UInt8) (as : List Access) : UInt8 :=
  (observe select (through target) 0 as).getLast?.getD 0

/-- What the guest should read, `ind` being selected. -/
def wanted (as : List Access) (addr : UInt16) : UInt8 :=
  let ind := run select 0 as
  if addr = indAddr then ind
  else if addr = datAddr ∧ ind = curHighInd then latest curHighInd as
  else if addr = datAddr ∧ ind = curLowInd then latest curLowInd as
  else 0

/-! One access. -/

section
variable (v : VGAController) (a : Access)

theorem IND_step : (v.step a).IND = select v.IND a := by
  cases a with
  | readByte addr =>
    simp only [step, readRegByte, select]
    split_ifs <;> rfl
  | writeByte addr val =>
    simp only [step, writeRegByte, select]
    split_ifs <;> rfl

theorem curHigh_step : (v.step a).curHigh = (through curHighInd v.IND a).getLast?.getD v.curHigh := by
  cases a with
  | readByte addr =>
    simp only [step, readRegByte, through]
    split_ifs <;> rfl
  | writeByte addr val =>
    simp only [step, writeRegByte, through]
    by_cases hdat : addr = datAddr
    · subst hdat
      rw [if_neg (show datAddr ≠ indAddr by decide)]
      simp only [true_and, if_true]
      split_ifs <;> rfl
    · simp only [hdat, false_and, if_false]
      split_ifs <;> rfl

theorem curLow_step : (v.step a).curLow = (through curLowInd v.IND a).getLast?.getD v.curLow := by
  cases a with
  | readByte addr =>
    simp only [step, readRegByte, through]
    split_ifs <;> rfl
  | writeByte addr val =>
    simp only [step, writeRegByte, through]
    by_cases hdat : addr = datAddr
    · subst hdat
      rw [if_neg (show datAddr ≠ indAddr by decide)]
      simp only [true_and, if_true]
      by_cases hhigh : v.IND = curHighInd
      · rw [if_pos hhigh, if_neg (by rw [hhigh]; decide)]
        rfl
      · rw [if_neg hhigh]
        split_ifs <;> rfl
    · simp only [hdat, false_and, if_false]
      split_ifs <;> rfl

end

/-! Whole runs. -/

theorem IND_run (as : List Access) : (run step new as).IND = run select 0 as :=
  run_simulation (R := fun (v : VGAController) ind => v.IND = ind)
    (fun v _ a h => by rw [IND_step, h]) rfl as

/-- The values the card sees written through an index are those the guest wrote. -/
theorem observe_through (target : UInt8) (as : List Access) :
    observe step (fun v => through target v.IND) new as = observe select (through target) 0 as :=
  observe_simulation (R := fun (v : VGAController) ind => v.IND = ind)
    (fun v _ a h => by rw [IND_step, h]) (fun v _ a h => by rw [h]) rfl as

theorem curHigh_run (as : List Access) : (run step new as).curHigh = latest curHighInd as := by
  rw [observe_latest curHigh curHigh_step new as, observe_through]
  rfl

theorem curLow_run (as : List Access) : (run step new as).curLow = latest curLowInd as := by
  rw [observe_latest curLow curLow_step new as, observe_through]
  rfl

theorem cursorPosition_toNat (v : VGAController) :
    v.cursorPosition.toNat = 256 * v.curHigh.toNat + v.curLow.toNat := by
  have hhigh := v.curHigh.toNat_lt
  have hlow := v.curLow.toNat_lt
  simp only [cursorPosition, UInt16.toNat_add, UInt16.toNat_shiftLeft, UInt8.toNat_toUInt16,
    UInt16.reduceToNat, Nat.reduceMod, Nat.shiftLeft_eq]
  omega

/-- After every sequence of accesses: the cursor is made of the bytes the guest wrote last
through the indexes `0x0e` and `0x0f`, whatever was written or read between, and a read
at any port returns what was last written through the index that is selected. -/
theorem cursor_registers (as : List Access) :
    (run step new as).cursorPosition.toNat =
      256 * (latest curHighInd as).toNat + (latest curLowInd as).toNat ∧
    ∀ addr, ((run step new as).readRegByte addr).2 = wanted as addr := by
  refine ⟨?_, fun addr => ?_⟩
  · rw [cursorPosition_toNat, curHigh_run, curLow_run]
  · simp only [readRegByte, wanted, IND_run, curHigh_run, curLow_run]
    by_cases hdat : addr = datAddr
    · subst hdat
      rw [if_neg (show datAddr ≠ indAddr by decide), if_neg (show datAddr ≠ indAddr by decide)]
      simp only [true_and, if_true]
      split_ifs <;> rfl
    · simp only [hdat, false_and, if_false]
      split_ifs <;> rfl

end VGAController
end EndlessFault
