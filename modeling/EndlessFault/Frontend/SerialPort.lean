import Mathlib.Tactic.SplitIfs
import EndlessFault.Lib.Machine

/- A serial port (`frontend/serial_port.cpp`): twelve byte registers at eight ports from a
   base address on, the address of a register being computed modulo `2^16`. Several of
   them share a port; which one an access reaches is decided by the order of the
   comparisons. What is written to the transmitter goes to the log.

   A write stores the address it was made at where it should store the value, so the
   interrupt enable, line control, modem control and scratch registers read back as the
   low byte of their own port once they have been written (`register_run`). `HoldsWritten`
   is what is wanted of a sequence of accesses, and it is met exactly when the value
   written last before each read happens to be that byte. Main result:
   `holds_written_iff`. -/
namespace EndlessFault
open Lib.Machine

structure SerialPort where
  THR : UInt8
  RBR : UInt8
  DLL : UInt8
  IER : UInt8
  DLH : UInt8
  IIR : UInt8
  FCR : UInt8
  LCR : UInt8
  MCR : UInt8
  LSR : UInt8
  MSR : UInt8
  SR : UInt8
  baseAddr : UInt16
  /-- The characters sent to the log, oldest first. -/
  logg : List UInt8

namespace SerialPort

def new (baseAddr : UInt16) : SerialPort where
  THR := 0
  RBR := 0
  DLL := 0
  IER := 0
  DLH := 0
  IIR := 0
  FCR := 0
  LCR := 0
  MCR := 0
  LSR := 0
  MSR := 0
  SR := 0
  baseAddr := baseAddr
  logg := []

def thrAddr (s : SerialPort) : UInt16 := s.baseAddr + 0x0
def rbrAddr (s : SerialPort) : UInt16 := s.baseAddr + 0x0
def dllAddr (s : SerialPort) : UInt16 := s.baseAddr + 0x0
def ierAddr (s : SerialPort) : UInt16 := s.baseAddr + 0x1
def dlhAddr (s : SerialPort) : UInt16 := s.baseAddr + 0x1
def iirAddr (s : SerialPort) : UInt16 := s.baseAddr + 0x2
def fcrAddr (s : SerialPort) : UInt16 := s.baseAddr + 0x2
def lcrAddr (s : SerialPort) : UInt16 := s.baseAddr + 0x3
def mcrAddr (s : SerialPort) : UInt16 := s.baseAddr + 0x4
def lsrAddr (s : SerialPort) : UInt16 := s.baseAddr + 0x5
def msrAddr (s : SerialPort) : UInt16 := s.baseAddr + 0x6
def srAddr (s : SerialPort) : UInt16 := s.baseAddr + 0x7

/-- Each branch stores `addr`, not `val`. -/
def writeRegByte (s : SerialPort) (addr : UInt16) (val : UInt8) : SerialPort :=
  if addr = s.thrAddr then { s with logg := s.logg ++ [val], THR := addr.toUInt8 }
  else if addr = s.dllAddr then { s with DLL := addr.toUInt8 }
  else if addr = s.ierAddr then { s with IER := addr.toUInt8 }
  else if addr = s.dlhAddr then { s with DLH := addr.toUInt8 }
  else if addr = s.fcrAddr then { s with FCR := addr.toUInt8 }
  else if addr = s.lcrAddr then { s with LCR := addr.toUInt8 }
  else if addr = s.mcrAddr then { s with MCR := addr.toUInt8 }
  else if addr = s.srAddr then { s with SR := addr.toUInt8 }
  else s

def readRegByte (s : SerialPort) (addr : UInt16) : SerialPort × UInt8 :=
  if addr = s.rbrAddr then (s, s.RBR)
  else if addr = s.dllAddr then (s, s.DLL)
  else if addr = s.ierAddr then (s, s.IER)
  else if addr = s.dlhAddr then (s, s.DLH)
  else if addr = s.iirAddr then (s, s.IIR)
  else if addr = s.lcrAddr then (s, s.LCR)
  else if addr = s.mcrAddr then (s, s.MCR)
  else if addr = s.lsrAddr then
    -- the port always seems ready to take a character
    ({ s with LSR := s.LSR ||| 0x20 }, s.LSR ||| 0x20)
  else if addr = s.msrAddr then (s, s.MSR)
  else if addr = s.srAddr then (s, s.SR)
  else (s, 0)

inductive Access where
  | readByte (addr : UInt16)
  | writeByte (addr : UInt16) (val : UInt8)
  deriving DecidableEq, Repr

def step (s : SerialPort) : Access → SerialPort
  | .readByte addr => (s.readRegByte addr).1
  | .writeByte addr val => s.writeRegByte addr val

/-! What is wanted. -/

/-- The registers the guest may write and read back. -/
inductive Register where
  | ier
  | lcr
  | mcr
  | sr
  deriving DecidableEq, Repr

def Register.offset : Register → UInt16
  | ier => 1
  | lcr => 3
  | mcr => 4
  | sr => 7

/-- The value an access writes to a port. -/
def Access.written (addr : UInt16) : Access → Option UInt8
  | readByte _ => none
  | writeByte a val => if a = addr then some val else none

/-- The values a sequence of accesses writes to a port. -/
def writtenTo (addr : UInt16) (as : List Access) : List UInt8 := as.filterMap (Access.written addr)

/-- The log has what was written to the transmitter, and each read of one of the four
registers returns what was written to it last. -/
structure HoldsWritten (baseAddr : UInt16) (as : List Access) : Prop where
  log : (run step (new baseAddr) as).logg = writtenTo baseAddr as
  reads : ∀ (before after : List Access) (r : Register),
    as = before ++ .readByte (baseAddr + r.offset) :: after →
    ((run step (new baseAddr) before).readRegByte (baseAddr + r.offset)).2 =
      (writtenTo (baseAddr + r.offset) before).getLast?.getD 0

/-! One access. -/

/-- What a register holds. -/
def register (s : SerialPort) : Register → UInt8
  | .ier => s.IER
  | .lcr => s.LCR
  | .mcr => s.MCR
  | .sr => s.SR

section
variable (s : SerialPort)

/-- The other registers of a port are at other addresses. -/
theorem addr_ne {j k : UInt16} (h : j ≠ k) : ¬ s.baseAddr + j = s.baseAddr + k := by
  rw [UInt16.add_right_inj]
  exact h

/-- A write to a register leaves the address there. -/
theorem register_write_same (val : UInt8) (r : Register) :
    (s.writeRegByte (s.baseAddr + r.offset) val).register r = (s.baseAddr + r.offset).toUInt8 := by
  unfold writeRegByte thrAddr dllAddr ierAddr dlhAddr fcrAddr lcrAddr mcrAddr srAddr
  cases r with
  | ier =>
    iterate 2 rw [if_neg (s.addr_ne (by decide))]
    exact congrArg (register · .ier) (if_pos rfl)
  | lcr =>
    iterate 5 rw [if_neg (s.addr_ne (by decide))]
    exact congrArg (register · .lcr) (if_pos rfl)
  | mcr =>
    iterate 6 rw [if_neg (s.addr_ne (by decide))]
    exact congrArg (register · .mcr) (if_pos rfl)
  | sr =>
    iterate 7 rw [if_neg (s.addr_ne (by decide))]
    exact congrArg (register · .sr) (if_pos rfl)

/-- A write elsewhere leaves a register alone. -/
theorem register_write_other {addr : UInt16} (val : UInt8) {r : Register}
    (h : addr ≠ s.baseAddr + r.offset) : (s.writeRegByte addr val).register r = s.register r := by
  unfold writeRegByte
  cases r with
  | ier =>
    rw [if_neg (show ¬ addr = s.ierAddr from h)]
    iterate 7 refine of_branches (register · .ier) rfl ?_
    rfl
  | lcr =>
    rw [if_neg (show ¬ addr = s.lcrAddr from h)]
    iterate 7 refine of_branches (register · .lcr) rfl ?_
    rfl
  | mcr =>
    rw [if_neg (show ¬ addr = s.mcrAddr from h)]
    iterate 7 refine of_branches (register · .mcr) rfl ?_
    rfl
  | sr =>
    rw [if_neg (show ¬ addr = s.srAddr from h)]
    iterate 7 refine of_branches (register · .sr) rfl ?_
    rfl

theorem logg_write (addr : UInt16) (val : UInt8) :
    (s.writeRegByte addr val).logg = s.logg ++ if addr = s.baseAddr then [val] else [] := by
  have hthr : s.thrAddr = s.baseAddr := UInt16.add_zero _
  unfold writeRegByte
  rw [hthr]
  by_cases h : addr = s.baseAddr
  · rw [if_pos h, if_pos h]
  · rw [if_neg h, if_neg h, List.append_nil]
    iterate 7 refine of_branches logg rfl ?_
    rfl

theorem baseAddr_write (addr : UInt16) (val : UInt8) : (s.writeRegByte addr val).baseAddr = s.baseAddr := by
  unfold writeRegByte
  iterate 8 refine of_branches baseAddr rfl ?_
  rfl

/-- A read returns what the register holds. -/
theorem read_register (r : Register) : (s.readRegByte (s.baseAddr + r.offset)).2 = s.register r := by
  unfold readRegByte rbrAddr dllAddr ierAddr dlhAddr iirAddr lcrAddr mcrAddr lsrAddr msrAddr srAddr
  cases r with
  | ier =>
    iterate 2 rw [if_neg (s.addr_ne (by decide))]
    exact congrArg Prod.snd (if_pos rfl)
  | lcr =>
    iterate 5 rw [if_neg (s.addr_ne (by decide))]
    exact congrArg Prod.snd (if_pos rfl)
  | mcr =>
    iterate 6 rw [if_neg (s.addr_ne (by decide))]
    exact congrArg Prod.snd (if_pos rfl)
  | sr =>
    iterate 9 rw [if_neg (s.addr_ne (by decide))]
    exact congrArg Prod.snd (if_pos rfl)

/-- Everything but the line status. -/
def besidesLSR : SerialPort := { s with LSR := 0 }

/-- A read changes the line status at most. -/
theorem read_keeps (addr : UInt16) : (s.readRegByte addr).1.besidesLSR = s.besidesLSR := by
  unfold readRegByte
  iterate 10 refine of_branches (fun r : SerialPort × UInt8 => r.1.besidesLSR) rfl ?_
  rfl

theorem baseAddr_step (a : Access) : (s.step a).baseAddr = s.baseAddr := by
  cases a with
  | readByte addr =>
    have hkeep := congrArg baseAddr (s.read_keeps addr)
    exact hkeep
  | writeByte addr val => exact s.baseAddr_write addr val

/-- What one access makes of a register. -/
theorem register_step (a : Access) (r : Register) : (s.step a).register r =
    ((a.written (s.baseAddr + r.offset)).map fun _ => (s.baseAddr + r.offset).toUInt8).getD (s.register r) := by
  cases a with
  | readByte addr =>
    have hkeep := congrArg (register · r) (s.read_keeps addr)
    cases r <;> exact hkeep
  | writeByte addr val =>
    rw [Access.written]
    split_ifs with h
    · rw [h]
      exact s.register_write_same val r
    · exact s.register_write_other val h

theorem logg_step (a : Access) : (s.step a).logg = s.logg ++ (a.written s.baseAddr).toList := by
  cases a with
  | readByte addr =>
    have hkeep := congrArg logg (s.read_keeps addr)
    exact hkeep.trans (List.append_nil _).symm
  | writeByte addr val =>
    rw [step, logg_write, Access.written]
    split_ifs <;> rfl

end

/-! Whole runs. -/

theorem baseAddr_run (s : SerialPort) (as : List Access) : (run step s as).baseAddr = s.baseAddr :=
  run_invariant (fun t : SerialPort => t.baseAddr = s.baseAddr) (fun _ => True)
    (fun t a _ ht => (t.baseAddr_step a).trans ht) rfl fun _ _ => trivial

theorem logg_run (s : SerialPort) (as : List Access) :
    (run step s as).logg = s.logg ++ writtenTo s.baseAddr as := by
  induction as generalizing s with
  | nil => exact (List.append_nil _).symm
  | cons a as ih =>
    rw [run_cons, ih, logg_step, baseAddr_step, writtenTo, writtenTo, List.filterMap_cons]
    cases a.written s.baseAddr with
    | none => rw [Option.toList_none, List.append_nil]
    | some val => rw [List.append_assoc]; rfl

/-- A register that has been written holds the low byte of its own address. -/
theorem register_run (s : SerialPort) (as : List Access) (r : Register) : (run step s as).register r =
    ((writtenTo (s.baseAddr + r.offset) as).getLast?.map fun _ => (s.baseAddr + r.offset).toUInt8).getD
      (s.register r) := by
  induction as generalizing s with
  | nil => rfl
  | cons a as ih =>
    rw [run_cons, ih, register_step, baseAddr_step, writtenTo, writtenTo, List.filterMap_cons]
    cases a.written (s.baseAddr + r.offset) with
    | none => rfl
    | some val =>
      rw [List.getLast?_cons]
      cases (as.filterMap (Access.written (s.baseAddr + r.offset))).getLast? <;> rfl

/-- For every base address and every sequence of accesses: the log has what was written,
and the four registers read back as written, if and only if at each read of one of them
the value written to it last, if there is one, is the low byte of its own address. -/
theorem holds_written_iff (baseAddr : UInt16) (as : List Access) :
    HoldsWritten baseAddr as ↔
      ∀ (before after : List Access) (r : Register),
        as = before ++ .readByte (baseAddr + r.offset) :: after →
        ∀ val ∈ (writtenTo (baseAddr + r.offset) before).getLast?, val = (baseAddr + r.offset).toUInt8 := by
  have hread : ∀ (before : List Access) (r : Register),
      ((run step (new baseAddr) before).readRegByte (baseAddr + r.offset)).2 =
        ((writtenTo (baseAddr + r.offset) before).getLast?.map fun _ =>
          (baseAddr + r.offset).toUInt8).getD 0 := by
    intro before r
    have hbase : (run step (new baseAddr) before).baseAddr = baseAddr := baseAddr_run _ before
    have hzero : (new baseAddr).register r = 0 := by cases r <;> rfl
    have hrun := register_run (new baseAddr) before r
    rw [← read_register, hbase, hzero] at hrun
    exact hrun
  refine ⟨?_, ?_⟩
  · intro h before after r has val hval
    have hsame := h.reads before after r has
    rw [hread, Option.mem_def.mp hval] at hsame
    exact hsame.symm
  · intro h
    refine ⟨logg_run (new baseAddr) as, ?_⟩
    intro before after r has
    rw [hread]
    cases hlast : (writtenTo (baseAddr + r.offset) before).getLast? with
    | none => rfl
    | some val => exact (h before after r has val hlast).symm

/-- The scratch register of the first port, written with 0x55 and read back: 0xFF, the low
byte of 0x3FF. -/
theorem scratch_reads_address :
    let as : List Access := [.writeByte 0x3FF 0x55, .readByte 0x3FF]
    ((run step (new 0x3F8) [.writeByte 0x3FF 0x55]).readRegByte 0x3FF).2 = 0xFF ∧
    ¬ HoldsWritten 0x3F8 as := by
  intro as
  have hread : ((run step (new 0x3F8) [.writeByte 0x3FF 0x55]).readRegByte 0x3FF).2 = 0xFF := by decide
  refine ⟨hread, ?_⟩
  intro h
  have hsame := h.reads [.writeByte 0x3FF 0x55] [] .sr rfl
  exact absurd hsame (by decide)

end SerialPort
end EndlessFault
