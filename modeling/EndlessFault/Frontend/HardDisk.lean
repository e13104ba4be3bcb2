import EndlessFault.Backend.DiskManager
import EndlessFault.Lib.Machine

/- The emulated hard disk (`frontend/HardDisk.cpp`): the ATA register file, the
   512-byte staging buffer behind the data register `BR`, and the sector
   transfers to and from the back end. Every member function is here in the
   order of the source; a guest access is an `Access` and `step` dispatches it
   as `read_reg_byte`, `write_reg_byte`, `read_reg_word` and `write_reg_word` do.

   Conventions of the embedding:
   - the `int` members `sector_numbers_cmd` and `current_sector_number` are only
     incremented, compared for equality and added to the 32-bit `lba`, so they
     are 32-bit words;
   - `new_buffer` is never initialised by the constructor: it is an `Option`,
     holding the offset in `internal_buffer` it points at;
   - a load through an unset pointer, or past the buffer, yields whatever the
     host memory holds there: the parameter `wild`, indexed by the word loaded;
   - `irq` lists the levels passed to `set_IRQline(INT_IDE_HDD, ·)`, oldest
     first. -/
namespace EndlessFault
open Lib.Bytes

structure HardDisk where
  BR : UInt16
  SCR : UInt8
  SNR : UInt8
  CNH : UInt8
  CNL : UInt8
  HND : UInt8
  ERR : UInt8
  STS : UInt8
  CMD : UInt8
  DCR : UInt8
  DAR : UInt8
  ASR : UInt8
  interruptEnabled : Bool
  internalBuffer : Block
  newBuffer : Option Nat
  currentPosition : Nat
  sectorNumbersCmd : UInt32
  currentSectorNumber : UInt32
  lba : UInt32
  diskManager : DiskManager
  interruptRaised : Bool
  irq : List UInt16

namespace HardDisk

def brAddr : UInt16 := 0x01F0
def errAddr : UInt16 := 0x01F1
def scrAddr : UInt16 := 0x01F2
def snrAddr : UInt16 := 0x01F3
def cnlAddr : UInt16 := 0x01F4
def cnhAddr : UInt16 := 0x01F5
def hndAddr : UInt16 := 0x01F6
def cmdAddr : UInt16 := 0x01F7
def stsAddr : UInt16 := 0x01F7
def dcrAddr : UInt16 := 0x03F6
def asrAddr : UInt16 := 0x03F6
def darAddr : UInt16 := 0x03F7

def busyMask : UInt8 := 0x80
def drqMask : UInt8 := 0x08

/-- The constructor. `buffer` is what the uninitialised `internal_buffer`
holds, `fill` what the uninitialised buffer of `build_disk` holds. -/
def new (buffer fill : Block) (numSector : UInt32) (file : Option (List UInt8)) : HardDisk where
  BR := 0
  SCR := 0
  SNR := 0
  CNH := 0
  CNL := 0
  HND := 0
  ERR := 0
  STS := 0
  CMD := 0
  DCR := 0x02
  DAR := 0
  ASR := 0
  interruptEnabled := false
  internalBuffer := buffer
  newBuffer := none
  currentPosition := 0
  sectorNumbersCmd := 0
  currentSectorNumber := 0
  lba := 0
  diskManager := DiskManager.new fill numSector file
  interruptRaised := false
  irq := []

/-- `set_IRQline(INT_IDE_HDD, level)`. -/
def setIRQline (d : HardDisk) (level : UInt16) : HardDisk := { d with irq := d.irq ++ [level] }

def computeLba (d : HardDisk) : UInt32 :=
  ((d.HND.toUInt32 <<< 24) + (d.CNH.toUInt32 <<< 16) + (d.CNL.toUInt32 <<< 8) + d.SNR.toUInt32)
    &&& 0x0FFFFFFF

/-- The interrupt a finished sector raises, when interrupts are enabled. -/
def raiseInterrupt (d : HardDisk) : HardDisk :=
  if d.interruptEnabled then { d.setIRQline 1 with interruptRaised := true } else d

def readFromBackend (d : HardDisk) : HardDisk :=
  raiseInterrupt { d with
    internalBuffer := (d.diskManager.read d.internalBuffer (d.lba + d.currentSectorNumber)).1
    currentSectorNumber := d.currentSectorNumber + 1 }

/-- The address and the count are latched after the switch, so a read command
fetches its first sector before they are. -/
def processCmd (d : HardDisk) : HardDisk :=
  let d :=
    if d.CMD = 0x30 then { d with STS := (d.STS ||| drqMask) &&& ~~~busyMask }
    else if d.CMD = 0x20 then
      readFromBackend { d with STS := (d.STS &&& ~~~busyMask) ||| drqMask }
    else d
  { d with lba := d.computeLba, sectorNumbersCmd := d.SCR.toUInt32 }

def writeBRRegister (d : HardDisk) (val : UInt16) : HardDisk :=
  let buffer := d.internalBuffer.setIfInBounds d.currentPosition (val &&& 0x00FF).toUInt8
  let buffer := buffer.setIfInBounds (d.currentPosition + 1) (val >>> 8).toUInt8
  let d := { d with
    BR := val
    STS := d.STS ||| busyMask
    internalBuffer := buffer
    currentPosition := d.currentPosition + 2 }
  if d.currentPosition ≥ 511 then
    let d := { d with
      currentPosition := 0
      diskManager := (d.diskManager.write d.internalBuffer (d.lba + d.currentSectorNumber)).1
      currentSectorNumber := d.currentSectorNumber + 1
      STS := (d.STS &&& ~~~busyMask) ||| drqMask }
    let d :=
      if d.sectorNumbersCmd = d.currentSectorNumber then { d with STS := d.STS &&& ~~~drqMask }
      else d
    d.raiseInterrupt
  else d

/-- The word `new_buffer[index]`. -/
def loadWord (wild : Nat → UInt16) (buffer : Block) (newBuffer : Option Nat) (index : Nat) :
    UInt16 :=
  match newBuffer with
  | none => wild index
  | some off =>
    if off + 2 * index + 1 < blockSizeByte then wordAt buffer.toList (off + 2 * index)
    else wild index

def readBRRegister (wild : Nat → UInt16) (d : HardDisk) : HardDisk × UInt16 :=
  let d := { d with STS := d.STS ||| busyMask }
  let d := if d.currentPosition = 0 then { d with newBuffer := some 0 } else d
  let d := { d with
    BR := loadWord wild d.internalBuffer d.newBuffer d.currentPosition
    currentPosition := d.currentPosition + 1 }
  let d :=
    if d.currentPosition ≥ blockSizeByte / 2 then
      let d := { d with STS := (d.STS &&& ~~~busyMask) ||| drqMask, currentPosition := 0 }
      if d.sectorNumbersCmd = d.currentSectorNumber then { d with STS := d.STS &&& ~~~drqMask }
      else d.readFromBackend
    else d
  (d, d.BR)

/-- Every write to `DCR` other than 0 disables interrupts; the IRQ line is left alone. -/
def writeDCR (d : HardDisk) (val : UInt8) : HardDisk :=
  if val = 0x02 then { d with DCR := val, interruptEnabled := false, interruptRaised := false }
  else if val = 0x00 then { d with DCR := val, interruptEnabled := true }
  else { d with DCR := 0x02, interruptEnabled := false, interruptRaised := false }

def writeRegByte (d : HardDisk) (addr : UInt16) (val : UInt8) : HardDisk :=
  if addr = scrAddr then { d with SCR := val }
  else if addr = snrAddr then { d with SNR := val }
  else if addr = cnhAddr then { d with CNH := val }
  else if addr = cnlAddr then { d with CNL := val }
  else if addr = hndAddr then { d with HND := val }
  else if addr = cmdAddr then processCmd { d with CMD := val }
  else if addr = dcrAddr then d.writeDCR val
  else d

def readRegByte (d : HardDisk) (addr : UInt16) : HardDisk × UInt8 :=
  if addr = errAddr then (d, d.ERR)
  else if addr = scrAddr then (d, d.SCR)
  else if addr = snrAddr then (d, d.SNR)
  else if addr = cnhAddr then (d, d.CNH)
  else if addr = cnlAddr then (d, d.CNL)
  else if addr = stsAddr then
    (if d.interruptRaised then { d.setIRQline 0 with interruptRaised := false } else d, d.STS)
  else if addr = asrAddr then (d, d.ASR)
  else if addr = darAddr then (d, d.DAR)
  else (d, 0)

def writeRegWord (d : HardDisk) (addr : UInt16) (val : UInt16) : HardDisk :=
  if addr = brAddr then d.writeBRRegister val else d

def readRegWord (wild : Nat → UInt16) (d : HardDisk) (addr : UInt16) : HardDisk × UInt16 :=
  if addr = brAddr then d.readBRRegister wild else (d, 0)

/-- One guest access. -/
inductive Access where
  | readByte (addr : UInt16)
  | writeByte (addr : UInt16) (val : UInt8)
  | readWord (addr : UInt16)
  | writeWord (addr : UInt16) (val : UInt16)
  deriving DecidableEq, Repr

/-- The state after one access. -/
def step (wild : Nat → UInt16) (d : HardDisk) : Access → HardDisk
  | .readByte addr => (d.readRegByte addr).1
  | .writeByte addr val => d.writeRegByte addr val
  | .readWord addr => (d.readRegWord wild addr).1
  | .writeWord addr val => d.writeRegWord addr val

/-- The word a read of the data register returns to the guest. -/
def dataRead (wild : Nat → UInt16) (d : HardDisk) : Access → List UInt16
  | .readWord addr => if addr = brAddr then [(d.readRegWord wild addr).2] else []
  | _ => []

/-- The disk image: the bytes of `disk.bin`. -/
def image (d : HardDisk) : List UInt8 := d.diskManager.file.getD []

/-! The register writes of a command, in the order the target programs make them. -/

/-- The address of sector `lba` and the count `n` into the registers. -/
def setup (lba n : Nat) : List Access :=
  [.writeByte snrAddr (UInt8.ofNat lba),
   .writeByte cnlAddr (UInt8.ofNat (lba / 2^8)),
   .writeByte cnhAddr (UInt8.ofNat (lba / 2^16)),
   .writeByte hndAddr (0xE0 ||| UInt8.ofNat (lba / 2^24)),
   .writeByte scrAddr (UInt8.ofNat n)]

/-- `READ SECTORS` and `WRITE SECTORS`. -/
def readCmd : Access := .writeByte cmdAddr 0x20
def writeCmd : Access := .writeByte cmdAddr 0x30

/-- A byte access that starts no command. -/
def Access.quiet : Access → Bool
  | .readByte _ => true
  | .writeByte addr _ => addr != cmdAddr
  | _ => false

end HardDisk
end EndlessFault
