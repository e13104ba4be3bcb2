import EndlessFault.Frontend.PCIDevice
import EndlessFault.Lib.Machine

/- The PCI host bridge (`frontend/pci_host.cpp`): the configuration address port
   `CAP` and the data port `CDP`, through which the guest reaches the configuration
   space of the connected devices. A long write of `CAP` decodes the bus, device,
   function and offset it names (`prepare_data`); the accesses at `CDP` and the
   three ports after it use the decoded numbers.

   The decoded numbers are members the constructor leaves unset, so they are
   whatever the memory held until `CAP` is first written; the array is then indexed
   by such a number, and a slot past its end is no device here.

   Of the six accesses at the data port only the word read looks at the bus
   number. -/
namespace EndlessFault

structure PciHost where
  CAP : UInt32
  deviceNumber : UInt32
  busNumber : UInt32
  functionNumber : UInt32
  offsetNumber : UInt32
  devices : Vector (Option PCIDevice) 32

namespace PciHost

def capAddr : UInt16 := 0x0CF8
def cdpAddr : UInt16 := 0x0CFC

/-- What the members the constructor does not set happen to hold. -/
structure Unset where
  deviceNumber : UInt32
  busNumber : UInt32
  functionNumber : UInt32
  offsetNumber : UInt32

/-- One round of the loop that moves the connected devices to the front. -/
def connect : Vector (Option PCIDevice) 32 × Nat → Option PCIDevice →
    Vector (Option PCIDevice) 32 × Nat
  | (devices, connected), none => (devices, connected)
  | (devices, connected), some p => (devices.setIfInBounds connected (some p), connected + 1)

/-- The base address registers of a PCI-ATA device. -/
def initBars (p : PCIDevice) : PCIDevice :=
  if p.getClassCode = 0x010100 then (p.setBar 0x01F0 0).setBar 0x03F6 1 else p

/-- The constructor. It clears `CAP` and does not decode it. When any device is connected it
logs the identifiers of the first two, so a host with exactly one cannot be built. -/
def new (connectedPCIDevices : Vector (Option PCIDevice) 32) (unset : Unset) : PciHost :=
  let (devices, _) := connectedPCIDevices.toList.foldl connect (Vector.replicate 32 none, 0)
  { CAP := 0
    deviceNumber := unset.deviceNumber
    busNumber := unset.busNumber
    functionNumber := unset.functionNumber
    offsetNumber := unset.offsetNumber
    -- the slots behind the connected ones are empty
    devices := devices.map (Option.map initBars) }

/-- The devices as the machine connects them, but for the contents of their registers. -/
def twoDevices : Vector (Option PCIDevice) 32 :=
  Vector.ofFn fun i => if i < 2 then some ⟨Vector.replicate 192 0⟩ else none

def prepareData (h : PciHost) : PciHost := { h with
  busNumber := (h.CAP >>> 16) &&& 0x000000FF
  deviceNumber := (h.CAP >>> 11) &&& 0x0000001F
  functionNumber := (h.CAP >>> 8) &&& 0x00000007
  offsetNumber := h.CAP &&& 0x000000FF }

/-- The device in a slot. -/
def slot (h : PciHost) (n : Nat) : Option PCIDevice := h.devices[n]?.join

/-- The device an access at the data port reaches: just one function. -/
def target (h : PciHost) : Option PCIDevice :=
  if h.functionNumber ≠ 0 then none else h.slot h.deviceNumber.toNat

/-- `offset_number + addr-CDP_addr`. -/
def offset (h : PciHost) (addr : UInt16) : UInt32 :=
  h.offsetNumber + addr.toUInt32 - cdpAddr.toUInt32

/-- The selected device replaced by what an access made of it. -/
def update (h : PciHost) (p : PCIDevice) : PciHost :=
  { h with devices := h.devices.setIfInBounds h.deviceNumber.toNat (some p) }

def writeRegLong (h : PciHost) (addr : UInt16) (val : UInt32) : PciHost :=
  if addr = capAddr then prepareData { h with CAP := val }
  else match h.target with
    | none => h
    | some p => h.update (p.writeRegLongPCI (h.offset addr) val)

def writeRegWord (h : PciHost) (addr : UInt16) (val : UInt16) : PciHost :=
  if addr = capAddr then h
  else match h.target with
    | none => h
    | some p => h.update (p.writeRegWordPCI (h.offset addr) val)

def writeRegByte (h : PciHost) (addr : UInt16) (val : UInt8) : PciHost :=
  if addr = capAddr then h
  else match h.target with
    | none => h
    | some p => h.update (p.writeRegBytePCI (h.offset addr) val)

def readRegLong (h : PciHost) (addr : UInt16) : UInt32 :=
  if addr = capAddr then h.CAP
  else match h.target with
    | none => 0xFFFFFFFF
    | some p => p.readRegLongPCI (h.offset addr)

def readRegByte (h : PciHost) (addr : UInt16) : UInt8 :=
  if addr = capAddr then 0xFF
  else match h.target with
    | none => 0xFF
    | some p => p.readRegBytePCI (h.offset addr)

/-- The word read alone also asks for bus 0. -/
def readRegWord (h : PciHost) (addr : UInt16) : UInt16 :=
  if addr = capAddr then 0xFFFF
  else if h.busNumber ≠ 0 then 0xFFFF
  else match h.target with
    | none => 0xFFFF
    | some p => p.readRegWordPCI (h.offset addr)

/-- One guest access. -/
inductive Access where
  | readByte (addr : UInt16)
  | readWord (addr : UInt16)
  | readLong (addr : UInt16)
  | writeByte (addr : UInt16) (val : UInt8)
  | writeWord (addr : UInt16) (val : UInt16)
  | writeLong (addr : UInt16) (val : UInt32)
  deriving DecidableEq, Repr

/-- The state after one access. -/
def step (h : PciHost) : Access → PciHost
  | .writeByte addr val => h.writeRegByte addr val
  | .writeWord addr val => h.writeRegWord addr val
  | .writeLong addr val => h.writeRegLong addr val
  | _ => h

/-- The number a read returns to the guest. -/
def reply (h : PciHost) : Access → List Nat
  | .readByte addr => [(h.readRegByte addr).toNat]
  | .readWord addr => [(h.readRegWord addr).toNat]
  | .readLong addr => [(h.readRegLong addr).toNat]
  | _ => []

end PciHost
end EndlessFault
