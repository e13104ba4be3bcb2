import EndlessFault.Gdbserver.Packet
import EndlessFault.GuestMemory

/- The commands of the gdb stub (`gdbserver_handle_exception`): the dispatch on
   one received packet, with the register cache, the guest memory and the reply
   it leaves in `remcomOutBuffer`.

   Conventions of the embedding:
   - a `char *` that is only read is the function from the index to the byte
     there, and `after` is what lies behind `remcomInBuffer`;
   - an `int` is kept as its 32 bits while digits are shifted in and read as
     signed (`asInt`) where it is used;
   - `reloads` lists the caches handed to `kvm_load_registers_from_gdbcache`,
     oldest first;
   - `loads` and `stores` are the bytes of the monitor's address space that a
     command touches through `guest_physical_memory`, and the bytes it leaves
     from the start of `remcomOutBuffer` on are listed with their NUL, so that
     one past the 400th is seen. -/
namespace EndlessFault.Gdbserver
open Lib.Bytes

abbrev numRegs : Nat := 24

structure Stub where
  inBuffer : PacketBuffer
  registers : Vector UInt64 numRegs
  extendedRegisters : Vector UInt64 5
  memory : Memory
  remoteDebug : Bool
  reloads : List (Vector UInt64 numRegs)

/-! Conversions. -/

/-- `count` bytes from `mem` on as hex characters, with the final NUL. -/
def mem2hex (mem : Nat → UInt8) (count : Int) : List UInt8 :=
  (List.range count.toNat).flatMap (fun i => hexPair (mem i)) ++ [0]

/-- The `count` bytes spelled by the hex characters from `buf` on. -/
def hex2mem (buf : Nat → UInt8) (count : Int) : List UInt8 :=
  (List.range count.toNat).map fun i =>
    UInt8.ofInt (hex (buf (2 * i)) * 16) + UInt8.ofInt (hex (buf (2 * i + 1)))

/-- The loop of `hexToInt` over the string at `*ptr`. -/
def hexToIntLoop (numChars : Nat) (intValue : UInt32) : List UInt8 → Nat × UInt32
  | [] => (numChars, intValue)
  | ch :: str =>
    if hex ch ≥ 0 then
      hexToIntLoop (numChars + 1) ((intValue <<< 4) ||| UInt32.ofNat (hex ch).toNat) str
    else (numChars, intValue)

/-- The number of characters read, by which `*ptr` moves, and the value. -/
def hexToInt (str : List UInt8) : Nat × UInt32 := hexToIntLoop 0 0 str

/-- The `int` with the bits of `v`. -/
def asInt (v : UInt32) : Int := if v.toNat < 2^31 then v.toNat else v.toNat - 2^32

/-! The register cache as bytes. -/

def registerByte (registers : Vector UInt64 numRegs) (i : Nat) : UInt8 :=
  UInt8.ofNat ((registers[i / 8]?.getD 0).toNat / 2^(8 * (i % 8)))

def registerOfBytes (bytes : List UInt8) : UInt64 :=
  UInt64.ofNat (leNat (bytes.take 8))

def registersOfBytes (bytes : List UInt8) : Vector UInt64 numRegs :=
  Vector.ofFn fun r => registerOfBytes (bytes.drop (8 * r.val))

/-- A value as `%016lx` prints it. -/
def printHex (v : UInt64) : List UInt8 :=
  (List.range 16).map fun i => hexchars.getD (v.toNat / 16^(15 - i) % 16) 0

/-! One command. -/

/-- What follows a command: a reply, a return to the guest (stepping or not), or
the end of the monitor. -/
inductive Action where
  | reply (stored : List UInt8)
  | resume (step : Bool)
  | kill

structure Outcome where
  stub : Stub
  action : Action
  loads : List Int := []
  stores : List Int := []

/-- The string `putpacket` sends after a command. -/
def Outcome.sent (o : Outcome) : Option (List UInt8) :=
  match o.action with
  | .reply stored => some (stored.takeWhile (· != 0))
  | _ => none

/-- The bytes left in `remcomOutBuffer` and behind it. -/
def Outcome.stored (o : Outcome) : List UInt8 :=
  match o.action with
  | .reply stored => stored
  | _ => []

def ok : List UInt8 := [ascii 'O', ascii 'K', 0]
def e01 : List UInt8 := [ascii 'E', ascii '0', ascii '1', 0]
def e02 : List UInt8 := [ascii 'E', ascii '0', ascii '2', 0]

namespace Stub

def reply (s : Stub) (stored : List UInt8) : Outcome where
  stub := s
  action := .reply stored

variable (after : Nat → UInt8)

/-- The byte at offset `i` from `remcomInBuffer`. -/
def inByte (s : Stub) (i : Nat) : UInt8 := if h : i < 400 then s.inBuffer[i] else after i

def kvmLoadRegistersFromGdbcache (s : Stub) : Stub := { s with reloads := s.reloads ++ [s.registers] }

def setRegisters (s : Stub) (ptr : Nat) : Outcome :=
  let bytes := hex2mem (fun i => s.inByte after (ptr + i)) (numRegs * 8)
  (kvmLoadRegistersFromGdbcache { s with registers := registersOfBytes bytes }).reply ok

def readRegister (s : Stub) (ptr : Nat) : Outcome :=
  let (n, regno) := hexToInt (cString s.inBuffer ptr)
  if n ≠ 0 ∧ 0 ≤ asInt regno ∧ asInt regno < numRegs then
    s.reply (mem2hex (fun i => registerByte s.registers (8 * (asInt regno).toNat + i)) 8)
  else s.reply e01

def writeRegister (s : Stub) (ptr : Nat) : Outcome :=
  let (n, regno) := hexToInt (cString s.inBuffer ptr)
  if n ≠ 0 ∧ s.inByte after (ptr + n) = ascii '=' ∧ 0 ≤ asInt regno ∧ asInt regno < numRegs then
    let bytes := hex2mem (fun i => s.inByte after (ptr + n + 1 + i)) 8
    let registers := s.registers.setIfInBounds (asInt regno).toNat (registerOfBytes bytes)
    (kvmLoadRegistersFromGdbcache { s with registers := registers }).reply ok
  else s.reply e01

/-- Neither the address nor the length is compared with anything. -/
def readMemory (s : Stub) (ptr : Nat) : Outcome :=
  let (n, addr) := hexToInt (cString s.inBuffer ptr)
  let (m, length) := hexToInt (cString s.inBuffer (ptr + n + 1))
  if n ≠ 0 ∧ s.inByte after (ptr + n) = ascii ',' ∧ m ≠ 0 then
    { s.reply (mem2hex (fun i => s.memory (asInt addr + i)) (asInt length)) with
      loads := Memory.offsets (asInt addr) (asInt length).toNat }
  else s.reply e01

def writeMemory (s : Stub) (ptr : Nat) : Outcome :=
  let (n, addr) := hexToInt (cString s.inBuffer ptr)
  let (m, length) := hexToInt (cString s.inBuffer (ptr + n + 1))
  if n ≠ 0 ∧ s.inByte after (ptr + n) = ascii ',' ∧ m ≠ 0 ∧
      s.inByte after (ptr + n + 1 + m) = ascii ':' then
    let bytes := hex2mem (fun i => s.inByte after (ptr + n + 1 + m + 1 + i)) (asInt length)
    { reply { s with memory := s.memory.store (asInt addr) bytes } ok with
      stores := Memory.offsets (asInt addr) (asInt length).toNat }
  else s.reply e02

def qRcmd : List UInt8 := ['q', 'R', 'c', 'm', 'd', ','].map ascii
def regs : List UInt8 := ['r', 'e', 'g', 's'].map ascii

/-- The text of the custom command `regs`; `snprintf` cuts it at 199 characters. -/
def privilegedRegisters (s : Stub) : List UInt8 :=
  let line (name : String) (r : Nat) :=
    name.toList.map ascii ++ printHex (s.extendedRegisters[r]?.getD 0) ++ [ascii '\n']
  ("Privileged Registers (Custom command):\n".toList.map ascii ++ line "CR4 0x" 0 ++
    line "CR3 0x" 1 ++ line "CR2 0x" 2 ++ line "CR0 0x" 3 ++ line "EFER 0x" 4).take 199

def advancedCommand (s : Stub) (ptr : Nat) : Outcome :=
  let command := hex2mem (fun i => s.inByte after (ptr + qRcmd.length + i)) 4
  if command.takeWhile (· != 0) = regs then
    let response := s.privilegedRegisters
    s.reply (mem2hex (fun i => response.getD i 0) response.length)
  else s.reply [0]

/-- The body of the command loop on the packet at `ptr`, up to the reply. The
first byte of `remcomOutBuffer` is cleared before it, so that an unknown command
gets an empty reply. -/
def handle (sigval : Nat) (s : Stub) (ptr : Nat) : Outcome :=
  if qRcmd.isPrefixOf (cString s.inBuffer ptr) then s.advancedCommand after ptr
  else
    let ch := s.inByte after ptr
    if ch = ascii '?' then
      s.reply [ascii 'S', hexchars.getD (sigval / 16) 0, hexchars.getD (sigval % 16) 0, 0]
    else if ch = ascii 'd' then reply { s with remoteDebug := !s.remoteDebug } [0]
    else if ch = ascii 'g' then s.reply (mem2hex (registerByte s.registers) (numRegs * 8))
    else if ch = ascii 'G' then s.setRegisters after (ptr + 1)
    else if ch = ascii 'p' then s.readRegister (ptr + 1)
    else if ch = ascii 'P' then s.writeRegister after (ptr + 1)
    else if ch = ascii 'm' then s.readMemory after (ptr + 1)
    else if ch = ascii 'M' then s.writeMemory after (ptr + 1)
    else if ch = ascii 's' then { stub := s, action := .resume true }
    else if ch = ascii 'c' then { stub := s, action := .resume false }
    else if ch = ascii 'k' then { stub := s, action := .kill }
    else s.reply [0]

end Stub
end EndlessFault.Gdbserver
