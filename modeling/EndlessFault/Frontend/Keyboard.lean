import EndlessFault.Lib.Machine
import EndlessFault.Lib.Ring

/- The emulated keyboard (`frontend/keyboard.cpp`): the four registers, the
   16-cell ring buffer between the console thread and the guest, and the
   interrupt line. Every public member function holds the mutex for its whole
   body, so a run is any sequence of whole calls (`Event`).

   Conventions of the embedding:
   - the `short` pointers and count stay between 0 and 16, so they are naturals;
   - a load from the ring buffer outside its 16 cells is 0 here; the pointers
     never leave it;
   - `irq` lists the levels passed to `set_IRQline(INT_KEYBOARD, ·)`, oldest
     first. -/
namespace EndlessFault
open Lib Lib.Machine

abbrev internalBufferSize : Nat := 16

structure Keyboard where
  RBR : UInt8
  TBR : UInt8
  STR : UInt8
  CMR : UInt8
  enabled : Bool
  interruptEnabled : Bool
  internalBuffer : Vector UInt8 internalBufferSize
  bufferHeadPointer : Nat
  bufferTailPointer : Nat
  bufferElementCount : Nat
  interruptRaised : Bool
  irq : List UInt16

namespace Keyboard

def rbrAddr : UInt16 := 0x0060
def tbrAddr : UInt16 := 0x0060
def strAddr : UInt16 := 0x0064
def cmrAddr : UInt16 := 0x0064

def fiMask : UInt8 := 1

/-- The constructor. `buffer` is what the uninitialised `internal_buffer` holds. -/
def new (buffer : Vector UInt8 internalBufferSize) : Keyboard where
  RBR := 0
  TBR := 0
  STR := 0
  CMR := 0
  enabled := false
  interruptEnabled := false
  internalBuffer := buffer
  bufferHeadPointer := 0
  bufferTailPointer := 0
  bufferElementCount := 0
  interruptRaised := false
  irq := []

/-- `set_IRQline(INT_KEYBOARD, level)`. -/
def setIRQline (k : Keyboard) (level : UInt16) : Keyboard := { k with irq := k.irq ++ [level] }

def processCmd (k : Keyboard) : Keyboard :=
  if k.CMR = 0x60 then
    let k := { k with enabled := if k.TBR &&& 0x10 ≠ 0 then false else true }
    if k.TBR &&& 0x01 ≠ 0 then
      let k := { k with interruptEnabled := true }
      -- keycodes queued while interrupts were disabled
      if k.bufferElementCount ≠ 0 ∧ k.interruptRaised = false then
        { k.setIRQline 1 with interruptRaised := true }
      else k
    else { k with interruptEnabled := false }
  else k

def nextRBR (k : Keyboard) : Keyboard :=
  if k.bufferElementCount ≠ 0 then { k with
    RBR := k.internalBuffer[k.bufferTailPointer]?.getD 0
    bufferTailPointer := (k.bufferTailPointer + 1) % internalBufferSize
    bufferElementCount := k.bufferElementCount - 1 }
  else k

def updateFI (k : Keyboard) (insert : Bool) : Keyboard :=
  let k := if insert then k else { k.setIRQline 0 with interruptRaised := false }
  if k.bufferElementCount ≠ 0 then
    let k := { k with STR := k.STR ||| fiMask }
    if k.interruptEnabled then { k.setIRQline 1 with interruptRaised := true } else k
  else
    let k := { k with STR := k.STR &&& ~~~fiMask }
    if k.interruptRaised then { k.setIRQline 0 with interruptRaised := false } else k

def writeRegByte (k : Keyboard) (addr : UInt16) (val : UInt8) : Keyboard :=
  if addr = cmrAddr then { k with CMR := val }
  else if addr = tbrAddr then processCmd { k with TBR := val }
  else k

def readRegByte (k : Keyboard) (addr : UInt16) : Keyboard × UInt8 :=
  if addr = rbrAddr then
    let k := k.nextRBR
    (k.updateFI false, k.RBR)
  else if addr = strAddr then (k, k.STR)
  else (k, 0)

def insertKeycodeEvent (k : Keyboard) (keycode : UInt8) : Keyboard :=
  if k.enabled = false then k
  else if k.bufferElementCount = internalBufferSize then k
  else
    updateFI { k with
      internalBuffer := k.internalBuffer.setIfInBounds k.bufferHeadPointer keycode
      bufferHeadPointer := (k.bufferHeadPointer + 1) % internalBufferSize
      bufferElementCount := k.bufferElementCount + 1 } true

/-- One call of the console thread or one guest access. -/
inductive Event where
  | insert (keycode : UInt8)
  | readByte (addr : UInt16)
  | writeByte (addr : UInt16) (val : UInt8)
  deriving DecidableEq, Repr

def step (k : Keyboard) : Event → Keyboard
  | .insert keycode => k.insertKeycodeEvent keycode
  | .readByte addr => (k.readRegByte addr).1
  | .writeByte addr val => k.writeRegByte addr val

/-- The keycodes in the ring buffer, oldest first. -/
def queue (k : Keyboard) : List UInt8 :=
  Ring.contents k.internalBuffer k.bufferTailPointer k.bufferElementCount

/-- The interrupt line: the level passed to `set_IRQline` last. -/
def line (k : Keyboard) : UInt16 := k.irq.getLast?.getD 0

/-- The keycode an event puts in the queue, if it does. -/
def accepted (k : Keyboard) : Event → List UInt8
  | .insert keycode => if k.enabled = true ∧ k.queue.length < 16 then [keycode] else []
  | _ => []

/-- The value a read of `RBR` returns, when there is a keycode to deliver. -/
def delivered (k : Keyboard) : Event → List UInt8
  | .readByte addr => if addr = rbrAddr ∧ k.queue ≠ [] then [(k.readRegByte addr).2] else []
  | _ => []

end Keyboard

end EndlessFault
