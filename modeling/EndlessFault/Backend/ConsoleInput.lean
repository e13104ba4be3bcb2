import EndlessFault.Frontend.KeyboardQueue

/- The console thread (`backend/ConsoleInput.cpp`) and the keyboard it feeds. For
   every character read, the thread calls `insert_keycode_event` with a shift code
   when the case changes, and with the make and the break code of the key. The calls
   come one at a time and the guest may access the keyboard between any two of them.

   Conventions of the embedding:
   - `pending` is what the thread has still to insert for the character it read last;
   - each keycode carries the character whose make code it is. These labels, `held`
     (the keycodes in the keyboard's queue, with their labels), `typed` and
     `delivered` are auxiliary: no step of the program reads them;
   - `is_shifted` is touched by the thread alone, so setting it when the character
     is read is the same as setting it between the insertions. -/
namespace EndlessFault
open Lib Lib.Machine

structure Keycode where
  code : UInt8
  char : Option UInt8
  deriving DecidableEq, Repr

structure ConsoleInput where
  attachedKeyboard : Keyboard
  isShifted : Bool
  pending : List Keycode
  held : List Keycode
  typed : List UInt8
  delivered : List Keycode

namespace ConsoleInput
open Keyboard

/-! The encoding table. -/

def maxCode : Nat := 46

def tab : List UInt8 :=
  [0x02, 0x03, 0x04, 0x05, 0x06, 0x07, 0x08, 0x09, 0x0a, 0x0b,
   0x0c,
   0x10, 0x11, 0x12, 0x13, 0x14, 0x15, 0x16, 0x17, 0x18, 0x19,
   0x1E, 0x1F, 0x20, 0x21, 0x22, 0x23, 0x24, 0x25,
   0x26, 0x29, 0x2C, 0x2D, 0x2E, 0x2F, 0x30, 0x31, 0x32,
   0x33, 0x34, 0x35, 0x56,
   0x39, 0x1C, 0x0e, 0x01]

/-- The characters of the keys; 0x27 is the apostrophe and 0x5c the backslash. -/
def tabmin : List UInt8 :=
  ['1', '2', '3', '4', '5', '6', '7', '8', '9', '0'].map Char.toUInt8 ++
  [0x27] ++
  ['q', 'w', 'e', 'r', 't', 'y', 'u', 'i', 'o', 'p'].map Char.toUInt8 ++
  ['a', 's', 'd', 'f', 'g', 'h', 'j', 'k', 'l'].map Char.toUInt8 ++
  [0x5c] ++
  ['z', 'x', 'c', 'v', 'b', 'n', 'm', ',', '.', '-', '<'].map Char.toUInt8 ++
  [0x20, 0x0d, 0x08, 0x1b]

/-- The characters of the keys with shift; 0x22 is the double quote. -/
def tabmai : List UInt8 :=
  [0x21, 0x22, 0x40] ++
  ['$', '%', '&', '/', '(', ')', '=', '?'].map Char.toUInt8 ++
  ['Q', 'W', 'E', 'R', 'T', 'Y', 'U', 'I', 'O', 'P'].map Char.toUInt8 ++
  ['A', 'S', 'D', 'F', 'G', 'H', 'J', 'K', 'L', '|'].map Char.toUInt8 ++
  ['Z', 'X', 'C', 'V', 'B', 'N', 'M', ';', ':', '_', '>'].map Char.toUInt8 ++
  [0x20, 0x0a, 0x08, 0x1b]

/-- The keycode of a character and the new value of `shift`; a character of neither
table has keycode 0 and leaves `shift` alone. -/
def asciiToKeycode (asciiC : UInt8) (shift : Bool) : UInt8 × Bool :=
  let pos := tabmin.idxOf asciiC
  if pos = maxCode then
    let pos := tabmai.idxOf asciiC
    if pos = maxCode then (0, shift)
    else (tab.getD pos 0, true)
  else (tab.getD pos 0, false)

/-- The keycodes one round of `_mainThread` inserts, and the new `is_shifted`. -/
def mainThread (isShifted : Bool) (newchar : UInt8) : List Keycode × Bool :=
  let (newkeycode, newShift) := asciiToKeycode newchar isShifted
  let shiftCodes :=
    if isShifted ≠ newShift ∧ newShift = true then [⟨0x2a, none⟩]
    else if isShifted ≠ newShift ∧ newShift = false then [⟨0xaa, none⟩]
    else []
  let keyCodes :=
    if newkeycode ≠ 0 then [⟨newkeycode, some newchar⟩, ⟨newkeycode ||| 0x80, none⟩] else []
  (shiftCodes ++ keyCodes, newShift)

/-! The thread and the guest. -/

inductive Action where
  | type (newchar : UInt8)
  | insert
  | readByte (addr : UInt16)
  | writeByte (addr : UInt16) (val : UInt8)
  deriving DecidableEq, Repr

def start (buffer : Vector UInt8 internalBufferSize) : ConsoleInput where
  attachedKeyboard := Keyboard.new buffer
  isShifted := false
  pending := []
  held := []
  typed := []
  delivered := []

/-- One action. The next character is read when all keycodes of the last one have
been inserted. -/
def step (s : ConsoleInput) : Action → ConsoleInput
  | .type newchar =>
    if s.pending = [] then
      { s with
        isShifted := (mainThread s.isShifted newchar).2
        pending := (mainThread s.isShifted newchar).1
        typed := s.typed ++ [newchar] }
    else s
  | .insert =>
    match s.pending with
    | [] => s
    | keycode :: pending =>
      { s with
        attachedKeyboard := s.attachedKeyboard.insertKeycodeEvent keycode.code
        pending := pending
        held := s.held ++ (s.attachedKeyboard.accepted (.insert keycode.code)).map fun _ => keycode }
  | .readByte addr =>
    let codes := s.attachedKeyboard.delivered (.readByte addr)
    { s with
      attachedKeyboard := (s.attachedKeyboard.readRegByte addr).1
      held := s.held.drop codes.length
      delivered := s.delivered ++ codes.map fun code => ⟨code, s.held.head?.bind Keycode.char⟩ }
  | .writeByte addr val =>
    { s with attachedKeyboard := s.attachedKeyboard.writeRegByte addr val }

/-! Decoding, as the guest does it. -/

def shiftMake : UInt8 := 0x2a
def shiftBreak : UInt8 := 0xaa

def decodeShift (shift : Bool) (code : UInt8) : Bool :=
  if code = shiftMake then true else if code = shiftBreak then false else shift

/-- The character of a make code. -/
def decodeChar (shift : Bool) (code : UInt8) : Option UInt8 :=
  if code = shiftMake ∨ code = shiftBreak ∨ tab.idxOf code = maxCode then none
  else some ((if shift then tabmai else tabmin).getD (tab.idxOf code) 0)

/-- What each of the keycodes decodes to, from a shift state on. -/
def decode (shift : Bool) (codes : List UInt8) : List (Option UInt8) :=
  observe decodeShift (fun shift code => [decodeChar shift code]) shift codes

end ConsoleInput
end EndlessFault
