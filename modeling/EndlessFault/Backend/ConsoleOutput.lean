import EndlessFault.Lib.Terminal
import EndlessFault.Frontend.VGAController

/- The console output (`backend/ConsoleOutput.cpp`): a thread that draws the text memory
   on the terminal, frame after frame, as one stream of characters and escape sequences,
   while a second thread toggles `_isBlinking`. Neither stops the guest, so what a frame
   reads may change while it is drawn: `Pass` has the values it reads, each at the
   time of its own read. -/
namespace EndlessFault
open Lib.Terminal

namespace ConsoleOutput

def COLS : Nat := 80
def ROWS : Nat := 25

def text (s : String) : List UInt8 := s.toList.map Char.toUInt8

def CLEAR : List UInt8 := text "\x1b[2J"
def standardBackground : List UInt8 := text "\x1b[30;40m"
def cursorStart : List UInt8 := text "\x1b[0;0H"
def hideCursor : List UInt8 := text "\x1b[?25l"
def UNDERLINED : List UInt8 := text "\x1b[4m"
def RESTORE : List UInt8 := text "\x1b[0m"

def supportedTextColor : List (List UInt8) :=
  ["30", "34", "32", "36", "31", "35", "33", "37",
   "1;30", "1;34", "1;32", "1;36", "1;31", "1;35", "1;33", "1;37"].map text

def supportedBackgroundColor : List (List UInt8) :=
  ["40", "44", "42", "46", "41", "45", "43", "47"].map text

def getTextColor (code : UInt16) : List UInt8 :=
  if code.toNat ≥ supportedTextColor.length then supportedTextColor.getD 0 []
  else supportedTextColor.getD code.toNat []

def getBackgroundColor (code : UInt16) : List UInt8 :=
  if code.toNat ≥ supportedBackgroundColor.length then supportedBackgroundColor.getD 0 []
  else supportedBackgroundColor.getD code.toNat []

/-! The parts of a cell. -/

def textC (temp : UInt16) : UInt16 := (temp >>> 8) &&& 0x000f
def backg (temp : UInt16) : UInt16 := (temp &&& 0x7000) >>> 12
def blinkC (temp : UInt16) : UInt16 := (temp &&& 0x8000) >>> 15

/-- What one pass of the loop reads. -/
structure Pass where
  wsRow : UInt16
  wsCol : UInt16
  cursorIndex : UInt16
  /-- Guest memory when the cell in a row and column is read. -/
  memory : Nat → Nat → Memory
  /-- `_isBlinking` when the character is chosen, and when the cursor is drawn. -/
  isBlinking : Nat → Nat → Bool
  isBlinkingCursor : Nat → Nat → Bool

namespace Pass
variable (p : Pass)

def minRows : Nat := min ROWS p.wsRow.toNat
def minCols : Nat := min COLS p.wsCol.toNat
def cursorX : Nat := p.cursorIndex.toNat % COLS
def cursorY : Nat := p.cursorIndex.toNat / COLS

def temp (i j : Nat) : UInt16 := VGAController.videoMatrix (p.memory i j) (i * COLS + j)

/-- The character that is drawn for a cell. -/
def char (i j : Nat) : UInt8 :=
  if blinkC (p.temp i j) ≠ 0 then if p.isBlinking i j then (p.temp i j).toUInt8 else 0x20
  else (p.temp i j).toUInt8

def toPrint (i j : Nat) : List UInt8 :=
  text "\x1b[" ++ getTextColor (textC (p.temp i j)) ++ text ";" ++
    getBackgroundColor (backg (p.temp i j)) ++ text "m" ++ [p.char i j]

def cell (i j : Nat) : List UInt8 :=
  if p.cursorY * COLS + p.cursorX = i * COLS + j then
    if p.isBlinkingCursor i j then UNDERLINED ++ p.toPrint i j ++ RESTORE else p.toPrint i j
  else p.toPrint i j

def row (i : Nat) : List UInt8 :=
  (List.range p.minCols).flatMap (p.cell i) ++ standardBackground ++
    if i ≠ p.minRows - 1 then text "\n" else []

def frame : List UInt8 := cursorStart ++ (List.range p.minRows).flatMap p.row

end Pass

/-- What the thread writes by the end of some frames. -/
def mainThread (ps : List Pass) : List UInt8 := hideCursor ++ CLEAR ++ ps.flatMap Pass.frame

end ConsoleOutput
end EndlessFault
