import Mathlib.Data.List.Basic
import Mathlib.Tactic.SplitIfs

/- A character terminal driven by a stream of bytes, as the control functions of the VT100
   family define it. `Parser` cuts the stream into actions: printable characters, line
   ends and control sequences, whose numbers are collected until the final byte.
   `Display` is what the actions act on: a screen of cells, the active position and the
   rendition that the next characters get.

   A character in the last column leaves the position there and the line end pending,
   so a full line followed by a line end takes one line and not two. A line end is the
   pair of control characters that the line discipline makes of it.

   The stream of two texts is read one after the other (`Parser.actions_append`), and the
   display is followed through a text action by action (`Display.run_append`). -/
namespace Lib.Terminal

/-! The stream. -/

/-- What a stream of bytes asks for. -/
inductive Action where
  | print (ch : UInt8)
  | lineEnd
  | sgr (ps : List Nat)
  | position (ps : List Nat)
  | erase (ps : List Nat)
  deriving DecidableEq, Repr

/-- Between the bytes: nothing begun, after an escape, or in a control sequence with the
numbers read so far, the last first; `marked` after a byte that makes it a private one. -/
inductive Parser where
  | ground
  | escape
  | csi (marked : Bool) (ps : List Nat)
  deriving DecidableEq, Repr

namespace Parser

def isDigit (ch : UInt8) : Bool := 0x30 ≤ ch && ch ≤ 0x39

/-- A digit more in the number that is being read. -/
def addDigit (ch : UInt8) : List Nat → List Nat
  | [] => [(ch - 0x30).toNat]
  | n :: ps => (10 * n + (ch - 0x30).toNat) :: ps

def next : Parser → UInt8 → Parser
  | ground, ch => if ch = 0x1B then escape else ground
  | escape, ch => if ch = 0x5B then csi false [0] else ground
  | csi marked ps, ch =>
    if isDigit ch then csi marked (addDigit ch ps)
    else if ch = 0x3B then csi marked (0 :: ps)
    else if ch = 0x3F then csi true ps
    else ground

/-- A character that takes a cell. -/
def printable (ch : UInt8) : Bool := 0x20 ≤ ch && ch ≤ 0x7E

def action : Parser → UInt8 → List Action
  | ground, ch =>
    if printable ch then [.print ch] else if ch = 0x0A then [.lineEnd] else []
  | escape, _ => []
  | csi marked ps, ch =>
    if marked then []
    else if ch = 0x6D then [.sgr ps.reverse]
    else if ch = 0x48 then [.position ps.reverse]
    else if ch = 0x4A then [.erase ps.reverse]
    else []

/-- The state after a text. -/
def run (p : Parser) (bs : List UInt8) : Parser := bs.foldl next p

/-- The actions of a text. -/
def actions : Parser → List UInt8 → List Action
  | _, [] => []
  | p, ch :: bs => action p ch ++ actions (next p ch) bs

theorem run_append (p : Parser) (bs cs : List UInt8) : run p (bs ++ cs) = run (run p bs) cs :=
  List.foldl_append ..

theorem actions_append (p : Parser) (bs cs : List UInt8) :
    actions p (bs ++ cs) = actions p bs ++ actions (run p bs) cs := by
  induction bs generalizing p with
  | nil => rfl
  | cons ch bs ih =>
    rw [List.cons_append, actions, actions, ih, List.append_assoc]
    rfl

/-- A text that is read from start to end without leaving anything begun. -/
structure Reads (bs : List UInt8) (as : List Action) : Prop where
  run : run ground bs = ground
  actions : actions ground bs = as

theorem reads_nil : Reads [] [] := ⟨rfl, rfl⟩

theorem Reads.append {bs cs : List UInt8} {as as' : List Action} (h : Reads bs as) (h' : Reads cs as') :
    Reads (bs ++ cs) (as ++ as') := by
  refine ⟨?_, ?_⟩
  · rw [run_append, h.run, h'.run]
  · rw [actions_append, h.run, h.actions, h'.actions]

theorem Reads.flatMap {ι : Type} {f : ι → List UInt8} {g : ι → List Action} {is : List ι}
    (h : ∀ i ∈ is, Reads (f i) (g i)) : Reads (is.flatMap f) (is.flatMap g) := by
  induction is with
  | nil => exact reads_nil
  | cons i is ih =>
    rw [List.flatMap_cons, List.flatMap_cons]
    exact (h i List.mem_cons_self).append (ih fun j hj => h j (List.mem_cons_of_mem i hj))

theorem reads_print {ch : UInt8} (h : printable ch = true) : Reads [ch] [.print ch] := by
  have hesc : ch ≠ 0x1B := by
    rintro rfl
    exact absurd h (by decide)
  refine ⟨?_, ?_⟩
  · simp [run, next, hesc]
  · simp [actions, action, h]

end Parser

/-! The display. -/

/-- How characters are shown; the colours are 0 to 7. -/
structure Rendition where
  text : Nat
  background : Nat
  bold : Bool
  underlined : Bool
  deriving DecidableEq, Repr

namespace Rendition

def default : Rendition := ⟨7, 0, false, false⟩

/-- One parameter of a selection of renditions. -/
def select (r : Rendition) (p : Nat) : Rendition :=
  if p = 0 then default
  else if p = 1 then { r with bold := true }
  else if p = 4 then { r with underlined := true }
  else if p = 22 then { r with bold := false }
  else if p = 24 then { r with underlined := false }
  else if 30 ≤ p ∧ p ≤ 37 then { r with text := p - 30 }
  else if p = 39 then { r with text := default.text }
  else if 40 ≤ p ∧ p ≤ 47 then { r with background := p - 40 }
  else if p = 49 then { r with background := default.background }
  else r

theorem select_text (r : Rendition) {n : Nat} (h : n < 8) : r.select (30 + n) = { r with text := n } := by
  unfold select
  iterate 5 rw [if_neg (by omega)]
  rw [if_pos (by omega), Nat.add_sub_cancel_left]

theorem select_background (r : Rendition) {n : Nat} (h : n < 8) :
    r.select (40 + n) = { r with background := n } := by
  unfold select
  iterate 7 rw [if_neg (by omega)]
  rw [if_pos (by omega), Nat.add_sub_cancel_left]

end Rendition

structure Cell where
  char : UInt8
  rendition : Rendition
  deriving DecidableEq, Repr

def Cell.blank : Cell := ⟨0x20, Rendition.default⟩

/-- A display of `rows` lines of `cols` columns, with the active position; `pending` after
a character in the last column. -/
structure Display where
  rows : Nat
  cols : Nat
  screen : Nat → Nat → Cell
  row : Nat
  col : Nat
  pending : Bool
  rendition : Rendition

namespace Display

/-- To the start of the next line; at the last one the lines move up. -/
def lineEnd (d : Display) : Display :=
  if d.row + 1 < d.rows then { d with row := d.row + 1, col := 0, pending := false }
  else { d with
    col := 0
    pending := false
    screen := fun i j => if i + 1 < d.rows then d.screen (i + 1) j else Cell.blank }

def write (d : Display) (ch : UInt8) : Display :=
  { d with
    screen := fun i j => if i = d.row ∧ j = d.col then ⟨ch, d.rendition⟩ else d.screen i j
    col := if d.col + 1 < d.cols then d.col + 1 else d.col
    pending := decide (d.cols ≤ d.col + 1) }

def print (d : Display) (ch : UInt8) : Display :=
  if d.pending then d.lineEnd.write ch else d.write ch

/-- A coordinate counted from 1, with 0 for 1, on a line or column of `n`. -/
def coordinate (p n : Nat) : Nat := min (p - 1) (n - 1)

def act (d : Display) : Action → Display
  | .print ch => d.print ch
  | .lineEnd => d.lineEnd
  | .sgr ps => { d with rendition := ps.foldl Rendition.select d.rendition }
  | .position ps => { d with
      row := coordinate (ps.getD 0 0) d.rows
      col := coordinate (ps.getD 1 0) d.cols
      pending := false }
  | .erase ps => if ps = [2] then { d with screen := fun _ _ => Cell.blank } else d

def run (d : Display) (as : List Action) : Display := as.foldl act d

/-- A line end above the last line only moves the position. -/
theorem lineEnd_inside {d : Display} (h : d.row + 1 < d.rows) :
    d.lineEnd = { d with row := d.row + 1, col := 0, pending := false } := if_pos h

@[simp] theorem run_nil (d : Display) : d.run [] = d := rfl

@[simp] theorem run_cons (d : Display) (a : Action) (as : List Action) :
    d.run (a :: as) = (d.act a).run as := rfl

theorem run_append (d : Display) (as bs : List Action) : d.run (as ++ bs) = (d.run as).run bs :=
  List.foldl_append ..

end Display

/-- The display with the state of its input. -/
structure Tty where
  parser : Parser
  display : Display

/-- The terminal after a text. -/
def Tty.feed (t : Tty) (bs : List UInt8) : Tty where
  parser := t.parser.run bs
  display := t.display.run (t.parser.actions bs)

theorem Tty.feed_append (t : Tty) (bs cs : List UInt8) :
    t.feed (bs ++ cs) = (t.feed bs).feed cs := by
  simp only [Tty.feed, Parser.run_append, Parser.actions_append, Display.run_append]

theorem Tty.feed_reads {t : Tty} {bs : List UInt8} {as : List Action}
    (ht : t.parser = .ground) (h : Parser.Reads bs as) : t.feed bs = ⟨.ground, t.display.run as⟩ := by
  rw [Tty.feed, ht, h.run, h.actions]

end Lib.Terminal
