import EndlessFault.Frontend.KeyboardEdges
import EndlessFault.Kvm.Guest

/- The keyboard driver of `target-sources/int-tastiera/mod_tas.cpp`: `c_leggi_linea` enables the
   interrupts of the keyboard and waits, and `c_driv_tasint`, which an interrupt starts, takes one keycode, stores its
   character and signals the end of the line. The driver runs one access to the keyboard at a time, and the console
   thread inserts keycodes between any two of them. The interrupt controller keeps a request for each rise of the line,
   also while the driver runs. `conv`, the library's table of characters, is a parameter.

   `Driver.line` is what reading a line is meant to be, one keycode after the other, and `reads_line` says what it
   leaves in the buffer, on the screen and in the count: the line that the characters begin with (`lineOf`). -/
namespace EndlessFault
open Lib.Machine

namespace ModTas

/-- The variables of the driver, and what `char_write` has put on the screen. -/
structure Driver where
  cont : UInt32
  punt : Nat
  vv : Nat → UInt8
  shift : Bool
  screen : List UInt8

/-- Where the program is. The names are those of the functions, with the next access to the keyboard. -/
inductive Pc where
  | leggiCommand
  | leggiData
  | semWait
  | drivCommand
  | drivData
  | getCode
  | code (a : UInt8)
  | riabCommand
  | riabData
  | signalled
  deriving DecidableEq, Repr

structure State where
  guest : Guest
  requested : Bool
  pc : Pc
  driver : Driver

namespace State

def keyb (s : State) : Keyboard := s.guest.vm.keyb

def queue (s : State) : List UInt8 := s.keyb.queue

/-- `c_leggi_linea` up to its first access. -/
def cLeggiLinea (s : State) (nn : UInt32) (vv : Nat → UInt8) : State :=
  { s with pc := .leggiCommand, driver := { s.driver with cont := nn, punt := 0, vv := vv } }

/-- `nn` when `c_leggi_linea` returns. -/
def nnAfter (s : State) (oldNn : UInt32) : UInt32 := oldNn - s.driver.cont

end State

section
variable (w : Nat → UInt16) (conv : Bool → UInt8 → UInt8)

def newline : UInt8 := 0x0A

def shiftAfter (shift : Bool) (a : UInt8) : Bool :=
  if a = 0x2A then true else if a = 0xAA then false else shift

/-- `c_driv_tasint` with its keycode, apart from the accesses to the keyboard, and whether it signals. -/
def Driver.take (d : Driver) (a : UInt8) : Driver × Bool :=
  let d := { d with shift := shiftAfter d.shift a }
  let a := conv d.shift a
  if a = 0 then (d, false)
  else
    let d := { d with
      cont := d.cont - 1
      vv := Function.update d.vv d.punt a
      screen := d.screen ++ [a] }
    if a = newline ∨ d.cont = 0 then (d, true) else ({ d with punt := d.punt + 1 }, false)

/-- One step of the guest: an access to the keyboard, or what the driver does between two. -/
def exec (s : State) : State :=
  match s.pc with
  | .leggiCommand => { s with guest := s.guest.outb w 0x64 0x60, pc := .leggiData }
  | .leggiData => { s with guest := s.guest.outb w 0x60 0x61, pc := .semWait }
  | .semWait => if s.requested then { s with requested := false, pc := .drivCommand } else s
  | .drivCommand => { s with guest := s.guest.outb w 0x64 0x60, pc := .drivData }
  | .drivData => { s with guest := s.guest.outb w 0x60 0x60, pc := .getCode }
  | .getCode => { s with guest := (s.guest.inb w 0x60).1, pc := .code (s.guest.inb w 0x60).2 }
  | .code a => { s with
      driver := (s.driver.take conv a).1
      pc := if (s.driver.take conv a).2 then .signalled else .riabCommand }
  | .riabCommand => { s with guest := s.guest.outb w 0x64 0x60, pc := .riabData }
  | .riabData => { s with guest := s.guest.outb w 0x60 0x61, pc := .semWait }
  | .signalled => s

/-- The interrupt controller: a rise of the line is kept until it is served. -/
def latch (k : Keyboard) (s : State) : State := { s with
  requested := s.requested || decide (0 < Keyboard.rises k.line (s.keyb.irq.drop k.irq.length)) }

inductive Turn where
  | guest
  | keycode (code : UInt8)
  deriving DecidableEq, Repr

def step (s : State) : Turn → State
  | .guest => latch s.keyb (exec w conv s)
  | .keycode code => latch s.keyb { s with guest := s.guest.insert w code }

/-! What is wanted. -/

/-- The keycode the keyboard accepts, if it does. -/
def accepted (s : State) : Turn → List UInt8
  | .guest => []
  | .keycode code => s.keyb.accepted (.insert code)

def inHand (s : State) : List UInt8 :=
  match s.pc with
  | .code a => [a]
  | _ => []

/-- The keycode the driver works on. -/
def taken (s : State) : Turn → List UInt8
  | .guest => inHand s
  | .keycode _ => []

/-- The driver over keycodes, one after the other, to the end of the line. -/
def Driver.line (d : Driver) : List UInt8 → Driver × Bool
  | [] => (d, false)
  | a :: as => if (d.take conv a).2 then d.take conv a else (d.take conv a).1.line as

/-- The character of a keycode, if it has one. -/
def character (shift : Bool) (a : UInt8) : List UInt8 :=
  if conv (shiftAfter shift a) a = 0 then [] else [conv (shiftAfter shift a) a]

/-- The characters of keycodes. -/
def characters (shift : Bool) (codes : List UInt8) : List UInt8 := observe shiftAfter (character conv) shift codes

/-- The line that characters begin with, and whether they end it: at a newline, or when the count comes to 0. -/
def lineOf : UInt32 → List UInt8 → List UInt8 × Bool
  | _, [] => ([], false)
  | n, c :: cs =>
    if c = newline ∨ n - 1 = 0 then ([c], true) else (c :: (lineOf (n - 1) cs).1, (lineOf (n - 1) cs).2)

end

/-! The line. -/

section
variable {conv : Bool → UInt8 → UInt8}

theorem line_append_of_signalled {d : Driver} {as : List UInt8} (h : (d.line conv as).2 = true) (bs : List UInt8) :
    d.line conv (as ++ bs) = d.line conv as := by
  induction as generalizing d with
  | nil => exact absurd h Bool.false_ne_true
  | cons a as ih =>
    rw [List.cons_append, Driver.line, Driver.line]
    rw [Driver.line] at h
    split_ifs at h ⊢
    · rfl
    · exact ih h

theorem characters_cons (shift : Bool) (a : UInt8) (as : List UInt8) :
    characters conv shift (a :: as) = character conv shift a ++ characters conv (shiftAfter shift a) as :=
  observe_cons ..

/-- What the driver makes of keycodes. -/
structure Reads (d : Driver) (cs : List UInt8) (complete : Bool) (r : Driver × Bool) : Prop where
  screen : r.1.screen = d.screen ++ cs
  cont : r.1.cont = d.cont - UInt32.ofNat cs.length
  vv : ∀ k, r.1.vv k = if d.punt ≤ k ∧ k < d.punt + cs.length then cs.getD (k - d.punt) 0 else d.vv k
  complete : r.2 = complete

section
variable {d : Driver} {a c : UInt8}

/-- A keycode without a character. -/
theorem take_none (h : conv (shiftAfter d.shift a) a = 0) :
    d.take conv a = ({ d with shift := shiftAfter d.shift a }, false) := by
  rw [Driver.take]
  exact if_pos h

/-- The driver with a further character. -/
def Driver.put (d : Driver) (a c : UInt8) : Driver where
  cont := d.cont - 1
  punt := d.punt
  vv := Function.update d.vv d.punt c
  shift := shiftAfter d.shift a
  screen := d.screen ++ [c]

variable (hc : conv (shiftAfter d.shift a) a = c) (hsome : c ≠ 0)
include hc hsome

theorem take_last (hend : c = newline ∨ d.cont - 1 = 0) : d.take conv a = (d.put a c, true) := by
  simp only [Driver.take, hc, if_neg hsome, if_pos hend]
  rfl

theorem take_more (hend : ¬ (c = newline ∨ d.cont - 1 = 0)) :
    d.take conv a = ({ d.put a c with punt := d.punt + 1 }, false) := by
  simp only [Driver.take, hc, if_neg hsome, if_neg hend]
  rfl

end

/-- A character before others. -/
theorem Reads.put {d : Driver} {a c : UInt8} {cs : List UInt8} {complete : Bool} {r : Driver × Bool}
    (h : Reads { d.put a c with punt := d.punt + 1 } cs complete r) : Reads d (c :: cs) complete r where
  screen := by
    rw [h.screen, Driver.put, List.append_assoc]
    rfl
  cont := by
    rw [h.cont, Driver.put, List.length_cons, UInt32.ofNat_add]
    grind
  vv k := by
    rw [h.vv, Driver.put, List.length_cons]
    by_cases hk : k = d.punt
    · subst hk
      simp
    · have hrange : d.punt + 1 ≤ k ∧ k < d.punt + 1 + cs.length ↔ d.punt ≤ k ∧ k < d.punt + (cs.length + 1) := by
        omega
      simp only [Function.update_of_ne hk]
      rw [if_congr hrange rfl rfl]
      split_ifs with hin
      · obtain ⟨i, rfl⟩ : ∃ i, k = d.punt + 1 + i := ⟨k - (d.punt + 1), by omega⟩
        rw [show d.punt + 1 + i - d.punt = i + 1 by omega, List.getD_cons_succ, Nat.add_sub_cancel_left]
      · rfl
  complete := h.complete

/-- No character. -/
theorem reads_nil (d : Driver) (complete : Bool) : Reads d [] complete (d, complete) where
  screen := (List.append_nil _).symm
  cont := (UInt32.sub_zero _).symm
  vv _ := (if_neg fun h => absurd h.2 (Nat.not_lt_of_le h.1)).symm
  complete := rfl

theorem reads_line (d : Driver) (as : List UInt8) :
    Reads d (lineOf d.cont (characters conv d.shift as)).1 (lineOf d.cont (characters conv d.shift as)).2
      (d.line conv as) := by
  induction as generalizing d with
  | nil => exact reads_nil d false
  | cons a as ih =>
    rw [characters_cons, Driver.line, character]
    generalize hc : conv (shiftAfter d.shift a) a = c
    by_cases hnone : c = 0
    · obtain ⟨hscreen, hcont, hvv, hcomplete⟩ := ih { d with shift := shiftAfter d.shift a }
      rw [take_none (hc.trans hnone), if_pos hnone, if_neg Bool.false_ne_true]
      exact ⟨hscreen, hcont, hvv, hcomplete⟩
    · rw [if_neg hnone, List.singleton_append, lineOf]
      by_cases hend : c = newline ∨ d.cont - 1 = 0
      · rw [take_last hc hnone hend, if_pos rfl, if_pos hend]
        -- the pointer stays where the last character is
        obtain ⟨hscreen, hcont, hvv, hcomplete⟩ := (reads_nil { d.put a c with punt := d.punt + 1 } true).put
        exact ⟨hscreen, hcont, hvv, hcomplete⟩
      · rw [take_more hc hnone hend, if_neg Bool.false_ne_true, if_neg hend]
        exact (ih { d.put a c with punt := d.punt + 1 }).put

end

end ModTas
end EndlessFault
