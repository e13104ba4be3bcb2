import EndlessFault.Kvm.Vm
import EndlessFault.Frontend.KeyboardStatus

/- The machine as a guest program uses it: `outb` and `inb` each make the exit that the
   processor makes of the instruction and resume with what the loop left at `io_param`.
   `Steady` is what always holds of the keyboard, and the lemmas say what an
   instruction at a port of the keyboard or of a serial port does, all other devices
   staying as they are. -/
namespace EndlessFault
open Lib.Machine

/-- The devices and what `io_param` points at. -/
structure Guest where
  vm : Vm
  ioParam : UInt32

namespace Guest
variable (w : Nat → UInt16)

/-- `outb`. -/
def outb (g : Guest) (port : UInt16) (val : UInt8) : Guest :=
  let e : IoExit := ⟨.output, 1, port, 1, IoExit.operand ⟨.output, 1, port, 1, g.ioParam⟩ (some (.byte val))⟩
  ⟨g.vm.step w (.io e), e.data⟩

/-- `inb`, with the byte read. -/
def inb (g : Guest) (port : UInt16) : Guest × UInt8 :=
  let e : IoExit := ⟨.input, 1, port, 1, g.ioParam⟩
  (⟨g.vm.step w (.io e), g.vm.operand w e⟩, (g.vm.operand w e).toUInt8)

/-- A keycode from the console thread. -/
def insert (g : Guest) (keycode : UInt8) : Guest := { g with vm := g.vm.step w (.insert keycode) }

end Guest

/-! The keyboard. -/

namespace Keyboard

/-- What holds of the keyboard in every run. -/
structure Steady (k : Keyboard) : Prop where
  refines : ∃ q, Refines k q
  agrees : Agrees k

theorem Steady.step {k : Keyboard} (h : Steady k) (e : Event) : Steady (k.step e) := by
  obtain ⟨q, hq⟩ := h.refines
  exact ⟨⟨_, hq.step e⟩, h.agrees.step e⟩

theorem steady_new (buffer : Vector UInt8 internalBufferSize) : Steady (new buffer) :=
  ⟨⟨_, new_refines buffer⟩, new_agrees buffer⟩

theorem Steady.run {k : Keyboard} (h : Steady k) (es : List Event) : Steady (run Keyboard.step k es) :=
  run_invariant Steady (fun _ => True) (fun _ e _ h => h.step e) h fun _ _ => trivial

/-- The status says whether something is held, and reading it changes nothing. -/
theorem Steady.read_status {k : Keyboard} (h : Steady k) :
    k.readRegByte strAddr = (k, if k.queue = [] then 0 else 1) := by
  have hstatus := h.agrees.status
  simp only [← queue_eq_nil_iff] at hstatus
  rw [readRegByte, if_neg (by decide), if_pos rfl, hstatus]
  rfl

/-- A read of the data register takes the first keycode. -/
theorem Steady.read_data {k : Keyboard} (h : Steady k) (hheld : k.queue ≠ []) :
    k.queue = (k.readRegByte rbrAddr).2 :: (k.readRegByte rbrAddr).1.queue := by
  obtain ⟨q, hq⟩ := h.refines
  have hbalance := hq.balance (.readByte rbrAddr)
  have hone : k.delivered (.readByte rbrAddr) = [(k.readRegByte rbrAddr).2] := if_pos ⟨rfl, hheld⟩
  rw [hone] at hbalance
  exact (List.append_nil _).symm.trans hbalance

/-- A write changes nothing that is held. -/
theorem Steady.queue_write {k : Keyboard} (h : Steady k) (addr : UInt16) (val : UInt8) :
    (k.writeRegByte addr val).queue = k.queue := by
  obtain ⟨q, hq⟩ := h.refines
  exact (hq.balance (.writeByte addr val)).symm.trans (List.append_nil _)

theorem Steady.queue_insert {k : Keyboard} (h : Steady k) (keycode : UInt8) :
    (k.insertKeycodeEvent keycode).queue = k.queue ++ k.accepted (.insert keycode) := by
  obtain ⟨q, hq⟩ := h.refines
  exact (hq.balance (.insert keycode)).symm

theorem Steady.length_le {k : Keyboard} (h : Steady k) : k.queue.length ≤ 16 := by
  obtain ⟨q, hq⟩ := h.refines
  rw [hq.queue]
  exact q.fits

end Keyboard

namespace Guest
variable {w : Nat → UInt16} {g : Guest}

section
variable (port : UInt16) (hport : port = 0x60 ∨ port = 0x64)
include hport

theorem keyboardPort_of (direction : IoDirection) (data : UInt32) : Vm.keyboardPort ⟨direction, 1, port, 1, data⟩ := by
  rcases hport with rfl | rfl <;> simp [Vm.keyboardPort, Vm.byteWithin, IoExit.isByte]

theorem dispatch_keyboard (p : PCIDevice) {direction : IoDirection} {data : UInt32} :
    IoExit.dispatch p ⟨direction, 1, port, 1, data⟩ = IoExit.toKeyboard ⟨direction, 1, port, 1, data⟩ := by
  have hbranch := (Vm.branch_iff (p := p)).1.mpr (keyboardPort_of port hport direction data)
  simp only [IoExit.dispatch, hbranch]

theorem outb_keyboard (val : UInt8) : (g.outb w port val).vm = { g.vm with keyb := g.vm.keyb.writeRegByte port val } := by
  simp only [outb, Vm.step, Vm.forwarded, dispatch_keyboard port hport, IoExit.toKeyboard, IoExit.operandByte,
    IoExit.operand_byte]
  rfl

theorem inb_keyboard :
    (g.inb w port).1.vm = { g.vm with keyb := (g.vm.keyb.readRegByte port).1 } ∧
    (g.inb w port).2 = (g.vm.keyb.readRegByte port).2 := by
  simp only [inb, Vm.step, Vm.operand, Vm.forwarded, dispatch_keyboard port hport, IoExit.toKeyboard]
  exact ⟨rfl, IoExit.operand_byte _ _⟩

end

/-- A byte put out to the second serial port. -/
theorem outb_com2 (val : UInt8) :
    (g.outb w 0x2f8 val).vm =
      { g.vm with com := Function.update g.vm.com 2 ((g.vm.com 2).writeRegByte 0x2f8 val) } := by
  have hport : ∀ data, Vm.comPort ⟨.output, 1, 0x2f8, 1, data⟩ 2 := by
    intro data
    simp [Vm.comPort, Vm.byteWithin, IoExit.isByte, Vm.comBase]
  have hbranch := fun data => (Vm.branch_iff (p := g.vm.bridge)).2.2.2.1.mpr (hport data)
  simp only [outb, Vm.step, Vm.forwarded, IoExit.dispatch, hbranch, IoExit.out, IoExit.operandByte,
    IoExit.operand_byte]
  rfl

end Guest
end EndlessFault
