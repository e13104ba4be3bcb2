import EndlessFault.Frontend.IoDispatch
import EndlessFault.Frontend.SerialPort
import EndlessFault.Frontend.VGAController

/- The whole machine: the devices `initIO` connects and the `KVM_EXIT_IO` branch of the
   loop that hands the guest's accesses to them (`kvm.cpp`), while the console thread
   inserts keycodes. A run is any sequence of both.

   The first seven branches ask for ports that do not depend on any state, and those of the disk
   come after them. So each of the other devices gets the accesses at its own ports, in
   their order and whatever the guest makes of the base address registers, and the disk
   gets what lies in its windows and is no other device's. No access of one device changes
   another one. Main result: `devices_apart`. -/
namespace EndlessFault
open Lib.Machine

/-- A byte access at a port: a write of what is put out, or a read. -/
def VGAController.Access.atPort (port : UInt16) : Option UInt8 → VGAController.Access
  | none => .readByte port
  | some val => .writeByte port val

def SerialPort.Access.atPort (port : UInt16) : Option UInt8 → SerialPort.Access
  | none => .readByte port
  | some val => .writeByte port val

/-- What a device leaves at `io_param`. -/
inductive Operand where
  | byte (val : UInt8)
  | word (val : UInt16)
  | long (val : UInt32)
  deriving DecidableEq, Repr

/-- The operand after the access: the bytes a device does not store stay as they are. -/
def IoExit.operand (e : IoExit) : Option Operand → UInt32
  | none => e.data
  | some (.byte val) => UInt32.ofNat (e.data.toNat / 2^8 * 2^8 + val.toNat)
  | some (.word val) => UInt32.ofNat (e.data.toNat / 2^16 * 2^16 + val.toNat)
  | some (.long val) => val

theorem IoExit.operand_byte (e : IoExit) (val : UInt8) : (e.operand (some (.byte val))).toUInt8 = val := by
  rw [← UInt8.toNat_inj, IoExit.operand, UInt32.toNat_toUInt8, UInt32.toNat_ofNat']
  have hval := val.toNat_lt
  omega

theorem IoExit.operand_word (e : IoExit) (val : UInt16) :
    (e.operand (some (.word val))).toUInt16 = val := by
  rw [← UInt16.toNat_inj, IoExit.operand, UInt32.toNat_toUInt16, UInt32.toNat_ofNat']
  have hval := val.toNat_lt
  omega

/-- The devices; `com` has the four serial ports under the numbers 1 to 4. The bridge of the
disk is in slot 0 of the PCI host. -/
structure Vm where
  keyb : Keyboard
  vga : VGAController
  com : Nat → SerialPort
  pci : PciHost
  hdd : HardDisk
  bridged : (pci.slot 0).isSome = true

namespace Vm

/-- `connected_PCI_devices[0]`. -/
def bridge (m : Vm) : PCIDevice := (m.pci.slot 0).get m.bridged

/-! The slot of the bridge stays taken. -/

theorem slot_update {h : PciHost} (hs : (h.slot 0).isSome = true) (p : PCIDevice) :
    ((h.update p).slot 0).isSome = true := by
  unfold PciHost.slot PciHost.update
  by_cases hd : h.deviceNumber.toNat = 0
  · simp [hd]
  · rw [Vector.getElem?_setIfInBounds_ne hd]
    exact hs

theorem slot_step {h : PciHost} (hs : (h.slot 0).isSome = true) (a : PciHost.Access) :
    ((h.step a).slot 0).isSome = true := by
  cases a with
  | readByte addr => exact hs
  | readWord addr => exact hs
  | readLong addr => exact hs
  | writeByte addr val =>
    rw [PciHost.step, PciHost.writeRegByte]
    split_ifs
    · exact hs
    · cases h.target with
      | none => exact hs
      | some p => exact slot_update hs _
  | writeWord addr val =>
    rw [PciHost.step, PciHost.writeRegWord]
    split_ifs
    · exact hs
    · cases h.target with
      | none => exact hs
      | some p => exact slot_update hs _
  | writeLong addr val =>
    rw [PciHost.step, PciHost.writeRegLong]
    split_ifs
    · exact hs
    · cases h.target with
      | none => exact hs
      | some p => exact slot_update hs _

/-! The loop. -/

/-- A call of the console thread, or an exit of the guest for a port. -/
inductive Event where
  | insert (keycode : UInt8)
  | io (e : IoExit)

variable (wild : Nat → UInt16)

/-- What an access makes of the devices. -/
def access (m : Vm) : IoExit.Forwarded → Vm
  | .keyboard a => { m with keyb := m.keyb.step a }
  | .vga port out => { m with vga := m.vga.step (.atPort port out) }
  | .com n port out => { m with com := Function.update m.com n ((m.com n).step (.atPort port out)) }
  | .pci a => { m with pci := m.pci.step a, bridged := slot_step m.bridged a }
  | .hardDisk a => { m with hdd := m.hdd.step wild a }
  | .nothing => m

/-- What it returns. -/
def answer (m : Vm) : IoExit.Forwarded → Option Operand
  | .keyboard (.readByte addr) => some (.byte (m.keyb.readRegByte addr).2)
  | .vga port none => some (.byte (m.vga.readRegByte port).2)
  | .com n port none => some (.byte ((m.com n).readRegByte port).2)
  | .pci (.readByte addr) => some (.byte (m.pci.readRegByte addr))
  | .pci (.readWord addr) => some (.word (m.pci.readRegWord addr))
  | .pci (.readLong addr) => some (.long (m.pci.readRegLong addr))
  | .hardDisk (.readByte addr) => some (.byte (m.hdd.readRegByte addr).2)
  | .hardDisk (.readWord addr) => some (.word (m.hdd.readRegWord wild addr).2)
  | _ => none

def forwarded (m : Vm) : Event → IoExit.Forwarded
  | .insert keycode => .keyboard (.insert keycode)
  | .io e => e.dispatch m.bridge

def step (m : Vm) (ev : Event) : Vm := m.access wild (m.forwarded ev)

/-- The operand the guest finds after an exit. -/
def operand (m : Vm) (e : IoExit) : UInt32 := e.operand (m.answer wild (e.dispatch m.bridge))

/-- The first port of a serial port. -/
def comBase (n : Nat) : UInt16 :=
  if n = 1 then 0x3f8 else if n = 2 then 0x2f8 else if n = 3 then 0x3e8 else 0x2e8

theorem connect_two (p q : PCIDevice) :
    ((((Vector.replicate 32 none).set 0 (some p)).set 1 (some q)).toList.foldl PciHost.connect
      (Vector.replicate 32 none, 0)).1 = ((Vector.replicate 32 none).set 0 (some p)).set 1 (some q) := by
  have hlist : (((Vector.replicate 32 none).set 0 (some p)).set 1 (some q)).toList =
      some p :: some q :: List.replicate 30 none := rfl
  have hnone : ∀ (n : Nat) (s : Vector (Option PCIDevice) 32 × Nat),
      (List.replicate n none).foldl PciHost.connect s = s := by
    intro n s
    induction n with
    | zero => rfl
    | succ n ih =>
      rw [List.replicate_succ, List.foldl_cons]
      exact ih
  rw [hlist, List.foldl_cons, List.foldl_cons, hnone]
  rfl

/-- The first device stays in slot 0. -/
theorem slot_new (p q : PCIDevice) (unset : PciHost.Unset) :
    (PciHost.new (((Vector.replicate 32 none).set 0 (some p)).set 1 (some q)) unset).slot 0 =
      some (PciHost.initBars p) := by
  simp only [PciHost.slot, PciHost.new, connect_two]
  simp

/-- The machine `initIO` leaves; the parameters are what the memory of the devices that
their constructors do not set happens to hold, and the disk's file. -/
def initIO (buffer : Vector UInt8 internalBufferSize) (block fill : Block) (file : Option (List UInt8))
    (ata apic : Vector UInt8 192) (unset : PciHost.Unset) : Vm where
  keyb := Keyboard.new buffer
  vga := VGAController.new
  com n := SerialPort.new (comBase n)
  pci := PciHost.new
    (((Vector.replicate 32 none).set 0 (some (PCIDevice.newClass ata 0x7777 0x8888 0x010100))).set 1
      (some (PCIDevice.newClass apic 0x8086 0x7000 0x123400))) unset
  hdd := HardDisk.new block fill 4 file
  bridged := by
    rw [slot_new]
    rfl

/-- The same over memory that holds zeros, with no file. -/
def zeroed : Vm :=
  initIO (Vector.replicate internalBufferSize 0) (Vector.replicate 512 0) (Vector.replicate 512 0) none
    (Vector.replicate 192 0) (Vector.replicate 192 0) ⟨0, 0, 0, 0⟩

/-! Who gets what. -/

section
variable (e : IoExit)

/-- A single byte at a port between two. -/
def byteWithin (first last : Nat) : Prop := e.isByte = true ∧ first ≤ e.port.toNat ∧ e.port.toNat ≤ last

def keyboardPort : Prop := byteWithin e 0x60 0x60 ∨ byteWithin e 0x64 0x64
def vgaPort : Prop := byteWithin e 0x3D4 0x3D5
def comPort (n : Nat) : Prop := 1 ≤ n ∧ n ≤ 4 ∧ byteWithin e (comBase n).toNat ((comBase n).toNat + 7)

/-- The PCI host takes every size. -/
def pciPort : Prop := e.port.toNat = 0xcf8 ∨ 0xcfc ≤ e.port.toNat ∧ e.port.toNat ≤ 0xcff

instance (first last : Nat) : Decidable (byteWithin e first last) := inferInstanceAs (Decidable (_ ∧ _))
instance : Decidable (keyboardPort e) := inferInstanceAs (Decidable (_ ∨ _))
instance : Decidable (vgaPort e) := inferInstanceAs (Decidable (byteWithin e 0x3D4 0x3D5))
instance (n : Nat) : Decidable (comPort e n) := inferInstanceAs (Decidable (_ ∧ _))
instance : Decidable (pciPort e) := inferInstanceAs (Decidable (_ ∨ _))

end

def toKeyboard : Event → List Keyboard.Event
  | .insert keycode => [.insert keycode]
  | .io e =>
    if keyboardPort e then
      [if e.direction = .output then .writeByte e.port e.operandByte else .readByte e.port]
    else []

def toVga : Event → List VGAController.Access
  | .insert _ => []
  | .io e => if vgaPort e then [.atPort e.port e.out] else []

def toCom (n : Nat) : Event → List SerialPort.Access
  | .insert _ => []
  | .io e => if comPort e n then [.atPort e.port e.out] else []

def toPci : Event → List PciHost.Access
  | .insert _ => []
  | .io e =>
    if pciPort e then
      if e.direction = .output then
        if e.size = 1 then [.writeByte e.port e.operandByte]
        else if e.size = 2 then [.writeWord e.port e.operandWord]
        else if e.size = 4 then [.writeLong e.port e.data]
        else []
      else
        if e.size = 1 then [.readByte e.port]
        else if e.size = 2 then [.readWord e.port]
        else if e.size = 4 then [.readLong e.port]
        else []
    else []

end Vm

/-! The parts of what is forwarded. -/

namespace IoExit.Forwarded

def forKeyboard : Forwarded → List Keyboard.Event
  | keyboard a => [a]
  | _ => []

def forVga : Forwarded → List VGAController.Access
  | vga port out => [.atPort port out]
  | _ => []

def forCom (n : Nat) : Forwarded → List SerialPort.Access
  | com k port out => if k = n then [.atPort port out] else []
  | _ => []

def forPci : Forwarded → List PciHost.Access
  | pci a => [a]
  | _ => []

def forDisk : Forwarded → List HardDisk.Access
  | hardDisk a => [a]
  | _ => []

end IoExit.Forwarded

namespace Vm

/-- What the disk gets, by the base address registers of the time. -/
def toDisk (m : Vm) (ev : Event) : List HardDisk.Access := (m.forwarded ev).forDisk

section
variable {p : PCIDevice} {e : IoExit}

/-- The branches that the port alone decides. -/
theorem branch_iff :
    (e.branch p = .keyboard ↔ keyboardPort e) ∧ (e.branch p = .vga ↔ vgaPort e) ∧
    (e.branch p = .com1 ↔ comPort e 1) ∧ (e.branch p = .com2 ↔ comPort e 2) ∧
    (e.branch p = .com3 ↔ comPort e 3) ∧ (e.branch p = .com4 ↔ comPort e 4) ∧
    (e.branch p = .pci ↔ pciPort e) := by
  have h1 : (comBase 1).toNat = 0x3f8 := by decide
  have h2 : (comBase 2).toNat = 0x2f8 := by decide
  have h3 : (comBase 3).toNat = 0x3e8 := by decide
  have h4 : (comBase 4).toNat = 0x2e8 := by decide
  unfold keyboardPort vgaPort comPort pciPort byteWithin
  generalize hb : e.branch p = b
  unfold IoExit.branch IoExit.within at hb
  simp only [Bool.and_eq_true, Bool.or_eq_true, beq_iff_eq, decide_eq_true_eq, UInt16.le_iff_toNat_le,
    ← UInt16.toNat_inj, UInt16.reduceToNat, ite_eq_iff] at hb
  simp only [h1, h2, h3, h4]
  cases hbyte : e.isByte
  · simp only [hbyte, Bool.false_eq_true, false_and, false_or, not_false_eq_true, true_and] at hb ⊢
    rcases hb with ⟨hc, rfl⟩ | ⟨hc, ⟨-, rfl⟩ | ⟨-, ⟨-, rfl⟩ | ⟨-, rfl⟩⟩⟩ <;>
      simp only [reduceCtorEq, false_iff, true_iff, and_false, true_and] <;> omega
  · simp only [hbyte, true_and] at hb ⊢
    rcases hb with ⟨hc, rfl⟩ | ⟨h1, ⟨hc, rfl⟩ | ⟨h2, ⟨hc, rfl⟩ | ⟨h3, ⟨hc, rfl⟩ | ⟨h4, ⟨hc, rfl⟩ | ⟨h5, ⟨hc, rfl⟩ | ⟨h6,
      ⟨hc, rfl⟩ | ⟨h7, ⟨-, rfl⟩ | ⟨-, ⟨-, rfl⟩ | ⟨-, rfl⟩⟩⟩⟩⟩⟩⟩⟩⟩ <;>
      simp only [reduceCtorEq, false_iff, true_iff] <;> omega

/-- The branches that it does not decide. -/
theorem dispatch_window (hb : e.branch p = .bar0 ∨ e.branch p = .bar1 ∨ e.branch p = .unhandled) :
    (∃ a, e.dispatch p = .hardDisk a) ∨ e.dispatch p = .nothing := by
  have hbyte : ∃ a, e.byteToBridge p = .hardDisk a := by
    unfold IoExit.byteToBridge
    cases e.direction <;> exact ⟨_, rfl⟩
  have hword : ∃ a, e.wordToBridge p = .hardDisk a := by
    unfold IoExit.wordToBridge
    cases e.direction <;> exact ⟨_, rfl⟩
  unfold IoExit.dispatch
  rcases hb with hb | hb | hb <;> simp only [hb]
  · split_ifs
    · exact .inl hword
    · exact .inl hbyte
    · exact .inr rfl
  · exact .inl hbyte
  · exact .inr trivial

/-- Where an exit can go. -/
theorem dispatch_cases (p : PCIDevice) (e : IoExit) :
    (keyboardPort e ∧ e.dispatch p = e.toKeyboard) ∨
    (vgaPort e ∧ e.dispatch p = .vga e.port e.out) ∨
    (∃ n, comPort e n ∧ e.dispatch p = .com n e.port e.out) ∨
    (pciPort e ∧ e.dispatch p = e.toPci) ∨
    ((¬ keyboardPort e ∧ ¬ vgaPort e ∧ (∀ n, ¬ comPort e n) ∧ ¬ pciPort e) ∧
      ((∃ a, e.dispatch p = .hardDisk a) ∨ e.dispatch p = .nothing)) := by
  obtain ⟨hkeyb, hvga, hcom1, hcom2, hcom3, hcom4, hpci⟩ := branch_iff (p := p) (e := e)
  have hnone : ∀ {b}, e.branch p = b → b = .bar0 ∨ b = .bar1 ∨ b = .unhandled →
      ¬ keyboardPort e ∧ ¬ vgaPort e ∧ (∀ n, ¬ comPort e n) ∧ ¬ pciPort e := by
    intro b hb hwin
    have hne : ∀ c ∈ [IoExit.Branch.keyboard, .vga, .com1, .com2, .com3, .com4, .pci], e.branch p ≠ c := by
      rcases hwin with rfl | rfl | rfl <;> simp [hb]
    refine ⟨fun h => hne _ (by simp) (hkeyb.mpr h), fun h => hne _ (by simp) (hvga.mpr h), ?_,
      fun h => hne _ (by simp) (hpci.mpr h)⟩
    intro n hn
    obtain rfl | rfl | rfl | rfl : n = 1 ∨ n = 2 ∨ n = 3 ∨ n = 4 := by
      have := hn.1
      have := hn.2.1
      omega
    · exact hne _ (by simp) (hcom1.mpr hn)
    · exact hne _ (by simp) (hcom2.mpr hn)
    · exact hne _ (by simp) (hcom3.mpr hn)
    · exact hne _ (by simp) (hcom4.mpr hn)
  cases hb : e.branch p with
  | keyboard => exact .inl ⟨hkeyb.mp hb, by simp only [IoExit.dispatch, hb]⟩
  | vga => exact .inr (.inl ⟨hvga.mp hb, by simp only [IoExit.dispatch, hb]⟩)
  | com1 => exact .inr (.inr (.inl ⟨1, hcom1.mp hb, by simp only [IoExit.dispatch, hb]⟩))
  | com2 => exact .inr (.inr (.inl ⟨2, hcom2.mp hb, by simp only [IoExit.dispatch, hb]⟩))
  | com3 => exact .inr (.inr (.inl ⟨3, hcom3.mp hb, by simp only [IoExit.dispatch, hb]⟩))
  | com4 => exact .inr (.inr (.inl ⟨4, hcom4.mp hb, by simp only [IoExit.dispatch, hb]⟩))
  | pci => exact .inr (.inr (.inr (.inl ⟨hpci.mp hb, by simp only [IoExit.dispatch, hb]⟩)))
  | bar0 => exact .inr (.inr (.inr (.inr ⟨hnone hb (.inl rfl), dispatch_window (.inl hb)⟩)))
  | bar1 => exact .inr (.inr (.inr (.inr ⟨hnone hb (.inr (.inl rfl)), dispatch_window (.inr (.inl hb))⟩)))
  | unhandled => exact .inr (.inr (.inr (.inr ⟨hnone hb (.inr (.inr rfl)), dispatch_window (.inr (.inr hb))⟩)))

theorem comPort_cases {n : Nat} (h : comPort e n) :
    n = 1 ∧ byteWithin e 0x3f8 0x3ff ∨ n = 2 ∧ byteWithin e 0x2f8 0x2ff ∨
    n = 3 ∧ byteWithin e 0x3e8 0x3ef ∨ n = 4 ∧ byteWithin e 0x2e8 0x2ef := by
  obtain ⟨h1, h4, hin⟩ := h
  obtain rfl | rfl | rfl | rfl : n = 1 ∨ n = 2 ∨ n = 3 ∨ n = 4 := by omega
  · exact .inl ⟨rfl, hin⟩
  · exact .inr (.inl ⟨rfl, hin⟩)
  · exact .inr (.inr (.inl ⟨rfl, hin⟩))
  · exact .inr (.inr (.inr ⟨rfl, hin⟩))

/-- No port has two owners. -/
theorem owners_apart :
    (keyboardPort e → ¬ vgaPort e ∧ (∀ n, ¬ comPort e n) ∧ ¬ pciPort e) ∧
    (vgaPort e → (∀ n, ¬ comPort e n) ∧ ¬ pciPort e) ∧
    (∀ n, comPort e n → (∀ k, comPort e k → k = n) ∧ ¬ pciPort e) := by
  refine ⟨fun hk => ⟨?_, ?_, ?_⟩, fun hv => ⟨?_, ?_⟩, fun n hn => ⟨?_, ?_⟩⟩
  · unfold keyboardPort vgaPort byteWithin at *
    omega
  · intro n hn
    have hcom := comPort_cases hn
    unfold keyboardPort byteWithin at *
    omega
  · unfold keyboardPort pciPort byteWithin at *
    omega
  · intro n hn
    have hcom := comPort_cases hn
    unfold vgaPort byteWithin at *
    omega
  · unfold vgaPort pciPort byteWithin at *
    omega
  · intro k hk
    have hn := comPort_cases hn
    have hk := comPort_cases hk
    unfold byteWithin at *
    omega
  · have hcom := comPort_cases hn
    unfold pciPort byteWithin at *
    omega

theorem toPci_forwarded (e : IoExit) : (∃ a, e.toPci = .pci a) ∨ e.toPci = .nothing := by
  unfold IoExit.toPci
  cases e.direction <;> (simp only; split_ifs) <;> simp

/-- The dispatcher gives each device with ports of its own what is at these ports. -/
theorem shares (p : PCIDevice) (e : IoExit) :
    toKeyboard (.io e) = (e.dispatch p).forKeyboard ∧ toVga (.io e) = (e.dispatch p).forVga ∧
    (∀ n, toCom n (.io e) = (e.dispatch p).forCom n) ∧ toPci (.io e) = (e.dispatch p).forPci := by
  obtain ⟨hkeyb, hvga, hcom⟩ := owners_apart (e := e)
  rcases dispatch_cases p e with ⟨hin, hd⟩ | ⟨hin, hd⟩ | ⟨n, hin, hd⟩ | ⟨hin, hd⟩ | ⟨⟨hk, hv, hc, hp⟩, hd⟩
  · obtain ⟨hv, hc, hp⟩ := hkeyb hin
    simp only [toKeyboard, toVga, toCom, toPci, hin, hv, hc, hp, hd, if_true, if_false, IoExit.toKeyboard]
    cases e.direction <;> exact ⟨rfl, rfl, fun _ => rfl, rfl⟩
  · obtain ⟨hc, hp⟩ := hvga hin
    have hk : ¬ keyboardPort e := fun h => (hkeyb h).1 hin
    simp only [toKeyboard, toVga, toCom, toPci, hk, hin, hc, hp, hd, if_true, if_false]
    exact ⟨rfl, rfl, fun _ => rfl, rfl⟩
  · obtain ⟨hone, hp⟩ := hcom n hin
    have hsame : ∀ k, comPort e k ↔ n = k := fun k => ⟨fun hk => (hone k hk).symm, fun hk => hk ▸ hin⟩
    have hk : ¬ keyboardPort e := fun h => (hkeyb h).2.1 n hin
    have hv : ¬ vgaPort e := fun h => (hvga h).1 n hin
    simp only [toKeyboard, toVga, toCom, toPci, hk, hv, hsame, hp, hd, if_false]
    exact ⟨rfl, rfl, fun _ => rfl, rfl⟩
  · have hk : ¬ keyboardPort e := fun h => (hkeyb h).2.2 hin
    have hv : ¬ vgaPort e := fun h => (hvga h).2 hin
    have hc : ∀ n, ¬ comPort e n := fun n h => (hcom n h).2 hin
    simp only [toKeyboard, toVga, toCom, toPci, hk, hv, hc, hin, hd, if_true, if_false, IoExit.toPci]
    cases e.direction <;> simp only [reduceCtorEq, if_true, if_false] <;> split_ifs <;>
      exact ⟨rfl, rfl, fun _ => rfl, rfl⟩
  · simp only [toKeyboard, toVga, toCom, toPci, hk, hv, hc, hp, if_false]
    rcases hd with ⟨a, ha⟩ | ha <;> rw [ha] <;> exact ⟨rfl, rfl, fun _ => rfl, rfl⟩

end

/-! Whole runs. -/

variable (wild : Nat → UInt16)

/-- What one access makes of each device. -/
theorem access_parts (m : Vm) (f : IoExit.Forwarded) :
    (m.access wild f).keyb = run Keyboard.step m.keyb f.forKeyboard ∧
    (m.access wild f).vga = run VGAController.step m.vga f.forVga ∧
    (∀ n, (m.access wild f).com n = run SerialPort.step (m.com n) (f.forCom n)) ∧
    (m.access wild f).pci = run PciHost.step m.pci f.forPci ∧
    (m.access wild f).hdd = run (HardDisk.step wild) m.hdd f.forDisk := by
  cases f with
  | com n port out =>
    refine ⟨rfl, rfl, fun k => ?_, rfl, rfl⟩
    by_cases hk : n = k
    · subst hk
      simp [access, IoExit.Forwarded.forCom]
    · simp [access, IoExit.Forwarded.forCom, hk, Function.update_of_ne (Ne.symm hk)]
  | _ => exact ⟨rfl, rfl, fun _ => rfl, rfl, rfl⟩

theorem step_parts (m : Vm) (ev : Event) :
    (m.step wild ev).keyb = run Keyboard.step m.keyb (toKeyboard ev) ∧
    (m.step wild ev).vga = run VGAController.step m.vga (toVga ev) ∧
    (∀ n, (m.step wild ev).com n = run SerialPort.step (m.com n) (toCom n ev)) ∧
    (m.step wild ev).pci = run PciHost.step m.pci (toPci ev) ∧
    (m.step wild ev).hdd = run (HardDisk.step wild) m.hdd (m.toDisk ev) := by
  have hparts := access_parts wild m (m.forwarded ev)
  cases ev with
  | insert keycode => exact hparts
  | io e =>
    obtain ⟨hkeyb, hvga, hcom, hpci⟩ := shares m.bridge e
    rw [hkeyb, hvga, hpci]
    simp only [hcom]
    exact hparts

/-- In every run of the machine, from any state, each device is in the state that it reaches
by itself over the accesses at its own ports, in their order: the keyboard over these and
the keycodes of the console thread, the disk over what fell in its windows. -/
theorem devices_apart (m : Vm) (evs : List Event) :
    (run (step wild) m evs).keyb = run Keyboard.step m.keyb (evs.flatMap toKeyboard) ∧
    (run (step wild) m evs).vga = run VGAController.step m.vga (evs.flatMap toVga) ∧
    (∀ n, (run (step wild) m evs).com n = run SerialPort.step (m.com n) (evs.flatMap (toCom n))) ∧
    (run (step wild) m evs).pci = run PciHost.step m.pci (evs.flatMap toPci) ∧
    (run (step wild) m evs).hdd = run (HardDisk.step wild) m.hdd (observe (step wild) toDisk m evs) := by
  have hproj : ∀ {τ γ : Type} {next' : τ → γ → τ} (proj : Vm → τ) {f : Event → List γ},
      (∀ m ev, proj (m.step wild ev) = run next' (proj m) (f ev)) →
      proj (run (step wild) m evs) = run next' (proj m) (evs.flatMap f) := by
    intro τ γ next' proj f hstep
    have hstatic : observe (step wild) (fun _ ev => f ev) m evs = evs.flatMap f := observe_static f m evs
    rw [← hstatic]
    exact run_project (fun _ ev => f ev) hstep m evs
  refine ⟨hproj keyb fun m ev => (step_parts wild m ev).1, hproj vga fun m ev => (step_parts wild m ev).2.1, fun n => ?_,
    hproj pci fun m ev => (step_parts wild m ev).2.2.2.1,
    run_project toDisk (fun m ev => (step_parts wild m ev).2.2.2.2) m evs⟩
  exact hproj (fun m => m.com n) fun m ev => (step_parts wild m ev).2.2.1 n

end Vm
end EndlessFault
