import EndlessFault.Frontend.HardDisk
import EndlessFault.Frontend.Keyboard
import EndlessFault.Frontend.PciHost

/- Where a port access of the guest goes: the `KVM_EXIT_IO` branch of the machine's
   loop (`kvm.cpp`) and, for the disk, the ATA bridge it forwards to
   (`frontend/PCI_ATA.cpp`). The disk's registers lie where the guest put base
   address registers 0 and 1 of the bridge, the device in slot 0. Both sides compare
   the port with them: the dispatcher with the 32-bit registers, the bridge, to turn
   the port into an ATA address, with the registers cut to 16 bits.

   The two agree unless the low half of base address register 0 hides the port from
   base address register 1. Main result: `relocation_agrees_iff`. -/
namespace EndlessFault

/-! The bridge. -/

namespace PCIATA

/-- The ATA address of a port, by the registers as 16-bit addresses; their ends
are computed in `int`. -/
def translate (p : PCIDevice) (addr : UInt16) : UInt16 :=
  let bar0 := (p.getBar 0).toUInt16
  let bar1 := (p.getBar 1).toUInt16
  if addr ≥ bar0 ∧ addr.toNat ≤ bar0.toNat + 7 then addr - bar0 + 0x01F0
  else if addr ≥ bar1 ∧ addr.toNat ≤ bar1.toNat + 1 then addr - bar1 + 0x03F6
  else addr

/-! The access each routine makes of its `HardDisk`. -/

def writeRegWord (p : PCIDevice) (addr : UInt16) (val : UInt16) : HardDisk.Access :=
  .writeWord (translate p addr) val

def readRegWord (p : PCIDevice) (addr : UInt16) : HardDisk.Access := .readWord (translate p addr)

def writeRegByte (p : PCIDevice) (addr : UInt16) (val : UInt8) : HardDisk.Access :=
  .writeByte (translate p addr) val

def readRegByte (p : PCIDevice) (addr : UInt16) : HardDisk.Access := .readByte (translate p addr)

end PCIATA

/-! The dispatcher. -/

inductive IoDirection where
  | input
  | output
  deriving DecidableEq, Repr

/-- The `io` part of an exit; `data` is the operand at `data_offset`. -/
structure IoExit where
  direction : IoDirection
  size : UInt8
  port : UInt16
  count : UInt32
  data : UInt32
  deriving DecidableEq, Repr

namespace IoExit

/-- The branches of the dispatch, in their order. -/
inductive Branch where
  | keyboard
  | vga
  | com1
  | com2
  | com3
  | com4
  | pci
  | bar0
  | bar1
  | unhandled
  deriving DecidableEq, Repr

/-- A single byte, as the devices before the PCI host ask for. -/
def isByte (e : IoExit) : Bool := e.size == 1 && e.count == 1

def within (port first last : UInt16) : Bool := first ≤ port && port ≤ last

/-- `p` is `connected_PCI_devices[0]`. -/
def branch (p : PCIDevice) (e : IoExit) : Branch :=
  if e.isByte && (e.port == 0x60 || e.port == 0x64) then .keyboard
  else if e.isByte && (e.port == 0x03D4 || e.port == 0x03D5) then .vga
  else if e.isByte && within e.port 0x03f8 0x03ff then .com1
  else if e.isByte && within e.port 0x02f8 0x02ff then .com2
  else if e.isByte && within e.port 0x03e8 0x03ef then .com3
  else if e.isByte && within e.port 0x02e8 0x02ef then .com4
  else if within e.port 0xcfc 0xcff || e.port == 0xcf8 then .pci
  else if e.port.toUInt32 ≥ p.getBar 0 ∧ e.port.toUInt32 ≤ p.getBar 0 + 7 then .bar0
  else if e.port.toUInt32 ≥ p.getBar 1 ∧ e.port.toUInt32 ≤ p.getBar 1 + 1 then .bar1
  else .unhandled

/-- The device an access is forwarded to, and the access it gets. -/
inductive Forwarded where
  | keyboard (a : Keyboard.Event)
  | vga (port : UInt16) (out : Option UInt8)
  | com (n : Nat) (port : UInt16) (out : Option UInt8)
  | pci (a : PciHost.Access)
  | hardDisk (a : HardDisk.Access)
  | nothing

def operandByte (e : IoExit) : UInt8 := e.data.toUInt8
def operandWord (e : IoExit) : UInt16 := e.data.toUInt16

/-- The byte written out, if the access is an output. -/
def out (e : IoExit) : Option UInt8 :=
  if e.direction = .output then some e.operandByte else none

def toKeyboard (e : IoExit) : Forwarded :=
  match e.direction with
  | .output => .keyboard (.writeByte e.port e.operandByte)
  | .input => .keyboard (.readByte e.port)

/-- The PCI host takes every width and does not look at the count. -/
def toPci (e : IoExit) : Forwarded :=
  match e.direction with
  | .output =>
    if e.size = 1 then .pci (.writeByte e.port e.operandByte)
    else if e.size = 2 then .pci (.writeWord e.port e.operandWord)
    else if e.size = 4 then .pci (.writeLong e.port e.data)
    else .nothing
  | .input =>
    if e.size = 1 then .pci (.readByte e.port)
    else if e.size = 2 then .pci (.readWord e.port)
    else if e.size = 4 then .pci (.readLong e.port)
    else .nothing

def byteToBridge (p : PCIDevice) (e : IoExit) : Forwarded :=
  match e.direction with
  | .output => .hardDisk (PCIATA.writeRegByte p e.port e.operandByte)
  | .input => .hardDisk (PCIATA.readRegByte p e.port)

def wordToBridge (p : PCIDevice) (e : IoExit) : Forwarded :=
  match e.direction with
  | .output => .hardDisk (PCIATA.writeRegWord p e.port e.operandWord)
  | .input => .hardDisk (PCIATA.readRegWord p e.port)

/-- The branch of register 1 makes a byte access whatever the size. -/
def dispatch (p : PCIDevice) (e : IoExit) : Forwarded :=
  match e.branch p with
  | .keyboard => e.toKeyboard
  | .vga => .vga e.port e.out
  | .com1 => .com 1 e.port e.out
  | .com2 => .com 2 e.port e.out
  | .com3 => .com 3 e.port e.out
  | .com4 => .com 4 e.port e.out
  | .pci => e.toPci
  | .bar0 =>
    if e.size = 2 ∧ e.count = 1 then e.wordToBridge p
    else if e.size = 1 ∧ e.count = 1 then e.byteToBridge p
    else .nothing
  | .bar1 => e.byteToBridge p
  | .unhandled => .nothing

end IoExit

/-- The address of an access of the disk. -/
def HardDisk.Access.addr : HardDisk.Access → UInt16
  | .readByte addr => addr
  | .writeByte addr _ => addr
  | .readWord addr => addr
  | .writeWord addr _ => addr

namespace IoExit

/-! What the branches say of the port. -/

section
variable {p : PCIDevice} {e : IoExit}

/-- A test that leads elsewhere was not met. -/
theorem else_of_ne {c : Prop} [Decidable c] {x y z : Branch} (h : (if c then x else y) = z)
    (hx : x ≠ z) : y = z := by
  by_cases hc : c
  · rw [if_pos hc] at h
    exact absurd h hx
  · rwa [if_neg hc] at h

/-- The seven tests before those of the base address registers failed where one of
these is taken. -/
theorem bars_of_branch {b : Branch} (h : e.branch p = b) (hb : b = .bar0 ∨ b = .bar1) :
    (if e.port.toUInt32 ≥ p.getBar 0 ∧ e.port.toUInt32 ≤ p.getBar 0 + 7 then Branch.bar0
      else if e.port.toUInt32 ≥ p.getBar 1 ∧ e.port.toUInt32 ≤ p.getBar 1 + 1 then .bar1
      else .unhandled) = b := by
  have hne : ∀ c : Branch, c ∈ [Branch.keyboard, .vga, .com1, .com2, .com3, .com4, .pci] → c ≠ b := by
    rcases hb with rfl | rfl <;> simp
  unfold branch at h
  iterate 7 replace h := else_of_ne h (hne _ (by simp))
  exact h

/-- The branch of register 0: the port lies in the eight ports from it. -/
theorem bar0_range (h : e.branch p = .bar0) :
    (p.getBar 0).toNat ≤ e.port.toNat ∧ e.port.toNat ≤ (p.getBar 0).toNat + 7 := by
  have hport := e.port.toNat_lt
  have hbars := bars_of_branch h (.inl rfl)
  split_ifs at hbars with hbar
  simp only [ge_iff_le, UInt32.le_iff_toNat_le, UInt16.toNat_toUInt32, UInt32.toNat_add,
    UInt32.reduceToNat] at hbar
  omega

/-- The branch of register 1: the port lies in the two ports from it and outside
the range of register 0. -/
theorem bar1_range (h : e.branch p = .bar1) :
    ¬ ((p.getBar 0).toNat ≤ e.port.toNat ∧ e.port.toNat ≤ (p.getBar 0).toNat + 7) ∧
    (p.getBar 1).toNat ≤ e.port.toNat ∧ e.port.toNat ≤ (p.getBar 1).toNat + 1 := by
  have hport := e.port.toNat_lt
  have hbars := bars_of_branch h (.inr rfl)
  split_ifs at hbars with hbar0 hbar1
  simp only [ge_iff_le, UInt32.le_iff_toNat_le, UInt16.toNat_toUInt32, UInt32.toNat_add,
    UInt32.reduceToNat] at hbar0 hbar1
  omega

/-- What the dispatcher forwards to the disk is at the translated port. -/
theorem addr_of_forwarded {a : HardDisk.Access} (h : e.dispatch p = .hardDisk a) :
    a.addr = PCIATA.translate p e.port := by
  have hbyte : e.byteToBridge p = .hardDisk a → a.addr = PCIATA.translate p e.port := by
    intro hb
    unfold byteToBridge at hb
    split at hb <;> (cases hb; rfl)
  have hword : e.wordToBridge p = .hardDisk a → a.addr = PCIATA.translate p e.port := by
    intro hw
    unfold wordToBridge at hw
    split at hw <;> (cases hw; rfl)
  unfold dispatch at h
  cases hbr : e.branch p with
  | bar0 =>
    simp only [hbr] at h
    split_ifs at h
    · exact hword h
    · exact hbyte h
  | bar1 => exact hbyte (by simpa only [hbr] using h)
  | keyboard =>
    simp only [hbr, toKeyboard] at h
    split at h <;> cases h
  | pci =>
    simp only [hbr, toPci] at h
    split at h <;> split_ifs at h
  | vga => simp [hbr] at h
  | com1 => simp [hbr] at h
  | com2 => simp [hbr] at h
  | com3 => simp [hbr] at h
  | com4 => simp [hbr] at h
  | unhandled => simp [hbr] at h

/-- The branch of register 1 forwards every access. -/
theorem bar1_forwards (h : e.branch p = .bar1) : ∃ a, e.dispatch p = .hardDisk a := by
  simp only [dispatch, h, byteToBridge]
  split <;> exact ⟨_, rfl⟩

/-! What the bridge makes of the port. -/

theorem translate_bar0 {port : UInt16}
    (h : (p.getBar 0).toUInt16.toNat ≤ port.toNat ∧ port.toNat ≤ (p.getBar 0).toUInt16.toNat + 7) :
    (PCIATA.translate p port).toNat = 0x01F0 + (port.toNat - (p.getBar 0).toUInt16.toNat) := by
  have hport := port.toNat_lt
  simp only [PCIATA.translate, ge_iff_le, UInt16.le_iff_toNat_le, if_pos h]
  rw [UInt16.toNat_add, UInt16.toNat_sub_of_le _ _ (UInt16.le_iff_toNat_le.mpr h.1)]
  simp only [UInt16.reduceToNat]
  omega

theorem translate_bar1 {port : UInt16}
    (h0 : ¬ ((p.getBar 0).toUInt16.toNat ≤ port.toNat ∧
      port.toNat ≤ (p.getBar 0).toUInt16.toNat + 7))
    (h1 : (p.getBar 1).toUInt16.toNat ≤ port.toNat ∧ port.toNat ≤ (p.getBar 1).toUInt16.toNat + 1)
    (hsmall : port.toNat - (p.getBar 1).toUInt16.toNat ≤ 1) :
    (PCIATA.translate p port).toNat = 0x03F6 + (port.toNat - (p.getBar 1).toUInt16.toNat) := by
  simp only [PCIATA.translate, ge_iff_le, UInt16.le_iff_toNat_le, if_neg h0, if_pos h1]
  rw [UInt16.toNat_add, UInt16.toNat_sub_of_le _ _ (UInt16.le_iff_toNat_le.mpr h1.1)]
  simp only [UInt16.reduceToNat]
  omega

end

/-- The disk gets what the dispatcher forwards through a base address register at
the ATA address of its distance from that register. -/
def RelocationAgrees (p : PCIDevice) (e : IoExit) : Prop :=
  (e.branch p = .bar0 → ∀ a, e.dispatch p = .hardDisk a →
    a.addr.toNat = 0x01F0 + (e.port.toNat - (p.getBar 0).toNat)) ∧
  (e.branch p = .bar1 → ∀ a, e.dispatch p = .hardDisk a →
    a.addr.toNat = 0x03F6 + (e.port.toNat - (p.getBar 1).toNat))

/-- For every bridge and every access: the two agree if and only if the access
does not go through register 1 at a port that the low half of register 0, a
register of 2^16 or more, seems to claim. -/
theorem relocation_agrees_iff (p : PCIDevice) (e : IoExit) :
    RelocationAgrees p e ↔
      ¬ (e.branch p = .bar1 ∧ 2^16 ≤ (p.getBar 0).toNat ∧
        (p.getBar 0).toNat % 2^16 ≤ e.port.toNat ∧
        e.port.toNat ≤ (p.getBar 0).toNat % 2^16 + 7) := by
  have hport := e.port.toNat_lt
  have hlow : ∀ i, (p.getBar i).toUInt16.toNat = (p.getBar i).toNat % 2^16 :=
    fun i => UInt32.toNat_toUInt16 _
  constructor
  · rintro ⟨-, hbar1⟩ ⟨hbr, -, hrange⟩
    obtain ⟨a, ha⟩ := bar1_forwards hbr
    have hwant := hbar1 hbr a ha
    rw [addr_of_forwarded ha, translate_bar0 (by rw [hlow]; exact hrange)] at hwant
    -- one address is below 0x1F8, the other from 0x3F6 on
    have hlow0 := hlow 0
    omega
  · intro hcond
    refine ⟨fun hbr a ha => ?_, fun hbr a ha => ?_⟩
    · have hrange := bar0_range hbr
      have hexact : (p.getBar 0).toUInt16.toNat = (p.getBar 0).toNat := by
        rw [hlow]
        omega
      rw [addr_of_forwarded ha, translate_bar0 (by rw [hexact]; exact hrange), hexact]
    · obtain ⟨hout, hrange⟩ := bar1_range hbr
      have hexact : (p.getBar 1).toUInt16.toNat = (p.getBar 1).toNat := by
        rw [hlow]
        omega
      have hmiss : ¬ ((p.getBar 0).toUInt16.toNat ≤ e.port.toNat ∧
          e.port.toNat ≤ (p.getBar 0).toUInt16.toNat + 7) := by
        rw [hlow]
        intro hin
        exact hcond ⟨hbr, by omega, hin⟩
      rw [addr_of_forwarded ha, translate_bar1 hmiss (by rw [hexact]; exact hrange)
        (by rw [hexact]; omega), hexact]

/-- A bridge with 0x100003F0 in register 0 and 0x3F6 in register 1: a byte written
to the device control register reaches the disk as `HND`. -/
theorem control_reaches_head :
    let p := ((PCIDevice.mk (Vector.replicate 192 0)).setBar 0x100003F0 0).setBar 0x3F6 1
    let e : IoExit := ⟨.output, 1, 0x3F6, 1, 0x02⟩
    e.branch p = .bar1 ∧ e.dispatch p = .hardDisk (.writeByte HardDisk.hndAddr 0x02) ∧
    ¬ RelocationAgrees p e := by
  intro p e
  have h0 : p.getBar 0 = 0x100003F0 := by decide +kernel
  have h1 : p.getBar 1 = 0x3F6 := by decide +kernel
  generalize p = q at h0 h1 ⊢
  have hbr : e.branch q = .bar1 := by
    simp only [branch, h0, h1]
    decide
  have haddr : PCIATA.translate q 0x3F6 = HardDisk.hndAddr := by
    simp only [PCIATA.translate, h0, h1]
    decide
  have hfwd : e.dispatch q = .hardDisk (.writeByte HardDisk.hndAddr 0x02) := by
    simp only [dispatch, hbr, byteToBridge, e, PCIATA.writeRegByte, haddr]
    rfl
  refine ⟨hbr, hfwd, ?_⟩
  intro hagree
  have hwant := hagree.2 hbr _ hfwd
  rw [h1] at hwant
  exact absurd hwant (by decide)

end IoExit

end EndlessFault
