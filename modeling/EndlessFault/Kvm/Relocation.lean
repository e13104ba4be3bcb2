import EndlessFault.Kvm.Vm
import EndlessFault.Frontend.ConfigurationSpace

/- The disk at other ports. The guest moves it by writing the two base address registers of
   the bridge through the configuration ports (`place`); from then on the exits in the two
   windows are its accesses, and `ataAccess` says which, by the distance from the start of the
   window. This holds for all places that leave the ports of the other devices alone
   and do not overlap (`Free`), whatever runs beside it: keycodes, accesses of the other
   devices, selections of an address and reads of the configuration space, ports nobody has.

   So a driver that works at the standard ports works at the others. Main result:
   `disk_relocated`. -/
namespace EndlessFault
open Lib.Machine Lib.Words

namespace Vm

/-- An output of a long. -/
def outLong (port : UInt16) (val : UInt32) : Event := .io ⟨.output, 4, port, 1, val⟩

/-- Registers 0 and 1 of the bridge, device 0 of the bus, written in turn. -/
def place (b0 b1 : UInt16) : List Event :=
  [outLong 0xCF8 0x80000010, outLong 0xCFC b0.toUInt32, outLong 0xCF8 0x80000014, outLong 0xCFC b1.toUInt32]

/-- A port that is no other device's. -/
def freePort (n : Nat) : Prop :=
  n < 2^16 ∧ n ≠ 0x60 ∧ n ≠ 0x64 ∧ ¬ (0x3D4 ≤ n ∧ n ≤ 0x3D5) ∧ ¬ (0x3F8 ≤ n ∧ n ≤ 0x3FF) ∧
  ¬ (0x2F8 ≤ n ∧ n ≤ 0x2FF) ∧ ¬ (0x3E8 ≤ n ∧ n ≤ 0x3EF) ∧ ¬ (0x2E8 ≤ n ∧ n ≤ 0x2EF) ∧ n ≠ 0xCF8 ∧
  ¬ (0xCFC ≤ n ∧ n ≤ 0xCFF)

/-- The two windows are free and lie apart. -/
structure Free (b0 b1 : UInt16) : Prop where
  commands : ∀ i, i ≤ 7 → freePort (b0.toNat + i)
  control : ∀ i, i ≤ 1 → freePort (b1.toNat + i)
  apart : b0.toNat + 7 < b1.toNat ∨ b1.toNat + 1 < b0.toNat

def byteAccess (e : IoExit) (addr : UInt16) : HardDisk.Access :=
  if e.direction = .output then .writeByte addr e.operandByte else .readByte addr

def wordAccess (e : IoExit) (addr : UInt16) : HardDisk.Access :=
  if e.direction = .output then .writeWord addr e.operandWord else .readWord addr

/-- The access of the disk that an event stands for, with the windows at `b0` and `b1`. -/
def ataAccess (b0 b1 : UInt16) : Event → List HardDisk.Access
  | .insert _ => []
  | .io e =>
    if b0.toNat ≤ e.port.toNat ∧ e.port.toNat ≤ b0.toNat + 7 then
      if e.size = 2 ∧ e.count = 1 then [wordAccess e (0x01F0 + (e.port - b0))]
      else if e.size = 1 ∧ e.count = 1 then [byteAccess e (0x01F0 + (e.port - b0))]
      else []
    else if b1.toNat ≤ e.port.toNat ∧ e.port.toNat ≤ b1.toNat + 1 then [byteAccess e (0x03F6 + (e.port - b1))]
    else []

/-- What the disk itself answers. -/
def diskAnswer (wild : Nat → UInt16) (d : HardDisk) : HardDisk.Access → Option Operand
  | .readByte addr => some (.byte (d.readRegByte addr).2)
  | .readWord addr => some (.word (d.readRegWord wild addr).2)
  | _ => none

/-- An event that writes nothing to the devices of the bus: what it may do to the bridge is read their
registers and select an address. -/
def keepsPci (ev : Event) : Prop := ∀ a ∈ toPci ev, ∀ h : PciHost, (h.step a).devices = h.devices

/-! The registers. -/

/-- The registers of the bridge. -/
def Placed (b0 b1 : UInt16) (m : Vm) : Prop :=
  m.bridge.getBar 0 = b0.toUInt32 ∧ m.bridge.getBar 1 = b1.toUInt32

/-- A long written to device 0 through the two ports, below the end of its registers. -/
theorem slot_written {h : PciHost} {p : PCIDevice} (hs : h.slot 0 = some p) {cap off : UInt32}
    (hdevice : (cap >>> 11) &&& 0x0000001F = 0) (hfunction : (cap >>> 8) &&& 0x00000007 = 0)
    (hoffset : cap &&& 0x000000FF = off) (hin : off.toNat + 4 ≤ 192) (val : UInt32) :
    ((h.step (.writeLong 0xCF8 cap)).step (.writeLong 0xCFC val)).slot 0 = some (p.store off.toNat 4 val.toNat) := by
  have hselect : h.step (.writeLong 0xCF8 cap) = PciHost.prepareData { h with CAP := cap } := by
    rw [PciHost.step, PciHost.writeRegLong]
    exact if_pos rfl
  have hnumber : (PciHost.prepareData { h with CAP := cap }).deviceNumber = 0 := hdevice
  have htarget : (PciHost.prepareData { h with CAP := cap }).target = some p := by
    rw [PciHost.target, hnumber]
    exact (if_neg (not_not.mpr hfunction)).trans hs
  have hplace : (PciHost.prepareData { h with CAP := cap }).offset 0xCFC = off := by
    rw [PciHost.offset, ← hoffset]
    exact UInt32.add_sub_cancel ..
  have hroom : ¬ (off + 4).toNat > DeviceRegister.sizeof := by
    rw [PCIDevice.refused_iff (by simp; omega)]
    simpa using hin
  rw [hselect, PciHost.step, PciHost.writeRegLong, if_neg (show (0xCFC : UInt16) ≠ PciHost.capAddr by decide), htarget]
  simp only
  rw [PciHost.slot_update _ _ (by rw [hnumber]; decide), if_pos (by rw [hnumber]; rfl), hplace,
    PCIDevice.writeRegLongPCI, PCIDevice.writeRegPCI, if_neg hroom]
  rfl

/-- A register that holds a long. -/
theorem getBar_of_load {p : PCIDevice} {i : UInt8} (hi : ¬ i > 5) {val : UInt32}
    (h : load p.bytes (16 + 4 * i.toNat) 4 = val.toNat) : p.getBar i = val := by
  have hbar : DeviceRegister.BAR.offset = 16 := by decide
  rw [PCIDevice.getBar, if_neg hi, hbar]
  exact (congrArg UInt32.ofNat h).trans UInt32.ofNat_toNat

theorem bridge_eq {m : Vm} {p : PCIDevice} (h : m.pci.slot 0 = some p) : m.bridge = p := by
  simp only [bridge, h, Option.get_some]

/-- A long put out at a port of the PCI host. -/
theorem step_outLong (wild : Nat → UInt16) (m : Vm) (port : UInt16) (val : UInt32)
    (hport : port = 0xCF8 ∨ port = 0xCFC) :
    (m.step wild (outLong port val)).pci = m.pci.step (.writeLong port val) ∧
    (m.step wild (outLong port val)).hdd = m.hdd := by
  have hin : pciPort ⟨.output, 4, port, 1, val⟩ := by
    rcases hport with rfl | rfl <;> simp [pciPort]
  have hpci : toPci (outLong port val) = [.writeLong port val] := if_pos hin
  have hdisk : m.toDisk (outLong port val) = [] := by
    have hbranch := (branch_iff (p := m.bridge)).2.2.2.2.2.2.mpr hin
    simp only [toDisk, forwarded, outLong, IoExit.dispatch, hbranch]
    rfl
  obtain ⟨-, -, -, hp, hd⟩ := step_parts wild m (outLong port val)
  rw [hp, hd, hpci, hdisk]
  exact ⟨rfl, rfl⟩

/-- The four writes set the two registers and do not reach the disk. -/
theorem placed_place (wild : Nat → UInt16) (b0 b1 : UInt16) (m : Vm) :
    Placed b0 b1 (run (step wild) m (place b0 b1)) ∧ (run (step wild) m (place b0 b1)).hdd = m.hdd := by
  obtain ⟨p, hp⟩ := Option.isSome_iff_exists.mp m.bridged
  have haddr : ∀ m val, _ := fun m val => step_outLong wild m 0xCF8 val (.inl rfl)
  have hdata : ∀ m val, _ := fun m val => step_outLong wild m 0xCFC val (.inr rfl)
  have hslot : (run (step wild) m (place b0 b1)).pci.slot 0 =
      some ((p.store 16 4 b0.toUInt32.toNat).store 20 4 b1.toUInt32.toNat) := by
    simp only [place, run_cons, run_nil]
    rw [(hdata _ _).1, (haddr _ _).1, (hdata _ _).1, (haddr _ _).1]
    exact slot_written (slot_written hp (by decide) (by decide) rfl (by decide) b0.toUInt32)
      (by decide) (by decide) rfl (by decide) b1.toUInt32
  have hlong : ∀ (q : PCIDevice) (off : Nat) (val : UInt32), off + 4 ≤ 192 →
      load (q.store off 4 val.toNat).bytes off 4 = val.toNat := by
    intro q off val hoff
    rw [PCIDevice.bytes_store q hoff]
    exact (load_store_same ..).trans (Nat.mod_eq_of_lt val.toNat_lt)
  have hhdd : (run (step wild) m (place b0 b1)).hdd = m.hdd := by
    simp only [place, run_cons, run_nil]
    rw [(hdata _ _).2, (haddr _ _).2, (hdata _ _).2, (haddr _ _).2]
  rw [Placed, bridge_eq hslot]
  refine ⟨⟨getBar_of_load (by decide) ?_, getBar_of_load (by decide) (hlong _ 20 _ (by decide))⟩, hhdd⟩
  rw [PCIDevice.bytes_store _ (by decide)]
  exact (load_store_disjoint (by decide)).trans (hlong p 16 _ (by decide))

/-- Without writes to the devices of the bus the registers stay. -/
theorem placed_step {wild : Nat → UInt16} {b0 b1 : UInt16} {m : Vm} {ev : Event} (hm : Placed b0 b1 m)
    (hev : keepsPci ev) : Placed b0 b1 (m.step wild ev) := by
  have hdevices : (m.step wild ev).pci.devices = m.pci.devices := by
    rw [(step_parts wild m ev).2.2.2.1]
    exact run_invariant (fun h : PciHost => h.devices = m.pci.devices) (fun a => a ∈ toPci ev)
      (fun h a ha hh => (hev a ha h).trans hh) rfl fun _ ha => ha
  have hslot : (m.step wild ev).pci.slot 0 = m.pci.slot 0 := by rw [PciHost.slot, PciHost.slot, hdevices]
  obtain ⟨p, hp⟩ := Option.isSome_iff_exists.mp m.bridged
  have hbridge : (m.step wild ev).bridge = m.bridge := by
    rw [bridge_eq hp]
    exact bridge_eq (by rw [hslot, hp])
  rwa [Placed, hbridge]

/-! The dispatch. -/

section
variable {b0 b1 : UInt16} {e : IoExit} {p : PCIDevice}

theorem freePort_unowned (h : freePort e.port.toNat) :
    ¬ keyboardPort e ∧ ¬ vgaPort e ∧ (∀ n, ¬ comPort e n) ∧ ¬ pciPort e := by
  unfold freePort at h
  refine ⟨?_, ?_, ?_, ?_⟩
  · unfold keyboardPort byteWithin
    omega
  · unfold vgaPort byteWithin
    omega
  · intro n hn
    have hcom := comPort_cases hn
    unfold byteWithin at hcom
    omega
  · unfold pciPort
    omega

/-- The branch of an exit at a port that is no other device's. -/
theorem branch_unowned (h : ¬ keyboardPort e ∧ ¬ vgaPort e ∧ (∀ n, ¬ comPort e n) ∧ ¬ pciPort e) :
    e.branch p = if e.port.toUInt32 ≥ p.getBar 0 ∧ e.port.toUInt32 ≤ p.getBar 0 + 7 then .bar0
      else if e.port.toUInt32 ≥ p.getBar 1 ∧ e.port.toUInt32 ≤ p.getBar 1 + 1 then .bar1
      else .unhandled := by
  obtain ⟨hkeyb, hvga, hcom1, hcom2, hcom3, hcom4, hpci⟩ := branch_iff (p := p) (e := e)
  have hne : ∀ c ∈ [IoExit.Branch.keyboard, .vga, .com1, .com2, .com3, .com4, .pci], c ≠ e.branch p := by
    rintro c hc rfl
    simp only [List.mem_cons, List.not_mem_nil, or_false, hkeyb, hvga, hcom1, hcom2, hcom3, hcom4, hpci, h] at hc
  have hrest : ∀ b, e.branch p = b → (∀ c ∈ [IoExit.Branch.keyboard, .vga, .com1, .com2, .com3, .com4, .pci], c ≠ b) →
      (if e.port.toUInt32 ≥ p.getBar 0 ∧ e.port.toUInt32 ≤ p.getBar 0 + 7 then IoExit.Branch.bar0
        else if e.port.toUInt32 ≥ p.getBar 1 ∧ e.port.toUInt32 ≤ p.getBar 1 + 1 then .bar1
        else .unhandled) = b := by
    intro b hb hne
    unfold IoExit.branch at hb
    iterate 7 replace hb := IoExit.else_of_ne hb (hne _ (by simp))
    exact hb
  exact (hrest _ rfl hne).symm

/-- A port in a window at a 16-bit address, as the dispatcher compares it. -/
theorem window_iff (b port : UInt16) (k : UInt32) (hk : b.toNat + k.toNat < 2^16) :
    port.toUInt32 ≥ b.toUInt32 ∧ port.toUInt32 ≤ b.toUInt32 + k ↔
      b.toNat ≤ port.toNat ∧ port.toNat ≤ b.toNat + k.toNat := by
  simp only [ge_iff_le, UInt32.le_iff_toNat_le, UInt16.toNat_toUInt32, UInt32.toNat_add]
  omega

/-- What the bridge makes of a port. -/
theorem translate_placed (h0 : (p.getBar 0).toUInt16 = b0) (h1 : (p.getBar 1).toUInt16 = b1) (port : UInt16) :
    PCIATA.translate p port =
      if b0.toNat ≤ port.toNat ∧ port.toNat ≤ b0.toNat + 7 then 0x01F0 + (port - b0)
      else if b1.toNat ≤ port.toNat ∧ port.toNat ≤ b1.toNat + 1 then 0x03F6 + (port - b1)
      else port := by
  simp only [PCIATA.translate, h0, h1, ge_iff_le, UInt16.le_iff_toNat_le, UInt16.add_comm]

theorem byteToBridge_eq : e.byteToBridge p = .hardDisk (byteAccess e (PCIATA.translate p e.port)) := by
  unfold IoExit.byteToBridge byteAccess
  cases e.direction <;> rfl

theorem wordToBridge_eq : e.wordToBridge p = .hardDisk (wordAccess e (PCIATA.translate p e.port)) := by
  unfold IoExit.wordToBridge wordAccess
  cases e.direction <;> rfl

/-- With the registers at free ports the disk gets exactly its accesses. -/
theorem forDisk_dispatch (hfree : Free b0 b1) (h0 : p.getBar 0 = b0.toUInt32) (h1 : p.getBar 1 = b1.toUInt32) :
    (e.dispatch p).forDisk = ataAccess b0 b1 (.io e) := by
  have hin0 := window_iff b0 e.port 7 (hfree.commands 7 (by decide)).1
  have hin1 := window_iff b1 e.port 1 (hfree.control 1 (by decide)).1
  have hlow0 : (p.getBar 0).toUInt16 = b0 := by rw [h0, UInt16.toUInt16_toUInt32]
  have hlow1 : (p.getBar 1).toUInt16 = b1 := by rw [h1, UInt16.toUInt16_toUInt32]
  have htrans := translate_placed hlow0 hlow1 e.port
  have hbranch : ¬ keyboardPort e ∧ ¬ vgaPort e ∧ (∀ n, ¬ comPort e n) ∧ ¬ pciPort e → e.branch p =
      if b0.toNat ≤ e.port.toNat ∧ e.port.toNat ≤ b0.toNat + 7 then .bar0
      else if b1.toNat ≤ e.port.toNat ∧ e.port.toNat ≤ b1.toNat + 1 then .bar1
      else .unhandled := by
    intro hno
    rw [branch_unowned hno, h0, h1]
    simp only [hin0, hin1]
    rfl
  rw [ataAccess]
  by_cases hw0 : b0.toNat ≤ e.port.toNat ∧ e.port.toNat ≤ b0.toNat + 7
  · have hport := hfree.commands (e.port.toNat - b0.toNat) (by omega)
    rw [Nat.add_sub_cancel' hw0.1] at hport
    rw [if_pos hw0] at htrans ⊢
    have hb := hbranch (freePort_unowned hport)
    rw [if_pos hw0] at hb
    simp only [IoExit.dispatch, hb, wordToBridge_eq, byteToBridge_eq, htrans]
    split_ifs <;> rfl
  · rw [if_neg hw0] at htrans ⊢
    by_cases hw1 : b1.toNat ≤ e.port.toNat ∧ e.port.toNat ≤ b1.toNat + 1
    · have hport := hfree.control (e.port.toNat - b1.toNat) (by omega)
      rw [Nat.add_sub_cancel' hw1.1] at hport
      rw [if_pos hw1] at htrans ⊢
      have hb := hbranch (freePort_unowned hport)
      rw [if_neg hw0, if_pos hw1] at hb
      simp only [IoExit.dispatch, hb, byteToBridge_eq, htrans]
      rfl
    · rw [if_neg hw1]
      rcases dispatch_cases p e with ⟨-, hd⟩ | ⟨-, hd⟩ | ⟨n, -, hd⟩ | ⟨-, hd⟩ | ⟨hno, -⟩
      · rw [hd, IoExit.toKeyboard]
        cases e.direction <;> rfl
      · rw [hd]
        rfl
      · rw [hd]
        rfl
      · rcases toPci_forwarded e with ⟨a, ha⟩ | ha <;> rw [hd, ha] <;> rfl
      · have hb := hbranch hno
        rw [if_neg hw0, if_neg hw1] at hb
        simp only [IoExit.dispatch, hb]
        rfl

end

/-! Whole runs. -/

variable (wild : Nat → UInt16)

theorem toDisk_placed {b0 b1 : UInt16} {m : Vm} (hfree : Free b0 b1) (hm : Placed b0 b1 m) (ev : Event) :
    m.toDisk ev = ataAccess b0 b1 ev := by
  cases ev with
  | insert keycode => rfl
  | io e => exact forDisk_dispatch hfree hm.1 hm.2

/-- What the guest reads from the disk is what the disk answers. -/
theorem answer_disk {m : Vm} {e : IoExit} {a : HardDisk.Access} (ha : a ∈ m.toDisk (.io e)) :
    m.answer wild (e.dispatch m.bridge) = diskAnswer wild m.hdd a := by
  have hmem : a ∈ (e.dispatch m.bridge).forDisk := ha
  cases hd : e.dispatch m.bridge with
  | hardDisk a' =>
    rw [hd] at hmem
    obtain rfl := List.mem_singleton.mp hmem
    cases a <;> rfl
  | _ =>
    rw [hd] at hmem
    exact absurd hmem List.not_mem_nil

theorem hdd_placed {b0 b1 : UInt16} {m : Vm} (hfree : Free b0 b1) (hm : Placed b0 b1 m) (evs : List Event)
    (hevs : ∀ ev ∈ evs, keepsPci ev) :
    Placed b0 b1 (run (step wild) m evs) ∧
    (run (step wild) m evs).hdd = run (HardDisk.step wild) m.hdd (evs.flatMap (ataAccess b0 b1)) := by
  induction evs generalizing m with
  | nil => exact ⟨hm, rfl⟩
  | cons ev evs ih =>
    obtain ⟨hplaced, hrun⟩ := ih (placed_step hm (hevs ev List.mem_cons_self))
      fun ev' hev' => hevs ev' (List.mem_cons_of_mem ev hev')
    refine ⟨hplaced, ?_⟩
    rw [run_cons, hrun, (step_parts wild m ev).2.2.2.2, toDisk_placed hfree hm, List.flatMap_cons, run_append]

/-- After the registers have been written with free places, in any state of the machine, every run
without further writes to the devices of the bus takes the disk through exactly the
accesses in its two windows, at the standard addresses, and each of them is answered as the disk answers it. -/
theorem disk_relocated (m : Vm) {b0 b1 : UInt16} (hfree : Free b0 b1) (evs : List Event)
    (hevs : ∀ ev ∈ evs, keepsPci ev) :
    (run (step wild) m (place b0 b1 ++ evs)).hdd =
      run (HardDisk.step wild) m.hdd (evs.flatMap (ataAccess b0 b1)) ∧
    ∀ (before after : List Event) (e : IoExit), evs = before ++ .io e :: after →
      ∀ a ∈ ataAccess b0 b1 (.io e),
        operand wild (run (step wild) m (place b0 b1 ++ before)) e =
          e.operand (diskAnswer wild (run (HardDisk.step wild) m.hdd (before.flatMap (ataAccess b0 b1))) a) := by
  obtain ⟨hplaced, hhdd⟩ := placed_place wild b0 b1 m
  refine ⟨?_, ?_⟩
  · rw [run_append, (hdd_placed wild hfree hplaced evs hevs).2, hhdd]
  · intro before after e hsplit a ha
    obtain ⟨hnow, hrun⟩ := hdd_placed wild hfree hplaced before
      fun ev hev => hevs ev (by rw [hsplit]; exact List.mem_append_left _ hev)
    rw [hhdd] at hrun
    rw [run_append, operand, answer_disk wild (by rwa [toDisk_placed hfree hnow]), hrun]

/-- The disk at 0xC000 and 0xC100: a keycode comes in, the first register is selected and read back, and the
status is read at 0xC007. -/
theorem disk_relocated_status :
    (run (step fun _ => 0) zeroed (place 0xC000 0xC100 ++
      [.insert 0x1e, outLong 0xCF8 0x80000010, .io ⟨.input, 4, 0xCFC, 1, 0⟩, .io ⟨.input, 1, 0xC007, 1, 0⟩])).hdd =
      run (HardDisk.step fun _ => 0) zeroed.hdd [.readByte HardDisk.stsAddr] := by
  have hfree : Free 0xC000 0xC100 := by
    refine ⟨fun i hi => ?_, fun i hi => ?_, by decide⟩
    · simp [freePort]
      omega
    · simp [freePort]
      omega
  have hselect : ∀ h : PciHost, (h.step (.writeLong 0xCF8 0x80000010)).devices = h.devices := fun _ => rfl
  have hread : ∀ h : PciHost, (h.step (.readLong 0xCFC)).devices = h.devices := fun _ => rfl
  refine (disk_relocated (fun _ => 0) zeroed hfree [.insert 0x1e, outLong 0xCF8 0x80000010,
    .io ⟨.input, 4, 0xCFC, 1, 0⟩, .io ⟨.input, 1, 0xC007, 1, 0⟩] ?_).1
  simp [keepsPci, toPci, pciPort, outLong, hselect, hread]

end Vm
end EndlessFault
