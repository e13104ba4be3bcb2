import EndlessFault.Frontend.ConfigurationSpace

/- Whether the access widths agree. Two widths over the same offsets read the same
   bytes (`read_split`), so they can only disagree where they differ in what they
   take for present. The word read asks for bus 0 and the other five accesses do
   not, so on another bus the device of the same slot of bus 0 answers bytes and
   longs and takes every write. Main result: `widths_agree_iff`. -/
namespace EndlessFault
open Lib.Words

namespace PciHost
open ConfigurationSpace

/-- The numbers the three reads return at a port. -/
def byteAt (h : PciHost) (addr : UInt16) : Nat := (h.readRegByte addr).toNat
def wordAt (h : PciHost) (addr : UInt16) : Nat := (h.readRegWord addr).toNat
def longAt (h : PciHost) (addr : UInt16) : Nat := (h.readRegLong addr).toNat

/-- The widths agree under the address `cap`: inside the 192 bytes a long is two
words and four bytes, a word two bytes; and another bus than 0 is empty at every
width. -/
structure WidthsAgree (h : PciHost) (cap : UInt32) : Prop where
  long_words : offsetOf cap + 4 ≤ 192 →
    h.longAt 0x0CFC = h.wordAt 0x0CFC + 256^2 * h.wordAt 0x0CFE
  long_bytes : offsetOf cap + 4 ≤ 192 →
    h.longAt 0x0CFC = h.byteAt 0x0CFC + 256 * h.byteAt 0x0CFD + 256^2 * h.byteAt 0x0CFE +
      256^3 * h.byteAt 0x0CFF
  word_bytes : ∀ addr, dataPort addr = true → dataPort (addr + 1) = true →
    offsetOf cap + lane addr + 2 ≤ 192 →
    h.wordAt addr = h.byteAt addr + 256 * h.byteAt (addr + 1)
  bus_reads : busOf cap ≠ 0 → ∀ addr, dataPort addr = true →
    h.byteAt addr = 256 - 1 ∧ h.wordAt addr = 256^2 - 1 ∧ h.longAt addr = 256^4 - 1
  bus_writes : busOf cap ≠ 0 → ∀ addr, dataPort addr = true →
    (∀ val, (h.writeRegByte addr val).devices = h.devices) ∧
    (∀ val, (h.writeRegWord addr val).devices = h.devices) ∧
    (∀ val, (h.writeRegLong addr val).devices = h.devices)

/-! Nothing there. -/

section
variable {h : PciHost} {addr : UInt16}

theorem reads_none (ht : h.target = none) (ha : dataPort addr = true) :
    h.byteAt addr = 256 - 1 ∧ h.wordAt addr = 256^2 - 1 ∧ h.longAt addr = 256^4 - 1 := by
  simp only [byteAt, wordAt, longAt, readRegByte, readRegWord, readRegLong, if_neg (ne_capAddr ha), ht,
    ite_self]
  decide

theorem writes_none (ht : h.target = none) (ha : dataPort addr = true) :
    (∀ val, (h.writeRegByte addr val).devices = h.devices) ∧
    (∀ val, (h.writeRegWord addr val).devices = h.devices) ∧
    (∀ val, (h.writeRegLong addr val).devices = h.devices) := by
  simp only [writeRegByte, writeRegWord, writeRegLong, if_neg (ne_capAddr ha), ht, implies_true,
    and_self]

/-! A device there. -/

/-- A read inside the structure, as the number at its offset. -/
theorem answered_inside {p : PCIDevice} (ht : h.target = some p) (ho : h.offsetNumber.toNat < 256)
    (ha : dataPort addr = true) {w : UInt32} (hin : h.offsetNumber.toNat + lane addr + w.toNat ≤ 192) :
    h.answered w addr = load p.bytes ((h.offsetNumber.toNat + lane addr : Nat) : Int) w.toNat := by
  have hoff := offset_toNat ho ha
  simp only [answered, ht]
  rw [PCIDevice.readRegPCI_eq p (by omega), hoff, if_pos hin]

/-- A number read at once is the numbers read in two parts. -/
theorem read_split (p : PCIDevice) (o n k : Nat) :
    load p.bytes o (n + k) = load p.bytes o n + 256^n * load p.bytes ((o + n : Nat) : Int) k := by
  rw [load_add]
  rfl

theorem read_four_bytes (p : PCIDevice) (o : Nat) :
    load p.bytes o 4 = load p.bytes o 1 + 256 * load p.bytes ((o + 1 : Nat) : Int) 1 +
      256^2 * load p.bytes ((o + 2 : Nat) : Int) 1 + 256^3 * load p.bytes ((o + 3 : Nat) : Int) 1 := by
  have h1 := read_split p o 1 3
  have h2 := read_split p (o + 1) 1 2
  have h3 := read_split p (o + 2) 1 1
  simp only [Nat.add_assoc, Nat.reduceAdd] at h1 h2 h3
  rw [h1, h2, h3]
  omega

theorem lane_succ (ha : dataPort addr = true) (ha' : dataPort (addr + 1) = true) :
    lane (addr + 1) = lane addr + 1 := by
  have h1 := lane_add ha
  have h2 := lane_add ha'
  have hsum : (addr + 1).toNat = addr.toNat + 1 := by
    simp only [UInt16.toNat_add, UInt16.reduceToNat]
    omega
  omega

end

theorem widthsAgree_of_none {h : PciHost} (cap : UInt32) (ht : h.target = none) :
    WidthsAgree h cap where
  long_words _ := by
    rw [(reads_none ht (by decide)).2.2, (reads_none ht (by decide)).2.1,
      (reads_none ht (by decide)).2.1]
    rfl
  long_bytes _ := by
    rw [(reads_none ht (by decide)).2.2, (reads_none ht (by decide)).1,
      (reads_none ht (by decide)).1, (reads_none ht (by decide)).1, (reads_none ht (by decide)).1]
    rfl
  word_bytes addr ha ha' _ := by
    rw [(reads_none ht ha).2.1, (reads_none ht ha).1, (reads_none ht ha').1]
    rfl
  bus_reads _ addr ha := reads_none ht ha
  bus_writes _ addr ha := writes_none ht ha

/-- On bus 0 the widths read the same bytes. -/
theorem widthsAgree_of_bus {h : PciHost} {p : PCIDevice} {cap : UInt32} (ht : h.target = some p)
    (hbus : h.busNumber.toNat = busOf cap) (hoff : h.offsetNumber.toNat = offsetOf cap)
    (hzero : busOf cap = 0) : WidthsAgree h cap := by
  have hb : h.busNumber = 0 := UInt32.toNat_inj.mp (hbus.trans hzero)
  have ho : h.offsetNumber.toNat < 256 := by
    rw [hoff]
    exact Nat.mod_lt _ (by decide)
  have hlane : lane 0x0CFC = 0 ∧ lane 0x0CFD = 1 ∧ lane 0x0CFE = 2 ∧ lane 0x0CFF = 3 := by decide
  -- the three widths, each as the number at its offset
  have hbyte : ∀ addr, dataPort addr = true → h.offsetNumber.toNat + lane addr + 1 ≤ 192 →
      h.byteAt addr = load p.bytes ((h.offsetNumber.toNat + lane addr : Nat) : Int) 1 := by
    intro addr ha hin
    exact (readRegByte_toNat h ha).trans (answered_inside ht ho ha hin)
  have hword : ∀ addr, dataPort addr = true → h.offsetNumber.toNat + lane addr + 2 ≤ 192 →
      h.wordAt addr = load p.bytes ((h.offsetNumber.toNat + lane addr : Nat) : Int) 2 := by
    intro addr ha hin
    exact (readRegWord_toNat h hb ha).trans (answered_inside ht ho ha hin)
  have hlong : ∀ addr, dataPort addr = true → h.offsetNumber.toNat + lane addr + 4 ≤ 192 →
      h.longAt addr = load p.bytes ((h.offsetNumber.toNat + lane addr : Nat) : Int) 4 := by
    intro addr ha hin
    exact (readRegLong_toNat h ha).trans (answered_inside ht ho ha hin)
  refine ⟨?_, ?_, ?_, fun hne => absurd hzero hne, fun hne => absurd hzero hne⟩
  · intro hin
    rw [hlong _ (by decide) (by omega), hword _ (by decide) (by omega), hword _ (by decide) (by omega),
      hlane.1, hlane.2.2.1]
    exact read_split p _ 2 2
  · intro hin
    rw [hlong _ (by decide) (by omega), hbyte _ (by decide) (by omega), hbyte _ (by decide) (by omega),
      hbyte _ (by decide) (by omega), hbyte _ (by decide) (by omega),
      hlane.1, hlane.2.1, hlane.2.2.1, hlane.2.2.2]
    exact read_four_bytes p h.offsetNumber.toNat
  · intro addr ha ha' hin
    have hnext := lane_succ ha ha'
    rw [hword addr ha (by omega), hbyte addr ha (by omega), hbyte _ ha' (by omega), hnext,
      ← Nat.add_assoc]
    exact read_split p (h.offsetNumber.toNat + lane addr) 1 1

/-- On another bus the device of the slot answers a byte read past its end with 0,
and takes a byte written inside it. -/
theorem not_widthsAgree {h : PciHost} {p : PCIDevice} {cap : UInt32} (ht : h.target = some p)
    (hdev : h.deviceNumber.toNat < 32) (hoff : h.offsetNumber.toNat = offsetOf cap)
    (hbus : busOf cap ≠ 0) : ¬ WidthsAgree h cap := by
  intro hagree
  have ho : h.offsetNumber.toNat < 256 := by
    rw [hoff]
    exact Nat.mod_lt _ (by decide)
  have ha : dataPort 0x0CFC = true := by decide
  have haddr : (h.offset 0x0CFC).toNat = h.offsetNumber.toNat := by
    rw [offset_toNat ho ha, show lane 0x0CFC = 0 by decide, Nat.add_zero]
  have hone : (1 : UInt32).toNat = 1 := rfl
  by_cases hin : h.offsetNumber.toNat < 192
  · -- one more than the byte that is there
    let val : UInt8 := p.bytes h.offsetNumber.toNat + 1
    have hsame := (hagree.bus_writes hbus _ ha).1 val
    simp only [writeRegByte, if_neg (ne_capAddr ha), ht] at hsame
    have hslot := slot_update h (p.writeRegBytePCI (h.offset 0x0CFC) val)
      (n := h.deviceNumber.toNat) hdev
    have htarget := slot_of_target ht
    have hunchanged : (h.update (p.writeRegBytePCI (h.offset 0x0CFC) val)).slot
        h.deviceNumber.toNat = some p := by
      rw [← htarget]
      simp only [slot, hsame]
    rw [if_pos rfl, hunchanged] at hslot
    have hbytes := congrFun (congrArg PCIDevice.bytes (Option.some.inj hslot)) h.offsetNumber.toNat
    rw [PCIDevice.writeRegBytePCI, PCIDevice.bytes_writeRegPCI p _ (by omega), haddr, hone,
      if_pos (by omega), store, if_pos (by omega)] at hbytes
    simp only [Int.sub_self, Int.toNat_zero, Nat.pow_zero, Nat.div_one, UInt8.ofNat_toNat, val] at hbytes
    have hnat := congrArg UInt8.toNat hbytes
    simp only [UInt8.toNat_add, UInt8.reduceToNat] at hnat
    omega
  · have hones := (hagree.bus_reads hbus _ ha).1
    rw [byteAt, readRegByte_toNat h ha] at hones
    simp only [answered, ht] at hones
    rw [PCIDevice.readRegPCI_eq p (by omega), haddr, hone, if_neg (by omega)] at hones
    omega

/-- For every address and every array of devices, the widths agree under it if
and only if it is on bus 0, or its slot is empty, or its function is not 0. -/
theorem widths_agree_iff (h : PciHost) (cap : UInt32) :
    WidthsAgree (h.writeRegLong capAddr cap) cap ↔
      busOf cap = 0 ∨ h.slot (deviceOf cap) = none ∨ functionOf cap ≠ 0 := by
  obtain ⟨hb, hd, hf, ho, hdev⟩ := prepared h cap
  generalize h.writeRegLong capAddr cap = g at hb hd hf ho hdev ⊢
  have hzero : g.functionNumber = 0 ↔ functionOf cap = 0 := by
    rw [← hf, ← UInt32.toNat_inj]
    rfl
  have htarget : g.target = if functionOf cap = 0 then h.slot (deviceOf cap) else none := by
    simp only [target, slot, hdev, hd, ne_eq, hzero]
    split_ifs <;> rfl
  constructor
  · intro hagree
    by_contra hcond
    push Not at hcond
    obtain ⟨p, hp⟩ := Option.ne_none_iff_exists'.mp hcond.2.1
    rw [if_pos hcond.2.2, hp] at htarget
    exact not_widthsAgree htarget (by rw [hd]; exact Nat.mod_lt _ (by decide)) ho hcond.1 hagree
  · intro hcond
    cases ht : g.target with
    | none => exact widthsAgree_of_none cap ht
    | some p =>
      -- with a device there, the condition leaves only bus 0
      have hbus : busOf cap = 0 := by
        rw [ht] at htarget
        rcases hcond with hbus | hnone | hfun
        · exact hbus
        · rw [hnone, ite_self] at htarget
          exact absurd htarget (by simp)
        · rw [if_neg hfun] at htarget
          exact absurd htarget (by simp)
      exact widthsAgree_of_bus ht hb ho hbus

/-- Slot 0 of bus 1, on a bridge with two devices: the word read finds nothing
there, the byte read finds the device in slot 0 of bus 0. -/
theorem bus_one_answers :
    let h := new twoDevices ⟨0, 0, 0, 0⟩
    let g := h.writeRegLong capAddr 0x10000
    g.wordAt 0x0CFC = 0xFFFF ∧ g.byteAt 0x0CFC = 0 ∧ g.longAt 0x0CFC = 0 ∧
    ¬ WidthsAgree g 0x10000 := by
  intro h g
  have hword : g.wordAt 0x0CFC = 0xFFFF := by decide +kernel
  have hbyte : g.byteAt 0x0CFC = 0 := by decide +kernel
  have hlong : g.longAt 0x0CFC = 0 := by decide +kernel
  refine ⟨hword, hbyte, hlong, ?_⟩
  intro hagree
  have hones := (hagree.bus_reads (by decide) 0x0CFC (by decide)).1
  rw [hbyte] at hones
  exact absurd hones (by decide)

end PciHost
end EndlessFault
