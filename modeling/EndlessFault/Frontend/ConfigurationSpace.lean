import EndlessFault.Frontend.PciHost

/- The configuration space the guest sees. `Space` is what it is for: a slot is
   present or not, a present one is an array of bytes, and an access of any width
   at any lane of the data port moves the bytes at the offset `CAP` selects, least
   significant first. The bridge refines it as long as `CAP` stays on bus 0
   (`Represents`, `represents_step`): the six access routines are one read and one
   write there, and the decoded numbers kept between accesses are the fields of the
   last `CAP` written.

   Each byte of the space is the one last stored there (`bytes_latest`), so a read
   returns what the guest's own writes left, whatever their widths.
   Main result: `configuration_memory`. -/
namespace EndlessFault
open Lib.Words Lib.Machine

namespace ConfigurationSpace

/-! The fields of an address. -/

def busOf (cap : UInt32) : Nat := cap.toNat / 2^16 % 2^8
def deviceOf (cap : UInt32) : Nat := cap.toNat / 2^11 % 2^5
def functionOf (cap : UInt32) : Nat := cap.toNat / 2^8 % 2^3
def offsetOf (cap : UInt32) : Nat := cap.toNat % 2^8

/-- The configuration space of every slot, and the address last selected. -/
structure Space where
  cap : UInt32
  present : Nat → Bool
  bytes : Nat → Int → UInt8

/-- What the guest can do: select an address, or read or write `w` bytes at a
lane of the data port. -/
inductive Op where
  | select (cap : UInt32)
  | read (w lane : Nat)
  | write (w lane v : Nat)

namespace Space

/-- The selected function is function 0 of a present device. -/
def reached (s : Space) : Bool := s.present (deviceOf s.cap) && functionOf s.cap == 0

/-- The offset an access at a lane goes to. -/
def offset (s : Space) (lane : Nat) : Nat := offsetOf s.cap + lane

def next (s : Space) : Op → Space
  | .select cap => { s with cap := cap }
  | .read _ _ => s
  | .write w lane v =>
    if s.reached = true ∧ s.offset lane + w ≤ 192 then
      { s with bytes := fun n =>
          if n = deviceOf s.cap then store (s.bytes n) (s.offset lane) w v else s.bytes n }
    else s

/-- The number a read returns: all ones where nothing answers, 0 past the end. -/
def reply (s : Space) : Op → List Nat
  | .read w lane =>
    if s.reached = true then
      if s.offset lane + w ≤ 192 then [load (s.bytes (deviceOf s.cap)) (s.offset lane) w] else [0]
    else [256^w - 1]
  | _ => []

/-- The byte an operation stores at offset `x` of a slot, if any. -/
def stored (slot : Nat) (x : Int) (s : Space) : Op → List UInt8
  | .write w lane v =>
    if s.reached = true ∧ s.offset lane + w ≤ 192 ∧ deviceOf s.cap = slot ∧ s.offset lane ≤ x ∧
        x < s.offset lane + w
    then [UInt8.ofNat (v / 256^(x - s.offset lane).toNat)] else []
  | _ => []

theorem bytes_next (s : Space) (o : Op) (slot : Nat) (x : Int) :
    (s.next o).bytes slot x = (stored slot x s o).getLast?.getD (s.bytes slot x) := by
  cases o with
  | select cap => rfl
  | read w lane => rfl
  | write w lane v =>
    simp only [next, stored]
    by_cases hin : s.reached = true ∧ s.offset lane + w ≤ 192
    · simp only [hin, and_self, if_true, true_and]
      by_cases hslot : deviceOf s.cap = slot
      · subst hslot
        simp only [if_true, store, true_and]
        split_ifs <;> rfl
      · rw [if_neg (Ne.symm hslot), if_neg (fun h => hslot h.1)]
        rfl
    · rw [if_neg hin, if_neg (fun h => hin ⟨h.1, h.2.1⟩)]
      rfl

/-- Every byte is the one last stored there. -/
theorem bytes_latest (s : Space) (os : List Op) (slot : Nat) (x : Int) :
    (run next s os).bytes slot x = (observe next (stored slot x) s os).getLast?.getD (s.bytes slot x) :=
  observe_latest (fun s : Space => s.bytes slot x) (fun s o => bytes_next s o slot x) s os

theorem present_run (s : Space) (os : List Op) : (run next s os).present = s.present :=
  run_invariant (fun t : Space => t.present = s.present) (fun _ => True)
    (fun t o _ h => by
      cases o with
      | select cap => exact h
      | read w lane => exact h
      | write w lane v =>
        simp only [next]
        split_ifs <;> exact h)
    rfl (fun _ _ => trivial)

end Space

end ConfigurationSpace

/-! The bridge. -/

namespace PciHost
open ConfigurationSpace

/-- One of the four ports of the data register. -/
def dataPort (addr : UInt16) : Bool := 0x0CFC ≤ addr && addr ≤ 0x0CFF

def lane (addr : UInt16) : Nat := addr.toNat - 0x0CFC

/-- The accesses of a guest that stays on bus 0. -/
def Access.configuration : Access → Bool
  | .readByte addr => dataPort addr
  | .readWord addr => dataPort addr
  | .readLong addr => dataPort addr
  | .writeByte addr _ => dataPort addr
  | .writeWord addr _ => dataPort addr
  | .writeLong addr val => dataPort addr || addr == capAddr && busOf val == 0

/-- What an access asks of the space. -/
def Access.op : Access → Op
  | .readByte addr => .read 1 (lane addr)
  | .readWord addr => .read 2 (lane addr)
  | .readLong addr => .read 4 (lane addr)
  | .writeByte addr val => .write 1 (lane addr) val.toNat
  | .writeWord addr val => .write 2 (lane addr) val.toNat
  | .writeLong addr val => if addr = capAddr then .select val else .write 4 (lane addr) val.toNat

/-- The bridge holds the space: its decoded numbers are the fields of the address
selected last, on bus 0, and its devices are the present slots. -/
structure Represents (h : PciHost) (s : Space) : Prop where
  bus : h.busNumber = 0
  device : h.deviceNumber.toNat = deviceOf s.cap
  function_ : h.functionNumber.toNat = functionOf s.cap
  offset : h.offsetNumber.toNat = offsetOf s.cap
  present : ∀ n, s.present n = (h.slot n).isSome
  bytes : ∀ n p, h.slot n = some p → s.bytes n = p.bytes

/-- The space the bridge holds under the address `cap`. -/
def space (h : PciHost) (cap : UInt32) : Space where
  cap := cap
  present n := (h.slot n).isSome
  bytes n := ((h.slot n).map PCIDevice.bytes).getD fun _ => 0

/-! Decoding. -/

/-- The field of `bits` bits at `low`, as the source cuts it out. -/
theorem field_toNat (cap low ones : UInt32) (bits : Nat) (hones : ones.toNat = 2^bits - 1)
    (hlow : low.toNat < 32) :
    ((cap >>> low) &&& ones).toNat = cap.toNat / 2^low.toNat % 2^bits := by
  have hmod : low.toNat % 32 = low.toNat := Nat.mod_eq_of_lt hlow
  calc ((cap >>> low) &&& ones).toNat = (cap >>> low).toNat % 2^bits := by
        rw [UInt32.toNat_and, hones, Nat.and_two_pow_sub_one_eq_mod]
    _ = cap.toNat / 2^low.toNat % 2^bits := by
        rw [UInt32.toNat_shiftRight, hmod, Nat.shiftRight_eq_div_pow]

theorem prepared (h : PciHost) (cap : UInt32) :
    let g := h.writeRegLong capAddr cap
    g.busNumber.toNat = busOf cap ∧ g.deviceNumber.toNat = deviceOf cap ∧
    g.functionNumber.toNat = functionOf cap ∧ g.offsetNumber.toNat = offsetOf cap ∧
    g.devices = h.devices := by
  simp only [writeRegLong, if_true, prepareData]
  refine ⟨?_, ?_, ?_, ?_, trivial⟩
  · exact field_toNat cap 16 0x000000FF 8 rfl (by decide)
  · exact field_toNat cap 11 0x0000001F 5 rfl (by decide)
  · exact field_toNat cap 8 0x00000007 3 rfl (by decide)
  · have hzero := field_toNat cap 0 0x000000FF 8 rfl (by decide)
    rw [UInt32.shiftRight_zero] at hzero
    simpa [offsetOf] using hzero

/-- Selecting an address on bus 0 establishes the relation. -/
theorem represents_select (h : PciHost) {cap : UInt32} (hbus : busOf cap = 0) :
    Represents (h.writeRegLong capAddr cap) (h.space cap) := by
  obtain ⟨hb, hd, hf, ho, hdev⟩ := prepared h cap
  have hslot : ∀ n, (h.writeRegLong capAddr cap).slot n = h.slot n := by
    intro n
    simp only [slot, hdev]
  refine ⟨?_, hd, hf, ho, ?_, ?_⟩
  · exact UInt32.toNat_inj.mp (hb.trans hbus)
  · intro n
    rw [hslot]
    rfl
  · intro n p hp
    rw [hslot] at hp
    simp only [space, hp, Option.map_some, Option.getD_some]

/-! One access. -/

theorem dataPort_iff {addr : UInt16} :
    dataPort addr = true ↔ 0x0CFC ≤ addr.toNat ∧ addr.toNat ≤ 0x0CFF := by
  simp only [dataPort, Bool.and_eq_true, decide_eq_true_eq, UInt16.le_iff_toNat_le,
    UInt16.reduceToNat]

theorem ne_capAddr {addr : UInt16} (ha : dataPort addr = true) : addr ≠ capAddr := by
  intro h
  rw [dataPort_iff, h] at ha
  exact absurd ha (by decide)

section
variable {h : PciHost} {s : Space} {addr : UInt16}

theorem lane_add {addr : UInt16} (ha : dataPort addr = true) :
    lane addr + 0x0CFC = addr.toNat ∧ lane addr ≤ 3 := by
  have hport := dataPort_iff.mp ha
  unfold lane
  omega

theorem offset_toNat_mod (h : PciHost) (ha : dataPort addr = true) :
    (h.offset addr).toNat = (h.offsetNumber.toNat + lane addr) % 2^32 := by
  obtain ⟨hlane, hle⟩ := lane_add ha
  have hcdp : cdpAddr.toUInt32.toNat = 0x0CFC := rfl
  have haddr : addr.toUInt32.toNat = lane addr + 0x0CFC := by rw [hlane, UInt16.toNat_toUInt32]
  rw [offset, UInt32.toNat_sub, UInt32.toNat_add, hcdp, haddr]
  omega

theorem offset_toNat (ho : h.offsetNumber.toNat < 256) (ha : dataPort addr = true) :
    (h.offset addr).toNat = h.offsetNumber.toNat + lane addr := by
  have hle := (lane_add ha).2
  rw [offset_toNat_mod h ha, Nat.mod_eq_of_lt (by omega)]

theorem Represents.offset_eq (hr : Represents h s) (ha : dataPort addr = true) :
    (h.offset addr).toNat = s.offset (lane addr) ∧ s.offset (lane addr) ≤ 258 := by
  have hlt : offsetOf s.cap < 256 := Nat.mod_lt _ (by decide)
  have hle := (lane_add ha).2
  rw [offset_toNat (by rw [hr.offset]; exact hlt) ha, hr.offset]
  refine ⟨rfl, ?_⟩
  unfold Space.offset
  omega

/-- The device an access reaches is the one the space answers for. -/
theorem Represents.target_eq (hr : Represents h s) :
    h.target = if functionOf s.cap = 0 then h.slot (deviceOf s.cap) else none := by
  have hf : h.functionNumber = 0 ↔ functionOf s.cap = 0 := by
    rw [← hr.function_, ← UInt32.toNat_inj]
    rfl
  unfold target
  by_cases h0 : functionOf s.cap = 0
  · rw [if_neg (not_not.mpr (hf.mpr h0)), if_pos h0, hr.device]
  · rw [if_pos (fun h' => h0 (hf.mp h')), if_neg h0]

theorem Represents.reached_none (hr : Represents h s) (ht : h.target = none) : s.reached = false := by
  rw [hr.target_eq] at ht
  by_cases h0 : functionOf s.cap = 0
  · rw [if_pos h0] at ht
    simp [Space.reached, hr.present, ht]
  · simp [Space.reached, h0]

theorem Represents.reached_some (hr : Represents h s) {p : PCIDevice} (ht : h.target = some p) :
    s.reached = true ∧ h.slot (deviceOf s.cap) = some p := by
  rw [hr.target_eq] at ht
  by_cases h0 : functionOf s.cap = 0
  · rw [if_pos h0] at ht
    exact ⟨by simp [Space.reached, hr.present, ht, h0], ht⟩
  · rw [if_neg h0] at ht
    exact absurd ht (by simp)

theorem slot_of_target {p : PCIDevice} (ht : h.target = some p) : h.slot h.deviceNumber.toNat = some p := by
  unfold target at ht
  split_ifs at ht
  exact ht

/-- A read of `w` bytes at the data port, on bus 0, and a write. -/
def answered (h : PciHost) (w : UInt32) (addr : UInt16) : Nat :=
  match h.target with
  | none => 256^w.toNat - 1
  | some p => p.readRegPCI w (h.offset addr)

def written (h : PciHost) (w : UInt32) (addr : UInt16) (v : Nat) : PciHost :=
  match h.target with
  | none => h
  | some p => h.update (p.writeRegPCI w (h.offset addr) v)

theorem readRegByte_toNat (h : PciHost) (ha : dataPort addr = true) :
    (h.readRegByte addr).toNat = h.answered 1 addr := by
  simp only [readRegByte, if_neg (ne_capAddr ha), answered]
  cases h.target with
  | none => rfl
  | some p => exact UInt8.toNat_ofNat_of_lt' (p.readRegPCI_lt 1 _)

theorem readRegWord_toNat (h : PciHost) (hbus : h.busNumber = 0) (ha : dataPort addr = true) :
    (h.readRegWord addr).toNat = h.answered 2 addr := by
  simp only [readRegWord, if_neg (ne_capAddr ha), hbus, ne_eq, not_true_eq_false, if_false, answered]
  cases h.target with
  | none => rfl
  | some p => exact UInt16.toNat_ofNat_of_lt' (p.readRegPCI_lt 2 _)

theorem readRegLong_toNat (h : PciHost) (ha : dataPort addr = true) :
    (h.readRegLong addr).toNat = h.answered 4 addr := by
  simp only [readRegLong, if_neg (ne_capAddr ha), answered]
  cases h.target with
  | none => rfl
  | some p => exact UInt32.toNat_ofNat_of_lt' (p.readRegPCI_lt 4 _)

theorem Represents.read (hr : Represents h s) (ha : dataPort addr = true) {w : UInt32}
    (hw : w.toNat ≤ 4) : [h.answered w addr] = s.reply (.read w.toNat (lane addr)) := by
  obtain ⟨hoff, hsmall⟩ := hr.offset_eq ha
  unfold answered
  cases ht : h.target with
  | none => simp [Space.reply, hr.reached_none ht]
  | some p =>
    obtain ⟨hreach, hslot⟩ := hr.reached_some ht
    simp only [Space.reply, hreach, if_true, PCIDevice.readRegPCI_eq p (w := w)
      (show (h.offset addr).toNat + w.toNat < 2^32 by omega), hoff, hr.bytes _ p hslot]
    split_ifs <;> rfl

/-- The slots after the selected device is replaced. -/
theorem slot_update (h : PciHost) (p : PCIDevice) {n : Nat} (hn : h.deviceNumber.toNat < 32) :
    (h.update p).slot n = if n = h.deviceNumber.toNat then some p else h.slot n := by
  simp only [slot, update, Vector.getElem?_setIfInBounds]
  by_cases heq : h.deviceNumber.toNat = n
  · rw [if_pos heq, if_pos (by omega), if_pos heq.symm]
    rfl
  · rw [if_neg heq, if_neg (Ne.symm heq)]

/-- A write that reaches a device stores the bytes of its slot and nothing else. -/
theorem Represents.bytes_written (hr : Represents h s) (ha : dataPort addr = true) {w : UInt32}
    (hw : w.toNat ≤ 4) (v : Nat) {p : PCIDevice} (ht : h.target = some p) (n : Nat) :
    (s.next (.write w.toNat (lane addr) v)).bytes n =
      if n = deviceOf s.cap then (p.writeRegPCI w (h.offset addr) v).bytes else s.bytes n := by
  obtain ⟨hoff, hsmall⟩ := hr.offset_eq ha
  obtain ⟨hreach, hslot⟩ := hr.reached_some ht
  rw [PCIDevice.bytes_writeRegPCI p v (by omega), hoff, ← hr.bytes _ p hslot]
  simp only [Space.next, hreach, true_and]
  by_cases hin : s.offset (lane addr) + w.toNat ≤ 192
  · simp only [if_pos hin]
    split_ifs with hn
    · rw [hn]
    · rfl
  · simp only [if_neg hin]
    split_ifs with hn
    · rw [hn]
    · rfl

theorem Represents.write (hr : Represents h s) (ha : dataPort addr = true) {w : UInt32}
    (hw : w.toNat ≤ 4) (v : Nat) :
    Represents (h.written w addr v) (s.next (.write w.toNat (lane addr) v)) := by
  have hdev : h.deviceNumber.toNat < 32 := by
    rw [hr.device]
    exact Nat.mod_lt _ (by decide)
  unfold written
  cases ht : h.target with
  | none =>
    simp only [Space.next, hr.reached_none ht, Bool.false_eq_true, false_and, if_false]
    exact hr
  | some p =>
    obtain ⟨-, hslot⟩ := hr.reached_some ht
    -- a write leaves the address and the presence of the devices
    have hkept : (s.next (.write w.toNat (lane addr) v)).cap = s.cap ∧
        (s.next (.write w.toNat (lane addr) v)).present = s.present := by
      simp only [Space.next]
      split_ifs <;> exact ⟨rfl, rfl⟩
    refine ⟨hr.bus, hkept.1 ▸ hr.device, hkept.1 ▸ hr.function_, hkept.1 ▸ hr.offset, ?_, ?_⟩
    · intro n
      rw [hkept.2, hr.present, slot_update h _ hdev, hr.device]
      split_ifs with hn
      · rw [hn, hslot]
        rfl
      · rfl
    · intro n q hq
      rw [slot_update h _ hdev, hr.device] at hq
      rw [hr.bytes_written ha hw v ht]
      split_ifs at hq ⊢ with hn
      · rw [Option.some.inj hq]
      · exact hr.bytes n q hq

/-- One access of a guest on bus 0: the relation is kept and the replies agree. -/
theorem represents_step (h : PciHost) (s : Space) (a : Access) (ha : a.configuration = true)
    (hr : Represents h s) :
    Represents (h.step a) (s.next a.op) ∧ h.reply a = s.reply a.op := by
  cases a with
  | readByte addr =>
    refine ⟨hr, ?_⟩
    rw [reply, readRegByte_toNat h ha]
    exact hr.read ha (by decide)
  | readWord addr =>
    refine ⟨hr, ?_⟩
    rw [reply, readRegWord_toNat h hr.bus ha]
    exact hr.read ha (by decide)
  | readLong addr =>
    refine ⟨hr, ?_⟩
    rw [reply, readRegLong_toNat h ha]
    exact hr.read ha (by decide)
  | writeByte addr val =>
    refine ⟨?_, rfl⟩
    simp only [step, writeRegByte, if_neg (ne_capAddr ha), Access.op]
    exact hr.write ha (w := 1) (by decide) val.toNat
  | writeWord addr val =>
    refine ⟨?_, rfl⟩
    simp only [step, writeRegWord, if_neg (ne_capAddr ha), Access.op]
    exact hr.write ha (w := 2) (by decide) val.toNat
  | writeLong addr val =>
    by_cases hcap : addr = capAddr
    · subst hcap
      have hbus : busOf val = 0 := by
        simpa [Access.configuration, show dataPort capAddr = false by decide] using ha
      have hsel := represents_select h hbus
      simp only [step, Access.op, if_true, Space.next, Space.reply, reply, and_true]
      exact ⟨hsel.bus, hsel.device, hsel.function_, hsel.offset, hr.present, hr.bytes⟩
    · have hport : dataPort addr = true := by
        simpa [Access.configuration, hcap] using ha
      simp only [step, writeRegLong, if_neg hcap, Access.op, Space.reply, reply, and_true]
      exact hr.write hport (w := 4) (by decide) val.toNat

end

/-- The configuration space as the guest sees it. After an address on bus 0 has
been selected, and over any accesses that stay on bus 0: the replies are those of
the space; the same slots hold devices; each byte of a device is the one last
stored there, or the one it started with; and at the end, as at every point, the
typed getters return the bytes at their places. -/
theorem configuration_memory (h : PciHost) (cap : UInt32) (hbus : busOf cap = 0) (as : List Access)
    (has : ∀ a ∈ as, a.configuration = true) :
    let g := run step (h.writeRegLong capAddr cap) as
    observe step reply (h.writeRegLong capAddr cap) as =
      observe Space.next Space.reply (h.space cap) (as.map Access.op) ∧
    (∀ n, h.slot n = none → g.slot n = none) ∧
    (∀ n p, h.slot n = some p → ∃ q, g.slot n = some q ∧
      (∀ x : Int, 0 ≤ x → x < 192 → q.bytes x =
        (observe Space.next (Space.stored n x) (h.space cap) (as.map Access.op)).getLast?.getD
          (p.bytes x)) ∧
      (∀ i : UInt8, i < 6 → q.getBar i = q.readRegLongPCI (16 + 4 * i.toUInt32)) ∧
      q.getClassCode.toNat = load q.bytes 9 3) := by
  intro g
  obtain ⟨hrun, hobs⟩ := simulation_on (fun a : Access => a.configuration = true) represents_step
    (represents_select h hbus) has
  rw [run_map Access.op (h.space cap) as] at hrun
  have hpresent : ∀ n, (g.slot n).isSome = (h.slot n).isSome := by
    intro n
    rw [← hrun.present, Space.present_run]
    rfl
  refine ⟨?_, ?_, ?_⟩
  · rw [hobs, observe_map Access.op Space.reply]
  · intro n hn
    have hnone := hpresent n
    rw [hn] at hnone
    simpa using hnone
  · intro n p hp
    obtain ⟨q, hq⟩ : ∃ q, g.slot n = some q := by
      have hsome := hpresent n
      rw [hp] at hsome
      exact Option.isSome_iff_exists.mp hsome
    refine ⟨q, hq, ?_, fun i hi => q.getBar_eq hi, q.getClassCode_toNat⟩
    intro x _ _
    rw [← hrun.bytes n q hq, Space.bytes_latest]
    simp only [space, hp, Option.map_some, Option.getD_some]

/-- A long written over the first base address register of a device in slot 3,
then a word read across its middle and the register itself. -/
theorem configuration_memory_bar :
    let h : PciHost := ⟨0, 0, 0, 0, 0, Vector.ofFn fun i => if i = 3 then some ⟨Vector.replicate 192 0⟩ else none⟩
    let as : List Access := [.writeLong 0x0CFC 0x11223344, .readWord 0x0CFD]
    observe step reply (h.writeRegLong capAddr 0x1810) as = [0x2233] ∧
    ∃ q, (run step (h.writeRegLong capAddr 0x1810) as).slot 3 = some q ∧ q.bytes 17 = 0x33 := by
  intro h as
  have hmem := configuration_memory h 0x1810 (by decide) as (by decide)
  obtain ⟨q, hq, hbytes, -⟩ := hmem.2.2 3 ⟨Vector.replicate 192 0⟩ rfl
  refine ⟨hmem.1.trans (by decide +kernel), q, hq, ?_⟩
  rw [hbytes 17 (by decide) (by decide)]
  decide +kernel

end PciHost
end EndlessFault
