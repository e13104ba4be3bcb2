import Mathlib.Tactic.SplitIfs
import EndlessFault.Lib.Words

/- A PCI device (`frontend/PCIDevice.cpp`): the configuration space
   `deviceRegisters`, a packed structure of 192 bytes that the typed getters and
   the byte, word and long accesses all view. The structure is its bytes; where a
   member lies in it follows from the members declared before it (`layout`).

   An access past the structure is refused by comparing `offset + w`, a 32-bit
   sum, with `sizeof(deviceRegisters)`. -/
namespace EndlessFault
open Lib.Words

/-- The members of `deviceRegisters`. -/
inductive DeviceRegister where
  | vendorID | deviceID | command | status | revisionID | classCode | cacheLineSize | latencyTimer
  | headerType | BIST | BAR | carbusCISPointer | subsystemVendorID | subsystemID
  | expansionROMBaseAddress | capabilitiesPointer | reserved | interruptLine | interruptPIN
  | minGrant | maxLatency | filler
  deriving DecidableEq, Repr

namespace DeviceRegister

/-- The members in their order, each with the bytes it takes. -/
def layout : List (DeviceRegister × Nat) :=
  [(vendorID, 2), (deviceID, 2), (command, 2), (status, 2), (revisionID, 1), (classCode, 3 * 1),
   (cacheLineSize, 1), (latencyTimer, 1), (headerType, 1), (BIST, 1), (BAR, 6 * 4),
   (carbusCISPointer, 4), (subsystemVendorID, 2), (subsystemID, 2), (expansionROMBaseAddress, 4),
   (capabilitiesPointer, 1), (reserved, 7 * 1), (interruptLine, 1), (interruptPIN, 1), (minGrant, 1),
   (maxLatency, 1), (filler, 32 * 4)]

/-- `sizeof(deviceRegisters)`: the structure is packed. -/
def sizeof : Nat := (layout.map Prod.snd).sum

/-- The offset of a member. -/
def offset (r : DeviceRegister) : Nat :=
  ((layout.takeWhile fun e => e.1 ≠ r).map Prod.snd).sum

theorem sizeof_eq : sizeof = 192 := by decide

end DeviceRegister

structure PCIDevice where
  registers : Vector UInt8 192

namespace PCIDevice
open DeviceRegister

/-- The byte at each offset of the structure. -/
def bytes (p : PCIDevice) : Int → UInt8 := fun x =>
  if x < 0 then 0 else p.registers[x.toNat]?.getD 0

/-- The structure with the `w` low bytes of `v` stored from `off` on. -/
def store (p : PCIDevice) (off w v : Nat) : PCIDevice :=
  ⟨Vector.ofFn fun i : Fin 192 => Lib.Words.store p.bytes off w v i⟩

/-- The constructors; `raw` is what the uninitialised structure holds. -/
def new (raw : Vector UInt8 192) (vendorID deviceID : UInt16) : PCIDevice :=
  let p := (PCIDevice.mk raw).store DeviceRegister.vendorID.offset 2 vendorID.toNat
  let p := p.store DeviceRegister.deviceID.offset 2 deviceID.toNat
  (List.range 6).foldl (fun p i => p.store (BAR.offset + 4 * i) 4 0) p

def newClass (raw : Vector UInt8 192) (vendorID deviceID : UInt16) (classCode : UInt32) : PCIDevice :=
  (new raw vendorID deviceID).store DeviceRegister.classCode.offset 3 classCode.toNat

/-- The byte `classCode[i]`. -/
def classByte (p : PCIDevice) (i : Nat) : UInt32 := (p.bytes (classCode.offset + i)).toUInt32

def getClassCode (p : PCIDevice) : UInt32 :=
  p.classByte 0 ||| (p.classByte 1 <<< 8) ||| (p.classByte 2 <<< 16)

def getBar (p : PCIDevice) (index : UInt8) : UInt32 :=
  if index > 5 then 0xFFFFFFFF else UInt32.ofNat (load p.bytes (BAR.offset + 4 * index.toNat) 4)

def setBar (p : PCIDevice) (value : UInt32) (index : UInt8) : PCIDevice :=
  if index > 5 then p else p.store (BAR.offset + 4 * index.toNat) 4 value.toNat

/-! The accesses of the three widths. -/

def writeRegPCI (w : UInt32) (p : PCIDevice) (offset : UInt32) (val : Nat) : PCIDevice :=
  if (offset + w).toNat > sizeof then p else p.store offset.toNat w.toNat val

def readRegPCI (w : UInt32) (p : PCIDevice) (offset : UInt32) : Nat :=
  if (offset + w).toNat > sizeof then 0 else load p.bytes offset.toNat w.toNat

def writeRegBytePCI (p : PCIDevice) (offset : UInt32) (val : UInt8) : PCIDevice :=
  p.writeRegPCI 1 offset val.toNat

def writeRegWordPCI (p : PCIDevice) (offset : UInt32) (val : UInt16) : PCIDevice :=
  p.writeRegPCI 2 offset val.toNat

def writeRegLongPCI (p : PCIDevice) (offset : UInt32) (val : UInt32) : PCIDevice :=
  p.writeRegPCI 4 offset val.toNat

def readRegBytePCI (p : PCIDevice) (offset : UInt32) : UInt8 :=
  UInt8.ofNat (p.readRegPCI 1 offset)

def readRegWordPCI (p : PCIDevice) (offset : UInt32) : UInt16 :=
  UInt16.ofNat (p.readRegPCI 2 offset)

def readRegLongPCI (p : PCIDevice) (offset : UInt32) : UInt32 :=
  UInt32.ofNat (p.readRegPCI 4 offset)

/-! What the accesses do, in terms of the bytes. -/

theorem bytes_of_lt (p : PCIDevice) {i : Nat} (hi : i < 192) : p.bytes i = p.registers[i] := by
  rw [bytes, if_neg (by omega), Int.toNat_natCast, Vector.getElem?_eq_getElem hi, Option.getD_some]

/-- Outside the structure there is nothing. -/
theorem bytes_outside (p : PCIDevice) {x : Int} (hx : ¬ (0 ≤ x ∧ x < 192)) : p.bytes x = 0 := by
  unfold bytes
  split_ifs with hneg
  · rfl
  · rw [Vector.getElem?_eq_none (by omega), Option.getD_none]

theorem bytes_store_inside (p : PCIDevice) {off w v : Nat} {x : Int} (hx : 0 ≤ x ∧ x < 192) :
    (p.store off w v).bytes x = Lib.Words.store p.bytes off w v x := by
  obtain ⟨i, rfl⟩ := Int.eq_ofNat_of_zero_le hx.1
  rw [bytes_of_lt _ (show i < 192 by omega)]
  simp [store]

theorem bytes_store (p : PCIDevice) {off w v : Nat} (h : off + w ≤ 192) :
    (p.store off w v).bytes = Lib.Words.store p.bytes off w v := by
  funext x
  by_cases hx : 0 ≤ x ∧ x < 192
  · exact bytes_store_inside p hx
  · rw [bytes_outside _ hx, store_frame (by omega), bytes_outside _ hx]

/-- The bounds check is the intended one when the sum does not wrap. -/
theorem refused_iff {offset w : UInt32} (h : offset.toNat + w.toNat < 2^32) :
    (offset + w).toNat > sizeof ↔ ¬ offset.toNat + w.toNat ≤ 192 := by
  rw [sizeof_eq, UInt32.toNat_add, Nat.mod_eq_of_lt h]
  omega

theorem readRegPCI_eq (p : PCIDevice) {offset w : UInt32} (h : offset.toNat + w.toNat < 2^32) :
    p.readRegPCI w offset =
      if offset.toNat + w.toNat ≤ 192 then load p.bytes offset.toNat w.toNat else 0 := by
  unfold readRegPCI
  by_cases hin : offset.toNat + w.toNat ≤ 192
  · rw [if_neg (by rw [refused_iff h]; omega), if_pos hin]
  · rw [if_pos ((refused_iff h).mpr hin), if_neg hin]

theorem bytes_writeRegPCI (p : PCIDevice) {offset w : UInt32} (val : Nat)
    (h : offset.toNat + w.toNat < 2^32) :
    (p.writeRegPCI w offset val).bytes =
      if offset.toNat + w.toNat ≤ 192 then Lib.Words.store p.bytes offset.toNat w.toNat val
      else p.bytes := by
  unfold writeRegPCI
  by_cases hin : offset.toNat + w.toNat ≤ 192
  · rw [if_neg (by rw [refused_iff h]; omega), if_pos hin, bytes_store p hin]
  · rw [if_pos ((refused_iff h).mpr hin), if_neg hin]

theorem readRegPCI_lt (p : PCIDevice) (w offset : UInt32) : p.readRegPCI w offset < 256^w.toNat := by
  unfold readRegPCI
  split_ifs
  · exact Nat.pow_pos (by decide)
  · exact load_lt ..

/-- The bytes an access of `w` bytes reads or writes: the first, and how many. -/
def touched (w offset : UInt32) : List (Nat × Nat) :=
  if (offset + w).toNat > sizeof then [] else [(offset.toNat, w.toNat)]

theorem readRegPCI_congr {p q : PCIDevice} {w offset : UInt32}
    (h : ∀ r ∈ touched w offset, ∀ x : Int, r.1 ≤ x → x < r.1 + r.2 → p.bytes x = q.bytes x) :
    p.readRegPCI w offset = q.readRegPCI w offset := by
  unfold touched at h
  unfold readRegPCI
  split_ifs at h ⊢
  · rfl
  · exact load_congr (h _ List.mem_cons_self)

theorem writeRegPCI_frame (p : PCIDevice) {w offset : UInt32} (val : Nat) {x : Int}
    (h : ∀ r ∈ touched w offset, ¬ ((r.1 : Int) ≤ x ∧ x < r.1 + r.2)) :
    (p.writeRegPCI w offset val).bytes x = p.bytes x := by
  unfold touched at h
  unfold writeRegPCI
  split_ifs at h ⊢
  · rfl
  · by_cases hx : 0 ≤ x ∧ x < 192
    · rw [bytes_store_inside p hx, store_frame (h _ List.mem_cons_self)]
    · rw [bytes_outside _ hx, bytes_outside _ hx]

/-- Three bytes put together by shifts are the number they spell. -/
theorem or_shift_bytes (b₀ b₁ b₂ : UInt8) :
    (b₀.toUInt32 ||| (b₁.toUInt32 <<< 8) ||| (b₂.toUInt32 <<< 16)).toNat =
      b₀.toNat + 256 * (b₁.toNat + 256 * b₂.toNat) := by
  have h₀ := b₀.toNat_lt
  have h₁ := b₁.toNat_lt
  have h₂ := b₂.toNat_lt
  have hs₁ : (b₁.toUInt32 <<< 8).toNat = b₁.toNat <<< 8 := by
    simp only [UInt32.toNat_shiftLeft, UInt8.toNat_toUInt32, UInt32.reduceToNat, Nat.reduceMod,
      Nat.shiftLeft_eq]
    omega
  have hs₂ : (b₂.toUInt32 <<< 16).toNat = b₂.toNat <<< 16 := by
    simp only [UInt32.toNat_shiftLeft, UInt8.toNat_toUInt32, UInt32.reduceToNat, Nat.reduceMod,
      Nat.shiftLeft_eq]
    omega
  -- each shifted byte lies above the bits below it, so the ors are sums
  have hlow : b₀.toNat ||| b₁.toNat <<< 8 = b₁.toNat <<< 8 + b₀.toNat := by
    rw [Nat.or_comm, Nat.shiftLeft_add_eq_or_of_lt h₀]
  have hsmall : b₁.toNat <<< 8 + b₀.toNat < 2^16 := by
    rw [Nat.shiftLeft_eq]
    omega
  rw [UInt32.toNat_or, UInt32.toNat_or, UInt8.toNat_toUInt32, hs₁, hs₂, hlow, Nat.or_comm,
    ← Nat.shiftLeft_add_eq_or_of_lt hsmall, Nat.shiftLeft_eq, Nat.shiftLeft_eq]
  omega

/-- The class code is the number in the three bytes of its member. -/
theorem getClassCode_toNat (p : PCIDevice) : p.getClassCode.toNat = load p.bytes 9 3 := by
  have hoff : classCode.offset = 9 := by decide
  simp only [getClassCode, classByte, hoff]
  rw [or_shift_bytes]
  rfl

/-- A base address register is the long of its place. -/
theorem getBar_eq (p : PCIDevice) {i : UInt8} (hi : i < 6) :
    p.getBar i = p.readRegLongPCI (16 + 4 * i.toUInt32) := by
  have hbar : BAR.offset = 16 := by decide
  have hlt : i.toNat < 6 := UInt8.lt_iff_toNat_lt.mp hi
  have hoff : (16 + 4 * i.toUInt32).toNat = 16 + 4 * i.toNat := by
    simp only [UInt32.toNat_add, UInt32.toNat_mul, UInt8.toNat_toUInt32, UInt32.reduceToNat]
    omega
  have hfour : (4 : UInt32).toNat = 4 := rfl
  rw [getBar, if_neg (by rw [gt_iff_lt, UInt8.lt_iff_toNat_lt]; simp; omega), readRegLongPCI,
    readRegPCI_eq p (by omega), hoff, hfour, if_pos (by omega), hbar]
  rfl

/-! What the constructors leave. -/

/-- The loop over the base address registers clears those it has passed. -/
theorem load_cleared (p : PCIDevice) {n i : Nat} (hn : n ≤ 6) (hi : i < n) :
    load ((List.range n).foldl (fun p i => p.store (16 + 4 * i) 4 0) p).bytes (16 + 4 * i) 4 = 0 := by
  induction n with
  | zero => exact absurd hi (Nat.not_lt_zero i)
  | succ n ih =>
    rw [List.range_succ, List.foldl_append, List.foldl_cons, List.foldl_nil, bytes_store _ (by omega)]
    rcases Nat.lt_succ_iff_lt_or_eq.mp hi with hlt | rfl
    · rw [load_store_disjoint (by omega)]
      exact ih (by omega) hlt
    · exact load_store_same ..

theorem getBar_new (raw : Vector UInt8 192) (vendorID deviceID : UInt16) {i : UInt8} (hi : i < 6) :
    (new raw vendorID deviceID).getBar i = 0 := by
  have hbar : BAR.offset = 16 := by decide
  have hlt : i.toNat < 6 := UInt8.lt_iff_toNat_lt.mp hi
  have hload := load_cleared
    (((PCIDevice.mk raw).store DeviceRegister.vendorID.offset 2 vendorID.toNat).store
      DeviceRegister.deviceID.offset 2 deviceID.toNat) (Nat.le_refl 6) hlt
  rw [getBar, if_neg (by rw [gt_iff_lt, UInt8.lt_iff_toNat_lt]; simp; omega), new, hbar]
  exact congrArg UInt32.ofNat hload

/-- A device reports the class it was made with, all base address registers 0. -/
theorem newClass_spec (raw : Vector UInt8 192) (vendorID deviceID : UInt16) (code : UInt32) :
    (newClass raw vendorID deviceID code).getClassCode.toNat = code.toNat % 2^24 ∧
    ∀ i, i < 6 → (newClass raw vendorID deviceID code).getBar i = 0 := by
  have hclass : DeviceRegister.classCode.offset = 9 := by decide
  refine ⟨?_, fun i hi => ?_⟩
  · rw [getClassCode_toNat, newClass, hclass, bytes_store _ (by omega)]
    exact load_store_same ..
  · have hbar : BAR.offset = 16 := by decide
    rw [← getBar_new raw vendorID deviceID hi, newClass, getBar, getBar, hclass, hbar,
      bytes_store _ (by omega), load_store_disjoint (by omega)]

end PCIDevice
end EndlessFault
