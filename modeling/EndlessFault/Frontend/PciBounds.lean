import EndlessFault.Frontend.ConfigurationSpace

/- Where the accesses of the guest through the bridge land. Each routine takes an element
   of `devices` at the decoded device number and hands the device an offset, which the
   device compares with its size by a 32-bit sum. `InRange` says that an access uses an
   index inside the array and bytes inside the registers; besides these places nothing is
   looked at or changed (`reply_congr`, `step_frame`).

   A write of `CAP` decodes five bits of device number and eight of offset, so after it
   every access is in range (`Decoded`). The constructor clears `CAP` but does not decode
   it: until `CAP` is first written the accesses at the data port go by whatever the
   members held, and the sum may wrap. Main result: `in_range_iff`. -/
namespace EndlessFault
open Lib.Machine

namespace PciHost
open ConfigurationSpace DeviceRegister

/-! The places an access uses. -/

def Access.addr : Access → UInt16
  | .readByte addr => addr
  | .readWord addr => addr
  | .readLong addr => addr
  | .writeByte addr _ => addr
  | .writeWord addr _ => addr
  | .writeLong addr _ => addr

def Access.width : Access → UInt32
  | .readByte _ => 1
  | .readWord _ => 2
  | .readLong _ => 4
  | .writeByte _ _ => 1
  | .writeWord _ _ => 2
  | .writeLong _ _ => 4

def Access.isReadWord : Access → Bool
  | .readWord _ => true
  | _ => false

/-- A write of `CAP` that is decoded. -/
def Access.selects : Access → Bool
  | .writeLong addr _ => addr == capAddr
  | _ => false

/-- The ports of the bridge. -/
def Access.atBridge (a : Access) : Prop := a.addr = capAddr ∨ dataPort a.addr = true

/-- The index of the element of `devices` an access takes, before it looks at the bus or
the function number. -/
def indices (h : PciHost) (a : Access) : List Nat :=
  if a.addr = capAddr then [] else [h.deviceNumber.toNat]

/-- The bytes of the registers an access reads or writes. -/
def ranges (h : PciHost) (a : Access) : List (Nat × Nat) :=
  if a.addr = capAddr then []
  else if a.isReadWord = true ∧ h.busNumber ≠ 0 then []
  else match h.target with
    | none => []
    | some _ => PCIDevice.touched a.width (h.offset a.addr)

/-- An access stays inside the array and inside the registers. -/
def InRange (h : PciHost) (a : Access) : Prop :=
  (∀ i ∈ h.indices a, i < 32) ∧ ∀ r ∈ h.ranges a, r.1 + r.2 ≤ 192

theorem Access.width_le (a : Access) : a.width.toNat ≤ 4 := by
  cases a <;> simp [Access.width]

theorem inRange_capAddr (h : PciHost) {a : Access} (ha : a.addr = capAddr) : InRange h a := by
  simp [InRange, indices, ranges, ha]

/-- The device refuses what lies outside its registers unless the sum wraps. -/
theorem touched_inside_iff {offset w : UInt32} (hw : w.toNat ≤ 4) :
    (∀ r ∈ PCIDevice.touched w offset, r.1 + r.2 ≤ 192) ↔ offset.toNat + w.toNat < 2^32 := by
  unfold PCIDevice.touched
  by_cases hlt : offset.toNat + w.toNat < 2^32
  · refine iff_of_true ?_ hlt
    simp only [PCIDevice.refused_iff hlt]
    split_ifs with hin
    · simpa using hin
    · simp
  · -- the wrapped sum is below 4, so the check passes
    have hoff := offset.toNat_lt
    have hsum : ¬ (offset + w).toNat > sizeof := by
      rw [sizeof_eq, UInt32.toNat_add]
      omega
    rw [if_neg hsum, List.forall_mem_singleton]
    exact iff_of_false (fun hle => hlt (by omega)) hlt

/-- When an access at the data port is in range. -/
theorem inRange_iff (h : PciHost) {a : Access} (ha : dataPort a.addr = true) :
    InRange h a ↔ h.deviceNumber.toNat < 32 ∧
      (h.target.isSome = true → (a.isReadWord = true → h.busNumber = 0) →
        (h.offsetNumber.toNat + lane a.addr) % 2^32 + a.width.toNat < 2^32) := by
  have hcap := ne_capAddr ha
  rw [← offset_toNat_mod h ha, ← touched_inside_iff a.width_le]
  simp only [InRange, indices, ranges, if_neg hcap, List.forall_mem_singleton]
  refine and_congr_right fun _ => ?_
  by_cases hbus : a.isReadWord = true ∧ h.busNumber ≠ 0
  · simp [hbus]
  · have hword : a.isReadWord = true → h.busNumber = 0 := by simpa using hbus
    rw [if_neg hbus]
    cases h.target with
    | none => simp
    | some p => simp only [Option.isSome_some, true_imp_iff, forall_prop_of_true hword]

/-! What an access does with these places. -/

/-- An access that does not write `CAP` leaves the bridge or writes to the selected device. -/
theorem step_quiet (h : PciHost) {a : Access} (ha : a.selects = false) :
    h.step a = h ∨
      a.addr ≠ capAddr ∧ a.isReadWord = false ∧ ∃ v, h.step a = h.written a.width a.addr v := by
  cases a with
  | readByte addr => exact .inl rfl
  | readWord addr => exact .inl rfl
  | readLong addr => exact .inl rfl
  | writeByte addr val =>
    by_cases hcap : addr = capAddr
    · exact .inl (if_pos hcap)
    · exact .inr ⟨hcap, rfl, val.toNat, if_neg hcap⟩
  | writeWord addr val =>
    by_cases hcap : addr = capAddr
    · exact .inl (if_pos hcap)
    · exact .inr ⟨hcap, rfl, val.toNat, if_neg hcap⟩
  | writeLong addr val =>
    have hcap : addr ≠ capAddr := by simpa [Access.selects] using ha
    exact .inr ⟨hcap, rfl, val.toNat, if_neg hcap⟩

/-- Two bridges with the same decoded numbers and devices in the same slots. -/
structure Same (h g : PciHost) : Prop where
  device : g.deviceNumber = h.deviceNumber
  bus : g.busNumber = h.busNumber
  function_ : g.functionNumber = h.functionNumber
  offset : g.offsetNumber = h.offsetNumber
  present : ∀ n, (g.slot n).isSome = (h.slot n).isSome

theorem same_refl (h : PciHost) : Same h h := ⟨rfl, rfl, rfl, rfl, fun _ => rfl⟩

theorem lt_of_slot {h : PciHost} {n : Nat} {p : PCIDevice} (hp : h.slot n = some p) : n < 32 := by
  by_contra hge
  rw [slot, Vector.getElem?_eq_none (by omega)] at hp
  exact absurd hp (by simp)

theorem same_written (h : PciHost) (w : UInt32) (addr : UInt16) (v : Nat) :
    Same h (h.written w addr v) := by
  unfold written
  cases ht : h.target with
  | none => exact same_refl h
  | some p =>
    have hslot := slot_of_target ht
    refine ⟨rfl, rfl, rfl, rfl, fun n => ?_⟩
    rw [slot_update h _ (lt_of_slot hslot)]
    split_ifs with hn
    · rw [hn, hslot]
      rfl
    · rfl

theorem same_step (h : PciHost) {a : Access} (ha : a.selects = false) : Same h (h.step a) := by
  rcases step_quiet h ha with hstay | ⟨-, -, v, hwritten⟩
  · rw [hstay]
    exact same_refl h
  · rw [hwritten]
    exact same_written h a.width a.addr v

theorem Same.target_isSome {h g : PciHost} (hs : Same h g) : g.target.isSome = h.target.isSome := by
  unfold target
  rw [hs.function_, hs.device]
  split_ifs
  · rfl
  · exact hs.present _

theorem ranges_of_target {h : PciHost} {a : Access} {p : PCIDevice} (ht : h.target = some p)
    (hcap : a.addr ≠ capAddr) (hbus : a.isReadWord = true → h.busNumber = 0) :
    h.ranges a = PCIDevice.touched a.width (h.offset a.addr) := by
  have hnot : ¬ (a.isReadWord = true ∧ h.busNumber ≠ 0) := fun hoff => hoff.2 (hbus hoff.1)
  simp only [ranges, if_neg hcap, if_neg hnot, ht]

theorem answered_congr {h g : PciHost} (hs : Same h g) (w : UInt32) (addr : UInt16)
    (hbytes : ∀ p q, h.target = some p → g.target = some q →
      ∀ r ∈ PCIDevice.touched w (h.offset addr), ∀ x : Int,
        r.1 ≤ x → x < r.1 + r.2 → p.bytes x = q.bytes x) :
    h.answered w addr = g.answered w addr := by
  have hsome := hs.target_isSome
  have hoff : g.offset addr = h.offset addr := by rw [offset, offset, hs.offset]
  unfold answered
  cases hh : h.target with
  | none =>
    cases hg : g.target with
    | none => rfl
    | some q => simp [hh, hg] at hsome
  | some p =>
    cases hg : g.target with
    | none => simp [hh, hg] at hsome
    | some q =>
      simp only [hoff]
      exact PCIDevice.readRegPCI_congr (hbytes p q hh hg)

/-- A read looks at the bytes of its ranges only. -/
theorem reply_congr {h g : PciHost} (hs : Same h g) {a : Access} (ha : dataPort a.addr = true)
    (hbytes : ∀ p q, h.target = some p → g.target = some q → ∀ r ∈ h.ranges a, ∀ x : Int,
      r.1 ≤ x → x < r.1 + r.2 → p.bytes x = q.bytes x) :
    h.reply a = g.reply a := by
  have hanswered : (a.isReadWord = true → h.busNumber = 0) →
      h.answered a.width a.addr = g.answered a.width a.addr := by
    intro hbus
    refine answered_congr hs a.width a.addr fun p q hp hq => ?_
    rw [← ranges_of_target hp (ne_capAddr ha) hbus]
    exact hbytes p q hp hq
  cases a with
  | readByte addr =>
    simp only [Access.addr] at ha
    rw [reply, reply, readRegByte_toNat h ha, readRegByte_toNat g ha]
    exact congrArg (fun v => [v]) (hanswered (by simp [Access.isReadWord]))
  | readWord addr =>
    simp only [Access.addr] at ha
    by_cases hbus : h.busNumber = 0
    · rw [reply, reply, readRegWord_toNat h hbus ha, readRegWord_toNat g (hs.bus.trans hbus) ha]
      exact congrArg (fun v => [v]) (hanswered fun _ => hbus)
    · -- off bus 0 nothing is looked at
      have hbus' : g.busNumber ≠ 0 := hs.bus ▸ hbus
      simp only [reply, readRegWord, if_neg (ne_capAddr ha), ne_eq, hbus, hbus', not_false_eq_true, if_true]
  | readLong addr =>
    simp only [Access.addr] at ha
    rw [reply, reply, readRegLong_toNat h ha, readRegLong_toNat g ha]
    exact congrArg (fun v => [v]) (hanswered (by simp [Access.isReadWord]))
  | writeByte addr val => rfl
  | writeWord addr val => rfl
  | writeLong addr val => rfl

/-- A write changes the bytes of its ranges only, in the device at its index. -/
theorem step_frame (h : PciHost) {a : Access} (ha : a.selects = false) {n : Nat} {p : PCIDevice}
    (hp : h.slot n = some p) {x : Int}
    (hx : n ∈ h.indices a → ∀ r ∈ h.ranges a, ¬ ((r.1 : Int) ≤ x ∧ x < r.1 + r.2)) :
    ∃ q, (h.step a).slot n = some q ∧ q.bytes x = p.bytes x := by
  rcases step_quiet h ha with hstay | ⟨hcap, hword, v, hwritten⟩
  · exact ⟨p, by rw [hstay, hp], rfl⟩
  · rw [hwritten]
    unfold written
    cases ht : h.target with
    | none => exact ⟨p, hp, rfl⟩
    | some d =>
      have hslot := slot_of_target ht
      simp only [slot_update h _ (lt_of_slot hslot)]
      by_cases hn : n = h.deviceNumber.toNat
      · subst hn
        obtain rfl : d = p := Option.some.inj (hslot.symm.trans hp)
        have hranges := ranges_of_target ht hcap (by simp [hword])
        have hindex : h.deviceNumber.toNat ∈ h.indices a := by
          rw [indices, if_neg hcap]
          exact List.mem_cons_self
        exact ⟨_, if_pos rfl, d.writeRegPCI_frame v (hranges ▸ hx hindex)⟩
      · exact ⟨p, by rw [if_neg hn, hp], rfl⟩

/-! After `CAP` is written. -/

/-- The decoded numbers lie in the fields of an address. -/
structure Decoded (h : PciHost) : Prop where
  device : h.deviceNumber.toNat < 32
  offset : h.offsetNumber.toNat < 256

theorem Decoded.inRange {h : PciHost} (hd : Decoded h) {a : Access} (ha : a.atBridge) : InRange h a := by
  rcases ha with hcap | hport
  · exact inRange_capAddr h hcap
  · rw [inRange_iff h hport]
    refine ⟨hd.device, fun _ _ => ?_⟩
    have hoff := hd.offset
    have hlane := (lane_add hport).2
    have hw := a.width_le
    omega

theorem decoded_select (h : PciHost) {a : Access} (ha : a.selects = true) :
    InRange h a ∧ Decoded (h.step a) := by
  cases a with
  | writeLong addr cap =>
    obtain rfl : addr = capAddr := by simpa [Access.selects] using ha
    obtain ⟨-, hdev, -, hoff, -⟩ := prepared h cap
    refine ⟨inRange_capAddr h rfl, ?_, ?_⟩
    · exact hdev ▸ Nat.mod_lt _ (by decide)
    · exact hoff ▸ Nat.mod_lt _ (by decide)
  | readByte addr => simp [Access.selects] at ha
  | readWord addr => simp [Access.selects] at ha
  | readLong addr => simp [Access.selects] at ha
  | writeByte addr val => simp [Access.selects] at ha
  | writeWord addr val => simp [Access.selects] at ha

theorem decoded_step {h : PciHost} (hd : Decoded h) (a : Access) : Decoded (h.step a) := by
  cases hsel : a.selects with
  | true => exact (decoded_select h hsel).2
  | false =>
    have hsame := same_step h hsel
    exact ⟨hsame.device ▸ hd.device, hsame.offset ▸ hd.offset⟩

/-- From a decoded state on, every access is in range. -/
theorem Decoded.along {h : PciHost} (hd : Decoded h) {as : List Access}
    (has : ∀ a ∈ as, a.atBridge) : Along step InRange h as :=
  along_of_invariant Decoded Access.atBridge (fun _ a hd => decoded_step hd a)
    (fun _ _ ha hd => hd.inRange ha) hd has

/-! From the constructor. -/

/-- The slots below the second component hold devices, and no others. -/
def Front (s : Vector (Option PCIDevice) 32 × Nat) : Prop :=
  ∀ n, s.1[n]?.join.isSome = true ↔ n < s.2

theorem front_connect {s : Vector (Option PCIDevice) 32 × Nat} (hs : Front s) (hlt : s.2 < 32)
    (p : PCIDevice) : Front (connect s (some p)) := by
  obtain ⟨devices, connected⟩ := s
  intro n
  simp only [connect, Vector.getElem?_setIfInBounds]
  by_cases heq : connected = n
  · subst heq
    simp [hlt]
  · rw [if_neg heq, hs n]
    show n < connected ↔ n < connected + 1
    omega

/-- The loop over the connected devices fills the slots from the front. -/
theorem front_foldl (ds : List (Option PCIDevice)) {s : Vector (Option PCIDevice) 32 × Nat}
    (hs : Front s) (hle : s.2 + ds.length ≤ 32) :
    Front (ds.foldl connect s) ∧ (ds.foldl connect s).2 = s.2 + ds.countP Option.isSome := by
  induction ds generalizing s with
  | nil => exact ⟨hs, rfl⟩
  | cons d ds ih =>
    rw [List.length_cons] at hle
    cases d with
    | none =>
      obtain ⟨hfront, hcount⟩ := ih hs (by omega)
      exact ⟨hfront, by simpa [connect] using hcount⟩
    | some p =>
      have hnext : (connect s (some p)).2 = s.2 + 1 := rfl
      obtain ⟨hfront, hcount⟩ := ih (front_connect hs (by omega) p) (by omega)
      refine ⟨hfront, ?_⟩
      rw [List.foldl_cons, hcount, hnext, List.countP_cons_of_pos (by rfl)]
      omega

/-- The number of devices the constructor is given. -/
def connectedCount (ds : Vector (Option PCIDevice) 32) : Nat := ds.toList.countP Option.isSome

theorem slot_new (ds : Vector (Option PCIDevice) 32) (unset : Unset) (n : Nat) :
    ((new ds unset).slot n).isSome = true ↔ n < connectedCount ds := by
  have hempty : Front (Vector.replicate 32 none, 0) := by
    intro n
    by_cases hn : n < 32
    · simp [hn]
    · rw [Vector.getElem?_eq_none (by omega)]
      simp
  obtain ⟨hfront, hcount⟩ := front_foldl ds.toList hempty (by simp)
  rw [Nat.zero_add] at hcount
  rw [connectedCount, ← hcount, ← hfront n]
  show ((ds.toList.foldl connect _).1.map (Option.map initBars))[n]?.join.isSome = true ↔ _
  rw [Vector.getElem?_map]
  cases (ds.toList.foldl connect (Vector.replicate 32 none, 0)).1[n]? with
  | none => rfl
  | some d => cases d <;> rfl

/-- An access at the data port is harmless under the numbers found in memory: they select
an element of the array, and if it holds a device that answers, the offset does not wrap. -/
def Unset.Harmless (unset : Unset) (connected : Nat) (a : Access) : Prop :=
  unset.deviceNumber.toNat < 32 ∧
  (unset.deviceNumber.toNat < connected → unset.functionNumber = 0 →
    (a.isReadWord = true → unset.busNumber = 0) →
    (unset.offsetNumber.toNat + lane a.addr) % 2^32 + a.width.toNat < 2^32)

/-- Until `CAP` is written an access is in range when it is harmless. -/
theorem inRange_new {ds : Vector (Option PCIDevice) 32} {unset : Unset} {h : PciHost}
    (hs : Same (new ds unset) h) {a : Access} (ha : a.atBridge) :
    InRange h a ↔ dataPort a.addr = true → unset.Harmless (connectedCount ds) a := by
  by_cases hport : dataPort a.addr = true
  · have htarget : h.target.isSome = true ↔
        unset.deviceNumber.toNat < connectedCount ds ∧ unset.functionNumber = 0 := by
      rw [hs.target_isSome]
      show (if unset.functionNumber ≠ 0 then none
        else (new ds unset).slot unset.deviceNumber.toNat).isSome = true ↔ _
      split_ifs with hf
      · simp [hf]
      · rw [slot_new, and_iff_left (not_not.mp hf)]
    rw [inRange_iff h hport, htarget, hs.device, hs.bus, hs.offset, and_imp, forall_prop_of_true hport]
    rfl
  · exact iff_of_true (inRange_capAddr h (ha.resolve_right hport)) (fun hp => absurd hp hport)

/-- The accesses to the array and to the registers, from the constructor on. They are all
in range exactly when each access made at the data port before `CAP` is first written is
harmless under what the unset members held. -/
theorem in_range_iff (ds : Vector (Option PCIDevice) 32) (unset : Unset) (as : List Access)
    (has : ∀ a ∈ as, a.atBridge) :
    Along step InRange (new ds unset) as ↔
      ∀ a ∈ as.takeWhile (fun a => !a.selects),
        dataPort a.addr = true → unset.Harmless (connectedCount ds) a := by
  refine along_until (Same (new ds unset)) Decoded Access.atBridge _ Access.selects
    (fun h _ ha => decoded_select h ha) (fun _ _ hd => hd.along) (fun h a ha hsel hs => ?_)
    (same_refl _) has
  have hstep := same_step h hsel
  refine ⟨⟨?_, ?_, ?_, ?_, ?_⟩, inRange_new hs ha⟩
  · exact hstep.device.trans hs.device
  · exact hstep.bus.trans hs.bus
  · exact hstep.function_.trans hs.function_
  · exact hstep.offset.trans hs.offset
  · exact fun n => (hstep.present n).trans (hs.present n)

/-- A byte read before `CAP` is written, with members that happen to hold 0, and then an
address past the registers. -/
theorem in_range_iff_zero :
    Along step InRange (new twoDevices ⟨0, 0, 0, 0⟩)
      [.readByte 0x0CFD, .writeLong 0x0CF8 0x800000FF, .writeLong 0x0CFF 1, .readWord 0x0CFC] := by
  refine (in_range_iff _ _ _ ?_).mpr ?_
  · simp [Access.atBridge, Access.addr, dataPort, capAddr]
  · intro a ha _
    obtain rfl : a = .readByte 0x0CFD := by simpa [Access.selects, capAddr] using ha
    exact ⟨by decide, fun _ _ _ => by decide⟩

/-- Two devices and nothing written to `CAP`: a first byte read takes the element 32 of the
array when that is what the device number held, and with an offset of `0xFFFFFFFF` it reads
far behind the registers of the device, as the sum wraps to 0. -/
theorem unset_numbers_out_of_range :
    ¬ Along step InRange (new twoDevices ⟨32, 0, 0, 0⟩) [.readByte 0x0CFC] ∧
    ¬ Along step InRange (new twoDevices ⟨0, 0, 0, 0xFFFFFFFF⟩) [.readByte 0x0CFC] := by
  have hcount : connectedCount twoDevices = 2 := by decide +kernel
  refine ⟨fun hall => ?_, fun hall => ?_⟩
  · have hread := (inRange_new (same_refl _) (.inr rfl)).mp hall.1 rfl
    exact absurd hread.1 (by decide)
  · have hread := (inRange_new (same_refl _) (.inr rfl)).mp hall.1 rfl
    exact absurd (hread.2 (by rw [hcount]; decide) rfl (fun _ => rfl)) (by decide)

end PciHost
end EndlessFault
