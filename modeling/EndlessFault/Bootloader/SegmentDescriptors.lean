import EndlessFault.Bootloader.Bootloader

/- Segment descriptors. `fill_segment_descriptor` packs the fields of a segment into
   one 64-bit entry of the descriptor table, which the processor reads back by the
   layout of the architecture: the base from bits 16 to 39 and 56 to 63, the limit
   from bits 0 to 15 and 48 to 51, and the attributes between.

   Every field lands in its own bits (`segmentDescriptor_packed`) except bits 24 to 31
   of the base. They are in place for bit 56 after a shift by 32, and the code shifts
   them by 56, out of the word. A segment is described exactly when its base has none
   of them (`segment_described_iff`). -/
namespace EndlessFault
open Lib.Words

/-- The fields a segment may have: 32-bit base, and attributes of their widths. -/
structure KvmSegment.Legal (seg : KvmSegment) : Prop where
  base : seg.base.toNat < 2^32
  type : seg.type.toNat < 2^4
  dpl : seg.dpl.toNat < 2^2
  s : seg.s.toNat < 2^1
  present : seg.present.toNat < 2^1
  avl : seg.avl.toNat < 2^1
  l : seg.l.toNat < 2^1
  db : seg.db.toNat < 2^1
  g : seg.g.toNat < 2^1

namespace Bootloader

/-- The limit in the units of the descriptor. -/
def scaledLimit (seg : KvmSegment) : UInt32 := if seg.g ≠ 0 then seg.limit >>> 12 else seg.limit

/-- The number a descriptor is. -/
def packed (seg : KvmSegment) : Nat :=
  (scaledLimit seg).toNat % 2^16
    + 2^16 * (seg.base.toNat % 2^24)
    + 2^40 * seg.type.toNat
    + 2^44 * seg.s.toNat
    + 2^45 * seg.dpl.toNat
    + 2^47 * seg.present.toNat
    + 2^48 * ((scaledLimit seg).toNat / 2^16 % 2^4)
    + 2^52 * seg.avl.toNat
    + 2^53 * seg.l.toNat
    + 2^54 * seg.db.toNat
    + 2^55 * seg.g.toNat

theorem base_low (base : UInt64) : (base &&& 0xffffff).toNat = base.toNat % 2^24 := by
  rw [UInt64.toNat_and]
  exact Nat.and_two_pow_sub_one_eq_mod base.toNat 24

theorem limit_low (limit : UInt32) : (limit &&& 0xffff).toUInt64.toNat = limit.toNat % 2^16 := by
  rw [UInt32.toNat_toUInt64, UInt32.toNat_and]
  exact Nat.and_two_pow_sub_one_eq_mod limit.toNat 16

theorem limit_high (limit : UInt32) :
    ((limit.toUInt64 &&& 0xf0000) >>> 16).toNat = limit.toNat / 2^16 % 2^4 := by
  rw [UInt64.toNat_shiftRight, UInt64.toNat_and, UInt32.toNat_toUInt64]
  show (limit.toNat &&& 0xf0000) >>> 16 = _
  rw [Nat.shiftRight_and_distrib, Nat.shiftRight_eq_div_pow]
  exact Nat.and_two_pow_sub_one_eq_mod _ 4

/-- Bits 24 to 31 of the base are shifted out of the word. -/
theorem base_high_lost (base : UInt64) : (base &&& 0xff000000) <<< 56 = 0 := by
  have hlow : (base.toNat &&& 0xff000000) % 2^8 = 0 := by
    rw [Nat.and_mod_two_pow]
    exact Nat.and_zero _
  apply UInt64.toNat_inj.mp
  rw [UInt64.toNat_shiftLeft, UInt64.toNat_and]
  show (base.toNat &&& 0xff000000) <<< 56 % 2^64 = 0
  rw [Nat.shiftLeft_eq]
  omega

/-- Field by field from the low end, every field lands in its own bits. -/
theorem segmentDescriptor_packed {seg : KvmSegment} (h : seg.Legal) :
    Packed (segmentDescriptor seg) 56 (packed seg) := by
  have hlimit : Packed (scaledLimit seg &&& 0xffff).toUInt64 16 ((scaledLimit seg).toNat % 2^16) :=
    ⟨limit_low _, Nat.mod_lt _ (by decide)⟩
  have hbase : (seg.base &&& 0xffffff).toNat < 2^24 := by
    rw [base_low]
    exact Nat.mod_lt _ (by decide)
  have hhigh : (((scaledLimit seg).toUInt64 &&& 0xf0000) >>> 16).toNat < 2^4 := by
    rw [limit_high]
    exact Nat.mod_lt _ (by decide)
  have hbase := hlimit.field (s := 16) (by decide) (by decide) hbase (by decide)
  have htype := hbase.field (s := 40) (x := seg.type.toUInt64) (by decide) (by decide) h.type (by decide)
  have hs := htype.field (s := 44) (x := seg.s.toUInt64) (by decide) (by decide) h.s (by decide)
  have hdpl := hs.field (s := 45) (x := seg.dpl.toUInt64) (by decide) (by decide) h.dpl (by decide)
  have hpresent := hdpl.field (s := 47) (x := seg.present.toUInt64) (by decide) (by decide) h.present
    (by decide)
  have hlimit' := hpresent.field (s := 48) (by decide) (by decide) hhigh (by decide)
  have havl := hlimit'.field (s := 52) (x := seg.avl.toUInt64) (by decide) (by decide) h.avl (by decide)
  have hl := havl.field (s := 53) (x := seg.l.toUInt64) (by decide) (by decide) h.l (by decide)
  have hdb := hl.field (s := 54) (x := seg.db.toUInt64) (by decide) (by decide) h.db (by decide)
  have hg := hdb.field (s := 55) (x := seg.g.toUInt64) (by decide) (by decide) h.g (by decide)
  rw [base_low, limit_high] at hg
  unfold segmentDescriptor
  rw [base_high_lost, UInt64.or_zero]
  exact hg

/-! The processor's view. -/

/-- The fields of a descriptor as the processor reads them. -/
structure Descriptor where
  base : Nat
  limit : Nat
  type : Nat
  s : Nat
  dpl : Nat
  present : Nat
  avl : Nat
  l : Nat
  db : Nat
  g : Nat
  deriving DecidableEq, Repr

def Descriptor.decode (d : UInt64) : Descriptor where
  base := bits d 16 24 + 2^24 * bits d 56 8
  limit := bits d 0 16 + 2^16 * bits d 48 4
  type := bits d 40 4
  s := bits d 44 1
  dpl := bits d 45 2
  present := bits d 47 1
  avl := bits d 52 1
  l := bits d 53 1
  db := bits d 54 1
  g := bits d 55 1

/-- All fields come back except the upper byte of the base. -/
theorem decode_segmentDescriptor {seg : KvmSegment} (h : seg.Legal) :
    Descriptor.decode (segmentDescriptor seg) =
      { base := seg.base.toNat % 2^24
        limit := (scaledLimit seg).toNat % 2^20
        type := seg.type.toNat
        s := seg.s.toNat
        dpl := seg.dpl.toNat
        present := seg.present.toNat
        avl := seg.avl.toNat
        l := seg.l.toNat
        db := seg.db.toNat
        g := seg.g.toNat } := by
  have hlimit : (scaledLimit seg).toNat % 2^20 =
      (scaledLimit seg).toNat % 2^16 + 2^16 * ((scaledLimit seg).toNat / 2^16 % 2^4) :=
    Nat.mod_mul (a := 2^16) (b := 2^4)
  -- the sum, with each field in front of all above it
  have hsum : (segmentDescriptor seg).toNat / 2^0 =
      (scaledLimit seg).toNat % 2^16 + 2^16 * (seg.base.toNat % 2^24 + 2^24 * (seg.type.toNat +
      2^4 * (seg.s.toNat + 2^1 * (seg.dpl.toNat + 2^2 * (seg.present.toNat +
      2^1 * ((scaledLimit seg).toNat / 2^16 % 2^4 + 2^4 * (seg.avl.toNat +
      2^1 * (seg.l.toNat + 2^1 * (seg.db.toNat + 2^1 * (seg.g.toNat + 2^1 * 0)))))))))) := by
    rw [(segmentDescriptor_packed h).value, packed]
    omega
  obtain ⟨hlow, hsum⟩ := bits_peel hsum (Nat.mod_lt _ (by decide))
  obtain ⟨hbase, hsum⟩ := bits_peel hsum (Nat.mod_lt _ (by decide))
  obtain ⟨htype, hsum⟩ := bits_peel hsum h.type
  obtain ⟨hs, hsum⟩ := bits_peel hsum h.s
  obtain ⟨hdpl, hsum⟩ := bits_peel hsum h.dpl
  obtain ⟨hpresent, hsum⟩ := bits_peel hsum h.present
  obtain ⟨hhigh, hsum⟩ := bits_peel hsum (Nat.mod_lt _ (by decide))
  obtain ⟨havl, hsum⟩ := bits_peel hsum h.avl
  obtain ⟨hl, hsum⟩ := bits_peel hsum h.l
  obtain ⟨hdb, hsum⟩ := bits_peel hsum h.db
  obtain ⟨hg, hsum⟩ := bits_peel hsum h.g
  have hnone : bits (segmentDescriptor seg) 56 8 = 0 := by
    rw [bits, show (segmentDescriptor seg).toNat / 2^56 = 0 from hsum, Nat.zero_mod]
  simp only [Nat.zero_add, Nat.reduceAdd] at hlow hbase htype hs hdpl hpresent hhigh havl hl hdb hg
  simp only [Descriptor.decode, hlow, hbase, htype, hs, hdpl, hpresent, hhigh, havl, hl, hdb, hg,
    hnone, hlimit, Nat.mul_zero, Nat.add_zero]

/-- What `fill_segment_descriptor` is for: the entry the selector names decodes to the
segment, and the other entries are as they were. -/
structure Described (dt : UInt64) (seg : KvmSegment) (m : BootMemory) (d : Descriptor) : Prop where
  base : d.base = seg.base.toNat
  limitPages : seg.g ≠ 0 → d.limit = seg.limit.toNat / 2^12
  limitBytes : seg.g = 0 → seg.limit.toNat < 2^20 → d.limit = seg.limit.toNat
  type : d.type = seg.type.toNat
  s : d.s = seg.s.toNat
  dpl : d.dpl = seg.dpl.toNat
  present : d.present = seg.present.toNat
  avl : d.avl = seg.avl.toNat
  l : d.l = seg.l.toNat
  db : d.db = seg.db.toNat
  g : d.g = seg.g.toNat
  others : ∀ index, index ≠ (seg.selector >>> 3).toNat →
    (fillSegmentDescriptor dt seg m).get dt index = m.get dt index

/-- The entry the selector of `seg` names after `fill_segment_descriptor`. -/
def entry (dt : UInt64) (seg : KvmSegment) (m : BootMemory) : Descriptor :=
  .decode ((fillSegmentDescriptor dt seg m).get dt (seg.selector >>> 3).toNat)

theorem entry_eq (dt : UInt64) (seg : KvmSegment) (m : BootMemory) :
    entry dt seg m = Descriptor.decode (segmentDescriptor seg) :=
  congrArg Descriptor.decode (load64_store64_same m.memory _ _)

theorem fill_frame (dt : UInt64) (seg : KvmSegment) (m : BootMemory) {index : Nat}
    (h : index ≠ (seg.selector >>> 3).toNat) :
    (fillSegmentDescriptor dt seg m).get dt index = m.get dt index :=
  load64_store64_disjoint (by unfold BootMemory.slot; omega)

/-- A segment is described exactly when its base needs no more than 24 bits. -/
theorem segment_described_iff (dt : UInt64) {seg : KvmSegment} (h : seg.Legal) (m : BootMemory) :
    Described dt seg m (entry dt seg m) ↔ seg.base.toNat < 2^24 := by
  rw [entry_eq, decode_segmentDescriptor h]
  refine ⟨?_, ?_⟩
  · intro hd
    have hbase : seg.base.toNat % 2^24 = seg.base.toNat := hd.base
    omega
  · intro hbase
    have hlimit := seg.limit.toNat_lt
    have hmod : seg.base.toNat % 2^24 = seg.base.toNat := Nat.mod_eq_of_lt hbase
    refine ⟨hmod, ?_, ?_, rfl, rfl, rfl, rfl, rfl, rfl, rfl, rfl, ?_⟩
    · intro hpages
      have hscaled : (scaledLimit seg).toNat = seg.limit.toNat / 2^12 := by
        rw [scaledLimit, if_pos hpages, UInt32.toNat_shiftRight]
        exact Nat.shiftRight_eq_div_pow _ _
      rw [hscaled]
      exact Nat.mod_eq_of_lt (by omega)
    · intro hbytes hsmall
      have hscaled : (scaledLimit seg).toNat = seg.limit.toNat := by
        rw [scaledLimit, if_neg (not_not.mpr hbytes)]
      rw [hscaled]
      exact Nat.mod_eq_of_lt hsmall
    · intro index hne
      exact fill_frame dt seg m hne

theorem segment_described_code_segment :
    KvmSegment.Legal codeSegment ∧
    (Described 0x10000 codeSegment ⟨fun _ => 0, []⟩ (entry 0x10000 codeSegment ⟨fun _ => 0, []⟩) ↔
      codeSegment.base.toNat < 2^24) := by
  have h : KvmSegment.Legal codeSegment := by
    refine ⟨?_, ?_, ?_, ?_, ?_, ?_, ?_, ?_, ?_⟩ <;> decide
  exact ⟨h, segment_described_iff 0x10000 h ⟨fun _ => 0, []⟩⟩

/-- A segment at 16 MiB: the processor finds the base 0. -/
def highSegment : KvmSegment := { codeSegment with base := 0x1000000 }

theorem high_segment_not_described :
    KvmSegment.Legal highSegment ∧
    (entry 0x10000 highSegment ⟨fun _ => 0, []⟩).base = 0 ∧
    ¬ Described 0x10000 highSegment ⟨fun _ => 0, []⟩ (entry 0x10000 highSegment ⟨fun _ => 0, []⟩) := by
  have h : KvmSegment.Legal highSegment := by
    refine ⟨?_, ?_, ?_, ?_, ?_, ?_, ?_, ?_, ?_⟩ <;> decide
  have hbase : (entry 0x10000 highSegment ⟨fun _ => 0, []⟩).base = 0 := by
    rw [entry_eq, decode_segmentDescriptor h]
    rfl
  refine ⟨h, hbase, ?_⟩
  intro hd
  exact absurd (hbase.symm.trans hd.base) (by decide)

end Bootloader
end EndlessFault
