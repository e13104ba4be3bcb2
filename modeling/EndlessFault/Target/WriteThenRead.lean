import EndlessFault.Target.Leggisett
import EndlessFault.Target.Scrivisett

/- The two disk drivers on one image: a machine is started on it and runs the driver that writes, and then
   another machine is started on what the first one has left and runs the driver that reads.
   All words written come back but those of the first sector, in whose place the reader gets sector 0 of the
   image: its command fetches a sector before it takes the address, and a disk just started has
   none but 0. Main result: `write_then_read`. -/
namespace EndlessFault
open Lib.Machine Lib.Bytes DiskManager

namespace PciHdd
open Guest
variable {w : Nat → UInt16} {N : Nat} {f : List UInt8}

/-- A machine just started on an image of `N` sectors, its disk at `b0` and `b1`. -/
structure Started (N : Nat) (f : List UInt8) (b0 b1 : UInt16) (g : Guest) : Prop where
  free : Vm.Free b0 b1
  placed : Vm.Placed b0 b1 g.vm
  length : f.length = 512 * N
  small : 512 * N < 2^32
  disk : ∃ buffer fill, g.vm.hdd = HardDisk.new buffer fill (UInt32.ofNat N) (some f)

section
variable {b0 b1 : UInt16} {g : Guest} (h : Started N f b0 b1 g)
include h

theorem Started.idle : HardDisk.Idle N f g.vm.hdd := by
  obtain ⟨buffer, fill, hdisk⟩ := h.disk
  rw [hdisk]
  exact HardDisk.new_idle buffer fill h.length h.small

theorem Started.registers : g.vm.hdd.currentSectorNumber = 0 ∧ g.vm.hdd.lba = 0 ∧ g.vm.hdd.STS = 0 := by
  obtain ⟨buffer, fill, hdisk⟩ := h.disk
  rw [hdisk]
  exact ⟨rfl, rfl, rfl⟩

/-- The first sector read by a machine just started. -/
theorem Started.fetched (hN : 0 < N) : PciHdd2.fetched N f g.vm.hdd = sector f 0 := by
  obtain ⟨hcount, hlba, -⟩ := h.registers
  rw [PciHdd2.fetched, hcount, hlba]
  exact if_pos hN

end

/-! Words of a sector. -/

theorem wordAt_range (vetto : Nat → UInt16) (i : Nat) {j : Nat} (hj : j < 256) :
    wordAt (leBytes ((List.range 256).map fun j => vetto (256 * i + j))) (2 * j) = vetto (256 * i + j) := by
  rw [wordAt_leBytes _ (by simpa using hj), List.getD_eq_getElem?_getD, List.getElem?_map, List.getElem?_range hj]
  rfl

/-- For every image below 4 GiB, every two machines, the second started on the image that the first has left, and
every range of its sectors: the write and the read of the range both return, and every word read is the one
written, except that when the range does not begin at sector 0, the words of sector 0 of the image stand in the
place of those of its first sector. -/
theorem write_then_read {b0 b1 : UInt16} {g : Guest} (hg : Started N f b0 b1 g)
    (hseven : ¬ (b0.toNat ≤ 7 ∧ 7 ≤ b0.toNat + 7) ∧ ¬ (b1.toNat ≤ 7 ∧ 7 ≤ b1.toNat + 1))
    (hclear : g.ioParam.toUInt8 &&& 0x80 = 0) {lba : UInt32} {quanti : UInt8} (hin : lba.toNat + quanti.toNat ≤ N)
    (vetto vetti : Nat → UInt16) {fuel : Nat} (hfuel : 0 < fuel) :
    ∃ g', PciHdd1.scrivisett w fuel b0 b1 lba quanti vetto g = some g' ∧
      ∀ b0' b1' h, Started N g'.vm.hdd.image b0' b1' h →
        ∃ h' vetti', PciHdd2.leggisett w fuel b0' b1' lba quanti vetti h = some (h', vetti') ∧
          ∀ k, k < 256 * quanti.toNat →
            vetti' k = if k < 256 ∧ lba ≠ 0 then wordAt (sector f 0) (2 * k) else vetto k := by
  have hsmall := hg.small
  have hlba : lba.toNat < 2^28 := by omega
  obtain ⟨hcount, -, -⟩ := hg.registers
  have hzero : g.vm.hdd.currentSectorNumber.toNat = 0 := by rw [hcount, UInt32.toNat_zero]
  obtain ⟨g', hwrite, hsent⟩ := PciHdd1.returns (w := w) hg.free hg.placed hg.idle hseven hlba vetto hclear (by omega) hfuel
  have hcommanded := PciHdd1.commanded_comando w quanti hg.free hg.placed hg.idle hlba
  have hquanti := quanti.toNat_lt
  obtain ⟨-, hwritten, hkept⟩ := hsent.sectors hcommanded (by omega)
  -- the range is on the disk and not moved, so no block wraps
  have hblock : ∀ i, i < quanti.toNat → blocco lba g.vm.hdd.currentSectorNumber.toNat i = lba.toNat + i := by
    intro i hi
    rw [hzero, blocco_of_lt (by omega), Nat.add_zero]
  have hrange : ∀ i, i < quanti.toNat → sector g'.vm.hdd.image (lba.toNat + i) =
      leBytes ((List.range 256).map fun j => vetto (256 * i + j)) := by
    intro i hi
    rw [← hblock i hi]
    exact hwritten i hi (by rw [hblock i hi]; omega)
  refine ⟨g', hwrite, fun b0' b1' h hh => ?_⟩
  obtain ⟨hcount', -, hstatus⟩ := hh.registers
  have hzero' : h.vm.hdd.currentSectorNumber.toNat = 0 := by rw [hcount', UInt32.toNat_zero]
  obtain ⟨h', vetti', hread, -, -, hwords⟩ := PciHdd2.returns (w := w) hh.free hh.placed hh.idle
    hlba vetti (by rw [hstatus]; rfl) (by omega) hfuel
  refine ⟨h', vetti', hread, fun k hk => ?_⟩
  have hrow : k / 256 < quanti.toNat := by omega
  have hcell : vetto k = vetto (256 * (k / 256) + k % 256) := by rw [Nat.div_add_mod]
  rw [hwords, if_pos hk, hzero', PciHdd2.contents_of_le _ _ (by omega) (by omega), Nat.add_zero, hh.fetched (by omega)]
  by_cases hfirst : k / 256 = 0
  · rw [if_pos hfirst, Nat.mod_eq_of_lt (by omega)]
    by_cases hstart : lba = 0
    · -- the range begins at sector 0, which is the one fetched
      have hsector := hrange 0 (by omega)
      rw [hstart, UInt32.toNat_zero, Nat.zero_add] at hsector
      rw [if_neg (fun hboth => hboth.2 hstart), hsector, wordAt_range vetto 0 (by omega), Nat.mul_zero, Nat.zero_add]
    · have hpos : 0 < lba.toNat := Nat.pos_of_ne_zero fun hnil => hstart (UInt32.toNat_inj.mp hnil)
      rw [if_pos ⟨by omega, hstart⟩, hkept 0 (by omega) fun j hj => by rw [hblock j hj]; omega]
  · rw [if_neg hfirst, if_neg (by omega), hrange _ hrow, wordAt_range vetto _ (Nat.mod_lt k (by decide)), ← hcell]

theorem moved_started : Started 4 (List.replicate (512 * 4) 0) 0xC000 0xC100 ⟨moved, 0⟩ :=
  ⟨moved_free, moved_placed, List.length_replicate, by decide, _, _, moved_hdd⟩

/-- The range of the two programs on a blank image. -/
theorem write_then_read_two :
    ∃ g', PciHdd1.scrivisett (fun _ => 0) 1 0xC000 0xC100 1 2 (fun _ => 0x6363) ⟨moved, 0⟩ = some g' ∧
      ∀ h, Started 4 g'.vm.hdd.image 0xC000 0xC100 h →
        ∃ h' vetti', PciHdd2.leggisett (fun _ => 0) 1 0xC000 0xC100 1 2 (fun _ => 0) h = some (h', vetti') ∧
          vetti' 256 = 0x6363 := by
  obtain ⟨g', hwrite, hreads⟩ := write_then_read (w := fun _ => 0) moved_started (by decide) (by decide)
    (show (1 : UInt32).toNat + (2 : UInt8).toNat ≤ 4 by decide) (fun _ => 0x6363) (fun _ => 0) Nat.one_pos
  refine ⟨g', hwrite, fun h hh => ?_⟩
  obtain ⟨h', vetti', hread, hwords⟩ := hreads _ _ h hh
  exact ⟨h', vetti', hread, hwords 256 (by decide)⟩

end PciHdd
end EndlessFault
