import Mathlib.Algebra.Ring.Int.Defs
import Mathlib.Algebra.Ring.Nat

/- Guest physical memory as the monitor sees it: a range of its own address
   space, from `guest_physical_memory` on. A byte is named by its offset from
   there, so `Memory` covers what lies before and after the guest as well, and
   an access is inside the guest when its offset is between 0 and the size that
   `main` configured. -/
namespace EndlessFault

/-- The bytes of the monitor's address space by offset from `guest_physical_memory`. -/
abbrev Memory := Int → UInt8

namespace Memory

/-- `bytes` stored from offset `addr` on. -/
def store (memory : Memory) (addr : Int) (bytes : List UInt8) : Memory := fun x =>
  if addr ≤ x ∧ x < addr + bytes.length then bytes.getD (x - addr).toNat 0 else memory x

/-- The offsets of `n` bytes from `addr` on. -/
def offsets (addr : Int) (n : Nat) : List Int := (List.range n).map fun i : Nat => addr + i

theorem mem_offsets {addr x : Int} {n : Nat} : x ∈ offsets addr n ↔ addr ≤ x ∧ x < addr + n := by
  rw [offsets, List.mem_map]
  constructor
  · rintro ⟨i, hi, rfl⟩
    have hlt := List.mem_range.mp hi
    omega
  · intro hx
    exact ⟨(x - addr).toNat, List.mem_range.mpr (by omega), by omega⟩

theorem store_nil (memory : Memory) (addr : Int) : memory.store addr [] = memory := by
  funext x
  have hout : ¬ (addr ≤ x ∧ x < addr + (([] : List UInt8).length : Int)) := by simp
  rw [store, if_neg hout]

theorem store_zero (memory : Memory) {bytes : List UInt8} {i : Nat} (h : i < bytes.length) :
    memory.store 0 bytes i = bytes[i] := by
  rw [store, if_pos (by omega), List.getD_eq_getElem?_getD, Int.sub_zero, Int.toNat_natCast,
    List.getElem?_eq_getElem h, Option.getD_some]

end Memory

/-- `GUEST_PHYSICAL_MEMORY_SIZE` after `main` has read `memsize`: 8 MiB, or the
size asked for in MiB, made even, when it is between 8 and 1023. -/
def guestPhysicalMemorySize (memSize : UInt32) : UInt32 :=
  if memSize ≥ 8 ∧ memSize < 1024 then
    (if memSize &&& 1 = 0 then memSize else memSize + 1) * 1024 * 1024
  else 8 * 1024 * 1024

/-- The sizes `main` can configure: whole pages of 2 MiB, from 8 MiB to 1 GiB. -/
theorem guestPhysicalMemorySize_pages (memSize : UInt32) :
    ∃ pages, 4 ≤ pages ∧ pages ≤ 512 ∧ (guestPhysicalMemorySize memSize).toNat = pages * 2^21 := by
  unfold guestPhysicalMemorySize
  split_ifs with h heven
  · have hge : 8 ≤ memSize.toNat := UInt32.le_iff_toNat_le.mp h.1
    have hlt : memSize.toNat < 1024 := UInt32.lt_iff_toNat_lt.mp h.2
    have hpar : memSize.toNat % 2 = 0 := by
      rw [← Nat.and_one_is_mod]
      exact congrArg UInt32.toNat heven
    refine ⟨memSize.toNat / 2, by omega, by omega, ?_⟩
    simp only [UInt32.toNat_mul, UInt32.reduceToNat, Nat.reducePow]
    omega
  · have hge : 8 ≤ memSize.toNat := UInt32.le_iff_toNat_le.mp h.1
    have hlt : memSize.toNat < 1024 := UInt32.lt_iff_toNat_lt.mp h.2
    have hpar : memSize.toNat % 2 = 1 := by
      rcases Nat.mod_two_eq_zero_or_one memSize.toNat with h0 | h1
      · refine absurd (UInt32.toNat_inj.mp ?_) heven
        rw [UInt32.toNat_and]
        exact (Nat.and_one_is_mod _).trans h0
      · exact h1
    refine ⟨(memSize.toNat + 1) / 2, by omega, by omega, ?_⟩
    simp only [UInt32.toNat_mul, UInt32.toNat_add, UInt32.reduceToNat, Nat.reducePow]
    omega
  · exact ⟨4, by decide, by decide, by decide⟩

/-- No size `main` can configure exceeds 1 GiB. -/
theorem guestPhysicalMemorySize_le (memSize : UInt32) :
    (guestPhysicalMemorySize memSize).toNat ≤ 2^30 := by
  obtain ⟨pages, -, hle, hsize⟩ := guestPhysicalMemorySize_pages memSize
  omega

end EndlessFault
