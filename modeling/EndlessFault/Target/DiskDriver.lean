import EndlessFault.Kvm.Guest
import EndlessFault.Kvm.Relocation
import EndlessFault.Frontend.DiskCommands

/- What the two disk drivers of `target-sources` have in common: the ports of the disk behind
   `bar0` and `bar1`, the wait for a status, and the registers and the command of a call. A `do …
   while` that reads a status takes a number of rounds at most and has no result beyond them,
   so that not returning is a statement about all numbers. `After` says which accesses of the
   disk a stretch of the driver makes, all other devices staying as they are. -/
namespace EndlessFault
open Lib.Machine Lib.Bytes

namespace Guest
variable (w : Nat → UInt16)

/-- `outw`. -/
def outw (g : Guest) (port : UInt16) (val : UInt16) : Guest :=
  let e : IoExit := ⟨.output, 2, port, 1, IoExit.operand ⟨.output, 2, port, 1, g.ioParam⟩ (some (.word val))⟩
  ⟨g.vm.step w (.io e), e.data⟩

/-- `inw`, with the word read. -/
def inw (g : Guest) (port : UInt16) : Guest × UInt16 :=
  let e : IoExit := ⟨.input, 2, port, 1, g.ioParam⟩
  (⟨g.vm.step w (.io e), g.vm.operand w e⟩, (g.vm.operand w e).toUInt16)

/-- `do inputb(port, s); while (again(s))`, at most `fuel` times. -/
def poll (port : UInt16) (again : UInt8 → Bool) : Nat → Guest → Option Guest
  | 0, _ => none
  | fuel + 1, g => if again (g.inb w port).2 then poll port again fuel (g.inb w port).1 else some (g.inb w port).1

end Guest

namespace PciHdd
open Guest
variable (w : Nat → UInt16)

def iBR : UInt16 := 0x01F0 - 0x01F0
def iCNL : UInt16 := 0x01F4 - 0x01F0
def iCNH : UInt16 := 0x01F5 - 0x01F0
def iSNR : UInt16 := 0x01F3 - 0x01F0
def iHND : UInt16 := 0x01F6 - 0x01F0
def iSCR : UInt16 := 0x01F2 - 0x01F0
def iCMD : UInt16 := 0x01F7 - 0x01F0
def iSTS : UInt16 := 0x01F7 - 0x01F0
def iDCR : UInt16 := 0x03F6 - 0x03F6

/-- The registers and the command. -/
def comando (cmd : UInt8) (bar0 bar1 : UInt16) (lba : UInt32) (quanti : UInt8) (g : Guest) : Guest :=
  let g := g.outb w (iSNR + bar0) lba.toUInt8
  let g := g.outb w (iCNL + bar0) (lba >>> 8).toUInt8
  let g := g.outb w (iCNH + bar0) (lba >>> 16).toUInt8
  let g := g.outb w (iHND + bar0) (((lba >>> 24).toUInt8 &&& 0x0F) ||| 0xE0)
  let g := g.outb w (iSCR + bar0) quanti
  let g := g.outb w (iDCR + bar1) 0x0A
  g.outb w (iCMD + bar0) cmd

/-! Waiting. -/

theorem poll_ends {w : Nat → UInt16} {g : Guest} {port : UInt16} {again : UInt8 → Bool} {fuel : Nat}
    (h : again (g.inb w port).2 = false) (hfuel : 0 < fuel) :
    g.poll w port again fuel = some (g.inb w port).1 := by
  cases fuel with
  | zero => exact absurd hfuel (Nat.lt_irrefl 0)
  | succ fuel => rw [poll, h, if_neg Bool.false_ne_true]

/-- A wait that is never met. -/
theorem poll_never {w : Nat → UInt16} {port : UInt16} {again : UInt8 → Bool} (P : Guest → Prop)
    (h : ∀ g, P g → again (g.inb w port).2 = true ∧ P (g.inb w port).1) (fuel : Nat) {g : Guest} (hg : P g) :
    g.poll w port again fuel = none := by
  induction fuel generalizing g with
  | zero => rfl
  | succ fuel ih => rw [poll, (h g hg).1, if_pos rfl, ih (h g hg).2]

/-! The disk's windows. -/

/-- The guest after some accesses of the disk. -/
def After (g : Guest) (as : List HardDisk.Access) (g' : Guest) : Prop :=
  g'.vm = { g.vm with hdd := run (HardDisk.step w) g.vm.hdd as }

section
variable {w} {b0 b1 : UInt16} {g : Guest}

theorem After.trans {g₁ g₂ : Guest} {as bs : List HardDisk.Access} (h₁ : After w g as g₁)
    (h₂ : After w g₁ bs g₂) : After w g (as ++ bs) g₂ := by
  rw [After, h₂, h₁, run_append]

theorem After.placed {g' : Guest} {as : List HardDisk.Access} (h : After w g as g')
    (hg : Vm.Placed b0 b1 g.vm) : Vm.Placed b0 b1 g'.vm := by
  rw [h]
  exact hg

theorem dispatch_of_forDisk {f : IoExit.Forwarded} {a : HardDisk.Access} (h : f.forDisk = [a]) : f = .hardDisk a := by
  cases f with
  | hardDisk a' => exact congrArg _ (List.singleton_inj.mp h)
  | _ => exact absurd h (by simp [IoExit.Forwarded.forDisk])

/-- A port of the first window. -/
theorem port_commands (hfree : Vm.Free b0 b1) {k : UInt16} (hk : k.toNat ≤ 7) :
    (b0.toNat ≤ (k + b0).toNat ∧ (k + b0).toNat ≤ b0.toNat + 7) ∧ 0x01F0 + (k + b0 - b0) = 0x01F0 + k := by
  have hlast := (hfree.commands 7 (by decide)).1
  have hsum : (k + b0).toNat = k.toNat + b0.toNat := by
    rw [UInt16.toNat_add]
    exact Nat.mod_eq_of_lt (by omega)
  refine ⟨by omega, ?_⟩
  rw [UInt16.add_sub_cancel]

variable (hfree : Vm.Free b0 b1) (hg : Vm.Placed b0 b1 g.vm)
include hfree hg

theorem dispatch_ata {e : IoExit} {a : HardDisk.Access} (h : Vm.ataAccess b0 b1 (.io e) = [a]) :
    e.dispatch g.vm.bridge = .hardDisk a := dispatch_of_forDisk ((Vm.forDisk_dispatch hfree hg.1 hg.2).trans h)

theorem outb_commands {k : UInt16} (hk : k.toNat ≤ 7) (val : UInt8) :
    After w g [.writeByte (0x01F0 + k) val] (g.outb w (k + b0) val) := by
  obtain ⟨hin, haddr⟩ := port_commands hfree hk
  have hata : ∀ data, Vm.ataAccess b0 b1 (.io ⟨.output, 1, k + b0, 1, data⟩) =
      [.writeByte (0x01F0 + k) data.toUInt8] := by
    intro data
    rw [Vm.ataAccess, if_pos hin, if_neg (by simp), if_pos (by simp), haddr]
    rfl
  rw [After, outb, Vm.step, Vm.forwarded, dispatch_ata hfree hg (hata _), IoExit.operand_byte]
  rfl

theorem outb_control (val : UInt8) :
    After w g [.writeByte HardDisk.dcrAddr val] (g.outb w (iDCR + b1) val) := by
  have hport : iDCR + b1 = b1 := UInt16.zero_add b1
  have hata : ∀ data, Vm.ataAccess b0 b1 (.io ⟨.output, 1, b1, 1, data⟩) =
      [.writeByte HardDisk.dcrAddr data.toUInt8] := by
    intro data
    have hout : ¬ (b0.toNat ≤ b1.toNat ∧ b1.toNat ≤ b0.toNat + 7) := by
      have hapart := hfree.apart
      omega
    rw [Vm.ataAccess, if_neg hout, if_pos ⟨Nat.le_refl _, Nat.le_add_right _ _⟩, UInt16.sub_self]
    rfl
  rw [After, hport, outb, Vm.step, Vm.forwarded, dispatch_ata hfree hg (hata _), IoExit.operand_byte]
  rfl

theorem outw_data (val : UInt16) : After w g [.writeWord HardDisk.brAddr val] (g.outw w (iBR + b0) val) := by
  obtain ⟨hin, haddr⟩ := port_commands hfree (k := iBR) (by decide)
  have hata : ∀ data, Vm.ataAccess b0 b1 (.io ⟨.output, 2, iBR + b0, 1, data⟩) =
      [.writeWord HardDisk.brAddr data.toUInt16] := by
    intro data
    rw [Vm.ataAccess, if_pos hin, if_pos (by simp), haddr]
    rfl
  rw [After, outw, Vm.step, Vm.forwarded, dispatch_ata hfree hg (hata _), IoExit.operand_word]
  rfl

theorem inb_status :
    After w g [.readByte HardDisk.stsAddr] (g.inb w (iSTS + b0)).1 ∧
    (g.inb w (iSTS + b0)).2 = g.vm.hdd.STS := by
  obtain ⟨hin, haddr⟩ := port_commands hfree (k := iSTS) (by decide)
  have hata : ∀ data, Vm.ataAccess b0 b1 (.io ⟨.input, 1, iSTS + b0, 1, data⟩) = [.readByte HardDisk.stsAddr] := by
    intro data
    rw [Vm.ataAccess, if_pos hin, if_neg (by simp), if_pos (by simp), haddr]
    rfl
  simp only [After, inb, Vm.step, Vm.operand, Vm.forwarded, dispatch_ata hfree hg (hata _)]
  exact ⟨rfl, IoExit.operand_byte _ _⟩

omit hfree hg in
/-- Reading the status leaves the data port alone, the status included. -/
theorem port_after_status {g' : Guest} (h : After w g [.readByte HardDisk.stsAddr] g') : g'.vm.hdd.port = g.vm.hdd.port := by
  rw [h]
  exact HardDisk.port_readRegByte g.vm.hdd HardDisk.stsAddr

theorem inw_data :
    After w g [.readWord HardDisk.brAddr] (g.inw w (iBR + b0)).1 ∧
    HardDisk.dataRead w g.vm.hdd (.readWord HardDisk.brAddr) = [(g.inw w (iBR + b0)).2] := by
  obtain ⟨hin, haddr⟩ := port_commands hfree (k := iBR) (by decide)
  have hata : ∀ data, Vm.ataAccess b0 b1 (.io ⟨.input, 2, iBR + b0, 1, data⟩) = [.readWord HardDisk.brAddr] := by
    intro data
    rw [Vm.ataAccess, if_pos hin, if_pos (by simp), haddr]
    rfl
  simp only [After, inw, Vm.step, Vm.operand, Vm.forwarded, dispatch_ata hfree hg (hata _)]
  refine ⟨rfl, congrArg (fun x => [x]) ?_⟩
  exact (IoExit.operand_word _ _).symm

/-- The accesses of the registers. -/
def registri (lba : UInt32) (quanti : UInt8) : List HardDisk.Access :=
  [.writeByte HardDisk.snrAddr lba.toUInt8, .writeByte HardDisk.cnlAddr (lba >>> 8).toUInt8,
   .writeByte HardDisk.cnhAddr (lba >>> 16).toUInt8,
   .writeByte HardDisk.hndAddr (((lba >>> 24).toUInt8 &&& 0x0F) ||| 0xE0), .writeByte HardDisk.scrAddr quanti,
   .writeByte HardDisk.dcrAddr 0x0A]

theorem comando_after (cmd : UInt8) (lba : UInt32) (quanti : UInt8) :
    After w g (registri lba quanti ++ [.writeByte HardDisk.cmdAddr cmd]) (comando w cmd b0 b1 lba quanti g) := by
  have h₁ := outb_commands (w := w) hfree hg (k := iSNR) (by decide) lba.toUInt8
  have h₂ := h₁.trans (outb_commands hfree (h₁.placed hg) (k := iCNL) (by decide) (lba >>> 8).toUInt8)
  have h₃ := h₂.trans (outb_commands hfree (h₂.placed hg) (k := iCNH) (by decide) (lba >>> 16).toUInt8)
  have h₄ := h₃.trans (outb_commands hfree (h₃.placed hg) (k := iHND) (by decide)
    (((lba >>> 24).toUInt8 &&& 0x0F) ||| 0xE0))
  have h₅ := h₄.trans (outb_commands hfree (h₄.placed hg) (k := iSCR) (by decide) quanti)
  have h₆ := h₅.trans (outb_control hfree (h₅.placed hg) 0x0A)
  exact h₆.trans (outb_commands hfree (h₆.placed hg) (k := iCMD) (by decide) cmd)

end

/-! The registers. -/

theorem hnd_toNat (x : UInt8) : ((x &&& 0x0F) ||| 0xE0).toNat = 0xE0 + x.toNat % 16 := by
  have hlow : (x &&& 0x0F).toNat = x.toNat % 16 := by
    rw [UInt8.toNat_and]
    exact Nat.and_two_pow_sub_one_eq_mod x.toNat 4
  rw [UInt8.toNat_or, hlow]
  have hor := Nat.shiftLeft_add_eq_or_of_lt (show x.toNat % 16 < 2^5 by omega) 7
  rw [Nat.or_comm]
  exact hor.symm

theorem quiet_registri (lba : UInt32) (quanti : UInt8) : ∀ a ∈ registri lba quanti, a.quiet = true := by
  intro a ha
  simp only [registri, List.mem_cons, List.not_mem_nil, or_false] at ha
  rcases ha with rfl | rfl | rfl | rfl | rfl | rfl <;> rfl

theorem targets_registri (d : HardDisk) {lba : UInt32} (hlba : lba.toNat < 2^28) (quanti : UInt8) :
    HardDisk.Targets (run (HardDisk.step w) d (registri lba quanti)) lba.toNat quanti.toNat := by
  have hrun : run (HardDisk.step w) d (registri lba quanti) = { d with
      SNR := lba.toUInt8
      CNL := (lba >>> 8).toUInt8
      CNH := (lba >>> 16).toUInt8
      HND := ((lba >>> 24).toUInt8 &&& 0x0F) ||| 0xE0
      SCR := quanti
      DCR := 0x02
      interruptEnabled := false
      interruptRaised := false } := rfl
  refine ⟨?_, by rw [hrun]⟩
  rw [HardDisk.computeLba_toNat, hrun]
  simp only [hnd_toNat, UInt32.toNat_toUInt8, UInt32.toNat_shiftRight, UInt32.reduceToNat, Nat.reduceMod,
    Nat.shiftRight_eq_div_pow]
  omega

/-! The count. -/

/-- The disk's count, which earlier commands have left at `c`, meets the sectors wanted. -/
def ends (c : UInt32) (n i : Nat) : Prop := 0 < i ∧ UInt32.ofNat n = c + UInt32.ofNat i

/-- The count meets them inside the call when it stands between 0 and their number. -/
theorem ends_iff {c : UInt32} {n : Nat} (hn : n ≤ 255) {i : Nat} (hi : i < n) :
    ends c n i ↔ 0 < c.toNat ∧ c.toNat < n ∧ i = n - c.toNat := by
  have hc := c.toNat_lt
  unfold ends
  rw [← UInt32.toNat_inj, UInt32.toNat_add, UInt32.toNat_ofNat', UInt32.toNat_ofNat']
  omega

/-- A count that stands outside the call meets them nowhere in it. -/
theorem not_ends {c : UInt32} {n : Nat} (hn : n ≤ 255) (hc : ¬ (0 < c.toNat ∧ c.toNat < n)) :
    ∀ i, i < n → ¬ ends c n i := by
  intro i hi hends
  have hbetween := (ends_iff hn hi).mp hends
  exact hc ⟨hbetween.1, hbetween.2.1⟩

/-- Any other count does not meet them before the round that it ends. -/
theorem not_ends_before {c : UInt32} {n : Nat} (hn : n ≤ 255) : ∀ i, i < n - c.toNat → ¬ ends c n i := by
  intro i hi hends
  have hbetween := (ends_iff hn (by omega)).mp hends
  omega

/-! The address. -/

/-- The block that the disk takes for sector `i` of a call: the count moves the address, and 23 bits of the
sum stand for the block. -/
def blocco (lba : UInt32) (c i : Nat) : Nat := (lba.toNat + c + i) % 2^23

/-- On a disk no larger than that, a range that stays on the disk when it is moved does not wrap. -/
theorem blocco_of_lt {lba : UInt32} {c i : Nat} (h : lba.toNat + c + i < 2^23) : blocco lba c i = lba.toNat + c + i :=
  Nat.mod_eq_of_lt h

theorem blocco_sum (lba c : UInt32) (i : Nat) : ((lba + c).toNat + i) % 2^23 = blocco lba c.toNat i := by
  rw [blocco, UInt32.toNat_add]
  omega

/-! A machine for the calls that the two programs make. -/

/-- A machine with a disk of four sectors, moved to 0xC000 and 0xC100. -/
def moved : Vm :=
  run (Vm.step fun _ => 0) (Vm.initIO (Vector.replicate internalBufferSize 0) (Vector.replicate 512 0)
    (Vector.replicate 512 0) (some (List.replicate (512 * 4) 0)) (Vector.replicate 192 0) (Vector.replicate 192 0)
    ⟨0, 0, 0, 0⟩) (Vm.place 0xC000 0xC100)

theorem moved_free : Vm.Free 0xC000 0xC100 := by
  refine ⟨fun i hi => ?_, fun i hi => ?_, by decide⟩
  · simp [Vm.freePort]
    omega
  · simp [Vm.freePort]
    omega

theorem moved_placed : Vm.Placed 0xC000 0xC100 moved := (Vm.placed_place (fun _ => 0) 0xC000 0xC100 _).1

theorem moved_hdd : moved.hdd = HardDisk.new (Vector.replicate 512 0) (Vector.replicate 512 0) 4
    (some (List.replicate (512 * 4) 0)) := (Vm.placed_place (fun _ => 0) 0xC000 0xC100 _).2

theorem moved_idle : HardDisk.Idle 4 (List.replicate (512 * 4) 0) moved.hdd := by
  rw [moved_hdd]
  exact HardDisk.new_idle _ _ List.length_replicate (by decide)

theorem moved_count : moved.hdd.currentSectorNumber = 0 := by
  rw [moved_hdd]
  rfl

end PciHdd
end EndlessFault
