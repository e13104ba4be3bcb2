import EndlessFault.Target.DiskDriver

/- The disk driver of `target-sources/pci-hdd-1.cpp`, run on the whole machine with the disk
   at the ports `bar0` and `bar1`. It waits for the disk, writes the address, the count and the
   command, and then for each sector waits for the data request and puts out its 256 words.

   The first wait leaves out `bar0`: it reads port 7, where there is nothing, and gets whatever
   `io_param` held. And the disk never starts counting sectors again, so after
   fewer sectors than this call has to write, the data request ends in the middle of
   the call. These are the two ways not to return, and otherwise the sectors are written, moved
   by the count; what this moves past the end of the disk is lost. Main result: `scrivisett_returns_iff`. -/
namespace EndlessFault
open Lib.Machine Lib.Bytes

namespace PciHdd1
open Guest PciHdd
variable (w : Nat → UInt16)

/-- One round of the loop over the sectors. -/
def settore (fuel : Nat) (bar0 : UInt16) (vetto : Nat → UInt16) (g : Guest) (i : Nat) : Option Guest :=
  (g.poll w (iSTS + bar0) (fun s => s &&& 0x88 != 0x08) fuel).map fun g =>
    (List.range (512 / 2)).foldl (fun g j => g.outw w (iBR + bar0) (vetto (i * 512 / 2 + j))) g

def scrivisett (fuel : Nat) (bar0 bar1 : UInt16) (lba : UInt32) (quanti : UInt8) (vetto : Nat → UInt16) (g : Guest) :
    Option Guest :=
  (g.poll w iSTS (fun s => s &&& 0x80 != 0) fuel).bind fun g =>
    (List.range quanti.toNat).foldlM (settore w fuel bar0 vetto) (comando w 0x30 bar0 bar1 lba quanti g)

section
variable {w} {b0 b1 : UInt16} {g : Guest}
variable (hfree : Vm.Free b0 b1) (hg : Vm.Placed b0 b1 g.vm)
include hfree hg

/-- At port 7, outside both windows, nothing answers. -/
theorem inb_nothing (hout : ¬ (b0.toNat ≤ 7 ∧ 7 ≤ b0.toNat + 7) ∧ ¬ (b1.toNat ≤ 7 ∧ 7 ≤ b1.toNat + 1)) :
    g.inb w iSTS = (g, g.ioParam.toUInt8) := by
  have hport : iSTS.toNat = 7 := rfl
  have hata : (IoExit.dispatch g.vm.bridge ⟨.input, 1, iSTS, 1, g.ioParam⟩).forDisk = [] := by
    rw [Vm.forDisk_dispatch hfree hg.1 hg.2, Vm.ataAccess]
    rw [if_neg (by rw [hport]; exact hout.1), if_neg (by rw [hport]; exact hout.2)]
  have hfreeport : Vm.freePort iSTS.toNat := by
    unfold Vm.freePort
    decide
  have hunowned := Vm.freePort_unowned (e := ⟨.input, 1, iSTS, 1, g.ioParam⟩) hfreeport
  have hnothing : IoExit.dispatch g.vm.bridge ⟨.input, 1, iSTS, 1, g.ioParam⟩ = .nothing := by
    rcases Vm.dispatch_cases g.vm.bridge ⟨.input, 1, iSTS, 1, g.ioParam⟩ with
      ⟨hin, -⟩ | ⟨hin, -⟩ | ⟨n, hin, -⟩ | ⟨hin, -⟩ | ⟨-, ⟨a, ha⟩ | ha⟩
    · exact absurd hin hunowned.1
    · exact absurd hin hunowned.2.1
    · exact absurd hin (hunowned.2.2.1 n)
    · exact absurd hin hunowned.2.2.2
    · rw [ha] at hata
      exact absurd hata (List.cons_ne_nil _ _)
    · exact ha
  simp only [inb, Vm.step, Vm.operand, Vm.forwarded, hnothing]
  rfl

theorem outw_many (f : Nat → UInt16) (m : Nat) :
    After w g ((List.range m).map fun j => .writeWord HardDisk.brAddr (f j))
      ((List.range m).foldl (fun g j => g.outw w (iBR + b0) (f j)) g) := by
  induction m with
  | zero => rfl
  | succ m ih =>
    rw [List.range_succ, List.map_append, List.foldl_append]
    exact ih.trans (outw_data hfree (ih.placed hg) (f m))

/-- A sector that the disk asks for. -/
theorem settore_some {fuel : Nat} (hfuel : 0 < fuel) (vetto : Nat → UInt16) (i : Nat) (hasks : g.vm.hdd.STS = HardDisk.drqMask) :
    ∃ g', settore w fuel b0 vetto g i = some g' ∧
      After w g (.readByte HardDisk.stsAddr ::
        (List.range 256).map fun j => .writeWord HardDisk.brAddr (vetto (256 * i + j))) g' := by
  obtain ⟨hread, hval⟩ := inb_status (w := w) hfree hg
  have hend : ((g.inb w (iSTS + b0)).2 &&& 0x88 != 0x08) = false := by
    rw [hval, hasks]
    decide
  refine ⟨_, ?_, hread.trans (outw_many hfree (hread.placed hg) (fun j => vetto (256 * i + j)) 256)⟩
  have hindex : ∀ j, i * 512 / 2 + j = 256 * i + j := by omega
  rw [settore, poll_ends hend hfuel, Option.map_some]
  simp only [hindex]

/-- A sector that the disk does not ask for. -/
theorem settore_none (fuel : Nat) (vetto : Nat → UInt16) (i : Nat) (hdone : g.vm.hdd.STS = 0) :
    settore w fuel b0 vetto g i = none := by
  rw [settore, poll_never (fun g => Vm.Placed b0 b1 g.vm ∧ g.vm.hdd.STS = 0) ?_ fuel ⟨hg, hdone⟩, Option.map_none]
  rintro g ⟨hg, hdone⟩
  obtain ⟨hread, hval⟩ := inb_status (w := w) hfree hg
  refine ⟨?_, hread.placed hg, ?_⟩
  · rw [hval, hdone]
    decide
  · exact (congrArg HardDisk.Port.status (port_after_status hread)).trans hdone

end

/-! The sectors. -/

/-- The words of the first sectors. -/
def parole (vetto : Nat → UInt16) (i : Nat) : List UInt16 := (List.range (256 * i)).map vetto

theorem parole_succ (vetto : Nat → UInt16) (i : Nat) :
    parole vetto (i + 1) = parole vetto i ++ (List.range 256).map fun j => vetto (256 * i + j) := by
  rw [parole, parole, Nat.mul_succ, List.range_add, List.map_append, List.map_map]
  rfl

theorem slice_parole (vetto : Nat → UInt16) {i n : Nat} (hi : i < n) :
    slice (parole vetto n) (256 * i) 256 = (List.range 256).map fun j => vetto (256 * i + j) := by
  obtain ⟨k, rfl⟩ : ∃ k, n = i + (1 + k) := ⟨n - i - 1, by omega⟩
  have hsplit : parole vetto (i + (1 + k)) = parole vetto i ++
      (List.range (256 * (1 + k))).map fun j => vetto (256 * i + j) := by
    rw [parole, parole, Nat.mul_add, List.range_add, List.map_append, List.map_map]
    rfl
  rw [slice, hsplit, List.drop_left' (by simp [parole]), ← List.map_take, List.take_range, Nat.min_eq_left (by omega)]

/-- The guest after `i` rounds of the loop. -/
def Sent (vetto : Nat → UInt16) (g : Guest) (i : Nat) (g' : Guest) : Prop :=
  ∃ body, After w g body g' ∧ (∀ a ∈ body, a.command = false) ∧
    body.filterMap HardDisk.Access.data = (parole vetto i).map .write

section
variable {w} {b0 b1 : UInt16} {vetto : Nat → UInt16} {g g' : Guest} {i : Nat}

theorem Sent.port (h : Sent w vetto g i g') : g'.vm.hdd.port = run HardDisk.Port.write g.vm.hdd.port (parole vetto i) := by
  obtain ⟨body, hafter, hcommand, hdata⟩ := h
  rw [hafter]
  refine (HardDisk.port_run w _ hcommand).trans ?_
  rw [hdata]
  exact List.foldl_map

theorem Sent.zero : Sent w vetto g 0 g := ⟨[], rfl, fun _ ha => absurd ha List.not_mem_nil, rfl⟩

theorem Sent.placed (h : Sent w vetto g i g') (hg : Vm.Placed b0 b1 g.vm) : Vm.Placed b0 b1 g'.vm := by
  obtain ⟨body, hafter, -, -⟩ := h
  exact hafter.placed hg

theorem Sent.next (h : Sent w vetto g i g') {g'' : Guest} (hnext : After w g' (.readByte HardDisk.stsAddr ::
      (List.range 256).map fun j => .writeWord HardDisk.brAddr (vetto (256 * i + j))) g'') :
    Sent w vetto g (i + 1) g'' := by
  obtain ⟨body, hafter, hcommand, hdata⟩ := h
  refine ⟨_, hafter.trans hnext, ?_, ?_⟩
  · intro a ha
    rcases List.mem_append.mp ha with ha | ha
    · exact hcommand a ha
    · rcases List.mem_cons.mp ha with rfl | ha
      · rfl
      · obtain ⟨j, -, rfl⟩ := List.mem_map.mp ha
        rfl
  · have hwords := HardDisk.data_writes ((List.range 256).map fun j => vetto (256 * i + j))
    rw [List.map_map] at hwords
    rw [List.filterMap_append, hdata, parole_succ, List.map_append]
    exact congrArg _ hwords

variable (hfree : Vm.Free b0 b1) (hg : Vm.Placed b0 b1 g.vm) {fuel : Nat}
include hfree hg

/-- As many rounds as the disk asks for. -/
theorem settori_some (hfuel : 0 < fuel) {m : Nat}
    (hasks : ∀ i, i < m → ∀ g', Sent w vetto g i g' → g'.vm.hdd.STS = HardDisk.drqMask) :
    ∃ g', (List.range m).foldlM (settore w fuel b0 vetto) g = some g' ∧ Sent w vetto g m g' := by
  refine foldlM_range_some (Sent w vetto g) (fun i hi g₁ hsent => ?_) .zero
  obtain ⟨g₂, hround, hafter⟩ := settore_some hfree (hsent.placed hg) hfuel vetto i (hasks i hi g₁ hsent)
  exact ⟨g₂, hround, hsent.next hafter⟩

/-- A round that the disk does not ask for is the last. -/
theorem settori_none {m i : Nat} (hi : i < m)
    (hasks : ∀ j, j < i → ∀ g', Sent w vetto g j g' → g'.vm.hdd.STS = HardDisk.drqMask)
    (hdone : ∀ g', Sent w vetto g i g' → g'.vm.hdd.STS = 0) :
    (List.range m).foldlM (settore w fuel b0 vetto) g = none := by
  rcases Nat.eq_zero_or_pos fuel with rfl | hfuel
  · -- no wait ends without a round
    exact foldlM_range_none (fun _ _ => True) (Nat.zero_lt_of_lt hi) (fun j hj => absurd hj (Nat.not_lt_zero j))
      (fun _ _ => rfl) trivial
  · refine foldlM_range_none (Sent w vetto g) hi (fun j hj g₁ hsent => ?_) (fun g₁ hsent => ?_) .zero
    · obtain ⟨g₂, hround, hafter⟩ := settore_some hfree (hsent.placed hg) hfuel vetto j (hasks j hj g₁ hsent)
      exact ⟨g₂, hround, hsent.next hafter⟩
    · exact settore_none hfree (hsent.placed hg) fuel vetto i (hdone g₁ hsent)

end

/-! The status between the sectors. -/

section
variable {w} {vetto : Nat → UInt16} {g g' : Guest} {i : Nat} {N n : Nat} {f : List UInt8} {L c : UInt32}

/-- The disk after the command. -/
structure Commanded (N n : Nat) (f : List UInt8) (L c : UInt32) (p : HardDisk.Port) : Prop where
  backed : DiskManager.Backed p.disk N f
  position : p.position = 0
  lba : p.lba = L
  moved : p.moved = c
  wanted : p.wanted = UInt32.ofNat n
  status : p.status = HardDisk.drqMask

theorem Sent.status (h : Sent w vetto g i g') (hg : Commanded N n f L c g.vm.hdd.port) :
    (ends c n i → g'.vm.hdd.STS = 0) ∧ (¬ ends c n i → g'.vm.hdd.STS = HardDisk.drqMask) := by
  have hlen : (parole vetto i).length = 256 * i := by simp [parole]
  obtain ⟨-, -, -, -, hlast⟩ := HardDisk.Port.write_sectors i g.vm.hdd.port (parole vetto i) hg.backed hg.position
    (by rw [hg.status]; exact .inr (.inl rfl)) hlen
  rw [← h.port, hg.wanted, hg.moved] at hlast
  have hstatus : g'.vm.hdd.STS = g'.vm.hdd.port.status := rfl
  rcases Nat.eq_zero_or_pos i with rfl | hpos
  · refine ⟨fun hends => absurd hends.1 (Nat.lt_irrefl 0), fun _ => ?_⟩
    have hstart : g'.vm.hdd.port = g.vm.hdd.port := h.port
    rw [hstatus, hstart, hg.status]
  · refine ⟨fun hends => ?_, fun hnot => ?_⟩
    · rw [hstatus, hlast hpos, if_pos hends.2]
    · rw [hstatus, hlast hpos, if_neg fun heq => hnot ⟨hpos, heq⟩]

/-- The image and the disk after the last sector. -/
theorem Sent.disk (h : Sent w vetto g n g') (hg : Commanded N n f L c g.vm.hdd.port) :
    g'.vm.hdd.image = DiskManager.writtenAll N f (L + c) (HardDisk.Port.chunks n (parole vetto n)) ∧
    HardDisk.Idle N g'.vm.hdd.image g'.vm.hdd ∧ g'.vm.hdd.currentSectorNumber = c + UInt32.ofNat n ∧ g'.vm.hdd.lba = L := by
  have hlen : (parole vetto n).length = 256 * n := by simp [parole]
  obtain ⟨hback, hposition, hmoved, hstatus, -⟩ := HardDisk.Port.write_sectors n g.vm.hdd.port (parole vetto n) hg.backed
    hg.position (by rw [hg.status]; exact .inr (.inl rfl)) hlen
  have hlba : g'.vm.hdd.port.lba = L := by
    rw [h.port]
    refine run_invariant (fun p : HardDisk.Port => p.lba = L) (fun _ => True) (fun p val _ hp => ?_) hg.lba fun _ _ => trivial
    rw [HardDisk.Port.write]
    split
    · exact hp
    · exact hp
  rw [← h.port, hg.lba, hg.moved] at hback
  rw [← h.port] at hposition hmoved hstatus
  have himage : g'.vm.hdd.image = DiskManager.writtenAll N f (L + c) (HardDisk.Port.chunks n (parole vetto n)) := by
    rw [HardDisk.image]
    exact congrArg (Option.getD · []) hback.file
  refine ⟨himage, ⟨?_, hposition, hstatus⟩, hmoved.trans (by rw [hg.moved]), hlba⟩
  rw [himage]
  exact hback

/-- The sectors of the range, as far as the disk has them, and the others. -/
theorem Sent.sectors (h : Sent w vetto g n g') (hg : Commanded N n f L c g.vm.hdd.port) (hn : n ≤ 2^23) :
    g'.vm.hdd.image.length = f.length ∧
    (∀ i, i < n → blocco L c.toNat i < N → DiskManager.sector g'.vm.hdd.image (blocco L c.toNat i) =
      leBytes ((List.range 256).map fun j => vetto (256 * i + j))) ∧
    (∀ i, i < N → (∀ j, j < n → blocco L c.toNat j ≠ i) →
      DiskManager.sector g'.vm.hdd.image i = DiskManager.sector f i) := by
  have hlen : f.length = 512 * N := hg.backed.length
  have hcs : ∀ s ∈ HardDisk.Port.chunks n (parole vetto n), s.length = 512 :=
    HardDisk.Port.length_of_mem_chunks (by simp [parole])
  have hcount := HardDisk.Port.length_chunks n (parole vetto n)
  rw [(h.disk hg).1]
  refine ⟨?_, ?_, ?_⟩
  · rw [DiskManager.length_writtenAll hlen hcs, hlen]
  · intro i hi hon
    rw [← slice_parole vetto hi]
    exact DiskManager.sector_writtenAll_hit hlen hcs (by omega) hon (HardDisk.Port.getElem?_chunks _ hi)
      (blocco_sum L c i)
  · intro i hi hout
    refine DiskManager.sector_writtenAll_miss hlen hcs hi fun j hj => ?_
    rw [blocco_sum]
    exact hout j (by omega)

end

theorem commanded_comando {N : Nat} {f : List UInt8} {b0 b1 : UInt16} {g : Guest} {lba : UInt32} (quanti : UInt8)
    (hfree : Vm.Free b0 b1) (hg : Vm.Placed b0 b1 g.vm) (hidle : HardDisk.Idle N f g.vm.hdd) (hlba : lba.toNat < 2^28) :
    Commanded N quanti.toNat f lba g.vm.hdd.currentSectorNumber (comando w 0x30 b0 b1 lba quanti g).vm.hdd.port := by
  have hafter := comando_after (w := w) hfree hg 0x30 lba quanti
  have hport := HardDisk.port_start_write w g.vm.hdd (quiet_registri lba quanti) (targets_registri w g.vm.hdd hlba quanti)
  rw [(HardDisk.start_status hidle.status).1, UInt32.ofNat_toNat] at hport
  rw [hafter]
  show Commanded N quanti.toNat f lba _ (run (HardDisk.step w) g.vm.hdd (registri lba quanti ++ [HardDisk.writeCmd])).port
  rw [hport]
  exact ⟨hidle.backed, hidle.position, rfl, rfl, rfl, rfl⟩

/-! The whole call. -/

section
variable {w} {N : Nat} {f : List UInt8} {b0 b1 : UInt16} {g : Guest} {lba : UInt32} {quanti : UInt8}
variable (hfree : Vm.Free b0 b1) (hg : Vm.Placed b0 b1 g.vm) (hidle : HardDisk.Idle N f g.vm.hdd)
include hfree hg hidle

omit hidle in
/-- The first wait. -/
theorem first_wait (hseven : ¬ (b0.toNat ≤ 7 ∧ 7 ≤ b0.toNat + 7) ∧ ¬ (b1.toNat ≤ 7 ∧ 7 ≤ b1.toNat + 1)) (fuel : Nat) :
    (g.ioParam.toUInt8 &&& 0x80 ≠ 0 → g.poll w iSTS (fun s => s &&& 0x80 != 0) fuel = none) ∧
    (g.ioParam.toUInt8 &&& 0x80 = 0 → 0 < fuel → g.poll w iSTS (fun s => s &&& 0x80 != 0) fuel = some g) := by
  have hread := inb_nothing (w := w) hfree hg hseven
  refine ⟨fun hset => ?_, fun hclear hfuel => ?_⟩
  · refine poll_never (· = g) ?_ fuel rfl
    rintro _ rfl
    rw [hread]
    exact ⟨bne_iff_ne.mpr hset, rfl⟩
  · rw [poll_ends (by rw [hread]; simpa using hclear) hfuel, hread]

/-- The loop over the sectors, where the count stays outside the call. -/
theorem settori_returns (hlba : lba.toNat < 2^28) (vetto : Nat → UInt16)
    (hc : ¬ (0 < g.vm.hdd.currentSectorNumber.toNat ∧ g.vm.hdd.currentSectorNumber.toNat < quanti.toNat))
    {fuel : Nat} (hfuel : 0 < fuel) :
    ∃ g', (List.range quanti.toNat).foldlM (settore w fuel b0 vetto) (comando w 0x30 b0 b1 lba quanti g) = some g' ∧
      Sent w vetto (comando w 0x30 b0 b1 lba quanti g) quanti.toNat g' := by
  have hcommanded := commanded_comando w quanti hfree hg hidle hlba
  refine settori_some hfree ((comando_after hfree hg 0x30 lba quanti).placed hg) hfuel fun i hi g' hsent => ?_
  exact (hsent.status hcommanded).2 (not_ends (Nat.le_of_lt_succ quanti.toNat_lt) hc i hi)

/-- The loop over the sectors, where the count comes to its end inside the call. -/
theorem settori_stuck (hlba : lba.toNat < 2^28) (vetto : Nat → UInt16)
    (hc : 0 < g.vm.hdd.currentSectorNumber.toNat ∧ g.vm.hdd.currentSectorNumber.toNat < quanti.toNat) (fuel : Nat) :
    (List.range quanti.toNat).foldlM (settore w fuel b0 vetto) (comando w 0x30 b0 b1 lba quanti g) = none := by
  have hcommanded := commanded_comando w quanti hfree hg hidle hlba
  have hsmall := Nat.le_of_lt_succ quanti.toNat_lt
  have hlast : quanti.toNat - g.vm.hdd.currentSectorNumber.toNat < quanti.toNat := by omega
  refine settori_none hfree ((comando_after hfree hg 0x30 lba quanti).placed hg) hlast ?_ ?_
  · intro j hj g' hsent
    exact (hsent.status hcommanded).2 (not_ends_before hsmall j hj)
  · intro g' hsent
    exact (hsent.status hcommanded).1 ((ends_iff hsmall hlast).mpr ⟨hc.1, hc.2, rfl⟩)

/-- A call with `io_param` clear and the count outside the call. -/
theorem returns (hseven : ¬ (b0.toNat ≤ 7 ∧ 7 ≤ b0.toNat + 7) ∧ ¬ (b1.toNat ≤ 7 ∧ 7 ≤ b1.toNat + 1))
    (hlba : lba.toNat < 2^28) (vetto : Nat → UInt16) (hclear : g.ioParam.toUInt8 &&& 0x80 = 0)
    (hc : ¬ (0 < g.vm.hdd.currentSectorNumber.toNat ∧ g.vm.hdd.currentSectorNumber.toNat < quanti.toNat))
    {fuel : Nat} (hfuel : 0 < fuel) :
    ∃ g', scrivisett w fuel b0 b1 lba quanti vetto g = some g' ∧
      Sent w vetto (comando w 0x30 b0 b1 lba quanti g) quanti.toNat g' := by
  obtain ⟨g', hrun, hsent⟩ := settori_returns (w := w) hfree hg hidle hlba vetto hc hfuel
  refine ⟨g', ?_, hsent⟩
  rw [scrivisett, (first_wait hfree hg hseven fuel).2 hclear hfuel, Option.bind_some, hrun]

/-- What a call that returned has done. -/
theorem returned (hseven : ¬ (b0.toNat ≤ 7 ∧ 7 ≤ b0.toNat + 7) ∧ ¬ (b1.toNat ≤ 7 ∧ 7 ≤ b1.toNat + 1))
    (hlba : lba.toNat < 2^28) {vetto : Nat → UInt16} {fuel : Nat} {g' : Guest}
    (hret : scrivisett w fuel b0 b1 lba quanti vetto g = some g') :
    g.ioParam.toUInt8 &&& 0x80 = 0 ∧
    ¬ (0 < g.vm.hdd.currentSectorNumber.toNat ∧ g.vm.hdd.currentSectorNumber.toNat < quanti.toNat) ∧
    Sent w vetto (comando w 0x30 b0 b1 lba quanti g) quanti.toNat g' := by
  obtain ⟨hstuck, hends⟩ := first_wait (w := w) hfree hg hseven fuel
  have hclear : g.ioParam.toUInt8 &&& 0x80 = 0 := by
    by_contra hset
    rw [scrivisett, hstuck hset] at hret
    exact absurd hret (by simp)
  have hfuel : 0 < fuel := by
    by_contra hzero
    obtain rfl : fuel = 0 := by omega
    exact absurd hret (by simp [scrivisett, poll])
  have hcount : ¬ (0 < g.vm.hdd.currentSectorNumber.toNat ∧ g.vm.hdd.currentSectorNumber.toNat < quanti.toNat) := by
    intro hcount
    rw [scrivisett, hends hclear hfuel, Option.bind_some, settori_stuck hfree hg hidle hlba vetto hcount] at hret
    exact absurd hret (by simp)
  obtain ⟨g₁, hret₁, hsent⟩ := returns (w := w) hfree hg hidle hseven hlba vetto hclear hcount hfuel
  rw [hret₁] at hret
  obtain rfl := Option.some.inj hret
  exact ⟨hclear, hcount, hsent⟩

end

/-- For every machine with the disk at free ports and idle, its count at anything, and every range of sectors
from an address of 28 bits on: the call returns if and only if `io_param` was left with bit 7 clear and the
count is 0 or at least the number of sectors; and when it returns, the sectors of the range, moved by the
count, hold the words of the vector as far as they are on the disk, all others are as they were, and no other
device has changed. -/
theorem scrivisett_returns_iff {N : Nat} {f : List UInt8} {b0 b1 : UInt16} {g : Guest} {lba : UInt32} {quanti : UInt8}
    (hfree : Vm.Free b0 b1) (hseven : ¬ (b0.toNat ≤ 7 ∧ 7 ≤ b0.toNat + 7) ∧ ¬ (b1.toNat ≤ 7 ∧ 7 ≤ b1.toNat + 1))
    (hg : Vm.Placed b0 b1 g.vm) (hidle : HardDisk.Idle N f g.vm.hdd) (hlba : lba.toNat < 2^28)
    (vetto : Nat → UInt16) :
    let c := g.vm.hdd.currentSectorNumber.toNat
    ((∃ fuel g', scrivisett w fuel b0 b1 lba quanti vetto g = some g') ↔
      g.ioParam.toUInt8 &&& 0x80 = 0 ∧ ¬ (0 < c ∧ c < quanti.toNat)) ∧
    ∀ fuel g', scrivisett w fuel b0 b1 lba quanti vetto g = some g' →
      g'.vm = { g.vm with hdd := g'.vm.hdd } ∧ g'.vm.hdd.image.length = f.length ∧
      (∀ i, i < quanti.toNat → blocco lba c i < N → DiskManager.sector g'.vm.hdd.image (blocco lba c i) =
        leBytes ((List.range 256).map fun j => vetto (256 * i + j))) ∧
      (∀ i, i < N → (∀ j, j < quanti.toNat → blocco lba c j ≠ i) →
        DiskManager.sector g'.vm.hdd.image i = DiskManager.sector f i) := by
  intro c
  refine ⟨⟨?_, ?_⟩, ?_⟩
  · rintro ⟨fuel, g', hret⟩
    obtain ⟨hclear, hcount, -⟩ := returned hfree hg hidle hseven hlba hret
    exact ⟨hclear, hcount⟩
  · rintro ⟨hclear, hcount⟩
    obtain ⟨g', hret, -⟩ := returns (w := w) hfree hg hidle hseven hlba vetto hclear hcount Nat.one_pos
    exact ⟨1, g', hret⟩
  · intro fuel g' hret
    obtain ⟨-, -, hsent⟩ := returned hfree hg hidle hseven hlba hret
    have hcommanded := commanded_comando w quanti hfree hg hidle hlba
    have hquanti := quanti.toNat_lt
    have hsectors := hsent.sectors hcommanded (by omega)
    obtain ⟨body, hbody, -, -⟩ := hsent
    have hafter := (comando_after hfree hg 0x30 lba quanti).trans hbody
    refine ⟨?_, hsectors⟩
    rw [hafter]

/-- The call that the program makes, two sectors from the second one on, returns. -/
theorem scrivisett_returns_two :
    ∃ fuel g', scrivisett (fun _ => 0) fuel 0xC000 0xC100 1 2 (fun _ => 0x6363) ⟨moved, 0⟩ = some g' := by
  refine (scrivisett_returns_iff (w := fun _ => 0) (g := ⟨moved, 0⟩) moved_free (by decide) moved_placed moved_idle
    (by decide) _).1.mpr ?_
  rw [moved_count]
  decide

end PciHdd1
end EndlessFault
