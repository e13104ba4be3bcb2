import Mathlib.Logic.Function.Basic
import EndlessFault.Target.DiskDriver

/- The disk driver of `target-sources/pci-hdd-2.cpp`, run on the whole machine with the disk
   at the ports `bar0` and `bar1`: a read command, and then for each sector the wait for the data
   request and its 256 words. Its first wait asks the disk, unlike that of the driver that writes.

   The command makes the disk fetch a sector before it has taken the new address, so the first
   sector read is the one at the address of the command before; and the count of sectors
   is never started again, so the others are moved by it, a sector that this moves past the end of
   the disk reads as the one before it, and a count below the number of sectors
   wanted ends the data request in the middle of the call. Main result: `leggisett_returns_iff`. -/
namespace EndlessFault
open Lib.Machine Lib.Bytes DiskManager

namespace PciHdd2
open Guest PciHdd
variable (w : Nat → UInt16)

/-- One round of the loop over the sectors. -/
def settore (fuel : Nat) (bar0 : UInt16) (s : Guest × (Nat → UInt16)) (i : Nat) : Option (Guest × (Nat → UInt16)) :=
  (s.1.poll w (iSTS + bar0) (fun s => s &&& 0x88 != 0x08) fuel).map fun g =>
    (List.range (512 / 2)).foldl (fun (g, vetti) j =>
      ((g.inw w (iBR + bar0)).1, Function.update vetti (i * 512 / 2 + j) (g.inw w (iBR + bar0)).2)) (g, s.2)

def leggisett (fuel : Nat) (bar0 bar1 : UInt16) (lba : UInt32) (quanti : UInt8) (vetti : Nat → UInt16) (g : Guest) :
    Option (Guest × (Nat → UInt16)) :=
  (g.poll w (iSTS + bar0) (fun s => s &&& 0x80 != 0) fuel).bind fun g =>
    (List.range quanti.toNat).foldlM (settore w fuel bar0) (comando w 0x20 bar0 bar1 lba quanti g, vetti)

/-! The data port over several sectors. -/

section
open HardDisk HardDisk.Port

/-- What the driver reads as the sectors of a call: the first is the one fetched by the command, and one that
is not on the disk leaves the buffer with the one before it. -/
def contents (N : Nat) (f first : List UInt8) (L : UInt32) (c : Nat) : Nat → List UInt8
  | 0 => first
  | i + 1 => if blocco L c (i + 1) < N then sector f (blocco L c (i + 1)) else contents N f first L c i

/-- Moved and all on the disk, they are the sectors of the range, save the first. -/
theorem contents_of_le {N : Nat} {L : UInt32} {c i : Nat} (f first : List UInt8) (hN : N ≤ 2^23)
    (hi : L.toNat + c + i < N) :
    contents N f first L c i = if i = 0 then first else sector f (L.toNat + c + i) := by
  cases i with
  | zero => rfl
  | succ i =>
    have hblock : blocco L c (i + 1) = L.toNat + c + (i + 1) := blocco_of_lt (by omega)
    rw [contents, if_neg (Nat.succ_ne_zero i), hblock, if_pos hi]

-- The call that the program makes, made again on a disk of four sectors: the last of them twice.
example (f first : List UInt8) : contents 4 f first 1 2 1 = first := rfl

/-- The port with sector `i` of the call in the buffer. -/
structure Fetched (N n : Nat) (f first : List UInt8) (L c : UInt32) (i : Nat) (p : Port) : Prop where
  backed : Backed p.disk N f
  position : p.position = 0
  lba : p.lba = L
  moved : p.moved = c + UInt32.ofNat (i + 1)
  wanted : p.wanted = UInt32.ofNat n
  buffer : p.buffer.toList = contents N f first L c.toNat i
  status : p.status = drqMask

variable {N n : Nat} {f first : List UInt8} {L c : UInt32} {i : Nat} {p : Port}

/-- 256 reads take the sector out, and fetch the next unless the count has met the number of
sectors wanted. -/
theorem Fetched.round (h : Fetched N n f first L c i p) :
    observe Port.step (Port.dataRead w) p (List.replicate 256 .read) = sectorWords (contents N f first L c.toNat i) ∧
    (run Port.step p (List.replicate 256 .read)).disk = p.disk ∧
    (ends c n (i + 1) → (run Port.step p (List.replicate 256 .read)).status = 0) ∧
    (¬ ends c n (i + 1) → Fetched N n f first L c (i + 1) (run Port.step p (List.replicate 256 .read))) := by
  obtain ⟨hrun, hobs⟩ := read_sector w p h.position (by rw [h.status]; exact .inr (.inl rfl))
  rw [hobs, h.buffer, hrun, h.wanted, h.moved]
  refine ⟨rfl, by split <;> rfl, fun hends => by rw [if_pos hends.2], fun hnot => ?_⟩
  have hmore : ¬ UInt32.ofNat n = c + UInt32.ofNat (i + 1) := fun heq => hnot ⟨Nat.succ_pos i, heq⟩
  have hindex : (L + (c + UInt32.ofNat (i + 1))).toNat % 2^23 = blocco L c.toNat (i + 1) := by
    simp only [blocco, UInt32.toNat_add, UInt32.toNat_ofNat', Nat.reducePow]
    omega
  obtain ⟨hon, hoff⟩ := h.backed.read_spec p.buffer (L + (c + UInt32.ofNat (i + 1)))
  rw [hindex] at hon hoff
  rw [if_neg hmore]
  refine ⟨h.backed, rfl, h.lba, ?_, rfl, ?_, rfl⟩
  · rw [UInt32.add_assoc, UInt32.ofNat_add (i + 1) 1]
    rfl
  · rw [contents, h.lba]
    split
    · next hblock => exact (hon hblock).1
    · next hblock => rw [hoff (Nat.le_of_not_lt hblock), h.buffer]

/-- Some sectors of a call, none of which but the last may end it. -/
theorem Fetched.rounds (h : Fetched N n f first L c 0 p) {m : Nat} (hgoes : ∀ i, i < m → ¬ ends c n i) :
    observe Port.step (Port.dataRead w) p (List.replicate (256 * m) .read) =
      (List.range m).flatMap (fun i => sectorWords (contents N f first L c.toNat i)) ∧
    (run Port.step p (List.replicate (256 * m) .read)).disk = p.disk ∧
    (ends c n m → (run Port.step p (List.replicate (256 * m) .read)).status = 0) ∧
    (¬ ends c n m → Fetched N n f first L c m (run Port.step p (List.replicate (256 * m) .read))) := by
  induction m with
  | zero => exact ⟨rfl, rfl, fun hends => absurd hends.1 (Nat.lt_irrefl 0), fun _ => h⟩
  | succ m ih =>
    obtain ⟨hobs, hdisk, -, hfetched⟩ := ih fun i hi => hgoes i (by omega)
    obtain ⟨hobs', hdisk', hend, hnext⟩ := (hfetched (hgoes m (by omega))).round w
    rw [Nat.mul_succ, List.replicate_add, observe_append, run_append, hobs, hobs', hdisk', hdisk, List.range_succ,
      List.flatMap_append, List.flatMap_singleton]
    exact ⟨rfl, rfl, hend, hnext⟩

end

/-! The words of a sector. -/

section
variable {w} {b0 b1 : UInt16} {g : Guest}

/-- A word for each read. -/
theorem length_words {body : List HardDisk.Access} (hcommand : ∀ a ∈ body, a.command = false) {m : Nat}
    (hdata : body.filterMap HardDisk.Access.data = List.replicate m .read) (d : HardDisk) :
    (observe (HardDisk.step w) (HardDisk.dataRead w) d body).length = m := by
  have hport : ∀ p : HardDisk.Port,
      (observe HardDisk.Port.step (HardDisk.Port.dataRead w) p (List.replicate m .read)).length = m := by
    intro p
    clear hdata
    induction m generalizing p with
    | zero => rfl
    | succ m ih =>
      rw [List.replicate_succ, observe_cons, List.length_append, ih]
      exact Nat.add_comm 1 m
  rw [HardDisk.words_run w d hcommand, hdata, hport]

theorem command_reads (m : Nat) : ∀ a ∈ List.replicate m (HardDisk.Access.readWord HardDisk.brAddr), a.command = false := by
  intro a ha
  rw [List.eq_of_mem_replicate ha]
  rfl

variable (hfree : Vm.Free b0 b1) (hg : Vm.Placed b0 b1 g.vm)
include hfree hg

theorem inw_many (vetti : Nat → UInt16) (o m : Nat) :
    ∃ g' vetti', (List.range m).foldl (fun (g, vetti) j =>
        ((g.inw w (iBR + b0)).1, Function.update vetti (o + j) (g.inw w (iBR + b0)).2)) (g, vetti) = (g', vetti') ∧
      After w g (List.replicate m (.readWord HardDisk.brAddr)) g' ∧
      ∀ k, vetti' k = if k < o then vetti k else
        (observe (HardDisk.step w) (HardDisk.dataRead w) g.vm.hdd
          (List.replicate m (.readWord HardDisk.brAddr)))[k - o]?.getD (vetti k) := by
  induction m with
  | zero =>
    refine ⟨g, vetti, rfl, rfl, fun k => ?_⟩
    split <;> rfl
  | succ m ih =>
    obtain ⟨g₁, vetti₁, hfold, hafter, hwords⟩ := ih
    obtain ⟨hread, hword⟩ := inw_data (w := w) hfree (hafter.placed hg)
    refine ⟨(g₁.inw w (iBR + b0)).1, Function.update vetti₁ (o + m) (g₁.inw w (iBR + b0)).2, ?_, ?_, ?_⟩
    · rw [List.range_succ, List.foldl_append, hfold]
      rfl
    · rw [List.replicate_succ']
      exact hafter.trans hread
    · intro k
      have hdisk : g₁.vm.hdd = run (HardDisk.step w) g.vm.hdd (List.replicate m (.readWord HardDisk.brAddr)) := by rw [hafter]
      rw [List.replicate_succ', observe_append, ← hdisk, observe_cons, observe_nil, hword, List.append_nil]
      have hlen := length_words (w := w) (command_reads m) (HardDisk.data_reads m) g.vm.hdd
      by_cases hk : k = o + m
      · subst hk
        rw [Function.update_self, if_neg (by omega), List.getElem?_append_right (by omega), hlen]
        simp
      · rw [Function.update_of_ne hk, hwords]
        split
        · rfl
        · by_cases hlt : k - o < m
          · rw [List.getElem?_append_left (by omega)]
          · rw [List.getElem?_eq_none (by omega), List.getElem?_eq_none (by simp; omega)]

/-- A sector that the disk offers. -/
theorem settore_some {fuel : Nat} (hfuel : 0 < fuel) (vetti : Nat → UInt16) (i : Nat)
    (hoffers : g.vm.hdd.STS = HardDisk.drqMask) :
    ∃ g' vetti', settore w fuel b0 (g, vetti) i = some (g', vetti') ∧
      After w g (.readByte HardDisk.stsAddr :: List.replicate 256 (.readWord HardDisk.brAddr)) g' ∧
      ∀ k, vetti' k = if k < 256 * i then vetti k else
        (observe (HardDisk.step w) (HardDisk.dataRead w) g.vm.hdd
          (.readByte HardDisk.stsAddr :: List.replicate 256 (.readWord HardDisk.brAddr)))[k - 256 * i]?.getD (vetti k) := by
  obtain ⟨hread, hval⟩ := inb_status (w := w) hfree hg
  have hend : ((g.inb w (iSTS + b0)).2 &&& 0x88 != 0x08) = false := by
    rw [hval, hoffers]
    decide
  obtain ⟨g', vetti', hfold, hafter, hwords⟩ := inw_many (w := w) hfree (hread.placed hg) vetti (256 * i) 256
  refine ⟨g', vetti', ?_, hread.trans hafter, ?_⟩
  · have hindex : i * 512 / 2 = 256 * i := by omega
    rw [settore, poll_ends hend hfuel, Option.map_some, hindex, show 512 / 2 = 256 from rfl, hfold]
  · have hdisk : (g.inb w (iSTS + b0)).1.vm.hdd = HardDisk.step w g.vm.hdd (.readByte HardDisk.stsAddr) := by
      rw [hread, run_cons, run_nil]
    have hnone : HardDisk.dataRead w g.vm.hdd (.readByte HardDisk.stsAddr) = [] := rfl
    intro k
    rw [hwords, hdisk, observe_cons, hnone, List.nil_append]

/-- A sector that the disk does not offer. -/
theorem settore_none (fuel : Nat) (vetti : Nat → UInt16) (i : Nat) (hdone : g.vm.hdd.STS = 0) :
    settore w fuel b0 (g, vetti) i = none := by
  rw [settore, poll_never (fun g => Vm.Placed b0 b1 g.vm ∧ g.vm.hdd.STS = 0) ?_ fuel ⟨hg, hdone⟩, Option.map_none]
  rintro g ⟨hg, hdone⟩
  obtain ⟨hread, hval⟩ := inb_status (w := w) hfree hg
  refine ⟨?_, hread.placed hg, ?_⟩
  · rw [hval, hdone]
    decide
  · exact (congrArg HardDisk.Port.status (port_after_status hread)).trans hdone

end

/-! The sectors. -/

/-- The guest and the vector after `i` rounds of the loop. -/
def Received (g : Guest) (vetti : Nat → UInt16) (i : Nat) (s : Guest × (Nat → UInt16)) : Prop :=
  ∃ body, After w g body s.1 ∧ (∀ a ∈ body, a.command = false) ∧
    body.filterMap HardDisk.Access.data = List.replicate (256 * i) .read ∧
    ∀ k, s.2 k = (observe (HardDisk.step w) (HardDisk.dataRead w) g.vm.hdd body)[k]?.getD (vetti k)

section
variable {w} {b0 b1 : UInt16} {g : Guest} {vetti : Nat → UInt16} {i : Nat} {s : Guest × (Nat → UInt16)}

theorem Received.zero : Received w g vetti 0 (g, vetti) :=
  ⟨[], rfl, fun _ ha => absurd ha List.not_mem_nil, rfl, fun _ => rfl⟩

theorem Received.placed (h : Received w g vetti i s) (hg : Vm.Placed b0 b1 g.vm) : Vm.Placed b0 b1 s.1.vm := by
  obtain ⟨body, hafter, -⟩ := h
  exact hafter.placed hg

theorem Received.port (h : Received w g vetti i s) :
    s.1.vm.hdd.port = run HardDisk.Port.step g.vm.hdd.port (List.replicate (256 * i) .read) := by
  obtain ⟨body, hafter, hcommand, hdata, -⟩ := h
  rw [hafter]
  exact (HardDisk.port_run w _ hcommand).trans (by rw [hdata])

theorem Received.words (h : Received w g vetti i s) (k : Nat) :
    s.2 k = (observe HardDisk.Port.step (HardDisk.Port.dataRead w) g.vm.hdd.port
      (List.replicate (256 * i) .read))[k]?.getD (vetti k) := by
  obtain ⟨body, -, hcommand, hdata, hwords⟩ := h
  rw [hwords, HardDisk.words_run w _ hcommand, hdata]

theorem Received.next (h : Received w g vetti i s) {g' : Guest} {vetti' : Nat → UInt16}
    (hafter : After w s.1 (.readByte HardDisk.stsAddr :: List.replicate 256 (.readWord HardDisk.brAddr)) g')
    (hwords : ∀ k, vetti' k = if k < 256 * i then s.2 k else
      (observe (HardDisk.step w) (HardDisk.dataRead w) s.1.vm.hdd
        (.readByte HardDisk.stsAddr :: List.replicate 256 (.readWord HardDisk.brAddr)))[k - 256 * i]?.getD (s.2 k)) :
    Received w g vetti (i + 1) (g', vetti') := by
  obtain ⟨body, hbody, hcommand, hdata, hheld⟩ := h
  have hlen := length_words (w := w) hcommand hdata g.vm.hdd
  have hdisk : s.1.vm.hdd = run (HardDisk.step w) g.vm.hdd body := by rw [hbody]
  refine ⟨_, hbody.trans hafter, ?_, ?_, ?_⟩
  · intro a ha
    rcases List.mem_append.mp ha with ha | ha
    · exact hcommand a ha
    · rcases List.mem_cons.mp ha with rfl | ha
      · rfl
      · exact command_reads 256 a ha
  · rw [List.filterMap_append, hdata, Nat.mul_succ, List.replicate_add]
    exact congrArg _ (HardDisk.data_reads 256)
  · intro k
    show vetti' k = _
    rw [hwords, observe_append, ← hdisk]
    by_cases hk : k < 256 * i
    · rw [if_pos hk, hheld, List.getElem?_append_left (by omega)]
    · have hkept : s.2 k = vetti k := by rw [hheld, List.getElem?_eq_none (by omega), Option.getD_none]
      rw [if_neg hk, hkept, List.getElem?_append_right (by omega), hlen]

variable {N n : Nat} {f first : List UInt8} {L c : UInt32}

/-- The status between the sectors. -/
theorem Received.status (h : Received w g vetti i s) (hg : Fetched N n f first L c 0 g.vm.hdd.port)
    (hgoes : ∀ j, j < i → ¬ ends c n j) :
    (ends c n i → s.1.vm.hdd.STS = 0) ∧ (¬ ends c n i → s.1.vm.hdd.STS = HardDisk.drqMask) := by
  obtain ⟨-, -, hend, hnext⟩ := hg.rounds w hgoes
  rw [← h.port] at hend hnext
  exact ⟨hend, fun hnot => (hnext hnot).status⟩

end

section
variable {w} {b0 b1 : UInt16} {g : Guest} (vetti : Nat → UInt16) {N n : Nat} {f first : List UInt8} {L c : UInt32}
variable (hfree : Vm.Free b0 b1) (hg : Vm.Placed b0 b1 g.vm) (hstart : Fetched N n f first L c 0 g.vm.hdd.port)
variable (hn : n ≤ 255)
include hfree hg hstart hn

/-- The loop over the sectors, where the count stays outside the call. -/
theorem settori_some {fuel : Nat} (hfuel : 0 < fuel) (hc : ¬ (0 < c.toNat ∧ c.toNat < n)) :
    ∃ s, (List.range n).foldlM (settore w fuel b0) (g, vetti) = some s ∧ Received w g vetti n s := by
  have hgoes := not_ends hn hc
  refine foldlM_range_some (Received w g vetti) (fun i hi s hreceived => ?_) .zero
  have hoffers := (hreceived.status hstart fun j hj => hgoes j (by omega)).2 (hgoes i hi)
  obtain ⟨g', vetti', hround, hafter, hwords⟩ := settore_some hfree (hreceived.placed hg) hfuel s.2 i hoffers
  exact ⟨_, hround, hreceived.next hafter hwords⟩

/-- The loop over the sectors, where the count comes to its end inside the call. -/
theorem settori_none (fuel : Nat) (hc : 0 < c.toNat ∧ c.toNat < n) :
    (List.range n).foldlM (settore w fuel b0) (g, vetti) = none := by
  have hlast : n - c.toNat < n := by omega
  rcases Nat.eq_zero_or_pos fuel with rfl | hfuel
  · -- no wait ends without a round
    exact foldlM_range_none (fun _ _ => True) (Nat.zero_lt_of_lt hlast) (fun j hj => absurd hj (Nat.not_lt_zero j))
      (fun _ _ => rfl) trivial
  have hgoes := not_ends_before (c := c) hn
  refine foldlM_range_none (Received w g vetti) hlast (fun i hi s hreceived => ?_) (fun s hreceived => ?_) .zero
  · have hoffers := (hreceived.status hstart fun j hj => hgoes j (by omega)).2 (hgoes i hi)
    obtain ⟨g', vetti', hround, hafter, hwords⟩ := settore_some hfree (hreceived.placed hg) hfuel s.2 i hoffers
    exact ⟨_, hround, hreceived.next hafter hwords⟩
  · exact settore_none hfree (hreceived.placed hg) fuel s.2 _
      ((hreceived.status hstart hgoes).1 ((ends_iff hn hlast).mpr ⟨hc.1, hc.2, rfl⟩))

end

/-! The command. -/

/-- The sector that the command fetches: it goes by the address latched before, and a sector
past the end leaves the buffer as it was. -/
def fetched (N : Nat) (f : List UInt8) (d : HardDisk) : List UInt8 :=
  let old := (d.lba + d.currentSectorNumber).toNat % 2^23
  if old < N then sector f old else d.internalBuffer.toList

theorem read_fetched {N : Nat} {f : List UInt8} {d : HardDisk} (hidle : HardDisk.Idle N f d) :
    (d.diskManager.read d.internalBuffer (d.lba + d.currentSectorNumber)).1.toList = fetched N f d := by
  obtain ⟨hin, hout⟩ := hidle.backed.read_spec d.internalBuffer (d.lba + d.currentSectorNumber)
  by_cases hold : (d.lba + d.currentSectorNumber).toNat % 2^23 < N
  · rw [(hin hold).1, fetched, if_pos hold, sector]
  · rw [hout (Nat.le_of_not_lt hold), fetched, if_neg hold]

theorem fetched_comando {N : Nat} {f : List UInt8} {b0 b1 : UInt16} {g : Guest} {lba : UInt32} (quanti : UInt8)
    (hfree : Vm.Free b0 b1) (hg : Vm.Placed b0 b1 g.vm) (hidle : HardDisk.Idle N f g.vm.hdd) (hlba : lba.toNat < 2^28) :
    Fetched N quanti.toNat f (fetched N f g.vm.hdd) lba g.vm.hdd.currentSectorNumber 0
      (comando w 0x20 b0 b1 lba quanti g).vm.hdd.port := by
  have hafter := comando_after (w := w) hfree hg 0x20 lba quanti
  have hport := HardDisk.port_start_read w g.vm.hdd (quiet_registri lba quanti) (targets_registri w g.vm.hdd hlba quanti)
  rw [(HardDisk.start_status hidle.status).2, UInt32.ofNat_toNat] at hport
  rw [hafter]
  show Fetched N quanti.toNat f _ lba _ 0 (run (HardDisk.step w) g.vm.hdd (registri lba quanti ++ [HardDisk.readCmd])).port
  rw [hport]
  exact ⟨hidle.backed, hidle.position, rfl, rfl, rfl, read_fetched hidle, rfl⟩

/-! The whole call. -/

section
variable {w} {N : Nat} {f : List UInt8} {b0 b1 : UInt16} {g : Guest} {lba : UInt32} {quanti : UInt8}

/-- An idle disk is one by its data port. -/
theorem idle_of_port {d d' : HardDisk} (hport : d'.port = d.port) (hidle : HardDisk.Idle N f d) : HardDisk.Idle N f d' :=
  ⟨(congrArg (fun p : HardDisk.Port => Backed p.disk N f) hport).mpr hidle.backed,
   (congrArg HardDisk.Port.position hport).trans hidle.position,
   (congrArg (fun p : HardDisk.Port => HardDisk.Port.StatusOk p.status) hport).mpr hidle.status⟩

theorem fetched_of_port {d d' : HardDisk} (hport : d'.port = d.port) : fetched N f d' = fetched N f d := by
  have hlba : d'.lba = d.lba := congrArg HardDisk.Port.lba hport
  have hmoved : d'.currentSectorNumber = d.currentSectorNumber := congrArg HardDisk.Port.moved hport
  have hbuffer : d'.internalBuffer = d.internalBuffer := congrArg HardDisk.Port.buffer hport
  rw [fetched, fetched, hlba, hmoved, hbuffer]

variable (hfree : Vm.Free b0 b1) (hg : Vm.Placed b0 b1 g.vm)
include hfree hg

/-- The first wait. -/
theorem first_wait (fuel : Nat) :
    (g.vm.hdd.STS &&& 0x80 ≠ 0 → g.poll w (iSTS + b0) (fun s => s &&& 0x80 != 0) fuel = none) ∧
    (g.vm.hdd.STS &&& 0x80 = 0 → 0 < fuel →
      g.poll w (iSTS + b0) (fun s => s &&& 0x80 != 0) fuel = some (g.inb w (iSTS + b0)).1) := by
  refine ⟨fun hset => ?_, fun hclear hfuel => ?_⟩
  · refine poll_never (fun g => Vm.Placed b0 b1 g.vm ∧ g.vm.hdd.STS &&& 0x80 ≠ 0) ?_ fuel ⟨hg, hset⟩
    rintro g ⟨hg, hset⟩
    obtain ⟨hread, hval⟩ := inb_status (w := w) hfree hg
    have hstatus : (g.inb w (iSTS + b0)).1.vm.hdd.STS = g.vm.hdd.STS :=
      congrArg HardDisk.Port.status (port_after_status hread)
    rw [hval, hstatus]
    exact ⟨bne_iff_ne.mpr hset, hread.placed hg, hset⟩
  · refine poll_ends ?_ hfuel
    rw [(inb_status hfree hg).2, hclear]
    rfl

variable (hidle : HardDisk.Idle N f g.vm.hdd)
variable (hlba : lba.toNat < 2^28) (vetti : Nat → UInt16)
include hidle hlba

/-- The rest of the call, after the first wait. -/
theorem settori_iff :
    (0 < g.vm.hdd.currentSectorNumber.toNat ∧ g.vm.hdd.currentSectorNumber.toNat < quanti.toNat → ∀ fuel,
      (List.range quanti.toNat).foldlM (settore w fuel b0) (comando w 0x20 b0 b1 lba quanti g, vetti) = none) ∧
    (¬ (0 < g.vm.hdd.currentSectorNumber.toNat ∧ g.vm.hdd.currentSectorNumber.toNat < quanti.toNat) → ∀ fuel, 0 < fuel →
      ∃ g' vetti', (List.range quanti.toNat).foldlM (settore w fuel b0) (comando w 0x20 b0 b1 lba quanti g, vetti) =
          some (g', vetti') ∧
        g'.vm = { g.vm with hdd := g'.vm.hdd } ∧ g'.vm.hdd.image = f ∧
        ∀ k, vetti' k = if k < 256 * quanti.toNat
          then wordAt (contents N f (fetched N f g.vm.hdd) lba g.vm.hdd.currentSectorNumber.toNat (k / 256)) (2 * (k % 256))
          else vetti k) := by
  have hafter := comando_after (w := w) hfree hg 0x20 lba quanti
  have hstart := fetched_comando w quanti hfree hg hidle hlba
  have hn := Nat.le_of_lt_succ quanti.toNat_lt
  refine ⟨fun hc fuel => settori_none vetti hfree (hafter.placed hg) hstart hn fuel hc, fun hc fuel hfuel => ?_⟩
  obtain ⟨⟨g', vetti'⟩, hrun, hreceived⟩ :=
    settori_some vetti hfree (hafter.placed hg) hstart hn hfuel hc
  obtain ⟨hobs, hdisk, -, -⟩ := hstart.rounds w (not_ends hn hc)
  refine ⟨g', vetti', hrun, ?_, ?_, fun k => ?_⟩
  · obtain ⟨body, hbody, -⟩ := hreceived
    have hwhole := hafter.trans hbody
    rw [hwhole]
  · have hback : Backed g'.vm.hdd.port.disk N f := by
      rw [hreceived.port, hdisk]
      exact hstart.backed
    rw [HardDisk.image]
    exact congrArg (Option.getD · []) hback.file
  · have hword := hreceived.words k
    rw [hobs] at hword
    by_cases hk : k < 256 * quanti.toNat
    · rw [HardDisk.Port.getElem?_sectors _ hk, Option.getD_some] at hword
      rw [if_pos hk]
      exact hword
    · have hlen : ((List.range quanti.toNat).flatMap fun i => HardDisk.Port.sectorWords (contents N f
          (fetched N f g.vm.hdd) lba g.vm.hdd.currentSectorNumber.toNat i)).length = 256 * quanti.toNat := by
        simp [List.length_flatMap, Nat.mul_comm]
      rw [List.getElem?_eq_none (by omega), Option.getD_none] at hword
      rw [if_neg hk]
      exact hword

/-- A call on a disk that is not busy, with the count outside the call. -/
theorem returns (hclear : g.vm.hdd.STS &&& 0x80 = 0)
    (hc : ¬ (0 < g.vm.hdd.currentSectorNumber.toNat ∧ g.vm.hdd.currentSectorNumber.toNat < quanti.toNat))
    {fuel : Nat} (hfuel : 0 < fuel) :
    ∃ g' vetti', leggisett w fuel b0 b1 lba quanti vetti g = some (g', vetti') ∧
      g'.vm = { g.vm with hdd := g'.vm.hdd } ∧ g'.vm.hdd.image = f ∧
      ∀ k, vetti' k = if k < 256 * quanti.toNat
        then wordAt (contents N f (fetched N f g.vm.hdd) lba g.vm.hdd.currentSectorNumber.toNat (k / 256)) (2 * (k % 256))
        else vetti k := by
  obtain ⟨hread, -⟩ := inb_status (w := w) hfree hg
  have hport := port_after_status hread
  have hcount : (g.inb w (iSTS + b0)).1.vm.hdd.currentSectorNumber = g.vm.hdd.currentSectorNumber :=
    congrArg HardDisk.Port.moved hport
  obtain ⟨-, hsome⟩ := settori_iff (w := w) hfree (hread.placed hg) (idle_of_port hport hidle) hlba vetti
  rw [hcount, fetched_of_port hport] at hsome
  obtain ⟨g', vetti', hrun, hvm, himage, hwords⟩ := hsome hc fuel hfuel
  refine ⟨g', vetti', ?_, ?_, himage, hwords⟩
  · rw [leggisett, (first_wait hfree hg fuel).2 hclear hfuel, Option.bind_some, hrun]
  · rw [hvm, hread]

/-- A call that returned passed the first wait, and its count was outside. -/
theorem returned {fuel : Nat} {r : Guest × (Nat → UInt16)} (hret : leggisett w fuel b0 b1 lba quanti vetti g = some r) :
    g.vm.hdd.STS &&& 0x80 = 0 ∧
    ¬ (0 < g.vm.hdd.currentSectorNumber.toNat ∧ g.vm.hdd.currentSectorNumber.toNat < quanti.toNat) ∧ 0 < fuel := by
  have hclear : g.vm.hdd.STS &&& 0x80 = 0 := by
    by_contra hset
    rw [leggisett, (first_wait hfree hg fuel).1 hset] at hret
    exact absurd hret (by simp)
  have hfuel : 0 < fuel := by
    by_contra hzero
    obtain rfl : fuel = 0 := by omega
    exact absurd hret (by simp [leggisett, poll])
  refine ⟨hclear, fun hc => ?_, hfuel⟩
  obtain ⟨hread, -⟩ := inb_status (w := w) hfree hg
  have hport := port_after_status hread
  have hcount : (g.inb w (iSTS + b0)).1.vm.hdd.currentSectorNumber = g.vm.hdd.currentSectorNumber :=
    congrArg HardDisk.Port.moved hport
  obtain ⟨hnone, -⟩ := settori_iff (w := w) hfree (hread.placed hg) (idle_of_port hport hidle) hlba vetti
  rw [hcount] at hnone
  rw [leggisett, (first_wait hfree hg fuel).2 hclear hfuel, Option.bind_some, hnone hc fuel] at hret
  exact absurd hret (by simp)

end

/-- For every machine with the disk at free ports and idle, its count at anything, and every range of sectors from
an address of 28 bits on: the call returns if and only if the disk is not busy and the count is 0 or at least the
number of sectors; and when it returns, the vector holds the sector that the command fetched, at the address of the
command before, and then the sectors of the range from its second one on, moved by the count, in the place of each
that is not on the disk the one before it, its other words are as they were, and neither the image nor any other
device has changed. -/
theorem leggisett_returns_iff {N : Nat} {f : List UInt8} {b0 b1 : UInt16} {g : Guest} {lba : UInt32} {quanti : UInt8}
    (hfree : Vm.Free b0 b1) (hg : Vm.Placed b0 b1 g.vm) (hidle : HardDisk.Idle N f g.vm.hdd)
    (hlba : lba.toNat < 2^28) (vetti : Nat → UInt16) :
    let c := g.vm.hdd.currentSectorNumber.toNat
    ((∃ fuel r, leggisett w fuel b0 b1 lba quanti vetti g = some r) ↔
      g.vm.hdd.STS &&& 0x80 = 0 ∧ ¬ (0 < c ∧ c < quanti.toNat)) ∧
    ∀ fuel g' vetti', leggisett w fuel b0 b1 lba quanti vetti g = some (g', vetti') →
      g'.vm = { g.vm with hdd := g'.vm.hdd } ∧ g'.vm.hdd.image = f ∧
      ∀ k, vetti' k = if k < 256 * quanti.toNat
        then wordAt (contents N f (fetched N f g.vm.hdd) lba c (k / 256)) (2 * (k % 256))
        else vetti k := by
  intro c
  refine ⟨⟨?_, ?_⟩, ?_⟩
  · rintro ⟨fuel, r, hret⟩
    obtain ⟨hclear, hc, -⟩ := returned hfree hg hidle hlba vetti hret
    exact ⟨hclear, hc⟩
  · rintro ⟨hclear, hc⟩
    obtain ⟨g', vetti', hret, -⟩ := returns (w := w) hfree hg hidle hlba vetti hclear hc Nat.one_pos
    exact ⟨1, (g', vetti'), hret⟩
  · intro fuel g' vetti' hret
    obtain ⟨hclear, hc, hfuel⟩ := returned hfree hg hidle hlba vetti hret
    obtain ⟨g₁, vetti₁, hret₁, hdone⟩ := returns (w := w) hfree hg hidle hlba vetti hclear hc hfuel
    rw [hret₁] at hret
    obtain ⟨rfl, rfl⟩ := Prod.mk.inj (Option.some.inj hret)
    exact hdone

/-- The call that the program makes, two sectors from the second one on, returns. -/
theorem leggisett_returns_two :
    ∃ fuel r, leggisett (fun _ => 0) fuel 0xC000 0xC100 1 2 (fun _ => 0) ⟨moved, 0⟩ = some r := by
  refine (leggisett_returns_iff (fun _ => 0) (g := ⟨moved, 0⟩) moved_free moved_placed moved_idle (by decide) _).1.mpr ?_
  rw [moved_count, moved_hdd]
  decide

end PciHdd2
end EndlessFault
