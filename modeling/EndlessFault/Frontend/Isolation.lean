import EndlessFault.Frontend.DiskCommands

/- What one command leaves behind for the next. `Completed` collects the states
   between whole commands, over any history of them; in all of them the disk is
   `Idle`, so only the count of the sectors moved so far can tell two of them
   apart. `isolated_iff` says exactly when it does: a write command leads to the
   same image and the same status from both when the two counts put it on the
   same blocks (or both off the disk) and are zero or not alike, since the count
   is never reset. `used_disk_differs` is a pair of states that it separates. -/
namespace EndlessFault
open Lib.Bytes Lib.Machine

namespace HardDisk
open DiskManager

/-- The states a disk of `N` sectors reaches by completed commands: each read
or write command is followed by exactly the data accesses of its `SCR` sectors,
the other commands have none, and quiet accesses come anywhere. -/
inductive Completed (wild : Nat → UInt16) (N : Nat) : HardDisk → Prop where
  | powerOn (buffer fill : Block) {img : List UInt8} (hlen : img.length = 512 * N)
      (hN : 512 * N < 2^32) : Completed wild N (new buffer fill (UInt32.ofNat N) (some img))
  | quiet {d : HardDisk} {a : Access} (hd : Completed wild N d) (ha : a.quiet = true) :
      Completed wild N (step wild d a)
  | read {d : HardDisk} {body : List Access} (hd : Completed wild N d)
      (hbody : ∀ a ∈ body, a.quiet = true ∨ a = .readWord brAddr)
      (hdata : body.filterMap Access.data = List.replicate (256 * d.SCR.toNat) .read) :
      Completed wild N (run (step wild) d (readCmd :: body))
  | write {d : HardDisk} {body : List Access} {ws : List UInt16} (hd : Completed wild N d)
      (hbody : ∀ a ∈ body, a.quiet = true ∨ ∃ w, a = .writeWord brAddr w)
      (hws : ws.length = 256 * d.SCR.toNat)
      (hdata : body.filterMap Access.data = ws.map .write) :
      Completed wild N (run (step wild) d (writeCmd :: body))
  | other {d : HardDisk} {cmd : UInt8} (hd : Completed wild N d) (hr : cmd ≠ 0x20)
      (hw : cmd ≠ 0x30) : Completed wild N (step wild d (.writeByte cmdAddr cmd))

variable {wild : Nat → UInt16} {N : Nat}

theorem Completed.set_registers {d : HardDisk} (hd : Completed wild N d) (L n : Nat) :
    Completed wild N (run (step wild) d (setup L n)) :=
  run_invariant (Completed wild N) (fun a => a.quiet = true)
    (fun _ _ ha h => h.quiet ha) hd setup_quiet

/-- Whole sectors read leave the cursor at the start of the buffer. -/
theorem Port.reads_position (k : Nat) (p : Port) (hp : p.position = 0) (hs : Port.StatusOk p.status) :
    (run Port.step p (List.replicate (256 * k) .read)).position = 0 := by
  induction k generalizing p with
  | zero => exact hp
  | succ k ih =>
    obtain ⟨hrun, -⟩ := Port.read_sector (fun _ => 0) p hp hs
    rw [show 256 * (k + 1) = 256 + 256 * k by omega, List.replicate_add, run_append, hrun]
    split_ifs
    · exact ih _ rfl (.inl rfl)
    · exact ih _ rfl (.inr (.inl rfl))

theorem idle_of_port {d : HardDisk} (hs : Port.Sound N d.port) (hp : d.port.position = 0) :
    ∃ f, Idle N f d :=
  hs.1.imp fun _ hb => ⟨hb, hp, hs.2⟩

/-! Each thing that can happen between commands leaves an idle disk idle. -/

section
variable {f : List UInt8} {d : HardDisk}

theorem Idle.quiet (hf : Idle N f d) {a : Access} (ha : a.quiet = true) :
    ∃ f, Idle N f (step wild d a) := by
  have hport := (port_step_quiet wild d a (quiet_spec ha).1 (quiet_spec ha).2).1
  apply idle_of_port
  · rw [hport]
    exact ⟨⟨f, hf.backed⟩, hf.status⟩
  · rw [hport]
    exact hf.position

theorem Idle.read (hf : Idle N f d) {body : List Access}
    (hbody : ∀ a ∈ body, a.quiet = true ∨ a = .readWord brAddr)
    (hdata : body.filterMap Access.data = List.replicate (256 * d.SCR.toNat) .read) :
    ∃ f, Idle N f (run (step wild) d (readCmd :: body)) := by
  have hstart := port_readCmd wild d
  rw [(start_status hf.status).2] at hstart
  have hsound : Port.Sound N (step wild d readCmd).port := by
    rw [hstart]
    exact ⟨⟨f, hf.backed⟩, .inr (.inl rfl)⟩
  have hport := port_run wild (step wild d readCmd) (command_of_reads hbody)
  rw [hdata] at hport
  apply idle_of_port
  · rw [run_cons, hport]
    exact hsound.run _
  · rw [run_cons, hport]
    exact Port.reads_position _ _ (by rw [hstart]; exact hf.position) hsound.2

theorem Idle.write (hf : Idle N f d) {body : List Access} {ws : List UInt16}
    (hbody : ∀ a ∈ body, a.quiet = true ∨ ∃ val, a = .writeWord brAddr val)
    (hws : ws.length = 256 * d.SCR.toNat) (hdata : body.filterMap Access.data = ws.map .write) :
    ∃ f, Idle N f (run (step wild) d (writeCmd :: body)) := by
  have hstart := port_writeCmd wild d
  rw [(start_status hf.status).1] at hstart
  have hport := port_run wild (step wild d writeCmd) (command_of_writes hbody)
  rw [hdata] at hport
  have hwrites : run Port.step (step wild d writeCmd).port (ws.map .write) =
      run Port.write (step wild d writeCmd).port ws := List.foldl_map
  obtain ⟨hback, hpos, -, hok, -⟩ := Port.write_sectors d.SCR.toNat (step wild d writeCmd).port
    (N := N) (f := f) ws (by rw [hstart]; exact hf.backed) (by rw [hstart]; exact hf.position)
    (by rw [hstart]; exact .inr (.inl rfl)) hws
  apply idle_of_port
  · rw [run_cons, hport, hwrites]
    exact ⟨⟨_, hback⟩, hok⟩
  · rw [run_cons, hport, hwrites]
    exact hpos

theorem Idle.other (hf : Idle N f d) {cmd : UInt8} (hr : cmd ≠ 0x20) (hw : cmd ≠ 0x30) :
    ∃ f, Idle N f (step wild d (.writeByte cmdAddr cmd)) := by
  have hport := port_otherCmd wild d hr hw
  apply idle_of_port
  · rw [hport]
    exact ⟨⟨f, hf.backed⟩, hf.status⟩
  · rw [hport]
    exact hf.position

end

/-- Between completed commands the disk is idle. -/
theorem Completed.idle {d : HardDisk} (h : Completed wild N d) : ∃ f, Idle N f d := by
  induction h with
  | powerOn buffer fill hlen hN => exact ⟨_, new_idle buffer fill hlen hN⟩
  | quiet _ ha ih =>
    obtain ⟨f, hf⟩ := ih
    exact hf.quiet ha
  | read _ hbody hdata ih =>
    obtain ⟨f, hf⟩ := ih
    exact hf.read hbody hdata
  | write _ hbody hws hdata ih =>
    obtain ⟨f, hf⟩ := ih
    exact hf.write hbody hws hdata
  | other _ hr hw ih =>
    obtain ⟨f, hf⟩ := ih
    exact hf.other hr hw

/-! The sectors a command touches. -/

/-- No block of an `n`-sector command at `L` with `c` sectors moved before it
lies on the disk. -/
def OffDisk (N L n : Nat) (c : UInt32) : Prop := ∀ i, i < n → N ≤ (L + c.toNat + i) % 2^23

/-- The condition for two sector counters to lead a command to the same blocks
and the same final status. -/
def SameTransfer (N L n : Nat) (c₁ c₂ : UInt32) : Prop :=
  (c₁ = 0 ↔ c₂ = 0) ∧
  (c₁.toNat % 2^23 = c₂.toNat % 2^23 ∨ (OffDisk N L n c₁ ∧ OffDisk N L n c₂))

theorem block_toNat (L : Nat) (c : UInt32) (i : Nat) :
    ((UInt32.ofNat L + c).toNat + i) % 2^23 = (L + c.toNat + i) % 2^23 := by
  simp only [UInt32.toNat_add, UInt32.toNat_ofNat', Nat.reducePow]
  omega

/-- Words whose `i`-th sector is all `v` and whose other sectors are all `w`. -/
def marked (n i : Nat) (v w : UInt16) : List UInt16 :=
  (List.range (256 * n)).map fun k => if k / 256 = i then v else w

theorem head?_marked {n i j : Nat} (hj : j < n) (v w : UInt16) :
    (leBytes (slice (marked n i v w) (256 * j) 256)).head? =
      some (lowByte (if j = i then v else w)) := by
  have hget : (marked n i v w)[256 * j]? = some (if j = i then v else w) := by
    rw [marked, List.getElem?_map, List.getElem?_range (by omega)]
    simp only [Option.map_some, show 256 * j / 256 = j by omega]
  have hhead : (slice (marked n i v w) (256 * j) 256)[0]? = some (if j = i then v else w) := by
    rw [getElem?_slice, if_pos (by decide), Nat.add_zero, hget]
  cases hs : slice (marked n i v w) (256 * j) 256 with
  | nil => rw [hs] at hhead; simp at hhead
  | cons x xs =>
    rw [hs] at hhead
    simp only [List.getElem?_cons_zero, Option.some.injEq] at hhead
    rw [leBytes_cons, List.head?_cons, hhead]

/-- Two commands that start on different blocks, one of them reaching the disk,
are told apart by some data. -/
theorem writtenAll_ne {f : List UInt8} {b b' : UInt32} {n i : Nat} (hlen : f.length = 512 * N)
    (hn : n ≤ 255) (hb : b.toNat % 2^23 ≠ b'.toNat % 2^23) (hi : i < n)
    (hon : (b.toNat + i) % 2^23 < N) :
    ∃ ws : List UInt16, ws.length = 256 * n ∧
      writtenAll N f b (Port.chunks n ws) ≠ writtenAll N f b' (Port.chunks n ws) := by
  -- sector `i` of the data starts with `v`, which neither the block it goes to nor
  -- any other sector of the data does
  let x := (sector f ((b.toNat + i) % 2^23)).head?
  let v : UInt16 := if x = some 0 then 1 else 0
  let w : UInt16 := if x = some 0 then 0 else 1
  have hx : some (lowByte v) ≠ x := by
    by_cases h : x = some 0
    · simp only [v, h, if_true]; decide
    · simp only [v, h, if_false]
      exact fun h' => h (h'.symm.trans (by decide))
  have hvw : lowByte v ≠ lowByte w := by
    by_cases h : x = some 0
    · simp only [v, w, h, if_true]; decide
    · simp only [v, w, h, if_false]; decide
  have hws : (marked n i v w).length = 256 * n := by simp [marked]
  have hcs := Port.length_of_mem_chunks hws
  have hshort : (Port.chunks n (marked n i v w)).length ≤ 2^23 := by
    rw [Port.length_chunks]; omega
  refine ⟨marked n i v w, hws, fun heq => ?_⟩
  have hleft : sector (writtenAll N f b (Port.chunks n (marked n i v w))) ((b.toNat + i) % 2^23) = _ :=
    sector_writtenAll_hit hlen hcs hshort hon (Port.getElem?_chunks _ hi) rfl
  rw [heq] at hleft
  -- from `b'` the block gets another sector of the data, or keeps what it held
  by_cases hhit : ∃ j, j < n ∧ (b'.toNat + j) % 2^23 = (b.toNat + i) % 2^23
  · obtain ⟨j, hj, hjb⟩ := hhit
    have hright := sector_writtenAll_hit (b := b') hlen hcs hshort hon (Port.getElem?_chunks _ hj) hjb
    have hji : j ≠ i := fun h => hb (by subst h; omega)
    have hheads := congrArg List.head? (hright.symm.trans hleft)
    rw [head?_marked hj, head?_marked hi, if_pos rfl, if_neg hji, Option.some.injEq] at hheads
    exact hvw hheads.symm
  · have hright := sector_writtenAll_miss (b := b') hlen hcs hon
      (fun j hj h => hhit ⟨j, by rwa [Port.length_chunks] at hj, h⟩)
    have hheads := congrArg List.head? (hright.symm.trans hleft)
    rw [head?_marked hi, if_pos rfl] at hheads
    exact hx hheads.symm

/-- Two counters write the same image for all data exactly when they lead to the same
blocks, or both off the disk. -/
theorem writtenAll_same_iff {f : List UInt8} {L n : Nat} (c₁ c₂ : UInt32) (hlen : f.length = 512 * N)
    (hn : n ≤ 255) :
    (∀ ws : List UInt16, ws.length = 256 * n →
      writtenAll N f (UInt32.ofNat L + c₁) (Port.chunks n ws) =
        writtenAll N f (UInt32.ofNat L + c₂) (Port.chunks n ws)) ↔
    c₁.toNat % 2^23 = c₂.toNat % 2^23 ∨ (OffDisk N L n c₁ ∧ OffDisk N L n c₂) := by
  have hblock := block_toNat L
  have e₁ := hblock c₁ 0
  have e₂ := hblock c₂ 0
  constructor
  · intro hsame
    by_contra hne
    rw [not_or] at hne
    have hb : (UInt32.ofNat L + c₁).toNat % 2^23 ≠ (UInt32.ofNat L + c₂).toNat % 2^23 := by omega
    -- one of the two commands reaches the disk; its data tell the runs apart
    rcases not_and_or.mp hne.2 with hoff | hoff
    · simp only [OffDisk, not_forall, Nat.not_le] at hoff
      obtain ⟨i, hi, hon⟩ := hoff
      obtain ⟨ws, hws, hdiff⟩ := writtenAll_ne hlen hn hb hi (by rwa [hblock])
      exact hdiff (hsame ws hws)
    · simp only [OffDisk, not_forall, Nat.not_le] at hoff
      obtain ⟨i, hi, hon⟩ := hoff
      obtain ⟨ws, hws, hdiff⟩ := writtenAll_ne hlen hn hb.symm hi (by rwa [hblock])
      exact hdiff (hsame ws hws).symm
  · rintro (hmod | ⟨hoff₁, hoff₂⟩) ws -
    · exact writtenAll_congr (by omega) f _
    · rw [writtenAll_off (fun j hj => ?_), writtenAll_off (fun j hj => ?_)]
      · rw [Port.length_chunks] at hj
        rw [hblock]; exact hoff₂ j hj
      · rw [Port.length_chunks] at hj
        rw [hblock]; exact hoff₁ j hj

/-- The status alone tells a used counter from an unused one. -/
theorem status_same_iff (c₁ c₂ : UInt32) :
    ((if c₁ = 0 then 0 else drqMask) = if c₂ = 0 then 0 else drqMask) ↔ (c₁ = 0 ↔ c₂ = 0) := by
  have hmask : drqMask ≠ 0 := by decide
  by_cases e₁ : c₁ = 0
  · by_cases e₂ : c₂ = 0
    · simp only [e₁, e₂]
    · simp only [e₁, e₂, if_true, if_false, iff_false, not_true, hmask.symm]
  · by_cases e₂ : c₂ = 0
    · simp only [e₁, e₂, if_true, if_false, iff_true, hmask]
    · simp only [e₁, e₂, if_false]

/-- The accesses of a whole write command: the register accesses before it, the
command byte and the data. -/
def writeAccesses (regs : List Access) (ws : List UInt16) : List Access :=
  regs ++ writeCmd :: ws.map (Access.writeWord brAddr)

/-- What a write command leaves from an idle disk: the status tells whether any
command before it moved a sector. -/
theorem Idle.write_outcome (wild : Nat → UInt16) {f : List UInt8} {d : HardDisk} (hd : Idle N f d)
    {regs : List Access} (hregs : ∀ a ∈ regs, a.quiet = true) {L n : Nat}
    (ht : Targets (run (step wild) d regs) L n) (hn1 : 1 ≤ n) {ws : List UInt16}
    (hws : ws.length = 256 * n) :
    (run (step wild) d (writeAccesses regs ws)).image =
      writtenAll N f (UInt32.ofNat L + d.currentSectorNumber) (Port.chunks n ws) ∧
    (run (step wild) d (writeAccesses regs ws)).STS =
      if d.currentSectorNumber = 0 then 0 else drqMask := by
  have hcmd : ∀ a ∈ ws.map (Access.writeWord brAddr), a.command = false := by
    apply command_of_writes
    intro a ha
    obtain ⟨w, -, rfl⟩ := List.mem_map.mp ha
    exact .inr ⟨w, rfl⟩
  obtain ⟨hidle, -, hsts⟩ := write_command wild hd hregs ht hws hcmd (data_writes ws)
  refine ⟨hidle.image_eq, (hsts hn1).trans ?_⟩
  have hzero : UInt32.ofNat n = d.currentSectorNumber + UInt32.ofNat n ↔
      d.currentSectorNumber = 0 := by
    rw [← UInt32.toNat_inj, ← UInt32.toNat_inj, UInt32.toNat_add]
    have hc := d.currentSectorNumber.toNat_lt
    simp only [UInt32.toNat_ofNat', Nat.reducePow, UInt32.reduceToNat]
    omega
  simp only [hzero]

/-! A disk that has completed one read. -/

/-- The accesses of a whole read command. -/
def readAccesses (L n : Nat) : List Access :=
  setup L n ++ readCmd :: List.replicate (256 * n) (.readWord brAddr)

theorem Completed.read_whole {d : HardDisk} (hd : Completed wild N d) {L n : Nat} (hL : L < 2^28)
    (hn : n ≤ 255) :
    Completed wild N (run (step wild) d (readAccesses L n)) := by
  rw [readAccesses, run_append]
  refine (hd.set_registers L n).read (fun a ha => .inr (List.eq_of_mem_replicate ha)) ?_
  rw [(targets_setup wild d hL hn).count, data_reads]

/-- A first command that reads one sector leaves the counter at 1 and the image
as it was. -/
theorem Idle.read_one (wild : Nat → UInt16) {f : List UInt8} {d : HardDisk} (hd : Idle N f d)
    (hfirst : d.currentSectorNumber = 0) {L : Nat} (hL : L < 2^28) :
    (run (step wild) d (readAccesses L 1)).currentSectorNumber = 1 ∧
    (run (step wild) d (readAccesses L 1)).image = f := by
  have hcmd : ∀ a ∈ List.replicate (256 * 1) (Access.readWord brAddr), a.command = false :=
    command_of_reads fun a ha => .inr (List.eq_of_mem_replicate ha)
  have hstart := port_start_read wild d setup_quiet (targets_setup wild d hL (n := 1) (by decide))
  rw [hfirst, (start_status hd.status).2] at hstart
  have hsplit : readAccesses L 1 =
      (setup L 1 ++ [readCmd]) ++ List.replicate (256 * 1) (.readWord brAddr) := by
    rw [readAccesses, List.append_assoc, List.singleton_append]
  have hport := port_run wild (run (step wild) d (setup L 1 ++ [readCmd])) hcmd
  rw [← run_append, ← hsplit, data_reads, Nat.mul_one] at hport
  obtain ⟨hrun, -⟩ := Port.read_sector wild (run (step wild) d (setup L 1 ++ [readCmd])).port
    (by rw [hstart]; exact hd.position) (by rw [hstart]; exact .inr (.inl rfl))
  rw [hrun, hstart, if_pos (show UInt32.ofNat 1 = 0 + 1 by decide)] at hport
  generalize run (step wild) d (readAccesses L 1) = e at hport ⊢
  have hdisk : e.diskManager = d.diskManager := congrArg Port.disk hport
  exact ⟨congrArg Port.moved hport, by rw [← hd.image_eq, image, image, hdisk]⟩

/-- A new disk of two sectors, and the same disk after a completed read of one of them. -/
def freshDisk : HardDisk :=
  new (Vector.replicate 512 0) (Vector.replicate 512 0) (UInt32.ofNat 2) (some twoSectors)

def usedDisk (L : Nat) : HardDisk := run (step fun _ => 0) freshDisk (readAccesses L 1)

theorem completed_freshDisk : Completed (fun _ => 0) 2 freshDisk := .powerOn _ _ length_twoSectors (by decide)

theorem idle_freshDisk : Idle 2 twoSectors freshDisk := new_idle _ _ length_twoSectors (by decide)

theorem completed_usedDisk {L : Nat} (hL : L < 2^28) : Completed (fun _ => 0) 2 (usedDisk L) :=
  completed_freshDisk.read_whole hL (by decide)

theorem usedDisk_spec {L : Nat} (hL : L < 2^28) :
    (usedDisk L).currentSectorNumber = 1 ∧ (usedDisk L).image = twoSectors :=
  idle_freshDisk.read_one (fun _ => 0) rfl hL

/-- From two states with the same image, reached by any completed commands, a
write command of `n` sectors at `L`, with the same register accesses before it,
leaves the same image and status for all data exactly when the sectors moved
before it lead it to the same blocks and to the same end. -/
theorem isolated_iff {d₁ d₂ : HardDisk} (h₁ : Completed wild N d₁) (h₂ : Completed wild N d₂)
    (himg : d₁.image = d₂.image) {regs : List Access} (hregs : ∀ a ∈ regs, a.quiet = true)
    {L n : Nat} (ht₁ : Targets (run (step wild) d₁ regs) L n)
    (ht₂ : Targets (run (step wild) d₂ regs) L n) (hn1 : 1 ≤ n) :
    (∀ ws : List UInt16, ws.length = 256 * n →
      (run (step wild) d₁ (writeAccesses regs ws)).image =
        (run (step wild) d₂ (writeAccesses regs ws)).image ∧
      (run (step wild) d₁ (writeAccesses regs ws)).STS =
        (run (step wild) d₂ (writeAccesses regs ws)).STS) ↔
    SameTransfer N L n d₁.currentSectorNumber d₂.currentSectorNumber := by
  obtain ⟨f, hf₁⟩ := h₁.idle
  obtain ⟨f', hf₂⟩ := h₂.idle
  obtain rfl : f = f' := by rw [← hf₁.image_eq, himg, hf₂.image_eq]
  have hn : n ≤ 255 := by rw [← ht₁.count]; exact Nat.le_of_lt_succ (UInt8.toNat_lt _)
  have hout₁ {ws : List UInt16} (hws : ws.length = 256 * n) := hf₁.write_outcome wild hregs ht₁ hn1 hws
  have hout₂ {ws : List UInt16} (hws : ws.length = 256 * n) := hf₂.write_outcome wild hregs ht₂ hn1 hws
  rw [SameTransfer, ← status_same_iff, ← writtenAll_same_iff _ _ hf₁.backed.length hn]
  constructor
  · intro h
    constructor
    · have hws : (List.replicate (256 * n) (0 : UInt16)).length = 256 * n := List.length_replicate
      rw [← (hout₁ hws).2, ← (hout₂ hws).2]
      exact (h _ hws).2
    · intro ws hws
      rw [← (hout₁ hws).1, ← (hout₂ hws).1]
      exact (h ws hws).1
  · rintro ⟨hstatus, hsame⟩ ws hws
    rw [(hout₁ hws).1, (hout₂ hws).1, (hout₁ hws).2, (hout₂ hws).2]
    exact ⟨hsame ws hws, hstatus⟩

/-- The disk after a read of its first sector and after one of its second. -/
theorem isolated_used :
    (usedDisk 0).image = (usedDisk 1).image ∧ ∀ ws : List UInt16, ws.length = 256 * 1 →
      (run (step fun _ => 0) (usedDisk 0) (writeAccesses (setup 0 1) ws)).image =
        (run (step fun _ => 0) (usedDisk 1) (writeAccesses (setup 0 1) ws)).image ∧
      (run (step fun _ => 0) (usedDisk 0) (writeAccesses (setup 0 1) ws)).STS =
        (run (step fun _ => 0) (usedDisk 1) (writeAccesses (setup 0 1) ws)).STS := by
  obtain ⟨hcounter₁, himage₁⟩ := usedDisk_spec (L := 0) (by decide)
  obtain ⟨hcounter₂, himage₂⟩ := usedDisk_spec (L := 1) (by decide)
  have himage := himage₁.trans himage₂.symm
  refine ⟨himage, (isolated_iff (completed_usedDisk (by decide)) (completed_usedDisk (by decide)) himage setup_quiet
    (targets_setup _ _ (by decide) (by decide)) (targets_setup _ _ (by decide) (by decide)) (by decide)).mpr ?_⟩
  rw [hcounter₁, hcounter₂]
  exact ⟨Iff.rfl, .inl rfl⟩

/-- After one completed read, the same write of sector 0 ends with another
status: the data request stays up. -/
theorem used_disk_differs :
    Completed (fun _ => 0) 2 freshDisk ∧ Completed (fun _ => 0) 2 (usedDisk 0) ∧
    freshDisk.image = (usedDisk 0).image ∧
    ¬ ∀ ws : List UInt16, ws.length = 256 * 1 →
      (run (step fun _ => 0) freshDisk (writeAccesses (setup 0 1) ws)).image =
        (run (step fun _ => 0) (usedDisk 0) (writeAccesses (setup 0 1) ws)).image ∧
      (run (step fun _ => 0) freshDisk (writeAccesses (setup 0 1) ws)).STS =
        (run (step fun _ => 0) (usedDisk 0) (writeAccesses (setup 0 1) ws)).STS := by
  have hidle := idle_freshDisk
  have hused := completed_usedDisk (L := 0) (by decide)
  obtain ⟨hcounter, himage⟩ := usedDisk_spec (L := 0) (by decide)
  refine ⟨completed_freshDisk, hused, hidle.image_eq.trans himage.symm, fun h => ?_⟩
  obtain ⟨f, hf⟩ := hused.idle
  have hws : (List.replicate (256 * 1) (7 : UInt16)).length = 256 * 1 := List.length_replicate
  have hsts := (h _ hws).2
  have htargets : ∀ d, Targets (run (step fun _ => 0) d (setup 0 1)) 0 1 :=
    fun d => targets_setup _ d (by decide) (by decide)
  rw [(hidle.write_outcome _ setup_quiet (htargets _) (by decide) hws).2,
    (hf.write_outcome _ setup_quiet (htargets _) (by decide) hws).2, hcounter] at hsts
  exact absurd hsts (by decide)

end HardDisk
end EndlessFault
