import EndlessFault.Frontend.Transfer

/- Whole commands: the five register writes that spell an address and a count,
   the command byte, and the data accesses of its sectors with any register
   accesses between them.

   `write_command` is the effect of a write command on any idle disk: its sectors
   go to its own address plus the number of sectors moved before. From a new disk
   that number is 0, so the data land where they were sent (`write_lands`). A
   read command fetches its first sector before it latches its address, so on a
   new disk the first sector delivered is sector 0 (`read_words`), and the
   requested ones are read exactly when that makes no difference
   (`read_delivers_iff`). -/
namespace EndlessFault
open Lib.Bytes Lib.Machine

namespace HardDisk
open DiskManager

variable (wild : Nat → UInt16)

/-! Starting a command. -/

theorem run_setup (d : HardDisk) (L n : Nat) : run (step wild) d (setup L n) = { d with
    SNR := UInt8.ofNat L
    CNL := UInt8.ofNat (L / 2^8)
    CNH := UInt8.ofNat (L / 2^16)
    HND := 0xE0 ||| UInt8.ofNat (L / 2^24)
    SCR := UInt8.ofNat n } := rfl

theorem hnd_toNat {k : Nat} (hk : k < 16) : (0xE0 ||| UInt8.ofNat k : UInt8).toNat = 0xE0 + k := by
  revert k
  decide

/-- The address the four registers spell, cut to 28 bits. -/
theorem computeLba_toNat (d : HardDisk) : d.computeLba.toNat =
    (d.HND.toNat * 2^24 + d.CNH.toNat * 2^16 + d.CNL.toNat * 2^8 + d.SNR.toNat) % 2^28 := by
  have h1 := d.HND.toNat_lt
  have h2 := d.CNH.toNat_lt
  have h3 := d.CNL.toNat_lt
  have h4 := d.SNR.toNat_lt
  have hmask : (0x0FFFFFFF : UInt32).toNat = 2^28 - 1 := rfl
  rw [computeLba, UInt32.toNat_and, hmask, Nat.and_two_pow_sub_one_eq_mod]
  simp only [UInt32.toNat_add, UInt32.toNat_shiftLeft, UInt8.toNat_toUInt32, UInt32.reduceToNat,
    Nat.shiftLeft_eq, Nat.reduceMod, Nat.reducePow]
  omega

/-- The registers of `d` spell the address `L` and the count `n`. -/
structure Targets (d : HardDisk) (L n : Nat) : Prop where
  lba : d.computeLba.toNat = L
  count : d.SCR.toNat = n

theorem Targets.latched {d : HardDisk} {L n : Nat} (h : Targets d L n) :
    d.computeLba = UInt32.ofNat L ∧ d.SCR.toUInt32 = UInt32.ofNat n := by
  rw [← h.lba, ← h.count]
  exact ⟨UInt32.ofNat_toNat.symm, (UInt32.ofNat_uInt8ToNat d.SCR).symm⟩

theorem targets_setup (d : HardDisk) {L n : Nat} (hL : L < 2^28) (hn : n ≤ 255) :
    Targets (run (step wild) d (setup L n)) L n := by
  constructor
  · rw [computeLba_toNat, run_setup wild]
    dsimp only
    rw [hnd_toNat (show L / 2^24 < 16 by omega)]
    simp only [UInt8.toNat_ofNat', Nat.reducePow]
    omega
  · rw [run_setup wild]
    exact UInt8.toNat_ofNat_of_lt' (show n < 256 by omega)

/-- A write command latches address and count and raises the data request. -/
theorem port_writeCmd (d : HardDisk) : (step wild d writeCmd).port = { d.port with
    lba := d.computeLba
    wanted := d.SCR.toUInt32
    status := (d.STS ||| drqMask) &&& ~~~busyMask } := rfl

/-- A read command fetches a sector first, at the address latched by the
command before it, and latches its own address and count afterwards. -/
theorem port_readCmd (d : HardDisk) : (step wild d readCmd).port = { d.port with
    buffer := (d.diskManager.read d.internalBuffer (d.lba + d.currentSectorNumber)).1
    moved := d.currentSectorNumber + 1
    lba := d.computeLba
    wanted := d.SCR.toUInt32
    status := (d.STS &&& ~~~busyMask) ||| drqMask } := by
  have hstep : step wild d readCmd =
      (let e := readFromBackend { d with CMD := 0x20, STS := (d.STS &&& ~~~busyMask) ||| drqMask }
       { e with lba := e.computeLba, sectorNumbersCmd := e.SCR.toUInt32 }) := rfl
  rw [hstep]
  simp only [readFromBackend, raiseInterrupt, setIRQline]
  split <;> rfl

/-- Any other command byte still latches address and count. -/
theorem port_otherCmd (d : HardDisk) {cmd : UInt8} (hr : cmd ≠ 0x20) (hw : cmd ≠ 0x30) :
    (step wild d (.writeByte cmdAddr cmd)).port = { d.port with
      lba := d.computeLba
      wanted := d.SCR.toUInt32 } := by
  have hstep : step wild d (.writeByte cmdAddr cmd) = processCmd { d with CMD := cmd } := rfl
  rw [hstep, processCmd]
  simp only [if_neg hr, if_neg hw]
  rfl

theorem quiet_spec {a : Access} (h : a.quiet = true) : a.command = false ∧ a.data = none := by
  cases a <;> simp_all [Access.quiet, Access.command, Access.data]

theorem setup_quiet {L n : Nat} : ∀ a ∈ setup L n, a.quiet = true := by
  intro a ha
  simp only [setup, List.mem_cons, List.not_mem_nil, or_false] at ha
  rcases ha with rfl | rfl | rfl | rfl | rfl <;> rfl

/-- Quiet accesses leave the port alone. -/
theorem port_quiet (d : HardDisk) {as : List Access} (h : ∀ a ∈ as, a.quiet = true) :
    (run (step wild) d as).port = d.port := by
  have hdata : as.filterMap Access.data = [] :=
    List.filterMap_eq_nil_iff.mpr fun a ha => (quiet_spec (h a ha)).2
  rw [port_run wild d fun a ha => (quiet_spec (h a ha)).1, hdata, run_nil]

/-- The port after the registers are set and a write command is issued. -/
theorem port_start_write (d : HardDisk) {regs : List Access} {L n : Nat}
    (hregs : ∀ a ∈ regs, a.quiet = true) (ht : Targets (run (step wild) d regs) L n) :
    (run (step wild) d (regs ++ [writeCmd])).port = { d.port with
      lba := UInt32.ofNat L
      wanted := UInt32.ofNat n
      status := (d.STS ||| drqMask) &&& ~~~busyMask } := by
  have hport := port_quiet wild d hregs
  have hstatus : (run (step wild) d regs).STS = d.STS := congrArg Port.status hport
  rw [run_append, run_cons, run_nil, port_writeCmd, hport, hstatus, ht.latched.1, ht.latched.2]

theorem port_start_read (d : HardDisk) {regs : List Access} {L n : Nat}
    (hregs : ∀ a ∈ regs, a.quiet = true) (ht : Targets (run (step wild) d regs) L n) :
    (run (step wild) d (regs ++ [readCmd])).port = { d.port with
      buffer := (d.diskManager.read d.internalBuffer (d.lba + d.currentSectorNumber)).1
      moved := d.currentSectorNumber + 1
      lba := UInt32.ofNat L
      wanted := UInt32.ofNat n
      status := (d.STS &&& ~~~busyMask) ||| drqMask } := by
  rw [run_append, run_cons, run_nil, port_readCmd, ht.latched.1, ht.latched.2]
  generalize hd' : run (step wild) d regs = d'
  have hport : d'.port = d.port := by rw [← hd', port_quiet wild d hregs]
  have hstatus : d'.STS = d.STS := congrArg Port.status hport
  have hdisk : d'.diskManager = d.diskManager := congrArg Port.disk hport
  have hbuffer : d'.internalBuffer = d.internalBuffer := congrArg Port.buffer hport
  have hlba : d'.lba = d.lba := congrArg Port.lba hport
  have hmoved : d'.currentSectorNumber = d.currentSectorNumber := congrArg Port.moved hport
  rw [hport, hstatus, hdisk, hbuffer, hlba, hmoved]

/-- The data of a command, with quiet accesses between them, start no command. -/
theorem command_of_writes {body : List Access}
    (h : ∀ a ∈ body, a.quiet = true ∨ ∃ w, a = .writeWord brAddr w) :
    ∀ a ∈ body, a.command = false := by
  intro a ha
  rcases h a ha with hq | ⟨w, rfl⟩
  · exact (quiet_spec hq).1
  · rfl

theorem command_of_reads {body : List Access}
    (h : ∀ a ∈ body, a.quiet = true ∨ a = .readWord brAddr) :
    ∀ a ∈ body, a.command = false := by
  intro a ha
  rcases h a ha with hq | rfl
  · exact (quiet_spec hq).1
  · rfl

theorem data_writes (ws : List UInt16) :
    (ws.map (Access.writeWord brAddr)).filterMap Access.data = ws.map .write := by
  rw [List.filterMap_map]
  exact congrFun List.filterMap_eq_map ws

theorem data_reads (m : Nat) :
    (List.replicate m (Access.readWord brAddr)).filterMap Access.data = List.replicate m .read := by
  rw [List.filterMap_replicate_of_some (b := .read) (by decide)]

/-! Write commands. -/

/-- Between commands: the cursor is at the start of the buffer, the status is
one of its four values and the disk is a file of `N` sectors. -/
structure Idle (N : Nat) (f : List UInt8) (d : HardDisk) : Prop where
  backed : Backed d.diskManager N f
  position : d.currentPosition = 0
  status : Port.StatusOk d.STS

theorem Idle.image_eq {N : Nat} {f : List UInt8} {d : HardDisk} (h : Idle N f d) : d.image = f := by
  rw [image, h.backed.file, Option.getD_some]

theorem new_idle (buffer fill : Block) {N : Nat} {f : List UInt8} (hlen : f.length = 512 * N)
    (hN : 512 * N < 2^32) : Idle N f (new buffer fill (UInt32.ofNat N) (some f)) :=
  ⟨new_backed fill hlen hN, rfl, .inl rfl⟩

theorem start_status {status : UInt8} (h : Port.StatusOk status) :
    (status ||| drqMask) &&& ~~~busyMask = drqMask ∧
    (status &&& ~~~busyMask) ||| drqMask = drqMask := by
  rcases h with rfl | rfl | rfl | rfl <;> decide

/-- A write command with the data of its `n` sectors, whatever quiet accesses
set its registers and lie between the words: it writes `n` sectors from its own
address plus the number of sectors every command before it moved. -/
theorem write_command {N L n : Nat} {f : List UInt8} {d : HardDisk} {regs body : List Access}
    {ws : List UInt16} (hd : Idle N f d) (hregs : ∀ a ∈ regs, a.quiet = true)
    (ht : Targets (run (step wild) d regs) L n) (hws : ws.length = 256 * n)
    (hbody : ∀ a ∈ body, a.command = false) (hdata : body.filterMap Access.data = ws.map .write) :
    let e := run (step wild) d (regs ++ writeCmd :: body)
    Idle N (writtenAll N f (UInt32.ofNat L + d.currentSectorNumber) (Port.chunks n ws)) e ∧
    e.currentSectorNumber = d.currentSectorNumber + UInt32.ofNat n ∧
    (0 < n → e.STS =
      if UInt32.ofNat n = d.currentSectorNumber + UInt32.ofNat n then 0 else drqMask) := by
  intro e
  have he : e.port = run Port.write (run (step wild) d (regs ++ [writeCmd])).port ws := by
    have hsplit : regs ++ writeCmd :: body = (regs ++ [writeCmd]) ++ body := by simp
    calc e.port = run Port.step (run (step wild) d (regs ++ [writeCmd])).port
          (ws.map .write) := by
          rw [← hdata, ← port_run wild _ hbody, ← run_append, ← hsplit]
      _ = run Port.write (run (step wild) d (regs ++ [writeCmd])).port ws :=
          List.foldl_map
  have hstart := port_start_write wild d hregs ht
  rw [(start_status hd.status).1] at hstart
  obtain ⟨hback, hpos, hmoved, hok, hlast⟩ := Port.write_sectors n
    (run (step wild) d (regs ++ [writeCmd])).port (N := N) (f := f) ws
    (by rw [hstart]; exact hd.backed) (by rw [hstart]; exact hd.position)
    (by rw [hstart]; exact .inr (.inl rfl)) hws
  rw [← he] at hback hpos hmoved hok hlast
  rw [hstart] at hback hmoved hlast
  exact ⟨⟨hback, hpos, hok⟩, hmoved, hlast⟩

/-- On a new disk the `n` sectors written are those from `L` on, each holding
its 256 words low byte first, and no other sector changes. -/
theorem write_lands {N L n : Nat} {img : List UInt8} (buffer fill : Block)
    (hlen : img.length = 512 * N) (hN : 512 * N < 2^32) (hn1 : 1 ≤ n) (hn : n ≤ 255)
    (hLn : L + n ≤ N) {ws : List UInt16} (hws : ws.length = 256 * n) (body : List Access)
    (hbody : ∀ a ∈ body, a.quiet = true ∨ ∃ w, a = .writeWord brAddr w)
    (hdata : body.filterMap Access.data = ws.map .write) :
    let e := run (step wild) (new buffer fill (UInt32.ofNat N) (some img))
      (setup L n ++ writeCmd :: body)
    e.image.length = img.length ∧
    (∀ i, i < n → sector e.image (L + i) = leBytes (slice ws (256 * i) 256)) ∧
    (∀ i, i < N → i < L ∨ L + n ≤ i → sector e.image i = sector img i) := by
  intro e
  have hidle := (write_command wild (new_idle buffer fill hlen hN) setup_quiet
    (targets_setup wild _ (show L < 2^28 by omega) hn) hws (command_of_writes hbody) hdata).1
  rw [show (new buffer fill (UInt32.ofNat N) (some img)).currentSectorNumber = 0 from rfl,
    UInt32.add_zero] at hidle
  rw [hidle.image_eq]
  have hcs := Port.length_of_mem_chunks hws
  -- the range is on the disk, so no block index wraps
  have hb : ∀ j, j ≤ n → ((UInt32.ofNat L).toNat + j) % 2^23 = (L + j) % 2^23 := by
    intro j _
    rw [UInt32.toNat_ofNat']
    omega
  refine ⟨by rw [length_writtenAll hlen hcs, hlen], fun i hi => ?_, fun i hi hout => ?_⟩
  · refine sector_writtenAll_hit hlen hcs (by simp; omega) (by omega) (Port.getElem?_chunks ws hi) ?_
    rw [hb i (by omega)]
    omega
  · refine sector_writtenAll_miss hlen hcs hi fun j hj => ?_
    rw [Port.length_chunks] at hj
    rw [hb j (by omega)]
    omega

/-- A disk of two sectors, the first all zeros and the second all ones. -/
def twoSectors : List UInt8 := List.replicate 512 0 ++ List.replicate 512 1

theorem length_twoSectors : twoSectors.length = 512 * 2 := by
  rw [twoSectors, List.length_append, List.length_replicate, List.length_replicate]

/-- The hypotheses of `write_lands` at the second sector of two, with the status
register polled and the sector count overwritten before the data. -/
theorem write_lands_one :
    let ws := List.replicate 256 (0x4241 : UInt16)
    let body := [Access.readByte stsAddr, .writeByte scrAddr 7] ++ ws.map (Access.writeWord brAddr)
    let e := run (step fun _ => 0) (new (Vector.replicate 512 0) (Vector.replicate 512 0) 2
      (some twoSectors)) (setup 1 1 ++ writeCmd :: body)
    sector e.image 1 = leBytes ws ∧ sector e.image 0 = sector twoSectors 0 := by
  intro ws body e
  have hws : ws.length = 256 * 1 := List.length_replicate
  have hdata : body.filterMap Access.data = ws.map .write := data_writes ws
  have hland := write_lands (fun _ => 0) (N := 2) (L := 1) (n := 1)
    (Vector.replicate 512 0) (Vector.replicate 512 0) length_twoSectors (by decide) (by decide) (by decide)
    (by decide) hws body
    (by
      intro a ha
      rcases List.mem_append.mp ha with ha | ha
      · left
        rcases List.mem_pair.mp ha with rfl | rfl <;> decide
      · right
        obtain ⟨w, -, rfl⟩ := List.mem_map.mp ha
        exact ⟨w, rfl⟩) hdata
  have hslice : slice ws (256 * 0) 256 = ws :=
    List.take_of_length_le (Nat.le_of_eq List.length_replicate)
  refine ⟨?_, hland.2.2 0 (by decide) (.inl (by decide))⟩
  rw [← hslice]
  exact hland.2.1 0 (by decide)

/-! Read commands. -/

/-- On a new disk, `256 * n` reads after a read command return the words of
sector 0 for the first sector and those of the requested ones after it: the
first fetch uses the address latched before the command, which is 0. -/
theorem read_words {N L n : Nat} {img : List UInt8} (buffer fill : Block)
    (hlen : img.length = 512 * N) (hN : 512 * N < 2^32) (hn1 : 1 ≤ n) (hn : n ≤ 255)
    (hLn : L + n ≤ N) (body : List Access) (hbody : ∀ a ∈ body, a.command = false)
    (hdata : body.filterMap Access.data = List.replicate (256 * n) .read) :
    let d := new buffer fill (UInt32.ofNat N) (some img)
    let as := setup L n ++ readCmd :: body
    (∀ j, j < 256 * n → (observe (step wild) (dataRead wild) d as)[j]? =
      some (wordAt (sector img (if j < 256 then 0 else L + j / 256)) (2 * (j % 256)))) ∧
    (run (step wild) d as).image = img := by
  intro d as
  have hidle := new_idle buffer fill hlen hN
  have hsplit : as = (setup L n ++ [readCmd]) ++ body := by simp [as]
  have hstart := port_start_read wild d setup_quiet
    (targets_setup wild d (show L < 2^28 by omega) hn)
  rw [(start_status hidle.status).2] at hstart
  -- nothing is latched yet: the first fetch is of block 0
  have hfirst := ((hidle.backed.read_spec buffer 0).1 (by simp; omega)).1
  obtain ⟨hobs, hdisk⟩ := Port.read_sectors wild (n - 1)
    (run (step wild) d (setup L n ++ [readCmd])).port (N := N) (f := img)
    (by rw [hstart]; exact hidle.backed) (by rw [hstart]; rfl)
    (by rw [hstart]; exact .inr (.inl rfl))
    (by
      rw [hstart]
      simp only [UInt32.toNat_ofNat', Nat.reducePow]
      rw [show (d.currentSectorNumber + 1).toNat = 1 from rfl]
      omega)
    (by rw [hstart]; simp only [UInt32.toNat_ofNat', Nat.reducePow]; omega)
  rw [Nat.sub_add_cancel hn1] at hobs hdisk
  constructor
  · intro j hj
    have hnone : observe (step wild) (dataRead wild) d (setup L n ++ [readCmd]) = [] := rfl
    rw [hsplit, observe_append, hnone, List.nil_append, words_run wild _ hbody, hdata, hobs,
      Port.getElem?_sectors _ hj, hstart]
    rcases Nat.lt_or_ge j 256 with hj0 | hj0
    · rw [if_pos hj0, show j / 256 = 0 by omega]
      exact congrArg (fun l => some (wordAt l (2 * (j % 256)))) hfirst
    · obtain ⟨k, hk⟩ : ∃ k, j / 256 = k + 1 := ⟨j / 256 - 1, by omega⟩
      have hsec : (UInt32.ofNat L).toNat + (d.currentSectorNumber + 1).toNat + k = L + (k + 1) := by
        rw [UInt32.toNat_ofNat', show (d.currentSectorNumber + 1).toNat = 1 from rfl]
        omega
      rw [if_neg (by omega), hk]
      simp only [Port.delivered]
      rw [hsec]
  · have hport : (run (step wild) d as).port.disk = d.diskManager := by
      rw [hsplit, run_append, port_run wild _ hbody, hdata, hdisk, hstart]
      rfl
    rw [← hidle.image_eq]
    exact congrArg (fun m : DiskManager => m.file.getD []) hport

/-- A read command on a new disk returns the requested sectors, and leaves the
image alone, exactly when the requested first sector holds what sector 0 does,
whatever byte registers are read between the words. -/
theorem read_delivers_iff {N L n : Nat} {img : List UInt8} (buffer fill : Block)
    (hlen : img.length = 512 * N) (hN : 512 * N < 2^32) (hn1 : 1 ≤ n) (hn : n ≤ 255)
    (hLn : L + n ≤ N) {body : List Access}
    (hbody : ∀ a ∈ body, (∃ addr, a = .readByte addr) ∨ a = .readWord brAddr)
    (hdata : body.filterMap Access.data = List.replicate (256 * n) .read) :
    let d := new buffer fill (UInt32.ofNat N) (some img)
    let as := setup L n ++ readCmd :: body
    ((∀ j, j < 256 * n → (observe (step wild) (dataRead wild) d as)[j]? =
      some (wordAt (sector img (L + j / 256)) (2 * (j % 256)))) ∧
      (run (step wild) d as).image = img) ↔
    sector img L = sector img 0 := by
  intro d as
  have hquiet : ∀ a ∈ body, a.command = false := by
    apply command_of_reads
    intro a ha
    exact (hbody a ha).imp_left fun ⟨addr, h⟩ => by rw [h]; rfl
  obtain ⟨hwords, himage⟩ := read_words wild buffer fill hlen hN hn1 hn hLn body hquiet hdata
  constructor
  · rintro ⟨hclaim, -⟩
    -- the first 256 words are those of both sectors
    apply eq_of_wordAt (n := 256) (length_slice (by omega)) (length_slice (by omega))
    intro j hj
    have hw := (hclaim j (by omega)).symm.trans (hwords j (by omega))
    rw [if_pos hj, show j / 256 = 0 by omega, Nat.mod_eq_of_lt hj, Option.some.injEq] at hw
    exact hw
  · intro hsame
    refine ⟨fun j hj => ?_, himage⟩
    rw [hwords j hj]
    rcases Nat.lt_or_ge j 256 with hj0 | hj0
    · rw [if_pos hj0, show j / 256 = 0 by omega, Nat.add_zero, hsame]
    · rw [if_neg (by omega)]

/-- Sector 0 itself is read back. -/
theorem read_delivers_zero :
    let d := new (Vector.replicate 512 0) (Vector.replicate 512 0) (UInt32.ofNat 1)
      (some (List.replicate 512 7))
    let as := setup 0 1 ++ readCmd :: List.replicate (256 * 1) (Access.readWord brAddr)
    (∀ j, j < 256 * 1 → (observe (step fun _ => 0) (dataRead fun _ => 0) d as)[j]? =
      some (wordAt (sector (List.replicate 512 7) (0 + j / 256)) (2 * (j % 256)))) ∧
    (run (step fun _ => 0) d as).image = List.replicate 512 7 :=
  (read_delivers_iff (fun _ => 0) (N := 1) (L := 0) (n := 1) (Vector.replicate 512 0)
    (Vector.replicate 512 0) List.length_replicate (by decide) (by decide) (by decide) (by decide)
    (fun _ ha => .inr (List.eq_of_mem_replicate ha)) (data_reads _)).mpr rfl

/-- Reading the second of two sectors returns the first. -/
theorem read_second_sector_wrong :
    let d := new (Vector.replicate 512 0) (Vector.replicate 512 0) (UInt32.ofNat 2) (some twoSectors)
    let as := setup 1 1 ++ readCmd :: List.replicate (256 * 1) (Access.readWord brAddr)
    ¬ ((∀ j, j < 256 * 1 → (observe (step fun _ => 0) (dataRead fun _ => 0) d as)[j]? =
        some (wordAt (sector twoSectors (1 + j / 256)) (2 * (j % 256)))) ∧
      (run (step fun _ => 0) d as).image = twoSectors) := by
  rintro d as ⟨hclaim, -⟩
  obtain ⟨hwords, -⟩ := read_words (fun _ => 0) (L := 1) (n := 1) (Vector.replicate 512 0)
    (Vector.replicate 512 0) length_twoSectors (by decide) (by decide) (by decide) (by decide)
    (List.replicate (256 * 1) (.readWord brAddr))
    (command_of_reads fun a ha => .inr (List.eq_of_mem_replicate ha)) (data_reads _)
  have hw := (hclaim 0 (by decide)).symm.trans (hwords 0 (by decide))
  rw [if_pos (by decide), Option.some.injEq, sector, sector, wordAt_slice (by decide),
    wordAt_slice (by decide)] at hw
  exact absurd hw (by decide +kernel)

end HardDisk
end EndlessFault
