import EndlessFault.Bootloader.AddressSpace

/- What `run_long_mode` leaves of guest memory. The descriptors, the page tables and
   the boot code all go to the low megabyte, one after the other.

   `Sound` ties guest memory to the entries stored so far: each still reads as it
   was stored, and the bytes outside them are as at the start. A store keeps it as
   long as it does not go over an earlier entry with another value (`Sound.set`).
   The boot code is loaded below 0x10000 and the tables lie from there to 0x61000,
   so the program loaded at 1 MiB and all the entries survive (`preparation_kept`). -/
namespace EndlessFault.Bootloader
open Lib.Machine Lib.Words BootMemory

structure Sound (m : Memory) (g : BootMemory) : Prop where
  aligned : ∀ p ∈ g.written, p.1 % 8 = 0
  holds : ∀ p ∈ g.written, load64 g.memory p.1 = p.2
  frame : ∀ x : Int, (∀ p ∈ g.written, ¬ (p.1 ≤ x ∧ x < p.1 + 8)) → g.memory x = m x

theorem Sound.set {m : Memory} {g : BootMemory} (h : Sound m g) {table : UInt64} {index : Nat}
    {entry : UInt64} (ht : table.toNat % 8 = 0)
    (hsame : ∀ p ∈ g.written, p.1 = slot table index → p.2 = entry) :
    Sound m (g.set table index entry) := by
  have hslot : slot table index % 8 = 0 := by unfold slot; omega
  refine ⟨?_, ?_, ?_⟩
  · intro p hp
    rcases List.mem_append.mp hp with hp | hp
    · exact h.aligned p hp
    · rw [List.mem_singleton.mp hp]
      exact hslot
  · intro p hp
    rcases List.mem_append.mp hp with hp | hp
    · rw [load_set ht (h.aligned p hp)]
      split_ifs with heq
      · exact (hsame p hp heq).symm
      · exact h.holds p hp
    · rw [List.mem_singleton.mp hp, load_set ht hslot, if_pos rfl]
  · intro x hx
    have hnew := hx (slot table index, entry) (List.mem_append_right _ (List.mem_singleton_self _))
    rw [← h.frame x fun p hp => hx p (List.mem_append_left _ hp)]
    exact store64_frame hnew

/-! The footprint of each part. -/

/-- `g'` is sound, and the entries stored in it since `g` are among `P`. -/
structure Adds (m : Memory) (g : BootMemory) (P : Int × UInt64 → Prop) (g' : BootMemory) : Prop where
  sound : Sound m g'
  new : ∀ p ∈ g'.written, p ∈ g.written ∨ P p

section
variable {m : Memory} {g g' : BootMemory} {P Q : Int × UInt64 → Prop}

theorem Adds.refl (h : Sound m g) : Adds m g (fun _ => False) g := ⟨h, fun _ hp => .inl hp⟩

theorem Adds.mono (h : Adds m g P g') (hPQ : ∀ p, P p → Q p) : Adds m g Q g' :=
  ⟨h.sound, fun p hp => (h.new p hp).imp_right (hPQ p)⟩

variable (hbelow : ∀ p ∈ g.written, p.1 < 0x20000)

include hbelow

/-- A store to a place of its own, or of what is there already. -/
theorem Adds.set (h : Adds m g P g') {table : UInt64} {index : Nat} {entry : UInt64}
    (ht : table.toNat % 8 = 0) (hlow : 0x20000 ≤ slot table index)
    (hsame : ∀ p, P p → p.1 = slot table index → p.2 = entry) :
    Adds m g (fun p => P p ∨ p = (slot table index, entry)) (g'.set table index entry) := by
  refine ⟨h.sound.set ht fun p hp heq => ?_, fun p hp => ?_⟩
  · obtain hp | hp := h.new p hp
    · have := hbelow p hp
      omega
    · exact hsame p hp heq
  · obtain hp | hp := List.mem_append.mp hp
    · exact (h.new p hp).imp_right .inl
    · exact .inr (.inr (List.mem_singleton.mp hp))

/-- The inner loop fills a table in which nothing was stored. -/
theorem Adds.lev2 (guestMemSize : UInt64) (iLev3 : Nat) {pd : UInt64} (hpd : pd.toNat % 8 = 0)
    (hlow : 0x40000 ≤ pd.toNat) (h : Adds m g P g') (n : Nat)
    (hP : ∀ p, P p → ¬ (pd.toNat ≤ p.1 ∧ p.1 < pd.toNat + 8 * n)) :
    Adds m g (fun p => P p ∨ (pd.toNat ≤ p.1 ∧ p.1 < pd.toNat + 8 * n))
      (run (lev2Step guestMemSize iLev3 pd) g' (List.range n)) := by
  induction n with
  | zero => exact h.mono fun p hp => .inl hp
  | succ n ih =>
    have hslot : slot pd n = pd.toNat + 8 * n := by unfold slot; omega
    have hfilled := ih fun p hp hin => hP p hp (by omega)
    rw [List.range_succ, run_append, run_cons, run_nil, lev2Step_eq]
    refine (hfilled.set hbelow hpd (by omega) ?_).mono ?_
    · rintro p (hp | hp) heq
      · exact absurd ⟨by omega, by omega⟩ (hP p hp)
      · omega
    · rintro p ((hp | hp) | rfl)
      · exact .inl hp
      · exact .inr (by omega)
      · exact .inr (by simp only [hslot]; omega)

/-- So does a whole round of the outer loop. -/
theorem Adds.round (guestMemSize : UInt64) {i : Nat} {pd : UInt64} (hpd : pd.toNat % 8 = 0)
    (hlow : 0x40000 ≤ pd.toNat) (hi : i < 512) (h : Adds m g P g')
    (hP : ∀ p, P p → p.1 ≠ slot pdptAddr i ∧ ¬ (pd.toNat ≤ p.1 ∧ p.1 < pd.toNat + 0x1000)) :
    Adds m g (fun p => P p ∨ p.1 = slot pdptAddr i ∨ (pd.toNat ≤ p.1 ∧ p.1 < pd.toNat + 0x1000))
      (round guestMemSize i pd g') := by
  have hslot := slot_pdpt i
  have hset : Adds m g _ (g'.set pdptAddr i (tableEntry pd)) :=
    h.set hbelow (by decide) (by omega) fun p hp heq => absurd heq (hP p hp).1
  refine (hset.lev2 hbelow guestMemSize i hpd hlow 512 ?_).mono ?_
  · rintro p (hp | rfl)
    · exact (hP p hp).2
    · simp only [hslot]
      omega
  · rintro p ((hp | rfl) | hp)
    · exact .inl hp
    · exact .inr (.inl rfl)
    · exact .inr (.inr hp)

/-- The two entries of the APIC. The entry for their table is stored twice, with the
same value. -/
theorem Adds.apicStores {pd : UInt64} (hpd : pd.toNat % 8 = 0) (hlow : 0x40000 ≤ pd.toNat)
    (h : Adds m g P g') (hP : ∀ p, P p → p.1 ≠ slot pdptAddr 3 ∧ p.1 < pd.toNat) :
    Adds m g (fun p => P p ∨ p.1 = slot pdptAddr 3 ∨ p.1 = slot pd 502 ∨ p.1 = slot pd 503)
      (apicStores pd g') := by
  have h3 : slot pdptAddr 3 = 0x30018 := rfl
  have h502 : slot pd 502 = pd.toNat + 4016 := rfl
  have h503 : slot pd 503 = pd.toNat + 4024 := rfl
  have htable := h.set hbelow (show pdptAddr.toNat % 8 = 0 by decide) (by omega)
    (fun p hp heq => absurd heq (hP p hp).1 : ∀ p, P p → p.1 = slot pdptAddr 3 → p.2 = tableEntry pd)
  refine (((htable.set hbelow hpd (by omega) ?_).set hbelow (by decide) (by omega) ?_).set hbelow hpd
    (by omega) ?_).mono ?_
  · rintro p (hp | rfl) heq
    · have := (hP p hp).2
      omega
    · simp only at heq
      omega
  · rintro p ((hp | rfl) | rfl) heq
    · exact absurd heq (hP p hp).1
    · rfl
    · simp only at heq
      omega
  · rintro p (((hp | rfl) | rfl) | rfl) heq
    · have := (hP p hp).2
      omega
    all_goals
      simp only at heq
      omega
  · rintro p ((((hp | rfl) | rfl) | rfl) | rfl)
    · exact .inl hp
    · exact .inr (.inl rfl)
    · exact .inr (.inr (.inl rfl))
    · exact .inr (.inl rfl)
    · exact .inr (.inr (.inr rfl))

/-- The top table and the first round. -/
theorem adds_firstRound (guestMemSize : UInt64) (h : Sound m g) :
    Adds m g (fun p => p.1 = 0x20000 ∨ p.1 = 0x30000 ∨ (0x40000 ≤ p.1 ∧ p.1 < 0x41000))
      (firstRound guestMemSize g) := by
  have h0 : slot pml4Addr 0 = 0x20000 := rfl
  have h1 : slot pdptAddr 0 = 0x30000 := rfl
  have hpd : (((0x40000 : UInt64).toNat : Nat) : Int) = 0x40000 := rfl
  have htop : Adds m g _ (g.set pml4Addr 0 (tableEntry pdptAddr)) :=
    (Adds.refl h).set hbelow (by decide) (by omega) fun _ hp => hp.elim
  have hround := htop.round hbelow guestMemSize (i := 0)
    (show (0x40000 : UInt64).toNat % 8 = 0 by decide) (by decide) (by decide) (by
      rintro p (hp | rfl)
      · exact hp.elim
      · simp only [h0, h1, hpd]
        omega)
  refine hround.mono ?_
  rintro p ((hp | rfl) | hp)
  · exact hp.elim
  · exact .inl h0
  · rw [hpd, h1] at hp
    omega

/-- The footprint of `setup_page_tables`, over what was stored below it. -/
theorem adds_tables {guestMemSize : UInt64} (hsize : Configurable guestMemSize) (sregs : KvmSregs)
    (h : Sound m g) :
    Adds m g (fun p => 0x20000 ≤ p.1 ∧ p.1 < 0x61000) (setupPageTables guestMemSize sregs g).2 := by
  obtain ⟨pages, -, hle, hpages⟩ := hsize.pages
  have h1 : slot pdptAddr 1 = 0x30008 := rfl
  have h3 : slot pdptAddr 3 = 0x30018 := rfl
  have hpd : (((0x50000 : UInt64).toNat : Nat) : Int) = 0x50000 := rfl
  have hfirst := adds_firstRound hbelow guestMemSize h
  rcases Nat.lt_or_eq_of_le hle with hlt | rfl
  · rw [setupPageTables_below hpages hlt]
    have h502 : slot 0x50000 502 = 0x50fb0 := rfl
    have h503 : slot 0x50000 503 = 0x50fb8 := rfl
    refine (hfirst.apicStores hbelow (by decide) (by decide) fun p hp => ?_).mono fun p hp => ?_
    · rw [hpd]
      omega
    · omega
  · rw [setupPageTables_full hpages]
    have hpd' : (((0x60000 : UInt64).toNat : Nat) : Int) = 0x60000 := rfl
    have h502 : slot 0x60000 502 = 0x60fb0 := rfl
    have h503 : slot 0x60000 503 = 0x60fb8 := rfl
    have hsecond := hfirst.round hbelow guestMemSize (i := 1)
      (show (0x50000 : UInt64).toNat % 8 = 0 by decide) (by decide) (by decide) fun p hp => by
        rw [hpd]
        omega
    refine (hsecond.apicStores hbelow (by decide) (by decide) fun p hp => ?_).mono fun p hp => ?_
    · rw [hpd] at hp
      rw [hpd']
      omega
    · rw [hpd] at hp
      omega

end

/-- The words below the tables are not touched. -/
theorem load_below_tables {guestMemSize : UInt64} (hsize : Configurable guestMemSize) (sregs : KvmSregs)
    (g : BootMemory) {a : Int} (ha : a % 8 = 0) (hlt : a < 0x20000) :
    load64 (setupPageTables guestMemSize sregs g).2.memory a = load64 g.memory a := by
  obtain ⟨pages, -, hle, hpages⟩ := hsize.pages
  have h0 : pml4Addr.toNat = 0x20000 := rfl
  have h1 : pdptAddr.toNat = 0x30000 := rfl
  apply (tables_spec hpages hle sregs g).rest a ha
  unfold Written slot
  rcases apicAddr_cases pages with hapic | hapic
  · rw [hapic]
    simp only [UInt64.reduceToNat]
    omega
  · rw [hapic]
    simp only [UInt64.reduceToNat]
    omega

/-- The descriptors, over memory in which nothing was stored. -/
theorem sound_protectedMode (sregs : KvmSregs) (m : Memory) :
    Sound m (setupProtectedMode sregs ⟨m, []⟩).2 ∧
    (setupProtectedMode sregs ⟨m, []⟩).2.written =
      [(0x10008, segmentDescriptor codeSegment), (0x10010, segmentDescriptor dataSegment)] := by
  have hstart : Sound m ⟨m, []⟩ :=
    ⟨fun _ hp => absurd hp List.not_mem_nil, fun _ hp => absurd hp List.not_mem_nil, fun _ _ => rfl⟩
  have hcode : Sound m (fillSegmentDescriptor 0x10000 codeSegment ⟨m, []⟩) :=
    hstart.set (by decide) fun _ hp => absurd hp List.not_mem_nil
  refine ⟨hcode.set (by decide) ?_, rfl⟩
  intro p hp heq
  rw [List.mem_singleton.mp hp] at heq
  exact absurd heq (by decide)

theorem protectedMode_between (sregs : KvmSregs) (m : Memory) :
    ∀ p ∈ (setupProtectedMode sregs ⟨m, []⟩).2.written, 0x10000 ≤ p.1 ∧ p.1 < 0x20000 := by
  intro p hp
  rw [(sound_protectedMode sregs m).2] at hp
  simp only [List.mem_cons, List.not_mem_nil, or_false] at hp
  rcases hp with rfl | rfl <;> decide

/-! The boot code. -/

section
variable {exe : Elf.Eseguibile} (hexe : exe.formato = Elf.elf32) (oltre : Nat → UInt8)

include hexe

/-- The fields of a 32-bit program header. -/
theorem segmenti_lt {ph : Elf.Phdr} (hph : ph ∈ exe.segmenti oltre) :
    ph.pOffset.toNat < 2^32 ∧ ph.pVaddr.toNat < 2^32 ∧ ph.pFilesz.toNat < 2^32 ∧
    ph.pMemsz.toNat < 2^32 := by
  have hfield : ∀ (byte : Nat → UInt8) (off : Nat),
      (UInt64.ofNat (Elf.campo byte off exe.formato.parola)).toNat < 2^32 := by
    intro byte off
    have hlt := Lib.Bytes.leNat_lt ((List.range exe.formato.parola).map fun i => byte (off + i))
    rw [List.length_map, List.length_range, hexe] at hlt
    rw [hexe]
    exact Nat.lt_of_le_of_lt (Nat.mod_le _ _) hlt
  obtain ⟨i, -, rfl⟩ := List.mem_map.mp (List.mem_filter.mp hph).1
  exact ⟨hfield _ _, hfield _ _, hfield _ _, hfield _ _⟩

end

/-- Loading the boot code succeeds and stores below its limit. -/
theorem bootCode_below {interpreti : List Elf.Formato} (hint : Elf.Registrati interpreti)
    (oltre : Nat → UInt8) {image : List UInt8} {exe : Elf.Eseguibile}
    (h : Elf.elf32.interpreta image = .ok (some exe))
    (hfilesz : ∀ ph ∈ exe.segmenti oltre, ph.pFilesz ≤ ph.pMemsz) :
    (Elf.estraiSegmento interpreti oltre image 0x10000).ritorno = .ok exe.h.eEntry ∧
    ∀ s ∈ (Elf.estraiSegmento interpreti oltre image 0x10000).stores, s.offset < 0x10000 := by
  have hexe := (Elf.interpreta_ok h).2.1
  have hscegli := Elf.scegli_ok (.inl rfl) hint h
  have hseek : ∀ ph ∈ exe.segmenti oltre, Elf.fseek ph.pOffset = true := by
    intro ph hph
    have hlt := (segmenti_lt hexe oltre hph).1
    rw [Elf.fseek, decide_eq_true_eq]
    omega
  constructor
  · rw [Elf.estraiSegmento, hscegli]
    simp only [(Elf.carica_none_iff image 0x10000 _).mpr fun ph hph _ => hseek ph hph]
  · intro s hs
    rw [Elf.stores_eq interpreti oltre 0x10000 hscegli] at hs
    obtain ⟨ph, hph, hs⟩ := List.mem_flatMap.mp hs
    refine (Elf.storeSegmento_inside_iff image (Elf.check_of_mem_daCopiare hph)).mpr ?_ s hs
    have hmem := Elf.mem_of_mem_daCopiare hph
    obtain ⟨-, hva, hfi, hme⟩ := segmenti_lt hexe oltre hmem
    have hle := UInt64.le_iff_toNat_le.mp (hfilesz ph hmem)
    -- fields of 32 bits: the check does not wrap
    have hend := UInt64.le_iff_toNat_le.mp (Elf.check_of_mem_daCopiare hph)
    rw [UInt64.toNat_add] at hend
    rw [Elf.Contenuto]
    omega

/-- Stores below its limit leave the rest of memory alone. -/
theorem bootCode_frame {stores : List Elf.Store} (hstores : ∀ s ∈ stores, s.offset < 0x10000) (m : Memory)
    {x : Int} (hx : 0x10000 ≤ x) : Elf.applica stores m x = m x := by
  apply Elf.applica_frame
  intro s hs
  have hlt : s.offset.toNat < 0x10000 := UInt64.lt_iff_toNat_lt.mp (hstores s hs)
  omega

theorem runLongMode_ok {b : Bootloader} {interpreti : List Elf.Formato} {oltre : Nat → UInt8}
    {image : List UInt8} {entry : UInt64}
    (h : (Elf.estraiSegmento interpreti oltre image 0x10000).ritorno = .ok entry) (sregs : KvmSregs)
    (memory : Memory) :
    let s := setupProtectedMode sregs ⟨memory, []⟩
    let t := setupPageTables b.guestMemSize s.1 s.2
    ∃ r, runLongMode b interpreti oltre image sregs memory = .ok r ∧
      r.boot.memory = Elf.applica (Elf.estraiSegmento interpreti oltre image 0x10000).stores t.2.memory := by
  intro s t
  refine ⟨⟨t.1, ⟨entry, b.entryPoint, 2⟩, ⟨Elf.applica (Elf.estraiSegmento interpreti oltre image
    0x10000).stores t.2.memory, t.2.written⟩⟩, ?_, rfl⟩
  rw [runLongMode]
  simp only [h]
  rfl

/-- After `run_long_mode` the program at 1 MiB and above is untouched, and every
descriptor and every page-table entry still reads as it was stored. -/
theorem preparation_kept {guestMemSize : UInt64} (hsize : Configurable guestMemSize) (entryPoint : UInt64)
    {interpreti : List Elf.Formato} (hint : Elf.Registrati interpreti) (oltre : Nat → UInt8)
    {image : List UInt8} {exe : Elf.Eseguibile} (h : Elf.elf32.interpreta image = .ok (some exe))
    (hfilesz : ∀ ph ∈ exe.segmenti oltre, ph.pFilesz ≤ ph.pMemsz) (sregs : KvmSregs) (memory : Memory) :
    let s := setupProtectedMode sregs ⟨memory, []⟩
    ∃ r, runLongMode ⟨guestMemSize, entryPoint⟩ interpreti oltre image sregs memory = .ok r ∧
      (∀ a : Int, 0x100000 ≤ a → r.boot.memory a = memory a) ∧
      load64 r.boot.memory 0x10008 = segmentDescriptor codeSegment ∧
      load64 r.boot.memory 0x10010 = segmentDescriptor dataSegment ∧
      ∀ p ∈ (setupPageTables guestMemSize s.1 s.2).2.written, load64 r.boot.memory p.1 = p.2 := by
  intro s
  obtain ⟨hritorno, hstores⟩ := bootCode_below hint oltre h hfilesz
  obtain ⟨hgdt, hgdtw⟩ := sound_protectedMode sregs memory
  have hgdta : ∀ p ∈ s.2.written, 0x10000 ≤ p.1 ∧ p.1 < 0x20000 := protectedMode_between sregs memory
  obtain ⟨hsound, hwritten⟩ := adds_tables (fun p hp => (hgdta p hp).2) hsize s.1 hgdt
  have hentries : ∀ p ∈ (setupPageTables guestMemSize s.1 s.2).2.written,
      0x10000 ≤ p.1 ∧ p.1 < 0x61000 := by
    intro p hp
    rcases hwritten p hp with hp | hp
    · have := hgdta p hp
      omega
    · omega
  obtain ⟨r, hr, hmemory⟩ := runLongMode_ok (b := ⟨guestMemSize, entryPoint⟩) hritorno sregs memory
  have hkept : ∀ a : Int, 0x10000 ≤ a →
      load64 r.boot.memory a = load64 (setupPageTables guestMemSize s.1 s.2).2.memory a := by
    intro a ha
    rw [hmemory]
    apply load64_congr
    intro x hlow _
    exact bootCode_frame hstores _ (by omega)
  have hdescriptor : ∀ p ∈ s.2.written, load64 r.boot.memory p.1 = p.2 := by
    intro p hp
    obtain ⟨hlow, hhigh⟩ := hgdta p hp
    rw [hkept _ hlow, ← hgdt.holds p hp]
    exact load_below_tables hsize s.1 s.2 (hgdt.aligned p hp) hhigh
  refine ⟨r, hr, ?_, ?_, ?_, ?_⟩
  · intro a ha
    rw [hmemory, bootCode_frame hstores _ (by omega)]
    apply hsound.frame
    intro p hp
    have := hentries p hp
    omega
  · exact hdescriptor (0x10008, segmentDescriptor codeSegment) (by rw [hgdtw]; simp)
  · exact hdescriptor (0x10010, segmentDescriptor dataSegment) (by rw [hgdtw]; simp)
  · intro p hp
    rw [hkept _ (hentries p hp).1]
    exact hsound.holds p hp

/-- Boot code of four bytes that ends at 0x10000. -/
def bootCode : List UInt8 :=
  [0x7f, 0x45, 0x4c, 0x46, 1, 1, 1] ++ List.replicate 9 0 ++ [2, 0, 3, 0, 1, 0, 0, 0] ++
  [0xfc, 0xff, 0, 0] ++ [52, 0, 0, 0] ++ List.replicate 8 0 ++ [52, 0, 32, 0, 1, 0, 0, 0, 0, 0, 0, 0] ++
  [1, 0, 0, 0] ++ List.replicate 4 0 ++ [0xfc, 0xff, 0, 0] ++ List.replicate 4 0 ++ [4, 0, 0, 0] ++
  [4, 0, 0, 0] ++ List.replicate 8 0

theorem preparation_kept_bootCode :
    ∃ r, runLongMode ⟨0x40000000, 0x100000⟩ [Elf.elf32, Elf.elf64] (fun _ => 0) bootCode default
        (fun _ => 0xAA) = .ok r ∧
      r.boot.memory 0x100000 = 0xAA ∧
      load64 r.boot.memory 0x10008 = segmentDescriptor codeSegment := by
  have haccept : Elf.elf32.interpreta bootCode = .ok (some
      { formato := Elf.elf32
        h := Elf.elf32.leggiEhdr bootCode
        segBuf := Lib.Bytes.slice bootCode 52 32 }) := by
    decide +kernel
  have hsize : Configurable 0x40000000 := ⟨1023, by decide⟩
  obtain ⟨r, hr, hprogram, hcode, -⟩ := preparation_kept hsize 0x100000 (.inl rfl)
    (fun _ => 0) haccept (by decide +kernel) default (fun _ => 0xAA)
  exact ⟨r, hr, hprogram 0x100000 (by decide), hcode⟩

end EndlessFault.Bootloader
