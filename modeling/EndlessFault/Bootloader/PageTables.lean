import EndlessFault.Bootloader.Bootloader
import EndlessFault.Lib.Paging
import Mathlib.Data.Nat.Bitwise

/- The page tables that `setup_page_tables` leaves. `Tables` lists what every
   entry holds in the end, for a memory of `pages` pages of 2 MiB: the entries
   written, those of which only the present bit is cleared, and all others, which
   keep what guest memory held before. -/
namespace EndlessFault.Bootloader
open Lib.Machine Lib.Words Lib.Paging BootMemory

/-! Entries. -/

theorem tableEntry_toNat {addr : UInt64} (h : addr.toNat % 2^12 = 0) :
    (tableEntry addr).toNat = addr.toNat + 7 := by
  obtain ⟨q, hq⟩ : ∃ q, addr.toNat = 2^12 * q := ⟨addr.toNat / 2^12, by omega⟩
  have hflags : (pde64Present ||| pde64Rw ||| pde64User : UInt64).toNat = 7 := rfl
  rw [tableEntry, UInt64.toNat_or, hflags, hq, Nat.or_comm]
  exact (Nat.two_pow_add_eq_or_of_lt (by decide) q).symm

theorem pageEntry_toNat {addr : UInt64} (h : addr.toNat % 2^21 = 0) :
    (pageEntry addr).toNat = addr.toNat + 0x87 := by
  obtain ⟨q, hq⟩ : ∃ q, addr.toNat = 2^21 * q := ⟨addr.toNat / 2^21, by omega⟩
  have hflags : (pde64Present ||| pde64Rw ||| pde64User ||| pde64Ps : UInt64).toNat = 0x87 := rfl
  rw [pageEntry, UInt64.toNat_or, hflags, hq, Nat.or_comm]
  exact (Nat.two_pow_add_eq_or_of_lt (by decide) q).symm

/-- A table entry is present, open to writes and user accesses, and no page. -/
theorem tableEntry_flags {addr : UInt64} (h : addr.toNat % 2^12 = 0) :
    present (tableEntry addr) = true ∧ writable (tableEntry addr) = true ∧
    user (tableEntry addr) = true := by
  simp only [present, writable, user, tableEntry_toNat h, Nat.testBit_eq_decide_div_mod_eq,
    decide_eq_true_eq]
  omega

theorem tableEntry_small {addr : UInt64} (h : addr.toNat % 2^12 = 0) : large (tableEntry addr) = false := by
  simp only [large, tableEntry_toNat h, Nat.testBit_eq_decide_div_mod_eq, decide_eq_false_iff_not]
  omega

theorem tableEntry_frame {addr : UInt64} (h : addr.toNat % 2^12 = 0) (hlt : addr.toNat < 2^52) :
    frame (tableEntry addr) = addr.toNat := by
  rw [frame, tableEntry_toNat h]
  omega

theorem pageEntry_flags {addr : UInt64} (h : addr.toNat % 2^21 = 0) :
    present (pageEntry addr) = true ∧ writable (pageEntry addr) = true ∧
    user (pageEntry addr) = true ∧ large (pageEntry addr) = true := by
  simp only [present, writable, user, large, pageEntry_toNat h, Nat.testBit_eq_decide_div_mod_eq,
    decide_eq_true_eq]
  omega

/-- A cleared entry is not present. -/
theorem present_clear (e : UInt64) : present (e &&& ~~~pde64Present) = false := by
  have hmask : (~~~pde64Present : UInt64).toNat.testBit 0 = false := by decide
  rw [present, UInt64.toNat_and, Nat.testBit_and, hmask, Bool.and_false]

/-! The loops. -/

theorem load_set {g : BootMemory} {table : UInt64} {index : Nat} {entry : UInt64} {a : Int}
    (ht : table.toNat % 8 = 0) (ha : a % 8 = 0) :
    load64 (g.set table index entry).memory a =
      if a = slot table index then entry else load64 g.memory a :=
  load64_store64_aligned g.memory (by unfold slot; omega) ha

/-- What the inner loop puts in entry `i` of a second-level table. -/
def lev2Entry (guestMemSize : UInt64) (iLev3 i : Nat) (old : UInt64) : UInt64 :=
  if iLev3 ≠ lastIndexLev3 guestMemSize ∨ i < nEntryLev2 guestMemSize then
    pageEntry ((UInt64.ofNat iLev3 <<< 30) + (UInt64.ofNat i <<< 21))
  else old &&& ~~~pde64Present

/-- Every round of the inner loop stores one entry. -/
theorem lev2Step_eq (guestMemSize : UInt64) (iLev3 : Nat) (pdAddr : UInt64) (g : BootMemory) (i : Nat) :
    lev2Step guestMemSize iLev3 pdAddr g i =
      g.set pdAddr i (lev2Entry guestMemSize iLev3 i (g.get pdAddr i)) := by
  unfold lev2Step lev2Entry
  split_ifs
  · rfl
  · rfl

/-- The inner loop goes over the table entry by entry and touches nothing else. -/
theorem load_lev2 (guestMemSize : UInt64) (iLev3 : Nat) {pdAddr : UInt64} (hpd : pdAddr.toNat % 8 = 0)
    (g : BootMemory) (n : Nat) {a : Int} (ha : a % 8 = 0) :
    load64 (run (lev2Step guestMemSize iLev3 pdAddr) g (List.range n)).memory a =
      if pdAddr.toNat ≤ a ∧ a < pdAddr.toNat + 8 * n then
        lev2Entry guestMemSize iLev3 ((a - pdAddr.toNat) / 8).toNat (load64 g.memory a)
      else load64 g.memory a := by
  induction n with
  | zero => rw [if_neg (by omega)]; rfl
  | succ n ih =>
    have hslot : slot pdAddr n = pdAddr.toNat + 8 * n := by unfold slot; omega
    rw [List.range_succ, run_append, run_cons, run_nil, lev2Step_eq, load_set hpd ha, BootMemory.get]
    by_cases hlast : a = slot pdAddr n
    · rw [if_pos hlast, ← hlast, ih, if_neg (by omega), if_pos (by omega),
        show ((a - pdAddr.toNat) / 8).toNat = n by omega]
    · rw [if_neg hlast, ih]
      by_cases hin : (pdAddr.toNat : Int) ≤ a ∧ a < pdAddr.toNat + 8 * n
      · rw [if_pos hin, if_pos (by omega)]
      · rw [if_neg hin, if_neg (by omega)]

/-! The tables in the end. -/

/-- Where the second-level table of the APIC goes. -/
def apicAddr (pages : Nat) : UInt64 := if pages = 512 then 0x60000 else 0x50000

/-- The addresses of the entries that `setup_page_tables` stores. -/
def Written (pages : Nat) (a : Int) : Prop :=
  a = slot pml4Addr 0 ∨ a = slot pdptAddr 0 ∨ (pages = 512 ∧ a = slot pdptAddr 1) ∨
  a = slot pdptAddr 3 ∨ (0x40000 ≤ a ∧ a < 0x41000) ∨ (pages = 512 ∧ 0x50000 ≤ a ∧ a < 0x51000) ∨
  a = slot (apicAddr pages) 502 ∨ a = slot (apicAddr pages) 503

/-- The entries in `m'` after the tables for `pages` pages were built in `m`. -/
structure Tables (pages : Nat) (m m' : Memory) : Prop where
  pml4 : load64 m' (slot pml4Addr 0) = tableEntry pdptAddr
  first : load64 m' (slot pdptAddr 0) = tableEntry 0x40000
  low : ∀ i, i < 512 → load64 m' (slot 0x40000 i) =
    if i < pages then pageEntry (UInt64.ofNat i <<< 21)
    else load64 m (slot 0x40000 i) &&& ~~~pde64Present
  second : pages = 512 → load64 m' (slot pdptAddr 1) = tableEntry 0x50000 ∧
    ∀ i, i < 512 → load64 m' (slot 0x50000 i) = load64 m (slot 0x50000 i) &&& ~~~pde64Present
  apic : load64 m' (slot pdptAddr 3) = tableEntry (apicAddr pages)
  apicLow : load64 m' (slot (apicAddr pages) 502) = pageEntry 0xfec00000
  apicHigh : load64 m' (slot (apicAddr pages) 503) = pageEntry 0xfee00000
  rest : ∀ a : Int, a % 8 = 0 → ¬ Written pages a → load64 m' a = load64 m a

theorem slot_pml4 (i : Nat) : slot pml4Addr i = 0x20000 + 8 * (i : Int) := rfl
theorem slot_pdpt (i : Nat) : slot pdptAddr i = 0x30000 + 8 * (i : Int) := rfl
theorem slot_40000 (i : Nat) : slot 0x40000 i = 0x40000 + 8 * (i : Int) := rfl
theorem slot_50000 (i : Nat) : slot 0x50000 i = 0x50000 + 8 * (i : Int) := rfl

/-- The four stores after the loop, at `pd`. -/
def apicStores (pd : UInt64) (g : BootMemory) : BootMemory :=
  (((g.set pdptAddr 3 (tableEntry pd)).set pd 502 (pageEntry 0xfec00000)).set pdptAddr 3
    (tableEntry pd)).set pd 503 (pageEntry 0xfee00000)

theorem load_apicStores {pd : UInt64} (hpd : pd.toNat % 8 = 0) (g : BootMemory) {a : Int}
    (ha : a % 8 = 0) : load64 (apicStores pd g).memory a =
      if a = slot pd 503 then pageEntry 0xfee00000
      else if a = slot pdptAddr 3 then tableEntry pd
      else if a = slot pd 502 then pageEntry 0xfec00000
      else load64 g.memory a := by
  have hpdpt : pdptAddr.toNat % 8 = 0 := by decide
  rw [apicStores, load_set hpd ha, load_set hpdpt ha, load_set hpd ha, load_set hpdpt ha]
  split_ifs <;> rfl

/-- Guest memory after the round of the outer loop for entry `i`, with its table at
`pd`. -/
def round (guestMemSize : UInt64) (i : Nat) (pd : UInt64) (g : BootMemory) : BootMemory :=
  run (lev2Step guestMemSize i pd) (g.set pdptAddr i (tableEntry pd)) (List.range 512)

theorem lev3Step_eq (guestMemSize : UInt64) (g : BootMemory) (pd : UInt64) (i : Nat) :
    lev3Step guestMemSize (g, pd) i = (round guestMemSize i pd g, pd + 0x10000) := by
  rw [lev3Step, round]

theorem load_round (guestMemSize : UInt64) (g : BootMemory) (pd : UInt64) {i : Nat} (hi : i < 512)
    (hpd : pd.toNat % 8 = 0) (hlow : 0x40000 ≤ pd.toNat) {a : Int} (ha : a % 8 = 0) :
    load64 (round guestMemSize i pd g).memory a =
      if pd.toNat ≤ a ∧ a < pd.toNat + 0x1000 then
        lev2Entry guestMemSize i ((a - pd.toNat) / 8).toNat (load64 g.memory a)
      else if a = slot pdptAddr i then tableEntry pd else load64 g.memory a := by
  have hset : load64 (g.set pdptAddr i (tableEntry pd)).memory a =
      if a = slot pdptAddr i then tableEntry pd else load64 g.memory a := load_set (by decide) ha
  have hslot := slot_pdpt i
  rw [round, load_lev2 _ _ hpd _ _ ha, hset]
  by_cases hin : (pd.toNat : Int) ≤ a ∧ a < pd.toNat + 0x1000
  · rw [if_pos hin, if_pos (by omega), if_neg (by omega)]
  · rw [if_neg hin, if_neg (by omega)]

theorem load_pml4 (g : BootMemory) {a : Int} (ha : a % 8 = 0) :
    load64 (g.set pml4Addr 0 (tableEntry pdptAddr)).memory a =
      if a = slot pml4Addr 0 then tableEntry pdptAddr else load64 g.memory a :=
  load_set (by decide) ha

/-- The first round, and the entry of the top table before it. -/
def firstRound (guestMemSize : UInt64) (g : BootMemory) : BootMemory :=
  round guestMemSize 0 0x40000 (g.set pml4Addr 0 (tableEntry pdptAddr))

theorem load_firstRound (guestMemSize : UInt64) (g : BootMemory) {a : Int} (ha : a % 8 = 0) :
    load64 (firstRound guestMemSize g).memory a =
      if 0x40000 ≤ a ∧ a < 0x41000 then
        lev2Entry guestMemSize 0 ((a - 0x40000) / 8).toNat (load64 g.memory a)
      else if a = slot pdptAddr 0 then tableEntry 0x40000
      else if a = slot pml4Addr 0 then tableEntry pdptAddr
      else load64 g.memory a := by
  have hround := load_round guestMemSize (g.set pml4Addr 0 (tableEntry pdptAddr)) 0x40000
    (i := 0) (by decide) (by decide) (by decide) ha
  have hpd : (((0x40000 : UInt64).toNat : Nat) : Int) = 0x40000 := rfl
  have hslot : slot pml4Addr 0 = 0x20000 := rfl
  rw [load_pml4 g ha, hpd] at hround
  rw [firstRound, hround]
  by_cases hin : (0x40000 : Int) ≤ a ∧ a < 0x41000
  · rw [if_pos hin, if_pos (by omega), if_neg (by omega)]
  · rw [if_neg hin, if_neg (by omega)]

section
variable {guestMemSize : UInt64} {pages : Nat}

/-- Below 1 GiB the outer loop runs once. -/
theorem setupPageTables_below (hsize : guestMemSize.toNat = pages * 2^21) (hpages : pages < 512)
    (sregs : KvmSregs) (g : BootMemory) :
    (setupPageTables guestMemSize sregs g).2 = apicStores 0x50000 (firstRound guestMemSize g) := by
  have hlast : lastIndexLev3 guestMemSize = 0 := by unfold lastIndexLev3; omega
  rw [setupPageTables, hlast, show List.range (0 + 1) = [0] from rfl, run_cons, run_nil, lev3Step_eq,
    apicStores, firstRound]
  dsimp only
  rw [show (0x40000 + 0x10000 : UInt64) = 0x50000 from rfl]

/-- At 1 GiB the second round is the last, and its table is empty. -/
theorem setupPageTables_full (hsize : guestMemSize.toNat = 512 * 2^21) (sregs : KvmSregs) (g : BootMemory) :
    (setupPageTables guestMemSize sregs g).2 = apicStores 0x60000
      (round guestMemSize 1 0x50000 (firstRound guestMemSize g)) := by
  have hlast : lastIndexLev3 guestMemSize = 1 := by unfold lastIndexLev3; omega
  rw [setupPageTables, hlast, show List.range (1 + 1) = [0, 1] from rfl, run_cons, run_cons, run_nil,
    lev3Step_eq, lev3Step_eq, apicStores, firstRound]
  dsimp only
  rw [show (0x40000 + 0x10000 : UInt64) = 0x50000 from rfl,
    show (0x50000 + 0x10000 : UInt64) = 0x60000 from rfl]

/-- The first table holds the pages of guest memory, whether it is the last table or
not. -/
theorem lev2Entry_first (hsize : guestMemSize.toNat = pages * 2^21) (hpages : pages ≤ 512) {i : Nat}
    (hi : i < 512) (old : UInt64) : lev2Entry guestMemSize 0 i old =
      if i < pages then pageEntry (UInt64.ofNat i <<< 21) else old &&& ~~~pde64Present := by
  have hvirt : (UInt64.ofNat 0 <<< 30) + (UInt64.ofNat i <<< 21) = UInt64.ofNat i <<< 21 :=
    UInt64.zero_add _
  have hcond : (0 ≠ lastIndexLev3 guestMemSize ∨ i < nEntryLev2 guestMemSize) ↔ i < pages := by
    unfold lastIndexLev3 nEntryLev2
    omega
  rw [lev2Entry, hvirt]
  exact if_congr hcond rfl rfl

theorem lev2Entry_second (hsize : guestMemSize.toNat = 512 * 2^21) (i : Nat) (old : UInt64) :
    lev2Entry guestMemSize 1 i old = old &&& ~~~pde64Present := by
  have hcond : ¬ (1 ≠ lastIndexLev3 guestMemSize ∨ i < nEntryLev2 guestMemSize) := by
    unfold lastIndexLev3 nEntryLev2
    omega
  rw [lev2Entry, if_neg hcond]

theorem load_below (hsize : guestMemSize.toNat = pages * 2^21) (hpages : pages < 512) (sregs : KvmSregs)
    (g : BootMemory) {a : Int} (ha : a % 8 = 0) :
    load64 (setupPageTables guestMemSize sregs g).2.memory a =
      if a = slot 0x50000 503 then pageEntry 0xfee00000
      else if a = slot pdptAddr 3 then tableEntry 0x50000
      else if a = slot 0x50000 502 then pageEntry 0xfec00000
      else load64 (firstRound guestMemSize g).memory a := by
  rw [setupPageTables_below hsize hpages, load_apicStores (by decide) _ ha]

theorem load_full (hsize : guestMemSize.toNat = 512 * 2^21) (sregs : KvmSregs)
    (g : BootMemory) {a : Int} (ha : a % 8 = 0) :
    load64 (setupPageTables guestMemSize sregs g).2.memory a =
      if a = slot 0x60000 503 then pageEntry 0xfee00000
      else if a = slot pdptAddr 3 then tableEntry 0x60000
      else if a = slot 0x60000 502 then pageEntry 0xfec00000
      else if 0x50000 ≤ a ∧ a < 0x51000 then load64 (firstRound guestMemSize g).memory a &&& ~~~pde64Present
      else if a = slot pdptAddr 1 then tableEntry 0x50000
      else load64 (firstRound guestMemSize g).memory a := by
  have hround := load_round guestMemSize (firstRound guestMemSize g) 0x50000 (i := 1)
    (by decide) (by decide) (by decide) ha
  rw [setupPageTables_full hsize, load_apicStores (by decide) _ ha, hround, lev2Entry_second hsize]
  rfl

theorem load_firstRound_low (hsize : guestMemSize.toNat = pages * 2^21) (hpages : pages ≤ 512)
    (g : BootMemory) {i : Nat} (hi : i < 512) :
    load64 (firstRound guestMemSize g).memory (slot 0x40000 i) =
      if i < pages then pageEntry (UInt64.ofNat i <<< 21)
      else load64 g.memory (slot 0x40000 i) &&& ~~~pde64Present := by
  have hslot := slot_40000 i
  have hindex : ((slot 0x40000 i - 0x40000) / 8).toNat = i := by omega
  rw [load_firstRound _ _ (by omega), if_pos (by omega), hindex, lev2Entry_first hsize hpages hi]

/-- The first round leaves the words outside its entries alone. -/
theorem load_firstRound_rest (g : BootMemory) {a : Int} (ha : a % 8 = 0) (htop : a ≠ slot pml4Addr 0)
    (hfirst : a ≠ slot pdptAddr 0) (hlow : ¬ (0x40000 ≤ a ∧ a < 0x41000)) :
    load64 (firstRound guestMemSize g).memory a = load64 g.memory a := by
  rw [load_firstRound _ _ ha, if_neg hlow, if_neg hfirst, if_neg htop]

theorem load_firstRound_top (g : BootMemory) :
    load64 (firstRound guestMemSize g).memory (slot pml4Addr 0) = tableEntry pdptAddr := by
  rw [load_firstRound _ _ (by decide), if_neg (by decide), if_neg (by decide), if_pos rfl]

theorem load_firstRound_first (g : BootMemory) :
    load64 (firstRound guestMemSize g).memory (slot pdptAddr 0) = tableEntry 0x40000 := by
  rw [load_firstRound _ _ (by decide), if_neg (by decide), if_pos rfl]

theorem tables_below (hsize : guestMemSize.toNat = pages * 2^21) (hpages : pages < 512)
    (sregs : KvmSregs) (g : BootMemory) :
    Tables pages g.memory (setupPageTables guestMemSize sregs g).2.memory := by
  have hapic : apicAddr pages = 0x50000 := if_neg (by omega)
  have hload {a : Int} (ha : a % 8 = 0) := load_below hsize hpages sregs g ha
  have h0 : slot pml4Addr 0 = 0x20000 := rfl
  have h1 : slot pdptAddr 0 = 0x30000 := rfl
  have h2 : slot pdptAddr 3 = 0x30018 := rfl
  have h3 : slot 0x50000 502 = 0x50fb0 := rfl
  have h4 : slot 0x50000 503 = 0x50fb8 := rfl
  -- the entries of the APIC are the only ones stored after the first round
  have hfirst {a : Int} (ha : a % 8 = 0) (hout : a ≠ slot pdptAddr 3 ∧ a ≠ slot 0x50000 502 ∧ a ≠ slot 0x50000 503) :
      load64 (setupPageTables guestMemSize sregs g).2.memory a =
        load64 (firstRound guestMemSize g).memory a := by
    rw [hload ha, if_neg hout.2.2, if_neg hout.1, if_neg hout.2.1]
  refine ⟨?_, ?_, ?_, ?_, ?_, ?_, ?_, ?_⟩
  · rw [hfirst (by decide) (by decide), load_firstRound_top]
  · rw [hfirst (by decide) (by decide), load_firstRound_first]
  · intro i hi
    have hslot := slot_40000 i
    rw [hfirst (by omega) (by omega), load_firstRound_low hsize (by omega) g hi]
  · omega
  · rw [hload (by omega), if_neg (by omega), if_pos rfl, hapic]
  · rw [hapic, hload (by omega), if_neg (by omega), if_neg (by omega), if_pos rfl]
  · rw [hapic, hload (by omega), if_pos rfl]
  · intro a ha hout
    rw [Written, hapic] at hout
    rw [hfirst ha (by omega), load_firstRound_rest g ha (by omega) (by omega) (by omega)]

theorem tables_full (hsize : guestMemSize.toNat = 512 * 2^21) (sregs : KvmSregs) (g : BootMemory) :
    Tables 512 g.memory (setupPageTables guestMemSize sregs g).2.memory := by
  have hapic : apicAddr 512 = 0x60000 := rfl
  have hload {a : Int} (ha : a % 8 = 0) := load_full hsize sregs g ha
  have h0 : slot pml4Addr 0 = 0x20000 := rfl
  have h1 : slot pdptAddr 0 = 0x30000 := rfl
  have h2 : slot pdptAddr 1 = 0x30008 := rfl
  have h3 : slot pdptAddr 3 = 0x30018 := rfl
  have h4 : slot 0x60000 502 = 0x60fb0 := rfl
  have h5 : slot 0x60000 503 = 0x60fb8 := rfl
  -- after the first round come the second and the entries of the APIC
  have hsecond {a : Int} (ha : a % 8 = 0) (hout : a ≠ slot pdptAddr 3 ∧ a ≠ slot 0x60000 502 ∧ a ≠ slot 0x60000 503) :
      load64 (setupPageTables guestMemSize sregs g).2.memory a =
        if 0x50000 ≤ a ∧ a < 0x51000 then load64 (firstRound guestMemSize g).memory a &&& ~~~pde64Present
        else if a = slot pdptAddr 1 then tableEntry 0x50000
        else load64 (firstRound guestMemSize g).memory a := by
    rw [hload ha, if_neg hout.2.2, if_neg hout.1, if_neg hout.2.1]
  refine ⟨?_, ?_, ?_, fun _ => ⟨?_, ?_⟩, ?_, ?_, ?_, ?_⟩
  · rw [hsecond (by decide) (by decide), if_neg (by decide), if_neg (by decide), load_firstRound_top]
  · rw [hsecond (by decide) (by decide), if_neg (by decide), if_neg (by decide), load_firstRound_first]
  · intro i hi
    have hslot := slot_40000 i
    rw [hsecond (by omega) (by omega), if_neg (by omega), if_neg (by omega),
      load_firstRound_low hsize (by omega) g hi]
  · rw [hsecond (by decide) (by decide), if_neg (by decide), if_pos rfl]
  · intro i hi
    have hslot := slot_50000 i
    rw [hsecond (by omega) (by omega), if_pos (by omega),
      load_firstRound_rest g (by omega) (by omega) (by omega) (by omega)]
  · rw [hload (by omega), if_neg (by omega), if_pos rfl, hapic]
  · rw [hapic, hload (by omega), if_neg (by omega), if_neg (by omega), if_pos rfl]
  · rw [hapic, hload (by omega), if_pos rfl]
  · intro a ha hout
    rw [Written, hapic] at hout
    rw [hsecond ha (by omega), if_neg (by omega), if_neg (by omega),
      load_firstRound_rest g ha (by omega) (by omega) (by omega)]

/-- What `setup_page_tables` leaves, whatever guest memory held. -/
theorem tables_spec (hsize : guestMemSize.toNat = pages * 2^21) (hpages : pages ≤ 512)
    (sregs : KvmSregs) (g : BootMemory) :
    Tables pages g.memory (setupPageTables guestMemSize sregs g).2.memory := by
  rcases Nat.lt_or_eq_of_le hpages with hlt | rfl
  · exact tables_below hsize hlt sregs g
  · exact tables_full hsize sregs g

end

end EndlessFault.Bootloader
