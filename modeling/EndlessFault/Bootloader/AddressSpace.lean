import EndlessFault.Bootloader.PageTables

/- The address space that the guest starts in: the four-level walk over the tables
   of `setup_page_tables`.

   1. Guest memory and the two pages of the APIC are mapped to themselves
      (`identity_map`).
   2. Everything else is unmapped exactly when none of the entries that the
      function leaves as it found them leads to a page (`unmapped_iff`). Guest
      memory is not cleared before, so these hold whatever it held. -/
namespace EndlessFault.Bootloader
open Lib.Machine Lib.Words Lib.Paging BootMemory

/-- The entry of a table in guest memory, at a guest physical address. -/
def tableWord (m : Memory) (a : Nat) : UInt64 := load64 m a

/-- The translation of a virtual address by the tables in guest memory. -/
def translate (m : Memory) (cr3 : UInt64) (v : UInt64) : Option Translation :=
  walk (tableWord m) cr3 v.toNat

/-- The sizes of guest memory that `main` can configure. -/
def Configurable (guestMemSize : UInt64) : Prop :=
  ∃ memSize : UInt32, guestMemSize = (guestPhysicalMemorySize memSize).toUInt64

theorem Configurable.pages {guestMemSize : UInt64} (h : Configurable guestMemSize) :
    ∃ pages, 4 ≤ pages ∧ pages ≤ 512 ∧ guestMemSize.toNat = pages * 2^21 := by
  obtain ⟨memSize, rfl⟩ := h
  obtain ⟨pages, hge, hle, hsize⟩ := guestPhysicalMemorySize_pages memSize
  exact ⟨pages, hge, hle, by rw [UInt32.toNat_toUInt64, hsize]⟩

/-! The walk through the tables. -/

theorem walk_top (m : Memory) (v : Nat) : walk (tableWord m) pml4Addr v =
    walkEntry (tableWord m) v 3 (load64 m (slot pml4Addr (index 3 v))) true true := rfl

section
variable {pages : Nat} {m m' : Memory} (h : Tables pages m m') {v : Nat}

include h

/-- Below 2^39 the walk goes through the first entry of the top table. -/
theorem walk_low (hv : v < 2^39) : walk (tableWord m') pml4Addr v =
    walkEntry (tableWord m') v 2 (load64 m' (slot pdptAddr (index 2 v))) true true := by
  have hindex : index 3 v = 0 := by unfold index span; omega
  have hentry : tableWord m' (frame pml4Addr + 8 * index 3 v) = tableEntry pdptAddr := by
    rw [hindex]
    exact h.pml4
  obtain ⟨hp, hw, hu⟩ := tableEntry_flags (show pdptAddr.toNat % 2^12 = 0 by decide)
  rw [walk, hentry, walkEntry_table hp rfl, hw, hu, tableEntry_frame (by decide) (by decide)]
  rfl

/-- In the third-level table, the walk goes on in the table the entry names. -/
theorem walk_directory (pd : UInt64) (hv : v < 2^39) (hpd : pd.toNat % 2^12 = 0) (hlt : pd.toNat < 2^52)
    (hentry : load64 m' (slot pdptAddr (index 2 v)) = tableEntry pd) :
    walk (tableWord m') pml4Addr v =
      walkEntry (tableWord m') v 1 (load64 m' (slot pd (index 1 v))) true true := by
  obtain ⟨hp, hw, hu⟩ := tableEntry_flags hpd
  have hsmall : isLeaf 2 (tableEntry pd) = false := by rw [isLeaf, tableEntry_small hpd]; rfl
  rw [walk_low h hv, hentry, walkEntry_table hp hsmall, hw, hu, tableEntry_frame hpd hlt]
  rfl

end

theorem walkEntry_page {m : Memory} {addr : UInt64} {v : Nat} (haddr : addr.toNat % 2^21 = 0)
    (hlt : addr.toNat < 2^51) : walkEntry (tableWord m) v 1 (pageEntry addr) true true =
      some ⟨addr.toNat + v % 2^21, true, true⟩ := by
  obtain ⟨hp, hw, hu, hl⟩ := pageEntry_flags haddr
  have hleaf : isLeaf 1 (pageEntry addr) = true := by rw [isLeaf, hl]; rfl
  have hphys : (addr.toNat + 0x87) % 2^52 / span 1 * span 1 = addr.toNat := by unfold span; omega
  rw [walkEntry_leaf hp hleaf, hw, hu, pageEntry_toNat haddr, hphys]
  rfl

theorem toNat_page {i : Nat} (hi : i < 512) : (UInt64.ofNat i <<< 21).toNat = i * 2^21 := by
  have hof : (UInt64.ofNat i).toNat = i := UInt64.toNat_ofNat_of_lt' (Nat.lt_trans hi (by decide))
  rw [UInt64.toNat_shiftLeft, hof, show (21 : UInt64).toNat % 64 = 21 from rfl, Nat.shiftLeft_eq]
  omega

theorem apicAddr_cases (pages : Nat) : apicAddr pages = 0x50000 ∨ apicAddr pages = 0x60000 := by
  unfold apicAddr
  split_ifs
  · exact .inr rfl
  · exact .inl rfl

section
variable {pages : Nat} {m m' : Memory} (h : Tables pages m m') {v : Nat}

include h

theorem walk_memory (hv : v < 2^30) : walk (tableWord m') pml4Addr v =
    walkEntry (tableWord m') v 1 (load64 m' (slot 0x40000 (v / 2^21))) true true := by
  have hindex2 : index 2 v = 0 := by unfold index span; omega
  have hindex1 : index 1 v = v / 2^21 := by unfold index span; omega
  rw [walk_directory h 0x40000 (by omega) (by decide) (by decide) (by rw [hindex2, h.first]),
    hindex1]

theorem walk_apic (hlow : 0xc0000000 ≤ v) (hhigh : v < 0x100000000) : walk (tableWord m') pml4Addr v =
    walkEntry (tableWord m') v 1 (load64 m' (slot (apicAddr pages) (index 1 v))) true true := by
  have hindex2 : index 2 v = 3 := by unfold index span; omega
  have haligned : (apicAddr pages).toNat % 2^12 = 0 ∧ (apicAddr pages).toNat < 2^52 := by
    rcases apicAddr_cases pages with ha | ha <;> rw [ha] <;> decide
  rw [walk_directory h _ (by omega) haligned.1 haligned.2 (by rw [hindex2, h.apic])]

/-- Both ranges are mapped to themselves. -/
theorem walk_identity (hpages : pages ≤ 512)
    (hv : v < pages * 2^21 ∨ (0xfec00000 ≤ v ∧ v < 0xff000000)) :
    walk (tableWord m') pml4Addr v = some ⟨v, true, true⟩ := by
  rcases hv with hv | hv
  · have hpage := toNat_page (show v / 2^21 < 512 by omega)
    rw [walk_memory h (by omega), h.low _ (by omega), if_pos (by omega),
      walkEntry_page (by omega) (by omega), hpage, Nat.div_add_mod']
  · rw [walk_apic h (by omega) (by omega)]
    by_cases hfirst : v < 0xfee00000
    · have hindex : index 1 v = 502 := by unfold index span; omega
      have hphys : (0xfec00000 : UInt64).toNat + v % 2^21 = v := by
        simp only [UInt64.reduceToNat]
        omega
      rw [hindex, h.apicLow, walkEntry_page (by decide) (by decide), hphys]
    · have hindex : index 1 v = 503 := by unfold index span; omega
      have hphys : (0xfee00000 : UInt64).toNat + v % 2^21 = v := by
        simp only [UInt64.reduceToNat]
        omega
      rw [hindex, h.apicHigh, walkEntry_page (by decide) (by decide), hphys]

end

/-- All guest memory, and the pages of the APIC, are mapped to themselves. -/
theorem identity_map {guestMemSize : UInt64} (hsize : Configurable guestMemSize) (sregs : KvmSregs)
    (g : BootMemory) :
    let r := setupPageTables guestMemSize sregs g
    r.1.cr3 = 0x20000 ∧
    ∀ v : UInt64, v < guestMemSize ∨ (0xfec00000 ≤ v ∧ v < 0xff000000) →
      translate r.2.memory r.1.cr3 v = some ⟨v.toNat, true, true⟩ := by
  intro r
  obtain ⟨pages, -, hle, hpages⟩ := hsize.pages
  refine ⟨rfl, ?_⟩
  intro v hv
  apply walk_identity (tables_spec hpages hle sregs g) hle
  rw [UInt64.lt_iff_toNat_lt, UInt64.lt_iff_toNat_lt, UInt64.le_iff_toNat_le, hpages] at hv
  exact hv

/-- The last byte of 1 GiB, whose tables end with an empty one. -/
theorem identity_map_last_byte :
    translate (setupPageTables 0x40000000 default ⟨fun _ => 0xff, []⟩).2.memory 0x20000 0x3fffffff =
      some ⟨0x3fffffff, true, true⟩ :=
  (identity_map ⟨1023, by decide⟩ default ⟨fun _ => 0xff, []⟩).2 0x3fffffff (.inl (by decide))

/-! Entries left as they were found. -/

/-- The tables with an entry for a page: any entry for one of them leads to a page. -/
def Live (pages : Nat) (f : Nat) : Prop :=
  f = 0x20000 ∨ f = 0x30000 ∨ f = 0x40000 ∨ f = (apicAddr pages).toNat

/-- The entry `e` of level `n` leads to a page, judged by what guest memory `m` held
before the tables were built. The table that is cleared at 1 GiB leads nowhere. -/
def Stale (pages : Nat) (m : Memory) : Nat → UInt64 → Prop
  | 0, e => present e = true
  | n + 1, e => present e = true ∧ (isLeaf (n + 1) e = true ∨ Live pages (frame e) ∨
      (¬ (pages = 512 ∧ frame e = 0x50000) ∧
        ∃ j, j < 512 ∧ Stale pages m n (tableWord m (frame e + 8 * j))))

/-- No entry that `setup_page_tables` leaves alone leads to a page. -/
structure NoStale (pages : Nat) (m : Memory) : Prop where
  pml4 : ∀ i, i < 512 → i ≠ 0 → ¬ Stale pages m 3 (load64 m (slot pml4Addr i))
  pdpt : ∀ i, i < 512 → i ≠ 0 → ¬ (pages = 512 ∧ i = 1) → i ≠ 3 →
    ¬ Stale pages m 2 (load64 m (slot pdptAddr i))
  apic : ∀ i, i < 512 → i ≠ 502 → i ≠ 503 → ¬ Stale pages m 1 (load64 m (slot (apicAddr pages) i))

theorem frame_aligned (e : UInt64) : frame e % 2^12 = 0 := Nat.mul_mod_left ..

theorem present_of_leads {read : Nat → UInt64} {n : Nat} {e : UInt64} (h : Leads read n e) :
    present e = true := by
  cases n with
  | zero => exact h
  | succ n => exact h.1

theorem leads_pageEntry (read : Nat → UInt64) {addr : UInt64} (haddr : addr.toNat % 2^21 = 0) {n : Nat}
    (hn : n ≤ 2) : Leads read n (pageEntry addr) := by
  obtain ⟨hp, -, -, hl⟩ := pageEntry_flags haddr
  cases n with
  | zero => exact hp
  | succ n =>
    refine ⟨hp, .inl ?_⟩
    rw [isLeaf, hl, decide_eq_true hn]
    rfl

theorem leads_tableEntry {read : Nat → UInt64} {addr : UInt64} (haddr : addr.toNat % 2^12 = 0)
    (hlt : addr.toNat < 2^52) {n j : Nat} (hj : j < 512)
    (hbelow : ∀ k, k + 1 = n → Leads read k (read (addr.toNat + 8 * j))) :
    Leads read n (tableEntry addr) := by
  obtain ⟨hp, -, -⟩ := tableEntry_flags haddr
  cases n with
  | zero => exact hp
  | succ n =>
    refine ⟨hp, .inr ⟨j, hj, ?_⟩⟩
    rw [tableEntry_frame haddr hlt]
    exact hbelow n rfl

section
variable {pages : Nat} {m m' : Memory} (h : Tables pages m m')

include h

theorem leads_low (hpages : 0 < pages) {n : Nat} (hn : n ≤ 2) :
    Leads (tableWord m') n (tableWord m' (0x40000 + 8 * 0)) := by
  have hentry := h.low 0 (by decide)
  rw [if_pos hpages] at hentry
  have hword : tableWord m' (0x40000 + 8 * 0) = pageEntry (UInt64.ofNat 0 <<< 21) := hentry
  rw [hword]
  exact leads_pageEntry _ (by decide) hn

theorem leads_pdpt (hpages : 0 < pages) {n : Nat} (hn : n ≤ 2) :
    Leads (tableWord m') n (tableWord m' (0x30000 + 8 * 0)) := by
  have hword : tableWord m' (0x30000 + 8 * 0) = tableEntry 0x40000 := h.first
  rw [hword]
  apply leads_tableEntry (by decide) (by decide) (show 0 < 512 by decide)
  intro k hk
  exact leads_low h hpages (by omega)

/-- Whatever its level, a table that is filled leads to a page. -/
theorem leads_of_live (hpages : 0 < pages) {f n : Nat} (hf : Live pages f) (hn : n ≤ 2) :
    ∃ j, j < 512 ∧ Leads (tableWord m') n (tableWord m' (f + 8 * j)) := by
  rcases hf with rfl | rfl | rfl | rfl
  · refine ⟨0, by decide, ?_⟩
    have hword : tableWord m' (0x20000 + 8 * 0) = tableEntry pdptAddr := h.pml4
    rw [hword]
    apply leads_tableEntry (by decide) (by decide) (show 0 < 512 by decide)
    intro k hk
    exact leads_pdpt h hpages (by omega)
  · exact ⟨0, by decide, leads_pdpt h hpages hn⟩
  · exact ⟨0, by decide, leads_low h hpages hn⟩
  · refine ⟨502, by decide, ?_⟩
    have hword : tableWord m' ((apicAddr pages).toNat + 8 * 502) = pageEntry 0xfec00000 := h.apicLow
    rw [hword]
    exact leads_pageEntry _ (by decide) hn

/-- Outside the tables, guest memory is as it was. -/
theorem tableWord_rest {f j : Nat} (hf : f % 2^12 = 0) (hj : j < 512) (hlive : ¬ Live pages f)
    (hcleared : ¬ (pages = 512 ∧ f = 0x50000)) : tableWord m' (f + 8 * j) = tableWord m (f + 8 * j) := by
  apply h.rest _ (by omega)
  unfold Live at hlive
  unfold Written slot
  have h0 : pml4Addr.toNat = 0x20000 := rfl
  have h1 : pdptAddr.toNat = 0x30000 := rfl
  rcases apicAddr_cases pages with ha | ha <;> rw [ha] at hlive ⊢ <;>
    simp only [UInt64.reduceToNat] at hlive ⊢ <;> omega

/-- An entry leads to a page after the tables were built exactly when it was stale. -/
theorem stale_iff (hpages : 0 < pages) {n : Nat} (hn : n ≤ 3) (e : UInt64) :
    Stale pages m n e ↔ Leads (tableWord m') n e := by
  induction n generalizing e with
  | zero => exact Iff.rfl
  | succ n ih =>
    rw [Stale, Leads]
    refine and_congr_right fun _ => or_congr_right ?_
    by_cases hlive : Live pages (frame e)
    · exact iff_of_true (.inl hlive) (leads_of_live h hpages hlive (by omega))
    · by_cases hcleared : pages = 512 ∧ frame e = 0x50000
      · refine iff_of_false (fun hs => ?_) ?_
        · exact hs.elim hlive fun hs => hs.1 hcleared
        · rintro ⟨j, hj, hleads⟩
          have hword : tableWord m' (0x50000 + 8 * j) = _ := (h.second hcleared.1).2 j hj
          have hp := present_of_leads hleads
          rw [hcleared.2, hword, present_clear] at hp
          exact absurd hp (by decide)
      · rw [or_iff_right hlive, and_iff_right hcleared]
        refine exists_congr fun j => and_congr_right fun hj => ?_
        rw [ih (by omega), tableWord_rest h (frame_aligned e) hj hlive hcleared]

/-- The entries that keep what guest memory held. -/
theorem entries_rest {i : Nat} (hi : i < 512) :
    (i ≠ 0 → load64 m' (slot pml4Addr i) = load64 m (slot pml4Addr i)) ∧
    (i ≠ 0 → ¬ (pages = 512 ∧ i = 1) → i ≠ 3 →
      load64 m' (slot pdptAddr i) = load64 m (slot pdptAddr i)) ∧
    (i ≠ 502 → i ≠ 503 →
      load64 m' (slot (apicAddr pages) i) = load64 m (slot (apicAddr pages) i)) := by
  have h0 := slot_pml4 i
  have h1 := slot_pdpt i
  have hrest {a : Int} (ha : a % 8 = 0) (hout : ¬ Written pages a) := h.rest a ha hout
  have hslot : slot (apicAddr pages) i = (apicAddr pages).toNat + 8 * i := rfl
  unfold Written at hrest
  have hp0 : slot pml4Addr 0 = 0x20000 := rfl
  have hd0 : slot pdptAddr 0 = 0x30000 := rfl
  have hd1 : slot pdptAddr 1 = 0x30008 := rfl
  have hd3 : slot pdptAddr 3 = 0x30018 := rfl
  have ha2 : slot (apicAddr pages) 502 = (apicAddr pages).toNat + 4016 := rfl
  have ha3 : slot (apicAddr pages) 503 = (apicAddr pages).toNat + 4024 := rfl
  have hpd : (apicAddr pages).toNat = if pages = 512 then 0x60000 else 0x50000 := by
    unfold apicAddr
    split_ifs <;> rfl
  split_ifs at hpd
  all_goals
    refine ⟨fun _ => hrest ?_ ?_, fun _ _ _ => hrest ?_ ?_, fun _ _ => hrest ?_ ?_⟩ <;> omega

/-- Nothing else is mapped, when no entry is stale. -/
theorem walk_none (hpages : 0 < pages) (hstale : NoStale pages m) {v : UInt64} (hcan : Canonical v)
    (hmem : pages * 2^21 ≤ v.toNat) (hapic : ¬ (0xfec00000 ≤ v.toNat ∧ v.toNat < 0xff000000)) :
    walk (tableWord m') pml4Addr v.toNat = none := by
  by_cases hhigh : index 3 v.toNat = 0
  · have hlow : v.toNat < 2^39 := by
      have hlt := v.toNat_lt
      unfold Canonical at hcan
      unfold index span at hhigh
      omega
    have hindex2 : index 2 v.toNat = v.toNat / 2^30 := by unfold index span; omega
    by_cases hfirst : v.toNat < 2^30
    · rw [walk_memory h hfirst, h.low _ (by omega), if_neg (by omega)]
      exact walkEntry_absent (present_clear _) _ _
    by_cases hlast : 0xc0000000 ≤ v.toNat ∧ v.toNat < 0x100000000
    · have hne : index 1 v.toNat ≠ 502 ∧ index 1 v.toNat ≠ 503 := by unfold index span; omega
      have hlt := index_lt 1 v.toNat
      rw [walk_apic h hlast.1 hlast.2, (entries_rest h hlt).2.2 hne.1 hne.2]
      apply none_of_not_leads
      rw [← stale_iff h hpages (by decide)]
      exact hstale.apic _ hlt hne.1 hne.2
    by_cases hsecond : pages = 512 ∧ v.toNat / 2^30 = 1
    · obtain ⟨hentry, hcleared⟩ := h.second hsecond.1
      rw [walk_directory h 0x50000 hlow (by decide) (by decide) (by rw [hindex2, hsecond.2, hentry]),
        hcleared _ (index_lt 1 _)]
      exact walkEntry_absent (present_clear _) _ _
    · rw [walk_low h hlow, hindex2, (entries_rest h (by omega)).2.1 (by omega) hsecond (by omega)]
      apply none_of_not_leads
      rw [← stale_iff h hpages (by decide)]
      exact hstale.pdpt _ (by omega) (by omega) hsecond (by omega)
  · have hlt := index_lt 3 v.toNat
    rw [walk_top, (entries_rest h hlt).1 hhigh]
    apply none_of_not_leads
    rw [← stale_iff h hpages (by decide)]
    exact hstale.pml4 _ hlt hhigh

omit h in
/-- Every entry of the top table and every offset under it have a canonical address. -/
theorem exists_canonical {i r : Nat} (hi : i < 512) (hr : r < span 3) :
    ∃ a, a < 2^64 ∧ Canonical (UInt64.ofNat a) ∧ index 3 a = i ∧ a % span 3 = r := by
  have hv {a : Nat} (ha : a < 2^64) : (UInt64.ofNat a).toNat = a := UInt64.toNat_ofNat_of_lt' ha
  unfold Canonical index
  unfold span at hr ⊢
  by_cases hhalf : i < 256
  · refine ⟨i * 2^39 + r, by omega, ?_, by omega, by omega⟩
    rw [hv (by omega)]
    omega
  · refine ⟨2^64 - 2^48 + i * 2^39 + r, by omega, ?_, by omega, by omega⟩
    rw [hv (by omega)]
    omega

/-- Conversely, a stale entry maps an address that should not be. -/
theorem noStale_of_unmapped (hpages : 0 < pages) (hle : pages ≤ 512)
    (hnone : ∀ v : UInt64, Canonical v → pages * 2^21 ≤ v.toNat →
      ¬ (0xfec00000 ≤ v.toNat ∧ v.toNat < 0xff000000) →
      walk (tableWord m') pml4Addr v.toNat = none) : NoStale pages m := by
  -- an address below 2^64 as a virtual address
  have hv {a : Nat} (ha : a < 2^64) : (UInt64.ofNat a).toNat = a := UInt64.toNat_ofNat_of_lt' ha
  have hlow : ∀ a, a < 2^47 → pages * 2^21 ≤ a → ¬ (0xfec00000 ≤ a ∧ a < 0xff000000) →
      walk (tableWord m') pml4Addr a = none := by
    intro a ha hout hapic
    have h0 := hnone (UInt64.ofNat a)
    rw [hv (by omega)] at h0
    exact h0 (.inl (by rw [hv (by omega)]; exact ha)) hout hapic
  refine ⟨fun i hi hne hs => ?_, fun i hi hne hsecond h3 hs => ?_, fun i hi h2 h3 hs => ?_⟩
  · rw [← (entries_rest h hi).1 hne, stale_iff h hpages (by decide)] at hs
    obtain ⟨r, hr, hwalk⟩ := exists_of_leads hs
    obtain ⟨a, ha, hcan, hindex, hmod⟩ := exists_canonical hi hr
    have hge : 2^39 ≤ a := by
      unfold index span at hindex
      omega
    have h0 := hnone _ hcan (by rw [hv ha]; omega) (by rw [hv ha]; omega)
    rw [hv ha, walk_top, hindex] at h0
    exact hwalk a hmod _ _ h0
  · rw [← (entries_rest h hi).2.1 hne hsecond h3, stale_iff h hpages (by decide)] at hs
    obtain ⟨r, hr, hwalk⟩ := exists_of_leads hs
    have hspan : span 2 = 2^30 := rfl
    have ha : i * 2^30 + r < 2^39 := by omega
    have hindex : index 2 (i * 2^30 + r) = i := by unfold index span; omega
    have h0 := hlow (i * 2^30 + r) (by omega) (by omega) (by omega)
    rw [walk_low h ha, hindex] at h0
    exact hwalk _ (by rw [hspan]; omega) _ _ h0
  · rw [← (entries_rest h hi).2.2 h2 h3, stale_iff h hpages (by decide)] at hs
    obtain ⟨r, hr, hwalk⟩ := exists_of_leads hs
    have hspan : span 1 = 2^21 := rfl
    have ha : 0xc0000000 + i * 2^21 + r < 0x100000000 := by omega
    have hindex : index 1 (0xc0000000 + i * 2^21 + r) = i := by unfold index span; omega
    have h0 := hlow (0xc0000000 + i * 2^21 + r) (by omega) (by omega) (by omega)
    rw [walk_apic h (by omega) ha, hindex] at h0
    exact hwalk _ (by rw [hspan]; omega) _ _ h0

end

/-- Every canonical address outside guest memory and the pages of the APIC is
unmapped exactly when guest memory held no stale entry: in the top table past entry
0, in the third-level one outside the entries 0 and 3 (and 1, at 1 GiB), in the
APIC's outside 502 and 503. The present bit is cleared in the last table of the loop
only. -/
theorem unmapped_iff {guestMemSize : UInt64} (hsize : Configurable guestMemSize) (sregs : KvmSregs)
    (g : BootMemory) :
    (∀ v : UInt64, Canonical v → ¬ v < guestMemSize → ¬ (0xfec00000 ≤ v ∧ v < 0xff000000) →
      translate (setupPageTables guestMemSize sregs g).2.memory 0x20000 v = none) ↔
    NoStale (guestMemSize.toNat / 2^21) g.memory := by
  obtain ⟨pages, hge, hle, hpages⟩ := hsize.pages
  have htables := tables_spec hpages hle sregs g
  rw [show guestMemSize.toNat / 2^21 = pages by omega]
  simp only [UInt64.lt_iff_toNat_lt, UInt64.le_iff_toNat_le, hpages, Nat.not_lt]
  constructor
  · intro hnone
    exact noStale_of_unmapped htables (by omega) hle hnone
  · intro hstale v hcan hmem hapic
    exact walk_none htables (by omega) hstale hcan hmem hapic

/-- In memory that is clear, no entry is stale. -/
theorem noStale_clear (pages : Nat) : NoStale pages fun _ => 0 := by
  have hword : ∀ a : Int, load64 (fun _ => 0) a = 0 := by
    intro a
    simp [load64, load]
  have hstale : ∀ n, ¬ Stale pages (fun _ => 0) n 0 := by
    intro n hs
    cases n with
    | zero => exact absurd hs (by unfold Stale; decide)
    | succ n => exact absurd hs.1 (by decide)
  refine ⟨?_, ?_, ?_⟩ <;> intros <;> rw [hword] <;> exact hstale _

theorem unmapped_past_memory :
    translate (setupPageTables 0x800000 default ⟨fun _ => 0, []⟩).2.memory 0x20000 0x800000 = none :=
  (unmapped_iff ⟨8, by decide⟩ default ⟨fun _ => 0, []⟩).mpr (noStale_clear _) 0x800000
    (.inl (by decide)) (by decide) (by decide)

/-- Guest memory with an entry for a page of 2 MiB where the table of the APIC goes. -/
def staleMemory : Memory := fun a => if a = 0x50000 then 0x83 else 0

/-- The guest starts with the address 0xc0000000 mapped to physical 0. -/
theorem stale_entry_mapped :
    Configurable 0x800000 ∧ Canonical 0xc0000000 ∧ ¬ (0xc0000000 : UInt64) < 0x800000 ∧
    ¬ ((0xfec00000 : UInt64) ≤ 0xc0000000 ∧ (0xc0000000 : UInt64) < 0xff000000) ∧
    translate (setupPageTables 0x800000 default ⟨staleMemory, []⟩).2.memory 0x20000 0xc0000000 =
      some ⟨0, true, false⟩ := by
  have hsize : Configurable 0x800000 := ⟨8, by decide⟩
  have hcan : Canonical 0xc0000000 := .inl (by decide)
  refine ⟨hsize, hcan, by decide, by decide, ?_⟩
  have htables : Tables 4 staleMemory (setupPageTables 0x800000 default ⟨staleMemory, []⟩).2.memory :=
    tables_spec (by decide) (by decide) default ⟨staleMemory, []⟩
  have hentry := (entries_rest htables (show 0 < 512 by decide)).2.2 (by decide) (by decide)
  have hfound : load64 staleMemory (slot (apicAddr 4) 0) = 0x83 := by decide
  have hwalk := walk_apic htables (v := 0xc0000000) (by decide) (by decide)
  rw [show index 1 0xc0000000 = 0 by decide, hentry, hfound] at hwalk
  exact hwalk.trans (walkEntry_leaf (by decide) (by decide) true true)

end EndlessFault.Bootloader
