import EndlessFault.Elf.Immagine

/- Truncated files. `copia_segmento` reads up to `p_filesz` bytes from `p_offset` on and
   adds what it read to the zeros it wrote; nobody looks at the sum. `fread` on a
   file that ends earlier reads what is left, the bytes behind keep the contents of the
   destination (`mancanti_non_scritti`), and loading goes on to return the entry
   point. `copia_pagina`, beside it, ends the process on a short read.

   The one thing that ends the loop over the segments is an offset `fseek` refuses, so
   an accepted file with a truncated segment is refused exactly when it happens to
   have one of those as well (`troncato_rifiutato_iff`). -/
namespace EndlessFault.Elf
open Lib.Bytes

/-- A segment that fits the destination and goes beyond the end of the file. -/
def Troncato (file : List UInt8) (destSize : UInt64) (ph : Phdr) : Prop :=
  ph.pVaddr.toNat + ph.pMemsz.toNat ≤ destSize.toNat ∧
  file.length < ph.pOffset.toNat + ph.pFilesz.toNat

instance (file : List UInt8) (destSize : UInt64) (ph : Phdr) : Decidable (Troncato file destSize ph) :=
  inferInstanceAs (Decidable (_ ∧ _))

/-- `estrai_segmento` ends the process with an error. -/
def Rifiutato (interpreti : List Formato) (oltre : Nat → UInt8) (file : List UInt8)
    (destSize : UInt64) : Prop :=
  ∃ e, (estraiSegmento interpreti oltre file destSize).ritorno = .error e

/-- The bytes of a segment that the file does not have are stored by no one. -/
theorem mancanti_non_scritti {file : List UInt8} {ph : Phdr} {k : Nat}
    (hend : file.length ≤ ph.pOffset.toNat + k) (hk : k < ph.pFilesz.toNat) :
    ∀ s ∈ storeSegmento file ph, s.offset ≠ ph.pVaddr + UInt64.ofNat k := by
  have hfilesz := ph.pFilesz.toNat_lt
  have hmemsz := ph.pMemsz.toNat_lt
  -- two offsets into one segment are the same address only when they are equal
  have hinj : ∀ j, j < 2^64 → ph.pVaddr + UInt64.ofNat j = ph.pVaddr + UInt64.ofNat k → j = k := by
    intro j hj heq
    have hsame := congrArg UInt64.toNat (UInt64.add_right_inj _ |>.mp heq)
    rw [UInt64.toNat_ofNat', UInt64.toNat_ofNat'] at hsame
    omega
  intro s hs
  rw [storeSegmento, List.mem_append] at hs
  rcases hs with hs | hs
  · obtain ⟨j, hj, rfl⟩ := List.mem_mapIdx.mp hs
    rw [length_copiati] at hj
    intro heq
    have hjk := hinj j (by omega) heq
    omega
  · split_ifs at hs with hbss
    · obtain ⟨j, hj, rfl⟩ := List.mem_map.mp hs
      have hlt := UInt64.lt_iff_toNat_lt.mp hbss
      have hcount : (ph.pMemsz - ph.pFilesz).toNat = ph.pMemsz.toNat - ph.pFilesz.toNat :=
        UInt64.toNat_sub_of_le _ _ (UInt64.le_of_lt hbss)
      rw [List.mem_range, hcount] at hj
      intro heq
      have hzero : ph.pVaddr + ph.pFilesz + UInt64.ofNat j =
          ph.pVaddr + UInt64.ofNat (ph.pFilesz.toNat + j) := by
        rw [UInt64.ofNat_add, UInt64.ofNat_toNat, UInt64.add_assoc]
      have hjk := hinj (ph.pFilesz.toNat + j) (by omega) (hzero ▸ heq)
      omega
    · exact absurd hs List.not_mem_nil

/-- An accepted file is refused exactly when the loop meets an offset `fseek` refuses. -/
theorem rifiutato_iff (interpreti : List Formato) (oltre : Nat → UInt8) {file : List UInt8}
    (destSize : UInt64) {exe : Eseguibile} (h : scegli file interpreti = .ok (some exe)) :
    Rifiutato interpreti oltre file destSize ↔
      ∃ ph ∈ exe.segmenti oltre, ph.pVaddr + ph.pMemsz ≤ destSize ∧ 2^63 ≤ ph.pOffset.toNat := by
  have hnone := carica_none_iff file destSize (exe.segmenti oltre)
  rw [Rifiutato, estraiSegmento, h]
  refine ⟨?_, ?_⟩
  · intro hrif
    by_contra hseek
    simp only [not_exists, not_and, Nat.not_le] at hseek
    have hend := hnone.mpr fun ph hph hcheck => by
      rw [fseek, decide_eq_true_eq]
      exact hseek ph hph hcheck
    simp [hend] at hrif
  · intro hseek
    obtain ⟨ph, hph, hcheck, hoff⟩ := hseek
    cases hend : (carica file destSize (exe.segmenti oltre)).2 with
    | none =>
      have hseek := hnone.mp hend ph hph hcheck
      rw [fseek, decide_eq_true_eq] at hseek
      omega
    | some e => exact ⟨e, by simp [hend]⟩

/-- For every accepted file: a truncated segment makes loading fail if and only if
there is none, or some segment that passes the check has an offset that is negative as a
`long`. -/
theorem troncato_rifiutato_iff (interpreti : List Formato) (oltre : Nat → UInt8) {file : List UInt8}
    (destSize : UInt64) {exe : Eseguibile} (h : scegli file interpreti = .ok (some exe)) :
    ((∃ ph ∈ exe.segmenti oltre, Troncato file destSize ph) →
        Rifiutato interpreti oltre file destSize) ↔
      (∀ ph ∈ exe.segmenti oltre, ¬ Troncato file destSize ph) ∨
      ∃ ph ∈ exe.segmenti oltre, ph.pVaddr + ph.pMemsz ≤ destSize ∧ 2^63 ≤ ph.pOffset.toNat := by
  rw [rifiutato_iff interpreti oltre destSize h]
  refine ⟨?_, ?_⟩
  · intro himp
    by_cases htronc : ∃ ph ∈ exe.segmenti oltre, Troncato file destSize ph
    · exact .inr (himp htronc)
    · exact .inl fun ph hph htr => htronc ⟨ph, hph, htr⟩
  · intro hcond htronc
    obtain ⟨ph, hph, htr⟩ := htronc
    rcases hcond with hnone | hseek
    · exact absurd htr (hnone ph hph)
    · exact hseek

theorem troncato_rifiutato_intero :
    scegli (unSegmento 1 1) [elf64, elf32] = .ok (some (eseguibile (unSegmento 1 1))) ∧
    (∀ ph ∈ (eseguibile (unSegmento 1 1)).segmenti fun _ => 0, ¬ Troncato (unSegmento 1 1) 0x800000 ph) ∧
    ((∃ ph ∈ (eseguibile (unSegmento 1 1)).segmenti fun _ => 0, Troncato (unSegmento 1 1) 0x800000 ph) →
      Rifiutato [elf64, elf32] (fun _ => 0) (unSegmento 1 1) 0x800000) := by
  have haccept : scegli (unSegmento 1 1) [elf64, elf32] = .ok (some (eseguibile (unSegmento 1 1))) := by
    decide +kernel
  have hwhole : ∀ ph ∈ (eseguibile (unSegmento 1 1)).segmenti fun _ => 0,
      ¬ Troncato (unSegmento 1 1) 0x800000 ph := by
    decide +kernel
  exact ⟨haccept, hwhole,
    (troncato_rifiutato_iff [elf64, elf32] (fun _ => 0) 0x800000 haccept).mpr (.inl hwhole)⟩

/-- The 120 bytes of the file are all there is of a segment of 200: the entry point is
returned, and the byte behind them is the one the destination had. -/
theorem troncato_avviato :
    let esito := estraiSegmento [elf64, elf32] (fun _ => 0) (unSegmento 200 200) 0x900000
    scegli (unSegmento 200 200) [elf64, elf32] = .ok (some (eseguibile (unSegmento 200 200))) ∧
    (∃ ph ∈ (eseguibile (unSegmento 200 200)).segmenti fun _ => 0,
      Troncato (unSegmento 200 200) 0x900000 ph) ∧
    esito.ritorno = .ok 0 ∧ applica esito.stores (fun _ => 0xAA) (0x7FFFFF + 120) = 0xAA ∧
    ¬ Rifiutato [elf64, elf32] (fun _ => 0) (unSegmento 200 200) 0x900000 := by
  intro esito
  have haccept : scegli (unSegmento 200 200) [elf64, elf32] =
      .ok (some (eseguibile (unSegmento 200 200))) := by
    decide +kernel
  have hhead : (eseguibile (unSegmento 200 200)).segmenti (fun _ => 0) = [⟨1, 0, 0x7FFFFF, 200, 200⟩] := by
    decide +kernel
  have hlen : (unSegmento 200 200).length = 120 := by decide +kernel
  have hreturn : esito.ritorno = .ok 0 := by decide +kernel
  have hstores : esito.stores = storeSegmento (unSegmento 200 200) ⟨1, 0, 0x7FFFFF, 200, 200⟩ := by
    rw [stores_eq [elf64, elf32] (fun _ => 0) 0x900000 haccept, hhead]
    exact List.append_nil _
  refine ⟨haccept, ⟨_, by rw [hhead]; exact List.mem_singleton_self _, by decide, by rw [hlen]; decide⟩,
    hreturn, ?_, ?_⟩
  · rw [hstores]
    apply applica_frame
    intro s hs heq
    refine mancanti_non_scritti (k := 120) (by rw [hlen]; decide) (by decide) s hs ?_
    apply UInt64.toNat_inj.mp
    have hoffset : ((0x7FFFFF : UInt64) + UInt64.ofNat 120).toNat = 0x7FFFFF + 120 := by decide
    rw [hoffset]
    omega
  · intro hrif
    obtain ⟨e, he⟩ := hrif
    rw [show (estraiSegmento [elf64, elf32] (fun _ => 0) (unSegmento 200 200) 0x900000).ritorno = .ok 0
      from hreturn] at he
    cases he

end EndlessFault.Elf
