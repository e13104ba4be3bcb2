import EndlessFault.Elf.Immagine

/- Reads of the table of program headers. `init` loads `e_phnum` entries of the size the
   file gives, `e_phentsize`, and `prossimo_segmento` steps through them with that
   size, but lays the structure of the compiler over each: nothing compares the two,
   and the fields of an entry may lie behind the table.

   `prossimoSegmento` is one call with the reads it makes, those of the constructor of
   the segment included; `itera` the calls until NULL is returned, with what the
   members of each segment read that its owner calls. The iteration visits the headers
   the model walks and reads every entry's type and the fields of the `PT_LOAD` ones
   (`itera_eq`). Main result: `letture_nella_tabella_iff`. -/
namespace EndlessFault.Elf
open Lib.Bytes

/-- A read of `size` bytes, `off` bytes from a header or from `seg_buf` on. -/
structure Lettura where
  off : Nat
  size : Nat
  deriving DecidableEq, Repr

/-- The members of a segment. -/
inductive Membro where
  | scrivibile
  | indVirtuale
  | dimensioneFilesz
  | dimensione
  | finito
  | prossimaPagina
  | paginaDiZeri
  | copiaPagina
  | copiaSegmento
  deriving DecidableEq, Repr

namespace Formato

/-- `p_flags` follows the type in the header of 64 bits, the sizes in that of 32. -/
def pFlags (f : Formato) : Nat := if f.classe = 2 then 4 else 24

/-- The fields the constructor of a segment reads. -/
def costruttore (f : Formato) : List Lettura :=
  [⟨f.pOffset, f.parola⟩, ⟨f.pFilesz, f.parola⟩, ⟨f.pOffset, f.parola⟩, ⟨f.pMemsz, f.parola⟩]

/-- The fields a member reads; the members that copy page by page work on what the
constructor has read. -/
def letture (f : Formato) : Membro → List Lettura
  | .scrivibile => [⟨f.pFlags, 4⟩]
  | .indVirtuale => [⟨f.pVaddr, f.parola⟩]
  | .dimensioneFilesz => [⟨f.pFilesz, f.parola⟩]
  | .dimensione => [⟨f.pMemsz, f.parola⟩]
  | .copiaSegmento => [⟨f.pOffset, f.parola⟩, ⟨f.pFilesz, f.parola⟩, ⟨f.pMemsz, f.parola⟩,
      ⟨f.pMemsz, f.parola⟩, ⟨f.pFilesz, f.parola⟩]
  | _ => []

/-- Where the last field that is read of a `PT_LOAD` header ends: 48 in a header of 64
bits; in one of 32 bits 24, and 28 when `scrivibile` is called. -/
def fineLetture (f : Formato) (chiamati : List Membro) : Nat :=
  max (f.pMemsz + f.parola) (if .scrivibile ∈ chiamati then f.pFlags + 4 else 0)

end Formato

namespace Eseguibile

/-- A read from the header at `seg_buf + e_phentsize * i`. -/
def lettura (exe : Eseguibile) (i : Nat) (l : Lettura) : Lettura := ⟨exe.h.ePhentsize * i + l.off, l.size⟩

/-- What a call of `prossimo_segmento` reads, the index of the header it returns a
segment of, and `curr_seg` after it. -/
structure Prossimo where
  letture : List Lettura
  segmento : Option Nat
  currSeg : Nat

def prossimoSegmento (exe : Eseguibile) (oltre : Nat → UInt8) (currSeg : Nat) : Prossimo :=
  if currSeg < exe.h.ePhnum then
    let tipo := exe.lettura currSeg ⟨0, 4⟩
    if (exe.phdr oltre currSeg).pType ≠ ptLoad then
      let dopo := exe.prossimoSegmento oltre (currSeg + 1)
      { dopo with letture := tipo :: dopo.letture }
    else ⟨tipo :: exe.formato.costruttore.map (exe.lettura currSeg), some currSeg, currSeg + 1⟩
  else ⟨[], none, currSeg⟩
termination_by exe.h.ePhnum - currSeg

theorem currSeg_lt {exe : Eseguibile} {oltre : Nat → UInt8} {currSeg i : Nat}
    (h : (exe.prossimoSegmento oltre currSeg).segmento = some i) :
    currSeg < (exe.prossimoSegmento oltre currSeg).currSeg ∧ currSeg < exe.h.ePhnum := by
  fun_induction prossimoSegmento exe oltre currSeg with
  | case1 currSeg hlt _ _ dopo ih => exact ⟨Nat.lt_of_succ_lt (ih h).1, hlt⟩
  | case2 currSeg hlt => exact ⟨Nat.lt_succ_self _, hlt⟩
  | case3 => cases h

/-- What the whole iteration reads, and the headers of the segments it returns. -/
structure Visita where
  letture : List Lettura
  segmenti : List Phdr

/-- Calls of `prossimo_segmento` until it returns NULL; `chiamati` are the members that
are called of the segment of each index. -/
def itera (exe : Eseguibile) (oltre : Nat → UInt8) (chiamati : Nat → List Membro) (currSeg : Nat) : Visita :=
  match _h : (exe.prossimoSegmento oltre currSeg).segmento with
  | none => ⟨(exe.prossimoSegmento oltre currSeg).letture, []⟩
  | some i =>
    let dopo := exe.itera oltre chiamati (exe.prossimoSegmento oltre currSeg).currSeg
    ⟨(exe.prossimoSegmento oltre currSeg).letture ++
        ((chiamati i).flatMap exe.formato.letture).map (exe.lettura i) ++ dopo.letture,
      exe.phdr oltre i :: dopo.segmenti⟩
termination_by exe.h.ePhnum - currSeg
decreasing_by
  have hlt := currSeg_lt _h
  omega

/-- Every read of the iteration lies in the table. -/
def LettureInterne (exe : Eseguibile) (oltre : Nat → UInt8) (chiamati : Nat → List Membro) : Prop :=
  ∀ l ∈ (exe.itera oltre chiamati 0).letture, l.off + l.size ≤ exe.segBuf.length

/-! The iteration, entry by entry. -/

section
variable (exe : Eseguibile) (oltre : Nat → UInt8) (chiamati : Nat → List Membro)

/-- What is read of entry `i`. -/
def lettureDi (i : Nat) : List Lettura :=
  exe.lettura i ⟨0, 4⟩ ::
    if (exe.phdr oltre i).pType = ptLoad then
      (exe.formato.costruttore ++ (chiamati i).flatMap exe.formato.letture).map (exe.lettura i)
    else []

theorem itera_none {i : Nat} (h : (exe.prossimoSegmento oltre i).segmento = none) :
    exe.itera oltre chiamati i = ⟨(exe.prossimoSegmento oltre i).letture, []⟩ := by
  rw [itera]
  split
  · rfl
  · rename_i hsome
    rw [h] at hsome
    cases hsome

theorem itera_some {i k : Nat} (h : (exe.prossimoSegmento oltre i).segmento = some k) :
    exe.itera oltre chiamati i =
      ⟨(exe.prossimoSegmento oltre i).letture ++
          ((chiamati k).flatMap exe.formato.letture).map (exe.lettura k) ++
          (exe.itera oltre chiamati (exe.prossimoSegmento oltre i).currSeg).letture,
        exe.phdr oltre k :: (exe.itera oltre chiamati (exe.prossimoSegmento oltre i).currSeg).segmenti⟩ := by
  rw [itera]
  split
  · rename_i hnone
    rw [h] at hnone
    cases hnone
  · rename_i hsome
    rw [h] at hsome
    obtain rfl := Option.some.inj hsome
    rfl

theorem itera_end {i : Nat} (hi : ¬ i < exe.h.ePhnum) : exe.itera oltre chiamati i = ⟨[], []⟩ := by
  have hcall : exe.prossimoSegmento oltre i = ⟨[], none, i⟩ := by rw [prossimoSegmento, if_neg hi]
  rw [itera_none exe oltre chiamati (by rw [hcall]), hcall]

/-- One entry: its reads, and its header if it is to be loaded. -/
theorem itera_succ {i : Nat} (hi : i < exe.h.ePhnum) :
    exe.itera oltre chiamati i =
      ⟨exe.lettureDi oltre chiamati i ++ (exe.itera oltre chiamati (i + 1)).letture,
        (if (exe.phdr oltre i).pType = ptLoad then [exe.phdr oltre i] else []) ++
          (exe.itera oltre chiamati (i + 1)).segmenti⟩ := by
  by_cases hload : (exe.phdr oltre i).pType = ptLoad
  · have hcall : exe.prossimoSegmento oltre i =
        ⟨exe.lettura i ⟨0, 4⟩ :: exe.formato.costruttore.map (exe.lettura i), some i, i + 1⟩ := by
      rw [prossimoSegmento, if_pos hi, if_neg (not_not.mpr hload)]
    rw [itera_some exe oltre chiamati (by rw [hcall]), hcall, lettureDi, if_pos hload, if_pos hload,
      List.map_append]
    rfl
  · -- the entry is passed over inside the call that goes on to the next ones
    have hcall : exe.prossimoSegmento oltre i =
        { exe.prossimoSegmento oltre (i + 1) with
          letture := exe.lettura i ⟨0, 4⟩ :: (exe.prossimoSegmento oltre (i + 1)).letture } := by
      rw [prossimoSegmento, if_pos hi, if_pos hload]
    rw [lettureDi, if_neg hload, if_neg hload]
    cases hnext : (exe.prossimoSegmento oltre (i + 1)).segmento with
    | none =>
      rw [itera_none exe oltre chiamati (by rw [hcall, hnext]), itera_none exe oltre chiamati hnext, hcall]
      rfl
    | some k =>
      rw [itera_some exe oltre chiamati (by rw [hcall, hnext]), itera_some exe oltre chiamati hnext, hcall]
      rfl

/-- The whole iteration: every entry is read, and the segments are those of the model. -/
theorem itera_eq : exe.itera oltre chiamati 0 =
    ⟨(List.range exe.h.ePhnum).flatMap (exe.lettureDi oltre chiamati), exe.segmenti oltre⟩ := by
  -- from entry `i` on, by induction on the entries left
  have hfrom : ∀ n i, i + n = exe.h.ePhnum → exe.itera oltre chiamati i =
      ⟨(List.range' i n).flatMap (exe.lettureDi oltre chiamati),
        ((List.range' i n).map (exe.phdr oltre)).filter fun ph => ph.pType == ptLoad⟩ := by
    intro n
    induction n with
    | zero =>
      intro i hn
      rw [itera_end exe oltre chiamati (by omega)]
      rfl
    | succ n ih =>
      intro i hn
      rw [itera_succ exe oltre chiamati (by omega), ih (i + 1) (by omega), List.range'_succ,
        List.flatMap_cons, List.map_cons]
      by_cases hload : (exe.phdr oltre i).pType = ptLoad
      · rw [if_pos hload, List.filter_cons_of_pos (by simp [hload])]
        rfl
      · rw [if_neg hload, List.filter_cons_of_neg (by simp [hload])]
        rfl
  rw [hfrom exe.h.ePhnum 0 (Nat.zero_add _), segmenti, List.range_eq_range']

/-- The reads of the iteration in the table, entry by entry. -/
theorem lettureInterne_entries : exe.LettureInterne oltre chiamati ↔
    ∀ i, i < exe.h.ePhnum → ∀ l ∈ exe.lettureDi oltre chiamati i, l.off + l.size ≤ exe.segBuf.length := by
  unfold LettureInterne
  rw [itera_eq]
  simp only [List.mem_flatMap, List.mem_range, forall_exists_index, and_imp]
  exact ⟨fun h i hi l hl => h l i hi hl, fun h l i hi hl => h i hi l hl⟩

end

end Eseguibile

/-! Bounds. -/

theorem letture_le {f : Formato} (hf : f = elf32 ∨ f = elf64) (m : Membro) : ∀ l ∈ f.letture m,
    l.off + l.size ≤ f.pMemsz + f.parola ∨ (m = .scrivibile ∧ l.off + l.size = f.pFlags + 4) := by
  rcases hf with rfl | rfl <;> cases m <;> decide

theorem costruttore_le {f : Formato} (hf : f = elf32 ∨ f = elf64) :
    ∀ l ∈ f.costruttore, l.off + l.size ≤ f.pMemsz + f.parola := by
  rcases hf with rfl | rfl <;> decide

/-- All fields read of a loaded header end by `fineLetture`, and one of them there. -/
theorem fineLetture_le_iff {f : Formato} (hf : f = elf32 ∨ f = elf64) (chiamati : List Membro)
    (base bound : Nat) :
    (∀ l ∈ f.costruttore ++ chiamati.flatMap f.letture, base + l.off + l.size ≤ bound) ↔
      base + f.fineLetture chiamati ≤ bound := by
  unfold Formato.fineLetture
  refine ⟨?_, ?_⟩
  · intro h
    have hmemsz := h ⟨f.pMemsz, f.parola⟩ (List.mem_append_left _ (by simp [Formato.costruttore]))
    split_ifs with hflags
    · have hscrivibile := h ⟨f.pFlags, 4⟩
        (List.mem_append_right _ (List.mem_flatMap.mpr ⟨.scrivibile, hflags, List.mem_singleton_self _⟩))
      dsimp only at hmemsz hscrivibile
      omega
    · dsimp only at hmemsz
      omega
  · intro h l hl
    rcases List.mem_append.mp hl with hctor | hmember
    · have hle := costruttore_le hf l hctor
      omega
    · obtain ⟨m, hm, hlm⟩ := List.mem_flatMap.mp hmember
      rcases letture_le hf m l hlm with hle | ⟨rfl, heq⟩
      · omega
      · rw [if_pos hm] at h
        omega

section
variable {f : Formato} (hf : f = elf32 ∨ f = elf64) {file : List UInt8} {exe : Eseguibile}
  (h : f.interpreta file = .ok (some exe)) (oltre : Nat → UInt8) (chiamati : Nat → List Membro)

include h

/-- The type of an entry that is in the table is the one in the file. -/
theorem pType_phdr {i : Nat} (hin : exe.h.ePhentsize * i + 4 ≤ exe.h.ePhnum * exe.h.ePhentsize) :
    (exe.phdr oltre i).pType =
      (f.phdrNelFile file (exe.h.ePhoff.toNat + exe.h.ePhentsize * i)).pType :=
  campo_phdr h oltre hin

include hf

/-- The reads of one entry: its type, and the fields of a header to be loaded. -/
theorem lettureDi_interne {i : Nat} :
    (∀ l ∈ exe.lettureDi oltre chiamati i, l.off + l.size ≤ exe.segBuf.length) ↔
      exe.h.ePhentsize * i + 4 ≤ exe.h.ePhnum * exe.h.ePhentsize ∧
      ((exe.phdr oltre i).pType = ptLoad →
        exe.h.ePhentsize * i + f.fineLetture (chiamati i) ≤ exe.h.ePhnum * exe.h.ePhentsize) := by
  have hformato := (interpreta_ok h).2.1
  rw [Eseguibile.lettureDi, List.forall_mem_cons, length_segBuf h, hformato]
  refine and_congr Iff.rfl ?_
  rw [← fineLetture_le_iff hf]
  split_ifs with hload
  · simp only [List.forall_mem_map, hload, true_imp_iff]
    exact Iff.rfl
  · simp [hload]

theorem lettureInterne_iff : exe.LettureInterne oltre chiamati ↔
    exe.h.ePhnum = 0 ∨ (4 ≤ exe.h.ePhentsize ∧ ∀ i, i < exe.h.ePhnum →
      (f.phdrNelFile file (exe.h.ePhoff.toNat + exe.h.ePhentsize * i)).pType = ptLoad →
      f.fineLetture (chiamati i) ≤ (exe.h.ePhnum - i) * exe.h.ePhentsize) := by
  -- entry `i` has the bytes from `e_phentsize * i` to the end of the table
  have hleft : ∀ i, i < exe.h.ePhnum → exe.h.ePhnum * exe.h.ePhentsize =
      exe.h.ePhentsize * i + (exe.h.ePhnum - i) * exe.h.ePhentsize := by
    intro i hi
    rw [Nat.mul_comm exe.h.ePhentsize i, ← Nat.add_mul, Nat.add_sub_cancel' (Nat.le_of_lt hi)]
  rw [Eseguibile.lettureInterne_entries]
  simp only [lettureDi_interne hf h]
  refine ⟨?_, ?_⟩
  · intro hall
    rcases Nat.eq_zero_or_pos exe.h.ePhnum with hzero | hpos
    · exact .inl hzero
    · right
      have hlast := (hall (exe.h.ePhnum - 1) (by omega)).1
      rw [hleft (exe.h.ePhnum - 1) (by omega), Nat.sub_sub_self hpos, Nat.one_mul] at hlast
      refine ⟨by omega, ?_⟩
      intro i hi hload
      obtain ⟨htype, hfields⟩ := hall i hi
      have hend := hfields ((pType_phdr h oltre htype).trans hload)
      rw [hleft i hi] at hend
      omega
  · intro hcond i hi
    obtain ⟨hfour, hfields⟩ := hcond.resolve_left (by omega)
    have hrow := riga_interna exe.h.ePhentsize hi
    have htype : exe.h.ePhentsize * i + 4 ≤ exe.h.ePhnum * exe.h.ePhentsize := by omega
    refine ⟨htype, ?_⟩
    intro hload
    have hend := hfields i hi ((pType_phdr h oltre htype).symm.trans hload)
    rw [hleft i hi]
    omega

end

/-- For every accepted file, whatever lies behind the table and whichever members are
called: all reads of program headers lie in the table that was loaded if and only if
there are no entries, or they have room for a type and from each `PT_LOAD` entry on
the table goes on at least to the end of the last field that is read. -/
theorem letture_nella_tabella_iff {f : Formato} (hf : f = elf32 ∨ f = elf64) {file : List UInt8}
    {exe : Eseguibile} (h : f.interpreta file = .ok (some exe)) (oltre : Nat → UInt8)
    (chiamati : Nat → List Membro) :
    exe.segBuf.length = exe.h.ePhnum * exe.h.ePhentsize ∧
    (exe.LettureInterne oltre chiamati ↔
      exe.h.ePhnum = 0 ∨ (4 ≤ exe.h.ePhentsize ∧ ∀ i, i < exe.h.ePhnum →
        (f.phdrNelFile file (exe.h.ePhoff.toNat + exe.h.ePhentsize * i)).pType = ptLoad →
        f.fineLetture (chiamati i) ≤ (exe.h.ePhnum - i) * exe.h.ePhentsize)) :=
  ⟨length_segBuf h, lettureInterne_iff hf h oltre chiamati⟩

/-- The members that `estrai_segmento` calls of every segment it loads. -/
def chiamatiDaEstrai (_ : Nat) : List Membro := [.indVirtuale, .dimensione, .copiaSegmento]

theorem letture_nella_tabella_un_segmento :
    elf64.interpreta (unSegmento 1 1) = .ok (some (eseguibile (unSegmento 1 1))) ∧
    (eseguibile (unSegmento 1 1)).LettureInterne (fun _ => 0) chiamatiDaEstrai := by
  have haccept : elf64.interpreta (unSegmento 1 1) = .ok (some (eseguibile (unSegmento 1 1))) := by
    decide +kernel
  have hroom : (eseguibile (unSegmento 1 1)).h.ePhnum = 1 ∧ (eseguibile (unSegmento 1 1)).h.ePhentsize = 56 := by
    decide +kernel
  refine ⟨haccept, (letture_nella_tabella_iff (.inr rfl) haccept (fun _ => 0) chiamatiDaEstrai).2.mpr ?_⟩
  rw [hroom.1, hroom.2]
  right
  refine ⟨by decide, ?_⟩
  intro i hi _
  obtain rfl : i = 0 := by omega
  decide

/-- The same file with entries of 40 bytes. -/
def vociCorte : List UInt8 := (unSegmento 1 1).set 54 40

def eseguibileCorto : Eseguibile :=
  { formato := elf64, h := elf64.leggiEhdr vociCorte, segBuf := slice vociCorte 64 40 }

/-- Its one entry is accepted, and `p_memsz` is read from the eight bytes behind it. -/
theorem voci_corte_lette_oltre :
    elf64.interpreta vociCorte = .ok (some eseguibileCorto) ∧ eseguibileCorto.segBuf.length = 40 ∧
    ⟨40, 8⟩ ∈ (eseguibileCorto.itera (fun _ => 0) chiamatiDaEstrai 0).letture ∧
    ¬ eseguibileCorto.LettureInterne (fun _ => 0) chiamatiDaEstrai := by
  have haccept : elf64.interpreta vociCorte = .ok (some eseguibileCorto) := by decide +kernel
  have hlen : eseguibileCorto.segBuf.length = 40 := by decide +kernel
  have hread : ⟨40, 8⟩ ∈ (eseguibileCorto.itera (fun _ => 0) chiamatiDaEstrai 0).letture := by
    rw [Eseguibile.itera_eq]
    decide +kernel
  refine ⟨haccept, hlen, hread, ?_⟩
  intro hall
  have hin := hall _ hread
  rw [hlen] at hin
  exact absurd hin (by decide)

end EndlessFault.Elf
