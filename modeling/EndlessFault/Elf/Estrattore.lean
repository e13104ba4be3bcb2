import EndlessFault.Elf.Eseguibile

/- Loading an executable into memory (`elf/estrattore.cpp`, and
   `copia_segmento` of the two segment classes).

   Addresses are 64-bit: a store is named by the difference, modulo `2^64`, of
   its address from `dest`, so it lies inside the destination exactly when that
   number is below `dest_size`. `estraiSegmento` returns every store in order,
   with the entry point or the way the process ended.

   Main result: `stores_inside_iff`. The check of `estrai_segmento` is on
   `p_vaddr + p_memsz` modulo `2^64`, while `copia_segmento` stores as many bytes
   as the file gives of `p_filesz`; `Contenuto` is what a header that passes the
   check must satisfy for its stores to stay inside. -/
namespace EndlessFault.Elf
open Lib.Bytes

/-- A byte stored at an offset from `dest`. -/
structure Store where
  offset : UInt64
  byte : UInt8
  deriving DecidableEq, Repr

/-- The bytes `fread` copies to `dest + p_vaddr`, up to `p_filesz`. -/
def copiati (file : List UInt8) (ph : Phdr) : List UInt8 :=
  slice file ph.pOffset.toNat ph.pFilesz.toNat

/-- The stores of `copia_segmento`: the bytes of the file, then the zeros from
`p_filesz` to `p_memsz`. -/
def storeSegmento (file : List UInt8) (ph : Phdr) : List Store :=
  (copiati file ph).mapIdx (fun k b => ⟨ph.pVaddr + UInt64.ofNat k, b⟩) ++
  if ph.pMemsz > ph.pFilesz then
    (List.range (ph.pMemsz - ph.pFilesz).toNat).map fun k =>
      ⟨ph.pVaddr + ph.pFilesz + UInt64.ofNat k, 0⟩
  else []

def copiaSegmento (file : List UInt8) (ph : Phdr) : Except Fallimento (List Store) :=
  if fseek ph.pOffset = false then .error .erroreNelFile else .ok (storeSegmento file ph)

/-- The first interpreter, in the order of registration, that accepts the file. -/
def scegli (file : List UInt8) : List Formato → Except Fallimento (Option Eseguibile)
  | [] => .ok none
  | f :: interpreti =>
    match f.interpreta file with
    | .error e => .error e
    | .ok (some exe) => .ok (some exe)
    | .ok none => scegli file interpreti

/-- The loop over the segments: a segment that does not pass the check is
skipped, one that cannot be read ends the process. -/
def carica (file : List UInt8) (destSize : UInt64) : List Phdr → List Store × Option Fallimento
  | [] => ([], none)
  | ph :: segmenti =>
    if ph.pVaddr + ph.pMemsz > destSize then carica file destSize segmenti
    else
      match copiaSegmento file ph with
      | .error e => ([], some e)
      | .ok stores =>
        let later := carica file destSize segmenti
        (stores ++ later.1, later.2)

structure Esito where
  stores : List Store
  ritorno : Except Fallimento UInt64

def estraiSegmento (interpreti : List Formato) (oltre : Nat → UInt8) (file : List UInt8)
    (destSize : UInt64) : Esito :=
  match scegli file interpreti with
  | .error e => ⟨[], .error e⟩
  | .ok none => ⟨[], .error .formatoNonRiconosciuto⟩
  | .ok (some exe) =>
    let r := carica file destSize (exe.segmenti oltre)
    ⟨r.1, match r.2 with
      | some e => .error e
      | none => .ok exe.h.eEntry⟩

/-! What the stores stay inside of. -/

/-- The headers whose segment is copied: those that pass the check, up to the
first whose file offset cannot be reached. -/
def daCopiare (destSize : UInt64) : List Phdr → List Phdr
  | [] => []
  | ph :: segmenti =>
    if ph.pVaddr + ph.pMemsz > destSize then daCopiare destSize segmenti
    else if fseek ph.pOffset = false then []
    else ph :: daCopiare destSize segmenti

/-- The bytes the file has for a segment end inside the destination, and the
zeros after them do not reach the end of the address space. -/
def Contenuto (file : List UInt8) (destSize : UInt64) (ph : Phdr) : Prop :=
  (let letti := min ph.pFilesz.toNat (file.length - ph.pOffset.toNat)
   letti = 0 ∨ ph.pVaddr.toNat + letti ≤ destSize.toNat) ∧
  (ph.pMemsz.toNat ≤ ph.pFilesz.toNat ∨
    (ph.pVaddr.toNat + ph.pFilesz.toNat) % 2^64 + (ph.pMemsz.toNat - ph.pFilesz.toNat) < 2^64)

instance (file : List UInt8) (destSize : UInt64) (ph : Phdr) :
    Decidable (Contenuto file destSize ph) := inferInstanceAs (Decidable (_ ∧ _))

/-- Consecutive offsets modulo `2^64` are all below a bound exactly when they
end below it without wrapping. -/
theorem offsets_inside_iff (base size : UInt64) (n : Nat) :
    (∀ k, k < n → base + UInt64.ofNat k < size) ↔ n = 0 ∨ base.toNat + n ≤ size.toNat := by
  have hsize := size.toNat_lt
  constructor
  · intro h
    by_contra hout
    rw [not_or] at hout
    -- the offset `size`, or the first one if that is beyond it already
    have hk := UInt64.lt_iff_toNat_lt.mp (h (size.toNat - base.toNat) (by omega))
    rw [UInt64.toNat_add, UInt64.toNat_ofNat'] at hk
    have hbase := base.toNat_lt
    omega
  · rintro (rfl | hend) k hk
    · omega
    · rw [UInt64.lt_iff_toNat_lt, UInt64.toNat_add, UInt64.toNat_ofNat']
      omega

theorem length_copiati (file : List UInt8) (ph : Phdr) :
    (copiati file ph).length = min ph.pFilesz.toNat (file.length - ph.pOffset.toNat) := by
  simp [copiati, slice]

/-- The stores of one segment that passed the check. -/
theorem storeSegmento_inside_iff (file : List UInt8) {destSize : UInt64} {ph : Phdr}
    (hcheck : ph.pVaddr + ph.pMemsz ≤ destSize) :
    (∀ s ∈ storeSegmento file ph, s.offset < destSize) ↔ Contenuto file destSize ph := by
  have hfile : (∀ s ∈ (copiati file ph).mapIdx (fun k b => Store.mk (ph.pVaddr + UInt64.ofNat k) b),
      s.offset < destSize) ↔
      ∀ k, k < (copiati file ph).length → ph.pVaddr + UInt64.ofNat k < destSize := by
    simp only [List.mem_mapIdx, forall_exists_index]
    constructor
    · intro h k hk
      exact h _ k hk rfl
    · rintro h s k hk rfl
      exact h k hk
  have hzero : ∀ n, (∀ s ∈ (List.range n).map (fun k =>
      Store.mk (ph.pVaddr + ph.pFilesz + UInt64.ofNat k) 0), s.offset < destSize) ↔
      ∀ k, k < n → ph.pVaddr + ph.pFilesz + UInt64.ofNat k < destSize := by
    intro n
    simp only [List.forall_mem_map, List.mem_range]
  rw [storeSegmento, List.forall_mem_append, hfile, offsets_inside_iff, length_copiati, Contenuto]
  refine and_congr_right fun _ => ?_
  by_cases hbss : ph.pMemsz > ph.pFilesz
  · -- the zeros end at `p_vaddr + p_memsz`, which the check bounds unless they wrap
    have hlt := UInt64.lt_iff_toNat_lt.mp hbss
    have hle := UInt64.le_iff_toNat_le.mp hcheck
    have hlen : (ph.pMemsz - ph.pFilesz).toNat = ph.pMemsz.toNat - ph.pFilesz.toNat :=
      UInt64.toNat_sub_of_le _ _ (UInt64.le_of_lt hbss)
    have hmem := ph.pMemsz.toNat_lt
    have hsize := destSize.toNat_lt
    rw [if_pos hbss, hzero, offsets_inside_iff, hlen, UInt64.toNat_add]
    rw [UInt64.toNat_add] at hle
    omega
  · have hle : ph.pMemsz.toNat ≤ ph.pFilesz.toNat := by
      rw [gt_iff_lt, UInt64.lt_iff_toNat_lt] at hbss
      omega
    rw [if_neg hbss]
    exact ⟨fun _ => .inl hle, fun _ s hs => absurd hs List.not_mem_nil⟩

/-- The stores of the whole loop are those of the copied headers, in order. -/
theorem carica_stores (file : List UInt8) (destSize : UInt64) (segmenti : List Phdr) :
    (carica file destSize segmenti).1 = (daCopiare destSize segmenti).flatMap (storeSegmento file) := by
  induction segmenti with
  | nil => rfl
  | cons ph segmenti ih =>
    rw [carica, daCopiare]
    split_ifs with hskip hseek
    · exact ih
    · rw [copiaSegmento, if_pos hseek]
      rfl
    · rw [copiaSegmento, if_neg hseek, List.flatMap_cons, ← ih]

/-- The loop ends the process exactly on a segment that passes the check and whose
file offset cannot be reached. -/
theorem carica_none_iff (file : List UInt8) (destSize : UInt64) (segmenti : List Phdr) :
    (carica file destSize segmenti).2 = none ↔
      ∀ ph ∈ segmenti, ph.pVaddr + ph.pMemsz ≤ destSize → fseek ph.pOffset = true := by
  induction segmenti with
  | nil => simp [carica]
  | cons ph segmenti ih =>
    rw [carica, List.forall_mem_cons]
    by_cases hskip : ph.pVaddr + ph.pMemsz > destSize
    · have hcheck : ¬ ph.pVaddr + ph.pMemsz ≤ destSize := UInt64.not_le.mpr hskip
      rw [if_pos hskip, ih]
      exact (and_iff_right fun h => absurd h hcheck).symm
    · have hcheck : ph.pVaddr + ph.pMemsz ≤ destSize := UInt64.not_lt.mp hskip
      rw [if_neg hskip, copiaSegmento]
      cases hseek : fseek ph.pOffset with
      | false => simp [hcheck]
      | true => simpa [hcheck] using ih

theorem check_of_mem_daCopiare {destSize : UInt64} {segmenti : List Phdr} {ph : Phdr}
    (h : ph ∈ daCopiare destSize segmenti) : ph.pVaddr + ph.pMemsz ≤ destSize := by
  induction segmenti with
  | nil => exact absurd h List.not_mem_nil
  | cons ph' segmenti ih =>
    rw [daCopiare] at h
    split_ifs at h with hskip hseek
    · exact ih h
    · exact absurd h List.not_mem_nil
    · rcases List.mem_cons.mp h with rfl | h
      · exact UInt64.not_lt.mp hskip
      · exact ih h

theorem mem_of_mem_daCopiare {destSize : UInt64} {segmenti : List Phdr} {ph : Phdr}
    (h : ph ∈ daCopiare destSize segmenti) : ph ∈ segmenti := by
  induction segmenti with
  | nil => exact absurd h List.not_mem_nil
  | cons ph' segmenti ih =>
    rw [daCopiare] at h
    split_ifs at h with hskip hseek
    · exact List.mem_cons_of_mem ph' (ih h)
    · exact absurd h List.not_mem_nil
    · rcases List.mem_cons.mp h with rfl | h
      · exact List.mem_cons_self
      · exact List.mem_cons_of_mem ph' (ih h)

theorem stores_eq (interpreti : List Formato) (oltre : Nat → UInt8) {file : List UInt8}
    (destSize : UInt64) {exe : Eseguibile} (h : scegli file interpreti = .ok (some exe)) :
    (estraiSegmento interpreti oltre file destSize).stores =
      (daCopiare destSize (exe.segmenti oltre)).flatMap (storeSegmento file) := by
  rw [estraiSegmento, h]
  exact carica_stores file destSize (exe.segmenti oltre)

/-- For every file that an interpreter accepts, every byte stored while loading
lies inside the destination exactly when every copied header is `Contenuto`. -/
theorem stores_inside_iff (interpreti : List Formato) (oltre : Nat → UInt8) {file : List UInt8}
    (destSize : UInt64) {exe : Eseguibile} (h : scegli file interpreti = .ok (some exe)) :
    (∀ s ∈ (estraiSegmento interpreti oltre file destSize).stores, s.offset < destSize) ↔
      ∀ ph ∈ daCopiare destSize (exe.segmenti oltre), Contenuto file destSize ph := by
  rw [stores_eq interpreti oltre destSize h]
  constructor
  · intro hin ph hph
    refine (storeSegmento_inside_iff file (check_of_mem_daCopiare hph)).mp fun s hs => ?_
    exact hin s (List.mem_flatMap.mpr ⟨ph, hph, hs⟩)
  · intro hgood s hs
    obtain ⟨ph, hph, hs⟩ := List.mem_flatMap.mp hs
    exact (storeSegmento_inside_iff file (check_of_mem_daCopiare hph)).mpr (hgood ph hph) s hs

/-! A file with one segment. -/

/-- A 64-bit executable of one loadable segment at `0x7FFFFF`, the last byte of
8 MiB, which takes its bytes from the start of the file. -/
def unSegmento (filesz memsz : UInt8) : List UInt8 :=
  [0x7f, 0x45, 0x4c, 0x46, 2, 1, 1] ++ List.replicate 9 0 ++ [2, 0, 62, 0, 1, 0, 0, 0] ++
  List.replicate 8 0 ++ [64, 0, 0, 0, 0, 0, 0, 0] ++ List.replicate 8 0 ++
  [0, 0, 0, 0, 64, 0, 56, 0, 1, 0, 0, 0, 0, 0, 0, 0] ++
  [1, 0, 0, 0, 0, 0, 0, 0] ++ List.replicate 8 0 ++ [0xff, 0xff, 0x7f, 0, 0, 0, 0, 0] ++
  List.replicate 8 0 ++ [filesz, 0, 0, 0, 0, 0, 0, 0] ++ [memsz, 0, 0, 0, 0, 0, 0, 0] ++
  List.replicate 8 0

def eseguibile (file : List UInt8) : Eseguibile :=
  { formato := elf64, h := elf64.leggiEhdr file, segBuf := slice file 64 56 }

theorem stores_inside_last_byte :
    scegli (unSegmento 1 1) [elf64, elf32] = .ok (some (eseguibile (unSegmento 1 1))) ∧
    ∀ s ∈ (estraiSegmento [elf64, elf32] (fun _ => 0) (unSegmento 1 1) 0x800000).stores,
      s.offset < 0x800000 := by
  have haccept : scegli (unSegmento 1 1) [elf64, elf32] = .ok (some (eseguibile (unSegmento 1 1))) := by
    decide +kernel
  refine ⟨haccept, ?_⟩
  exact (stores_inside_iff [elf64, elf32] (fun _ => 0) 0x800000 haccept).mpr (by decide +kernel)

/-- Two bytes in the file for none in memory: the check passes, and the second
byte is stored after the end of the destination. -/
theorem file_longer_than_memory_overruns :
    scegli (unSegmento 2 0) [elf64, elf32] = .ok (some (eseguibile (unSegmento 2 0))) ∧
    ¬ ∀ s ∈ (estraiSegmento [elf64, elf32] (fun _ => 0) (unSegmento 2 0) 0x800000).stores,
      s.offset < 0x800000 := by
  refine ⟨by decide +kernel, fun h => ?_⟩
  have hlast := h ⟨0x800000, 0x45⟩ (by decide +kernel)
  exact absurd hlast (by decide)

end EndlessFault.Elf
