import EndlessFault.Elf.Estrattore
import EndlessFault.GuestMemory

/- The memory image that loading an executable leaves. `immagine` says what is
   wanted, from the bytes of the file: the program headers in the order of the
   table, each one of type `PT_LOAD` that fits copied from the file and filled with
   zeros, all others ignored. `immagine_corretta`: for a file with whole and well
   formed segments, `estrai_segmento` leaves exactly that image and returns the
   entry point, whichever interpreter is asked first.

   The length of a file is an `off_t`, so it is below `2^63`. -/
namespace EndlessFault.Elf
open Lib.Bytes

/-- The destination after the stores, in order. -/
def applica (stores : List Store) (dest : Memory) : Memory :=
  stores.foldl (fun m s => m.store s.offset.toNat [s.byte]) dest

/-- The two interpreters, in the order static initialisation registered them. -/
def Registrati (interpreti : List Formato) : Prop :=
  interpreti = [elf32, elf64] ∨ interpreti = [elf64, elf32]

/-! The image wanted. -/

/-- The program header at offset `off` of the file. -/
def Formato.phdrNelFile (f : Formato) (file : List UInt8) (off : Nat) : Phdr :=
  let byte (k : Nat) := file.getD (off + k) 0
  { pType := campo byte 0 4
    pOffset := UInt64.ofNat (campo byte f.pOffset f.parola)
    pVaddr := UInt64.ofNat (campo byte f.pVaddr f.parola)
    pFilesz := UInt64.ofNat (campo byte f.pFilesz f.parola)
    pMemsz := UInt64.ofNat (campo byte f.pMemsz f.parola) }

/-- The program headers of the file, in the order of the table. -/
def Formato.intestazioni (f : Formato) (file : List UInt8) : List Phdr :=
  let h := f.leggiEhdr file
  (List.range h.ePhnum).map fun i => f.phdrNelFile file (h.ePhoff.toNat + f.phdrSize * i)

/-- The memory with one segment loaded: the bytes of the file, then zeros. -/
def caricato (file : List UInt8) (m : Memory) (ph : Phdr) : Memory := fun x =>
  if ph.pVaddr.toNat ≤ x ∧ x < ph.pVaddr.toNat + ph.pFilesz.toNat then
    file.getD (ph.pOffset.toNat + (x - ph.pVaddr.toNat).toNat) 0
  else if ph.pVaddr.toNat + ph.pFilesz.toNat ≤ x ∧ x < ph.pVaddr.toNat + ph.pMemsz.toNat then 0
  else m x

/-- A header whose segment is to be loaded. -/
def daCaricare (destSize : UInt64) (ph : Phdr) : Bool :=
  ph.pType == ptLoad && decide (ph.pVaddr.toNat + ph.pMemsz.toNat ≤ destSize.toNat)

def immagine (file : List UInt8) (destSize : UInt64) (intestazioni : List Phdr) (dest : Memory) :
    Memory :=
  (intestazioni.filter (daCaricare destSize)).foldl (caricato file) dest

/-- What is asked of a loadable segment: its bytes are in the file and fit the
memory it claims, which does not wrap. -/
structure BenFormato (file : List UInt8) (ph : Phdr) : Prop where
  filesz_le : ph.pFilesz.toNat ≤ ph.pMemsz.toNat
  memsz_lt : ph.pVaddr.toNat + ph.pMemsz.toNat < 2^64
  in_file : ph.pOffset.toNat + ph.pFilesz.toNat ≤ file.length

/-! The stores of a segment. -/

theorem applica_append (s t : List Store) (m : Memory) :
    applica (s ++ t) m = applica t (applica s m) := List.foldl_append

/-- Loading leaves the bytes alone at which nothing is stored. -/
theorem applica_frame {stores : List Store} {x : Int} (h : ∀ s ∈ stores, (s.offset.toNat : Int) ≠ x)
    (m : Memory) : applica stores m x = m x := by
  induction stores generalizing m with
  | nil => rfl
  | cons s stores ih =>
    have hs := h s List.mem_cons_self
    have hone : m.store s.offset.toNat [s.byte] x = m x := by
      rw [Memory.store, if_neg (by rw [List.length_singleton]; omega)]
    exact (ih (fun t ht => h t (List.mem_cons_of_mem s ht)) _).trans hone

/-- Bytes stored one after the other are one store of all of them. -/
theorem applica_consecutivi (bs : List UInt8) (base : UInt64) (m : Memory)
    (h : base.toNat + bs.length < 2^64) :
    applica (bs.mapIdx fun k b => ⟨base + UInt64.ofNat k, b⟩) m = m.store base.toNat bs := by
  induction bs generalizing base m with
  | nil => exact (Memory.store_nil m _).symm
  | cons b bs ih =>
    rw [List.length_cons] at h
    have hnext : (base + 1).toNat = base.toNat + 1 := by
      simp only [UInt64.toNat_add, UInt64.reduceToNat]
      omega
    have hshift : (bs.mapIdx fun k c => Store.mk (base + UInt64.ofNat (k + 1)) c) =
        bs.mapIdx fun k c => Store.mk (base + 1 + UInt64.ofNat k) c := by
      congr 1
      funext k c
      rw [UInt64.ofNat_add, UInt64.add_assoc, UInt64.add_comm (UInt64.ofNat k)]
      rfl
    have hzero : base + UInt64.ofNat 0 = base := UInt64.add_zero base
    rw [List.mapIdx_cons, hshift, hzero, applica, List.foldl_cons, ← applica, ih _ _ (by omega), hnext]
    funext x
    simp only [Memory.store, List.length_cons, List.length_nil]
    by_cases hfirst : x = base.toNat
    · subst hfirst
      rw [if_neg (by omega), if_pos (by omega), if_pos (by omega), Int.sub_self]
      rfl
    · by_cases hin : (base.toNat : Int) + 1 ≤ x ∧ x < base.toNat + 1 + bs.length
      · have hidx : (x - base.toNat).toNat = (x - (base.toNat + 1)).toNat + 1 := by omega
        rw [if_pos (by omega), if_pos (by omega), hidx, List.getD_cons_succ]
        congr 2
      · rw [if_neg (by omega), if_neg (by omega), if_neg (by omega)]

theorem range_map_zeri (n : Nat) (g : Nat → UInt8 → Store) :
    (List.range n).map (fun k => g k 0) = (List.replicate n (0 : UInt8)).mapIdx g := by
  apply List.ext_getElem?
  intro i
  rw [List.getElem?_map, List.getElem?_mapIdx, List.getElem?_replicate]
  by_cases hi : i < n
  · rw [List.getElem?_range hi, if_pos hi]
    rfl
  · rw [List.getElem?_eq_none (by simpa using hi), if_neg hi]
    rfl

/-- A well-formed segment is stored as it is wanted. -/
theorem applica_segmento {file : List UInt8} {ph : Phdr} (h : BenFormato file ph) (m : Memory) :
    applica (storeSegmento file ph) m = caricato file m ph := by
  obtain ⟨hfile, hmem, hin⟩ := h
  have hlen : (copiati file ph).length = ph.pFilesz.toNat := by
    rw [length_copiati]
    omega
  have hbyte : ∀ i, i < ph.pFilesz.toNat →
      (copiati file ph).getD i 0 = file.getD (ph.pOffset.toNat + i) 0 := by
    intro i hi
    rw [copiati, List.getD_eq_getElem?_getD, getElem?_slice, if_pos hi, List.getD_eq_getElem?_getD]
  rw [storeSegmento, applica_append, applica_consecutivi _ _ _ (by omega)]
  have hcopy : ∀ x : Int, ¬ (ph.pVaddr.toNat + ph.pFilesz.toNat ≤ x ∧
      x < ph.pVaddr.toNat + ph.pMemsz.toNat) →
      m.store ph.pVaddr.toNat (copiati file ph) x = caricato file m ph x := by
    intro x hx
    rw [Memory.store, caricato, hlen]
    by_cases hcov : (ph.pVaddr.toNat : Int) ≤ x ∧ x < ph.pVaddr.toNat + ph.pFilesz.toNat
    · rw [if_pos hcov, if_pos hcov, hbyte _ (by omega)]
    · rw [if_neg hcov, if_neg hcov, if_neg hx]
  funext x
  by_cases hbss : ph.pMemsz > ph.pFilesz
  · have hlt := UInt64.lt_iff_toNat_lt.mp hbss
    have hcount : (ph.pMemsz - ph.pFilesz).toNat = ph.pMemsz.toNat - ph.pFilesz.toNat :=
      UInt64.toNat_sub_of_le _ _ (UInt64.le_of_lt hbss)
    have hbase : (ph.pVaddr + ph.pFilesz).toNat = ph.pVaddr.toNat + ph.pFilesz.toNat := by
      rw [UInt64.toNat_add]
      omega
    rw [if_pos hbss, range_map_zeri _ (fun k b => ⟨ph.pVaddr + ph.pFilesz + UInt64.ofNat k, b⟩),
      applica_consecutivi _ _ _ (by rw [List.length_replicate, hbase, hcount]; omega), Memory.store,
      List.length_replicate, hbase, hcount]
    by_cases hz : (ph.pVaddr.toNat : Int) + ph.pFilesz.toNat ≤ x ∧ x < ph.pVaddr.toNat + ph.pMemsz.toNat
    · rw [if_pos (by omega), caricato, if_neg (by omega), if_pos hz,
        List.getD_eq_getElem?_getD, List.getElem?_replicate]
      split_ifs <;> rfl
    · rw [if_neg (by omega)]
      exact hcopy x hz
  · have hge : ph.pMemsz.toNat ≤ ph.pFilesz.toNat := by
      rw [gt_iff_lt, UInt64.lt_iff_toNat_lt] at hbss
      omega
    rw [if_neg hbss]
    exact hcopy x (by omega)

/-! The program headers. -/

theorem campi_interni {f : Formato} (hf : f = elf32 ∨ f = elf64) :
    4 ≤ f.phdrSize ∧ f.pOffset + f.parola ≤ f.phdrSize ∧ f.pVaddr + f.parola ≤ f.phdrSize ∧
    f.pFilesz + f.parola ≤ f.phdrSize ∧ f.pMemsz + f.parola ≤ f.phdrSize := by
  rcases hf with rfl | rfl <;> decide

theorem campo_congr {byte byte' : Nat → UInt8} {off size : Nat}
    (h : ∀ k, k < off + size → byte k = byte' k) : campo byte off size = campo byte' off size := by
  unfold campo
  congr 1
  apply List.map_congr_left
  intro i hi
  exact h _ (by have := List.mem_range.mp hi; omega)

theorem leggiTabella_ok {file table : List UInt8} {off : UInt64} {size n : Nat}
    (h : leggiTabella file off size n = .ok table) :
    table = slice file off.toNat (n * size) ∧ (n * size = 0 ∨ off.toNat + n * size ≤ file.length) := by
  unfold leggiTabella at h
  split_ifs at h with hbig hread
  obtain rfl : slice file off.toNat (n * size) = table := by simpa using h
  refine ⟨rfl, ?_⟩
  rcases Nat.eq_zero_or_pos size with h0 | hsize
  · exact .inl (by rw [h0, Nat.mul_zero])
  · rw [not_or, fread, if_neg (by omega)] at hread
    have hn : n ≤ (file.length - off.toNat) / size := by omega
    have hmul := (Nat.le_div_iff_mul_le hsize).mp hn
    omega

/-- What an accepted file gives: its header, and its table of program headers. -/
theorem interpreta_ok {f : Formato} {file : List UInt8} {exe : Eseguibile}
    (h : f.interpreta file = .ok (some exe)) :
    f.riconosce file = true ∧ exe.formato = f ∧ exe.h = f.leggiEhdr file ∧
    leggiTabella file exe.h.ePhoff exe.h.ePhentsize exe.h.ePhnum = .ok exe.segBuf := by
  unfold Formato.interpreta at h
  split_ifs at h with hlen hric
  · simp at h
  · simp at h
  · cases hseg : leggiTabella file (f.leggiEhdr file).ePhoff (f.leggiEhdr file).ePhentsize
        (f.leggiEhdr file).ePhnum with
    | error e => simp [hseg, bind, Except.bind] at h
    | ok table =>
      cases hsec : leggiTabella file (f.leggiEhdr file).eShoff (f.leggiEhdr file).eShentsize
          (f.leggiEhdr file).eShnum with
      | error e => simp [hseg, hsec, bind, Except.bind] at h
      | ok _ =>
        simp only [hseg, hsec, bind, Except.bind, pure, Except.pure, Except.ok.injEq,
          Option.some.injEq] at h
        subst h
        exact ⟨by simpa using hric, rfl, rfl, hseg⟩

section
variable {f : Formato} {file : List UInt8} {exe : Eseguibile} (h : f.interpreta file = .ok (some exe))

include h

/-- The table of an accepted file is loaded whole. -/
theorem length_segBuf : exe.segBuf.length = exe.h.ePhnum * exe.h.ePhentsize := by
  obtain ⟨-, -, -, htab⟩ := interpreta_ok h
  obtain ⟨hbuf, hfit⟩ := leggiTabella_ok htab
  rw [hbuf]
  rcases hfit with hempty | hfit
  · rw [hempty]
    rfl
  · exact length_slice hfit

/-- Every byte of the table is a byte of the file. -/
theorem segByte_eq (oltre : Nat → UInt8) {j : Nat} (hj : j < exe.h.ePhnum * exe.h.ePhentsize) :
    exe.segByte oltre j = file.getD (exe.h.ePhoff.toNat + j) 0 := by
  obtain ⟨-, -, -, htab⟩ := interpreta_ok h
  have hlen := length_segBuf h
  rw [Eseguibile.segByte, if_pos (by omega), (leggiTabella_ok htab).1, List.getD_eq_getElem?_getD,
    getElem?_slice, if_pos hj, List.getD_eq_getElem?_getD]

/-- A field of an entry that lies in the table is the one in the file. -/
theorem campo_phdr (oltre : Nat → UInt8) {i off size : Nat}
    (hin : exe.h.ePhentsize * i + off + size ≤ exe.h.ePhnum * exe.h.ePhentsize) :
    campo (fun k => exe.segByte oltre (exe.h.ePhentsize * i + k)) off size =
      campo (fun k => file.getD (exe.h.ePhoff.toNat + exe.h.ePhentsize * i + k) 0) off size := by
  apply campo_congr
  intro k hk
  rw [segByte_eq h oltre (by omega), Nat.add_assoc]

end

/-- Entry `i` ends inside a table of `n` entries. -/
theorem riga_interna {i n : Nat} (size : Nat) (hi : i < n) : size * i + size ≤ n * size := by
  calc size * i + size = (i + 1) * size := by rw [Nat.add_mul, Nat.one_mul, Nat.mul_comm]
    _ ≤ n * size := Nat.mul_le_mul_right _ hi

/-- With entries of the size of the structure, the headers walked are those of
the file. -/
theorem segmenti_eq {f : Formato} (hf : f = elf32 ∨ f = elf64) {file : List UInt8} {exe : Eseguibile}
    (h : f.interpreta file = .ok (some exe)) (hsize : exe.h.ePhentsize = f.phdrSize)
    (oltre : Nat → UInt8) :
    exe.segmenti oltre = (f.intestazioni file).filter fun ph => ph.pType == ptLoad := by
  obtain ⟨-, hformato, hh, -⟩ := interpreta_ok h
  obtain ⟨h4, hoff, hva, hfi, hme⟩ := campi_interni hf
  have hphdr : ∀ i ∈ List.range exe.h.ePhnum, exe.phdr oltre i =
      f.phdrNelFile file ((f.leggiEhdr file).ePhoff.toNat + f.phdrSize * i) := by
    intro i hi
    have hrow := riga_interna exe.h.ePhentsize (List.mem_range.mp hi)
    unfold Eseguibile.phdr Formato.phdrNelFile
    simp only [hformato]
    rw [campo_phdr h oltre (by omega), campo_phdr h oltre (by omega), campo_phdr h oltre (by omega),
      campo_phdr h oltre (by omega), campo_phdr h oltre (by omega), hsize, hh]
  rw [Eseguibile.segmenti, List.map_congr_left hphdr, Formato.intestazioni, ← hh]

/-! The whole file. -/

theorem interpreta_none {f : Formato} {file : List UInt8} (h : f.riconosce file = false) :
    f.interpreta file = .ok none := by
  unfold Formato.interpreta
  split_ifs
  · rfl
  · rfl

/-- A recognised file is not recognised by the interpreter of another class. -/
theorem riconosce_altra_classe {f g : Formato} (hclasse : g.classe ≠ f.classe) {file : List UInt8}
    (h : f.riconosce file = true) : g.riconosce file = false := by
  simp only [Formato.riconosce, Bool.and_eq_true, beq_iff_eq] at h
  simp only [Formato.riconosce, h.2.1.1.1, Bool.and_eq_false_iff, beq_eq_false_iff_ne]
  exact .inr (.inl (.inl (.inl hclasse.symm)))

/-- Interpreters of different classes can be asked in any order. -/
theorem scegli_perm (file : List UInt8) {l l' : List Formato} (hperm : l.Perm l')
    (hclassi : ∀ f ∈ l, ∀ g ∈ l, f.classe = g.classe → f = g) : scegli file l = scegli file l' := by
  induction hperm with
  | nil => rfl
  | cons f _ ih =>
    have hrest := ih fun g hg k hk => hclassi g (List.mem_cons_of_mem f hg) k (List.mem_cons_of_mem f hk)
    rw [scegli, scegli, hrest]
  | swap f g l =>
    by_cases hsame : g = f
    · rw [hsame]
    · have hclasse : g.classe ≠ f.classe :=
        fun h => hsame (hclassi g List.mem_cons_self f (List.mem_cons_of_mem g List.mem_cons_self) h)
      -- one of the two does not recognise the file and is passed over
      by_cases hric : f.riconosce file = true
      · simp only [scegli, interpreta_none (riconosce_altra_classe hclasse hric)]
      · simp only [scegli, interpreta_none (Bool.eq_false_iff.mpr hric)]
  | trans h₁ _ ih₁ ih₂ =>
    rw [ih₁ hclassi]
    exact ih₂ fun f hf g hg => hclassi f (h₁.mem_iff.mpr hf) g (h₁.mem_iff.mpr hg)

theorem registrati_perm {interpreti : List Formato} (h : Registrati interpreti) :
    interpreti.Perm [elf32, elf64] := by
  rcases h with rfl | rfl
  · exact .refl _
  · exact .swap ..

theorem classi_diverse : ∀ f ∈ [elf32, elf64], ∀ g ∈ [elf32, elf64], f.classe = g.classe → f = g := by
  decide

/-- The interpreter of a class decides, wherever it stands. -/
theorem scegli_altri_none {f : Formato} (hf : f = elf32 ∨ f = elf64) {interpreti : List Formato}
    (hint : Registrati interpreti) {file : List UInt8}
    (hother : ∀ g : Formato, g.classe ≠ f.classe → g.interpreta file = .ok none) :
    scegli file interpreti = f.interpreta file := by
  have hpair := (scegli_perm file (registrati_perm hint).symm classi_diverse).symm
  rw [hpair]
  have hlast : ∀ g : Formato, scegli file [g] = g.interpreta file := by
    intro g
    rw [scegli]
    cases g.interpreta file with
    | error e => rfl
    | ok exe => cases exe <;> rfl
  rcases hf with rfl | rfl
  · rw [scegli_perm file (.swap ..) classi_diverse, scegli, hother elf64 (by decide)]
    exact hlast elf32
  · rw [scegli, hother elf32 (by decide)]
    exact hlast elf64

theorem scegli_ok {f : Formato} (hf : f = elf32 ∨ f = elf64) {interpreti : List Formato}
    (hint : Registrati interpreti) {file : List UInt8} {exe : Eseguibile}
    (h : f.interpreta file = .ok (some exe)) : scegli file interpreti = .ok (some exe) := by
  have hric := (interpreta_ok h).1
  rw [scegli_altri_none hf hint fun g hg => interpreta_none (riconosce_altra_classe hg hric), h]

/-- The loop stores every segment that fits, in order, and does not fail. -/
theorem carica_ok {file : List UInt8} (hlen : file.length < 2^63) (destSize : UInt64)
    {segmenti : List Phdr} (h : ∀ ph ∈ segmenti, BenFormato file ph) :
    carica file destSize segmenti =
      ((segmenti.filter fun ph => ph.pVaddr.toNat + ph.pMemsz.toNat ≤ destSize.toNat).flatMap
        (storeSegmento file), none) := by
  induction segmenti with
  | nil => rfl
  | cons ph segmenti ih =>
    obtain ⟨hfile, hmem, hin⟩ := h ph List.mem_cons_self
    have hlater := ih fun q hq => h q (List.mem_cons_of_mem ph hq)
    have hsum : (ph.pVaddr + ph.pMemsz).toNat = ph.pVaddr.toNat + ph.pMemsz.toNat := by
      rw [UInt64.toNat_add]
      omega
    have hseek : fseek ph.pOffset = true := by
      rw [fseek, decide_eq_true_eq]
      omega
    rw [carica, List.filter_cons]
    by_cases hfit : ph.pVaddr.toNat + ph.pMemsz.toNat ≤ destSize.toNat
    · rw [if_neg (by rw [gt_iff_lt, UInt64.lt_iff_toNat_lt, hsum]; omega), copiaSegmento,
        if_neg (by rw [hseek]; decide), if_pos (by simpa using hfit), List.flatMap_cons, hlater]
    · rw [if_pos (by rw [gt_iff_lt, UInt64.lt_iff_toNat_lt, hsum]; omega),
        if_neg (by simpa using hfit), hlater]

theorem applica_segmenti {file : List UInt8} {segmenti : List Phdr}
    (h : ∀ ph ∈ segmenti, BenFormato file ph) (dest : Memory) :
    applica (segmenti.flatMap (storeSegmento file)) dest = segmenti.foldl (caricato file) dest := by
  induction segmenti generalizing dest with
  | nil => rfl
  | cons ph segmenti ih =>
    rw [List.flatMap_cons, applica_append, applica_segmento (h ph List.mem_cons_self),
      ih fun q hq => h q (List.mem_cons_of_mem ph hq), List.foldl_cons]

theorem caricato_frame (file : List UInt8) {segmenti : List Phdr} (dest : Memory) {x : Int}
    (h : ∀ ph ∈ segmenti, ph.pFilesz.toNat ≤ ph.pMemsz.toNat ∧
      ¬ (ph.pVaddr.toNat ≤ x ∧ x < ph.pVaddr.toNat + ph.pMemsz.toNat)) :
    segmenti.foldl (caricato file) dest x = dest x := by
  induction segmenti generalizing dest with
  | nil => rfl
  | cons ph segmenti ih =>
    obtain ⟨hfile, hout⟩ := h ph List.mem_cons_self
    rw [List.foldl_cons, ih _ fun q hq => h q (List.mem_cons_of_mem ph hq), caricato,
      if_neg (by omega), if_neg (by omega)]

/-- Loading an accepted file with whole and well-formed segments: the entry point
is returned, the destination is the image wanted, and the bytes no loaded segment
covers keep their value. -/
theorem immagine_corretta {f : Formato} (hf : f = elf32 ∨ f = elf64) {interpreti : List Formato}
    (hint : Registrati interpreti) (oltre : Nat → UInt8) {file : List UInt8}
    (hlen : file.length < 2^63) {exe : Eseguibile} (h : f.interpreta file = .ok (some exe))
    (hsize : exe.h.ePhentsize = f.phdrSize)
    (hben : ∀ ph ∈ f.intestazioni file, ph.pType = ptLoad → BenFormato file ph)
    (destSize : UInt64) (dest : Memory) :
    let esito := estraiSegmento interpreti oltre file destSize
    esito.ritorno = .ok (f.leggiEhdr file).eEntry ∧
    applica esito.stores dest = immagine file destSize (f.intestazioni file) dest ∧
    ∀ x : Int, (∀ ph ∈ f.intestazioni file, daCaricare destSize ph = true →
        ¬ (ph.pVaddr.toNat ≤ x ∧ x < ph.pVaddr.toNat + ph.pMemsz.toNat)) →
      applica esito.stores dest x = dest x := by
  intro esito
  have hload : ∀ ph ∈ (f.intestazioni file).filter (fun ph => ph.pType == ptLoad),
      BenFormato file ph := by
    intro ph hph
    obtain ⟨hmem, htype⟩ := List.mem_filter.mp hph
    exact hben ph hmem (by simpa using htype)
  have hesito : esito = ⟨(((f.intestazioni file).filter fun ph => ph.pType == ptLoad).filter
      fun ph => ph.pVaddr.toNat + ph.pMemsz.toNat ≤ destSize.toNat).flatMap (storeSegmento file),
      .ok exe.h.eEntry⟩ := by
    simp only [esito, estraiSegmento, scegli_ok hf hint h, segmenti_eq hf h hsize,
      carica_ok hlen destSize hload]
  have himage : applica esito.stores dest = immagine file destSize (f.intestazioni file) dest := by
    rw [hesito, applica_segmenti fun ph hph => hload ph (List.mem_filter.mp hph).1, List.filter_filter,
      immagine]
    congr 2
    funext ph
    rw [daCaricare, Bool.and_comm]
  refine ⟨?_, himage, fun x hx => ?_⟩
  · rw [hesito, (interpreta_ok h).2.2.1]
  · rw [himage, immagine]
    apply caricato_frame
    intro ph hph
    obtain ⟨hmem, hca⟩ := List.mem_filter.mp hph
    have htype : ph.pType = ptLoad := by
      rw [daCaricare, Bool.and_eq_true] at hca
      exact beq_iff_eq.mp hca.1
    exact ⟨(hben ph hmem htype).filesz_le, hx ph hmem hca⟩

/-- One byte loaded at the end of 8 MiB. -/
theorem immagine_ultimo_byte :
    let esito := estraiSegmento [elf64, elf32] (fun _ => 0) (unSegmento 1 1) 0x800000
    esito.ritorno = .ok 0 ∧
    applica esito.stores (fun _ => 0xAA) 0x7FFFFF = 0x7f ∧
    applica esito.stores (fun _ => 0xAA) 0x7FFFFE = 0xAA := by
  have haccept : elf64.interpreta (unSegmento 1 1) = .ok (some (eseguibile (unSegmento 1 1))) := by
    decide +kernel
  have hhead : elf64.intestazioni (unSegmento 1 1) = [⟨1, 0, 0x7FFFFF, 1, 1⟩] := by
    decide +kernel
  have hfile : (unSegmento 1 1).length = 120 := by decide +kernel
  obtain ⟨hentry, himage, hframe⟩ := immagine_corretta (.inr rfl) (.inr rfl) (fun _ => 0)
    (by rw [hfile]; decide) haccept (by decide +kernel)
    (by
      intro ph hph _
      rw [hhead, List.mem_singleton] at hph
      rw [hph]
      exact ⟨by decide, by decide, by rw [hfile]; decide⟩) 0x800000 (fun _ => 0xAA)
  refine ⟨hentry, ?_, ?_⟩
  · rw [himage, hhead]
    decide +kernel
  · apply hframe
    intro ph hph _
    rw [hhead, List.mem_singleton] at hph
    rw [hph]
    decide

end EndlessFault.Elf
