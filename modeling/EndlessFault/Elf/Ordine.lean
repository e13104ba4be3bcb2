import EndlessFault.Elf.Immagine

/- The order of the interpreters. Each of them registers itself while static objects
   are initialised, at the head of one list (`ListaInterpreti`), and `estrai_segmento`
   asks them from the head on. They share the open file: every attempt leaves its
   position somewhere, or ends the process in the middle of its reads. `File` is the
   file with its position and `Formato.init` the attempt with all of its reads.

   An attempt starts with `fseek` to 0, so it does not depend on where the one before
   left the file (`init_eq`), and no two interpreters recognise the same class byte,
   so at most one of them gets past its checks (`scegli_perm`). Main result:
   `ordine_indifferente`. -/
namespace EndlessFault.Elf
open Lib.Bytes

/-! The open file. -/

/-- `FILE`: the bytes of the file and the position of the next read. -/
structure File where
  bytes : List UInt8
  pos : Nat
  deriving DecidableEq, Repr

namespace File

def fseek (pexe : File) (off : UInt64) : Option File :=
  if Elf.fseek off = true then some { pexe with pos := off.toNat } else none

/-- The bytes `fread` delivers, the number of whole items it returns, and the file. -/
def fread (pexe : File) (size n : Nat) : List UInt8 × Nat × File :=
  let buf := slice pexe.bytes pexe.pos (n * size)
  (buf, buf.length / size, { pexe with pos := pexe.pos + buf.length })

/-- One of the two tables, as `init` loads it. -/
def tabella (pexe : File) (off : UInt64) (size n : Nat) : Except Fallimento (List UInt8 × File) :=
  if 2^31 ≤ n * size then .error .memoriaEsaurita
  else
    match pexe.fseek off with
    | none => .error .finePrematura
    | some pexe =>
      let (buf, letti, pexe) := pexe.fread size n
      if letti < n then .error .finePrematura else .ok (buf, pexe)

end File

/-- `init` on the open file, with the file as it leaves it. -/
def Formato.init (f : Formato) (pexe : File) : Except Fallimento (Option Eseguibile × File) :=
  match pexe.fseek 0 with
  | none => .ok (none, pexe)
  | some pexe =>
    let (h, letti, pexe) := pexe.fread f.ehdrSize 1
    if letti < 1 then .ok (none, pexe)
    else if f.riconosce h = false then .ok (none, pexe)
    else do
      let eh := f.leggiEhdr h
      let (segBuf, pexe) ← pexe.tabella eh.ePhoff eh.ePhentsize eh.ePhnum
      let (_, pexe) ← pexe.tabella eh.eShoff eh.eShentsize eh.eShnum
      return (some { formato := f, h := eh, segBuf := segBuf }, pexe)

/-! The interpreters. -/

/-- The list from its head on, and the part of it not yet visited. -/
structure ListaInterpreti where
  testa : List Formato
  curr : List Formato

namespace ListaInterpreti

def vuota : ListaInterpreti := ⟨[], []⟩

def aggiungi (l : ListaInterpreti) (f : Formato) : ListaInterpreti := { l with testa := f :: l.testa }

def rewind (l : ListaInterpreti) : ListaInterpreti := { l with curr := l.testa }

/-- The list after static initialisation in the given order. -/
def registra (ordine : List Formato) : ListaInterpreti := ordine.foldl aggiungi vuota

end ListaInterpreti

/-- The loop over the interpreters that `ancora` and `prossimo` still give. -/
def cerca (pexe : File) : List Formato → Except Fallimento (Option Eseguibile)
  | [] => .ok none
  | f :: altri =>
    match f.init pexe with
    | .error e => .error e
    | .ok (some exe, _) => .ok (some exe)
    | .ok (none, pexe) => cerca pexe altri

def ListaInterpreti.trova (l : ListaInterpreti) (pexe : File) : Except Fallimento (Option Eseguibile) :=
  cerca pexe l.rewind.curr

/-! One attempt. -/

/-- The items `fread` returns. -/
theorem fread_items (file : List UInt8) (off : UInt64) (size n : Nat) :
    (slice file off.toNat (n * size)).length / size = fread file off size n := by
  have hlen : (slice file off.toNat (n * size)).length = min (n * size) (file.length - off.toNat) := by
    simp [slice]
  rw [hlen, fread]
  split_ifs with hsize
  · rw [hsize, Nat.div_zero]
  · have hpos := Nat.pos_of_ne_zero hsize
    rcases Nat.le_total (n * size) (file.length - off.toNat) with hfits | hshort
    · rw [Nat.min_eq_left hfits, Nat.mul_div_cancel n hpos,
        Nat.min_eq_left ((Nat.le_div_iff_mul_le hpos).mpr hfits)]
    · rw [Nat.min_eq_right hshort, Nat.min_eq_right]
      exact Nat.le_of_mul_le_mul_right (Nat.le_trans (Nat.div_mul_le_self _ _) hshort) hpos

/-- A table does not depend on the position before. -/
theorem tabella_eq (pexe : File) (off : UInt64) (size n : Nat) :
    pexe.tabella off size n = (leggiTabella pexe.bytes off size n).map fun buf =>
      (buf, ⟨pexe.bytes, off.toNat + buf.length⟩) := by
  unfold File.tabella leggiTabella
  by_cases hbig : 2^31 ≤ n * size
  · rw [if_pos hbig, if_pos hbig]
    rfl
  · rw [if_neg hbig, if_neg hbig, File.fseek]
    cases hseek : fseek off with
    | false => simp [Except.map]
    | true =>
      simp only [if_pos, File.fread, fread_items, Bool.true_eq_false, false_or]
      by_cases hshort : fread pexe.bytes off size n < n
      · rw [if_pos hshort, if_pos hshort]
        rfl
      · rw [if_neg hshort, if_neg hshort]
        rfl

theorem testata_interna {f : Formato} (hf : f = elf32 ∨ f = elf64) :
    20 ≤ f.ehdrSize ∧ f.eEntry + f.parola ≤ f.ehdrSize ∧ f.ePhoff + f.parola ≤ f.ehdrSize ∧
    f.eShoff + f.parola ≤ f.ehdrSize ∧ f.ePhentsize + 2 ≤ f.ehdrSize ∧ f.ePhnum + 2 ≤ f.ehdrSize ∧
    f.eShentsize + 2 ≤ f.ehdrSize ∧ f.eShnum + 2 ≤ f.ehdrSize := by
  rcases hf with rfl | rfl <;> decide

/-- The header read into `h` is the one of the file. -/
theorem testata_eq {f : Formato} (hf : f = elf32 ∨ f = elf64) (file : List UInt8) :
    f.riconosce (slice file 0 f.ehdrSize) = f.riconosce file ∧
    f.leggiEhdr (slice file 0 f.ehdrSize) = f.leggiEhdr file := by
  have hbyte : ∀ i, i < f.ehdrSize → (slice file 0 f.ehdrSize).getD i 0 = file.getD i 0 := by
    intro i hi
    rw [List.getD_eq_getElem?_getD, getElem?_slice, if_pos hi, Nat.zero_add, List.getD_eq_getElem?_getD]
  have hcampo : ∀ off size, off + size ≤ f.ehdrSize →
      campo (fun i => (slice file 0 f.ehdrSize).getD i 0) off size = campo (fun i => file.getD i 0) off size :=
    fun off size hin => campo_congr fun k hk => hbyte k (by omega)
  obtain ⟨hident, hentry, hphoff, hshoff, hphentsize, hphnum, hshentsize, hshnum⟩ := testata_interna hf
  refine ⟨?_, ?_⟩
  · unfold Formato.riconosce
    dsimp only
    rw [hbyte 0 (by omega), hbyte 1 (by omega), hbyte 2 (by omega), hbyte 4 (by omega), hbyte 5 (by omega),
      hcampo 16 2 (by omega), hcampo 18 2 (by omega)]
  · unfold Formato.leggiEhdr
    dsimp only
    rw [hcampo _ _ hentry, hcampo _ _ hphoff, hcampo _ _ hshoff, hcampo _ _ hphentsize, hcampo _ _ hphnum,
      hcampo _ _ hshentsize, hcampo _ _ hshnum]

/-- The header is read whole, unless the file is too short for it. -/
theorem fread_testata (f : Formato) (hf : f = elf32 ∨ f = elf64) (file : List UInt8) :
    (slice file 0 (1 * f.ehdrSize)).length / f.ehdrSize < 1 ↔ file.length < f.ehdrSize := by
  have hpos : 20 ≤ f.ehdrSize := (testata_interna hf).1
  have hlen : (slice file 0 (1 * f.ehdrSize)).length = min f.ehdrSize file.length := by
    simp [slice]
  rw [hlen, Nat.div_lt_iff_lt_mul (by omega)]
  omega

/-- An attempt leaves the bytes alone and does not depend on the position before. -/
theorem init_eq {f : Formato} (hf : f = elf32 ∨ f = elf64) (file : List UInt8) (p : Nat) :
    ∃ q, f.init ⟨file, p⟩ = (f.interpreta file).map fun exe => (exe, ⟨file, q⟩) := by
  have hseek : (File.mk file p).fseek 0 = some ⟨file, 0⟩ := rfl
  obtain ⟨hric, hehdr⟩ := testata_eq hf file
  rw [← Nat.one_mul f.ehdrSize] at hric hehdr
  unfold Formato.init Formato.interpreta
  simp only [hseek, File.fread, fread_testata f hf, hric, hehdr, tabella_eq]
  by_cases hshort : file.length < f.ehdrSize
  · rw [if_pos hshort, if_pos hshort]
    exact ⟨_, rfl⟩
  · rw [if_neg hshort, if_neg hshort]
    by_cases hno : f.riconosce file = false
    · rw [if_pos hno, if_pos hno]
      exact ⟨_, rfl⟩
    · rw [if_neg hno, if_neg hno]
      cases leggiTabella file (f.leggiEhdr file).ePhoff (f.leggiEhdr file).ePhentsize
          (f.leggiEhdr file).ePhnum with
      | error e => exact ⟨0, rfl⟩
      | ok table =>
        simp only [Except.map, bind, Except.bind]
        cases leggiTabella file (f.leggiEhdr file).eShoff (f.leggiEhdr file).eShentsize
            (f.leggiEhdr file).eShnum with
        | error e => exact ⟨0, rfl⟩
        | ok table' => exact ⟨_, rfl⟩

theorem cerca_eq {interpreti : List Formato} (hint : ∀ f ∈ interpreti, f = elf32 ∨ f = elf64)
    (file : List UInt8) (p : Nat) : cerca ⟨file, p⟩ interpreti = scegli file interpreti := by
  induction interpreti generalizing p with
  | nil => rfl
  | cons f altri ih =>
    obtain ⟨q, hinit⟩ := init_eq (hint f List.mem_cons_self) file p
    have hrest := ih fun g hg => hint g (List.mem_cons_of_mem f hg)
    rw [cerca, scegli, hinit]
    cases f.interpreta file with
    | error e => rfl
    | ok exe =>
      cases exe with
      | none => exact hrest _
      | some exe => rfl

/-! All orders. -/

theorem testa_registra (ordine : List Formato) : (ListaInterpreti.registra ordine).testa = ordine.reverse := by
  have hloop : ∀ (ordine : List Formato) (l : ListaInterpreti),
      (ordine.foldl ListaInterpreti.aggiungi l).testa = ordine.reverse ++ l.testa := by
    intro ordine
    induction ordine with
    | nil => exact fun l => rfl
    | cons f ordine ih =>
      intro l
      rw [List.foldl_cons, ih, List.reverse_cons, List.append_assoc]
      rfl
  rw [ListaInterpreti.registra, hloop]
  exact List.append_nil _

/-- Every order of registration gives the same choice as asking the two in turn. -/
theorem trova_eq {ordine : List Formato} (h : ordine.Perm [elf32, elf64]) (file : List UInt8) (p : Nat) :
    (ListaInterpreti.registra ordine).trova ⟨file, p⟩ = scegli file [elf32, elf64] := by
  have hperm : ordine.reverse.Perm [elf32, elf64] := (List.reverse_perm ordine).trans h
  have hmem : ∀ f ∈ ordine.reverse, f = elf32 ∨ f = elf64 := by
    intro f hf
    simpa using hperm.mem_iff.mp hf
  rw [ListaInterpreti.trova, ListaInterpreti.rewind, testa_registra, cerca_eq hmem]
  exact (scegli_perm file hperm.symm classi_diverse).symm

/-- For every file and any two orders of registration, the loop of `estrai_segmento` ends
in the same way: with the same executable, unrecognised, or with the same failure. -/
theorem ordine_indifferente (file : List UInt8) {ordine ordine' : List Formato}
    (h : ordine.Perm [elf32, elf64]) (h' : ordine'.Perm [elf32, elf64]) :
    (ListaInterpreti.registra ordine).trova ⟨file, 0⟩ = (ListaInterpreti.registra ordine').trova ⟨file, 0⟩ := by
  rw [trova_eq h, trova_eq h']

/-- A 64-bit executable, in the two orders. -/
theorem ordine_indifferente_un_segmento :
    [elf64, elf32].Perm [elf32, elf64] ∧ [elf32, elf64].Perm [elf32, elf64] ∧
    (ListaInterpreti.registra [elf64, elf32]).trova ⟨unSegmento 1 1, 0⟩ =
      (ListaInterpreti.registra [elf32, elf64]).trova ⟨unSegmento 1 1, 0⟩ :=
  ⟨.swap .., .refl _, ordine_indifferente (unSegmento 1 1) (.swap ..) (.refl _)⟩

end EndlessFault.Elf
