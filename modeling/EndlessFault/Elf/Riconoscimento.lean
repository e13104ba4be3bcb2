import EndlessFault.Elf.Immagine

/- Which files the interpreters accept. `Intestazione` is the header a class asks for:
   the four bytes of the magic number, class, byte order, type and machine. `init`
   compares the third byte of the magic number twice and the fourth never, so it goes
   on to the tables of a file whose fourth byte is anything; and a table it cannot
   read, with entries of size 0 or of `2^31` bytes and more in all, ends the process
   although the file has the right header.

   On files that hold their tables, the interpreters accept exactly the headers asked
   for, and every other file is reported as not recognised, if and only if a
   recognised header has the right fourth byte and tables that can be read
   (`riconosce_esattamente_iff`). -/
namespace EndlessFault.Elf
open Lib.Bytes

/-- The header the interpreter of a class is to accept. -/
def Intestazione (f : Formato) (file : List UInt8) : Prop :=
  let byte (i : Nat) := file.getD i 0
  (byte 0 = 0x7f ∧ byte 1 = 0x45 ∧ byte 2 = 0x4c ∧ byte 3 = 0x46) ∧
  byte 4 = f.classe ∧ byte 5 = 1 ∧ campo byte 16 2 = etExec ∧ campo byte 18 2 = f.macchina

/-- The file holds the header of the class and the two tables the header names. -/
structure Contiene (f : Formato) (file : List UInt8) : Prop where
  header : f.ehdrSize ≤ file.length
  segmenti : (f.leggiEhdr file).ePhoff.toNat +
    (f.leggiEhdr file).ePhnum * (f.leggiEhdr file).ePhentsize ≤ file.length
  sezioni : (f.leggiEhdr file).eShoff.toNat +
    (f.leggiEhdr file).eShnum * (f.leggiEhdr file).eShentsize ≤ file.length

/-- A table that can be allocated and read: fewer than `2^31` bytes, and no entries of
size 0. -/
def TabellaLeggibile (size n : Nat) : Prop := n * size < 2^31 ∧ (n = 0 ∨ size ≠ 0)

/-- Both tables of the file can be read. -/
def Leggibile (f : Formato) (file : List UInt8) : Prop :=
  TabellaLeggibile (f.leggiEhdr file).ePhentsize (f.leggiEhdr file).ePhnum ∧
  TabellaLeggibile (f.leggiEhdr file).eShentsize (f.leggiEhdr file).eShnum

/-- The interpreter of the class returns an executable. -/
def Accetta (f : Formato) (file : List UInt8) : Prop := ∃ exe, f.interpreta file = .ok (some exe)

/-- The interpreters accept exactly the headers of their classes, and a file that
neither accepts is reported as not recognised. -/
structure RiconosceEsattamente (file : List UInt8) : Prop where
  accetta : ∀ f, f = elf32 ∨ f = elf64 → (Accetta f file ↔ Intestazione f file)
  altrimenti : ¬ Accetta elf32 file → ¬ Accetta elf64 file → ∀ interpreti, Registrati interpreti →
    ∀ oltre destSize,
      (estraiSegmento interpreti oltre file destSize).ritorno = .error .formatoNonRiconosciuto

section
variable {f : Formato} {file : List UInt8}

/-! The tables. -/

/-- A table the file holds is loaded exactly when it can be read. -/
theorem leggiTabella_iff {off : UInt64} {size n : Nat} (hlen : file.length < 2^63)
    (hfit : off.toNat + n * size ≤ file.length) :
    (∃ table, leggiTabella file off size n = .ok table) ↔ TabellaLeggibile size n := by
  have hseek : fseek off = true := by
    rw [fseek, decide_eq_true_eq]
    omega
  have hread : fread file off size n < n ↔ ¬ (n = 0 ∨ size ≠ 0) := by
    unfold fread
    by_cases hsize : size = 0
    · rw [if_pos hsize]
      omega
    · have hall : n ≤ (file.length - off.toNat) / size :=
        (Nat.le_div_iff_mul_le (Nat.pos_of_ne_zero hsize)).mpr (by omega)
      rw [if_neg hsize, Nat.min_eq_left hall]
      simp [hsize]
  unfold leggiTabella TabellaLeggibile
  by_cases hbig : 2^31 ≤ n * size
  · rw [if_pos hbig]
    refine iff_of_false ?_ (fun h => by omega)
    simp
  · rw [if_neg hbig, hseek]
    by_cases hshort : fread file off size n < n
    · rw [if_pos (.inr hshort)]
      exact iff_of_false (by simp) (fun h => hread.mp hshort h.2)
    · rw [if_neg (by simpa using hshort)]
      have hentries : n = 0 ∨ size ≠ 0 := not_not.mp fun h => hshort (hread.mpr h)
      exact iff_of_true ⟨_, rfl⟩ ⟨by omega, hentries⟩

theorem leggiTabella_error {off : UInt64} {size n : Nat} {e : Fallimento}
    (h : leggiTabella file off size n = .error e) : e ≠ .formatoNonRiconosciuto := by
  unfold leggiTabella at h
  split_ifs at h
  · cases h
    decide
  · cases h
    decide

/-! One interpreter. -/

/-- What `init` checks is the header without the fourth byte of the magic number. -/
theorem intestazione_iff :
    Intestazione f file ↔ f.riconosce file = true ∧ file.getD 3 0 = 0x46 := by
  simp only [Intestazione, Formato.riconosce, Bool.and_eq_true, beq_iff_eq]
  tauto

theorem classe_of_riconosce (h : f.riconosce file = true) : file.getD 4 0 = f.classe := by
  simp only [Formato.riconosce, Bool.and_eq_true, beq_iff_eq] at h
  exact h.2.1.1.1

/-- On a recognised file that holds its tables, the interpreter returns an executable
when they can be read and ends the process otherwise. -/
theorem interpreta_riconosciuto (hlen : file.length < 2^63) (hfile : Contiene f file)
    (h : f.riconosce file = true) :
    (Leggibile f file ∧ Accetta f file) ∨
    (¬ Leggibile f file ∧ ∃ e, e ≠ .formatoNonRiconosciuto ∧ f.interpreta file = .error e) := by
  have hseg := leggiTabella_iff hlen hfile.segmenti
  have hsec := leggiTabella_iff hlen hfile.sezioni
  unfold Accetta Formato.interpreta Leggibile
  rw [if_neg (Nat.not_lt.mpr hfile.header), if_neg (by simp [h]), ← hseg, ← hsec]
  dsimp only
  cases hsegmenti : leggiTabella file (f.leggiEhdr file).ePhoff (f.leggiEhdr file).ePhentsize
      (f.leggiEhdr file).ePhnum with
  | error e =>
    right
    exact ⟨by simp, e, leggiTabella_error hsegmenti, rfl⟩
  | ok table =>
    cases hsezioni : leggiTabella file (f.leggiEhdr file).eShoff (f.leggiEhdr file).eShentsize
        (f.leggiEhdr file).eShnum with
    | error e =>
      right
      exact ⟨by simp, e, leggiTabella_error hsezioni, rfl⟩
    | ok table' =>
      left
      exact ⟨⟨⟨_, rfl⟩, ⟨_, rfl⟩⟩, _, rfl⟩

theorem accetta_riconosce (h : Accetta f file) : f.riconosce file = true := by
  obtain ⟨exe, hexe⟩ := h
  exact (interpreta_ok hexe).1

/-! Both interpreters. -/

/-- A file that no interpreter recognises is reported as such. -/
theorem estrai_non_riconosciuto (h32 : elf32.riconosce file = false)
    (h64 : elf64.riconosce file = false) {interpreti : List Formato} (hint : Registrati interpreti)
    (oltre : Nat → UInt8) (destSize : UInt64) :
    (estraiSegmento interpreti oltre file destSize).ritorno = .error .formatoNonRiconosciuto := by
  have hnone : scegli file interpreti = .ok none := by
    rcases hint with rfl | rfl
    · simp only [scegli, interpreta_none h32, interpreta_none h64]
    · simp only [scegli, interpreta_none h32, interpreta_none h64]
  rw [estraiSegmento, hnone]

/-- A table that cannot be read ends the process with another report, whichever
interpreter is asked first. -/
theorem estrai_illeggibile (hf : f = elf32 ∨ f = elf64) (h : f.riconosce file = true) {e : Fallimento}
    (he : f.interpreta file = .error e) {interpreti : List Formato} (hint : Registrati interpreti)
    (oltre : Nat → UInt8) (destSize : UInt64) :
    (estraiSegmento interpreti oltre file destSize).ritorno = .error e := by
  have herror : scegli file interpreti = .error e := by
    rw [scegli_altri_none hf hint fun g hg => interpreta_none (riconosce_altra_classe hg h), he]
  rw [estraiSegmento, herror]

/-- Nor does any interpreter accept such a file. -/
theorem nessuno_accetta (hf : f = elf32 ∨ f = elf64) (h : f.riconosce file = true) {e : Fallimento}
    (he : f.interpreta file = .error e) (g : Formato) (hg : g = elf32 ∨ g = elf64) :
    ¬ Accetta g file := by
  intro hacc
  obtain ⟨exe, hexe⟩ := hacc
  by_cases hclasse : g.classe = f.classe
  · have hsame : g = f := by
      rcases hg with rfl | rfl <;> rcases hf with rfl | rfl
      · rfl
      · exact absurd hclasse (by decide)
      · exact absurd hclasse (by decide)
      · rfl
    rw [hsame, he] at hexe
    exact absurd hexe (by simp)
  · rw [interpreta_none (riconosce_altra_classe hclasse h)] at hexe
    exact absurd hexe (by simp)

end

/-- On files that hold the header of their class and its tables: recognition is exact
if and only if every recognised header has the fourth byte of the magic number and
tables that can be read. -/
theorem riconosce_esattamente_iff {file : List UInt8} (hlen : file.length < 2^63)
    (hfile : ∀ f, f = elf32 ∨ f = elf64 → file.getD 4 0 = f.classe → Contiene f file) :
    RiconosceEsattamente file ↔
      ∀ f, f = elf32 ∨ f = elf64 → f.riconosce file = true →
        file.getD 3 0 = 0x46 ∧ Leggibile f file := by
  -- a recognised file falls under one of the two cases of `interpreta`
  have hcases : ∀ f, f = elf32 ∨ f = elf64 → f.riconosce file = true →
      (Leggibile f file ∧ Accetta f file) ∨
      (¬ Leggibile f file ∧ ∃ e, e ≠ .formatoNonRiconosciuto ∧ f.interpreta file = .error e) :=
    fun f hf hric => interpreta_riconosciuto hlen (hfile f hf (classe_of_riconosce hric)) hric
  refine ⟨?_, ?_⟩
  · intro h f hf hric
    rcases hcases f hf hric with ⟨hleg, hacc⟩ | ⟨-, e, hne, he⟩
    · exact ⟨(intestazione_iff.mp ((h.accetta f hf).mp hacc)).2, hleg⟩
    · -- neither accepts, and the report is another one
      have hno := nessuno_accetta hf hric he
      have hreport := h.altrimenti (hno elf32 (.inl rfl)) (hno elf64 (.inr rfl)) [elf32, elf64] (.inl rfl)
        (fun _ => 0) 0
      rw [estrai_illeggibile hf hric he (.inl rfl)] at hreport
      exact absurd (Except.error.inj hreport) hne
  · intro h
    have haccept : ∀ f, f = elf32 ∨ f = elf64 → f.riconosce file = true → Accetta f file := by
      intro f hf hric
      rcases hcases f hf hric with ⟨-, hacc⟩ | ⟨hno, -⟩
      · exact hacc
      · exact absurd (h f hf hric).2 hno
    refine ⟨?_, ?_⟩
    · intro f hf
      rw [intestazione_iff]
      refine ⟨?_, ?_⟩
      · intro hacc
        have hric := accetta_riconosce hacc
        exact ⟨hric, (h f hf hric).1⟩
      · intro hhead
        exact haccept f hf hhead.1
    · intro h32 h64 interpreti hint oltre destSize
      refine estrai_non_riconosciuto ?_ ?_ hint oltre destSize
      · exact Bool.eq_false_iff.mpr fun hric => h32 (haccept elf32 (.inl rfl) hric)
      · exact Bool.eq_false_iff.mpr fun hric => h64 (haccept elf64 (.inr rfl) hric)

theorem riconosce_esattamente_un_segmento :
    (unSegmento 1 1).length < 2^63 ∧
    (∀ f, f = elf32 ∨ f = elf64 → (unSegmento 1 1).getD 4 0 = f.classe → Contiene f (unSegmento 1 1)) ∧
    (RiconosceEsattamente (unSegmento 1 1) ↔
      ∀ f, f = elf32 ∨ f = elf64 → f.riconosce (unSegmento 1 1) = true →
        (unSegmento 1 1).getD 3 0 = 0x46 ∧ Leggibile f (unSegmento 1 1)) := by
  have hlen : (unSegmento 1 1).length = 120 := by decide +kernel
  have hfile : ∀ f, f = elf32 ∨ f = elf64 → (unSegmento 1 1).getD 4 0 = f.classe →
      Contiene f (unSegmento 1 1) := by
    intro f hf hclasse
    rcases hf with rfl | rfl
    · exact absurd hclasse (by decide +kernel)
    · exact ⟨by decide +kernel, by decide +kernel, by decide +kernel⟩
  have hsmall : (unSegmento 1 1).length < 2^63 := by
    rw [hlen]
    decide
  exact ⟨hsmall, hfile, riconosce_esattamente_iff hsmall hfile⟩

/-- The same file with `X` for the fourth byte is accepted. -/
def magicoErrato : List UInt8 := (unSegmento 1 1).set 3 0x58

theorem magico_errato_accettato :
    Contiene elf64 magicoErrato ∧ magicoErrato.length < 2^63 ∧ Accetta elf64 magicoErrato ∧
    ¬ Intestazione elf64 magicoErrato ∧ ¬ RiconosceEsattamente magicoErrato := by
  have hlen : magicoErrato.length = 120 := by decide +kernel
  have haccept : Accetta elf64 magicoErrato := ⟨eseguibile magicoErrato, by decide +kernel⟩
  have hhead : ¬ Intestazione elf64 magicoErrato := by
    intro h
    exact absurd (intestazione_iff.mp h).2 (by decide +kernel)
  refine ⟨⟨by decide +kernel, by decide +kernel, by decide +kernel⟩, by rw [hlen]; decide, haccept, hhead, ?_⟩
  intro h
  exact hhead ((h.accetta elf64 (.inr rfl)).mp haccept)

end EndlessFault.Elf
