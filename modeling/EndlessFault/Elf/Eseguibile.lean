import EndlessFault.Lib.Bytes

/- Executables in ELF format (`elf/elf32.cpp`, `elf/elf64.cpp`): recognising a
   file, loading its program-header table and walking its loadable segments.

   The two source files differ in the layout of the headers, in the width of
   addresses and in the class and machine they accept, so they are one
   definition here over a `Formato` that says which; `elf32` and `elf64` are the
   two formats.

   Conventions of the embedding:
   - a file is the list of its bytes; `fseek` fails on an offset that is negative
     as a `long`, and `fread` returns the whole items it could read;
   - a call of `exit`, or an allocation that cannot succeed, is a `Fallimento`;
   - a program header may be read past the end of `seg_buf`, when the entry size
     of the file is smaller than the structure: `oltre` is what lies there;
   - the members of the segments that copy page by page are called by no one and
     are left out. -/
namespace EndlessFault.Elf
open Lib.Bytes

/-- The ways the loader ends the process. -/
inductive Fallimento where
  | formatoNonRiconosciuto
  | finePrematura
  | erroreNelFile
  | memoriaEsaurita
  deriving DecidableEq, Repr

/-- The layout of the headers of a class, and what its interpreter accepts:
sizes and field offsets in bytes. -/
structure Formato where
  classe : UInt8
  macchina : Nat
  parola : Nat
  ehdrSize : Nat
  eEntry : Nat
  ePhoff : Nat
  eShoff : Nat
  ePhentsize : Nat
  ePhnum : Nat
  eShentsize : Nat
  eShnum : Nat
  phdrSize : Nat
  pOffset : Nat
  pVaddr : Nat
  pFilesz : Nat
  pMemsz : Nat
  deriving DecidableEq, Repr

/-- `Elf32_Ehdr`, `Elf32_Phdr`, `ELFCLASS32`, `EM_386`. -/
def elf32 : Formato where
  classe := 1
  macchina := 3
  parola := 4
  ehdrSize := 52
  eEntry := 24
  ePhoff := 28
  eShoff := 32
  ePhentsize := 42
  ePhnum := 44
  eShentsize := 46
  eShnum := 48
  phdrSize := 32
  pOffset := 4
  pVaddr := 8
  pFilesz := 16
  pMemsz := 20

/-- `Elf64_Ehdr`, `Elf64_Phdr`, `ELFCLASS64`, `EM_AMD64`. -/
def elf64 : Formato where
  classe := 2
  macchina := 62
  parola := 8
  ehdrSize := 64
  eEntry := 24
  ePhoff := 32
  eShoff := 40
  ePhentsize := 54
  ePhnum := 56
  eShentsize := 58
  eShnum := 60
  phdrSize := 56
  pOffset := 8
  pVaddr := 16
  pFilesz := 32
  pMemsz := 40

/-- The `size`-byte field at offset `off` of a structure in memory. -/
def campo (bytes : Nat → UInt8) (off size : Nat) : Nat :=
  leNat ((List.range size).map fun i => bytes (off + i))

/-- The fields of the ELF header that are used after it has been recognised. -/
structure Ehdr where
  eEntry : UInt64
  ePhoff : UInt64
  eShoff : UInt64
  ePhentsize : Nat
  ePhnum : Nat
  eShentsize : Nat
  eShnum : Nat
  deriving DecidableEq, Repr

/-- The fields of a program header that are used. -/
structure Phdr where
  pType : Nat
  pOffset : UInt64
  pVaddr : UInt64
  pFilesz : UInt64
  pMemsz : UInt64
  deriving DecidableEq, Repr

def ptLoad : Nat := 1
def etExec : Nat := 2

/-! The file. -/

/-- `fseek(file, off, SEEK_SET)` succeeds. -/
def fseek (off : UInt64) : Bool := decide (off.toNat < 2^63)

/-- The number of items `fread` reads from offset `off` on. -/
def fread (file : List UInt8) (off : UInt64) (size n : Nat) : Nat :=
  if size = 0 then 0 else min n ((file.length - off.toNat) / size)

/-- A table of `n` entries of `size` bytes: the product is an `int`, so a table
of `2^31` bytes or more cannot be allocated, and a table the file does not hold
whole ends the process. -/
def leggiTabella (file : List UInt8) (off : UInt64) (size n : Nat) :
    Except Fallimento (List UInt8) :=
  if 2^31 ≤ n * size then .error .memoriaEsaurita
  else if fseek off = false ∨ fread file off size n < n then .error .finePrematura
  else .ok (slice file off.toNat (n * size))

/-! The executable. -/

structure Eseguibile where
  formato : Formato
  h : Ehdr
  segBuf : List UInt8
  deriving DecidableEq, Repr

/-- The ELF header of a file. -/
def Formato.leggiEhdr (f : Formato) (file : List UInt8) : Ehdr :=
  let byte (i : Nat) := file.getD i 0
  { eEntry := UInt64.ofNat (campo byte f.eEntry f.parola)
    ePhoff := UInt64.ofNat (campo byte f.ePhoff f.parola)
    eShoff := UInt64.ofNat (campo byte f.eShoff f.parola)
    ePhentsize := campo byte f.ePhentsize 2
    ePhnum := campo byte f.ePhnum 2
    eShentsize := campo byte f.eShentsize 2
    eShnum := campo byte f.eShnum 2 }

/-- The checks on the magic number, of which the third byte is compared twice
and the fourth never, and on class, byte order, type and machine. -/
def Formato.riconosce (f : Formato) (file : List UInt8) : Bool :=
  let byte (i : Nat) := file.getD i 0
  (byte 0 == 0x7f && byte 1 == 0x45 && byte 2 == 0x4c && byte 2 == 0x4c) &&
  (byte 4 == f.classe && byte 5 == 1 && campo byte 16 2 == etExec && campo byte 18 2 == f.macchina)

/-- `init`, run by `interpreta` on a new executable: `none` when it returns false. -/
def Formato.interpreta (f : Formato) (file : List UInt8) : Except Fallimento (Option Eseguibile) :=
  if file.length < f.ehdrSize then .ok none
  else if f.riconosce file = false then .ok none
  else do
    let h := f.leggiEhdr file
    let segBuf ← leggiTabella file h.ePhoff h.ePhentsize h.ePhnum
    let _ ← leggiTabella file h.eShoff h.eShentsize h.eShnum
    return some { formato := f, h := h, segBuf := segBuf }

def InterpreteElf32.interpreta : List UInt8 → Except Fallimento (Option Eseguibile) :=
  elf32.interpreta

def InterpreteElf64.interpreta : List UInt8 → Except Fallimento (Option Eseguibile) :=
  elf64.interpreta

namespace Eseguibile

/-- The byte at `seg_buf + i`. -/
def segByte (exe : Eseguibile) (oltre : Nat → UInt8) (i : Nat) : UInt8 :=
  if i < exe.segBuf.length then exe.segBuf.getD i 0 else oltre i

/-- The program header at `seg_buf + e_phentsize * i`. -/
def phdr (exe : Eseguibile) (oltre : Nat → UInt8) (i : Nat) : Phdr :=
  let byte (k : Nat) := exe.segByte oltre (exe.h.ePhentsize * i + k)
  let f := exe.formato
  { pType := campo byte 0 4
    pOffset := UInt64.ofNat (campo byte f.pOffset f.parola)
    pVaddr := UInt64.ofNat (campo byte f.pVaddr f.parola)
    pFilesz := UInt64.ofNat (campo byte f.pFilesz f.parola)
    pMemsz := UInt64.ofNat (campo byte f.pMemsz f.parola) }

/-- What successive calls of `prossimo_segmento` return: the `PT_LOAD` headers
of the table, in its order. -/
def segmenti (exe : Eseguibile) (oltre : Nat → UInt8) : List Phdr :=
  ((List.range exe.h.ePhnum).map (exe.phdr oltre)).filter fun ph => ph.pType == ptLoad

end Eseguibile
end EndlessFault.Elf
