import Mathlib.Algebra.Ring.Int.Defs
import Mathlib.Algebra.Ring.Nat
import EndlessFault.Config.IniReader

/- What `main` takes from `config.ini`: the size of the guest memory, and the two servers.
   The numbers go through `strtol` with base 0, which reads decimal, octal and hexadecimal
   numerals and stops at the range of a `long`, and are then cut to the types of the variables. -/
namespace EndlessFault
open Lib.Machine

namespace Config

def bytes (s : String) : List UInt8 := s.toList.map byte

/-! Numbers. -/

/-- The value of a character as a digit. -/
def digitValue (c : UInt8) : Option Nat :=
  if byte '0' ≤ c ∧ c ≤ byte '9' then some (c.toNat - (byte '0').toNat)
  else if byte 'a' ≤ c ∧ c ≤ byte 'z' then some (c.toNat - (byte 'a').toNat + 10)
  else if byte 'A' ≤ c ∧ c ≤ byte 'Z' then some (c.toNat - (byte 'A').toNat + 10)
  else none

def isDigitOf (base : Nat) (c : UInt8) : Bool :=
  match digitValue c with
  | some d => d < base
  | none => false

/-- The base a numeral is in, and where its digits start. A prefix without a digit after it
is the octal numeral 0. -/
def numeralBase : List UInt8 → Nat × List UInt8
  | c :: x :: d :: rest =>
    if c = byte '0' then
      if (x = byte 'x' ∨ x = byte 'X') ∧ isDigitOf 16 d then (16, d :: rest) else (8, c :: x :: d :: rest)
    else (10, c :: x :: d :: rest)
  | c :: rest => if c = byte '0' then (8, c :: rest) else (10, c :: rest)
  | [] => (10, [])

/-- The number of some digits, the most significant first. -/
def numeralValue (base : Nat) (digits : List UInt8) : Nat :=
  digits.foldl (fun n c => base * n + (digitValue c).getD 0) 0

/-- `strtol(s, &end, 0)`: the value, and whether `end > s`. -/
def strtol (s : List UInt8) : Int × Bool :=
  let s := lskip s
  let negative := s.head? = some (byte '-')
  let s := if s.head? = some (byte '-') ∨ s.head? = some (byte '+') then s.tail else s
  let numeral := numeralBase s
  let digits := numeral.2.takeWhile (isDigitOf numeral.1)
  if digits = [] then (0, false)
  else
    let n : Int := numeralValue numeral.1 digits
    (if negative then max (-n) (-2^63) else min n (2^63 - 1), true)

namespace INIReader

def getInteger (reader : INIReader) (sectionName name : List UInt8) (default : Int) : Int :=
  let value := strtol (reader.get sectionName name [])
  if value.2 then value.1 else default

def getBoolean (reader : INIReader) (sectionName name : List UInt8) (default : Bool) : Bool :=
  let value := lower (reader.get sectionName name [])
  if value = bytes "true" ∨ value = bytes "yes" ∨ value = bytes "on" ∨ value = bytes "1" then true
  else if value = bytes "false" ∨ value = bytes "no" ∨ value = bytes "off" ∨ value = bytes "0" then false
  else default

end INIReader

/-! The settings. -/

structure Settings where
  memSize : UInt32
  servPort : UInt16
  debugServer : Bool
  debugMode : Bool
  gdbAddress : List UInt8
  gdbPort : UInt16

/-- None if `main` gives up. A line with an error does not stop it. -/
def settings (file : Option (List UInt8)) : Option Settings :=
  let reader := INIReader.new file
  if reader.error < 0 then none
  else some
    { memSize := .ofInt (reader.getInteger (bytes "vm-spec") (bytes "memsize") 8)
      servPort := .ofInt (reader.getInteger (bytes "debug-server") (bytes "port") (-1))
      debugServer := reader.getBoolean (bytes "debug-server") (bytes "enable") false
      debugMode := reader.getBoolean (bytes "gdb-server") (bytes "enable") false
      gdbAddress := reader.get (bytes "gdb-server") (bytes "address") (bytes "127.0.0.1")
      gdbPort := .ofInt (reader.getInteger (bytes "gdb-server") (bytes "port") (-1)) }

/-- The decimal numeral of a number. -/
def decimal (n : Nat) : List UInt8 := (Nat.toDigits 10 n).map byte

/-- A value that says yes or no. -/
def Answers (value : List UInt8) (b : Bool) : Prop :=
  lower value ∈ if b then [bytes "true", bytes "yes", bytes "on", bytes "1"]
    else [bytes "false", bytes "no", bytes "off", bytes "0"]

instance (value : List UInt8) (b : Bool) : Decidable (Answers value b) :=
  inferInstanceAs (Decidable (lower value ∈ if b then [bytes "true", bytes "yes", bytes "on", bytes "1"]
    else [bytes "false", bytes "no", bytes "off", bytes "0"]))

/-! A decimal numeral is read as its number. -/

theorem byte_digit {c : Char} (hc : c.isDigit = true) :
    (byte c).toNat = c.toNat ∧ 48 ≤ c.toNat ∧ c.toNat ≤ 57 := by
  have hrange : 48 ≤ c.toNat ∧ c.toNat ≤ 57 := by
    simpa [Char.isDigit, UInt32.le_iff_toNat_le] using hc
  exact ⟨Nat.mod_eq_of_lt (show c.toNat < 256 by omega), hrange⟩

theorem digitValue_byte {c : Char} (hc : c.isDigit = true) : digitValue (byte c) = some (c.toNat - '0'.toNat) := by
  obtain ⟨hnat, hrange⟩ := byte_digit hc
  have hdigit : byte '0' ≤ byte c ∧ byte c ≤ byte '9' := by
    rw [UInt8.le_iff_toNat_le, UInt8.le_iff_toNat_le, hnat]
    exact hrange
  rw [digitValue, if_pos hdigit, hnat]
  rfl

theorem isDigitOf_byte {c : Char} (hc : c.isDigit = true) : isDigitOf 10 (byte c) = true := by
  obtain ⟨-, hge, hle⟩ := byte_digit hc
  rw [isDigitOf, digitValue_byte hc]
  refine decide_eq_true ?_
  rw [show '0'.toNat = 48 from rfl]
  omega

theorem isDigit_of_decimal {n : Nat} : ∀ c ∈ Nat.toDigits 10 n, c.isDigit = true :=
  fun _ hc => Nat.isDigit_of_mem_toDigits (by decide) (by decide) hc

theorem numeralValue_decimal (n : Nat) : numeralValue 10 (decimal n) = n := by
  have hfold : ∀ (l : List Char) (init : Nat), (∀ c ∈ l, c.isDigit = true) →
      (l.map byte).foldl (fun n c => 10 * n + (digitValue c).getD 0) init = Nat.ofDigitChars 10 l init := by
    intro l
    induction l with
    | nil => exact fun init _ => Nat.ofDigitChars_nil.symm
    | cons c l ih =>
      intro init hl
      rw [List.map_cons, List.foldl_cons, digitValue_byte (hl c List.mem_cons_self), Nat.ofDigitChars_cons,
        ih _ fun x hx => hl x (List.mem_cons_of_mem c hx)]
      rfl
  rw [numeralValue, decimal, hfold _ _ isDigit_of_decimal, Nat.ofDigitChars_toDigits (by decide) (by decide)]

/-- A numeral that is not 0 does not start with 0. -/
theorem decimal_head {n : Nat} (hn : 0 < n) : ∃ c rest, Nat.toDigits 10 n = c :: rest ∧ c ≠ '0' := by
  induction n using Nat.strong_induction_on with
  | _ n ih =>
    by_cases hlt : n < 10
    · refine ⟨n.digitChar, [], Nat.toDigits_of_lt_base hlt, ?_⟩
      intro hzero
      have hval := Nat.toNat_digitChar_of_lt_ten hlt
      rw [hzero, show '0'.toNat = 48 from rfl] at hval
      omega
    · obtain ⟨c, rest, hdigits, hc⟩ := ih (n / 10) (by omega) (by omega)
      refine ⟨c, rest ++ [(n % 10).digitChar], ?_, hc⟩
      rw [Nat.toDigits_of_base_le (by decide) (by omega), hdigits, List.cons_append]

theorem numeralBase_decimal {c : UInt8} (hc : c ≠ byte '0') (rest : List UInt8) :
    numeralBase (c :: rest) = (10, c :: rest) := by
  match rest with
  | [] | [_] | _ :: _ :: _ => simp [numeralBase, hc]

theorem strtol_decimal {n : Nat} (hn : n < 2^63) : strtol (decimal n) = ((n : Int), true) := by
  rcases Nat.eq_zero_or_pos n with rfl | hpos
  · decide
  · obtain ⟨c, rest, hdigits, hc⟩ := decimal_head hpos
    have hnumeral : decimal n = byte c :: rest.map byte := by rw [decimal, hdigits, List.map_cons]
    have hall := isDigit_of_decimal (n := n)
    obtain ⟨hnat, hge, hle⟩ := byte_digit (hall c (by simp [hdigits]))
    have hother : ∀ x : UInt8, x.toNat < 48 ∨ 57 < x.toNat → byte c ≠ x := by
      intro x hx hcx
      rw [hcx] at hnat
      omega
    have hspace : isspace (byte c) = false := by
      have hblank := hother 0x20 (by decide)
      have hcontrol : ¬ byte c ≤ 0x0D := by
        rw [UInt8.le_iff_toNat_le, hnat, show (0x0D : UInt8).toNat = 13 from rfl]
        omega
      simp [isspace, hblank, hcontrol]
    have hzero : byte c ≠ byte '0' := by
      intro h
      refine hc (Char.toNat_inj.mp ?_)
      rw [← hnat, h]
      rfl
    have hwhole : (decimal n).takeWhile (isDigitOf 10) = decimal n := by
      refine List.takeWhile_eq_self_iff.mpr fun x hx => ?_
      obtain ⟨d, hd, rfl⟩ := List.mem_map.mp hx
      exact isDigitOf_byte (hall d hd)
    have hminus : ¬ (decimal n).head? = some (byte '-') := by
      rw [hnumeral, List.head?_cons, Option.some.injEq]
      exact hother _ (by decide)
    have hplus : ¬ (decimal n).head? = some (byte '+') := by
      rw [hnumeral, List.head?_cons, Option.some.injEq]
      exact hother _ (by decide)
    have hskip : lskip (decimal n) = decimal n := by rw [hnumeral, lskip_cons hspace]
    have hbase : numeralBase (decimal n) = (10, decimal n) := by rw [hnumeral, numeralBase_decimal hzero]
    have hne : decimal n ≠ [] := by simp [hnumeral]
    simp only [strtol, hskip, hminus, hplus, or_self, if_false, hbase, hwhole, hne, numeralValue_decimal, Prod.mk.injEq,
      and_true]
    omega

/-! Reading the settings. -/

/-- What the entries of a file have to say. -/
structure Says (es : List Entry) (s : Settings) : Prop where
  memSize : lookup es (bytes "vm-spec") (bytes "memsize") = some (decimal s.memSize.toNat)
  servPort : lookup es (bytes "debug-server") (bytes "port") = some (decimal s.servPort.toNat)
  debugServer : ∃ value, lookup es (bytes "debug-server") (bytes "enable") = some value ∧ Answers value s.debugServer
  debugMode : ∃ value, lookup es (bytes "gdb-server") (bytes "enable") = some value ∧ Answers value s.debugMode
  gdbAddress : lookup es (bytes "gdb-server") (bytes "address") = some s.gdbAddress
  gdbPort : lookup es (bytes "gdb-server") (bytes "port") = some (decimal s.gdbPort.toNat)

theorem ofInt_memSize (n : UInt32) : UInt32.ofInt n.toNat = n := by
  have hsame : ((n.toNat : Int) % 2^32).toNat = n.toNat := by
    have hlt := n.toNat_lt
    omega
  rw [UInt32.ofInt, hsame, UInt32.ofNat_toNat]

theorem ofInt_port (n : UInt16) : UInt16.ofInt n.toNat = n := by
  have hsame : ((n.toNat : Int) % 2^16).toNat = n.toNat := by
    have hlt := n.toNat_lt
    omega
  rw [UInt16.ofInt, hsame, UInt16.ofNat_toNat]

theorem getInteger_decimal {reader : INIReader} {sectionName name : List UInt8} {n : Nat} (hn : n < 2^63)
    (h : reader.get sectionName name [] = decimal n) (default : Int) :
    reader.getInteger sectionName name default = n := by
  rw [INIReader.getInteger, h, strtol_decimal hn]
  rfl

theorem getBoolean_answers {reader : INIReader} {sectionName name value : List UInt8} {b : Bool}
    (hvalue : Answers value b) (h : reader.get sectionName name [] = value) (default : Bool) :
    reader.getBoolean sectionName name default = b := by
  rw [INIReader.getBoolean, h]
  unfold Answers at hvalue
  cases b with
  | true =>
    have hyes : lower value = bytes "true" ∨ lower value = bytes "yes" ∨ lower value = bytes "on" ∨
        lower value = bytes "1" := by
      simpa using hvalue
    rw [if_pos hyes]
  | false =>
    have hno : lower value = bytes "false" ∨ lower value = bytes "no" ∨ lower value = bytes "off" ∨
        lower value = bytes "0" := by
      simpa using hvalue
    have hnot : ¬ (lower value = bytes "true" ∨ lower value = bytes "yes" ∨ lower value = bytes "on" ∨
        lower value = bytes "1") := by
      rcases hno with h | h | h | h <;> rw [h] <;> decide
    rw [if_neg hnot, if_pos hno]

/-- The settings are those the entries of the file say, with the numbers as decimal numerals, whatever else
is in it: other names and sections, comments, and lines with errors. -/
theorem settings_read {stream : List UInt8} {ds : List (Option Item)} (hds : Reads start (seen stream) ds) {s : Settings}
    (hs : Says (entriesFrom start ds.reduceOption) s) : settings (some stream) = some s := by
  obtain ⟨herror, -, hget⟩ := new_reads hds
  obtain ⟨yes, hyes, hdebug⟩ := hs.debugServer
  obtain ⟨mode, hmode, hgdb⟩ := hs.debugMode
  have hopened : ¬ (INIReader.new (some stream)).error < 0 := by
    rw [herror]
    omega
  have hinteger : ∀ {sectionName name : List UInt8} {n : Nat} (default : Int), byte '=' ∉ name → n < 2^63 →
      lookup (entriesFrom start ds.reduceOption) sectionName name = some (decimal n) →
      (INIReader.new (some stream)).getInteger sectionName name default = n := by
    intro sectionName name n default hname hn hlookup
    refine getInteger_decimal hn ?_ default
    rw [hget _ _ _ hname, hlookup, Option.getD_some]
  have hboolean : ∀ {sectionName name value : List UInt8} {b : Bool}, byte '=' ∉ name → Answers value b →
      lookup (entriesFrom start ds.reduceOption) sectionName name = some value →
      (INIReader.new (some stream)).getBoolean sectionName name false = b := by
    intro sectionName name value b hname hanswers hlookup
    refine getBoolean_answers hanswers ?_ false
    rw [hget _ _ _ hname, hlookup, Option.getD_some]
  have hmem := hinteger 8 (by decide) (Nat.lt_trans s.memSize.toNat_lt (by decide)) hs.memSize
  have hserv := hinteger (-1) (by decide) (Nat.lt_trans s.servPort.toNat_lt (by decide)) hs.servPort
  have hport := hinteger (-1) (by decide) (Nat.lt_trans s.gdbPort.toNat_lt (by decide)) hs.gdbPort
  have henable := hboolean (by decide) hdebug hyes
  have hmoded := hboolean (by decide) hgdb hmode
  have haddress := hget (bytes "gdb-server") (bytes "address") (bytes "127.0.0.1") (by decide)
  rw [hs.gdbAddress, Option.getD_some] at haddress
  rw [settings]
  simp only [hopened, if_false, hmem, hserv, hport, henable, hmoded, haddress, ofInt_memSize, ofInt_port]

/-- The lines of the file that comes with the program. -/
def configIni : List Item :=
  [.comment [] (byte ';') (bytes " Test config file for ini_example.c and INIReaderTest.cpp\n"),
    .blank (bytes "\n"),
    .header [] (bytes "vm-spec") (bytes "\n"),
    .comment [] (byte '#') (bytes "mem size in MB\n"),
    .pair [] (bytes "memsize") [] (byte '=') [] (bytes "10") (bytes "\n"),
    .blank (bytes "\n"),
    .header [] (bytes "debug-server") (bytes "\n"),
    .pair [] (bytes "enable") [] (byte '=') [] (bytes "no") (bytes "\n"),
    .pair [] (bytes "port") [] (byte '=') [] (bytes "5553") (bytes "\n"),
    .blank (bytes "\n"),
    .header [] (bytes "gdb-server") (bytes "\n"),
    .pair [] (bytes "enable") [] (byte '=') [] (bytes "no") (bytes "\n"),
    .pair [] (bytes "address") [] (byte '=') [] (bytes "127.0.0.1") (bytes "\n"),
    .pair [] (bytes "port") [] (byte '=') [] (bytes "1234") (bytes "\n")]

theorem settings_read_configIni :
    settings (some (render configIni)) = some ⟨10, 5553, false, false, bytes "127.0.0.1", 1234⟩ := by
  have hitems : Along Item.step (fun q i => i.Allowed q) start configIni := by
    have hempty : Blank (bytes "\n") := by decide
    refine ⟨⟨by decide, by decide⟩, hempty, ⟨by decide, by decide, by decide, by decide⟩, ⟨by decide, by decide⟩,
      ?_, hempty, ⟨by decide, by decide, by decide, by decide⟩, ?_, ?_, hempty,
      ⟨by decide, by decide, by decide, by decide⟩, ?_, ?_, ?_, trivial⟩
    all_goals exact allowed_pair (by decide) (by decide) (by decide) (by decide)
  have hsays : Says (entriesFrom start configIni) ⟨10, 5553, false, false, bytes "127.0.0.1", 1234⟩ :=
    ⟨by decide, by decide, ⟨bytes "no", by decide, by decide⟩, ⟨bytes "no", by decide, by decide⟩, by decide, by decide⟩
  refine settings_read (render_reads hitems (by decide) (by decide)) ?_
  rw [reduceOption_map_some]
  exact hsays

end Config
end EndlessFault
