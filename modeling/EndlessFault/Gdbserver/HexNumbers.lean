import Mathlib.Data.Nat.Digits.Defs
import Mathlib.Data.Fintype.Basic
import EndlessFault.Gdbserver.MemoryCommands

/- Hex numbers in memory. `hexToInt` moves the pointer it is given, counts the digits it
   has passed and shifts them into an `int`; the commands of the stub read registers,
   addresses and lengths with it. `hexScan` is its loop over the bytes from the
   pointer on, with the NUL and whatever lies behind it, and `hexToIntAt` the call.

   Over a NUL-terminated string it does what `hexToInt` of the model does over the
   string alone (`hexToIntAt_eq`). What it should do is said without it: `digitOf` looks
   a character up in the two tables of digits, `HexPrefix` is the longest run of digits
   a string starts with, and `prefixValue` the number they spell. Main result:
   `hexToInt_parses`. -/
namespace EndlessFault.Gdbserver

/-! The call. -/

/-- The variables of `hexToInt`: `*ptr`, `numChars`, and `*intValue` as its bits. -/
structure HexScan where
  ptr : Nat
  numChars : Nat
  intValue : UInt32
  deriving DecidableEq, Repr

/-- The loop over the bytes from `*ptr` on; it has no result when it runs off them. -/
def hexScan (s : HexScan) : List UInt8 → Option HexScan
  | [] => none
  | ch :: mem =>
    if ch = 0 then some s
    else if hex ch ≥ 0 then
      hexScan ⟨s.ptr + 1, s.numChars + 1, (s.intValue <<< 4) ||| UInt32.ofNat (hex ch).toNat⟩ mem
    else some s

/-- `hexToInt(&ptr, &intValue)` with `ptr` an offset into `mem`. -/
def hexToIntAt (mem : List UInt8) (ptr : Nat) : Option HexScan := hexScan ⟨ptr, 0, 0⟩ (mem.drop ptr)

/-! What it is to do. -/

def hexcharsUpper : List UInt8 := List.map ascii
  ['0', '1', '2', '3', '4', '5', '6', '7', '8', '9', 'A', 'B', 'C', 'D', 'E', 'F']

/-- The value of a hex digit of either case. -/
def digitOf (ch : UInt8) : Option Nat := (hexchars.idxOf? ch).or (hexcharsUpper.idxOf? ch)

/-- The longest run of hex digits a string starts with. -/
structure HexPrefix (str digits : List UInt8) : Prop where
  start : digits <+: str
  isHex : ∀ ch ∈ digits, digitOf ch ≠ none
  longest : ∀ run, run <+: str → (∀ ch ∈ run, digitOf ch ≠ none) → run.length ≤ digits.length

/-- The number a run of digits spells, the first digit the highest. -/
def prefixValue (digits : List UInt8) : Nat := Nat.ofDigits 16 (digits.map fun ch => (digitOf ch).getD 0).reverse

/-- The string at offset `ptr`. -/
def stringAt (mem : List UInt8) (ptr : Nat) : List UInt8 := (mem.drop ptr).takeWhile (· != 0)

/-! Digits. -/

theorem digitOf_eq (ch : UInt8) : digitOf ch = if 0 ≤ hex ch then some (hex ch).toNat else none := by
  have hall : ∀ i : Fin 256, digitOf (UInt8.ofNat i) =
      if 0 ≤ hex (UInt8.ofNat i) then some (hex (UInt8.ofNat i)).toNat else none := by
    decide +kernel
  have hch := hall ⟨ch.toNat, ch.toNat_lt⟩
  rw [UInt8.ofNat_toNat] at hch
  exact hch

theorem digitOf_ne_none (ch : UInt8) : digitOf ch ≠ none ↔ isHexDigit ch = true := by
  rw [digitOf_eq, isHexDigit, decide_eq_true_eq]
  by_cases h : 0 ≤ hex ch
  · simp [h]
  · simp [h]

/-- The two ways to read digits agree. -/
theorem prefixValue_eq {digits : List UInt8} (h : ∀ ch ∈ digits, isHexDigit ch = true) :
    prefixValue digits = digitsValue digits := by
  have hdigit : digits.map (fun ch => (digitOf ch).getD 0) = digits.map fun ch => (hex ch).toNat := by
    apply List.map_congr_left
    intro ch hch
    have hpos : 0 ≤ hex ch := of_decide_eq_true (h ch hch)
    rw [digitOf_eq, if_pos hpos, Option.getD_some]
  have hstep : (fun (v : Nat) (ch : UInt8) => (hex ch).toNat + 16 * v) =
      fun v ch => 16 * v + (hex ch).toNat := by
    funext v ch
    exact Nat.add_comm ..
  rw [prefixValue, hdigit, Nat.ofDigits_eq_foldr, List.foldr_reverse, List.foldl_map, digitsValue, ← hstep]
  rfl

/-- The digits a string starts with, up to the first other character. -/
theorem takeWhile_hexPrefix (str : List UInt8) : HexPrefix str (str.takeWhile isHexDigit) where
  start := List.takeWhile_prefix isHexDigit
  isHex ch hch := (digitOf_ne_none ch).mpr (List.all_eq_true.mp List.all_takeWhile ch hch)
  longest run hrun hhex := by
    obtain ⟨rest, rfl⟩ := hrun
    rw [List.takeWhile_append_of_pos fun ch hch => (digitOf_ne_none ch).mp (hhex ch hch), List.length_append]
    exact Nat.le_add_right ..

/-! The loop. -/

/-- Over a NUL-terminated string the loop ends, with the results of the loop over the
string; the pointer has moved once for each character counted. -/
theorem hexScan_eq {mem : List UInt8} (hnul : 0 ∈ mem) (ptr n : Nat) (v : UInt32) :
    hexScan ⟨ptr + n, n, v⟩ mem =
      let r := hexToIntLoop n v (mem.takeWhile (· != 0))
      some ⟨ptr + r.1, r.1, r.2⟩ := by
  induction mem generalizing n v with
  | nil => exact absurd hnul List.not_mem_nil
  | cons ch mem ih =>
    by_cases hzero : ch = 0
    · rw [hexScan, if_pos hzero, List.takeWhile_cons_of_neg (by simp [hzero]), hexToIntLoop]
    · have hrest : 0 ∈ mem := (List.mem_cons.mp hnul).resolve_left fun h => hzero h.symm
      rw [hexScan, if_neg hzero, List.takeWhile_cons_of_pos (by simpa using hzero), hexToIntLoop]
      by_cases hdigit : hex ch ≥ 0
      · rw [if_pos hdigit, if_pos hdigit, Nat.add_assoc, ih hrest]
      · rw [if_neg hdigit, if_neg hdigit]

theorem hexToIntAt_eq {mem : List UInt8} {ptr : Nat} (hnul : 0 ∈ mem.drop ptr) :
    hexToIntAt mem ptr = some ⟨ptr + (hexToInt (stringAt mem ptr)).1, (hexToInt (stringAt mem ptr)).1,
      (hexToInt (stringAt mem ptr)).2⟩ :=
  hexScan_eq hnul ptr 0 0

/-- The `int` with the low 32 bits of a number. -/
theorem asInt_bmod (v : Nat) : asInt (UInt32.ofNat v) = Int.bmod v (2^32) := by
  rw [asInt, UInt32.toNat_ofNat', Int.bmod_def]
  split_ifs <;> omega

/-- On every NUL-terminated string: the pointer moves past exactly the longest run of hex
digits, their number is returned, and what is stored is the number they spell modulo
`2^32` as a signed `int`, so the number itself where it is below `2^31`. -/
theorem hexToInt_parses (mem : List UInt8) (ptr : Nat) (hnul : 0 ∈ mem.drop ptr) :
    ∃ digits s, HexPrefix (stringAt mem ptr) digits ∧ hexToIntAt mem ptr = some s ∧
      s.ptr = ptr + digits.length ∧ s.numChars = digits.length ∧
      asInt s.intValue = Int.bmod (prefixValue digits) (2^32) ∧
      (digits.length ≤ 8 → prefixValue digits < 2^31 → asInt s.intValue = prefixValue digits) := by
  have hdigits : ∀ ch ∈ (stringAt mem ptr).takeWhile isHexDigit, isHexDigit ch = true :=
    List.all_eq_true.mp List.all_takeWhile
  have hvalue := prefixValue_eq hdigits
  refine ⟨_, _, takeWhile_hexPrefix _, hexToIntAt_eq hnul, ?_⟩
  simp only [hexToInt_spec, ← hvalue, true_and]
  exact ⟨asInt_bmod _, fun _ hsmall => asInt_ofNat hsmall⟩

/-- `1fG` with its NUL: two digits, 31. -/
theorem hexToInt_parses_number :
    let mem : List UInt8 := [0x31, 0x66, 0x47, 0]
    0 ∈ mem.drop 0 ∧ ∃ digits s, HexPrefix (stringAt mem 0) digits ∧ hexToIntAt mem 0 = some s ∧
      s.ptr = 0 + digits.length ∧ s.numChars = digits.length ∧
      asInt s.intValue = Int.bmod (prefixValue digits) (2^32) ∧
      (digits.length ≤ 8 → prefixValue digits < 2^31 → asInt s.intValue = prefixValue digits) := by
  intro mem
  have hnul : 0 ∈ mem.drop 0 := by decide
  exact ⟨hnul, hexToInt_parses mem 0 hnul⟩

/-- Nine digits: the highest is shifted out. -/
example : hexToIntAt [0x38, 0x30, 0x30, 0x30, 0x30, 0x30, 0x30, 0x30, 0x31, 0] 0 = some ⟨9, 9, 1⟩ := by
  decide

end EndlessFault.Gdbserver
