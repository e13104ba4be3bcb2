import Mathlib.Data.Nat.Bitwise
import EndlessFault.Gdbserver.Stub

/- The memory commands of the gdb stub, `mA,L` and `MA,L:D`. A `MemPacket`
   carries the digits of a well-formed packet; `Confined` is what is wanted of the
   stub on it: the packets in range served, all others refused with an error.

   `hexToInt_spec` says what the parser makes of any string, `handle_read` and
   `handle_write` what the stub does with any well-formed packet: it serves it,
   whatever the range. So it never refuses one (`not_refused`), it serves those in
   range without touching anything else (`served`, `inside`), and it is confined
   exactly on these (`confined_iff`). -/
namespace EndlessFault.Gdbserver
open Lib.Bytes

/-! Hex numbers. -/

def isHexDigit (ch : UInt8) : Bool := decide (0 ≤ hex ch)

/-- The number a list of hex digits spells. -/
def digitsValue (digits : List UInt8) : Nat :=
  digits.foldl (fun v ch => 16 * v + (hex ch).toNat) 0

theorem hex_lt (ch : UInt8) : hex ch < 16 := by
  unfold hex
  split_ifs with h1 h2 h3
  · have := UInt8.le_iff_toNat_le.mp h1.2
    have hf : (ascii 'f').toNat = 102 := rfl
    have ha : (ascii 'a').toNat = 97 := rfl
    omega
  · have := UInt8.le_iff_toNat_le.mp h2.2
    have hf : (ascii '9').toNat = 57 := rfl
    have ha : (ascii '0').toNat = 48 := rfl
    omega
  · have := UInt8.le_iff_toNat_le.mp h3.2
    have hf : (ascii 'F').toNat = 70 := rfl
    have ha : (ascii 'A').toNat = 65 := rfl
    omega
  · decide

/-- Shifting in a digit is a step of positional notation modulo `2^32`. -/
theorem shift_digit (v : Nat) {d : Nat} (hd : d < 16) :
    (UInt32.ofNat v <<< 4) ||| UInt32.ofNat d = UInt32.ofNat (16 * v + d) := by
  apply UInt32.toNat_inj.mp
  have hsplit : v % 2^32 * 2^4 % 2^32 = (v % 2^28) <<< 4 := by
    rw [Nat.shiftLeft_eq]
    omega
  rw [UInt32.toNat_or, UInt32.toNat_shiftLeft, UInt32.toNat_ofNat', UInt32.toNat_ofNat',
    UInt32.toNat_ofNat', Nat.mod_eq_of_lt (show d < 2^32 by omega),
    show (4 : UInt32).toNat % 32 = 4 from rfl, Nat.shiftLeft_eq, hsplit,
    ← Nat.shiftLeft_add_eq_or_of_lt (show d < 2^4 by omega), Nat.shiftLeft_eq]
  omega

/-- `hexToInt` reads the longest prefix of hex digits, modulo `2^32`. -/
theorem hexToInt_spec (str : List UInt8) : hexToInt str =
    ((str.takeWhile isHexDigit).length, UInt32.ofNat (digitsValue (str.takeWhile isHexDigit))) := by
  have hloop : ∀ (str : List UInt8) (n v : Nat), hexToIntLoop n (UInt32.ofNat v) str =
      (n + (str.takeWhile isHexDigit).length,
        UInt32.ofNat ((str.takeWhile isHexDigit).foldl (fun v ch => 16 * v + (hex ch).toNat) v)) := by
    intro str
    induction str with
    | nil => intro n v; rfl
    | cons ch str ih =>
      intro n v
      have hlt := hex_lt ch
      by_cases hdigit : hex ch ≥ 0
      · rw [hexToIntLoop, if_pos hdigit, shift_digit v (by omega), ih,
          List.takeWhile_cons_of_pos (by simpa [isHexDigit] using hdigit), List.length_cons,
          List.foldl_cons, Nat.add_right_comm, Nat.add_assoc]
      · rw [hexToIntLoop, if_neg hdigit,
          List.takeWhile_cons_of_neg (by simpa [isHexDigit] using hdigit)]
        rfl
  rw [hexToInt, show (0 : UInt32) = UInt32.ofNat 0 from rfl, hloop, Nat.zero_add, digitsValue]

theorem asInt_ofNat {v : Nat} (hv : v < 2^31) : asInt (UInt32.ofNat v) = v := by
  rw [asInt, UInt32.toNat_ofNat', Nat.mod_eq_of_lt (by omega), if_pos hv]

/-- A non-empty hex number. -/
structure Digits where
  chars : List UInt8
  isHex : chars.all isHexDigit = true
  nonempty : chars ≠ []

def Digits.value (d : Digits) : Nat := digitsValue d.chars

/-! Strings in the packet buffer. -/

/-- The string `str` with its NUL stands at offset `ptr` of the buffer. -/
def Holds (buffer : PacketBuffer) (ptr : Nat) (str : List UInt8) : Prop :=
  ∃ rest, buffer.toList.drop ptr = str ++ 0 :: rest

theorem Holds.drop {buffer : PacketBuffer} {ptr : Nat} {a b : List UInt8}
    (h : Holds buffer ptr (a ++ b)) : Holds buffer (ptr + a.length) b := by
  obtain ⟨rest, hrest⟩ := h
  refine ⟨rest, ?_⟩
  rw [← List.drop_drop, hrest, List.append_assoc, List.drop_left]

theorem Holds.length_lt {buffer : PacketBuffer} {ptr : Nat} {str : List UInt8}
    (h : Holds buffer ptr str) : ptr + str.length < 400 := by
  obtain ⟨rest, hrest⟩ := h
  have hlen := congrArg List.length hrest
  simp only [List.length_drop, Vector.length_toList, List.length_append, List.length_cons] at hlen
  omega

/-- The bytes of the string and its NUL. -/
theorem Holds.byte {s : Stub} {ptr : Nat} {str : List UInt8} (h : Holds s.inBuffer ptr str)
    (after : Nat → UInt8) {i : Nat} (hi : i ≤ str.length) :
    s.inByte after (ptr + i) = str.getD i 0 := by
  have hlt : ptr + i < 400 := by
    have := h.length_lt
    omega
  obtain ⟨rest, hrest⟩ := h
  have hget := congrArg (fun l : List UInt8 => l.getD i 0) hrest
  simp only [List.getD_eq_getElem?_getD, List.getElem?_drop, Vector.getElem?_toList,
    Vector.getElem?_eq_getElem hlt, Option.getD_some] at hget
  rw [Stub.inByte, dif_pos hlt, hget, List.getD_eq_getElem?_getD]
  rcases Nat.lt_or_eq_of_le hi with hin | rfl
  · rw [List.getElem?_append_left hin]
  · simp

/-- A character at the pointer that is not the NUL is the first of the string. -/
theorem Holds.first {s : Stub} {ptr : Nat} {str : List UInt8} (h : Holds s.inBuffer ptr str)
    (after : Nat → UInt8) {c : UInt8} (hc : c ≠ 0) (hbyte : s.inByte after ptr = c) :
    ∃ rest, str = c :: rest := by
  have hfirst := h.byte after (Nat.zero_le _)
  rw [Nat.add_zero, hbyte] at hfirst
  cases str with
  | nil => exact absurd hfirst hc
  | cons a rest =>
    obtain rfl : c = a := hfirst
    exact ⟨rest, rfl⟩

theorem hexDigit_ne {c : UInt8} (hc : isHexDigit c = false) {ch : UInt8}
    (h : isHexDigit ch = true) : ch ≠ c := by
  rintro rfl
  rw [hc] at h
  exact absurd h Bool.false_ne_true

/-- A number before a character that is no hex digit, or at the end, is parsed whole. -/
theorem Digits.takeWhile (d : Digits) {rest : List UInt8}
    (hstop : ∀ ch ∈ rest.head?, isHexDigit ch = false) :
    (d.chars ++ rest).takeWhile isHexDigit = d.chars := by
  rw [List.takeWhile_append_of_pos (List.all_eq_true.mp d.isHex)]
  cases rest with
  | nil => simp
  | cons c rest =>
    have hc := hstop c rfl
    rw [List.takeWhile_cons_of_neg (by simp [hc]), List.append_nil]

theorem Digits.length_ne_zero (d : Digits) : d.chars.length ≠ 0 :=
  fun h => d.nonempty (List.eq_nil_of_length_eq_zero h)

/-- `hexToInt` reads the digits a string in the buffer starts with; the NUL that
ends it is none. -/
theorem Holds.hexToInt {buffer : PacketBuffer} {ptr : Nat} {str : List UInt8}
    (h : Holds buffer ptr str) :
    hexToInt (Gdbserver.cString buffer ptr) = ((str.takeWhile isHexDigit).length,
      UInt32.ofNat (digitsValue (str.takeWhile isHexDigit))) := by
  obtain ⟨rest, hrest⟩ := h
  have hdigits : ((str ++ 0 :: rest).takeWhile (· != 0)).takeWhile isHexDigit =
      str.takeWhile isHexDigit := by
    clear hrest
    induction str with
    | nil => rfl
    | cons ch str ih =>
      by_cases hch : isHexDigit ch = true
      · have hne : ch ≠ 0 := hexDigit_ne (by decide) hch
        rw [List.cons_append, List.takeWhile_cons_of_pos (by simpa using hne),
          List.takeWhile_cons_of_pos hch, ih, List.takeWhile_cons_of_pos hch]
      · rw [List.cons_append, List.takeWhile_cons, List.takeWhile_cons_of_neg hch]
        split
        · exact List.takeWhile_cons_of_neg hch
        · rfl
  rw [hexToInt_spec, Gdbserver.cString, hrest, hdigits]

/-- What `hexToInt` makes of a number in the buffer. -/
theorem Holds.parse {buffer : PacketBuffer} {ptr : Nat} {d : Digits} {rest : List UInt8}
    (h : Holds buffer ptr (d.chars ++ rest)) (hstop : ∀ ch ∈ rest.head?, isHexDigit ch = false) :
    Gdbserver.hexToInt (Gdbserver.cString buffer ptr) =
      (d.chars.length, UInt32.ofNat d.value) := by
  rw [h.hexToInt, d.takeWhile hstop, Digits.value]

/-! Packets and what is asked of them. -/

/-- A well-formed memory packet: the digits of address and length, and for a
write two hex digits for each byte. -/
inductive MemPacket where
  | read (addr len : Digits)
  | write (addr len : Digits) (data : List UInt8) (isHex : data.all isHexDigit = true)
      (full : data.length = 2 * len.value)

namespace MemPacket

def payload : MemPacket → List UInt8
  | read addr len => ascii 'm' :: (addr.chars ++ ascii ',' :: len.chars)
  | write addr len data _ _ =>
    ascii 'M' :: (addr.chars ++ ascii ',' :: (len.chars ++ ascii ':' :: data))

/-- The address and the length, as numbers. -/
def addr : MemPacket → Nat
  | read addr _ => addr.value
  | write addr _ _ _ _ => addr.value

def len : MemPacket → Nat
  | read _ len => len.value
  | write _ len _ _ _ => len.value

/-- The range lies inside a guest memory of `size` bytes. -/
def InGuest (p : MemPacket) (size : Nat) : Prop :=
  ∀ x, p.addr ≤ x → x < p.addr + p.len → x < size

/-- The reply, with its NUL, fits `remcomOutBuffer`. -/
def ReplyFits : MemPacket → Prop
  | read _ len => 2 * len.value + 1 ≤ 400
  | write .. => True

/-- The `i`-th byte that the digits `data` spell. -/
def dataByte (data : List UInt8) (i : Nat) : UInt8 :=
  UInt8.ofNat (digitsValue [data.getD (2 * i) 0, data.getD (2 * i + 1) 0])

/-- The guest bytes of the range are sent in hex, or written and acknowledged;
nothing else changes. -/
def Served (s : Stub) (o : Outcome) : MemPacket → Prop
  | read addr len =>
    o.sent = some ((List.range len.value).flatMap fun i : Nat => hexPair (s.memory (addr.value + i))) ∧
    o.stub = s
  | write addr len data _ _ =>
    o.sent = some [ascii 'O', ascii 'K'] ∧ o.stub = { s with memory := o.stub.memory } ∧
    ∀ x : Int, o.stub.memory x =
      if (addr.value : Int) ≤ x ∧ x < addr.value + len.value then
        dataByte data (x - addr.value).toNat
      else s.memory x

/-- An error is sent. -/
def Refused (o : Outcome) : Prop :=
  o.sent = some [ascii 'E', ascii '0', ascii '1'] ∨ o.sent = some [ascii 'E', ascii '0', ascii '2']

/-- Nothing outside the guest is read or written, and the reply stays inside
its buffer. -/
def Inside (size : Nat) (o : Outcome) : Prop :=
  (∀ x ∈ o.loads ++ o.stores, 0 ≤ x ∧ x < size) ∧ o.stored.length ≤ 400

/-- Packets in range are served and all others refused, and none reaches beyond
the guest or the reply buffer. -/
def Confined (size : Nat) (s : Stub) (p : MemPacket) (o : Outcome) : Prop :=
  (p.InGuest size ∧ p.ReplyFits → p.Served s o) ∧
  (¬ (p.InGuest size ∧ p.ReplyFits) → Refused o) ∧
  Inside size o

end MemPacket

/-- The byte two hex digits spell is the byte `hex2mem` makes of them. -/
theorem dataByte_eq {data : List UInt8} (isHex : data.all isHexDigit = true) {i : Nat}
    (hi : 2 * i + 1 < data.length) :
    UInt8.ofInt (hex (data.getD (2 * i) 0) * 16) + UInt8.ofInt (hex (data.getD (2 * i + 1) 0)) =
      MemPacket.dataByte data i := by
  have hdigit : ∀ k, k < data.length → ∃ n : Nat, hex (data.getD k 0) = n := by
    intro k hk
    have hmem : data.getD k 0 ∈ data := by
      rw [List.getD_eq_getElem _ _ hk]
      exact List.getElem_mem hk
    have hpos : 0 ≤ hex (data.getD k 0) := by
      simpa [isHexDigit] using List.all_eq_true.mp isHex _ hmem
    exact ⟨(hex (data.getD k 0)).toNat, by omega⟩
  obtain ⟨hi4, h1⟩ := hdigit (2 * i) (by omega)
  obtain ⟨lo4, h2⟩ := hdigit (2 * i + 1) hi
  rw [MemPacket.dataByte, digitsValue, List.foldl_cons, List.foldl_cons, List.foldl_nil, h1, h2,
    ← UInt8.ofInt_add, Int.toNat_natCast, Int.toNat_natCast]
  apply UInt8.toNat_inj.mp
  rw [UInt8.ofInt, UInt8.toNat_ofNat', UInt8.toNat_ofNat']
  omega

/-- The bytes `hex2mem` makes of digits in the buffer. -/
theorem hex2mem_held {s : Stub} {ptr : Nat} {data : List UInt8} (after : Nat → UInt8)
    (h : Holds s.inBuffer ptr data) (isHex : data.all isHexDigit = true) (count : Nat)
    (hfull : 2 * count ≤ data.length) :
    hex2mem (fun i => s.inByte after (ptr + i)) count =
      (List.range count).map (MemPacket.dataByte data) := by
  unfold hex2mem
  rw [Int.toNat_natCast]
  apply List.map_congr_left
  intro i hi
  rw [List.mem_range] at hi
  dsimp only
  rw [h.byte after (show 2 * i ≤ data.length by omega),
    h.byte after (show 2 * i + 1 ≤ data.length by omega)]
  exact dataByte_eq isHex (by omega)

/-! What the stub does with them. -/

section
variable {s : Stub} {ptr : Nat} (after : Nat → UInt8) (sigval : Nat)

/-- A packet that does not start with `q` goes by its first letter. -/
theorem letter_facts {c : UInt8} {rest : List UInt8} (h : Holds s.inBuffer ptr (c :: rest))
    (hc : c ≠ 0) (hq : c ≠ ascii 'q') :
    Stub.qRcmd.isPrefixOf (cString s.inBuffer ptr) = false ∧ s.inByte after ptr = c := by
  refine ⟨?_, h.byte after (i := 0) (by simp)⟩
  obtain ⟨rest', hrest⟩ := h
  rw [cString, hrest, List.cons_append, List.takeWhile_cons_of_pos (by simpa using hc)]
  simp [Stub.qRcmd, List.isPrefixOf, hq.symm]

theorem handle_m {rest : List UInt8} (h : Holds s.inBuffer ptr (ascii 'm' :: rest)) :
    s.handle after sigval ptr = s.readMemory after (ptr + 1) := by
  obtain ⟨hq, hletter⟩ := letter_facts after h (by decide) (by decide)
  simp only [Stub.handle, hq, hletter]
  rfl

theorem handle_M {rest : List UInt8} (h : Holds s.inBuffer ptr (ascii 'M' :: rest)) :
    s.handle after sigval ptr = s.writeMemory after (ptr + 1) := by
  obtain ⟨hq, hletter⟩ := letter_facts after h (by decide) (by decide)
  simp only [Stub.handle, hq, hletter]
  rfl

/-- The address and the length of a packet, parsed. -/
theorem parse_range {addr len : Digits} {rest : List UInt8}
    (h : Holds s.inBuffer ptr (addr.chars ++ ascii ',' :: (len.chars ++ rest)))
    (hstop : ∀ ch ∈ rest.head?, isHexDigit ch = false) :
    hexToInt (cString s.inBuffer ptr) = (addr.chars.length, UInt32.ofNat addr.value) ∧
    s.inByte after (ptr + addr.chars.length) = ascii ',' ∧
    hexToInt (cString s.inBuffer (ptr + addr.chars.length + 1)) =
      (len.chars.length, UInt32.ofNat len.value) := by
  have hcomma : Holds s.inBuffer (ptr + addr.chars.length) (ascii ',' :: (len.chars ++ rest)) := h.drop
  have hlen : Holds s.inBuffer (ptr + addr.chars.length + 1) (len.chars ++ rest) :=
    Holds.drop (a := [ascii ',']) hcomma
  refine ⟨h.parse (by simp; decide), hcomma.byte after (i := 0) (by simp), hlen.parse hstop⟩

theorem handle_read {addr len : Digits}
    (h : Holds s.inBuffer ptr (MemPacket.read addr len).payload) :
    s.handle after sigval ptr =
      { s.reply (mem2hex (fun i => s.memory (asInt (UInt32.ofNat addr.value) + i))
          (asInt (UInt32.ofNat len.value))) with
        loads := Memory.offsets (asInt (UInt32.ofNat addr.value))
          (asInt (UInt32.ofNat len.value)).toNat } := by
  have hargs : Holds s.inBuffer (ptr + 1) (addr.chars ++ ascii ',' :: (len.chars ++ [])) := by
    rw [List.append_nil]
    exact Holds.drop (a := [ascii 'm']) h
  obtain ⟨haddr, hcomma, hlen⟩ := parse_range after hargs (by simp)
  rw [handle_m after sigval h, Stub.readMemory, haddr]
  dsimp only
  rw [hlen, hcomma]
  dsimp only
  rw [if_pos ⟨addr.length_ne_zero, rfl, len.length_ne_zero⟩]

/-- A write that gets as far as its colon is made with what follows it, taken as
data of the given length. -/
theorem writeMemory_accepted {addr len : Digits} {data : List UInt8}
    (h : Holds s.inBuffer ptr (addr.chars ++ ascii ',' :: (len.chars ++ ascii ':' :: data))) :
    let start := ptr + addr.chars.length + 1 + len.chars.length + 1
    let length := asInt (UInt32.ofNat len.value)
    Holds s.inBuffer start data ∧
    s.writeMemory after ptr =
      { Stub.reply { s with
          memory := s.memory.store (asInt (UInt32.ofNat addr.value))
            (hex2mem (fun i => s.inByte after (start + i)) length) } ok with
        stores := Memory.offsets (asInt (UInt32.ofNat addr.value)) length.toNat } := by
  obtain ⟨haddr, hcomma, hlen⟩ := parse_range after h (by simp; decide)
  have hcolon : Holds s.inBuffer (ptr + addr.chars.length + 1 + len.chars.length) (ascii ':' :: data) :=
    Holds.drop (a := len.chars) (Holds.drop (a := [ascii ',']) h.drop)
  have hcolonByte : s.inByte after (ptr + addr.chars.length + 1 + len.chars.length) = ascii ':' :=
    hcolon.byte after (i := 0) (by simp)
  refine ⟨Holds.drop (a := [ascii ':']) hcolon, ?_⟩
  rw [Stub.writeMemory, haddr]
  dsimp only
  rw [hlen, hcomma]
  dsimp only
  rw [hcolonByte, if_pos ⟨addr.length_ne_zero, rfl, len.length_ne_zero, rfl⟩]

theorem handle_write {addr len : Digits} {data : List UInt8}
    {isHex : data.all isHexDigit = true} {full : data.length = 2 * len.value}
    (h : Holds s.inBuffer ptr (MemPacket.write addr len data isHex full).payload) :
    s.handle after sigval ptr =
      { Stub.reply { s with
          memory := s.memory.store (asInt (UInt32.ofNat addr.value))
            ((List.range len.value).map (MemPacket.dataByte data)) } ok with
        stores := Memory.offsets (asInt (UInt32.ofNat addr.value)) len.value } := by
  have hargs : Holds s.inBuffer (ptr + 1)
      (addr.chars ++ ascii ',' :: (len.chars ++ ascii ':' :: data)) :=
    Holds.drop (a := [ascii 'M']) h
  obtain ⟨hdata, hwrite⟩ := writeMemory_accepted after hargs
  -- two digits for each byte had to fit the packet
  have hshort : len.value < 2^31 := by
    have hfit := hdata.length_lt
    omega
  rw [handle_M after sigval h, hwrite, asInt_ofNat hshort, Int.toNat_natCast,
    hex2mem_held after hdata isHex len.value (by omega)]

/-! Served, never refused. -/

theorem hexPair_ne_zero (ch : UInt8) : ∀ c ∈ hexPair ch, c ≠ 0 := by
  have hdigit : ∀ n, n < 16 → hexchars.getD n 0 ≠ 0 := by decide
  have hch := ch.toNat_lt
  intro c hc
  rcases List.mem_pair.mp hc with rfl | rfl
  · exact hdigit _ (by omega)
  · exact hdigit _ (by omega)

/-- The string `mem2hex` leaves. -/
theorem mem2hex_string (mem : Nat → UInt8) (count : Int) :
    (mem2hex mem count).takeWhile (· != 0) =
      (List.range count.toNat).flatMap fun i => hexPair (mem i) := by
  rw [mem2hex, List.takeWhile_append_of_pos]
  · simp
  · intro c hc
    obtain ⟨i, -, hi⟩ := List.mem_flatMap.mp hc
    simpa using hexPair_ne_zero _ c hi

theorem length_hexPairs (mem : Nat → UInt8) (is : List Nat) :
    (is.flatMap fun i => hexPair (mem i)).length = 2 * is.length := by
  induction is with
  | nil => rfl
  | cons i is ih =>
    rw [List.flatMap_cons, List.length_append, ih, List.length_cons, hexPair]
    simp only [List.length_cons, List.length_nil]
    omega

/-- Hex comes in pairs, so it is never a string of three characters. -/
theorem hexPairs_ne (mem : Nat → UInt8) (is : List Nat) (a b c : UInt8) :
    (is.flatMap fun i => hexPair (mem i)) ≠ [a, b, c] := by
  intro h
  have hodd := congrArg List.length h
  rw [length_hexPairs] at hodd
  simp only [List.length_cons, List.length_nil] at hodd
  omega

/-- No well-formed memory packet is refused: a read sends an even number of
characters and a write sends `OK`, whatever their range. -/
theorem not_refused (p : MemPacket) (h : Holds s.inBuffer ptr p.payload) :
    ¬ MemPacket.Refused (s.handle after sigval ptr) := by
  intro herror
  cases p with
  | read addr len =>
    rw [handle_read after sigval h] at herror
    simp only [MemPacket.Refused, Outcome.sent, Stub.reply, mem2hex_string, Option.some.injEq] at herror
    rcases herror with herror | herror
    · exact hexPairs_ne _ _ _ _ _ herror
    · exact hexPairs_ne _ _ _ _ _ herror
  | write addr len data isHex full =>
    rw [handle_write after sigval h] at herror
    rcases herror with herror | herror
    · exact absurd herror (by simp [Outcome.sent, Stub.reply, ok]; decide)
    · exact absurd herror (by simp [Outcome.sent, Stub.reply, ok]; decide)

/-- The address of a non-empty range in the guest is below `2^31`, so it
survives the parsing. -/
theorem addr_parsed (memSize : UInt32) (p : MemPacket)
    (hin : p.InGuest (guestPhysicalMemorySize memSize).toNat) (hlen : 0 < p.len) :
    asInt (UInt32.ofNat p.addr) = p.addr := by
  have hsize := guestPhysicalMemorySize_le memSize
  have hfirst := hin p.addr (Nat.le_refl _) (by omega)
  exact asInt_ofNat (by omega)

theorem length_mem2hex (mem : Nat → UInt8) (count : Int) :
    (mem2hex mem count).length = 2 * count.toNat + 1 := by
  rw [mem2hex, List.length_append, length_hexPairs, List.length_range, List.length_singleton]

/-- A range in the guest, as the stub takes it, stays in the guest. -/
theorem offsets_inside (memSize : UInt32) (p : MemPacket)
    (hin : p.InGuest (guestPhysicalMemorySize memSize).toNat) :
    ∀ x ∈ Memory.offsets (asInt (UInt32.ofNat p.addr)) p.len,
      0 ≤ x ∧ x < (guestPhysicalMemorySize memSize).toNat := by
  intro x hx
  have hrange := Memory.mem_offsets.mp hx
  rw [addr_parsed memSize p hin (by omega)] at hrange
  have hlt := hin x.toNat (by omega) (by omega)
  omega

/-- A packet in range reaches nothing outside the guest and the reply buffer. -/
theorem inside (memSize : UInt32) (p : MemPacket) (h : Holds s.inBuffer ptr p.payload)
    (hin : p.InGuest (guestPhysicalMemorySize memSize).toNat) (hfits : p.ReplyFits) :
    MemPacket.Inside (guestPhysicalMemorySize memSize).toNat (s.handle after sigval ptr) := by
  have hoffsets := offsets_inside memSize p hin
  cases p with
  | read addr len =>
    have hshort : 2 * len.value + 1 ≤ 400 := hfits
    rw [handle_read after sigval h, asInt_ofNat (show len.value < 2^31 by omega)]
    constructor
    · intro x hx
      exact hoffsets x ((List.append_nil _).subst hx)
    · simp only [Outcome.stored, Stub.reply, length_mem2hex, Int.toNat_natCast]
      exact hshort
  | write addr len data isHex full =>
    rw [handle_write after sigval h]
    exact ⟨hoffsets, by simp only [Outcome.stored, Stub.reply]; decide⟩

/-- A packet in range is served: its address and length survive the parsing. -/
theorem served (memSize : UInt32) (p : MemPacket) (h : Holds s.inBuffer ptr p.payload)
    (hin : p.InGuest (guestPhysicalMemorySize memSize).toNat) (hfits : p.ReplyFits) :
    p.Served s (s.handle after sigval ptr) := by
  have haddr := addr_parsed memSize p hin
  cases p with
  | read addr len =>
    have hshort : 2 * len.value + 1 ≤ 400 := hfits
    rw [handle_read after sigval h, asInt_ofNat (show len.value < 2^31 by omega)]
    refine ⟨?_, rfl⟩
    simp only [Outcome.sent, Stub.reply, mem2hex_string, Int.toNat_natCast, Option.some.injEq]
    rcases Nat.eq_zero_or_pos len.value with hzero | hpos
    · rw [hzero, List.range_zero, List.flatMap_nil, List.flatMap_nil]
    · have hexact : asInt (UInt32.ofNat addr.value) = addr.value := haddr hpos
      rw [hexact]
  | write addr len data isHex full =>
    rw [handle_write after sigval h]
    refine ⟨rfl, rfl, fun x => ?_⟩
    show s.memory.store _ _ x = _
    rcases Nat.eq_zero_or_pos len.value with hzero | hpos
    · rw [hzero, if_neg (by omega), List.range_zero, List.map_nil, Memory.store_nil]
    · have hlength : ((List.range len.value).map (MemPacket.dataByte data)).length = len.value := by
        simp
      have hexact : asInt (UInt32.ofNat addr.value) = addr.value := haddr hpos
      rw [hexact, Memory.store, hlength]
      by_cases hx : (addr.value : Int) ≤ x ∧ x < addr.value + len.value
      · have hi : (x - addr.value).toNat < len.value := by omega
        rw [if_pos hx, if_pos hx, List.getD_eq_getElem _ _ (by rw [hlength]; exact hi),
          List.getElem_map, List.getElem_range]
      · rw [if_neg hx, if_neg hx]

/-- For every guest memory size `main` can configure, the stub confines a memory
packet exactly when the packet asks for nothing that would have to be refused. -/
theorem confined_iff (memSize : UInt32) (p : MemPacket) (h : Holds s.inBuffer ptr p.payload) :
    p.Confined (guestPhysicalMemorySize memSize).toNat s (s.handle after sigval ptr) ↔
      p.InGuest (guestPhysicalMemorySize memSize).toNat ∧ p.ReplyFits := by
  constructor
  · rintro ⟨-, hrefuse, -⟩
    by_contra hout
    exact not_refused after sigval p h (hrefuse hout)
  · intro hgood
    exact ⟨fun _ => served after sigval memSize p h hgood.1 hgood.2, fun hout => absurd hgood hout,
      inside after sigval memSize p h hgood.1 hgood.2⟩

end

/-! Two packets on a stub with 8 MiB of guest memory. -/

/-- A stub that has just received `str`, with a guest memory full of `0xAA`. -/
def receivedStub (str : List UInt8) (h : str.length < 400) : Stub where
  inBuffer := ⟨(str ++ List.replicate (400 - str.length) 0).toArray, by simp; omega⟩
  registers := Vector.replicate numRegs 0
  extendedRegisters := Vector.replicate 5 0
  memory := fun _ => 0xAA
  remoteDebug := false
  reloads := []

theorem receivedStub_holds (str : List UInt8) (h : str.length < 400) :
    Holds (receivedStub str h).inBuffer 0 str := by
  refine ⟨List.replicate (399 - str.length) 0, ?_⟩
  have hsplit : 400 - str.length = (399 - str.length) + 1 := by omega
  simp only [receivedStub, Vector.toList_mk, List.drop_zero, hsplit, List.replicate_succ]

/-- `m0,1`, the first byte of the guest. -/
def firstByte : MemPacket :=
  .read ⟨[ascii '0'], by decide, by decide⟩ ⟨[ascii '1'], by decide, by decide⟩

theorem confined_firstByte :
    firstByte.Confined (guestPhysicalMemorySize 8).toNat (receivedStub firstByte.payload (by decide))
      ((receivedStub firstByte.payload (by decide)).handle (fun _ => 0) 5 0) :=
  (confined_iff (fun _ => 0) 5 8 firstByte (receivedStub_holds _ _)).mpr
    ⟨fun x _ hx => Nat.lt_trans hx (by decide), show 2 * 1 + 1 ≤ 400 by decide⟩

/-- `m800000,1`, the byte after the guest. -/
def byteAfterGuest : MemPacket :=
  .read ⟨[ascii '8', ascii '0', ascii '0', ascii '0', ascii '0', ascii '0'], by decide, by decide⟩
    ⟨[ascii '1'], by decide, by decide⟩

/-- The byte after the guest is read and sent. -/
theorem byteAfterGuest_served :
    let s := receivedStub byteAfterGuest.payload (by decide)
    let o := s.handle (fun _ => 0) 5 0
    o.sent = some [ascii 'a', ascii 'a'] ∧ o.loads = [0x800000] ∧
    ¬ byteAfterGuest.Confined (guestPhysicalMemorySize 8).toNat s o := by
  intro s o
  have hholds : Holds s.inBuffer 0 byteAfterGuest.payload := receivedStub_holds _ _
  have hhandle := handle_read (fun _ => 0) 5 hholds
  refine ⟨?_, ?_, fun hconfined => ?_⟩
  · rw [show o = _ from hhandle]
    simp only [Outcome.sent, Stub.reply, mem2hex_string]
    decide
  · rw [show o = _ from hhandle]
    rfl
  · refine not_refused (fun _ => 0) 5 byteAfterGuest hholds (hconfined.2.1 fun hgood => ?_)
    exact absurd (hgood.1 0x800000 (by decide) (by decide)) (by decide)

end EndlessFault.Gdbserver
