import EndlessFault.Lib.Words

/- The messages of the debug server (`debug-server/messages.c`). A message is a packed
   structure: its type, a timestamp and what the type needs. It is converted between
   host and network order in place, so it is modelled as the memory from its address
   on, and a conversion as a store to each of its fields.

   The host is little-endian: `htonl` reverses the bytes of its argument. The
   timestamp is a field of eight bytes that is converted with `htonl`, which takes and
   returns four: the upper half of it is lost. -/
namespace EndlessFault.DebugServer
open Lib.Words

inductive MessageType where
  | welcomeMess
  | genericErr
  | reqInfo
  | sendInfo
  | reqDumpMem
  | serverQuit
  deriving DecidableEq, Repr

namespace MessageType

/-- The value of an enumerator. -/
def code : MessageType → Nat
  | welcomeMess => 0
  | genericErr => 1
  | reqInfo => 2
  | sendInfo => 3
  | reqDumpMem => 4
  | serverQuit => 5

/-- The enumerator of a value, which may be none. -/
def ofCode : Nat → Option MessageType
  | 0 => some welcomeMess
  | 1 => some genericErr
  | 2 => some reqInfo
  | 3 => some sendInfo
  | 4 => some reqDumpMem
  | 5 => some serverQuit
  | _ => none

theorem ofCode_code (t : MessageType) : ofCode t.code = some t := by
  cases t <;> rfl

/-- The size of the structure of a type: `simple_msg`, `info_msg` or `req_dump_mem`. -/
def size : MessageType → Nat
  | sendInfo => 20
  | reqDumpMem => 28
  | _ => 12

theorem size_bounds (t : MessageType) : 4 ≤ t.size ∧ t.size < 2^32 := by
  cases t <;> decide

end MessageType

/-! Byte order. -/

def htonl (w : UInt32) : UInt32 :=
  UInt32.ofNat (w.toNat % 2^8 * 2^24 + w.toNat / 2^8 % 2^8 * 2^16 + w.toNat / 2^16 % 2^8 * 2^8 +
    w.toNat / 2^24)

def ntohl : UInt32 → UInt32 := htonl

def htonll (x : UInt64) : UInt64 :=
  (htonl (x &&& 0xFFFFFFFF).toUInt32).toUInt64 <<< 32 ||| (htonl (x >>> 32).toUInt32).toUInt64

/-! Fields. -/

/-- How a field is converted: a word, a timestamp, or a word of 64 bits. -/
inductive Kind where
  | word
  | time
  | long
  deriving DecidableEq, Repr

structure Field where
  off : Nat
  kind : Kind
  deriving DecidableEq, Repr

namespace Field

def size (f : Field) : Nat :=
  match f.kind with
  | .word => 4
  | .time => 8
  | .long => 8

def value (f : Field) (m : Int → UInt8) : Nat := load m f.off f.size

def set (f : Field) (m : Int → UInt8) (v : Nat) : Int → UInt8 := store m f.off f.size v

/-- `ntohl` and `htonl` are the same function, and so are the 64-bit macros. -/
def convert (m : Int → UInt8) (f : Field) : Int → UInt8 :=
  f.set m (match f.kind with
    | .word => (htonl (UInt32.ofNat (f.value m))).toNat
    | .time => (htonl (UInt32.ofNat (f.value m))).toNat
    | .long => (htonll (UInt64.ofNat (f.value m))).toNat)

end Field

def typeField : Field := ⟨0, .word⟩
def timestamp : Field := ⟨4, .time⟩
def memSizeField : Field := ⟨12, .long⟩
def startAddr : Field := ⟨12, .long⟩
def endAddr : Field := ⟨20, .long⟩

/-- The fields of a type that are converted after the type. -/
def MessageType.fields : MessageType → List Field
  | sendInfo => [timestamp, memSizeField]
  | reqDumpMem => [timestamp, startAddr, endAddr]
  | _ => [timestamp]

def messageType (m : Int → UInt8) : Option MessageType := MessageType.ofCode (typeField.value m)

/-- The fields after the type, as the type says. -/
def fieldsOf : Option MessageType → List Field
  | some t => t.fields
  | none => []

/-- The type says which fields there are, so it is looked at before it is converted; a
message of no type is left alone. -/
def convertToNetworkOrder (msg : Int → UInt8) : Int → UInt8 :=
  if messageType msg = none then msg
  else (fieldsOf (messageType msg)).foldl Field.convert (typeField.convert msg)

def convertToHostOrder (msg : Int → UInt8) : Int → UInt8 :=
  (fieldsOf (messageType (typeField.convert msg))).foldl Field.convert (typeField.convert msg)

/-! Messages made by the server and its clients, at the time `now`. -/

def initSimpleMsg (t : MessageType) (now : UInt64) (msg : Int → UInt8) : Int → UInt8 :=
  timestamp.set (typeField.set msg t.code) now.toNat

def initInfoMsg (memSize now : UInt64) (msg : Int → UInt8) : Int → UInt8 :=
  timestamp.set (memSizeField.set (typeField.set msg MessageType.sendInfo.code) memSize.toNat) now.toNat

def initReqDumpMem (start end_ now : UInt64) (msg : Int → UInt8) : Int → UInt8 :=
  timestamp.set (endAddr.set (startAddr.set (typeField.set msg MessageType.reqDumpMem.code)
    start.toNat) end_.toNat) now.toNat

/-- The first `n` bytes of a message. -/
def bytesOf (msg : Int → UInt8) (n : Nat) : List UInt8 := (List.range n).map fun i : Nat => msg i

theorem length_bytesOf (msg : Int → UInt8) (n : Nat) : (bytesOf msg n).length = n := by
  rw [bytesOf, List.length_map, List.length_range]

theorem getElem_bytesOf (msg : Int → UInt8) {n i : Nat} (h : i < (bytesOf msg n).length) :
    (bytesOf msg n)[i] = msg i := by
  simp only [bytesOf, List.getElem_map, List.getElem_range]

/-! Converting twice. -/

theorem htonl_toNat {w : UInt32} {a b c d : Nat} (ha : a < 2^8) (hb : b < 2^8) (hc : c < 2^8)
    (hd : d < 2^8) (hw : w.toNat = a + b * 2^8 + c * 2^16 + d * 2^24) :
    (htonl w).toNat = d + c * 2^8 + b * 2^16 + a * 2^24 := by
  have h0 : w.toNat % 2^8 = a := by omega
  have h1 : w.toNat / 2^8 % 2^8 = b := by omega
  have h2 : w.toNat / 2^16 % 2^8 = c := by omega
  have h3 : w.toNat / 2^24 = d := by omega
  rw [htonl, UInt32.toNat_ofNat', h0, h1, h2, h3]
  omega

/-- A word is made of its four bytes. -/
theorem exists_bytes (w : UInt32) : ∃ a b c d, a < 2^8 ∧ b < 2^8 ∧ c < 2^8 ∧ d < 2^8 ∧
    w.toNat = a + b * 2^8 + c * 2^16 + d * 2^24 := by
  have hlt := w.toNat_lt
  exact ⟨w.toNat % 2^8, w.toNat / 2^8 % 2^8, w.toNat / 2^16 % 2^8, w.toNat / 2^24,
    by omega, by omega, by omega, by omega, by omega⟩

theorem htonl_htonl (w : UInt32) : htonl (htonl w) = w := by
  obtain ⟨a, b, c, d, ha, hb, hc, hd, hw⟩ := exists_bytes w
  have honce := htonl_toNat ha hb hc hd hw
  apply UInt32.toNat_inj.mp
  rw [htonl_toNat hd hc hb ha honce, hw]

/-- The macro swaps the two halves and the bytes of each. -/
theorem htonll_toNat (x : UInt64) : (htonll x).toNat =
    (htonl (UInt32.ofNat (x.toNat % 2^32))).toNat * 2^32 + (htonl (UInt32.ofNat (x.toNat / 2^32))).toNat := by
  have hlow : (x &&& 0xFFFFFFFF).toUInt32 = UInt32.ofNat (x.toNat % 2^32) := by
    apply UInt32.toNat_inj.mp
    have hmask : x.toNat &&& (2^32 - 1) = x.toNat % 2^32 := Nat.and_two_pow_sub_one_eq_mod ..
    rw [UInt64.toNat_toUInt32, UInt64.toNat_and, UInt32.toNat_ofNat']
    exact congrArg (· % 2^32) hmask
  have hhigh : (x >>> 32).toUInt32 = UInt32.ofNat (x.toNat / 2^32) := by
    apply UInt32.toNat_inj.mp
    rw [UInt64.toNat_toUInt32, UInt64.toNat_shiftRight, UInt32.toNat_ofNat', Nat.shiftRight_eq_div_pow]
    rfl
  have hlt := (htonl (UInt32.ofNat (x.toNat / 2^32))).toNat_lt
  have hlt' := (htonl (UInt32.ofNat (x.toNat % 2^32))).toNat_lt
  rw [htonll, hlow, hhigh, UInt64.toNat_or, UInt64.toNat_shiftLeft, UInt32.toNat_toUInt64,
    UInt32.toNat_toUInt64, show (32 : UInt64).toNat % 64 = 32 from rfl, Nat.shiftLeft_eq,
    Nat.mod_eq_of_lt (by omega), Nat.mul_comm, ← Nat.two_pow_add_eq_or_of_lt hlt]

theorem htonll_htonll (x : UInt64) : htonll (htonll x) = x := by
  have hlt := x.toNat_lt
  have hhigh := (htonl (UInt32.ofNat (x.toNat / 2^32))).toNat_lt
  have hdiv : (htonll x).toNat / 2^32 = (htonl (UInt32.ofNat (x.toNat % 2^32))).toNat := by
    rw [htonll_toNat]
    omega
  have hmod : (htonll x).toNat % 2^32 = (htonl (UInt32.ofNat (x.toNat / 2^32))).toNat := by
    rw [htonll_toNat]
    omega
  apply UInt64.toNat_inj.mp
  rw [htonll_toNat, hdiv, hmod, UInt32.ofNat_toNat, UInt32.ofNat_toNat, htonl_htonl, htonl_htonl,
    UInt32.toNat_ofNat', UInt32.toNat_ofNat']
  omega

/-! The fields of a converted message. -/

namespace Field
variable {f g : Field} {m : Int → UInt8}

/-- Two fields that do not overlap. -/
def Apart (f g : Field) : Prop := f.off + f.size ≤ g.off ∨ g.off + g.size ≤ f.off

instance (f g : Field) : Decidable (f.Apart g) := inferInstanceAs (Decidable (_ ∨ _))

theorem value_set_same (f : Field) (m : Int → UInt8) (v : Nat) : f.value (f.set m v) = v % 256^f.size :=
  load_store_same m f.off f.size v

theorem value_set_apart (h : f.Apart g) (v : Nat) : f.value (g.set m v) = f.value m := by
  apply load_store_disjoint
  unfold Apart at h
  omega

theorem value_convert_apart (h : f.Apart g) : f.value (convert m g) = f.value m := value_set_apart h _

theorem value_foldl_apart {fs : List Field} (h : ∀ g ∈ fs, f.Apart g) (m : Int → UInt8) :
    f.value (fs.foldl convert m) = f.value m := by
  induction fs generalizing m with
  | nil => rfl
  | cons g fs ih =>
    rw [List.foldl_cons, ih fun k hk => h k (List.mem_cons_of_mem g hk),
      value_convert_apart (h g List.mem_cons_self)]

theorem apart_symm (h : f.Apart g) : g.Apart f := h.symm

theorem value_lt (f : Field) (m : Int → UInt8) : f.value m < 256^f.size := load_lt m f.off f.size

theorem value_congr {m' : Int → UInt8} (h : ∀ x : Int, f.off ≤ x → x < f.off + f.size → m x = m' x) :
    f.value m = f.value m' :=
  load_congr h

end Field

/-- What conversion makes of the value of a field. -/
def Kind.swap : Kind → Nat → Nat
  | .word, v => (htonl (UInt32.ofNat v)).toNat
  | .time, v => (htonl (UInt32.ofNat v)).toNat
  | .long, v => (htonll (UInt64.ofNat v)).toNat

/-- The values conversion does not cut: a timestamp is converted as a word. -/
def Kind.Fits : Kind → Nat → Prop
  | .word, v => v < 2^32
  | .time, v => v < 2^32
  | .long, v => v < 2^64

theorem Kind.swap_swap {k : Kind} {v : Nat} (h : k.Fits v) : k.swap (k.swap v) = v := by
  cases k with
  | word => rw [swap, swap, UInt32.ofNat_toNat, htonl_htonl, UInt32.toNat_ofNat_of_lt' h]
  | time => rw [swap, swap, UInt32.ofNat_toNat, htonl_htonl, UInt32.toNat_ofNat_of_lt' h]
  | long => rw [swap, swap, UInt64.ofNat_toNat, htonll_htonll, UInt64.toNat_ofNat_of_lt' h]

theorem value_convert (f : Field) (m : Int → UInt8) : f.value (f.convert m) = f.kind.swap (f.value m) := by
  obtain ⟨off, kind⟩ := f
  cases kind with
  | word =>
    rw [Field.convert, Field.value_set_same]
    exact Nat.mod_eq_of_lt (htonl _).toNat_lt
  | time =>
    rw [Field.convert, Field.value_set_same]
    exact Nat.mod_eq_of_lt (Nat.lt_trans (htonl _).toNat_lt (show 2^32 < 256^8 by decide))
  | long =>
    rw [Field.convert, Field.value_set_same]
    exact Nat.mod_eq_of_lt (htonll _).toNat_lt

theorem value_convert_type (m : Int → UInt8) :
    typeField.value (typeField.convert m) = (htonl (UInt32.ofNat (typeField.value m))).toNat :=
  value_convert typeField m

theorem long_fits {f : Field} (hf : f.kind = .long) (m : Int → UInt8) : f.kind.Fits (f.value m) := by
  have hsize : f.size = 8 := by rw [Field.size, hf]
  have hpow := Field.value_lt f m
  rw [hsize] at hpow
  rw [hf]
  exact hpow

theorem fieldsOf_apart (type : Option MessageType) : ∀ f ∈ fieldsOf type, typeField.Apart f := by
  cases type with
  | none => exact fun f hf => absurd hf List.not_mem_nil
  | some t => cases t <;> decide

/-- Among fields that do not overlap each is converted once. -/
theorem value_foldl {fs : List Field} (hapart : fs.Pairwise Field.Apart) {f : Field} (hf : f ∈ fs)
    (m : Int → UInt8) : f.value (fs.foldl Field.convert m) = f.kind.swap (f.value m) := by
  induction fs generalizing m with
  | nil => exact absurd hf List.not_mem_nil
  | cons g fs ih =>
    obtain ⟨hg, hfs⟩ := List.pairwise_cons.mp hapart
    rw [List.foldl_cons]
    obtain rfl | hmem := List.mem_cons.mp hf
    · rw [Field.value_foldl_apart hg, value_convert]
    · rw [ih hfs hmem, Field.value_convert_apart (Field.apart_symm (hg f hmem))]

theorem fields_apart (t : MessageType) : (typeField :: t.fields).Pairwise Field.Apart := by
  cases t <;> decide

/-- The fields of a message are inside its structure. -/
theorem fields_inside (t : MessageType) : ∀ f ∈ typeField :: t.fields, f.off + f.size ≤ t.size := by
  cases t <;> decide

/-- Conversion to host order leaves the type as it was after its own conversion. -/
theorem messageType_convertToHostOrder (m : Int → UInt8) :
    messageType (convertToHostOrder m) = messageType (typeField.convert m) := by
  rw [messageType, convertToHostOrder, Field.value_foldl_apart (fieldsOf_apart _), ← messageType]

/-- A message in host order is converted field by field, the type first. -/
theorem network_eq {msg : Int → UInt8} {t : MessageType} (ht : messageType msg = some t) :
    convertToNetworkOrder msg = (typeField :: t.fields).foldl Field.convert msg := by
  rw [convertToNetworkOrder, if_neg (by rw [ht]; exact Option.some_ne_none t), ht]
  rfl

/-- So is a message in network order. -/
theorem host_eq {buf : Int → UInt8} {t : MessageType} (ht : messageType (typeField.convert buf) = some t) :
    convertToHostOrder buf = (typeField :: t.fields).foldl Field.convert buf := by
  rw [convertToHostOrder, ht]
  rfl

/-- The fields of a message in network order. -/
theorem value_network {msg : Int → UInt8} {t : MessageType} (ht : messageType msg = some t) {f : Field}
    (hf : f ∈ typeField :: t.fields) :
    f.value (convertToNetworkOrder msg) = f.kind.swap (f.value msg) := by
  rw [network_eq ht, value_foldl (fields_apart t) hf]

section
variable {msg buf : Int → UInt8} {t : MessageType} (ht : messageType msg = some t)
  (hbuf : ∀ x : Int, 0 ≤ x → x < t.size → buf x = convertToNetworkOrder msg x)

include ht hbuf

/-- The fields of a message whose bytes were sent in network order. -/
theorem value_sent {f : Field} (hf : f ∈ typeField :: t.fields) :
    f.value buf = f.kind.swap (f.value msg) := by
  have hinside := fields_inside t f hf
  rw [← value_network ht hf]
  exact Field.value_congr fun x h1 h2 => hbuf x (by omega) (by omega)

/-- The type of such a message. -/
theorem messageType_received : messageType (typeField.convert buf) = some t := by
  have hlt : typeField.value msg < 2^32 := Field.value_lt typeField msg
  have hswap : typeField.value (typeField.convert buf) = typeField.value msg := by
    rw [value_convert, value_sent ht hbuf List.mem_cons_self]
    exact Kind.swap_swap hlt
  rw [messageType, hswap, ← messageType, ht]

/-- A field is converted to network order and back. -/
theorem value_received {f : Field} (hf : f ∈ typeField :: t.fields) (hfits : f.kind.Fits (f.value msg)) :
    f.value (convertToHostOrder buf) = f.value msg := by
  rw [host_eq (messageType_received ht hbuf), value_foldl (fields_apart t) hf, value_sent ht hbuf hf,
    Kind.swap_swap hfits]

end

end EndlessFault.DebugServer
