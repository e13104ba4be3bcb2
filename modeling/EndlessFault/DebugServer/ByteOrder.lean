import EndlessFault.DebugServer.Messages

/- Byte order of the messages. `convert_to_network_order` looks at the type before it
   swaps it and `convert_to_host_order` after, so both find the fields of the same
   structure; the two swap them by the same functions, which undo themselves
   (`Kind.swap_swap`) on everything but a timestamp of more than 32 bits.

   A conversion reads and writes the bytes of the structure only (`Inside`), and what
   it leaves in a word or a 64-bit word are its bytes with the most significant first
   (`swap_digit`). Main result: `conversion_round_trips`. -/
namespace EndlessFault.DebugServer
open Lib.Bytes Lib.Words

/-- The bytes of the field are those of `v`, most significant first. -/
def Field.BigEndian (f : Field) (m : Int → UInt8) (v : Nat) : Prop :=
  ∀ i : Nat, i < f.size → m (f.off + i) = UInt8.ofNat (v / 256^(f.size - 1 - i))

/-- The memories hold the same first `n` bytes. -/
def Agree (n : Nat) (m m' : Int → UInt8) : Prop := ∀ x : Int, 0 ≤ x → x < n → m x = m' x

/-- The conversion of `msg` stays inside its first `n` bytes: it leaves all others
alone, and what it makes of these depends on these alone. -/
structure Inside (n : Nat) (convert : (Int → UInt8) → Int → UInt8) (msg : Int → UInt8) : Prop where
  writes : ∀ x : Int, ¬ (0 ≤ x ∧ x < n) → convert msg x = msg x
  reads : ∀ msg', Agree n msg msg' → Agree n (convert msg) (convert msg')

/-- What is asked of the conversion of a message of type `t`. -/
structure RoundTrips (t : MessageType) (msg : Int → UInt8) : Prop where
  fields : ∀ f ∈ typeField :: t.fields,
    f.value (convertToHostOrder (convertToNetworkOrder msg)) = f.value msg
  network : Inside t.size convertToNetworkOrder msg
  host : Inside t.size convertToHostOrder (convertToNetworkOrder msg)
  wire : ∀ f ∈ typeField :: t.fields, f.kind ≠ .time →
    f.BigEndian (convertToNetworkOrder msg) (f.value msg)

/-! Bytes turned round. -/

theorem htonl_leNat {bs : List UInt8} (hlen : bs.length = 4) {w : UInt32} (hw : w.toNat = leNat bs) :
    (htonl w).toNat = leNat bs.reverse := by
  match bs, hlen with
  | [a, b, c, d], _ =>
    have hsum : w.toNat = a.toNat + b.toNat * 2^8 + c.toNat * 2^16 + d.toNat * 2^24 := by
      rw [hw]
      simp only [leNat, List.foldr_cons, List.foldr_nil]
      omega
    rw [htonl_toNat a.toNat_lt b.toNat_lt c.toNat_lt d.toNat_lt hsum]
    simp only [leNat, List.reverse_cons, List.reverse_nil, List.nil_append, List.cons_append,
      List.foldr_cons, List.foldr_nil]
    omega

/-- The macro turns round the two halves and the bytes of each. -/
theorem htonll_leNat {bs : List UInt8} (hlen : bs.length = 8) {x : UInt64} (hx : x.toNat = leNat bs) :
    (htonll x).toNat = leNat bs.reverse := by
  have hlow : (bs.take 4).length = 4 := by rw [List.length_take]; omega
  have hhigh : (bs.drop 4).length = 4 := by rw [List.length_drop]; omega
  have hlt := leNat_lt (bs.take 4)
  have hlt' := leNat_lt (bs.drop 4)
  rw [hlow] at hlt
  rw [hhigh] at hlt'
  have hsplit : x.toNat = leNat (bs.take 4) + 2^32 * leNat (bs.drop 4) := by
    have happend := leNat_append (bs.take 4) (bs.drop 4)
    rw [List.take_append_drop, hlow] at happend
    exact hx.trans happend
  have hmod : (UInt32.ofNat (x.toNat % 2^32)).toNat = leNat (bs.take 4) := by
    rw [UInt32.toNat_ofNat', hsplit]
    omega
  have hdiv : (UInt32.ofNat (x.toNat / 2^32)).toNat = leNat (bs.drop 4) := by
    rw [UInt32.toNat_ofNat', hsplit]
    omega
  have hreverse : bs.reverse = (bs.drop 4).reverse ++ (bs.take 4).reverse := by
    rw [← List.reverse_append, List.take_append_drop]
  have hpow : 256^4 = 2^32 := by decide
  rw [htonll_toNat, htonl_leNat hlow hmod, htonl_leNat hhigh hdiv, hreverse, leNat_append,
    List.length_reverse, hhigh, hpow, Nat.add_comm, Nat.mul_comm]

namespace Field

/-- The bytes of a field. -/
def bytes (f : Field) (m : Int → UInt8) : List UInt8 := (List.range f.size).map fun i : Nat => m (f.off + i)

theorem length_bytes (f : Field) (m : Int → UInt8) : (f.bytes m).length = f.size := by
  rw [bytes, List.length_map, List.length_range]

theorem getElem_bytes (f : Field) (m : Int → UInt8) {i : Nat} (hi : i < (f.bytes m).length) :
    (f.bytes m)[i] = m (f.off + i) := by
  simp only [bytes, List.getElem_map, List.getElem_range]

theorem value_eq_leNat (f : Field) (m : Int → UInt8) : f.value m = leNat (f.bytes m) := by
  rw [← load_eq_leNat (m := m) (a := f.off) fun i hi => (f.getElem_bytes m hi).symm, length_bytes]
  rfl

/-- A byte of a field is a digit of its value. -/
theorem byte_toNat (f : Field) (m : Int → UInt8) {i : Nat} (hi : i < f.size) :
    (m (f.off + i)).toNat = f.value m / 256^i % 256 := by
  have hlen : i < (f.bytes m).length := by rwa [length_bytes]
  rw [value_eq_leNat, leNat_digit hlen, getElem_bytes]

/-- Swapping turns round the bytes of a field that is no timestamp. -/
theorem swap_leNat {f : Field} (hf : f.kind ≠ .time) {bs : List UInt8} (hlen : bs.length = f.size) :
    f.kind.swap (leNat bs) = leNat bs.reverse := by
  obtain ⟨off, kind⟩ := f
  have hlt := leNat_lt bs
  rw [hlen] at hlt
  cases kind with
  | word => exact htonl_leNat hlen (UInt32.toNat_ofNat_of_lt' hlt)
  | time => exact absurd rfl hf
  | long => exact htonll_leNat hlen (UInt64.toNat_ofNat_of_lt' hlt)

/-- A field that holds the swapped value has the bytes of the value in network order. -/
theorem bigEndian_of_swap {f : Field} (hf : f.kind ≠ .time) {m m' : Int → UInt8}
    (h : f.value m' = f.kind.swap (f.value m)) : f.BigEndian m' (f.value m) := by
  intro i hi
  have hlen : (f.bytes m).length = f.size := f.length_bytes m
  have hin : i < (f.bytes m).reverse.length := by rwa [List.length_reverse, hlen]
  have hturned : f.size - 1 - i < f.size := by omega
  apply UInt8.toNat_inj.mp
  calc (m' (f.off + i)).toNat
      = leNat (f.bytes m).reverse / 256^i % 256 := by
        rw [byte_toNat f m' hi, h, value_eq_leNat, swap_leNat hf hlen]
    _ = (m (f.off + (f.size - 1 - i : Nat))).toNat := by
        rw [leNat_digit hin, List.getElem_reverse, getElem_bytes, hlen]
    _ = (UInt8.ofNat (f.value m / 256^(f.size - 1 - i))).toNat := by
        rw [byte_toNat f m hturned, UInt8.toNat_ofNat']

end Field

/-! What a conversion touches. -/

theorem Agree.value {n : Nat} {m m' : Int → UInt8} (h : Agree n m m') {f : Field} (hf : f.off + f.size ≤ n) :
    f.value m = f.value m' :=
  Field.value_congr fun x h1 h2 => h x (by omega) (by omega)

theorem Agree.convert {n : Nat} {m m' : Int → UInt8} (h : Agree n m m') {f : Field}
    (hf : f.off + f.size ≤ n) : Agree n (f.convert m) (f.convert m') := by
  intro x h1 h2
  have hsame := h.value hf
  unfold Field.convert Field.set store
  rw [hsame, h x h1 h2]

theorem Agree.foldl {n : Nat} {fs : List Field} (hfs : ∀ f ∈ fs, f.off + f.size ≤ n) {m m' : Int → UInt8}
    (h : Agree n m m') : Agree n (fs.foldl Field.convert m) (fs.foldl Field.convert m') := by
  induction fs generalizing m m' with
  | nil => exact h
  | cons f fs ih =>
    exact ih (fun g hg => hfs g (List.mem_cons_of_mem f hg)) (h.convert (hfs f List.mem_cons_self))

/-- Fields inside the structure are converted inside it. -/
theorem foldl_frame {n : Nat} {fs : List Field} (hfs : ∀ f ∈ fs, f.off + f.size ≤ n) (m : Int → UInt8)
    {x : Int} (hx : ¬ (0 ≤ x ∧ x < n)) : fs.foldl Field.convert m x = m x := by
  induction fs generalizing m with
  | nil => rfl
  | cons f fs ih =>
    have hf := hfs f List.mem_cons_self
    rw [List.foldl_cons, ih fun g hg => hfs g (List.mem_cons_of_mem f hg)]
    exact store_frame (by omega)

section
variable {msg : Int → UInt8} {t : MessageType} (ht : messageType msg = some t)

include ht

/-- A message of the same bytes has the same type. -/
theorem messageType_agree {msg' : Int → UInt8} (h : Agree t.size msg msg') : messageType msg' = some t := by
  rw [messageType, ← h.value (fields_inside t typeField List.mem_cons_self)]
  exact ht

theorem network_inside : Inside t.size convertToNetworkOrder msg where
  writes x hx := by
    rw [network_eq ht]
    exact foldl_frame (fields_inside t) msg hx
  reads msg' h := by
    rw [network_eq ht, network_eq (messageType_agree ht h)]
    exact h.foldl (fields_inside t)

end

theorem host_inside {buf : Int → UInt8} {t : MessageType}
    (ht : messageType (typeField.convert buf) = some t) : Inside t.size convertToHostOrder buf where
  writes x hx := by
    rw [host_eq ht]
    exact foldl_frame (fields_inside t) buf hx
  reads buf' h := by
    have htype := messageType_agree ht (h.convert (fields_inside t typeField List.mem_cons_self))
    rw [host_eq ht, host_eq htype]
    exact h.foldl (fields_inside t)

/-! Both conversions. -/

/-- Only the timestamp is a field that conversion may cut. -/
theorem fits_of_mem {msg : Int → UInt8} (htime : timestamp.value msg < 2^32) {t : MessageType} {f : Field}
    (hf : f ∈ typeField :: t.fields) : f.kind.Fits (f.value msg) := by
  have hcases : ∀ g ∈ typeField :: t.fields, g = typeField ∨ g = timestamp ∨ g.kind = .long := by
    cases t <;> decide
  rcases hcases f hf with rfl | rfl | hlong
  · exact Field.value_lt typeField msg
  · exact htime
  · exact long_fits hlong msg

/-- A message of any of the six types with a timestamp of 32 bits: conversion to network
order and back gives every field back, both conversions stay inside the structure, and
the type and the 64-bit words are sent with the most significant byte first. -/
theorem conversion_round_trips (t : MessageType) (msg : Int → UInt8) (ht : messageType msg = some t)
    (htime : timestamp.value msg < 2^32) : RoundTrips t msg := by
  have hsame : ∀ x : Int, 0 ≤ x → x < t.size → convertToNetworkOrder msg x = convertToNetworkOrder msg x :=
    fun _ _ _ => rfl
  refine ⟨?_, network_inside ht, host_inside (messageType_received ht hsame), ?_⟩
  · intro f hf
    exact value_received ht hsame hf (fits_of_mem htime hf)
  · intro f hf hkind
    exact Field.bigEndian_of_swap hkind (value_network ht hf)

/-- An information message about 16 megabytes. -/
theorem conversion_round_trips_info :
    let msg := initInfoMsg 0x1000000 0x60000000 fun _ => 0
    messageType msg = some .sendInfo ∧ timestamp.value msg < 2^32 ∧ RoundTrips .sendInfo msg := by
  intro msg
  have ht : messageType msg = some .sendInfo := by decide
  have htime : timestamp.value msg < 2^32 := by decide
  exact ⟨ht, htime, conversion_round_trips .sendInfo msg ht htime⟩

end EndlessFault.DebugServer
