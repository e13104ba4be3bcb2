import EndlessFault.DebugServer.Messages
import EndlessFault.GuestMemory

/- Frames over a TCP socket (`debug-server/net_wrapper.cpp`): a length of four bytes,
   most significant first, and the bytes.

   Conventions of the embedding:
   - `recv` is a parameter: from a state of the world and a number of bytes asked for
     it gives the bytes received, or none when the call fails, and the next state;
   - `ssize_t` results go to `uint32_t` variables, so a failed call counts as
     `0xFFFFFFFF`, which is also the -1 that `recv_data` returns;
   - an address is named by its distance from `my_buff->buf`, and `heap` is what the
     memory there holds after an allocation, which succeeds. -/
namespace EndlessFault.DebugServer
open Lib.Bytes

/-- `my_buffer`; no memory for a null pointer. -/
structure MyBuffer where
  buf : Option Memory
  size : UInt32

def MyBuffer.empty : MyBuffer where
  buf := none
  size := 0

/-- What a call of `recv` for a number of bytes does. -/
abbrev Recv (σ : Type) := σ → Nat → Option (List UInt8) × σ

/-- The result of a call of `recv` as a `uint32_t`. -/
def received : Option (List UInt8) → UInt32
  | none => 0xFFFFFFFF
  | some bytes => UInt32.ofNat bytes.length

def clearMyBuffer (b : MyBuffer) : MyBuffer :=
  if b.size > 0 then
    { b with buf := b.buf.map fun m x => if 0 ≤ x ∧ x < b.size.toNat then 0 else m x }
  else b

/-- What `recv_data` leaves. `frame` are the bytes received, when both the length and
all the bytes have arrived; no step reads it. -/
structure Received (σ : Type) where
  ret : UInt32
  frame : Option (List UInt8)
  buffer : MyBuffer
  sock : σ

/-- The length in the first four bytes received; the variable starts at 0, which a
failed call leaves. -/
def nbytesOf : Option (List UInt8) → UInt32
  | none => 0
  | some bytes => ntohl (UInt32.ofNat (leNat (bytes.take 4)))

/-- Room for a frame of `nbytes` bytes, cleared. -/
def reserve (heap : Memory) (myBuff : MyBuffer) (nbytes : UInt32) : MyBuffer :=
  clearMyBuffer (if nbytes > myBuff.size then { buf := some heap, size := nbytes } else myBuff)

/-- The buffer after `recv` has stored its bytes. -/
def MyBuffer.fill (b : MyBuffer) : Option (List UInt8) → MyBuffer
  | none => b
  | some bytes => { b with buf := b.buf.map fun m => m.store 0 bytes }

variable {σ : Type} (recv : Recv σ) (heap : Memory)

def recvData (sockt : σ) (myBuff : MyBuffer) : Received σ :=
  let first := recv sockt 4
  if received first.1 < 4 then ⟨0xFFFFFFFF, none, myBuff, first.2⟩
  else
    let nbytes := nbytesOf first.1
    let myBuff := reserve heap myBuff nbytes
    let second := recv first.2 nbytes.toNat
    let myBuff := myBuff.fill second.1
    let frame :=
      if first.1 ≠ none ∧ second.1.map List.length = some nbytes.toNat then second.1 else none
    ⟨if received second.1 ≠ nbytes then 0xFFFFFFFF else received second.1, frame, myBuff, second.2⟩

/-- The message a caller takes from `recv_data`: the bytes it says it received, or
none when it returned -1. -/
def Received.message (r : Received σ) : Option (List UInt8) :=
  if r.ret = 0xFFFFFFFF then none
  else some ((List.range r.ret.toNat).map fun i => (r.buffer.buf.map fun m => m i).getD 0)

/-- The four bytes that hold `htonl(n)`. -/
def lengthBytes (n : UInt32) : List UInt8 :=
  (List.range 4).map fun i => UInt8.ofNat ((htonl n).toNat / 256^i)

/-- The bytes `send_data` puts on the wire when the two calls of `send` take `sent`
and `sent'` bytes, and what it returns. -/
def sendData (buf : List UInt8) (sent sent' : Option Nat) : List UInt8 × UInt32 :=
  let nbytes := lengthBytes (UInt32.ofNat buf.length)
  let bsend : UInt32 := (sent.map UInt32.ofNat).getD 0xFFFFFFFF
  if bsend < 4 then (nbytes.take (sent.getD 0), 0xFFFFFFFF)
  else (nbytes.take (sent.getD 0) ++ buf.take (sent'.getD 0), (sent'.map UInt32.ofNat).getD 0xFFFFFFFF)

/-! Lengths. -/

theorem length_lengthBytes (n : UInt32) : (lengthBytes n).length = 4 := by
  rw [lengthBytes, List.length_map, List.length_range]

theorem leNat_lengthBytes (n : UInt32) : leNat (lengthBytes n) = (htonl n).toNat := by
  rw [lengthBytes, leNat_digits]
  exact Nat.mod_eq_of_lt (htonl n).toNat_lt

/-- The length sent is the length read. -/
theorem nbytesOf_lengthBytes (n : UInt32) : nbytesOf (some (lengthBytes n)) = n := by
  rw [nbytesOf, List.take_of_length_le (Nat.le_of_eq (length_lengthBytes n)), leNat_lengthBytes,
    UInt32.ofNat_toNat]
  exact htonl_htonl n

/-! The buffer. -/

/-- A null pointer has no room. -/
def MyBuffer.Valid (b : MyBuffer) : Prop := b.buf = none → b.size = 0

theorem valid_empty : MyBuffer.empty.Valid := fun _ => rfl

/-- After `reserve` there is room, at an address unless none is needed. -/
theorem reserve_spec {b : MyBuffer} (hb : b.Valid) (nbytes : UInt32) :
    (reserve heap b nbytes).Valid ∧ nbytes ≤ (reserve heap b nbytes).size ∧
    (nbytes ≠ 0 → ∃ m, (reserve heap b nbytes).buf = some m) := by
  have hclear : ∀ c : MyBuffer, (clearMyBuffer c).size = c.size ∧
      ((clearMyBuffer c).buf = none ↔ c.buf = none) := by
    intro c
    unfold clearMyBuffer
    split_ifs
    · exact ⟨rfl, Option.map_eq_none_iff⟩
    · exact ⟨rfl, Iff.rfl⟩
  unfold reserve
  obtain ⟨hsize, hbuf⟩ := hclear (if nbytes > b.size then { buf := some heap, size := nbytes } else b)
  by_cases hlarge : nbytes > b.size
  · rw [if_pos hlarge] at hsize hbuf ⊢
    refine ⟨fun hnone => absurd (hbuf.mp hnone) (Option.some_ne_none heap), ?_, fun _ => ?_⟩
    · rw [hsize]
      exact UInt32.le_refl _
    · exact Option.ne_none_iff_exists'.mp fun hnone => Option.some_ne_none heap (hbuf.mp hnone)
  · rw [if_neg hlarge] at hsize hbuf ⊢
    refine ⟨fun hnone => hsize.trans (hb (hbuf.mp hnone)), ?_, fun hne => ?_⟩
    · rw [hsize]
      exact UInt32.not_lt.mp hlarge
    · refine Option.ne_none_iff_exists'.mp fun hnone => hne ?_
      have hzero := hb (hbuf.mp hnone)
      rw [hzero] at hlarge
      exact UInt32.le_zero_iff.mp (UInt32.not_lt.mp hlarge)

theorem valid_fill {b : MyBuffer} (hb : b.Valid) (r : Option (List UInt8)) : (b.fill r).Valid := by
  cases r with
  | none => exact hb
  | some bytes => exact fun hnone => hb (Option.map_eq_none_iff.mp hnone)

/-! Results of `recv` that are cut short. -/

theorem received_some {bytes : List UInt8} (h : bytes.length < 2^32) :
    (received (some bytes)).toNat = bytes.length :=
  UInt32.toNat_ofNat_of_lt' h

theorem received_four {len : List UInt8} (h : len.length = 4) : ¬ received (some len) < 4 := by
  rw [received, h]
  decide

theorem recvData_length_short {b : MyBuffer} {sockt sockt' : σ} {len : List UInt8}
    (hfirst : recv sockt 4 = (some len, sockt')) (hshort : len.length < 4) :
    (recvData recv heap sockt b).ret = 0xFFFFFFFF ∧ (recvData recv heap sockt b).frame = none := by
  have hlt : received (some len) < 4 := by
    rw [UInt32.lt_iff_toNat_lt, received_some (by omega)]
    exact hshort
  rw [recvData, hfirst, if_pos hlt]
  exact ⟨rfl, rfl⟩

theorem recvData_body_short {b : MyBuffer} {sockt sockt' sockt'' : σ} {len : Option (List UInt8)}
    {bytes : List UInt8} (hfirst : recv sockt 4 = (len, sockt')) (hlong : ¬ received len < 4)
    (hsecond : recv sockt' (nbytesOf len).toNat = (some bytes, sockt''))
    (hshort : bytes.length < (nbytesOf len).toNat) :
    (recvData recv heap sockt b).ret = 0xFFFFFFFF ∧ (recvData recv heap sockt b).frame = none := by
  have hlt : bytes.length < 2^32 := Nat.lt_trans hshort (UInt32.toNat_lt _)
  have hne : received (some bytes) ≠ nbytesOf len := by
    intro heq
    rw [← heq, received_some hlt] at hshort
    exact Nat.lt_irrefl _ hshort
  rw [recvData, hfirst, if_neg hlong]
  dsimp only
  rw [hsecond, if_pos hne, Option.map_some, if_neg fun h => Nat.ne_of_lt hshort (Option.some.inj h.2)]
  exact ⟨rfl, rfl⟩

/-! Frames that arrive whole. -/

/-- What `recv_data` leaves when the length and the bytes arrive whole. -/
structure Delivers (r : Received σ) (frame : List UInt8) (sockt : σ) : Prop where
  ret : r.ret = UInt32.ofNat frame.length
  whole : r.frame = some frame
  sock : r.sock = sockt
  valid : r.buffer.Valid
  buf : frame ≠ [] → ∃ buf, r.buffer.buf = some buf ∧ ∀ i (h : i < frame.length), buf i = frame[i]

theorem recvData_delivers {b : MyBuffer} (hb : b.Valid) {sockt sockt' sockt'' : σ}
    {len frame : List UInt8} (hlen : len.length = 4)
    (hfirst : recv sockt 4 = (some len, sockt'))
    (hsecond : recv sockt' (nbytesOf (some len)).toNat = (some frame, sockt''))
    (hframe : frame.length = (nbytesOf (some len)).toNat) :
    Delivers (recvData recv heap sockt b) frame sockt'' := by
  have hn : UInt32.ofNat frame.length = nbytesOf (some len) := by rw [hframe, UInt32.ofNat_toNat]
  have hdata : recvData recv heap sockt b = ⟨UInt32.ofNat frame.length, some frame,
      (reserve heap b (nbytesOf (some len))).fill (some frame), sockt''⟩ := by
    have hcount : received (some frame) = nbytesOf (some len) := hn
    rw [recvData, hfirst, if_neg (received_four hlen)]
    dsimp only
    rw [hsecond]
    dsimp only
    rw [if_neg (not_not.mpr hcount), if_pos ⟨Option.some_ne_none len, by rw [Option.map_some, hframe]⟩]
    rfl
  obtain ⟨hvalid, -, hsome⟩ := reserve_spec heap hb (nbytesOf (some len))
  rw [hdata]
  refine ⟨rfl, rfl, rfl, valid_fill hvalid _, fun hne => ?_⟩
  obtain ⟨m, hm⟩ := hsome fun hzero => by
    rw [hzero] at hframe
    exact hne (List.length_eq_zero_iff.mp hframe)
  refine ⟨m.store 0 frame, ?_, fun i hi => Memory.store_zero m hi⟩
  rw [MyBuffer.fill, hm, Option.map_some]

/-- The message that a whole frame gives: its bytes, unless their number reads as -1. -/
theorem Delivers.message {r : Received σ} {frame : List UInt8} {sockt : σ} (h : Delivers r frame sockt)
    (hlt : frame.length < 2^32) :
    r.message = if frame.length = 2^32 - 1 then none else some frame := by
  have hn : (UInt32.ofNat frame.length).toNat = frame.length := UInt32.toNat_ofNat_of_lt' hlt
  have hlast : UInt32.ofNat frame.length = 0xFFFFFFFF ↔ frame.length = 2^32 - 1 := by
    rw [← UInt32.toNat_inj, hn]
    exact Iff.rfl
  rw [Received.message, h.ret]
  by_cases hmax : frame.length = 2^32 - 1
  · rw [if_pos (hlast.mpr hmax), if_pos hmax]
  · rw [if_neg fun hc => hmax (hlast.mp hc), if_neg hmax, hn]
    congr 1
    -- the buffer holds the bytes, and is there when there are any
    apply List.ext_getElem
    · rw [List.length_map, List.length_range]
    · intro i hi hi'
      obtain ⟨buf, hbuf, hbytes⟩ := h.buf (List.ne_nil_of_length_pos (by omega))
      rw [List.getElem_map, List.getElem_range, hbuf, Option.map_some, Option.getD_some, hbytes i hi']

end EndlessFault.DebugServer
