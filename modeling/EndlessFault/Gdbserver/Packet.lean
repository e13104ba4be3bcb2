import EndlessFault.Lib.Bytes

/- The packet layer of the gdb stub (`gdbserver/gdbserver.cpp`): the hex
   conversions, `getpacket` with its resynchronisation, retry and cut-off, and
   `putpacket`.

   Conventions of the embedding:
   - a `char` is its byte: the code compares it with ASCII characters and adds
     it modulo 256 only;
   - the connection is the list of bytes the client has sent and the stub has
     not read; a call of `getDebugChar` on an empty list is still waiting;
   - `getpacket` stops at four places for a character. `Waiting` says at which,
     with the live locals there, and `scan` goes on from it.

   Main result: `packets_round_trip`, what `putpacket` frames is what successive
   calls of `getpacket` return, over a whole connection. -/
namespace EndlessFault.Gdbserver
open Lib.Bytes

def bufMax : Nat := 400

/-- `remcomInBuffer`. -/
abbrev PacketBuffer := Vector UInt8 400

/-- The character `c` as a byte. -/
def ascii (c : Char) : UInt8 := c.toUInt8

def hexchars : List UInt8 := List.map ascii
  ['0', '1', '2', '3', '4', '5', '6', '7', '8', '9', 'a', 'b', 'c', 'd', 'e', 'f']

/-- The value of a hex digit, -1 for any other character. -/
def hex (ch : UInt8) : Int :=
  if ascii 'a' ≤ ch ∧ ch ≤ ascii 'f' then ch.toNat - (ascii 'a').toNat + 10
  else if ascii '0' ≤ ch ∧ ch ≤ ascii '9' then ch.toNat - (ascii '0').toNat
  else if ascii 'A' ≤ ch ∧ ch ≤ ascii 'F' then ch.toNat - (ascii 'A').toNat + 10
  else -1

/-- The two characters `hexchars[ch >> 4]`, `hexchars[ch % 16]`. -/
def hexPair (ch : UInt8) : List UInt8 :=
  [hexchars.getD (ch.toNat / 16) 0, hexchars.getD (ch.toNat % 16) 0]

/-- The NUL-terminated string at offset `ptr` of a buffer. -/
def cString (buffer : PacketBuffer) (ptr : Nat) : List UInt8 :=
  (buffer.toList.drop ptr).takeWhile (· != 0)

/-! Receiving. -/

/-- The calls of `getDebugChar` in `getpacket`: the search for the start
character, the loop over the body, and the two checksum characters. -/
inductive Waiting where
  | start
  | body (count : Nat) (checksum : UInt8)
  | sum1 (checksum : UInt8)
  | sum2 (checksum xmitcsum : UInt8)

/-- What a call of `getpacket` does on some input: the characters it answers,
the buffer, the offset it returns (none while it waits for more) and the input
it has not read. -/
structure Received where
  out : List UInt8
  buffer : PacketBuffer
  ptr : Option Nat
  rest : List UInt8

def Received.after (r : Received) (answered : List UInt8) : Received :=
  { r with out := answered ++ r.out }

def scan (buffer : PacketBuffer) (w : Waiting) : List UInt8 → Received
  | [] => ⟨[], buffer, none, []⟩
  | ch :: input =>
    match w with
    | .start =>
      if ch = ascii '$' then scan buffer (.body 0 0) input else scan buffer .start input
    | .body count checksum =>
      if ch = ascii '$' then scan buffer (.body 0 0) input
      else if ch = ascii '#' then scan (buffer.setIfInBounds count 0) (.sum1 checksum) input
      else
        let buffer := buffer.setIfInBounds count ch
        if count + 1 < bufMax - 1 then scan buffer (.body (count + 1) (checksum + ch)) input
        -- the body is cut off: no `#` was read, so the search starts again
        else scan (buffer.setIfInBounds (count + 1) 0) .start input
    | .sum1 checksum => scan buffer (.sum2 checksum (UInt8.ofInt (hex ch * 16))) input
    | .sum2 checksum xmitcsum =>
      if checksum ≠ xmitcsum + UInt8.ofInt (hex ch) then
        (scan buffer .start input).after [ascii '-']
      else if buffer[2]?.getD 0 = ascii ':' then
        ⟨[ascii '+', buffer[0]?.getD 0, buffer[1]?.getD 0], buffer, some 3, input⟩
      else ⟨[ascii '+'], buffer, some 0, input⟩

def getpacket (buffer : PacketBuffer) (input : List UInt8) : Received := scan buffer .start input

/-- `calls` successive calls of `getpacket`: the strings returned and the
characters answered. -/
def receive : Nat → PacketBuffer → List UInt8 → List (List UInt8) × List UInt8
  | 0, _, _ => ([], [])
  | calls + 1, buffer, input =>
    let r := getpacket buffer input
    match r.ptr with
    | none => ([], r.out)
    | some ptr =>
      let later := receive calls r.buffer r.rest
      (cString r.buffer ptr :: later.1, r.out ++ later.2)

/-! Sending. -/

/-- The frame `putpacket` sends for a string. -/
def frame (payload : List UInt8) : List UInt8 :=
  ascii '$' :: payload ++ ascii '#' :: hexPair (payload.foldl (· + ·) 0)

/-- The frame is sent again until `+` is read. Returns what is sent and, once
acknowledged, the input not read. -/
def putpacket (payload : List UInt8) : List UInt8 → List UInt8 × Option (List UInt8)
  | [] => (frame payload, none)
  | ch :: input =>
    if ch = ascii '+' then (frame payload, some input)
    else
      let again := putpacket payload input
      (frame payload ++ again.1, again.2)

/-! Hex digits. -/

theorem hex_hexchars {n : Nat} (hn : n < 16) : hex (hexchars.getD n 0) = n := by
  revert n
  decide

theorem ofInt_toNat (c : UInt8) : UInt8.ofInt c.toNat = c := by
  have hc := c.toNat_lt
  apply UInt8.toNat_inj.mp
  rw [UInt8.ofInt, UInt8.toNat_ofNat']
  omega

/-- The two checksum characters add up to the byte they were made from. -/
theorem checksum_hexchars (c : UInt8) :
    UInt8.ofInt (hex (hexchars.getD (c.toNat / 16) 0) * 16) +
      UInt8.ofInt (hex (hexchars.getD (c.toNat % 16) 0)) = c := by
  have hc := c.toNat_lt
  have hsplit : ((c.toNat / 16 : Nat) : Int) * 16 + (c.toNat % 16 : Nat) = (c.toNat : Int) := by
    omega
  rw [hex_hexchars (show c.toNat / 16 < 16 by omega), hex_hexchars (show c.toNat % 16 < 16 by omega),
    ← UInt8.ofInt_add, hsplit, ofInt_toNat]

/-! One frame. -/

/-- Before a start character nothing is read into the buffer or answered. -/
theorem scan_gap (buffer : PacketBuffer) {gap : List UInt8} (hgap : ascii '$' ∉ gap)
    (input : List UInt8) : scan buffer .start (gap ++ input) = scan buffer .start input := by
  induction gap with
  | nil => rfl
  | cons ch gap ih =>
    rw [List.mem_cons, not_or] at hgap
    rw [List.cons_append, scan, if_neg (fun h => hgap.1 h.symm), ih hgap.2]

/-- The body of a frame is stored in order, up to 398 characters. -/
theorem scan_body {payload : List UInt8} (hplain : ∀ ch ∈ payload, ch ≠ ascii '$' ∧ ch ≠ ascii '#')
    (buffer : PacketBuffer) (count : Nat) (checksum : UInt8)
    (hfit : count + payload.length ≤ 398) (input : List UInt8) :
    ∃ stored : PacketBuffer, stored.toList = overwrite buffer.toList count payload ∧
      scan buffer (.body count checksum) (payload ++ input) =
        scan stored (.body (count + payload.length) (payload.foldl (· + ·) checksum)) input := by
  induction payload generalizing buffer count checksum with
  | nil => exact ⟨buffer, by simp [overwrite], rfl⟩
  | cons ch payload ih =>
    rw [List.length_cons] at hfit
    obtain ⟨hdollar, hhash⟩ := hplain ch List.mem_cons_self
    obtain ⟨stored, hstored, hscan⟩ := ih (fun c hc => hplain c (List.mem_cons_of_mem ch hc))
      (buffer.setIfInBounds count ch) (count + 1) (checksum + ch) (by omega)
    refine ⟨stored, ?_, ?_⟩
    · rw [hstored, toList_setIfInBounds buffer ch (show count < 400 by omega)]
      exact overwrite_append [ch] payload (by simp; omega)
    · rw [List.cons_append, scan, if_neg hdollar, if_neg hhash]
      have hroom : count + 1 < bufMax - 1 := show count + 1 < 399 by omega
      dsimp only
      rw [if_pos hroom, hscan, List.length_cons, List.foldl_cons,
        Nat.add_right_comm, Nat.add_assoc]

/-- What may be sent as a packet: it fits the buffer, has no framing character
and no NUL, and does not look like a sequence number. -/
structure Plain (payload : List UInt8) : Prop where
  fits : payload.length ≤ 398
  chars : ∀ ch ∈ payload, ch ≠ ascii '$' ∧ ch ≠ ascii '#' ∧ ch ≠ 0
  third : payload[2]? ≠ some (ascii ':')

/-- No sequence number seems to be present. -/
def NoSequence (buffer : PacketBuffer) : Prop := buffer[2]?.getD 0 ≠ ascii ':'

/-- A stored payload is the string the buffer then holds. -/
theorem cString_stored {buffer stored : PacketBuffer} {payload : List UInt8} (h : Plain payload)
    (hstored : stored.toList = overwrite buffer.toList 0 (payload ++ [0])) :
    cString stored 0 = payload := by
  have hne : ∀ ch ∈ payload, (ch != 0) = true := fun ch hch => by simpa using (h.chars ch hch).2.2
  rw [cString, hstored, List.drop_zero, overwrite, List.take_zero, List.nil_append,
    List.append_assoc, List.takeWhile_append_of_pos hne]
  simp

/-- Whatever the third cell held, it does not become a colon: a payload of at
least two characters sets it, a shorter one leaves it. -/
theorem noSequence_stored {buffer stored : PacketBuffer} {payload : List UInt8} (h : Plain payload)
    (hbuffer : NoSequence buffer)
    (hstored : stored.toList = overwrite buffer.toList 0 (payload ++ [0])) :
    NoSequence stored := by
  have hfit := h.fits
  have hcell := congrArg (fun l : List UInt8 => l[2]?) hstored
  simp only [getElem?_overwrite (show 0 + (payload ++ [0]).length ≤ buffer.toList.length by
    simp; omega), Vector.getElem?_toList, List.length_append, List.length_singleton] at hcell
  rw [NoSequence, hcell]
  by_cases hlong : 2 < payload.length + 1
  · rw [if_pos (by omega)]
    -- the third cell is the NUL, or the payload's own third character
    by_cases htwo : payload.length = 2
    · rw [List.getElem?_append_right (by omega), htwo]
      decide
    · rw [List.getElem?_append_left (by omega)]
      intro hcolon
      apply h.third
      rw [List.getElem?_eq_getElem (by omega)] at hcolon ⊢
      exact congrArg some hcolon
  · rw [if_neg (by omega)]
    exact hbuffer

/-- Any frame with the right checksum is read into the buffer, behind any
characters but `$`. What is answered and where the string starts is then decided
by the third cell. -/
theorem getpacket_stored (buffer : PacketBuffer) {gap payload : List UInt8} (hgap : ascii '$' ∉ gap)
    (hfit : payload.length ≤ 398) (hchars : ∀ ch ∈ payload, ch ≠ ascii '$' ∧ ch ≠ ascii '#')
    {d₁ d₂ : UInt8}
    (hsum : payload.foldl (· + ·) 0 = UInt8.ofInt (hex d₁ * 16) + UInt8.ofInt (hex d₂))
    (input : List UInt8) :
    ∃ stored : PacketBuffer, stored.toList = overwrite buffer.toList 0 (payload ++ [0]) ∧
      getpacket buffer (gap ++ ascii '$' :: payload ++ ascii '#' :: d₁ :: d₂ :: input) =
        if stored[2]?.getD 0 = ascii ':' then
          ⟨[ascii '+', stored[0]?.getD 0, stored[1]?.getD 0], stored, some 3, input⟩
        else ⟨[ascii '+'], stored, some 0, input⟩ := by
  obtain ⟨body, hbody, hscan⟩ := scan_body hchars buffer 0 0 (by omega)
    (ascii '#' :: d₁ :: d₂ :: input)
  rw [Nat.zero_add] at hscan
  refine ⟨body.setIfInBounds payload.length 0, ?_, ?_⟩
  · -- the `#` closes the string behind the payload
    rw [toList_setIfInBounds body 0 (show payload.length < 400 by omega), hbody,
      ← overwrite_append payload [0] (by simp; omega), Nat.zero_add]
  · rw [getpacket, List.append_assoc, scan_gap buffer hgap, List.cons_append, scan, if_pos rfl, hscan,
      scan, if_neg (by decide), if_pos rfl, scan, scan, if_neg (fun hbad => hbad hsum)]

/-- A frame after any characters but `$` is received and acknowledged. -/
theorem getpacket_frame {buffer : PacketBuffer} (hbuffer : NoSequence buffer)
    {gap payload : List UInt8} (hgap : ascii '$' ∉ gap) (h : Plain payload) (input : List UInt8) :
    ∃ stored : PacketBuffer, NoSequence stored ∧ cString stored 0 = payload ∧
      getpacket buffer (gap ++ frame payload ++ input) = ⟨[ascii '+'], stored, some 0, input⟩ := by
  obtain ⟨stored, hstored, hget⟩ := getpacket_stored buffer hgap h.fits
    (fun ch hch => ⟨(h.chars ch hch).1, (h.chars ch hch).2.1⟩) (checksum_hexchars _).symm input
  have hseq := noSequence_stored h hbuffer hstored
  refine ⟨stored, hseq, cString_stored h hstored, ?_⟩
  rw [if_neg hseq] at hget
  rw [← hget, frame, hexPair]
  simp only [List.cons_append, List.append_assoc, List.nil_append]

/-! A whole connection. -/

/-- Frames, each after other characters. -/
def stream (frames : List (List UInt8 × List UInt8)) : List UInt8 :=
  frames.flatMap fun f => f.1 ++ frame f.2

/-- Whatever characters but `$` come between and after the frames, any number
of calls of `getpacket` from the zeroed buffer return the payloads, in order and
only them, and answer one `+` for each. -/
theorem packets_round_trip (frames : List (List UInt8 × List UInt8)) (tail : List UInt8)
    (hgaps : ∀ f ∈ frames, ascii '$' ∉ f.1) (hplain : ∀ f ∈ frames, Plain f.2)
    (htail : ascii '$' ∉ tail) (more : Nat) :
    receive (frames.length + more) (Vector.replicate 400 0) (stream frames ++ tail) =
      (frames.map Prod.snd, List.replicate frames.length (ascii '+')) := by
  -- any buffer without a colon in its third cell will do, and is left by each packet
  have hmain : ∀ buffer : PacketBuffer, NoSequence buffer →
      receive (frames.length + more) buffer (stream frames ++ tail) =
        (frames.map Prod.snd, List.replicate frames.length (ascii '+')) := by
    induction frames with
    | nil =>
      intro buffer _
      cases more with
      | zero => rfl
      | succ more =>
        have hwait : getpacket buffer tail = ⟨[], buffer, none, []⟩ := by
          rw [getpacket, ← List.append_nil tail, scan_gap buffer htail, scan]
        simp only [List.length_nil, stream, List.flatMap_nil, List.nil_append, receive,
          hwait, List.map_nil, List.replicate_zero]
    | cons f frames ih =>
      intro buffer hbuffer
      obtain ⟨stored, hseq, hstring, hget⟩ := getpacket_frame hbuffer
        (hgaps f List.mem_cons_self) (hplain f List.mem_cons_self) (stream frames ++ tail)
      have hsplit : stream (f :: frames) ++ tail = f.1 ++ frame f.2 ++ (stream frames ++ tail) := by
        simp only [stream, List.flatMap_cons, List.append_assoc]
      have hlater := ih (fun g hg => hgaps g (List.mem_cons_of_mem f hg))
        (fun g hg => hplain g (List.mem_cons_of_mem f hg)) stored hseq
      rw [List.length_cons, Nat.add_right_comm, receive, hsplit, hget]
      simp only [hlater, hstring, List.map_cons, List.replicate_succ, List.singleton_append]
  apply hmain
  rw [NoSequence, Vector.getElem?_replicate]
  decide

/-- A one-character payload after a stray acknowledgement, then an empty one
that leaves the cells after it stale. -/
theorem packets_round_trip_two :
    receive 3 (Vector.replicate 400 0) (stream [([ascii '+'], [ascii 'g']), ([], [])] ++ []) =
      ([[ascii 'g'], []], [ascii '+', ascii '+']) :=
  packets_round_trip [([ascii '+'], [ascii 'g']), ([], [])] [] (by decide)
    (by
      intro f hf
      rcases List.mem_pair.mp hf with rfl | rfl
      · refine ⟨by decide, fun ch hch => ?_, by decide⟩
        rw [List.mem_singleton.mp hch]
        decide
      · exact ⟨by decide, fun ch hch => absurd hch List.not_mem_nil, by decide⟩)
    (by decide) 1

end EndlessFault.Gdbserver
