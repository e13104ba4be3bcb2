import Mathlib.Tactic.SplitIfs
import EndlessFault.Gdbserver.Packet

/- What a packet leaves behind for the next one. The buffer of `getpacket` is
   static and a packet overwrites only its own length and one NUL, so the test for a
   sequence number, which looks at the third cell, reads a cell of an earlier packet
   when the packet has fewer than two characters.

   `Reachable` are the buffers a history of calls can leave. From two characters on
   the third cell is the packet's own (`third_cell`), so the outcome is the packet's
   alone; a shorter one is received after `ab:` as if it carried a sequence number
   (`received_after_colon`). Main result: `independent_iff`. -/
namespace EndlessFault.Gdbserver
open Lib.Bytes

/-- The buffers any history of calls of `getpacket` can leave. -/
inductive Reachable : PacketBuffer → Prop where
  | start : Reachable (Vector.replicate 400 0)
  | call {buffer : PacketBuffer} (h : Reachable buffer) (input : List UInt8) :
    Reachable (getpacket buffer input).buffer

/-- One packet with its framing: two hex digits of either case spell the sum. -/
structure Framed (payload input : List UInt8) : Prop where
  fits : payload.length ≤ 398
  chars : ∀ ch ∈ payload, ch ≠ ascii '$' ∧ ch ≠ ascii '#'
  closed : ∃ d₁ d₂, input = ascii '$' :: payload ++ [ascii '#', d₁, d₂] ∧ 0 ≤ hex d₁ ∧ 0 ≤ hex d₂ ∧
    payload.foldl (· + ·) 0 = UInt8.ofInt (hex d₁ * 16) + UInt8.ofInt (hex d₂)

/-- The string a call returns and the characters it answers. -/
def outcome (buffer : PacketBuffer) (input : List UInt8) : Option (List UInt8) × List UInt8 :=
  let r := getpacket buffer input
  (r.ptr.map (cString r.buffer), r.out)

/-- The packet in `input` is received alike whatever came before, and returned
as it is when it has fewer than three characters. -/
def Independent (payload input : List UInt8) : Prop :=
  (∀ buffer buffer', Reachable buffer → Reachable buffer' → outcome buffer input = outcome buffer' input) ∧
  (payload.length < 3 → ∀ buffer, Reachable buffer →
    outcome buffer input = (some (payload.takeWhile (· != 0)), [ascii '+']))

section
variable {payload input : List UInt8}

/-- The buffer after the packet, and what the call does with it. -/
theorem Framed.received (h : Framed payload input) (buffer : PacketBuffer) :
    ∃ stored : PacketBuffer, stored.toList = overwrite buffer.toList 0 (payload ++ [0]) ∧
      outcome buffer input =
        if stored[2]?.getD 0 = ascii ':' then
          (some (cString stored 3), [ascii '+', stored[0]?.getD 0, stored[1]?.getD 0])
        else (some (cString stored 0), [ascii '+']) := by
  obtain ⟨d₁, d₂, hinput, -, -, hsum⟩ := h.closed
  obtain ⟨stored, hstored, hget⟩ := getpacket_stored buffer List.not_mem_nil h.fits h.chars hsum []
  refine ⟨stored, hstored, ?_⟩
  rw [List.nil_append, ← hinput] at hget
  rw [outcome, hget]
  split_ifs <;> rfl

/-- The cells of the stored packet: its characters, its NUL, then what was there. -/
theorem stored_cell {buffer stored : PacketBuffer} (hfit : payload.length ≤ 398)
    (hstored : stored.toList = overwrite buffer.toList 0 (payload ++ [0])) (i : Nat) :
    stored[i]? = if i ≤ payload.length then (payload ++ [0])[i]? else buffer[i]? := by
  have hcell := congrArg (fun l : List UInt8 => l[i]?) hstored
  simp only [getElem?_overwrite (show 0 + (payload ++ [0]).length ≤ buffer.toList.length by
    simp; omega), Vector.getElem?_toList, List.length_append, List.length_singleton] at hcell
  rw [hcell]
  by_cases hi : i ≤ payload.length
  · rw [if_pos (by omega), if_pos hi, Nat.sub_zero]
  · rw [if_neg (by omega), if_neg hi]

/-- The string at an offset inside the packet is cut from the packet. -/
theorem cString_of_stored {buffer stored : PacketBuffer}
    (hstored : stored.toList = overwrite buffer.toList 0 (payload ++ [0])) {k : Nat}
    (hk : k ≤ payload.length) :
    cString stored k = (payload.drop k).takeWhile (· != 0) := by
  rw [cString, hstored, overwrite, List.take_zero, List.nil_append, List.append_assoc,
    List.drop_append_of_le_length hk, List.takeWhile_append]
  split_ifs with hall
  · rw [(List.takeWhile_prefix _).eq_of_length hall]
    simp
  · rfl

/-- From two characters on, the outcome is the packet's alone. -/
theorem Framed.outcome_eq (h : Framed payload input) (htwo : 2 ≤ payload.length)
    (buffer : PacketBuffer) :
    outcome buffer input =
      if payload[2]?.getD 0 = ascii ':' then
        (some ((payload.drop 3).takeWhile (· != 0)),
          [ascii '+', payload[0]?.getD 0, payload[1]?.getD 0])
      else (some (payload.takeWhile (· != 0)), [ascii '+']) := by
  obtain ⟨stored, hstored, hout⟩ := h.received buffer
  have hown : ∀ i, i ≤ payload.length → stored[i]?.getD 0 = payload[i]?.getD 0 := by
    intro i hi
    rw [stored_cell h.fits hstored, if_pos hi]
    rcases Nat.lt_or_eq_of_le hi with hlt | heq
    · rw [List.getElem?_append_left hlt]
    · subst heq
      simp
  rw [hout, hown 2 htwo, hown 0 (by omega), hown 1 (by omega)]
  by_cases hcolon : payload[2]?.getD 0 = ascii ':'
  · -- a colon in the third place needs three characters
    have hthree : 3 ≤ payload.length := by
      by_contra hshort
      rw [List.getElem?_eq_none (by omega)] at hcolon
      exact absurd hcolon (by decide)
    rw [if_pos hcolon, if_pos hcolon, cString_of_stored hstored hthree]
  · rw [if_neg hcolon, if_neg hcolon, cString_of_stored hstored (Nat.zero_le _), List.drop_zero]

/-- A history that leaves a colon in the third cell. -/
def colonPacket : List UInt8 := frame [ascii 'a', ascii 'b', ascii ':']

theorem reachable_colon : ∃ buffer, Reachable buffer ∧ buffer[2]?.getD 0 = ascii ':' := by
  refine ⟨_, .call .start colonPacket, ?_⟩
  decide +kernel

/-- A packet of fewer than two characters leaves the third cell as it was, and is
answered by it. -/
theorem Framed.answer_of_short (h : Framed payload input) (hshort : payload.length < 2)
    (buffer : PacketBuffer) :
    (outcome buffer input).2.length = if buffer[2]?.getD 0 = ascii ':' then 3 else 1 := by
  obtain ⟨stored, hstored, hout⟩ := h.received buffer
  have hthird : stored[2]? = buffer[2]? := by
    rw [stored_cell h.fits hstored, if_neg (by omega)]
  rw [hout, hthird]
  split_ifs <;> rfl

/-- A framed packet is received independently of earlier ones if and only if it
has at least two characters. -/
theorem independent_iff (h : Framed payload input) :
    Independent payload input ↔ 2 ≤ payload.length := by
  constructor
  · intro hind
    by_contra hshort
    obtain ⟨buffer, hreach, hcolon⟩ := reachable_colon
    have hsame := congrArg (fun o => o.2.length) (hind.1 _ _ hreach .start)
    rw [h.answer_of_short (by omega), h.answer_of_short (by omega), if_pos hcolon,
      Vector.getElem?_replicate] at hsame
    exact absurd hsame (by decide)
  · intro htwo
    refine ⟨fun buffer buffer' _ _ => ?_, fun hthree buffer _ => ?_⟩
    · rw [h.outcome_eq htwo, h.outcome_eq htwo]
    · rw [h.outcome_eq htwo, List.getElem?_eq_none (by omega)]
      exact if_neg (by decide)

end

/-- The condition at the packet `p0`. -/
theorem independent_two : Independent [ascii 'p', ascii '0'] (frame [ascii 'p', ascii '0']) := by
  have hframed : Framed [ascii 'p', ascii '0'] (frame [ascii 'p', ascii '0']) :=
    ⟨by decide, by simp; decide, _, _, rfl, by decide, by decide, by decide⟩
  exact (independent_iff hframed).mpr (by decide)

/-- The packet `g` on a fresh connection and after `ab:`: the second time it is
answered by three characters and an empty command is returned. -/
theorem received_after_colon :
    let before := (getpacket (Vector.replicate 400 0) colonPacket).buffer
    outcome (Vector.replicate 400 0) (frame [ascii 'g']) = (some [ascii 'g'], [ascii '+']) ∧
    outcome before (frame [ascii 'g']) = (some [], [ascii '+', ascii 'g', 0]) ∧
    ¬ Independent [ascii 'g'] (frame [ascii 'g']) := by
  intro before
  have hfirst : outcome (Vector.replicate 400 0) (frame [ascii 'g']) = (some [ascii 'g'], [ascii '+']) := by
    decide +kernel
  have hsecond : outcome before (frame [ascii 'g']) = (some [], [ascii '+', ascii 'g', 0]) := by
    decide +kernel
  refine ⟨hfirst, hsecond, fun hind => ?_⟩
  have hsame := hind.1 _ _ .start (.call .start colonPacket)
  rw [hfirst, show (getpacket _ colonPacket).buffer = before from rfl, hsecond] at hsame
  exact absurd hsame (by decide)

end EndlessFault.Gdbserver
