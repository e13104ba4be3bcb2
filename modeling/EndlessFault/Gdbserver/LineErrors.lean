import EndlessFault.Gdbserver.RegisterCommands

/- What a bad line does to the packets of a client, and what the stub makes of it. Before a frame
   that arrives whole there may be stray characters, frames whose sum is not that of the body,
   frames that lost their end, and bodies longer than the buffer (`Damage`). `getpacket` answers
   `-` to the second kind only, and returns the whole frame (`getpacket_offered`). After the
   reply it takes every character but `+` for a refusal, a command sent again included, and sends the
   reply once more (`putpacket_refused`).

   The buffer is static, so one thing is asked of the damaged frames as well: that none leaves a colon
   in its third cell. -/
namespace EndlessFault.Gdbserver
open Lib.Bytes

/-- A frame that does not arrive as it was sent, up to the next start character. -/
inductive Damage where
  /-- The two characters at its end do not give the sum of its body. -/
  | spoiled (body : List UInt8) (d₁ d₂ : UInt8) (gap : List UInt8)
  /-- It has no end. -/
  | broken (body : List UInt8)
  /-- The buffer is full before its end. -/
  | overlong (body : List UInt8) (last : UInt8) (gap : List UInt8)

namespace Damage

def chars : Damage → List UInt8
  | spoiled body d₁ d₂ gap => ascii '$' :: body ++ ascii '#' :: d₁ :: d₂ :: gap
  | broken body => ascii '$' :: body
  | overlong body last gap => ascii '$' :: body ++ last :: gap

/-- The characters it is answered. -/
def answer : Damage → List UInt8
  | spoiled .. => [ascii '-']
  | _ => []

/-- The body has no framing character, it fits, and no colon is third. -/
structure Body (body : List UInt8) : Prop where
  fits : body.length ≤ 398
  chars : ∀ ch ∈ body, ch ≠ ascii '$' ∧ ch ≠ ascii '#'
  third : body[2]? ≠ some (ascii ':')

def Ok : Damage → Prop
  | spoiled body d₁ d₂ gap => Body body ∧ ascii '$' ∉ gap ∧
    body.foldl (· + ·) 0 ≠ UInt8.ofInt (hex d₁ * 16) + UInt8.ofInt (hex d₂)
  | broken body => Body body
  | overlong body last gap => Body body ∧ body.length = 398 ∧ (last ≠ ascii '$' ∧ last ≠ ascii '#') ∧ ascii '$' ∉ gap

end Damage

/-! The third cell. -/

/-- Characters stored from the start of the buffer on leave no colon in the third cell when they
have none there. -/
theorem noSequence_overwrite {buffer stored : PacketBuffer} {chars : List UInt8} (hbuffer : NoSequence buffer)
    (hfit : chars.length ≤ 400) (hthird : chars[2]? ≠ some (ascii ':'))
    (hstored : stored.toList = overwrite buffer.toList 0 chars) : NoSequence stored := by
  have hcell := congrArg (fun l : List UInt8 => l[2]?) hstored
  simp only [getElem?_overwrite (show 0 + chars.length ≤ buffer.toList.length by simp; omega),
    Vector.getElem?_toList] at hcell
  rw [NoSequence, hcell]
  by_cases hlong : 2 < chars.length
  · rw [if_pos (by omega), List.getElem?_eq_getElem (by omega), Option.getD_some]
    intro hcolon
    apply hthird
    rw [List.getElem?_eq_getElem hlong]
    exact congrArg some hcolon
  · rw [if_neg (by omega)]
    exact hbuffer

theorem third_append {body tail : List UInt8} (hbody : body[2]? ≠ some (ascii ':')) (htail : ∀ ch ∈ tail, ch ≠ ascii ':') :
    (body ++ tail)[2]? ≠ some (ascii ':') := by
  rw [List.getElem?_append]
  split
  · exact hbody
  · intro hcolon
    exact htail _ (List.mem_of_getElem? hcolon) rfl

/-! One damaged frame. -/

section
variable {buffer : PacketBuffer} (hbuffer : NoSequence buffer)
include hbuffer

/-- A frame up to its two last characters. -/
theorem scan_closed {body : List UInt8} (h : Damage.Body body) (input : List UInt8) :
    ∃ stored, NoSequence stored ∧ Holds stored 0 body ∧
      scan buffer .start (ascii '$' :: body ++ ascii '#' :: input) =
        scan stored (.sum1 (body.foldl (· + ·) 0)) input := by
  have hfits := h.fits
  obtain ⟨held, hheld, hscan⟩ := scan_body h.chars buffer 0 0 (by omega) (ascii '#' :: input)
  rw [Nat.zero_add] at hscan
  have hstored : (held.setIfInBounds body.length 0).toList = overwrite buffer.toList 0 (body ++ [0]) := by
    rw [toList_setIfInBounds held 0 (show body.length < 400 by omega), hheld,
      ← overwrite_append body [0] (by simp; omega), Nat.zero_add]
  refine ⟨_, noSequence_overwrite hbuffer (by simp; omega) (third_append h.third (by simp; decide)) hstored,
    holds_stored hstored, ?_⟩
  rw [List.cons_append, scan, if_pos rfl, hscan, scan, if_neg (by decide), if_pos rfl]

/-- The search goes on from the next start character. -/
theorem scan_damage {d : Damage} (h : d.Ok) (input : List UInt8) :
    ∃ stored, NoSequence stored ∧
      scan buffer .start (d.chars ++ ascii '$' :: input) = (scan stored .start (ascii '$' :: input)).after d.answer := by
  cases d with
  | spoiled body d₁ d₂ gap =>
    obtain ⟨hbody, hgap, hsum⟩ := h
    generalize ascii '$' :: input = next
    obtain ⟨stored, hseq, -, hscan⟩ := scan_closed hbuffer hbody (d₁ :: d₂ :: gap ++ next)
    refine ⟨stored, hseq, ?_⟩
    have hchars : (Damage.spoiled body d₁ d₂ gap).chars ++ next =
        ascii '$' :: body ++ ascii '#' :: (d₁ :: d₂ :: gap ++ next) := by simp [Damage.chars]
    rw [hchars, hscan, List.cons_append, scan, List.cons_append, scan, if_pos hsum, scan_gap stored hgap]
    rfl
  | broken body =>
    have hfits := h.fits
    obtain ⟨held, hheld, hscan⟩ := scan_body h.chars buffer 0 0 (by omega) (ascii '$' :: input)
    refine ⟨held, noSequence_overwrite hbuffer (by omega) h.third hheld, ?_⟩
    -- the start character begins anew, wherever it is read
    rw [Damage.chars, List.cons_append, scan, if_pos rfl, hscan, scan, if_pos rfl, scan, if_pos rfl]
    rfl
  | overlong body last gap =>
    obtain ⟨hbody, hlen, hlast, hgap⟩ := h
    generalize ascii '$' :: input = next
    obtain ⟨held, hheld, hscan⟩ := scan_body hbody.chars buffer 0 0 (by omega) (last :: gap ++ next)
    rw [Nat.zero_add, hlen] at hscan
    -- the last character and the NUL take the two cells left
    have hstored : ((held.setIfInBounds 398 last).setIfInBounds 399 0).toList =
        overwrite buffer.toList 0 (body ++ [last, 0]) := by
      rw [toList_setIfInBounds _ 0 (show 399 < 400 by decide), toList_setIfInBounds held last (show 398 < 400 by decide),
        hheld, ← overwrite_append body [last, 0] (by simp; omega), Nat.zero_add, hlen]
      exact overwrite_append [last] [0] (by rw [length_overwrite] <;> simp [hlen])
    have hthird : (body ++ [last, 0])[2]? ≠ some (ascii ':') := by
      rw [List.getElem?_append_left (by omega)]
      exact hbody.third
    refine ⟨_, noSequence_overwrite hbuffer (by simp; omega) hthird hstored, ?_⟩
    have hchars : (Damage.overlong body last gap).chars ++ next =
        ascii '$' :: (body ++ (last :: gap ++ next)) := by simp [Damage.chars]
    have hfull : ¬ 398 + 1 < bufMax - 1 := by decide
    rw [hchars, scan, if_pos rfl, hscan, List.cons_append, scan, if_neg hlast.1, if_neg hlast.2]
    dsimp only
    rw [if_neg hfull, scan_gap _ hgap]
    rfl

end

/-! A frame behind damaged ones. -/

/-- What the client sends for one packet. -/
structure Offered where
  stray : List UInt8
  damages : List Damage
  payload : List UInt8

namespace Offered

def chars (o : Offered) : List UInt8 := o.stray ++ o.damages.flatMap Damage.chars ++ frame o.payload

/-- The characters it is answered. -/
def answer (o : Offered) : List UInt8 := o.damages.flatMap Damage.answer ++ [ascii '+']

structure Ok (o : Offered) : Prop where
  stray : ascii '$' ∉ o.stray
  damages : ∀ d ∈ o.damages, d.Ok
  payload : Plain o.payload

end Offered

/-- The frame is returned, and nothing of what came before it is left but in the answers. -/
theorem getpacket_offered {buffer : PacketBuffer} (hbuffer : NoSequence buffer) {o : Offered} (h : o.Ok)
    (input : List UInt8) :
    ∃ stored, NoSequence stored ∧ Holds stored 0 o.payload ∧
      getpacket buffer (o.chars ++ input) = ⟨o.answer, stored, some 0, input⟩ := by
  obtain ⟨stray, damages, payload⟩ := o
  have hstray : ascii '$' ∉ stray := h.stray
  have hdamages : ∀ d ∈ damages, d.Ok := h.damages
  have hplain : Plain payload := h.payload
  clear h
  have hmain : ∀ buffer : PacketBuffer, NoSequence buffer →
      ∃ stored, NoSequence stored ∧ Holds stored 0 payload ∧
        scan buffer .start (damages.flatMap Damage.chars ++ frame payload ++ input) =
          ⟨damages.flatMap Damage.answer ++ [ascii '+'], stored, some 0, input⟩ := by
    induction damages with
    | nil =>
      intro buffer hbuffer
      have hbody : Damage.Body payload :=
        ⟨hplain.fits, fun ch hch => ⟨(hplain.chars ch hch).1, (hplain.chars ch hch).2.1⟩, hplain.third⟩
      obtain ⟨stored, hseq, hheld, hscan⟩ := scan_closed hbuffer hbody (hexPair (payload.foldl (· + ·) 0) ++ input)
      refine ⟨stored, hseq, hheld, ?_⟩
      have hchars : ([] : List Damage).flatMap Damage.chars ++ frame payload ++ input =
          ascii '$' :: payload ++ ascii '#' :: (hexPair (payload.foldl (· + ·) 0) ++ input) := by simp [frame]
      rw [hchars, hscan, hexPair, List.cons_append, scan, List.cons_append, scan,
        if_neg (fun hbad => hbad (checksum_hexchars _).symm), if_neg hseq]
      rfl
    | cons d damages ih =>
      intro buffer hbuffer
      -- what follows begins with a start character, a damaged frame's or the whole one's
      obtain ⟨next, hnext⟩ : ∃ next, damages.flatMap Damage.chars ++ frame payload ++ input = ascii '$' :: next := by
        cases damages with
        | nil => exact ⟨_, rfl⟩
        | cons e damages => cases e <;> exact ⟨_, rfl⟩
      obtain ⟨stored, hseq, hscan⟩ := scan_damage hbuffer (hdamages d List.mem_cons_self) next
      obtain ⟨stored', hseq', hheld, hrest⟩ := ih (fun e he => hdamages e (List.mem_cons_of_mem d he)) stored hseq
      refine ⟨stored', hseq', hheld, ?_⟩
      rw [List.flatMap_cons, List.append_assoc, List.append_assoc, ← List.append_assoc (damages.flatMap _), hnext, hscan,
        ← hnext, hrest, Received.after, List.flatMap_cons, List.append_assoc]
  obtain ⟨stored, hseq, hheld, hscan⟩ := hmain buffer hbuffer
  refine ⟨stored, hseq, hheld, ?_⟩
  rw [getpacket, Offered.chars, List.append_assoc, List.append_assoc, scan_gap buffer hstray, ← List.append_assoc, hscan]
  rfl

/-! A reply that is refused. -/

/-- The frames sent until the reply is accepted. -/
def resent (payload refusals : List UInt8) : List UInt8 := (List.replicate (refusals.length + 1) (frame payload)).flatten

theorem putpacket_refused (payload : List UInt8) {refusals : List UInt8} (h : ascii '+' ∉ refusals) (input : List UInt8) :
    putpacket payload (refusals ++ ascii '+' :: input) = (resent payload refusals, some input) := by
  induction refusals with
  | nil => simp [putpacket, resent]
  | cons ch refusals ih =>
    rw [List.mem_cons, not_or] at h
    rw [List.cons_append, putpacket, if_neg (fun heq => h.1 heq.symm), ih h.2]
    rfl

end EndlessFault.Gdbserver
