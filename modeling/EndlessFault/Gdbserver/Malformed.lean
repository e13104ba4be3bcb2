import EndlessFault.Gdbserver.RegisterCommands

/- Malformed `G`, `P` and `M` packets. `WellFormed` asks for the separators, for hex
   digits only in the data and for enough of them. The stub looks at less: at nothing
   behind a `G`, at a `P` up to its `=`, at an `M` up to its colon (`Accepted`). The
   digits behind are decoded by a loop of fixed length that checks none of them.

   `number_then` says when a number and its separator are found. So what is not
   accepted is refused and changes nothing (`rejected`), what is accepted is answered
   `OK` (`acknowledged`), and the ill-formed packets that get through are those with an
   accepted head: `malformed_rejected_iff`. -/
namespace EndlessFault.Gdbserver

/-- The commands that write. -/
inductive WriteCommand where
  | G
  | P
  | M

namespace WriteCommand

def letter : WriteCommand → UInt8
  | G => ascii 'G'
  | P => ascii 'P'
  | M => ascii 'M'

/-- The operands are separated as the command asks, and the data are hex digits, as
many as the registers, the register or the given length need. -/
def WellFormed (args : List UInt8) : WriteCommand → Prop
  | G => args.all isHexDigit = true ∧ 2 * (numRegs * 8) ≤ args.length
  | P => ∃ (regno : Digits) (data : List UInt8), args = regno.chars ++ ascii '=' :: data ∧
      data.all isHexDigit = true ∧ 2 * 8 ≤ data.length
  | M => ∃ (addr len : Digits) (data : List UInt8),
      args = addr.chars ++ ascii ',' :: (len.chars ++ ascii ':' :: data) ∧
      data.all isHexDigit = true ∧ 2 * len.value ≤ data.length

/-- A head the stub is content with, whatever data follows. -/
def Accepted (args : List UInt8) : WriteCommand → Prop
  | G => True
  | P => ∃ (regno : Digits) (data : List UInt8), args = regno.chars ++ ascii '=' :: data ∧
      0 ≤ asInt (UInt32.ofNat regno.value) ∧ asInt (UInt32.ofNat regno.value) < numRegs
  | M => ∃ (addr len : Digits) (data : List UInt8),
      args = addr.chars ++ ascii ',' :: (len.chars ++ ascii ':' :: data)

end WriteCommand

/-- An error is sent, and the register cache, the virtual CPU and guest memory stay
as they were. -/
def Rejected (s : Stub) (o : Outcome) : Prop :=
  MemPacket.Refused o ∧ o.stub.registers = s.registers ∧ o.stub.reloads = s.reloads ∧
  o.stub.memory = s.memory

section
variable (after : Nat → UInt8) {s : Stub} {ptr : Nat}

/-! Numbers and separators. -/

/-- Where `hexToInt` finds digits, the text starts with a number and no digit follows. -/
theorem number_found {str : List UInt8} (h : Holds s.inBuffer ptr str)
    (hsome : (hexToInt (cString s.inBuffer ptr)).1 ≠ 0) :
    ∃ (d : Digits) (tail : List UInt8), str = d.chars ++ tail ∧
      (∀ ch ∈ tail.head?, isHexDigit ch = false) ∧
      hexToInt (cString s.inBuffer ptr) = (d.chars.length, UInt32.ofNat d.value) := by
  rw [h.hexToInt] at hsome
  let d : Digits :=
    { chars := str.takeWhile isHexDigit
      isHex := List.all_takeWhile
      nonempty := fun hnil => hsome (congrArg List.length hnil) }
  refine ⟨d, str.dropWhile isHexDigit, List.takeWhile_append_dropWhile.symm, ?_, h.hexToInt⟩
  intro ch hch
  have hstop := List.head?_dropWhile_not isHexDigit str
  rw [Option.mem_def.mp hch] at hstop
  exact hstop

/-- With a separator behind them, the text has a number and the separator. -/
theorem number_then {c : UInt8} (hc : c ≠ 0) {str : List UInt8} (h : Holds s.inBuffer ptr str)
    (hsome : (hexToInt (cString s.inBuffer ptr)).1 ≠ 0)
    (hsep : s.inByte after (ptr + (hexToInt (cString s.inBuffer ptr)).1) = c) :
    ∃ (d : Digits) (tail : List UInt8), str = d.chars ++ c :: tail := by
  obtain ⟨d, rest, hstr, -, hparse⟩ := number_found h hsome
  rw [hparse] at hsep
  rw [hstr] at h
  obtain ⟨tail, rfl⟩ := h.drop.first after hc hsep
  exact ⟨d, tail, hstr⟩

/-! Refused. -/

theorem rejected_reply {stored : List UInt8} (h : stored = e01 ∨ stored = e02) :
    Rejected s (s.reply stored) := by
  refine ⟨?_, rfl, rfl, rfl⟩
  rcases h with rfl | rfl
  · exact .inl rfl
  · exact .inr rfl

theorem writeRegister_rejected {args : List UInt8} (h : Holds s.inBuffer ptr args)
    (hbad : ¬ WriteCommand.P.Accepted args) : Rejected s (s.writeRegister after ptr) := by
  unfold Stub.writeRegister
  dsimp only
  rw [if_neg]
  · exact rejected_reply (.inl rfl)
  · rintro ⟨hsome, hsep, hrange⟩
    obtain ⟨regno, data, hargs⟩ := number_then after (by decide) h hsome hsep
    rw [hargs] at h
    rw [h.parse (by simp; decide)] at hrange
    exact hbad ⟨regno, data, hargs, hrange⟩

theorem writeMemory_rejected {args : List UInt8} (h : Holds s.inBuffer ptr args)
    (hbad : ¬ WriteCommand.M.Accepted args) : Rejected s (s.writeMemory after ptr) := by
  unfold Stub.writeMemory
  dsimp only
  rw [if_neg]
  · exact rejected_reply (.inr rfl)
  · rintro ⟨hsome, hcomma, hlength, hcolon⟩
    obtain ⟨addr, rest, hargs⟩ := number_then after (by decide) h hsome hcomma
    rw [hargs] at h
    rw [h.parse (by simp; decide)] at hlength hcolon
    -- the length is read where the comma was found
    have hrest : Holds s.inBuffer (ptr + addr.chars.length + 1) rest :=
      Holds.drop (a := [ascii ',']) h.drop
    obtain ⟨len, data, hlen⟩ := number_then after (by decide) hrest hlength hcolon
    exact hbad ⟨addr, len, data, by rw [hargs, hlen]⟩

/-! The three commands. -/

variable (sigval : Nat)

/-- What is not accepted is refused and changes nothing. -/
theorem rejected (c : WriteCommand) {args : List UInt8}
    (h : Holds s.inBuffer ptr (c.letter :: args)) (hbad : ¬ c.Accepted args) :
    Rejected s (s.handle after sigval ptr) := by
  have hargs : Holds s.inBuffer (ptr + 1) args := Holds.drop (a := [c.letter]) h
  cases c with
  | G => exact absurd trivial hbad
  | P =>
    rw [handle_P after sigval h]
    exact writeRegister_rejected after hargs hbad
  | M =>
    rw [handle_M after sigval h]
    exact writeMemory_rejected after hargs hbad

/-- What is accepted is answered `OK`, whatever the data. -/
theorem acknowledged (c : WriteCommand) {args : List UInt8}
    (h : Holds s.inBuffer ptr (c.letter :: args)) (hgood : c.Accepted args) :
    (s.handle after sigval ptr).sent = some [ascii 'O', ascii 'K'] := by
  have hargs : Holds s.inBuffer (ptr + 1) args := Holds.drop (a := [c.letter]) h
  cases c with
  | G =>
    rw [handle_G after sigval h]
    rfl
  | P =>
    obtain ⟨regno, data, rfl, hrange⟩ := hgood
    rw [handle_P after sigval h, (writeRegister_parsed after hargs).2, if_pos hrange]
    rfl
  | M =>
    obtain ⟨addr, len, data, rfl⟩ := hgood
    rw [handle_M after sigval h, (writeMemory_accepted after hargs).2]
    rfl

/-- For every packet with the letter `G`, `P` or `M` and every state of the stub:
ill-formed operands are rejected without effect exactly when there are none or the
head is not accepted. -/
theorem malformed_rejected_iff (c : WriteCommand) {args : List UInt8}
    (h : Holds s.inBuffer ptr (c.letter :: args)) :
    (¬ c.WellFormed args → Rejected s (s.handle after sigval ptr)) ↔
      (c.WellFormed args ∨ ¬ c.Accepted args) := by
  constructor
  · intro hrejected
    by_contra hcontra
    rw [not_or, not_not] at hcontra
    have hok := acknowledged after sigval c h hcontra.2
    rcases (hrejected hcontra.1).1 with herror | herror
    · rw [hok] at herror
      exact absurd herror (by decide)
    · rw [hok] at herror
      exact absurd herror (by decide)
  · intro hor hill
    exact rejected after sigval c h (hor.resolve_left hill)

end

/-- `P0`, with no value. -/
def noValue : List UInt8 := [ascii '0']

theorem malformed_rejected_noValue :
    let s := receivedStub (WriteCommand.P.letter :: noValue) (by decide)
    ¬ WriteCommand.P.WellFormed noValue ∧ Rejected s (s.handle (fun _ => 0) 5 0) := by
  have hshort : ∀ (regno : Digits) (data : List UInt8), noValue ≠ regno.chars ++ ascii '=' :: data := by
    intro regno data hargs
    have hlen := congrArg List.length hargs
    have hsome := regno.length_ne_zero
    simp only [noValue, List.length_append, List.length_cons, List.length_nil] at hlen
    omega
  have hill : ¬ WriteCommand.P.WellFormed noValue := fun ⟨regno, data, hargs, _⟩ => hshort regno data hargs
  refine ⟨hill, (malformed_rejected_iff (fun _ => 0) 5 .P (receivedStub_holds _ _)).mpr (.inr ?_) hill⟩
  exact fun ⟨regno, data, hargs, _⟩ => hshort regno data hargs

/-- `P0=`, with no digit. -/
def emptyValue : List UInt8 := [ascii '0', ascii '=']

/-- It is answered `OK`, and the register and the virtual CPU get what the rest of
the buffer decodes to. -/
theorem emptyValue_written :
    let s := receivedStub (WriteCommand.P.letter :: emptyValue) (by decide)
    let o := s.handle (fun _ => 0) 5 0
    ¬ WriteCommand.P.WellFormed emptyValue ∧ ¬ Rejected s o ∧
    o.sent = some [ascii 'O', ascii 'K'] ∧ s.registers[0] = 0 ∧
    o.stub.registers[0] = 0xefefefefefefefef ∧ o.stub.reloads = [o.stub.registers] := by
  intro s o
  have hregs : s.registers[0] = 0 ∧ o.stub.registers[0] = 0xefefefefefefefef := by
    decide +kernel
  refine ⟨?_, fun hrejected => ?_, ?_, hregs.1, hregs.2, by decide +kernel⟩
  · rintro ⟨regno, data, hargs, -, henough⟩
    have hlen := congrArg List.length hargs
    simp only [emptyValue, List.length_append, List.length_cons, List.length_nil] at hlen
    omega
  · rw [hrejected.2.1, hregs.1] at hregs
    exact absurd hregs.2 (by decide)
  · exact acknowledged (fun _ => 0) 5 .P (receivedStub_holds _ _)
      ⟨⟨[ascii '0'], by decide, by decide⟩, [], rfl, by decide, by decide⟩

end EndlessFault.Gdbserver
