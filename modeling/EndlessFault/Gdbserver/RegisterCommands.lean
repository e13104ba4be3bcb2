import EndlessFault.Lib.Machine
import EndlessFault.Gdbserver.MemoryCommands

/- The register commands of the gdb stub, `g`, `G`, `p` and `P`. A `RegPacket`
   carries the digits of a well-formed one. What they are for is an array of 24
   registers of 64 bits: `RegPacket.next` is what a packet makes of it and
   `RegPacket.answer` the reply it gets, with the bytes of a register in hex, least
   significant first.

   A session receives each packet from the connection (`getpacket`) and handles it
   (`Stub.command`). `command_spec` says all that one packet does to the stub;
   `session_refines` is the whole session. -/
namespace EndlessFault.Gdbserver
open Lib.Bytes Lib.Machine

/-- A well-formed register packet. -/
inductive RegPacket where
  | readAll
  | writeAll (data : List UInt8) (isHex : data.all isHexDigit = true) (full : data.length = 384)
  | read (regno : Digits) (short : regno.chars.length ≤ 8)
  | write (regno : Digits) (short : regno.chars.length ≤ 8) (data : List UInt8)
      (isHex : data.all isHexDigit = true) (full : data.length = 16)

namespace RegPacket

def payload : RegPacket → List UInt8
  | readAll => [ascii 'g']
  | writeAll data _ _ => ascii 'G' :: data
  | read regno _ => ascii 'p' :: regno.chars
  | write regno _ data _ _ => ascii 'P' :: (regno.chars ++ ascii '=' :: data)

/-- The `r`-th 64-bit number that the digits `data` spell, least significant byte
first. -/
def value (data : List UInt8) (r : Nat) : UInt64 :=
  UInt64.ofNat (leNat ((List.range 8).map fun i => MemPacket.dataByte data (8 * r + i)))

/-- The 16 digits of a register. -/
def digits (v : UInt64) : List UInt8 :=
  (List.range 8).flatMap fun i => hexPair (UInt8.ofNat (v.toNat / 256^i))

/-- The registers after a packet. -/
def next (registers : Vector UInt64 numRegs) : RegPacket → Vector UInt64 numRegs
  | readAll => registers
  | writeAll data _ _ => Vector.ofFn fun r => value data r
  | read _ _ => registers
  | write regno _ data _ _ => registers.setIfInBounds regno.value (value data 0)

/-- The reply to a packet. -/
def answer (registers : Vector UInt64 numRegs) : RegPacket → List UInt8
  | readAll => registers.toList.flatMap digits
  | writeAll _ _ _ => [ascii 'O', ascii 'K']
  | read regno _ =>
    if h : regno.value < numRegs then digits registers[regno.value]
    else [ascii 'E', ascii '0', ascii '1']
  | write regno _ _ _ _ =>
    if regno.value < numRegs then [ascii 'O', ascii 'K'] else [ascii 'E', ascii '0', ascii '1']

/-- The registers the packet has the virtual CPU loaded with, if it does. -/
def reloaded (registers : Vector UInt64 numRegs) (p : RegPacket) : List (Vector UInt64 numRegs) :=
  match p with
  | writeAll _ _ _ => [p.next registers]
  | write regno _ _ _ _ => if regno.value < numRegs then [p.next registers] else []
  | _ => []

end RegPacket

/-! Receiving a packet and handling it. -/

namespace Stub

/-- The command loop on one framed packet from the connection. -/
def command (after : Nat → UInt8) (sigval : Nat) (s : Stub) (payload : List UInt8) : Option Outcome :=
  let r := getpacket s.inBuffer (frame payload)
  r.ptr.map fun ptr => handle after sigval { s with inBuffer := r.buffer } ptr

/-- The stub after it, and the reply. -/
def exchange (after : Nat → UInt8) (sigval : Nat) (s : Stub) (payload : List UInt8) : Stub :=
  ((s.command after sigval payload).map Outcome.stub).getD s

def answer (after : Nat → UInt8) (sigval : Nat) (s : Stub) (payload : List UInt8) :
    List (List UInt8) :=
  ((s.command after sigval payload).bind Outcome.sent).toList

/-- The stub when the connection is made: `remcomInBuffer` is static. -/
def start (registers : Vector UInt64 numRegs) (extendedRegisters : Vector UInt64 5)
    (memory : Memory) : Stub where
  inBuffer := Vector.replicate 400 0
  registers := registers
  extendedRegisters := extendedRegisters
  memory := memory
  remoteDebug := false
  reloads := []

end Stub

theorem noSequence_start (registers : Vector UInt64 numRegs) (extendedRegisters : Vector UInt64 5)
    (memory : Memory) : NoSequence (Stub.start registers extendedRegisters memory).inBuffer := by
  rw [Stub.start, NoSequence, Vector.getElem?_replicate]
  decide

/-- A stored payload stands in the buffer with its NUL. -/
theorem holds_stored {buffer stored : PacketBuffer} {payload : List UInt8}
    (hstored : stored.toList = overwrite buffer.toList 0 (payload ++ [0])) : Holds stored 0 payload := by
  refine ⟨buffer.toList.drop (0 + (payload ++ [0]).length), ?_⟩
  rw [List.drop_zero, hstored, overwrite, List.take_zero, List.nil_append, List.append_assoc]
  rfl

section
variable (after : Nat → UInt8) (sigval : Nat)

/-- A plain packet is handled from the start of the buffer. -/
theorem command_received {s : Stub} (hs : NoSequence s.inBuffer) {payload : List UInt8}
    (h : Plain payload) :
    ∃ stored, NoSequence stored ∧ Holds stored 0 payload ∧
      s.command after sigval payload = some (Stub.handle after sigval { s with inBuffer := stored } 0) := by
  obtain ⟨stored, hstored, hget⟩ := getpacket_stored s.inBuffer List.not_mem_nil h.fits
    (fun ch hch => ⟨(h.chars ch hch).1, (h.chars ch hch).2.1⟩) (checksum_hexchars _).symm []
  have hseq := noSequence_stored h hs hstored
  refine ⟨stored, hseq, holds_stored hstored, ?_⟩
  rw [if_neg hseq] at hget
  have hframe : getpacket s.inBuffer (frame payload) = ⟨[ascii '+'], stored, some 0, []⟩ := by
    rw [← hget, frame, hexPair]
    simp
  simp only [Stub.command, hframe, Option.map_some]

/-! The dispatch on the letter. -/

variable {s : Stub} {ptr : Nat}

theorem handle_g {rest : List UInt8} (h : Holds s.inBuffer ptr (ascii 'g' :: rest)) :
    s.handle after sigval ptr = s.reply (mem2hex (registerByte s.registers) (numRegs * 8)) := by
  obtain ⟨hq, hletter⟩ := letter_facts after h (by decide) (by decide)
  simp only [Stub.handle, hq, hletter]
  rfl

theorem handle_G {rest : List UInt8} (h : Holds s.inBuffer ptr (ascii 'G' :: rest)) :
    s.handle after sigval ptr = s.setRegisters after (ptr + 1) := by
  obtain ⟨hq, hletter⟩ := letter_facts after h (by decide) (by decide)
  simp only [Stub.handle, hq, hletter]
  rfl

theorem handle_p {rest : List UInt8} (h : Holds s.inBuffer ptr (ascii 'p' :: rest)) :
    s.handle after sigval ptr = s.readRegister (ptr + 1) := by
  obtain ⟨hq, hletter⟩ := letter_facts after h (by decide) (by decide)
  simp only [Stub.handle, hq, hletter]
  rfl

theorem handle_P {rest : List UInt8} (h : Holds s.inBuffer ptr (ascii 'P' :: rest)) :
    s.handle after sigval ptr = s.writeRegister after (ptr + 1) := by
  obtain ⟨hq, hletter⟩ := letter_facts after h (by decide) (by decide)
  simp only [Stub.handle, hq, hletter]
  rfl

end

/-! Data in the buffer. -/

/-- A range of a mapped range. -/
theorem take_drop_map_range (f : Nat → UInt8) {n k m : Nat} (h : k + m ≤ n) :
    (((List.range n).map f).drop k).take m = (List.range m).map fun i => f (k + i) := by
  apply List.ext_getElem?
  intro i
  rw [List.getElem?_take, List.getElem?_drop]
  by_cases hi : i < m
  · rw [if_pos hi, List.getElem?_map, List.getElem?_map, List.getElem?_range (by omega),
      List.getElem?_range hi]
    rfl
  · rw [if_neg hi, List.getElem?_eq_none (by simpa using hi)]

theorem registersOfBytes_data (data : List UInt8) :
    registersOfBytes ((List.range 192).map (MemPacket.dataByte data)) =
      Vector.ofFn fun r => RegPacket.value data r := by
  apply Vector.ext
  intro r hr
  have hr24 : r < 24 := hr
  simp only [registersOfBytes, registerOfBytes, RegPacket.value, Vector.getElem_ofFn]
  rw [take_drop_map_range _ (by omega)]

theorem registerOfBytes_data (data : List UInt8) :
    registerOfBytes ((List.range 8).map (MemPacket.dataByte data)) = RegPacket.value data 0 := by
  have hall := take_drop_map_range (MemPacket.dataByte data) (n := 8) (k := 0) (m := 8) (by decide)
  rw [List.drop_zero] at hall
  rw [registerOfBytes, hall, RegPacket.value]

/-! Registers in hex. -/

theorem registerByte_eq (registers : Vector UInt64 numRegs) {r i : Nat} (hi : i < 8) :
    registerByte registers (8 * r + i) = UInt8.ofNat ((registers[r]?.getD 0).toNat / 256^i) := by
  rw [registerByte, show (8 * r + i) / 8 = r by omega, show (8 * r + i) % 8 = i by omega, Nat.pow_mul]

theorem hexPairs_register (registers : Vector UInt64 numRegs) (r : Nat) :
    ((List.range 8).flatMap fun i => hexPair (registerByte registers (8 * r + i))) =
      RegPacket.digits (registers[r]?.getD 0) := by
  unfold RegPacket.digits
  apply List.flatMap_congr
  intro i hi
  rw [registerByte_eq registers (List.mem_range.mp hi)]

/-- A range taken in rows. -/
theorem flatMap_range_mul (f : Nat → List UInt8) (n m : Nat) :
    (List.range (m * n)).flatMap f =
      (List.range m).flatMap fun r => (List.range n).flatMap fun i => f (n * r + i) := by
  induction m with
  | zero => simp
  | succ m ih =>
    rw [Nat.succ_mul, List.range_add, List.flatMap_append, ih, List.range_succ, List.flatMap_append,
      List.flatMap_map, List.flatMap_cons, List.flatMap_nil, List.append_nil, Nat.mul_comm m n]

theorem hexPairs_registers (registers : Vector UInt64 numRegs) :
    ((List.range 192).flatMap fun i => hexPair (registerByte registers i)) =
      registers.toList.flatMap RegPacket.digits := by
  have hlist : registers.toList = (List.range 24).map fun r => registers[r]?.getD 0 := by
    apply List.ext_getElem
    · simp
    · intro r h₁ h₂
      have hr : r < 24 := by simpa using h₂
      simp [hr]
  rw [flatMap_range_mul (fun i => hexPair (registerByte registers i)) 8 24, hlist, List.flatMap_map]
  apply List.flatMap_congr
  intro r _
  exact hexPairs_register registers r

/-! Register numbers. -/

theorem digitsValue_lt (digits : List UInt8) : digitsValue digits < 16^digits.length := by
  have hloop : ∀ (digits : List UInt8) (v : Nat),
      digits.foldl (fun v ch => 16 * v + (hex ch).toNat) v < 16^digits.length * (v + 1) := by
    intro digits
    induction digits with
    | nil => intro v; simp
    | cons ch digits ih =>
      intro v
      have hch := hex_lt ch
      rw [List.foldl_cons, List.length_cons, Nat.pow_succ]
      calc digits.foldl (fun v ch => 16 * v + (hex ch).toNat) (16 * v + (hex ch).toNat)
          < 16^digits.length * (16 * v + (hex ch).toNat + 1) := ih _
        _ ≤ 16^digits.length * (16 * (v + 1)) := Nat.mul_le_mul_left _ (by omega)
        _ = 16^digits.length * 16 * (v + 1) := by rw [Nat.mul_assoc]
  have h := hloop digits 0
  rwa [Nat.zero_add, Nat.mul_one] at h

/-- A number of at most 8 digits, read as an `int`, is a register number exactly
when it is below 24: the numbers from 2^31 on come out negative. -/
theorem regno_range {regno : Digits} (hshort : regno.chars.length ≤ 8) :
    (0 ≤ asInt (UInt32.ofNat regno.value) ∧ asInt (UInt32.ofNat regno.value) < numRegs) ↔
      regno.value < numRegs := by
  have hlt : regno.value < 2^32 :=
    calc regno.value < 16^regno.chars.length := digitsValue_lt _
      _ ≤ 16^8 := Nat.pow_le_pow_right (by decide) hshort
      _ = 2^32 := by decide
  have hnat : (UInt32.ofNat regno.value).toNat = regno.value := UInt32.toNat_ofNat_of_lt' hlt
  unfold asInt
  rw [hnat]
  split_ifs with hpos
  · omega
  · have hbig : ¬ regno.value < numRegs := by
      simp only [numRegs]
      omega
    omega

theorem regno_toNat {regno : Digits} (h : regno.value < numRegs) :
    (asInt (UInt32.ofNat regno.value)).toNat = regno.value := by
  have hsmall : regno.value < 2^31 := by
    simp only [numRegs] at h
    omega
  rw [asInt_ofNat hsmall, Int.toNat_natCast]

/-! One packet. -/

section
variable (after : Nat → UInt8) {s : Stub} {ptr : Nat}

theorem setRegisters_eq {data : List UInt8} (isHex : data.all isHexDigit = true)
    (full : data.length = 384) (h : Holds s.inBuffer ptr data) :
    s.setRegisters after ptr =
      (Stub.kvmLoadRegistersFromGdbcache
        { s with registers := Vector.ofFn fun r => RegPacket.value data r }).reply ok := by
  have hbytes := hex2mem_held after h isHex 192 (by omega)
  rw [Stub.setRegisters, show ((numRegs : Int) * 8) = ((192 : Nat) : Int) from rfl, hbytes,
    registersOfBytes_data]

theorem readRegister_eq {regno : Digits} (short : regno.chars.length ≤ 8)
    (h : Holds s.inBuffer ptr regno.chars) :
    (s.readRegister ptr).sent = some ((RegPacket.read regno short).answer s.registers) ∧
    (s.readRegister ptr).stub = s := by
  have hparse : hexToInt (cString s.inBuffer ptr) = (regno.chars.length, UInt32.ofNat regno.value) := by
    rw [← List.append_nil regno.chars] at h
    exact h.parse (by simp)
  unfold Stub.readRegister
  rw [hparse]
  dsimp only
  by_cases hr : regno.value < numRegs
  · rw [if_pos ⟨regno.length_ne_zero, (regno_range short).mpr hr⟩, regno_toNat hr]
    refine ⟨?_, rfl⟩
    simp only [Outcome.sent, Stub.reply, mem2hex_string, RegPacket.answer, dif_pos hr]
    rw [show (8 : Int).toNat = 8 from rfl, hexPairs_register, Vector.getElem?_eq_getElem hr,
      Option.getD_some]
  · rw [if_neg fun hc => hr ((regno_range short).mp hc.2)]
    refine ⟨?_, rfl⟩
    simp only [Outcome.sent, Stub.reply, RegPacket.answer, dif_neg hr]
    rfl

/-- A write that gets as far as its `=` to a number the array has is made with what
follows it, taken as data. -/
theorem writeRegister_parsed {regno : Digits} {data : List UInt8}
    (h : Holds s.inBuffer ptr (regno.chars ++ ascii '=' :: data)) :
    let start := ptr + regno.chars.length + 1
    let r := asInt (UInt32.ofNat regno.value)
    Holds s.inBuffer start data ∧
    s.writeRegister after ptr =
      if 0 ≤ r ∧ r < numRegs then
        (Stub.kvmLoadRegistersFromGdbcache { s with
          registers := s.registers.setIfInBounds r.toNat
            (registerOfBytes (hex2mem (fun i => s.inByte after (start + i)) 8)) }).reply ok
      else s.reply e01 := by
  have hequals : s.inByte after (ptr + regno.chars.length) = ascii '=' :=
    h.drop.byte after (i := 0) (by simp)
  refine ⟨Holds.drop (a := [ascii '=']) h.drop, ?_⟩
  unfold Stub.writeRegister
  rw [h.parse (by simp; decide)]
  dsimp only
  rw [hequals]
  by_cases hr : 0 ≤ asInt (UInt32.ofNat regno.value) ∧ asInt (UInt32.ofNat regno.value) < numRegs
  · rw [if_pos ⟨regno.length_ne_zero, rfl, hr⟩, if_pos hr]
  · rw [if_neg fun hc => hr hc.2.2, if_neg hr]

theorem writeRegister_eq {regno : Digits} (short : regno.chars.length ≤ 8) {data : List UInt8}
    (isHex : data.all isHexDigit = true) (full : data.length = 16)
    (h : Holds s.inBuffer ptr (regno.chars ++ ascii '=' :: data)) :
    s.writeRegister after ptr =
      if regno.value < numRegs then
        (Stub.kvmLoadRegistersFromGdbcache { s with
          registers := s.registers.setIfInBounds regno.value (RegPacket.value data 0) }).reply ok
      else s.reply e01 := by
  obtain ⟨hheld, hwrite⟩ := writeRegister_parsed after h
  rw [hwrite]
  by_cases hr : regno.value < numRegs
  · rw [if_pos ((regno_range short).mpr hr), if_pos hr, regno_toNat hr,
      show (8 : Int) = ((8 : Nat) : Int) from rfl, hex2mem_held after hheld isHex 8 (by omega),
      registerOfBytes_data]
  · rw [if_neg fun hc => hr ((regno_range short).mp hc), if_neg hr]

end

namespace RegPacket

/-- The characters of a register packet: hex digits, the letters and `=`. -/
theorem payload_chars (p : RegPacket) : ∀ ch ∈ p.payload, isHexDigit ch = true ∨
    ch ∈ [ascii 'g', ascii 'G', ascii 'p', ascii 'P', ascii '='] := by
  have hdigits : ∀ {l : List UInt8}, l.all isHexDigit = true → ∀ ch ∈ l, isHexDigit ch = true ∨
      ch ∈ [ascii 'g', ascii 'G', ascii 'p', ascii 'P', ascii '='] :=
    fun hl ch hch => .inl (List.all_eq_true.mp hl ch hch)
  cases p with
  | readAll => simp [payload]
  | writeAll data isHex full =>
    exact List.forall_mem_cons.mpr ⟨.inr (by decide), hdigits isHex⟩
  | read regno short =>
    exact List.forall_mem_cons.mpr ⟨.inr (by decide), hdigits regno.isHex⟩
  | write regno short data isHex full =>
    exact List.forall_mem_cons.mpr ⟨.inr (by decide), List.forall_mem_append.mpr
      ⟨hdigits regno.isHex, List.forall_mem_cons.mpr ⟨.inr (by decide), hdigits isHex⟩⟩⟩

theorem payload_length (p : RegPacket) : p.payload.length ≤ 398 := by
  cases p with
  | readAll => simp [payload]
  | writeAll data isHex full => simp only [payload, List.length_cons]; omega
  | read regno short => simp only [payload, List.length_cons]; omega
  | write regno short data isHex full =>
    simp only [payload, List.length_cons, List.length_append]
    omega

theorem plain (p : RegPacket) : Plain p.payload := by
  have hne : ∀ c, isHexDigit c = false →
      c ∉ [ascii 'g', ascii 'G', ascii 'p', ascii 'P', ascii '='] → ∀ ch ∈ p.payload, ch ≠ c := by
    intro c hc hout ch hch heq
    subst heq
    rcases p.payload_chars ch hch with hhex | hletter
    · rw [hc] at hhex
      exact absurd hhex Bool.false_ne_true
    · exact hout hletter
  refine ⟨p.payload_length, fun ch hch => ?_, fun hthird => ?_⟩
  · exact ⟨hne _ (by decide) (by decide) ch hch, hne _ (by decide) (by decide) ch hch,
      hne _ (by decide) (by decide) ch hch⟩
  · exact hne _ (by decide) (by decide) _ (List.mem_of_getElem? hthird) rfl

end RegPacket

section
variable (after : Nat → UInt8) (sigval : Nat)

/-- All that one packet in the buffer does: the reply, the registers, and the
virtual CPU's reload. -/
theorem handle_spec {s : Stub} (p : RegPacket) (h : Holds s.inBuffer 0 p.payload) :
    (s.handle after sigval 0).sent = some (p.answer s.registers) ∧
    (s.handle after sigval 0).stub = { s with
      registers := p.next s.registers
      reloads := s.reloads ++ p.reloaded s.registers } := by
  cases p with
  | readAll =>
    rw [handle_g after sigval h]
    refine ⟨?_, by simp [Stub.reply, RegPacket.next, RegPacket.reloaded]⟩
    simp only [Outcome.sent, Stub.reply, mem2hex_string, RegPacket.answer]
    exact congrArg some (hexPairs_registers s.registers)
  | writeAll data isHex full =>
    have hdata : Holds s.inBuffer (0 + 1) data := Holds.drop (a := [ascii 'G']) h
    rw [handle_G after sigval h, setRegisters_eq after isHex full hdata]
    exact ⟨rfl, rfl⟩
  | read regno short =>
    have hregno : Holds s.inBuffer (0 + 1) regno.chars := Holds.drop (a := [ascii 'p']) h
    obtain ⟨hsent, hstub⟩ := readRegister_eq short hregno
    rw [handle_p after sigval h]
    exact ⟨hsent, by simp [hstub, RegPacket.next, RegPacket.reloaded]⟩
  | write regno short data isHex full =>
    have hargs : Holds s.inBuffer (0 + 1) (regno.chars ++ ascii '=' :: data) :=
      Holds.drop (a := [ascii 'P']) h
    rw [handle_P after sigval h, writeRegister_eq after short isHex full hargs]
    by_cases hr : regno.value < numRegs
    · simp only [if_pos hr, RegPacket.answer, RegPacket.reloaded, RegPacket.next]
      exact ⟨rfl, rfl⟩
    · -- a number from 24 on names no cell of the array
      have hsame : s.registers.setIfInBounds regno.value (RegPacket.value data 0) = s.registers :=
        Vector.setIfInBounds_eq_of_size_le (Nat.le_of_not_lt hr)
      simp only [if_neg hr, RegPacket.answer, RegPacket.reloaded, RegPacket.next, hsame,
        List.append_nil]
      exact ⟨rfl, rfl⟩

theorem command_spec {s : Stub} (hs : NoSequence s.inBuffer) (p : RegPacket) :
    ∃ stored, NoSequence stored ∧
      s.exchange after sigval p.payload = { s with
        inBuffer := stored
        registers := p.next s.registers
        reloads := s.reloads ++ p.reloaded s.registers } ∧
      s.answer after sigval p.payload = [p.answer s.registers] := by
  obtain ⟨stored, hseq, hheld, hcommand⟩ := command_received after sigval hs p.plain
  obtain ⟨hsent, hstub⟩ := handle_spec after sigval (s := { s with inBuffer := stored }) p hheld
  refine ⟨stored, hseq, ?_, ?_⟩
  · simp only [Stub.exchange, hcommand, Option.map_some, Option.getD_some, hstub]
  · simp only [Stub.answer, hcommand, Option.bind_some, hsent, Option.toList_some]

/-- Over every session of register packets from the start of the connection, the
replies are those of the array of registers and the cache is that array; guest
memory and the other members stay as they are. -/
theorem session_refines (registers : Vector UInt64 numRegs) (extendedRegisters : Vector UInt64 5)
    (memory : Memory) (ps : List RegPacket) :
    let s := Stub.start registers extendedRegisters memory
    let e := run (Stub.exchange after sigval) s (ps.map RegPacket.payload)
    observe (Stub.exchange after sigval) (Stub.answer after sigval) s (ps.map RegPacket.payload) =
      observe RegPacket.next (fun r p => [p.answer r]) registers ps ∧
    e.registers = run RegPacket.next registers ps ∧
    e.memory = memory ∧ e.extendedRegisters = extendedRegisters ∧ e.remoteDebug = false := by
  intro s e
  -- the array, a buffer without a colon in its third cell, and nothing else moves
  let R : Stub → Vector UInt64 numRegs → Prop := fun t r =>
    NoSequence t.inBuffer ∧ t.registers = r ∧ t.memory = memory ∧
    t.extendedRegisters = extendedRegisters ∧ t.remoteDebug = false
  have hstep : ∀ (t : Stub) (r : Vector UInt64 numRegs) (p : RegPacket), True → R t r →
      R (t.exchange after sigval p.payload) (p.next r) ∧
      t.answer after sigval p.payload = [p.answer r] := by
    rintro t r p - ⟨hseq, rfl, hmem, hext, hdebug⟩
    obtain ⟨stored, hstored, hnext, hanswer⟩ := command_spec after sigval hseq p
    rw [hnext]
    exact ⟨⟨hstored, rfl, hmem, hext, hdebug⟩, hanswer⟩
  have hstart : R s registers :=
    ⟨noSequence_start registers extendedRegisters memory, rfl, rfl, rfl, rfl⟩
  obtain ⟨⟨-, hregs, hrest⟩, hobs⟩ := simulation_on (fun _ => True) hstep hstart
    (fun p (_ : p ∈ ps) => trivial)
  rw [run_map RegPacket.payload] at hregs hrest
  rw [observe_map RegPacket.payload (Stub.answer after sigval)] at hobs
  exact ⟨hobs, hregs, hrest⟩

end

end EndlessFault.Gdbserver
