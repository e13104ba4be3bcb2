import Mathlib.Data.Bool.AllAny
import EndlessFault.Gdbserver.Malformed
import EndlessFault.Gdbserver.RegisterCache

/- What the stub sends: the stop packets at the start of
   `gdbserver_handle_exception` and the replies of its command loop. `Sendable` asks
   that a payload fit the receiver's buffer, have no character with a meaning of its
   own in the protocol and not look like a sequence number; `Delivered`, that
   `putpacket` send it in one frame, which `getpacket` reads back.

   All replies are made of hex digits and four letters (`reply_chars`), and the
   longest ones are the 384 digits of the registers, the 398 of the longest memory
   read and of the monitor command (`sent_spec`). Main result: `sent_well_framed`. -/
namespace EndlessFault.Gdbserver
open Lib.Bytes

/-! The stop packets. -/

def sigill : Nat := 4
def sigterm : Nat := 15

/-- A register of the `T` packet: the digits of its number, and its bytes in hex.
The NUL of `mem2hex` is overwritten by the semicolon. -/
def stopRegister (registers : Vector UInt64 numRegs) (number : List UInt8) (r : Amd64Regnum) :
    List UInt8 :=
  number ++ ascii ':' :: (mem2hex (fun i => registerByte registers (8 * r.toNat + i)) 8).dropLast ++
    [ascii ';']

/-- The bytes left in `remcomOutBuffer` before the command loop. -/
def stopPacket (registers : Vector UInt64 numRegs) (sigval : Nat) : List UInt8 :=
  let signo := [hexchars.getD (sigval / 16) 0, hexchars.getD (sigval % 16) 0]
  let digit (r : Amd64Regnum) := hexchars.getD r.toNat 0
  let twoDigits (r : Amd64Regnum) := [hexchars.getD (r.toNat / 16) 0, hexchars.getD (r.toNat % 16) 0]
  if sigval = sigill ∨ sigval = sigterm then ascii 'X' :: signo ++ [0]
  else
    ascii 'T' :: signo ++ stopRegister registers [digit .rsp] .rsp ++
      stopRegister registers [digit .rbp] .rbp ++ stopRegister registers (twoDigits .rip) .rip ++ [0]

/-- The string `putpacket` sends of them. -/
def stopSent (registers : Vector UInt64 numRegs) (sigval : Nat) : List UInt8 :=
  (stopPacket registers sigval).takeWhile (· != 0)

/-! What is asked of a packet. -/

/-- A payload the protocol lets through as it is. -/
structure Sendable (payload : List UInt8) : Prop where
  fits : payload.length ≤ 398
  chars : ∀ ch ∈ payload, ch ≠ ascii '$' ∧ ch ≠ ascii '#' ∧ ch ≠ ascii '}' ∧ ch ≠ ascii '*'
  third : payload[2]? ≠ some (ascii ':')

/-- Once acknowledged, `putpacket` has sent one frame, and `getpacket` makes the
payload of it. -/
structure Delivered (payload : List UInt8) : Prop where
  once : ∀ input, putpacket payload (ascii '+' :: input) = (frame payload, some input)
  back : ∀ buffer, NoSequence buffer → ∃ stored, NoSequence stored ∧ cString stored 0 = payload ∧
    getpacket buffer (frame payload) = ⟨[ascii '+'], stored, some 0, []⟩

theorem Sendable.delivered {payload : List UInt8} (h : Sendable payload)
    (hnul : ∀ ch ∈ payload, ch ≠ 0) : Delivered payload := by
  have hplain : Plain payload :=
    ⟨h.fits, fun ch hch => ⟨(h.chars ch hch).1, (h.chars ch hch).2.1, hnul ch hch⟩, h.third⟩
  refine ⟨?_, ?_⟩
  · intro input
    rw [putpacket, if_pos rfl]
  · intro buffer hbuffer
    obtain ⟨stored, hseq, hstring, hget⟩ := getpacket_frame hbuffer List.not_mem_nil hplain []
    refine ⟨stored, hseq, hstring, ?_⟩
    rw [← hget, List.nil_append, List.append_nil]

/-! The characters of the replies. -/

theorem getD_hexchars_mem {n : Nat} (hn : n < 16) : hexchars.getD n 0 ∈ hexchars := by
  revert n
  decide

theorem mem_hexchars_of_hexPair {b ch : UInt8} (h : ch ∈ hexPair b) : ch ∈ hexchars := by
  have hb := b.toNat_lt
  rcases List.mem_pair.mp h with rfl | rfl
  · exact getD_hexchars_mem (by omega)
  · exact getD_hexchars_mem (by omega)

theorem mem_hexchars_of_hexPairs {mem : Nat → UInt8} {is : List Nat} {ch : UInt8}
    (h : ch ∈ is.flatMap fun i => hexPair (mem i)) : ch ∈ hexchars := by
  obtain ⟨i, -, hi⟩ := List.mem_flatMap.mp h
  exact mem_hexchars_of_hexPair hi

/-- The letters of the fixed replies, beside the hex digits. -/
def replyChars : List UInt8 := hexchars ++ [ascii 'O', ascii 'K', ascii 'E', ascii 'S']

theorem reply_chars {ch : UInt8} (h : ch ∈ replyChars) :
    ch ≠ ascii '$' ∧ ch ≠ ascii '#' ∧ ch ≠ ascii '}' ∧ ch ≠ ascii '*' ∧ ch ≠ ascii ':' ∧ ch ≠ 0 := by
  have hall : ∀ ch ∈ replyChars, ch ≠ ascii '$' ∧ ch ≠ ascii '#' ∧ ch ≠ ascii '}' ∧ ch ≠ ascii '*' ∧
      ch ≠ ascii ':' ∧ ch ≠ 0 := List.all_iff_forall_prop.mp (by decide)
  exact hall ch h

/-- A short string over the reply characters, as `sent_spec` finds every reply. -/
def Reply (payload : List UInt8) : Prop := payload.length ≤ 398 ∧ ∀ ch ∈ payload, ch ∈ replyChars

theorem Reply.sendable {payload : List UInt8} (h : Reply payload) : Sendable payload where
  fits := h.1
  chars ch hch :=
    have hne := reply_chars (h.2 ch hch)
    ⟨hne.1, hne.2.1, hne.2.2.1, hne.2.2.2.1⟩
  third hthird := (reply_chars (h.2 _ (List.mem_of_getElem? hthird))).2.2.2.2.1 rfl

theorem Reply.delivered {payload : List UInt8} (h : Reply payload) : Delivered payload :=
  h.sendable.delivered fun ch hch => (reply_chars (h.2 ch hch)).2.2.2.2.2

theorem reply_hexPairs (mem : Nat → UInt8) {n : Nat} (hn : n ≤ 199) :
    Reply ((List.range n).flatMap fun i => hexPair (mem i)) := by
  refine ⟨?_, ?_⟩
  · rw [length_hexPairs, List.length_range]
    omega
  · intro ch hch
    exact List.mem_append_left _ (mem_hexchars_of_hexPairs hch)

/-! The commands. -/

/-- A command sends one reply, and that is a `Reply`. -/
def Answered (o : Outcome) : Prop := ∃ payload, o.sent = some payload ∧ Reply payload

/-- The fixed replies. -/
theorem answered_fixed {s : Stub} {stored : List UInt8} (h : stored ∈ [ok, e01, e02, [0]]) :
    Answered (s.reply stored) := by
  have hall : ∀ stored ∈ [ok, e01, e02, [0]], (stored.takeWhile (· != 0)).length ≤ 398 ∧
      (stored.takeWhile (· != 0)).all (· ∈ replyChars) := List.all_iff_forall_prop.mp (by decide)
  obtain ⟨hlen, hchars⟩ := hall stored h
  exact ⟨_, rfl, hlen, List.all_iff_forall_prop.mp hchars⟩

theorem answered_mem2hex (s : Stub) (mem : Nat → UInt8) {count : Int} (h : count ≤ 199) :
    Answered (s.reply (mem2hex mem count)) :=
  ⟨_, rfl, by rw [mem2hex_string]; exact reply_hexPairs mem (by omega)⟩

theorem answered_ite {c : Prop} [Decidable c] {o o' : Outcome} (ht : c → Answered o)
    (hf : ¬ c → Answered o') : Answered (if c then o else o') := by
  by_cases hc : c
  · rw [if_pos hc]
    exact ht hc
  · rw [if_neg hc]
    exact hf hc

section
variable (after : Nat → UInt8) {sigval : Nat} {s : Stub} {ptr : Nat}

theorem answered_signal (s : Stub) (hsig : sigval < 256) :
    Answered (s.reply [ascii 'S', hexchars.getD (sigval / 16) 0, hexchars.getD (sigval % 16) 0, 0]) := by
  have h1 := getD_hexchars_mem (show sigval / 16 < 16 by omega)
  have h2 := getD_hexchars_mem (show sigval % 16 < 16 by omega)
  generalize hexchars.getD (sigval / 16) 0 = a at h1 ⊢
  generalize hexchars.getD (sigval % 16) 0 = b at h2 ⊢
  have hne : ∀ ch ∈ hexchars, ch ≠ 0 := List.all_iff_forall_prop.mp (by decide)
  refine ⟨[ascii 'S', a, b], ?_, by simp, ?_⟩
  · simp [Outcome.sent, Stub.reply, hne a h1, hne b h2, show ascii 'S' ≠ 0 by decide]
  · intro ch hch
    rcases List.mem_cons.mp hch with rfl | hch
    · decide
    · rcases List.mem_pair.mp hch with rfl | rfl
      · exact List.mem_append_left _ h1
      · exact List.mem_append_left _ h2

theorem answered_monitor (s : Stub) (ptr : Nat) : Answered (s.advancedCommand after ptr) := by
  unfold Stub.advancedCommand
  apply answered_ite
  · intro _
    apply answered_mem2hex
    -- `snprintf` was given 200 bytes
    have hcut : s.privilegedRegisters.length ≤ 199 := List.length_take_le ..
    omega
  · intro _
    exact answered_fixed (by decide)

/-- A read that finds both numbers sends the bytes of the length it found. -/
theorem answered_read {args : List UInt8} (h : Holds s.inBuffer ptr args)
    (hshort : ∀ (addr len : Digits) (rest : List UInt8),
      args = addr.chars ++ ascii ',' :: (len.chars ++ rest) →
      (∀ ch ∈ rest.head?, isHexDigit ch = false) → len.value ≤ 199) :
    Answered (s.readMemory after ptr) := by
  unfold Stub.readMemory
  dsimp only
  apply answered_ite
  · intro hparts
    obtain ⟨hsome, hcomma, hlength⟩ := hparts
    obtain ⟨addr, rest, hargs⟩ := number_then after (by decide) h hsome hcomma
    rw [hargs] at h
    rw [h.parse (by simp; decide)] at hlength ⊢
    have hrest : Holds s.inBuffer (ptr + addr.chars.length + 1) rest :=
      Holds.drop (a := [ascii ',']) h.drop
    obtain ⟨len, tail, hlen, hstop, hparse⟩ := number_found hrest hlength
    have hvalue := hshort addr len tail (by rw [hargs, hlen]) hstop
    have hcount : asInt (UInt32.ofNat len.value) ≤ 199 := by
      rw [asInt_ofNat (by omega)]
      omega
    dsimp only
    rw [hparse]
    exact answered_mem2hex s _ hcount
  · intro _
    exact answered_fixed (by decide)

theorem answered_write (s : Stub) (ptr : Nat) : Answered (s.writeMemory after ptr) := by
  unfold Stub.writeMemory
  dsimp only
  apply answered_ite
  · intro _
    have hok : Answered (s.reply ok) := answered_fixed (by decide)
    exact hok
  · intro _
    exact answered_fixed (by decide)

/-- The one reply to a command that does not end the loop. -/
theorem sent_spec (hsig : sigval < 256) {payload : List UInt8} (h : Holds s.inBuffer ptr payload)
    (hcommand : ∀ c ∈ payload.head?, c ≠ ascii 's' ∧ c ≠ ascii 'c' ∧ c ≠ ascii 'k')
    (hshort : ∀ (addr len : Digits) (rest : List UInt8),
      payload = ascii 'm' :: (addr.chars ++ ascii ',' :: (len.chars ++ rest)) →
      (∀ ch ∈ rest.head?, isHexDigit ch = false) → len.value ≤ 199) :
    Answered (s.handle after sigval ptr) := by
  have hends : ∀ c, c ∈ [ascii 's', ascii 'c', ascii 'k'] → s.inByte after ptr ≠ c := by
    intro c hc hbyte
    obtain ⟨args, rfl⟩ := h.first after (fun h0 => absurd (h0 ▸ hc) (by decide)) hbyte
    have hne := hcommand c rfl
    simp only [List.mem_cons, List.not_mem_nil, or_false] at hc
    rcases hc with rfl | rfl | rfl
    · exact hne.1 rfl
    · exact hne.2.1 rfl
    · exact hne.2.2 rfl
  unfold Stub.handle
  apply answered_ite (fun _ => answered_monitor after s ptr)
  intro _
  dsimp only
  apply answered_ite (fun _ => answered_signal s hsig)
  intro _
  apply answered_ite (fun _ => answered_fixed (by decide))
  intro _
  apply answered_ite (fun _ => answered_mem2hex s _ (by decide))
  intro _
  apply answered_ite (fun _ => answered_fixed (by decide))
  intro _
  apply answered_ite (fun _ => answered_ite (fun _ => answered_mem2hex s _ (by decide))
    fun _ => answered_fixed (by decide))
  intro _
  apply answered_ite (fun _ => answered_ite (fun _ => answered_fixed (by decide))
    fun _ => answered_fixed (by decide))
  intro _
  refine answered_ite (fun hm => ?_) fun _ => ?_
  · obtain ⟨args, rfl⟩ := h.first after (by decide) hm
    exact answered_read after (Holds.drop (a := [ascii 'm']) h)
      fun addr len rest hargs => hshort addr len rest (by rw [hargs])
  apply answered_ite (fun _ => answered_write after s (ptr + 1))
  intro _
  apply answered_ite (fun hs => absurd hs (hends _ (by decide)))
  intro _
  apply answered_ite (fun hc => absurd hc (hends _ (by decide)))
  intro _
  apply answered_ite (fun hk => absurd hk (hends _ (by decide)))
  intro _
  exact answered_fixed (by decide)

end

/-! The stop packets. -/

theorem mem_stopRegister {registers : Vector UInt64 numRegs} {number : List UInt8} {r : Amd64Regnum}
    (hnumber : ∀ ch ∈ number, ch ∈ hexchars) :
    ∀ ch ∈ stopRegister registers number r, ch ∈ hexchars ++ [ascii ':', ascii ';'] := by
  intro ch hch
  rw [stopRegister, mem2hex, List.dropLast_concat] at hch
  simp only [List.mem_append, List.mem_cons, List.not_mem_nil, or_false] at hch ⊢
  rcases hch with (hch | rfl | hch) | rfl
  · exact .inl (hnumber ch hch)
  · exact .inr (.inl rfl)
  · exact .inl (mem_hexchars_of_hexPairs hch)
  · exact .inr (.inr rfl)

theorem length_stopRegister (registers : Vector UInt64 numRegs) (number : List UInt8)
    (r : Amd64Regnum) : (stopRegister registers number r).length = number.length + 18 := by
  rw [stopRegister, mem2hex, List.dropLast_concat]
  simp only [List.length_append, List.length_cons, List.length_nil, length_hexPairs, List.length_range,
    show (8 : Int).toNat = 8 from rfl]

def stopChars : List UInt8 := hexchars ++ [ascii 'T', ascii 'X', ascii ':', ascii ';']

theorem stop_chars {ch : UInt8} (h : ch ∈ stopChars) :
    ch ≠ ascii '$' ∧ ch ≠ ascii '#' ∧ ch ≠ ascii '}' ∧ ch ≠ ascii '*' ∧ ch ≠ 0 := by
  have hall : ∀ ch ∈ stopChars, ch ≠ ascii '$' ∧ ch ≠ ascii '#' ∧ ch ≠ ascii '}' ∧ ch ≠ ascii '*' ∧
      ch ≠ 0 := List.all_iff_forall_prop.mp (by decide)
  exact hall ch h

/-- The stored bytes are a string over the stop characters and a NUL. The third
character is the second digit of the signal. -/
theorem stopPacket_spec (registers : Vector UInt64 numRegs) {sigval : Nat} (hsig : sigval < 256) :
    ∃ body, stopPacket registers sigval = body ++ [0] ∧ body.length ≤ 398 ∧
      (∀ ch ∈ body, ch ∈ stopChars) ∧ body[2]? = some (hexchars.getD (sigval % 16) 0) := by
  have h1 := getD_hexchars_mem (show sigval / 16 < 16 by omega)
  have h2 := getD_hexchars_mem (show sigval % 16 < 16 by omega)
  have hdigit : ∀ {ch}, ch ∈ hexchars → ch ∈ stopChars := List.mem_append_left _
  have hregister : ∀ ch ∈ hexchars ++ [ascii ':', ascii ';'], ch ∈ stopChars :=
    List.all_iff_forall_prop.mp (by decide)
  have hsp : ∀ ch ∈ [hexchars.getD Amd64Regnum.rsp.toNat 0], ch ∈ hexchars :=
    List.all_iff_forall_prop.mp (by decide)
  have hbp : ∀ ch ∈ [hexchars.getD Amd64Regnum.rbp.toNat 0], ch ∈ hexchars :=
    List.all_iff_forall_prop.mp (by decide)
  have hip : ∀ ch ∈ [hexchars.getD (Amd64Regnum.rip.toNat / 16) 0,
      hexchars.getD (Amd64Regnum.rip.toNat % 16) 0], ch ∈ hexchars :=
    List.all_iff_forall_prop.mp (by decide)
  unfold stopPacket
  dsimp only
  split_ifs with hkill
  · refine ⟨_, rfl, by simp, ?_, rfl⟩
    intro ch hch
    simp only [List.mem_cons, List.not_mem_nil, or_false] at hch
    rcases hch with rfl | rfl | rfl
    · decide
    · exact hdigit h1
    · exact hdigit h2
  · refine ⟨_, rfl, ?_, ?_, rfl⟩
    · simp only [List.length_append, List.length_cons, List.length_nil, length_stopRegister]
      omega
    · intro ch hch
      simp only [List.mem_append, List.mem_cons, List.not_mem_nil, or_false] at hch
      rcases hch with (((rfl | rfl | rfl) | hch) | hch) | hch
      · decide
      · exact hdigit h1
      · exact hdigit h2
      · exact hregister ch (mem_stopRegister hsp ch hch)
      · exact hregister ch (mem_stopRegister hbp ch hch)
      · exact hregister ch (mem_stopRegister hip ch hch)

theorem stop_well_framed (registers : Vector UInt64 numRegs) {sigval : Nat} (hsig : sigval < 256) :
    Sendable (stopSent registers sigval) ∧ Delivered (stopSent registers sigval) := by
  obtain ⟨body, hstored, hlen, hchars, hthird⟩ := stopPacket_spec registers hsig
  have hne : ∀ ch ∈ body, (ch != 0) = true := fun ch hch => by simpa using (stop_chars (hchars ch hch)).2.2.2.2
  have hsent : stopSent registers sigval = body := by
    rw [stopSent, hstored, List.takeWhile_append_of_pos hne]
    simp
  have hdigit : ∀ ch ∈ hexchars, ch ≠ ascii ':' := List.all_iff_forall_prop.mp (by decide)
  have hsendable : Sendable body := by
    refine ⟨hlen, fun ch hch => ?_, ?_⟩
    · have hch := stop_chars (hchars ch hch)
      exact ⟨hch.1, hch.2.1, hch.2.2.1, hch.2.2.2.1⟩
    · rw [hthird]
      intro hcolon
      exact hdigit _ (getD_hexchars_mem (by omega)) (Option.some.inj hcolon)
  rw [hsent]
  exact ⟨hsendable, hsendable.delivered fun ch hch => (stop_chars (hchars ch hch)).2.2.2.2⟩

/-- In every state of the stub, for every packet but `s`, `c` and `k` (and for reads of
at most 199 bytes), one reply is sent, well framed; and so are the stop packets of
every signal. -/
theorem sent_well_framed (after : Nat → UInt8) {sigval : Nat} (hsig : sigval < 256) :
    (∀ (s : Stub) (ptr : Nat) (payload : List UInt8), Holds s.inBuffer ptr payload →
      (∀ c ∈ payload.head?, c ≠ ascii 's' ∧ c ≠ ascii 'c' ∧ c ≠ ascii 'k') →
      (∀ (addr len : Digits) (rest : List UInt8),
        payload = ascii 'm' :: (addr.chars ++ ascii ',' :: (len.chars ++ rest)) →
        (∀ ch ∈ rest.head?, isHexDigit ch = false) → len.value ≤ 199) →
      ∃ reply, (s.handle after sigval ptr).sent = some reply ∧ Sendable reply ∧ Delivered reply) ∧
    ∀ registers, Sendable (stopSent registers sigval) ∧ Delivered (stopSent registers sigval) := by
  refine ⟨fun s ptr payload h hcommand hshort => ?_, fun registers => stop_well_framed registers hsig⟩
  obtain ⟨reply, hsent, hreply⟩ := sent_spec after hsig h hcommand hshort
  exact ⟨reply, hsent, hreply.sendable, hreply.delivered⟩

/-- The query `?` after a `SIGTRAP`. -/
theorem sent_well_framed_query :
    let s := receivedStub [ascii '?'] (by decide)
    (s.handle (fun _ => 0) 5 0).sent = some [ascii 'S', ascii '0', ascii '5'] ∧
    (∃ reply, (s.handle (fun _ => 0) 5 0).sent = some reply ∧ Sendable reply ∧ Delivered reply) ∧
    Sendable (stopSent s.registers 5) ∧ Delivered (stopSent s.registers 5) := by
  intro s
  obtain ⟨hcommands, hstop⟩ := sent_well_framed (fun _ => 0) (show 5 < 256 by decide)
  refine ⟨by decide +kernel, ?_, hstop s.registers⟩
  apply hcommands s 0 [ascii '?'] (receivedStub_holds _ _)
  · intro c hc
    obtain rfl : ascii '?' = c := by simpa using hc
    decide
  · intro addr len rest hpayload
    exact absurd (List.cons.inj hpayload).1 (by decide)

end EndlessFault.Gdbserver
