import EndlessFault.Gdbserver.LineErrors
import EndlessFault.Gdbserver.SentPackets

/- One stop of the guest, from the stop packet to the packet that lets the guest go on
   (`gdbserver_handle_exception` as a whole). The characters the client sends are the input, the characters
   the stub sends and the state it leaves are the result.

   The loop reads a packet, handles it and sends the reply until it is accepted. `Command` are the
   packets of a client with their meaning on the registers and the memory alone, without buffers and
   characters, and `Turn` is a command with everything the line may add to it. Over every list of turns each
   command has its effect once, in order, however often it had to be sent and its reply had to be sent
   again. Main result: `session_exactly_once`. -/
namespace EndlessFault.Gdbserver
open Lib.Machine Lib.Bytes

/-- How a call of `gdbserver_handle_exception` ends: it waits for a character, it lets the guest go on, with the
argument of `kvm_debug_set_step`, it ends the monitor, or it has closed the connection. -/
inductive Ended where
  | waiting
  | resumed (step : Bool)
  | killed
  | stopped
  deriving DecidableEq, Repr

/-- What a call does on some input: the characters it sends, the stub, and the input it has not read. -/
structure Call where
  out : List UInt8
  stub : Stub
  ended : Ended
  rest : List UInt8

def Call.after (c : Call) (sent : List UInt8) : Call := { c with out := sent ++ c.out }

/-! The input gets shorter. -/

theorem scan_rest_le (buffer : PacketBuffer) (w : Waiting) (input : List UInt8) :
    (scan buffer w input).rest.length ≤ input.length := by
  induction input generalizing buffer w with
  | nil => exact Nat.le_refl 0
  | cons ch input ih =>
    have hlater : ∀ buffer w, (scan buffer w input).rest.length ≤ (ch :: input).length :=
      fun buffer w => Nat.le_succ_of_le (ih buffer w)
    cases w with
    | start =>
      rw [scan]
      split
      · exact hlater _ _
      · exact hlater _ _
    | body count checksum =>
      rw [scan]
      split
      · exact hlater _ _
      · split
        · exact hlater _ _
        · dsimp only
          split
          · exact hlater _ _
          · exact hlater _ _
    | sum1 checksum => exact hlater _ _
    | sum2 checksum xmitcsum =>
      rw [scan]
      split
      · exact hlater _ _
      · split
        · exact Nat.le_succ _
        · exact Nat.le_succ _

theorem putpacket_rest_lt {payload input rest : List UInt8} (h : (putpacket payload input).2 = some rest) :
    rest.length < input.length := by
  induction input with
  | nil => exact absurd h (by simp [putpacket])
  | cons ch input ih =>
    rw [putpacket] at h
    by_cases hch : ch = ascii '+'
    · rw [if_pos hch] at h
      obtain rfl := Option.some.inj h
      exact Nat.lt_succ_self _
    · rw [if_neg hch] at h
      exact Nat.lt_succ_of_lt (ih h)

/-! The call. -/

section
variable (after : Nat → UInt8) (sigval : Nat)

/-- The loop over the commands. -/
def commands (s : Stub) (input : List UInt8) : Call :=
  let r := getpacket s.inBuffer input
  match r.ptr with
  | none => ⟨r.out, { s with inBuffer := r.buffer }, .waiting, r.rest⟩
  | some ptr =>
    let o := Stub.handle after sigval { s with inBuffer := r.buffer } ptr
    match o.action with
    | .resume step => ⟨r.out, o.stub, .resumed step, r.rest⟩
    | .kill => ⟨r.out, o.stub, .killed, r.rest⟩
    | .reply stored =>
      let p := putpacket (stored.takeWhile (· != 0)) r.rest
      match _ : p.2 with
      | none => ⟨r.out ++ p.1, o.stub, .waiting, []⟩
      | some rest => (commands o.stub rest).after (r.out ++ p.1)
termination_by input.length
decreasing_by
  rename_i hput
  exact Nat.lt_of_lt_of_le (putpacket_rest_lt hput) (scan_rest_le s.inBuffer .start input)

def gdbserverHandleException (s : Stub) (input : List UInt8) : Call :=
  let p := putpacket (stopSent s.registers sigval) input
  match p.2 with
  | none => ⟨p.1, s, .waiting, []⟩
  | some rest =>
    if sigval = sigill ∨ sigval = sigterm then ⟨p.1, s, .stopped, rest⟩
    else (commands after sigval s rest).after p.1

/-! One round of the loop. -/

variable {after sigval} {s : Stub} {input rest : List UInt8} {stored : PacketBuffer} {answered : List UInt8}

theorem commands_reply (hget : getpacket s.inBuffer input = ⟨answered, stored, some 0, rest⟩) {reply : List UInt8}
    (hsent : (Stub.handle after sigval { s with inBuffer := stored } 0).sent = some reply) {sent rest' : List UInt8}
    (hput : putpacket reply rest = (sent, some rest')) :
    commands after sigval s input =
      (commands after sigval (Stub.handle after sigval { s with inBuffer := stored } 0).stub rest').after
        (answered ++ sent) := by
  rw [commands]
  simp only [hget]
  generalize Stub.handle after sigval { s with inBuffer := stored } 0 = o at hsent ⊢
  cases haction : o.action with
  | reply bytes =>
    obtain rfl : bytes.takeWhile (· != 0) = reply := by simpa [Outcome.sent, haction] using hsent
    simp only
    split
    · rename_i hnone
      simp only [hget, hput] at hnone
      exact absurd hnone (by simp)
    · rename_i r hsome
      simp only [hget, hput] at hsome
      obtain rfl := Option.some.inj hsome
      rw [hput]
  | _ => exact absurd hsent (by simp [Outcome.sent, haction])

theorem commands_end (hget : getpacket s.inBuffer input = ⟨answered, stored, some 0, rest⟩) {action : Action} {ended : Ended}
    (hhandle : Stub.handle after sigval { s with inBuffer := stored } 0 = { stub := { s with inBuffer := stored }, action })
    (hended : (∃ step, action = .resume step ∧ ended = .resumed step) ∨ action = .kill ∧ ended = .killed) :
    commands after sigval s input = ⟨answered, { s with inBuffer := stored }, ended, rest⟩ := by
  rw [commands]
  simp only [hget, hhandle]
  rcases hended with ⟨step, rfl, rfl⟩ | ⟨rfl, rfl⟩ <;> rfl

end

/-! The commands of a client. -/

theorem flatMap_getD (l : List UInt8) (f : UInt8 → List UInt8) :
    ((List.range l.length).flatMap fun i => f (l.getD i 0)) = l.flatMap f := by
  have hl : (List.range l.length).map (fun i => l.getD i 0) = l := by
    apply List.ext_getElem?
    intro i
    by_cases hi : i < l.length
    · simp [hi]
    · simp [Nat.le_of_not_lt hi]
  rw [← List.flatMap_map, hl]

/-- A well-formed packet that is answered. -/
inductive Command where
  | query
  | toggle
  | monitor
  | register (p : RegPacket)
  | memory (p : MemPacket)

namespace Command

/-- `regs` in hex. -/
def regsDigits : List UInt8 := ['7', '2', '6', '5', '6', '7', '7', '3'].map ascii

def payload : Command → List UInt8
  | query => [ascii '?']
  | toggle => [ascii 'd']
  | monitor => Stub.qRcmd ++ regsDigits
  | register p => p.payload
  | memory p => p.payload

/-- What it changes. -/
def next (s : Stub) : Command → Stub
  | toggle => { s with remoteDebug := !s.remoteDebug }
  | register p => { s with
      registers := p.next s.registers
      reloads := s.reloads ++ p.reloaded s.registers }
  | memory (.write addr len data _ _) => { s with
      memory := fun x => if (addr.value : Int) ≤ x ∧ x < addr.value + len.value
        then MemPacket.dataByte data (x - addr.value).toNat else s.memory x }
  | _ => s

/-- What it is answered. -/
def reply (sigval : Nat) (s : Stub) : Command → List UInt8
  | query => [ascii 'S', hexchars.getD (sigval / 16) 0, hexchars.getD (sigval % 16) 0]
  | toggle => []
  | monitor => s.privilegedRegisters.flatMap hexPair
  | register p => p.answer s.registers
  | memory (.read addr len) => (List.range len.value).flatMap fun i : Nat => hexPair (s.memory (addr.value + i))
  | memory (.write ..) => [ascii 'O', ascii 'K']

/-- A range of memory lies in the guest, and what is read of it fits a reply. -/
def Ok (memSize : UInt32) : Command → Prop
  | memory p => p.InGuest (guestPhysicalMemorySize memSize).toNat ∧ p.ReplyFits
  | _ => True

/-- The buffer is of no account to a command. -/
theorem next_inBuffer (s : Stub) (buffer : PacketBuffer) (c : Command) :
    c.next { s with inBuffer := buffer } = { c.next s with inBuffer := buffer } := by
  cases c with
  | memory p => cases p <;> rfl
  | _ => rfl

theorem reply_inBuffer (sigval : Nat) (s : Stub) (buffer : PacketBuffer) (c : Command) :
    c.reply sigval { s with inBuffer := buffer } = c.reply sigval s := by
  cases c with
  | memory p => cases p <;> rfl
  | _ => rfl

end Command

section
variable (after : Nat → UInt8) {sigval : Nat} {s : Stub}

theorem handle_query (hsig : sigval < 256) (h : Holds s.inBuffer 0 Command.query.payload) :
    (s.handle after sigval 0).sent = some (Command.query.reply sigval s) ∧ (s.handle after sigval 0).stub = s := by
  have hhandle : s.handle after sigval 0 =
      s.reply [ascii 'S', hexchars.getD (sigval / 16) 0, hexchars.getD (sigval % 16) 0, 0] := by
    obtain ⟨hq, hletter⟩ := letter_facts after h (by decide) (by decide)
    simp only [Stub.handle, hq, hletter]
    rfl
  have hdigit : ∀ n, n < 16 → hexchars.getD n 0 ≠ 0 := by decide
  have hhigh := hdigit (sigval / 16) (by omega)
  have hlow := hdigit (sigval % 16) (by omega)
  have hletter : ascii 'S' ≠ 0 := by decide
  rw [hhandle]
  refine ⟨?_, rfl⟩
  simp only [Outcome.sent, Stub.reply, Command.reply, Option.some.injEq]
  rw [List.takeWhile_cons_of_pos (by simpa using hletter), List.takeWhile_cons_of_pos (by simpa using hhigh),
    List.takeWhile_cons_of_pos (by simpa using hlow), List.takeWhile_cons_of_neg (by simp)]

theorem handle_toggle (h : Holds s.inBuffer 0 Command.toggle.payload) :
    (s.handle after sigval 0).sent = some (Command.toggle.reply sigval s) ∧
    (s.handle after sigval 0).stub = Command.toggle.next s := by
  have hhandle : s.handle after sigval 0 = Stub.reply { s with remoteDebug := !s.remoteDebug } [0] := by
    obtain ⟨hq, hletter⟩ := letter_facts after h (by decide) (by decide)
    simp only [Stub.handle, hq, hletter]
    rfl
  rw [hhandle]
  exact ⟨rfl, rfl⟩

/-- The privileged registers. -/
theorem handle_monitor (h : Holds s.inBuffer 0 Command.monitor.payload) :
    (s.handle after sigval 0).sent = some (Command.monitor.reply sigval s) ∧ (s.handle after sigval 0).stub = s := by
  have hdigits : Holds s.inBuffer (0 + Stub.qRcmd.length) Command.regsDigits := h.drop
  have hname : hex2mem (fun i => s.inByte after (0 + Stub.qRcmd.length + i)) 4 =
      (List.range 4).map (MemPacket.dataByte Command.regsDigits) := hex2mem_held after hdigits (by decide) 4 (by decide)
  have hregs : ((List.range 4).map (MemPacket.dataByte Command.regsDigits)).takeWhile (· != 0) = Stub.regs := by decide
  have hprefix : Stub.qRcmd.isPrefixOf (cString s.inBuffer 0) = true := by
    obtain ⟨rest, hrest⟩ := h
    have hne : ∀ ch ∈ Command.monitor.payload, (ch != 0) = true := List.all_eq_true.mp (by decide)
    rw [cString, hrest, List.takeWhile_append_of_pos hne]
    simp [Command.payload, List.isPrefixOf_iff_prefix]
  have hhandle : s.handle after sigval 0 =
      s.reply (mem2hex (fun i => s.privilegedRegisters.getD i 0) s.privilegedRegisters.length) := by
    rw [Stub.handle, if_pos hprefix, Stub.advancedCommand]
    dsimp only
    rw [hname, if_pos hregs]
  rw [hhandle]
  refine ⟨?_, rfl⟩
  simp only [Outcome.sent, Stub.reply, Command.reply, mem2hex_string, Int.toNat_natCast, Option.some.injEq]
  exact flatMap_getD _ _

/-- All that a command in the buffer does. -/
theorem handle_command (hsig : sigval < 256) {memSize : UInt32} {c : Command} (hc : c.Ok memSize)
    (h : Holds s.inBuffer 0 c.payload) :
    (s.handle after sigval 0).sent = some (c.reply sigval s) ∧ (s.handle after sigval 0).stub = c.next s := by
  cases c with
  | query => exact handle_query after hsig h
  | toggle => exact handle_toggle after h
  | monitor => exact handle_monitor after h
  | register p => exact handle_spec after sigval p h
  | memory p =>
    have hserved := served after sigval memSize p h hc.1 hc.2
    cases p with
    | read addr len => exact hserved
    | write addr len data isHex full =>
      obtain ⟨hsent, hstub, hmemory⟩ := hserved
      refine ⟨hsent, ?_⟩
      rw [hstub]
      exact congrArg (fun memory => { s with memory }) (funext hmemory)

end

/-- A packet that ends the stop, with what follows its letter. -/
inductive Ending where
  | step (args : List UInt8)
  | cont (args : List UInt8)
  | kill (args : List UInt8)

namespace Ending

def payload : Ending → List UInt8
  | step args => ascii 's' :: args
  | cont args => ascii 'c' :: args
  | kill args => ascii 'k' :: args

def ended : Ending → Ended
  | step _ => .resumed true
  | cont _ => .resumed false
  | kill _ => .killed

end Ending

/-- The address behind `s` or `c` is not looked at. -/
theorem handle_ending (after : Nat → UInt8) (sigval : Nat) {s : Stub} {e : Ending} (h : Holds s.inBuffer 0 e.payload) :
    ∃ action, s.handle after sigval 0 = { stub := s, action } ∧
      ((∃ step, action = .resume step ∧ e.ended = .resumed step) ∨ action = .kill ∧ e.ended = .killed) := by
  cases e with
  | step args =>
    obtain ⟨hq, hletter⟩ := letter_facts after h (by decide) (by decide)
    refine ⟨.resume true, ?_, .inl ⟨true, rfl, rfl⟩⟩
    simp only [Stub.handle, hq, hletter]
    rfl
  | cont args =>
    obtain ⟨hq, hletter⟩ := letter_facts after h (by decide) (by decide)
    refine ⟨.resume false, ?_, .inl ⟨false, rfl, rfl⟩⟩
    simp only [Stub.handle, hq, hletter]
    rfl
  | kill args =>
    obtain ⟨hq, hletter⟩ := letter_facts after h (by decide) (by decide)
    refine ⟨.kill, ?_, .inr ⟨rfl, rfl⟩⟩
    simp only [Stub.handle, hq, hletter]
    rfl

/-! Turns. -/

/-- A command with what the line makes of it: the damaged frames before it arrives, and the characters with
which its reply is refused. -/
structure Turn where
  command : Command
  stray : List UInt8
  damages : List Damage
  refusals : List UInt8

namespace Turn

def offered (t : Turn) : Offered := ⟨t.stray, t.damages, t.command.payload⟩

/-- What the client sends. -/
def chars (t : Turn) : List UInt8 := t.offered.chars ++ t.refusals ++ [ascii '+']

/-- What it receives. -/
def received (sigval : Nat) (s : Stub) (t : Turn) : List UInt8 :=
  t.offered.answer ++ resent (t.command.reply sigval s) t.refusals

def next (s : Stub) (t : Turn) : Stub := t.command.next s

structure Ok (memSize : UInt32) (t : Turn) : Prop where
  offered : t.offered.Ok
  command : t.command.Ok memSize
  refusals : ascii '+' ∉ t.refusals

end Turn

/-- The buffer is of no account to the turns. -/
theorem run_inBuffer (sigval : Nat) (s : Stub) (buffer : PacketBuffer) (turns : List Turn) :
    run Turn.next { s with inBuffer := buffer } turns = { run Turn.next s turns with inBuffer := buffer } ∧
    observe Turn.next (Turn.received sigval) { s with inBuffer := buffer } turns =
      observe Turn.next (Turn.received sigval) s turns := by
  induction turns generalizing s with
  | nil => exact ⟨rfl, rfl⟩
  | cons t turns ih =>
    have hnext : t.next { s with inBuffer := buffer } = { t.next s with inBuffer := buffer } :=
      Command.next_inBuffer s buffer t.command
    have hreceived : t.received sigval { s with inBuffer := buffer } = t.received sigval s :=
      congrArg (fun reply => t.offered.answer ++ resent reply t.refusals) (Command.reply_inBuffer sigval s buffer t.command)
    obtain ⟨hrun, hobs⟩ := ih (t.next s)
    rw [run_cons, run_cons, observe_cons, observe_cons, hnext, hreceived]
    exact ⟨hrun, congrArg (t.received sigval s ++ ·) hobs⟩

/-- The packet that ends the stop, behind damaged frames. -/
structure Last where
  ending : Ending
  stray : List UInt8
  damages : List Damage

def Last.offered (l : Last) : Offered := ⟨l.stray, l.damages, l.ending.payload⟩

section
variable (after : Nat → UInt8) {sigval : Nat} (hsig : sigval < 256) {memSize : UInt32}
include hsig

/-- One turn. -/
theorem commands_turn {s : Stub} (hs : NoSequence s.inBuffer) {t : Turn} (ht : t.Ok memSize) (input : List UInt8) :
    ∃ stored, NoSequence stored ∧
      commands after sigval s (t.chars ++ input) =
        (commands after sigval { t.next s with inBuffer := stored } input).after (t.received sigval s) := by
  obtain ⟨stored, hseq, hheld, hget⟩ := getpacket_offered hs ht.offered (t.refusals ++ ascii '+' :: input)
  have hchars : t.chars ++ input = t.offered.chars ++ (t.refusals ++ ascii '+' :: input) := by simp [Turn.chars]
  obtain ⟨hsent, hstub⟩ := handle_command after (s := { s with inBuffer := stored }) hsig ht.command hheld
  have hput := putpacket_refused (t.command.reply sigval { s with inBuffer := stored }) ht.refusals input
  refine ⟨stored, hseq, ?_⟩
  rw [hchars, commands_reply hget hsent hput, hstub, Command.reply_inBuffer, Command.next_inBuffer]
  rfl

/-- A list of turns and the packet that ends the stop. -/
theorem commands_turns {turns : List Turn} (hturns : ∀ t ∈ turns, t.Ok memSize) {last : Last} (hlast : last.offered.Ok)
    {s : Stub} (hs : NoSequence s.inBuffer) (later : List UInt8) :
    ∃ stored, NoSequence stored ∧
      commands after sigval s (turns.flatMap Turn.chars ++ last.offered.chars ++ later) =
        ⟨observe Turn.next (Turn.received sigval) s turns ++ last.offered.answer,
         { run Turn.next s turns with inBuffer := stored }, last.ending.ended, later⟩ := by
  induction turns generalizing s with
  | nil =>
    obtain ⟨stored, hseq, hheld, hget⟩ := getpacket_offered hs hlast later
    obtain ⟨action, hhandle, hended⟩ := handle_ending after sigval (s := { s with inBuffer := stored }) hheld
    exact ⟨stored, hseq, commands_end hget hhandle hended⟩
  | cons t turns ih =>
    obtain ⟨held, hheld, hturn⟩ := commands_turn after hsig hs (hturns t List.mem_cons_self)
      (turns.flatMap Turn.chars ++ last.offered.chars ++ later)
    obtain ⟨stored, hseq, hrest⟩ := ih (fun t ht => hturns t (List.mem_cons_of_mem _ ht))
      (s := { t.next s with inBuffer := held }) hheld
    refine ⟨stored, hseq, ?_⟩
    rw [List.flatMap_cons, List.append_assoc, List.append_assoc, ← List.append_assoc (turns.flatMap _), hturn, hrest]
    -- later turns do not see the buffer that this one leaves
    obtain ⟨hrun, hobs⟩ := run_inBuffer sigval (t.next s) held turns
    rw [hrun, hobs, observe_cons, run_cons, List.append_assoc]
    rfl

end

/-- For every state of the stub whose buffer has no colon in its third cell, every signal but the two that end
the guest, every list of well-formed commands, whatever damaged frames without a colon in third place come before
each and however often each reply and the stop packet are refused, and every packet that ends the stop: the stub,
but for its buffer, changes as the commands change it, each once and in order; the client receives the stop
packet, for each command the answers to its damaged frames, one `+` and its reply, and one `+` for the last packet;
and nothing behind that packet is read. -/
theorem session_exactly_once (after : Nat → UInt8) {sigval : Nat} (hsig : sigval < 256)
    (halive : sigval ≠ sigill ∧ sigval ≠ sigterm) {memSize : UInt32} {s : Stub} (hs : NoSequence s.inBuffer)
    {refusals : List UInt8} (hrefusals : ascii '+' ∉ refusals) {turns : List Turn} (hturns : ∀ t ∈ turns, t.Ok memSize)
    {last : Last} (hlast : last.offered.Ok) (later : List UInt8) :
    ∃ stored, NoSequence stored ∧
      gdbserverHandleException after sigval s
          (refusals ++ ascii '+' :: (turns.flatMap Turn.chars ++ last.offered.chars ++ later)) =
        { out := resent (stopSent s.registers sigval) refusals ++
            (observe Turn.next (Turn.received sigval) s turns ++ last.offered.answer)
          stub := { run Turn.next s turns with inBuffer := stored }
          ended := last.ending.ended
          rest := later } := by
  obtain ⟨stored, hseq, hcommands⟩ := commands_turns after hsig hturns hlast hs later
  refine ⟨stored, hseq, ?_⟩
  rw [gdbserverHandleException]
  simp only [putpacket_refused _ hrefusals]
  rw [if_neg (by rintro (h | h); exact halive.1 h; exact halive.2 h), hcommands]
  rfl

/-- A `?` whose first copy had a wrong sum and whose reply was refused once, and then `c`. -/
theorem session_exactly_once_query :
    let s := Stub.start (Vector.replicate numRegs 0) (Vector.replicate 5 0) fun _ => 0
    let t : Turn := ⟨.query, [], [.spoiled [ascii '?'] (ascii '0') (ascii '0') []], [ascii '-']⟩
    let last : Last := ⟨.cont [], [], []⟩
    ∃ stored, NoSequence stored ∧
      gdbserverHandleException (fun _ => 0) 5 s ([] ++ ascii '+' :: ([t].flatMap Turn.chars ++ last.offered.chars ++ [])) =
        { out := resent (stopSent s.registers 5) [] ++
            (observe Turn.next (Turn.received 5) s [t] ++ last.offered.answer)
          stub := { run Turn.next s [t] with inBuffer := stored }
          ended := .resumed false
          rest := [] } := by
  intro s t last
  have hbody : Damage.Body [ascii '?'] := ⟨by decide, by simp; decide, by decide⟩
  have hplain : ∀ ch, ch = ascii '?' ∨ ch = ascii 'c' → Plain [ch] := by
    rintro ch (rfl | rfl)
    · exact ⟨by decide, by simp; decide, by decide⟩
    · exact ⟨by decide, by simp; decide, by decide⟩
  have ht : t.Ok 8 := by
    refine ⟨⟨List.not_mem_nil, fun d hd => ?_, hplain _ (.inl rfl)⟩, trivial, by decide⟩
    obtain rfl := List.mem_singleton.mp hd
    exact ⟨hbody, List.not_mem_nil, by decide⟩
  have hlast : last.offered.Ok := ⟨List.not_mem_nil, fun d hd => absurd hd List.not_mem_nil, hplain _ (.inr rfl)⟩
  have hturns : ∀ t' ∈ [t], t'.Ok 8 := by
    intro t' ht'
    rw [List.mem_singleton.mp ht']
    exact ht
  exact session_exactly_once (fun _ => 0) (by decide) (by decide) (noSequence_start _ _ _) List.not_mem_nil hturns hlast []

end EndlessFault.Gdbserver
