import EndlessFault.Gdbserver.Session

/- A whole run of the monitor in debug mode (`main` of `kvm.cpp` from `kvm_enable_guest_debug` on, as far as gdb is
   concerned): the stop that `gdbserver_start` makes, the exits of the guest, and at each `KVM_EXIT_DEBUG` the
   registers submitted, `rip` put back to the address of the exit, and one stop of the stub. What the guest does between
   two exits is not the monitor's: an exit brings the CPU and the memory as it left them.

   At each stop the client sees the CPU and the memory of that stop and nothing of earlier ones (`Stop.received`);
   when the guest goes on, the single-step flag is what the last packet asked for and the CPU has the registers that
   the packets set. One thing comes with these: the cache holds the address of the exit for `rip` and the CPU does not, so a packet
   that writes any register moves the CPU there. Main result: `debug_run`. -/
namespace EndlessFault.DebugRun
open Lib.Machine Lib.Bytes Gdbserver

def sigtrap : Nat := 5

def kvmGuestdbgEnable : UInt32 := 0x00000001
def kvmGuestdbgSinglestep : UInt32 := 0x00000002
def kvmGuestdbgUseSwBp : UInt32 := 0x00010000
def kvmGuestdbgUseHwBp : UInt32 := 0x00020000

/-- `control` of `guest_debug` after `kvm_enable_guest_debug`. -/
def enabledControl : UInt32 := kvmGuestdbgEnable ||| kvmGuestdbgUseHwBp ||| kvmGuestdbgUseSwBp

/-- `control` of `guest_debug` after `kvm_debug_set_step`. -/
def kvmDebugSetStep (control : UInt32) (enableStep : Bool) : UInt32 :=
  if enableStep then control ||| kvmGuestdbgSinglestep else control &&& ~~~kvmGuestdbgSinglestep

/-- The debugger's side of the monitor: the stub, the CPU, the flags, the characters of the client not read,
those sent to it, and how the last stop ended. -/
structure Monitor where
  stub : Stub
  vcpu : VCpu
  control : UInt32
  input : List UInt8
  out : List UInt8
  ended : Ended

/-- What ends a `KVM_RUN`: a debug exit, at the address `pc`; one that a device or nobody handles; `KVM_EXIT_HLT` or
`KVM_EXIT_SHUTDOWN`; or an error. -/
inductive Exit where
  | debug (vcpu : VCpu) (memory : Memory) (pc : UInt64)
  | handled
  | terminated
  | failed

namespace Monitor
variable (after : Nat → UInt8)

/-- A call of `gdbserver_handle_exception`, with the reloads and the step flag that it makes. -/
def handleException (sigval : Nat) (m : Monitor) : Monitor :=
  let c := gdbserverHandleException after sigval { m.stub with reloads := [] } m.input
  { stub := c.stub
    vcpu := m.vcpu.after c.stub.reloads
    control := match c.ended with
      | .resumed step => kvmDebugSetStep m.control step
      | _ => m.control
    input := c.rest
    out := m.out ++ c.out
    ended := c.ended }

/-- `kvm_handle_debug_exit`. -/
def kvmHandleDebugExit (pc : UInt64) (m : Monitor) : Monitor :=
  let s := m.vcpu.gdbSubmitRegisters m.stub
  handleException after sigtrap { m with stub := { s with registers := gdbserverSetRegister s.registers .rip pc } }

/-- `gdbserver_start` after the registers have been submitted. -/
def gdbserverStart (m : Monitor) : Monitor :=
  handleException after sigtrap { m with stub := m.vcpu.gdbSubmitRegisters m.stub }

/-- One round of the loop of `main`. There is none once the monitor waits for the client or has ended. -/
def step (m : Monitor) (e : Exit) : Monitor :=
  match m.ended with
  | .resumed _ =>
    match e with
    | .debug vcpu memory pc => kvmHandleDebugExit after pc { m with vcpu := vcpu, stub := { m.stub with memory := memory } }
    | .handled => m
    | .terminated => handleException after sigterm m
    | .failed => handleException after sigill m
  | _ => m

/-- The monitor when the client has connected. -/
def connected (vcpu : VCpu) (memory : Memory) (input : List UInt8) : Monitor where
  stub := Stub.start (Vector.replicate numRegs 0) (Vector.replicate 5 0) memory
  vcpu := vcpu
  control := enabledControl
  input := input
  out := []
  ended := .resumed false

end Monitor

/-! The registers of a stop. -/

/-- Two caches with the same registers are equal. -/
theorem registers_ext {r r' : Vector UInt64 numRegs} (h : ∀ n, gdbserverGetRegister r n = gdbserverGetRegister r' n) :
    r = r' := by
  apply Vector.ext
  intro i hi
  have hnodup : Amd64Regnum.all.Nodup := by decide
  have hindex : (Amd64Regnum.all.get ⟨i, hi⟩).toNat = i := hnodup.idxOf_getElem i hi
  have hcell := h (Amd64Regnum.all.get ⟨i, hi⟩)
  rw [gdbserverGetRegister, gdbserverGetRegister, hindex, Vector.getElem?_eq_getElem hi,
    Vector.getElem?_eq_getElem hi] at hcell
  exact hcell

/-- Only these members of the stub have a part in what is sent and in what is loaded. -/
structure Same (s t : Stub) : Prop where
  registers : s.registers = t.registers
  extendedRegisters : s.extendedRegisters = t.extendedRegisters
  memory : s.memory = t.memory
  reloads : s.reloads = t.reloads

section
variable {s t : Stub} (h : Same s t)
include h

theorem Same.next (c : Command) : Same (c.next s) (c.next t) := by
  obtain ⟨hregs, hext, hmem, hreloads⟩ := h
  cases c with
  | register p =>
    refine ⟨?_, hext, hmem, ?_⟩
    · exact congrArg p.next hregs
    · show s.reloads ++ p.reloaded s.registers = t.reloads ++ p.reloaded t.registers
      rw [hreloads, hregs]
  | memory p =>
    cases p with
    | read addr len => exact ⟨hregs, hext, hmem, hreloads⟩
    | write addr len data isHex full =>
      refine ⟨hregs, hext, ?_, hreloads⟩
      funext x
      show ite _ _ (s.memory x) = ite _ _ (t.memory x)
      rw [hmem]
  | _ => exact ⟨hregs, hext, hmem, hreloads⟩

theorem Same.reply (sigval : Nat) (c : Command) : c.reply sigval s = c.reply sigval t := by
  obtain ⟨hregs, hext, hmem, -⟩ := h
  cases c with
  | register p => exact congrArg p.answer hregs
  | memory p =>
    cases p with
    | read addr len => simp only [Command.reply, hmem]
    | write addr len data isHex full => rfl
  | monitor => simp only [Command.reply, Stub.privilegedRegisters, hext]
  | _ => rfl

theorem Same.turns (sigval : Nat) (turns : List Turn) :
    Same (run Turn.next s turns) (run Turn.next t turns) ∧
    observe Turn.next (Turn.received sigval) s turns = observe Turn.next (Turn.received sigval) t turns := by
  induction turns generalizing s t with
  | nil => exact ⟨h, rfl⟩
  | cons u turns ih =>
    obtain ⟨hrun, hobs⟩ := ih (h.next u.command)
    have hreceived : u.received sigval s = u.received sigval t :=
      congrArg (fun reply => u.offered.answer ++ resent reply u.refusals) (h.reply sigval u.command)
    rw [run_cons, run_cons, observe_cons, observe_cons, hreceived]
    exact ⟨hrun, congrArg (u.received sigval t ++ ·) hobs⟩

end

/-! The registers with which the guest goes on. -/

/-- The packet writes to the cache. -/
def writes : RegPacket → Bool
  | .writeAll .. => true
  | .write regno .. => regno.value < numRegs
  | _ => false

theorem reloaded_of_writes {p : RegPacket} (r : Vector UInt64 numRegs) (h : writes p = true) :
    p.reloaded r = [p.next r] := by
  cases p with
  | writeAll data isHex full => rfl
  | write regno short data isHex full => exact if_pos (of_decide_eq_true h)
  | _ => exact absurd h Bool.false_ne_true

theorem next_of_not_writes {p : RegPacket} (r : Vector UInt64 numRegs) (h : writes p = false) :
    p.reloaded r = [] ∧ p.next r = r := by
  cases p with
  | writeAll data isHex full => exact absurd h.symm Bool.false_ne_true
  | write regno short data isHex full =>
    have hr : ¬ regno.value < numRegs := of_decide_eq_false h
    exact ⟨if_neg hr, Vector.setIfInBounds_eq_of_size_le (Nat.le_of_not_lt hr)⟩
  | _ => exact ⟨rfl, rfl⟩

/-- The register packet of a turn. -/
def packet (t : Turn) : Option RegPacket :=
  match t.command with
  | .register p => some p
  | _ => none

theorem registers_next {t : Turn} (s : Stub) :
    (packet t = none → (t.next s).registers = s.registers ∧ (t.next s).reloads = s.reloads) ∧
    ∀ p, packet t = some p →
      (t.next s).registers = p.next s.registers ∧ (t.next s).reloads = s.reloads ++ p.reloaded s.registers := by
  obtain ⟨command, stray, damages, refusals⟩ := t
  cases command with
  | register p =>
    refine ⟨fun h => absurd h (by simp [packet]), fun q hq => ?_⟩
    obtain rfl := Option.some.inj hq
    exact ⟨rfl, rfl⟩
  | memory p => cases p <;> exact ⟨fun _ => ⟨rfl, rfl⟩, fun q hq => absurd hq (by simp [packet])⟩
  | _ => exact ⟨fun _ => ⟨rfl, rfl⟩, fun q hq => absurd hq (by simp [packet])⟩

/-- The cache after the turns. -/
theorem registers_turns (s : Stub) (turns : List Turn) :
    (run Turn.next s turns).registers = run RegPacket.next s.registers (turns.filterMap packet) := by
  induction turns generalizing s with
  | nil => rfl
  | cons t turns ih =>
    rw [run_cons, ih]
    cases hp : packet t with
    | none => rw [List.filterMap_cons_none hp, ((registers_next s).1 hp).1]
    | some p => rw [List.filterMap_cons_some hp, run_cons, ((registers_next s).2 p hp).1]

theorem run_not_writes (r : Vector UInt64 numRegs) {ps : List RegPacket} (h : ps.any writes = false) :
    run RegPacket.next r ps = r := by
  induction ps with
  | nil => rfl
  | cons p ps ih =>
    rw [List.any_cons, Bool.or_eq_false_iff] at h
    rw [run_cons, (next_of_not_writes r h.1).2, ih h.2]

/-- A turn loads the CPU with the cache it leaves, or it leaves both as they were. -/
theorem vcpu_turn (v : VCpu) (s : Stub) (t : Turn) (turns : List Turn) :
    (((t :: turns).filterMap packet).any writes = true ∧ ∀ n, (v.after (t.next s).reloads).register n =
      if n.isSegment then (v.after s.reloads).register n else gdbserverGetRegister (t.next s).registers n) ∨
    ((t :: turns).filterMap packet).any writes = (turns.filterMap packet).any writes ∧ (t.next s).reloads = s.reloads := by
  cases hp : packet t with
  | none => exact .inr ⟨by rw [List.filterMap_cons_none hp], ((registers_next s).1 hp).2⟩
  | some p =>
    obtain ⟨hregs, hreloads⟩ := (registers_next s).2 p hp
    rw [List.filterMap_cons_some hp, List.any_cons]
    cases hw : writes p with
    | false => exact .inr ⟨Bool.false_or _, by rw [hreloads, (next_of_not_writes s.registers hw).1, List.append_nil]⟩
    | true =>
      refine .inl ⟨Bool.true_or _, fun n => ?_⟩
      rw [hreloads, reloaded_of_writes s.registers hw, ← hregs, VCpu.after, List.foldl_append, List.foldl_cons,
        List.foldl_nil, register_load]
      rfl

/-- The CPU after the turns: as it was until a packet writes, and from then on with the registers of the cache. -/
theorem vcpu_turns (v : VCpu) (s : Stub) (turns : List Turn) (n : Amd64Regnum) :
    (v.after (run Turn.next s turns).reloads).register n =
      if n.isSegment = false ∧ (turns.filterMap packet).any writes = true then
        gdbserverGetRegister (run Turn.next s turns).registers n
      else (v.after s.reloads).register n := by
  induction turns generalizing s with
  | nil => exact (if_neg (by simp)).symm
  | cons t turns ih =>
    rw [run_cons, ih]
    rcases vcpu_turn v s t turns with ⟨hany, hload⟩ | ⟨hany, hreloads⟩
    · rw [hany, hload]
      cases hseg : n.isSegment with
      | true => simp
      | false =>
        cases hlater : (turns.filterMap packet).any writes with
        | true => simp
        | false => simp [registers_turns, run_not_writes _ hlater]
    · rw [hany, hreloads]

/-! A stop. -/

/-- A stop of the guest: the exits handled before it, the CPU and the memory as the guest left them, the address
of the exit, and what the client sends, with the packet that lets the guest go on. -/
structure Stop where
  handled : Nat
  vcpu : VCpu
  memory : Memory
  pc : UInt64
  refusals : List UInt8
  turns : List Turn
  stepping : Bool
  args : List UInt8
  stray : List UInt8
  damages : List Damage

namespace Stop

def exits (st : Stop) : List Exit := List.replicate st.handled .handled ++ [.debug st.vcpu st.memory st.pc]

def last (st : Stop) : Last := ⟨if st.stepping then .step st.args else .cont st.args, st.stray, st.damages⟩

def chars (st : Stop) : List UInt8 :=
  st.refusals ++ ascii '+' :: (st.turns.flatMap Turn.chars ++ st.last.offered.chars)

/-- The stub `s` with the registers and the memory of the stop. -/
def submitted (st : Stop) (s : Stub) : Stub :=
  let s := st.vcpu.gdbSubmitRegisters { s with memory := st.memory, reloads := [] }
  { s with registers := gdbserverSetRegister s.registers .rip st.pc }

/-- The cache and the memory that the client sees. -/
def cache (st : Stop) : Stub :=
  st.submitted (Stub.start (Vector.replicate numRegs 0) (Vector.replicate 5 0) st.memory)

/-- What the client receives. -/
def received (st : Stop) : List UInt8 :=
  resent (stopSent st.cache.registers sigtrap) st.refusals ++
    (observe Turn.next (Turn.received sigtrap) st.cache st.turns ++ st.last.offered.answer)

/-- A register of the CPU when the guest goes on: what the packets set last; and once any register has been
written, the address of the exit for `rip`. -/
def goesOn (st : Stop) (n : Amd64Regnum) : UInt64 :=
  let ps := st.turns.filterMap packet
  if n.isSegment = false ∧ ps.any writes = true then
    (lastSet n ps).getD (if n = .rip then st.pc else st.vcpu.register n)
  else st.vcpu.register n

structure Ok (memSize : UInt32) (st : Stop) : Prop where
  refusals : ascii '+' ∉ st.refusals
  turns : ∀ t ∈ st.turns, t.Ok memSize
  last : st.last.offered.Ok

theorem ended_last (st : Stop) : st.last.ending.ended = .resumed st.stepping := by
  rw [last]
  cases st.stepping <;> rfl

theorem get_submitted_pc (st : Stop) (s : Stub) (n : Amd64Regnum) :
    gdbserverGetRegister (st.submitted s).registers n = if n = .rip then st.pc else st.vcpu.register n := by
  rw [submitted]
  dsimp only
  rw [get_set, get_submitted]
  by_cases h : n = .rip
  · rw [if_pos h.symm, if_pos h]
  · rw [if_neg (fun heq => h heq.symm), if_neg h]

theorem submitted_inBuffer (st : Stop) (s : Stub) : (st.submitted s).inBuffer = s.inBuffer := by
  simp only [submitted, VCpu.gdbSubmitRegisters]

/-- Nothing of an earlier stop is left. -/
theorem submitted_same (st : Stop) (s : Stub) : Same (st.submitted s) st.cache := by
  refine ⟨registers_ext fun n => ?_, rfl, rfl, rfl⟩
  rw [cache, get_submitted_pc, get_submitted_pc]

end Stop

/-! The monitor over the stops. -/

/-- The flags after a stop that lets the guest go on. -/
def resumedControl (step : Bool) : UInt32 := if step then enabledControl ||| kvmGuestdbgSinglestep else enabledControl

theorem setStep_resumed (before step : Bool) : kvmDebugSetStep (resumedControl before) step = resumedControl step := by
  revert before step
  decide

/-- The guest runs, with the flags of the last stop. -/
structure Running (m : Monitor) : Prop where
  buffer : NoSequence m.stub.inBuffer
  resumed : ∃ step, m.ended = .resumed step ∧ m.control = resumedControl step

section
variable (after : Nat → UInt8) {memSize : UInt32} {m : Monitor}

theorem run_handled (n : Nat) : run (Monitor.step after) m (List.replicate n .handled) = m := by
  induction n with
  | zero => rfl
  | succ n ih =>
    have hstep : m.step after .handled = m := by
      rw [Monitor.step]
      split <;> rfl
    rw [List.replicate_succ, run_cons, hstep, ih]

theorem step_debug (hm : Running m) (vcpu : VCpu) (memory : Memory) (pc : UInt64) :
    m.step after (.debug vcpu memory pc) =
      Monitor.kvmHandleDebugExit after pc { m with vcpu := vcpu, stub := { m.stub with memory := memory } } := by
  obtain ⟨step, hended, -⟩ := hm.resumed
  rw [Monitor.step, hended]

/-- The debug exit of a stop. -/
theorem handle_submitted (st : Stop) :
    Monitor.kvmHandleDebugExit after st.pc { m with vcpu := st.vcpu, stub := { m.stub with memory := st.memory } } =
      let c := gdbserverHandleException after sigtrap (st.submitted m.stub) m.input
      { stub := c.stub
        vcpu := st.vcpu.after c.stub.reloads
        control := match c.ended with
          | .resumed step => kvmDebugSetStep m.control step
          | _ => m.control
        input := c.rest
        out := m.out ++ c.out
        ended := c.ended } := rfl

/-- One stop. -/
theorem run_stop (hm : Running m) {st : Stop} (h : st.Ok memSize) {later : List UInt8} (hinput : m.input = st.chars ++ later) :
    let e := run (Monitor.step after) m st.exits
    Running e ∧ e.input = later ∧ e.out = m.out ++ st.received ∧ e.ended = .resumed st.stepping ∧
    e.control = resumedControl st.stepping ∧ ∀ n, e.vcpu.register n = st.goesOn n := by
  intro e
  obtain ⟨before, -, hcontrol⟩ := hm.resumed
  have hsame := st.submitted_same m.stub
  obtain ⟨hrun, hobs⟩ := hsame.turns sigtrap st.turns
  have hbuffer : NoSequence (st.submitted m.stub).inBuffer := by
    rw [st.submitted_inBuffer]
    exact hm.buffer
  obtain ⟨stored, hseq, hcommands⟩ := commands_turns after (show sigtrap < 256 by decide) h.turns h.last hbuffer later
  have hcall : gdbserverHandleException after sigtrap (st.submitted m.stub) m.input =
      { out := st.received
        stub := { run Turn.next (st.submitted m.stub) st.turns with inBuffer := stored }
        ended := .resumed st.stepping
        rest := later } := by
    rw [hinput, Stop.chars, List.append_assoc, List.cons_append, gdbserverHandleException]
    simp only [putpacket_refused _ h.refusals]
    rw [if_neg (by decide), hcommands, st.ended_last, hobs, hsame.registers]
    rfl
  have he : e = { stub := { run Turn.next (st.submitted m.stub) st.turns with inBuffer := stored }
                  vcpu := st.vcpu.after (run Turn.next (st.submitted m.stub) st.turns).reloads
                  control := kvmDebugSetStep m.control st.stepping
                  input := later
                  out := m.out ++ st.received
                  ended := .resumed st.stepping } := by
    show run (Monitor.step after) m (List.replicate st.handled .handled ++ [.debug st.vcpu st.memory st.pc]) = _
    rw [run_append, run_handled, run_cons, run_nil, step_debug after hm, handle_submitted, hcall]
  have hflags : kvmDebugSetStep m.control st.stepping = resumedControl st.stepping := by rw [hcontrol, setStep_resumed]
  rw [he]
  refine ⟨⟨hseq, st.stepping, rfl, hflags⟩, rfl, rfl, rfl, hflags, fun n => ?_⟩
  show (st.vcpu.after (run Turn.next (st.submitted m.stub) st.turns).reloads).register n = _
  rw [hrun.reloads, vcpu_turns, registers_turns, get_run, Stop.cache, st.get_submitted_pc]
  rfl

/-- Any number of stops. -/
theorem run_stops (hm : Running m) {stops : List Stop} (h : ∀ st ∈ stops, st.Ok memSize) {later : List UInt8}
    (hinput : m.input = stops.flatMap Stop.chars ++ later) :
    let e := run (Monitor.step after) m (stops.flatMap Stop.exits)
    Running e ∧ e.input = later ∧ e.out = m.out ++ stops.flatMap Stop.received := by
  induction stops generalizing m with
  | nil => exact ⟨hm, hinput, (List.append_nil m.out).symm⟩
  | cons st stops ih =>
    rw [List.flatMap_cons, List.append_assoc] at hinput
    obtain ⟨hrunning, hrest, hout, -⟩ := run_stop after hm (h st List.mem_cons_self) hinput
    obtain ⟨hrunning', hrest', hout'⟩ := ih hrunning (fun st hst => h st (List.mem_cons_of_mem _ hst)) hrest
    rw [List.flatMap_cons, run_append]
    exact ⟨hrunning', hrest', by rw [hout', hout, List.append_assoc]; rfl⟩

/-- The exits that end the guest: the stub says so, and that is the end of the run. -/
theorem step_ending (hm : Running m) {refusals later : List UInt8} (hrefusals : ascii '+' ∉ refusals)
    (hinput : m.input = refusals ++ ascii '+' :: later) {exit : Exit} {sigval : Nat}
    (hexit : exit = .terminated ∧ sigval = sigterm ∨ exit = .failed ∧ sigval = sigill) :
    (m.step after exit).out = m.out ++ resent [ascii 'X', ascii '0', hexchars.getD sigval 0] refusals ∧
    (m.step after exit).ended = .stopped := by
  obtain ⟨step, hended, -⟩ := hm.resumed
  have hstep : m.step after exit = Monitor.handleException after sigval m := by
    rcases hexit with ⟨rfl, rfl⟩ | ⟨rfl, rfl⟩ <;> rw [Monitor.step, hended]
  have hsig : sigval = sigill ∨ sigval = sigterm := by
    rcases hexit with ⟨-, rfl⟩ | ⟨-, rfl⟩
    · exact .inr rfl
    · exact .inl rfl
  have hsent : ∀ registers, stopSent registers sigval = [ascii 'X', ascii '0', hexchars.getD sigval 0] := by
    intro registers
    rw [stopSent, stopPacket]
    dsimp only
    rw [if_pos hsig]
    rcases hsig with rfl | rfl <;> decide
  have hcall : gdbserverHandleException after sigval { m.stub with reloads := [] } m.input =
      ⟨resent [ascii 'X', ascii '0', hexchars.getD sigval 0] refusals, { m.stub with reloads := [] }, .stopped, later⟩ := by
    rw [hinput, gdbserverHandleException]
    simp only [hsent, putpacket_refused _ hrefusals]
    rw [if_pos hsig]
  rw [hstep, Monitor.handleException]
  simp only [hcall]
  exact ⟨trivial, trivial⟩

theorem run_stopped (hm : m.ended = .stopped) (exits : List Exit) : run (Monitor.step after) m exits = m := by
  induction exits with
  | nil => rfl
  | cons exit exits ih =>
    have hstep : m.step after exit = m := by simp only [Monitor.step, hm]
    rw [run_cons, hstep, ih]

theorem running_connected (vcpu : VCpu) (memory : Memory) (input : List UInt8) :
    Running (Monitor.connected vcpu memory input) :=
  ⟨noSequence_start _ _ memory, false, rfl, rfl⟩

/-- The first stop is one at the address where the guest starts. -/
theorem gdbserverStart_eq (vcpu : VCpu) (memory : Memory) (input : List UInt8) :
    Monitor.gdbserverStart after (Monitor.connected vcpu memory input) =
      (Monitor.connected vcpu memory input).step after (.debug vcpu memory vcpu.regs.rip) := by
  have hrip : ∀ s, gdbserverSetRegister (vcpu.gdbSubmitRegisters s).registers .rip vcpu.regs.rip =
      (vcpu.gdbSubmitRegisters s).registers := by
    intro s
    apply registers_ext
    intro n
    rw [get_set, get_submitted]
    by_cases h : Amd64Regnum.rip = n
    · subst h
      rw [if_pos rfl]
      rfl
    · rw [if_neg h]
  rw [step_debug after (running_connected vcpu memory input), Monitor.kvmHandleDebugExit]
  dsimp only
  rw [hrip]
  rfl

end

/-- For every run of the monitor with a client, with any stops, any exits between them, and at each stop any
well-formed commands, refused replies and damaged frames without a colon in third place: the client receives, stop
by stop, what belongs to the CPU, the memory and the commands of that stop alone; when the guest goes on after the
last of them, it is stepped if and only if that was asked for, and each register of its CPU is the one the packets
of this stop set last; and an exit that ends the guest is reported once the client is listening, as the last packet
of all. -/
theorem debug_run (after : Nat → UInt8) {memSize : UInt32} {first : Stop} (hstart : first.handled = 0)
    (hpc : first.pc = first.vcpu.regs.rip) {stops : List Stop} (h : ∀ st ∈ first :: stops, st.Ok memSize) (later : List UInt8) :
    let m := Monitor.connected first.vcpu first.memory ((first :: stops).flatMap Stop.chars ++ later)
    let e := run (Monitor.step after) (m.gdbserverStart after) (stops.flatMap Stop.exits)
    let st := (first :: stops).getLast (List.cons_ne_nil first stops)
    e.input = later ∧ e.out = (first :: stops).flatMap Stop.received ∧
    e.ended = .resumed st.stepping ∧ (e.control &&& kvmGuestdbgSinglestep ≠ 0 ↔ st.stepping = true) ∧
    (∀ n, e.vcpu.register n = st.goesOn n) ∧
    ∀ refusals later', ascii '+' ∉ refusals → later = refusals ++ ascii '+' :: later' →
      (e.step after .terminated).out = e.out ++ resent [ascii 'X', ascii '0', ascii 'f'] refusals ∧
      (e.step after .failed).out = e.out ++ resent [ascii 'X', ascii '0', ascii '4'] refusals ∧
      ∀ exits, run (Monitor.step after) (e.step after .terminated) exits = e.step after .terminated ∧
        run (Monitor.step after) (e.step after .failed) exits = e.step after .failed := by
  intro m e st
  have hm := running_connected first.vcpu first.memory ((first :: stops).flatMap Stop.chars ++ later)
  -- the first stop is one of the run
  have hall : e = run (Monitor.step after) m ((first :: stops).flatMap Stop.exits) := by
    show run (Monitor.step after) (m.gdbserverStart after) (stops.flatMap Stop.exits) = _
    rw [List.flatMap_cons, run_append, Stop.exits, hstart, hpc]
    exact congrArg (run (Monitor.step after) · (stops.flatMap Stop.exits)) (gdbserverStart_eq after _ _ _)
  obtain ⟨hrunning, hinput, hout⟩ := run_stops after hm h rfl
  rw [← hall] at hrunning hinput hout
  -- its state is that of its last stop
  have hlast : (first :: stops).dropLast ++ [st] = first :: stops := List.dropLast_append_getLast _
  have hchars : m.input = (first :: stops).dropLast.flatMap Stop.chars ++ (st.chars ++ later) := by
    show (first :: stops).flatMap Stop.chars ++ later = _
    conv_lhs => rw [← hlast]
    rw [List.flatMap_append, List.flatMap_singleton, List.append_assoc]
  have hearlier : ∀ s ∈ (first :: stops).dropLast, s.Ok memSize := fun s hs => h s ((List.dropLast_sublist _).subset hs)
  obtain ⟨hbefore, hrest, -⟩ := run_stops after hm hearlier hchars
  obtain ⟨-, -, -, hended, hcontrol, hregisters⟩ := run_stop after hbefore (h st (List.getLast_mem _)) hrest
  have hsplit : e = run (Monitor.step after)
      (run (Monitor.step after) m ((first :: stops).dropLast.flatMap Stop.exits)) st.exits := by
    rw [hall, ← run_append]
    conv_lhs => rw [← hlast]
    rw [List.flatMap_append, List.flatMap_singleton]
  rw [← hsplit] at hended hcontrol hregisters
  refine ⟨hinput, hout, hended, ?_, hregisters, fun refusals later' hrefusals hlater => ?_⟩
  · rw [hcontrol]
    generalize st.stepping = stepping
    revert stepping
    decide
  · rw [hlater] at hinput
    obtain ⟨hterm, htermed⟩ := step_ending after hrunning hrefusals hinput (.inl ⟨rfl, rfl⟩)
    obtain ⟨hfail, hfailed⟩ := step_ending after hrunning hrefusals hinput (.inr ⟨rfl, rfl⟩)
    exact ⟨hterm, hfail, fun exits => ⟨run_stopped after htermed exits, run_stopped after hfailed exits⟩⟩

/-- A stop at which the client asks for the signal and then for one step. -/
def queried : Stop :=
  ⟨0, VCpu.zero, fun _ => 0, 0, [], [⟨.query, [], [], []⟩], true, [], [], []⟩

theorem queried_ok : queried.Ok 8 := by
  have hplain : ∀ ch, ch = ascii '?' ∨ ch = ascii 's' → Plain [ch] := by
    rintro ch (rfl | rfl)
    · exact ⟨by decide, by simp; decide, by decide⟩
    · exact ⟨by decide, by simp; decide, by decide⟩
  refine ⟨List.not_mem_nil, fun t ht => ?_, ⟨List.not_mem_nil, fun d hd => absurd hd List.not_mem_nil, hplain _ (.inr rfl)⟩⟩
  obtain rfl := List.mem_singleton.mp ht
  exact ⟨⟨List.not_mem_nil, fun d hd => absurd hd List.not_mem_nil, hplain _ (.inl rfl)⟩, trivial, List.not_mem_nil⟩

theorem debug_run_queried :
    let m := Monitor.connected VCpu.zero (fun _ => 0) ([queried].flatMap Stop.chars ++ [ascii '+'])
    let e := m.gdbserverStart fun _ => 0
    e.out = [queried].flatMap Stop.received ∧ e.ended = .resumed true ∧
    (e.step (fun _ => 0) .terminated).out = e.out ++ resent [ascii 'X', ascii '0', ascii 'f'] [] := by
  intro m e
  have hok : ∀ st ∈ [queried], st.Ok 8 := by
    intro st hst
    rw [List.mem_singleton.mp hst]
    exact queried_ok
  obtain ⟨-, hout, hended, -, -, hends⟩ := debug_run (fun _ => 0) (show queried.handled = 0 from rfl) rfl hok [ascii '+']
  exact ⟨hout, hended, (hends [] [] List.not_mem_nil rfl).1⟩

end EndlessFault.DebugRun
