import Mathlib.Tactic.IntervalCases
import EndlessFault.Kvm.Guest

/- The guest program `target/keyboard_program.s`: it enables the keyboard, waits for a
   keycode by polling the status, and writes it and a line end to the second serial port.
   The program is given as it stands and run an instruction at a time, while the console
   thread inserts keycodes between any two instructions.

   What was accepted from the console is what was sent, what the program has in hand and what is queued, in this
   order; and the log has a line for each keycode that was sent. So nothing is lost,
   repeated or swapped, and once the guest is left alone everything that was accepted is
   in the log. Main result: `echoes`. -/
namespace EndlessFault
open Lib.Machine

namespace KeyboardProgram

/-- The instructions the program uses. -/
inductive Instr where
  | movbAl (imm : UInt8)
  | movwDx (imm : UInt16)
  | outbImm (port : UInt8)
  | outbDx
  | inbImm (port : UInt8)
  | test (imm : UInt8)
  | jz (target : Nat)
  | jmp (target : Nat)
  deriving DecidableEq, Repr

/-- The label `wait_char`. -/
def waitChar : Nat := 3

def program : List Instr :=
  [.movbAl 0x60, .outbImm 0x64, .outbImm 0x60,
   -- wait_char
   .inbImm 0x64, .test 0x01, .jz waitChar, .inbImm 0x60,
   .movwDx 0x2f8, .outbDx, .movbAl 0x0A, .outbDx, .jmp waitChar]

structure State where
  guest : Guest
  pc : Nat
  al : UInt8
  dx : UInt16
  zf : Bool

variable (w : Nat → UInt16)

def exec (s : State) : Instr → State
  | .movbAl imm => { s with al := imm, pc := s.pc + 1 }
  | .movwDx imm => { s with dx := imm, pc := s.pc + 1 }
  | .outbImm port => { s with guest := s.guest.outb w port.toUInt16 s.al, pc := s.pc + 1 }
  | .outbDx => { s with guest := s.guest.outb w s.dx s.al, pc := s.pc + 1 }
  | .inbImm port => { s with
      guest := (s.guest.inb w port.toUInt16).1
      al := (s.guest.inb w port.toUInt16).2
      pc := s.pc + 1 }
  | .test imm => { s with zf := s.al &&& imm == 0, pc := s.pc + 1 }
  | .jz target => { s with pc := if s.zf then target else s.pc + 1 }
  | .jmp target => { s with pc := target }

/-- Who moves: the guest by an instruction, or the console thread by a keycode. -/
inductive Turn where
  | instruction
  | keycode (code : UInt8)
  deriving DecidableEq, Repr

def step (s : State) : Turn → State
  | .instruction => (program[s.pc]?.map (exec w s)).getD s
  | .keycode code => { s with guest := s.guest.insert w code }

/-! What is wanted. -/

def queue (s : State) : List UInt8 := s.guest.vm.keyb.queue

/-- The log of the second serial port. -/
def log (s : State) : List UInt8 := (s.guest.vm.com 2).logg

/-- The keycode the keyboard accepts, if it does. -/
def accepted (s : State) : Turn → List UInt8
  | .instruction => []
  | .keycode code => s.guest.vm.keyb.accepted (.insert code)

/-- The keycode that is written. -/
def sent (s : State) : Turn → List UInt8
  | .instruction => if s.pc = 8 then [s.al] else []
  | .keycode _ => []

/-- The keycode that has been read and not yet written. -/
def inHand (s : State) : List UInt8 := if s.pc = 7 ∨ s.pc = 8 then [s.al] else []

/-- The line end that has not been written. -/
def owed (s : State) : List UInt8 := if s.pc = 9 ∨ s.pc = 10 then [0x0A] else []

/-- The line of a keycode. -/
def line (code : UInt8) : List UInt8 := [code, 0x0A]

/-! One turn. -/

structure Inv (s : State) : Prop where
  steady : s.guest.vm.keyb.Steady
  base : (s.guest.vm.com 2).baseAddr = 0x2f8
  pc : s.pc < 12
  ready : s.pc = 4 ∧ s.al &&& 0x01 ≠ 0 ∨ s.pc = 5 ∧ s.zf = false ∨ s.pc = 6 → queue s ≠ []
  dx : s.pc = 8 ∨ s.pc = 9 ∨ s.pc = 10 → s.dx = 0x2f8
  newline : s.pc = 10 → s.al = 0x0A

/-- The number of instructions to the next wait for a keycode. -/
def rest (s : State) : Nat :=
  if s.pc < 4 then 11 - s.pc
  else if s.pc = 4 then if s.al &&& 0x01 = 0 then 10 else 7
  else if s.pc = 5 then if s.zf then 9 else 6
  else if s.pc = 6 then 5
  else 20 - s.pc

def todo (s : State) : Nat := 9 * (queue s).length + rest s

/-- Waiting, with nothing to do. -/
def idle (s : State) : Prop := queue s = [] ∧ 3 ≤ s.pc ∧ s.pc ≤ 5

variable {w}

/-- What an instruction does to the rest. -/
structure Executed (s s' : State) : Prop where
  inv : Inv s'
  held : inHand s ++ queue s = sent s .instruction ++ (inHand s' ++ queue s')
  logged : log s' ++ owed s' = log s ++ owed s ++ (sent s .instruction).flatMap line
  stays : idle s → idle s'
  lower : ¬ idle s → todo s' < todo s

/-- A write to a port of the keyboard changes neither the queue nor the serial ports. -/
theorem outb_keeps {g : Guest} (h : g.vm.keyb.Steady) {port : UInt16} (hport : port = 0x60 ∨ port = 0x64) (val : UInt8) :
    (g.outb w port val).vm.keyb.Steady ∧ (g.outb w port val).vm.keyb.queue = g.vm.keyb.queue ∧
    (g.outb w port val).vm.com = g.vm.com := by
  rw [Guest.outb_keyboard port hport]
  exact ⟨h.step (.writeByte port val), h.queue_write port val, rfl⟩

/-- An instruction that leaves the queue, the serial ports, the keycode in hand and the line
end owed as they are. -/
theorem executed_quiet {s s' : State} (inv : Inv s') (hqueue : queue s' = queue s)
    (hcom : s'.guest.vm.com = s.guest.vm.com) (hsent : s.pc ≠ 8) (hhand : inHand s' = inHand s)
    (howed : owed s' = owed s) (hstays : queue s = [] → 3 ≤ s.pc → s.pc ≤ 5 → 3 ≤ s'.pc ∧ s'.pc ≤ 5)
    (hlower : ¬ (queue s = [] ∧ 3 ≤ s.pc ∧ s.pc ≤ 5) → rest s' < rest s) : Executed s s' where
  inv := inv
  held := by
    rw [sent, if_neg hsent, hqueue, hhand]
    rfl
  logged := by
    rw [sent, if_neg hsent, howed, log, log, hcom]
    exact (List.append_nil _).symm
  stays hidle := by
    refine ⟨hqueue.trans hidle.1, ?_⟩
    exact hstays hidle.1 hidle.2.1 hidle.2.2
  lower hidle := by
    have hrest := hlower hidle
    rw [todo, todo, hqueue]
    omega

theorem step_at {s : State} {n : Nat} {i : Instr} (hpc : s.pc = n) (hi : program[n]? = some i) :
    step w s .instruction = exec w s i := by
  rw [step, hpc, hi]
  rfl

/-- A byte goes to the log. -/
theorem log_outb {g : Guest} (hbase : (g.vm.com 2).baseAddr = 0x2f8) (val : UInt8) :
    ((g.outb w 0x2f8 val).vm.com 2).logg = (g.vm.com 2).logg ++ [val] ∧
    ((g.outb w 0x2f8 val).vm.com 2).baseAddr = 0x2f8 ∧
    (g.outb w 0x2f8 val).vm.keyb = g.vm.keyb := by
  rw [Guest.outb_com2]
  simp only [Function.update_self]
  refine ⟨?_, ?_, trivial⟩
  · rw [SerialPort.logg_write, hbase, if_pos rfl]
  · rw [SerialPort.baseAddr_write, hbase]

section
variable {s : State} (h : Inv s)
include h

/-- Up to the wait. -/
theorem executed_start (hpc : s.pc < 3) : Executed s (step w s .instruction) := by
  obtain hpc | hpc | hpc : s.pc = 0 ∨ s.pc = 1 ∨ s.pc = 2 := by omega
  · rw [step_at hpc rfl]
    refine executed_quiet ⟨h.steady, h.base, ?_, ?_, ?_, ?_⟩ rfl rfl ?_ ?_ ?_ ?_ ?_ <;>
      simp [exec, hpc, inHand, owed, rest]
  · obtain ⟨hsteady, hqueue, hcom⟩ := outb_keeps (w := w) h.steady (.inr rfl) s.al
    rw [step_at hpc rfl]
    refine executed_quiet ⟨hsteady, ?_, ?_, ?_, ?_, ?_⟩ hqueue hcom ?_ ?_ ?_ ?_ ?_
    · exact (congrArg (fun c => (c 2).baseAddr) hcom).trans h.base
    all_goals simp [exec, hpc, inHand, owed, rest]
  · obtain ⟨hsteady, hqueue, hcom⟩ := outb_keeps (w := w) h.steady (.inl rfl) s.al
    rw [step_at hpc rfl]
    refine executed_quiet ⟨hsteady, ?_, ?_, ?_, ?_, ?_⟩ hqueue hcom ?_ ?_ ?_ ?_ ?_
    · exact (congrArg (fun c => (c 2).baseAddr) hcom).trans h.base
    all_goals simp [exec, hpc, inHand, owed, rest]

/-- The status is read. -/
theorem executed_status (hpc : s.pc = 3) : Executed s (step w s .instruction) := by
  obtain ⟨hvm, hal⟩ := Guest.inb_keyboard (w := w) (g := s.guest) 0x64 (.inr rfl)
  have hread : s.guest.vm.keyb.readRegByte 0x64 = (s.guest.vm.keyb, if queue s = [] then 0 else 1) :=
    h.steady.read_status
  rw [hread] at hvm hal
  rw [step_at hpc rfl]
  have hsame : (exec w s (.inbImm 0x64)).guest.vm = s.guest.vm := hvm
  have hqueue : queue (exec w s (.inbImm 0x64)) = queue s := congrArg (fun m => m.keyb.queue) hsame
  have hstatus : (exec w s (.inbImm 0x64)).al = if queue s = [] then 0 else 1 := hal
  have hpc' : (exec w s (.inbImm 0x64)).pc = 4 := congrArg (· + 1) hpc
  refine executed_quiet ⟨?_, ?_, ?_, ?_, ?_, ?_⟩ hqueue (congrArg Vm.com hsame) ?_ ?_ ?_ ?_ ?_
  · rw [hsame]
    exact h.steady
  · rw [hsame]
    exact h.base
  · rw [hpc']
    decide
  · rw [hpc', hqueue, hstatus]
    split_ifs with hq
    · simp
    · exact fun _ => hq
  · simp [hpc']
  · simp [hpc']
  · simp [hpc]
  · simp [inHand, hpc, hpc']
  · simp [owed, hpc, hpc']
  · simp [hpc']
  · intro hbusy
    have hq : queue s ≠ [] := fun hq => hbusy ⟨hq, by omega, by omega⟩
    simp [rest, hpc, hpc', hstatus, hq]

/-- The status is tested, and the wait goes on or ends. -/
theorem executed_test (hpc : s.pc = 4 ∨ s.pc = 5) : Executed s (step w s .instruction) := by
  have hready := h.ready
  rcases hpc with hpc | hpc
  · rw [step_at hpc rfl]
    refine executed_quiet ⟨h.steady, h.base, ?_, ?_, ?_, ?_⟩ rfl rfl ?_ ?_ ?_ ?_ ?_
    · simp [exec, hpc]
    · intro hset
      exact hready (.inl ⟨hpc, by simpa [exec, hpc] using hset⟩)
    all_goals simp [exec, hpc, inHand, owed, rest]
    intro _
    split_ifs <;> omega
  · rw [step_at hpc rfl]
    cases hzf : s.zf with
    | true =>
      refine executed_quiet ⟨h.steady, h.base, ?_, ?_, ?_, ?_⟩ rfl rfl ?_ ?_ ?_ ?_ ?_ <;>
        simp [exec, hpc, hzf, waitChar, inHand, owed, rest]
    | false =>
      have hheld : queue s ≠ [] := hready (.inr (.inl ⟨hpc, hzf⟩))
      refine executed_quiet ⟨h.steady, h.base, ?_, fun _ => hheld, ?_, ?_⟩ rfl rfl ?_ ?_ ?_
        (fun hq => absurd hq hheld) ?_ <;>
        simp [exec, hpc, hzf, inHand, owed, rest]

/-- The keycode is taken. -/
theorem executed_read (hpc : s.pc = 6) : Executed s (step w s .instruction) := by
  have hheld : queue s ≠ [] := h.ready (.inr (.inr hpc))
  obtain ⟨hvm, hal⟩ := Guest.inb_keyboard (w := w) (g := s.guest) 0x60 (.inl rfl)
  have htake := h.steady.read_data hheld
  rw [step_at hpc rfl]
  have hpc' : (exec w s (.inbImm 0x60)).pc = 7 := congrArg (· + 1) hpc
  have hvm' : (exec w s (.inbImm 0x60)).guest.vm =
      { s.guest.vm with keyb := (s.guest.vm.keyb.readRegByte 0x60).1 } := hvm
  have hqueue : queue s = (exec w s (.inbImm 0x60)).al :: queue (exec w s (.inbImm 0x60)) := by
    rw [queue, queue, hvm']
    exact htake.trans (congrArg (· :: _) hal.symm)
  refine ⟨⟨?_, ?_, ?_, ?_, ?_, ?_⟩, ?_, ?_, ?_, ?_⟩
  · rw [hvm']
    exact h.steady.step (.readByte 0x60)
  · rw [hvm']
    exact h.base
  · rw [hpc']
    decide
  · simp [hpc']
  · simp [hpc']
  · simp [hpc']
  · rw [hqueue]
    simp [sent, inHand, hpc, hpc']
  · simp [log, hvm', sent, owed, hpc, hpc']
  · exact fun hidle => absurd hidle.1 hheld
  · intro _
    rw [todo, todo, hqueue, rest, rest, hpc, hpc']
    simp
    omega

/-- The keycode is written. -/
theorem executed_char (hpc : s.pc = 7 ∨ s.pc = 8) : Executed s (step w s .instruction) := by
  rcases hpc with hpc | hpc
  · rw [step_at hpc rfl]
    refine executed_quiet ⟨h.steady, h.base, ?_, ?_, ?_, ?_⟩ rfl rfl ?_ ?_ ?_ ?_ ?_ <;>
      simp [exec, hpc, inHand, owed, rest]
  · have hdx : s.dx = 0x2f8 := h.dx (.inl hpc)
    obtain ⟨hlog, hbase, hkeyb⟩ := log_outb (w := w) h.base s.al
    rw [step_at hpc rfl]
    rw [← hdx] at hlog hbase hkeyb
    refine ⟨⟨?_, hbase.trans hdx, ?_, ?_, ?_, ?_⟩, ?_, ?_, ?_, ?_⟩
    · rw [exec, hkeyb]
      exact h.steady
    · simp [exec, hpc]
    · simp [exec, hpc]
    · exact fun _ => hdx
    · simp [exec, hpc]
    · simp [exec, hpc, sent, inHand, queue, hkeyb]
    · simp [exec, hpc, sent, owed, log, hlog, line]
    · exact fun hidle => absurd hidle.2.2 (by omega)
    · intro _
      simp [exec, hpc, todo, rest, queue, hkeyb]

/-- The line end is written. -/
theorem executed_newline (hpc : s.pc = 9 ∨ s.pc = 10) : Executed s (step w s .instruction) := by
  have hdx : s.dx = 0x2f8 := h.dx (by omega)
  rcases hpc with hpc | hpc
  · rw [step_at hpc rfl]
    refine executed_quiet ⟨h.steady, h.base, ?_, ?_, fun _ => hdx, ?_⟩ rfl rfl ?_ ?_ ?_ ?_ ?_ <;>
      simp [exec, hpc, inHand, owed, rest]
  · obtain ⟨hlog, hbase, hkeyb⟩ := log_outb (w := w) h.base s.al
    rw [step_at hpc rfl]
    rw [← hdx] at hlog hbase hkeyb
    refine ⟨⟨?_, hbase.trans hdx, ?_, ?_, ?_, ?_⟩, ?_, ?_, ?_, ?_⟩
    · rw [exec, hkeyb]
      exact h.steady
    · simp [exec, hpc]
    · simp [exec, hpc]
    · simp [exec, hpc]
    · simp [exec, hpc]
    · simp [exec, hpc, sent, inHand, queue, hkeyb]
    · rw [h.newline hpc] at hlog
      simp [exec, hpc, sent, owed, log, hlog, h.newline hpc]
    · exact fun hidle => absurd hidle.2.2 (by omega)
    · intro _
      simp [exec, hpc, todo, rest, queue, hkeyb]

theorem executed : Executed s (step w s .instruction) := by
  have hpc := h.pc
  obtain hlow | hwait | htest | hread | hchar | hnewline | hjmp : s.pc < 3 ∨ s.pc = 3 ∨ (s.pc = 4 ∨ s.pc = 5) ∨
      s.pc = 6 ∨ (s.pc = 7 ∨ s.pc = 8) ∨ (s.pc = 9 ∨ s.pc = 10) ∨ s.pc = 11 := by omega
  · exact executed_start h hlow
  · exact executed_status h hwait
  · exact executed_test h htest
  · exact executed_read h hread
  · exact executed_char h hchar
  · exact executed_newline h hnewline
  · rw [step_at hjmp rfl]
    refine executed_quiet ⟨h.steady, h.base, ?_, ?_, ?_, ?_⟩ rfl rfl ?_ ?_ ?_ ?_ ?_ <;>
      simp [exec, hjmp, waitChar, inHand, owed, rest]

/-- A keycode is queued if it is accepted, and nothing else happens. -/
theorem inserted (code : UInt8) : Inv (step w s (.keycode code)) ∧
    queue (step w s (.keycode code)) = queue s ++ accepted s (.keycode code) ∧
    log (step w s (.keycode code)) = log s := by
  have hqueue : queue (step w s (.keycode code)) = queue s ++ accepted s (.keycode code) :=
    h.steady.queue_insert code
  refine ⟨⟨h.steady.step (.insert code), h.base, h.pc, ?_, h.dx, h.newline⟩, hqueue, rfl⟩
  intro hready
  rw [hqueue]
  simp [h.ready hready]

end

/-! Whole runs. -/

theorem inv_step (s : State) (t : Turn) (h : Inv s) : Inv (step w s t) := by
  cases t with
  | instruction => exact (executed h).inv
  | keycode code => exact (inserted h code).1

theorem balance {s : State} (h : Inv s) (ts : List Turn) :
    inHand s ++ queue s ++ observe (step w) accepted s ts =
      observe (step w) sent s ts ++ (inHand (run (step w) s ts) ++ queue (run (step w) s ts)) := by
  refine observe_balance Inv (fun s => inHand s ++ queue s) accepted sent (fun s t => inv_step s t) ?_ h ts
  intro s t hs
  cases t with
  | instruction => exact (List.append_nil _).trans (executed hs).held
  | keycode code =>
    rw [(inserted hs code).2.1, List.append_assoc]
    rfl

theorem logged {s : State} (h : Inv s) (ts : List Turn) :
    log (run (step w) s ts) ++ owed (run (step w) s ts) =
      log s ++ owed s ++ (observe (step w) sent s ts).flatMap line := by
  rw [← observe_flatMap]
  refine observe_collect Inv (fun s => log s ++ owed s) (fun s t => (sent s t).flatMap line)
    (fun s t => inv_step s t) ?_ h ts
  intro s t hs
  cases t with
  | instruction => exact (executed hs).logged
  | keycode code => exact (List.append_nil _).symm

/-- Instructions accept nothing. -/
theorem accepted_instructions (s : State) (n : Nat) :
    observe (step w) accepted s (List.replicate n .instruction) = [] := by
  induction n generalizing s with
  | zero => rfl
  | succ n ih =>
    rw [List.replicate_succ, observe_cons, ih]
    rfl

theorem todo_le {s : State} (h : Inv s) : todo s ≤ 157 := by
  have hlen : (queue s).length ≤ 16 := h.steady.length_le
  have hrest : rest s ≤ 13 := by
    unfold rest
    split_ifs <;> omega
  unfold todo
  omega

/-- The guest alone comes to rest. -/
theorem idle_after {s : State} (h : Inv s) {n : Nat} (hn : 157 ≤ n) :
    idle (run (step w) s (List.replicate n .instruction)) := by
  refine run_settles Inv idle todo Turn.instruction ?_ ?_ ?_ h (Nat.le_trans (todo_le h) hn)
  · exact fun s hs => (executed hs).inv
  · exact fun s hs => (executed hs).stays
  · exact fun s hs => (executed hs).lower

/-- A machine that `initIO` leaves. -/
def Fresh (m : Vm) : Prop :=
  ∃ buffer block fill file ata apic unset, m = Vm.initIO buffer block fill file ata apic unset

theorem Fresh.parts {m : Vm} (h : Fresh m) :
    m.keyb.Steady ∧ m.keyb.queue = [] ∧ (m.com 2).baseAddr = 0x2f8 ∧ (m.com 2).logg = [] := by
  obtain ⟨buffer, block, fill, file, ata, apic, unset, rfl⟩ := h
  refine ⟨Keyboard.steady_new buffer, ?_, ?_, ?_⟩
  · rw [Keyboard.queue_eq_nil_iff]
    rfl
  · rw [Vm.initIO]
    rfl
  · rw [Vm.initIO]
    rfl

/-- From the start of the program on a machine that `initIO` leaves, after any turns: the
keycodes that were accepted are those sent, the one in hand and those queued, in this order, and the log
has a line for each one sent. After 157 or more further instructions of the guest the log has a line for each
one that was accepted. -/
theorem echoes (s₀ : State) (hfresh : Fresh s₀.guest.vm) (hpc : s₀.pc = 0) (ts : List Turn) :
    let s := run (step w) s₀ ts
    observe (step w) accepted s₀ ts = observe (step w) sent s₀ ts ++ (inHand s ++ queue s) ∧
    log s ++ owed s = (observe (step w) sent s₀ ts).flatMap line ∧
    ∀ n, 157 ≤ n → log (run (step w) s (List.replicate n .instruction)) =
      (observe (step w) accepted s₀ ts).flatMap line := by
  intro s
  obtain ⟨hsteady, hnone, hbase, hempty⟩ := hfresh.parts
  have hinv : Inv s₀ := ⟨hsteady, hbase, by omega, by simp [hpc], by simp [hpc], by simp [hpc]⟩
  have hhand : inHand s₀ ++ queue s₀ = [] := by
    rw [inHand, if_neg (by omega)]
    exact hnone
  have howed : log s₀ ++ owed s₀ = [] := by
    rw [owed, if_neg (by omega), List.append_nil]
    exact hempty
  have hbalance := fun ts => balance (w := w) hinv ts
  have hlogged := fun ts => logged (w := w) hinv ts
  simp only [hhand, howed, List.nil_append] at hbalance hlogged
  refine ⟨hbalance ts, hlogged ts, ?_⟩
  -- the run with the instructions behind it, which ends at rest
  have hs : Inv s := run_invariant Inv (fun _ => True) (fun s t _ => inv_step s t) hinv fun _ _ => trivial
  intro n hn
  obtain ⟨hqueue, hlow, hhigh⟩ := idle_after (w := w) hs hn
  have hall := hbalance (ts ++ List.replicate n .instruction)
  have hlog := hlogged (ts ++ List.replicate n .instruction)
  have hend : run (step w) s₀ (ts ++ List.replicate n .instruction) =
      run (step w) s (List.replicate n .instruction) := run_append s₀ ts _
  rw [observe_append, accepted_instructions, List.append_nil, hend, hqueue, inHand, if_neg (by omega),
    List.append_nil, List.append_nil] at hall
  rw [hend, owed, if_neg (by omega), List.append_nil, ← hall] at hlog
  exact hlog

/-- A keycode while the program starts, one after it, and the guest left alone: only the second
is accepted, and its line is in the log. -/
theorem echoes_one :
    let s₀ : State := ⟨⟨Vm.zeroed, 0⟩, 0, 0, 0, false⟩
    let ts : List Turn := [.instruction, .keycode 0x1E, .instruction, .instruction, .keycode 0x30]
    log (run (step fun _ => 0) (run (step fun _ => 0) s₀ ts) (List.replicate 157 .instruction)) = [0x30, 0x0A] := by
  intro s₀ ts
  have hfresh : Fresh s₀.guest.vm := ⟨_, _, _, _, _, _, _, rfl⟩
  have hall := (echoes (w := fun _ => 0) s₀ hfresh rfl ts).2.2 157 (Nat.le_refl _)
  have haccepted : observe (step fun _ => 0) accepted s₀ ts = [0x30] := by decide +kernel
  rw [hall, haccepted]
  rfl

end KeyboardProgram
end EndlessFault
