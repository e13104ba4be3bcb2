import EndlessFault.Target.ModTas

/- The runs of the keyboard driver. `At` says what holds at each place of the program: the interrupts of the keyboard
   are off and none is pending except while the program waits, and there a request is pending exactly when a keycode
   is. So no interrupt is missed, and with nothing lost or taken twice between the keyboard and the driver, the driver
   does under every interleaving what it does on the keycodes one after the other (`run_line`). Main result:
   `stored_line`. -/
namespace EndlessFault
open Lib.Machine

namespace ModTas

/-! The keyboard and its requests. -/

section
variable {k : Keyboard}

theorem insert_frame (code : UInt8) : (k.insertKeycodeEvent code).interruptEnabled = k.interruptEnabled ∧
    (k.insertKeycodeEvent code).CMR = k.CMR := by
  unfold Keyboard.insertKeycodeEvent
  split_ifs
  · exact ⟨rfl, rfl⟩
  · exact ⟨rfl, rfl⟩
  · obtain ⟨status, raised, irq, hk⟩ := Keyboard.updateFI_frame { k with
      internalBuffer := k.internalBuffer.setIfInBounds k.bufferHeadPointer code
      bufferHeadPointer := (k.bufferHeadPointer + 1) % internalBufferSize
      bufferElementCount := k.bufferElementCount + 1 } true
    rw [hk]
    exact ⟨rfl, rfl⟩

theorem read_frame : (k.readRegByte 0x60).1.interruptEnabled = k.interruptEnabled := by
  have hnext : k.nextRBR.interruptEnabled = k.interruptEnabled := by
    unfold Keyboard.nextRBR
    split_ifs <;> rfl
  obtain ⟨status, raised, irq, hk⟩ := Keyboard.updateFI_frame k.nextRBR false
  rw [Keyboard.readRegByte, if_pos (show (0x60 : UInt16) = Keyboard.rbrAddr from rfl)]
  simp only [hk, hnext]

theorem write_command : k.writeRegByte 0x64 0x60 = { k with CMR := 0x60 } := if_pos rfl

theorem write_data (hcmd : k.CMR = 0x60) (val : UInt8) :
    (k.writeRegByte 0x60 val).interruptEnabled = decide (val &&& 0x01 ≠ 0) := by
  rw [Keyboard.writeRegByte, if_neg (by decide), if_pos (show (0x60 : UInt16) = Keyboard.tbrAddr from rfl),
    Keyboard.processCmd, if_pos hcmd]
  by_cases hon : val &&& 0x01 = 0
  · simp [hon]
  · simp only [ne_eq, hon, not_false_eq_true, if_true, decide_true]
    split_ifs <;> rfl

variable {e : Keyboard.Event} {s : State}

theorem latch_same (hs : s.keyb = k) : latch k s = s := by
  have hrises : Keyboard.rises k.line (s.keyb.irq.drop k.irq.length) = 0 := by
    rw [hs, List.drop_length]
    rfl
  rw [latch, hrises]
  simp

theorem latch_requested (hs : s.keyb = k.step e) :
    (latch k s).requested = (s.requested || decide (0 < Keyboard.rises k.line (k.levels e))) := by
  rw [latch, Keyboard.levels, ← hs]

/-- No request comes of an event that leaves the interrupts disabled. -/
theorem rises_off (hoff : (k.step e).interruptEnabled = false) : Keyboard.rises k.line (k.levels e) = 0 := by
  by_contra hrise
  have hon := Keyboard.enabled_of_rise hrise
  rw [hoff] at hon
  exact Bool.false_ne_true hon

theorem latch_off (hs : s.keyb = k.step e) (hoff : (k.step e).interruptEnabled = false) :
    (latch k s).requested = s.requested := by
  rw [latch_requested hs, rises_off hoff]
  simp

theorem raised_off (h : k.Agrees) (hdel : k.delivered e = []) (hoff : (k.step e).interruptEnabled = false) :
    (k.step e).interruptRaised = k.interruptRaised := by
  have hedge := Keyboard.edge_step h e
  rw [rises_off hoff, if_pos hdel, Nat.zero_add] at hedge
  cases hnew : (k.step e).interruptRaised <;> cases hold : k.interruptRaised <;> simp [hnew, hold] at hedge ⊢

/-- Nor of one while the line is up. -/
theorem latch_up (h : k.Agrees) (hdel : k.delivered e = []) (hs : s.keyb = k.step e) (hup : k.interruptRaised = true) :
    (latch k s).requested = s.requested := by
  have hedge := Keyboard.edge_step h e
  have hle := Bool.toNat_le (k.step e).interruptRaised
  rw [if_pos hdel, hup, Bool.toNat_true] at hedge
  rw [latch_requested hs, show Keyboard.rises k.line (k.levels e) = 0 by omega]
  simp

/-- When the requests agree with the line, they go on to. -/
theorem latch_agrees (h : k.Agrees) (hdel : k.delivered e = []) (hs : s.keyb = k.step e)
    (hreq : s.requested = k.interruptRaised) : (latch k s).requested = (k.step e).interruptRaised := by
  have hedge := Keyboard.edge_step h e
  have hle := Bool.toNat_le (k.step e).interruptRaised
  rw [if_pos hdel] at hedge
  rw [latch_requested hs, hreq]
  cases hold : k.interruptRaised with
  | true =>
    rw [hold, Bool.toNat_true] at hedge
    have hone : (k.step e).interruptRaised.toNat = 1 := by omega
    rw [Bool.true_or]
    exact (Bool.toNat_eq_one.mp hone).symm
  | false =>
    rw [hold, Bool.toNat_false, Nat.add_zero] at hedge
    rw [hedge, Bool.false_or]
    cases (k.step e).interruptRaised <;> rfl

end

/-! One turn. -/

/-- Interrupts are off and none is pending. -/
structure Quiet (s : State) : Prop where
  off : s.keyb.interruptEnabled = false
  down : s.keyb.interruptRaised = false
  free : s.requested = false

/-- An interrupt is being served. -/
structure Called (s : State) : Prop where
  on : s.keyb.interruptEnabled = true
  held : s.queue ≠ []
  free : s.requested = false

def At (s : State) : Pc → Prop
  | .leggiCommand => Quiet s
  | .leggiData => Quiet s ∧ s.keyb.CMR = 0x60
  | .semWait => s.keyb.interruptEnabled = true ∧ s.requested = s.keyb.interruptRaised
  | .drivCommand => Called s
  | .drivData => Called s ∧ s.keyb.CMR = 0x60
  | .getCode => s.keyb.interruptEnabled = false ∧ s.queue ≠ [] ∧ s.requested = false
  | .code _ => Quiet s
  | .riabCommand => Quiet s
  | .riabData => Quiet s ∧ s.keyb.CMR = 0x60
  | .signalled => Quiet s

structure Inv (s : State) : Prop where
  steady : s.keyb.Steady
  holds : At s s.pc

/-- The line is ended, or all keycodes are taken. -/
def settled (s : State) : Prop := s.pc = .signalled ∨ s.pc = .semWait ∧ s.queue = []

def Pc.rank : Pc → Nat
  | .code _ => 7
  | .leggiCommand => 6
  | .riabCommand => 6
  | .leggiData => 5
  | .riabData => 5
  | .semWait => 4
  | .drivCommand => 3
  | .drivData => 2
  | .getCode => 1
  | .signalled => 0

/-- The number of steps that are left, at most. -/
def todo (s : State) : Nat := 8 * s.queue.length + s.pc.rank

variable {w : Nat → UInt16} {conv : Bool → UInt8 → UInt8}

/-- What a step of the guest does. -/
structure Executed (s s' : State) : Prop where
  inv : Inv s'
  held : s.queue = inHand s' ++ s'.queue
  lower : ¬ settled s → todo s' < todo s

section
variable {s : State}

theorem keyb_outb {port : UInt16} (hport : port = 0x60 ∨ port = 0x64) (val : UInt8) (pc : Pc) :
    ({ s with guest := s.guest.outb w port val, pc := pc } : State).keyb = s.keyb.step (.writeByte port val) :=
  congrArg Vm.keyb (Guest.outb_keyboard port hport val)

/-- A write to the keyboard that takes the program from one place to the next. -/
theorem executed_outb (h : s.keyb.Steady) {port : UInt16} (hport : port = 0x60 ∨ port = 0x64) (val : UInt8) {pc : Pc}
    (hhand : inHand { s with pc := pc } = []) (hrank : pc.rank < s.pc.rank)
    (hat : ∀ s' : State, s'.keyb = s.keyb.step (.writeByte port val) → s'.queue = s.queue →
      s'.requested = (latch s.keyb { s with guest := s.guest.outb w port val, pc := pc }).requested → At s' pc) :
    Executed s (latch s.keyb { s with guest := s.guest.outb w port val, pc := pc }) := by
  have hkeyb : (latch s.keyb { s with guest := s.guest.outb w port val, pc := pc }).keyb =
      s.keyb.step (.writeByte port val) := keyb_outb hport val pc
  have hqueue : (latch s.keyb { s with guest := s.guest.outb w port val, pc := pc }).queue = s.queue := by
    rw [State.queue, hkeyb]
    exact h.queue_write port val
  refine ⟨⟨?_, hat _ hkeyb hqueue rfl⟩, ?_, ?_⟩
  · rw [hkeyb]
    exact h.step _
  · rw [hqueue]
    exact (congrArg (· ++ s.queue) hhand).symm
  · intro _
    rw [todo, todo, hqueue]
    exact Nat.add_lt_add_left hrank _

/-- The command byte. -/
theorem executed_command (h : s.keyb.Steady) {pc : Pc} (hhand : inHand { s with pc := pc } = [])
    (hrank : pc.rank < s.pc.rank)
    (hat : ∀ s' : State, s'.keyb = { s.keyb with CMR := 0x60 } → s'.queue = s.queue →
      s'.requested = s.requested → At s' pc) :
    Executed s (latch s.keyb { s with guest := s.guest.outb w 0x64 0x60, pc := pc }) := by
  refine executed_outb h (.inr rfl) 0x60 hhand hrank ?_
  intro s' hkeyb hqueue hreq
  have hwrite : s.keyb.step (.writeByte 0x64 0x60) = { s.keyb with CMR := 0x60 } := write_command
  refine hat s' (hkeyb.trans hwrite) hqueue (hreq.trans ?_)
  have hsame := keyb_outb (w := w) (s := s) (.inr rfl) 0x60 pc
  rw [hwrite] at hsame
  rw [latch, hsame, List.drop_length]
  exact Bool.or_false _

theorem Quiet.command (h : Quiet s) {s' : State} (hkeyb : s'.keyb = { s.keyb with CMR := 0x60 })
    (hreq : s'.requested = s.requested) : Quiet s' ∧ s'.keyb.CMR = 0x60 := by
  refine ⟨⟨?_, ?_, hreq.trans h.free⟩, ?_⟩
  · rw [hkeyb]
    exact h.off
  · rw [hkeyb]
    exact h.down
  · rw [hkeyb]

theorem Called.command (h : Called s) {s' : State} (hkeyb : s'.keyb = { s.keyb with CMR := 0x60 })
    (hqueue : s'.queue = s.queue) (hreq : s'.requested = s.requested) : Called s' ∧ s'.keyb.CMR = 0x60 := by
  refine ⟨⟨?_, ?_, hreq.trans h.free⟩, ?_⟩
  · rw [hkeyb]
    exact h.on
  · rw [hqueue]
    exact h.held
  · rw [hkeyb]

/-- The interrupts are enabled: a keycode that waits is requested at once. -/
theorem executed_enable (h : s.keyb.Steady) (hquiet : Quiet s) (hcmd : s.keyb.CMR = 0x60) (hrank : 4 < s.pc.rank) :
    Executed s (latch s.keyb { s with guest := s.guest.outb w 0x60 0x61, pc := .semWait }) := by
  refine executed_outb h (.inl rfl) 0x61 rfl hrank ?_
  intro s' hkeyb _ hreq
  have hsame : s.requested = s.keyb.interruptRaised := hquiet.free.trans hquiet.down.symm
  have hagree := latch_agrees h.agrees rfl (keyb_outb (w := w) (.inl rfl) 0x61 .semWait) hsame
  refine ⟨?_, ?_⟩
  · rw [hkeyb]
    exact write_data hcmd 0x61
  · rw [hreq, hagree, hkeyb]

/-- The interrupts are disabled while a keycode waits. -/
theorem executed_disable (h : s.keyb.Steady) (hcalled : Called s) (hcmd : s.keyb.CMR = 0x60) (hrank : 1 < s.pc.rank) :
    Executed s (latch s.keyb { s with guest := s.guest.outb w 0x60 0x60, pc := .getCode }) := by
  refine executed_outb h (.inl rfl) 0x60 rfl hrank ?_
  intro s' hkeyb hqueue hreq
  have hoff : (s.keyb.step (.writeByte 0x60 0x60)).interruptEnabled = false := write_data hcmd 0x60
  refine ⟨?_, ?_, ?_⟩
  · rw [hkeyb]
    exact hoff
  · rw [hqueue]
    exact hcalled.held
  · rw [hreq, latch_off (keyb_outb (.inl rfl) 0x60 .getCode) hoff]
    exact hcalled.free

/-- A request is served. -/
theorem executed_semWait (h : Inv s) (hpc : s.pc = .semWait) : Executed s (step w conv s .guest) := by
  obtain ⟨hon, hreq⟩ : At s .semWait := hpc ▸ h.holds
  rw [step, exec, hpc]
  simp only
  by_cases hserved : s.requested = true
  · have hlatch : latch s.keyb { s with requested := false, pc := .drivCommand } =
        { s with requested := false, pc := .drivCommand } := latch_same rfl
    rw [if_pos hserved, hlatch]
    have hraised : s.keyb.interruptRaised = true := hreq.symm.trans hserved
    have hheld : s.queue ≠ [] := fun hnil => h.steady.agrees.held hraised ((Keyboard.queue_eq_nil_iff _).mp hnil)
    refine ⟨⟨h.steady, ⟨hon, hheld, rfl⟩⟩, rfl, ?_⟩
    intro _
    simp only [todo, hpc]
    exact Nat.add_lt_add_left (by decide) _
  · rw [if_neg hserved, latch_same rfl]
    refine ⟨h, ?_, ?_⟩
    · simp [inHand, hpc]
    · intro hbusy
      -- with interrupts enabled a keycode that waits has been requested
      refine absurd (.inr ⟨hpc, ?_⟩) hbusy
      by_contra hheld
      have hcount : s.keyb.bufferElementCount ≠ 0 := fun hnone => hheld ((Keyboard.queue_eq_nil_iff _).mpr hnone)
      exact hserved (hreq.trans (h.steady.agrees.asserted hon hcount))

/-- The keycode is read. -/
theorem executed_getCode (h : Inv s) (hpc : s.pc = .getCode) : Executed s (step w conv s .guest) := by
  obtain ⟨hoff, hheld, hfree⟩ : At s .getCode := hpc ▸ h.holds
  obtain ⟨hvm, hal⟩ := Guest.inb_keyboard (w := w) (g := s.guest) 0x60 (.inl rfl)
  have htake := h.steady.read_data hheld
  rw [step, exec, hpc]
  simp only
  have hkeyb : ({ s with guest := (s.guest.inb w 0x60).1, pc := .code (s.guest.inb w 0x60).2 } : State).keyb =
      s.keyb.step (.readByte 0x60) := congrArg Vm.keyb hvm
  have hoff' : (s.keyb.step (.readByte 0x60)).interruptEnabled = false := read_frame.trans hoff
  have hqueue : s.queue = (s.guest.inb w 0x60).2 :: (s.keyb.step (.readByte 0x60)).queue :=
    htake.trans (congrArg (· :: _) hal.symm)
  refine ⟨⟨?_, ⟨?_, ?_, ?_⟩⟩, ?_, ?_⟩
  · exact (congrArg Keyboard.Steady hkeyb).mpr (h.steady.step _)
  · exact (congrArg Keyboard.interruptEnabled hkeyb).trans hoff'
  · refine (congrArg Keyboard.interruptRaised hkeyb).trans ?_
    have hedge := Keyboard.edge_step h.steady.agrees (.readByte 0x60)
    have hdel : s.keyb.delivered (.readByte 0x60) ≠ [] := by
      rw [Keyboard.delivered, if_pos ⟨rfl, hheld⟩]
      exact List.cons_ne_nil _ _
    rw [rises_off hoff', if_neg hdel, Nat.zero_add] at hedge
    exact Bool.toNat_eq_zero.mp hedge.symm
  · exact (latch_off hkeyb hoff').trans hfree
  · rw [hqueue, State.queue, latch, State.keyb]
    exact congrArg (fun k : Keyboard => (s.guest.inb w 0x60).2 :: k.queue) hkeyb.symm
  · intro _
    have hlength : s.queue.length = (s.keyb.step (.readByte 0x60)).queue.length + 1 := congrArg List.length hqueue
    have hqueue' : (latch s.keyb { s with guest := (s.guest.inb w 0x60).1, pc := .code (s.guest.inb w 0x60).2 }).queue =
        (s.keyb.step (.readByte 0x60)).queue := congrArg Keyboard.queue hkeyb
    rw [todo, todo, hqueue', hpc, hlength, latch, Pc.rank, Pc.rank]
    omega

/-- The driver works on the keycode. -/
theorem step_code {a : UInt8} (hpc : s.pc = .code a) : step w conv s .guest = { s with
    driver := (s.driver.take conv a).1
    pc := if (s.driver.take conv a).2 then .signalled else .riabCommand } := by
  rw [step, exec, hpc]
  exact latch_same rfl

theorem executed_code (h : Inv s) {a : UInt8} (hpc : s.pc = .code a) : Executed s (step w conv s .guest) := by
  have hquiet : At s (.code a) := hpc ▸ h.holds
  rw [step_code hpc]
  by_cases hend : (s.driver.take conv a).2 = true
  · rw [if_pos hend]
    refine ⟨⟨h.steady, ⟨hquiet.off, hquiet.down, hquiet.free⟩⟩, rfl, ?_⟩
    intro _
    simp only [todo, hpc]
    exact Nat.add_lt_add_left (by simp [Pc.rank]) _
  · rw [if_neg hend]
    refine ⟨⟨h.steady, ⟨hquiet.off, hquiet.down, hquiet.free⟩⟩, rfl, ?_⟩
    intro _
    simp only [todo, hpc]
    exact Nat.add_lt_add_left (by simp [Pc.rank]) _

theorem executed (h : Inv s) : Executed s (step w conv s .guest) := by
  have hat := h.holds
  cases hpc : s.pc with
  | leggiCommand =>
    rw [hpc] at hat
    rw [step, exec, hpc]
    exact executed_command h.steady rfl (by rw [hpc]; decide) fun s' hkeyb _ hreq => hat.command hkeyb hreq
  | riabCommand =>
    rw [hpc] at hat
    rw [step, exec, hpc]
    exact executed_command h.steady rfl (by rw [hpc]; decide) fun s' hkeyb _ hreq => hat.command hkeyb hreq
  | drivCommand =>
    rw [hpc] at hat
    rw [step, exec, hpc]
    exact executed_command h.steady rfl (by rw [hpc]; decide) fun s' hkeyb hqueue hreq => hat.command hkeyb hqueue hreq
  | leggiData =>
    rw [hpc] at hat
    rw [step, exec, hpc]
    exact executed_enable h.steady hat.1 hat.2 (by rw [hpc]; decide)
  | riabData =>
    rw [hpc] at hat
    rw [step, exec, hpc]
    exact executed_enable h.steady hat.1 hat.2 (by rw [hpc]; decide)
  | drivData =>
    rw [hpc] at hat
    rw [step, exec, hpc]
    exact executed_disable h.steady hat.1 hat.2 (by rw [hpc]; decide)
  | semWait => exact executed_semWait h hpc
  | getCode => exact executed_getCode h hpc
  | code a => exact executed_code h hpc
  | signalled =>
    rw [step, exec, hpc, latch_same rfl]
    refine ⟨h, ?_, fun hbusy => absurd (.inl hpc) hbusy⟩
    simp [inHand, hpc]

/-- What is settled stays so while no keycode comes. -/
theorem settled_stays (h : Inv s) (hset : settled s) : settled (step w conv s .guest) := by
  rcases hset with hpc | ⟨hpc, hnone⟩
  · rw [step, exec, hpc, latch_same rfl]
    exact .inl hpc
  · have hat := h.holds
    rw [hpc] at hat
    have hserved : ¬ s.requested = true := by
      intro hreq
      exact h.steady.agrees.held (hat.2.symm.trans hreq) ((Keyboard.queue_eq_nil_iff _).mp hnone)
    rw [step, exec, hpc]
    simp only
    rw [if_neg hserved, latch_same rfl]
    exact .inr ⟨hpc, hnone⟩

/-- A keycode is queued if it is accepted, and requested where one waits for it. -/
theorem inserted (h : Inv s) (code : UInt8) : Inv (step w conv s (.keycode code)) ∧
    (step w conv s (.keycode code)).queue = s.queue ++ accepted s (.keycode code) := by
  have hqueue : (step w conv s (.keycode code)).queue = s.queue ++ accepted s (.keycode code) :=
    h.steady.queue_insert code
  obtain ⟨henabled, hcmd⟩ := insert_frame (k := s.keyb) code
  have hheld : s.queue ≠ [] → (step w conv s (.keycode code)).queue ≠ [] := by
    intro hs
    rw [hqueue]
    simp [hs]
  have hkeyb : ({ s with guest := s.guest.insert w code } : State).keyb = s.keyb.step (.insert code) := rfl
  have hquiet : Quiet s → Quiet (step w conv s (.keycode code)) := by
    intro hs
    have hoff : (s.keyb.step (.insert code)).interruptEnabled = false := henabled.trans hs.off
    refine ⟨hoff, ?_, ?_⟩
    · exact (raised_off h.steady.agrees rfl hoff).trans hs.down
    · exact (latch_off hkeyb hoff).trans hs.free
  have hcalled : Called s → Called (step w conv s (.keycode code)) := by
    intro hs
    have hup := h.steady.agrees.asserted hs.on fun hnone => hs.held ((Keyboard.queue_eq_nil_iff _).mpr hnone)
    exact ⟨henabled.trans hs.on, hheld hs.held, (latch_up h.steady.agrees rfl hkeyb hup).trans hs.free⟩
  refine ⟨⟨h.steady.step (.insert code), ?_⟩, hqueue⟩
  have hat := h.holds
  have hpc : (step w conv s (.keycode code)).pc = s.pc := rfl
  rw [hpc]
  cases hplace : s.pc with
  | leggiCommand =>
    rw [hplace] at hat
    exact hquiet hat
  | leggiData =>
    rw [hplace] at hat
    exact ⟨hquiet hat.1, hcmd.trans hat.2⟩
  | semWait =>
    rw [hplace] at hat
    exact ⟨henabled.trans hat.1, latch_agrees h.steady.agrees rfl hkeyb hat.2⟩
  | drivCommand =>
    rw [hplace] at hat
    exact hcalled hat
  | drivData =>
    rw [hplace] at hat
    exact ⟨hcalled hat.1, hcmd.trans hat.2⟩
  | getCode =>
    rw [hplace] at hat
    have hoff : (s.keyb.step (.insert code)).interruptEnabled = false := henabled.trans hat.1
    exact ⟨hoff, hheld hat.2.1, (latch_off hkeyb hoff).trans hat.2.2⟩
  | code a =>
    rw [hplace] at hat
    exact hquiet hat
  | riabCommand =>
    rw [hplace] at hat
    exact hquiet hat
  | riabData =>
    rw [hplace] at hat
    exact ⟨hquiet hat.1, hcmd.trans hat.2⟩
  | signalled =>
    rw [hplace] at hat
    exact hquiet hat

/-! The driver along a run. -/

/-- Apart from its work on a keycode, no turn touches the driver or ends the line. -/
theorem step_other {t : Turn} (h : taken s t = []) : (step w conv s t).driver = s.driver ∧
    ((step w conv s t).pc = .signalled ↔ s.pc = .signalled) := by
  cases t with
  | keycode code => exact ⟨rfl, Iff.rfl⟩
  | guest =>
    rw [step, latch, exec]
    cases hpc : s.pc with
    | code a => exact absurd h (by simp [taken, inHand, hpc])
    | semWait =>
      simp only
      split_ifs
      · exact ⟨rfl, by simp⟩
      · exact ⟨rfl, by simp [hpc]⟩
    | signalled => exact ⟨rfl, by simp [hpc]⟩
    | _ => exact ⟨rfl, by simp⟩

theorem run_signalled (hpc : s.pc = .signalled) (ts : List Turn) : observe (step w conv) taken s ts = [] ∧
    (run (step w conv) s ts).driver = s.driver ∧ (run (step w conv) s ts).pc = .signalled := by
  induction ts generalizing s with
  | nil => exact ⟨rfl, rfl, hpc⟩
  | cons t ts ih =>
    have hnone : taken s t = [] := by
      cases t with
      | guest => simp [taken, inHand, hpc]
      | keycode code => rfl
    obtain ⟨hdriver, hplace⟩ := @step_other w conv s t hnone
    obtain ⟨htaken, hend, hlast⟩ := ih (hplace.mpr hpc)
    rw [observe_cons, run_cons, hnone, htaken]
    exact ⟨rfl, hend.trans hdriver, hlast⟩

/-- The driver is where the keycodes it took bring it, one after the other. -/
theorem run_line (hpc : s.pc ≠ .signalled) (ts : List Turn) :
    s.driver.line conv (observe (step w conv) taken s ts) =
      ((run (step w conv) s ts).driver, decide ((run (step w conv) s ts).pc = .signalled)) := by
  induction ts generalizing s with
  | nil => simp [Driver.line, hpc]
  | cons t ts ih =>
    rw [observe_cons, run_cons]
    by_cases hnone : taken s t = []
    · obtain ⟨hdriver, hplace⟩ := @step_other w conv s t hnone
      have hnext := ih fun hend => hpc (hplace.mp hend)
      rw [hdriver] at hnext
      rw [hnone]
      exact hnext
    · obtain ⟨a, rfl, hcode⟩ : ∃ a, t = .guest ∧ s.pc = .code a := by
        cases t with
        | keycode code => exact absurd rfl hnone
        | guest =>
          cases hplace : s.pc with
          | code a => exact ⟨a, rfl, rfl⟩
          | _ => exact absurd (by simp [taken, inHand, hplace]) hnone
      have htaken : taken s .guest = [a] := by simp [taken, inHand, hcode]
      have hstep := @step_code w conv s a hcode
      rw [htaken, List.singleton_append, Driver.line]
      by_cases hend : (s.driver.take conv a).2 = true
      · have hlast : (step w conv s .guest).pc = .signalled := by
          rw [hstep]
          exact if_pos hend
        obtain ⟨-, hdriver, hplace⟩ := @run_signalled w conv _ hlast ts
        rw [if_pos hend, hdriver, hplace, hstep]
        exact Prod.ext rfl (by simp [hend])
      · have hlast : (step w conv s .guest).pc ≠ .signalled := by
          rw [hstep]
          simp [hend]
        have hnext := ih hlast
        rw [if_neg hend]
        rw [show (step w conv s .guest).driver = (s.driver.take conv a).1 by rw [hstep]] at hnext
        exact hnext

/-! Whole runs. -/

theorem inv_step (s : State) (t : Turn) (h : Inv s) : Inv (step w conv s t) := by
  cases t with
  | guest => exact (executed h).inv
  | keycode code => exact (inserted h code).1

theorem balance (h : Inv s) (ts : List Turn) :
    inHand s ++ s.queue ++ observe (step w conv) accepted s ts =
      observe (step w conv) taken s ts ++ (inHand (run (step w conv) s ts) ++ (run (step w conv) s ts).queue) := by
  refine observe_balance Inv (fun s => inHand s ++ s.queue) accepted taken (fun s t => inv_step s t) ?_ h ts
  intro s t hs
  cases t with
  | guest => exact (List.append_nil _).trans (congrArg (inHand s ++ ·) (executed hs).held)
  | keycode code =>
    rw [(inserted hs code).2, List.append_assoc]
    rfl

theorem accepted_guest (s : State) (n : Nat) :
    observe (step w conv) accepted s (List.replicate n .guest) = [] := by
  induction n generalizing s with
  | zero => rfl
  | succ n ih =>
    rw [List.replicate_succ, observe_cons, ih]
    rfl

theorem todo_le (h : Inv s) : todo s ≤ 135 := by
  have hlen : s.queue.length ≤ 16 := h.steady.length_le
  have hrank : s.pc.rank ≤ 7 := by
    cases s.pc <;> simp [Pc.rank]
  unfold todo
  omega

theorem settled_after (h : Inv s) {n : Nat} (hn : 135 ≤ n) :
    settled (run (step w conv) s (List.replicate n .guest)) := by
  refine run_settles Inv settled todo Turn.guest ?_ ?_ ?_ h (Nat.le_trans (todo_le h) hn)
  · exact fun s hs => (executed hs).inv
  · exact fun s hs => settled_stays hs
  · exact fun s hs => (executed hs).lower

/-- A call can begin: the interrupts of the keyboard are off and none is pending. -/
structure Ready (s : State) : Prop where
  steady : s.keyb.Steady
  quiet : Quiet s

/-- For every state a call can begin in, every count, buffer and table of characters, and all turns: at every
moment the keycodes that were waiting and those that were accepted since are the ones the driver took, the one it has in
hand and those queued, in this order, and the buffer, the screen and the count are those of the line that the characters
of the keycodes taken begin with. After 135 or more further steps of the guest this is the line of all these keycodes;
the call has returned if and only if they end it, and then the keycodes behind the line are still queued and the next
call can begin. -/
theorem stored_line {s : State} (hs : Ready s) (nn : UInt32) (vv : Nat → UInt8) (ts : List Turn) :
    let s₀ := s.cLeggiLinea nn vv
    let codes := s.queue ++ observe (step w conv) accepted s₀ ts
    let taken := observe (step w conv) taken s₀ ts
    let now := run (step w conv) s₀ ts
    codes = taken ++ (inHand now ++ now.queue) ∧
    Reads s₀.driver (lineOf nn (characters conv s.driver.shift taken)).1
      (lineOf nn (characters conv s.driver.shift taken)).2 (now.driver, decide (now.pc = .signalled)) ∧
    ∀ n, 135 ≤ n →
      let e := run (step w conv) s₀ (ts ++ List.replicate n .guest)
      let line := lineOf nn (characters conv s.driver.shift codes)
      e.driver.screen = s.driver.screen ++ line.1 ∧ e.nnAfter nn = UInt32.ofNat line.1.length ∧
      (∀ k, e.driver.vv k = if k < line.1.length then line.1.getD k 0 else vv k) ∧
      (e.pc = .signalled ↔ line.2 = true) ∧
      codes = observe (step w conv) ModTas.taken s₀ (ts ++ List.replicate n .guest) ++ e.queue ∧
      (e.pc = .signalled → Ready e) := by
  intro s₀ codes _ _
  have hquiet : Quiet s₀ := ⟨hs.quiet.off, hs.quiet.down, hs.quiet.free⟩
  have hinv : Inv s₀ := ⟨hs.steady, hquiet⟩
  have hstart : s₀.pc ≠ .signalled := Pc.noConfusion
  have hbalance : ∀ us, s.queue ++ observe (step w conv) accepted s₀ us = observe (step w conv) taken s₀ us ++
      (inHand (run (step w conv) s₀ us) ++ (run (step w conv) s₀ us).queue) := fun us => balance hinv us
  have hline : ∀ us, s₀.driver.line conv (observe (step w conv) taken s₀ us) = _ := fun us => run_line hstart us
  refine ⟨hbalance ts, ?_, ?_⟩
  · exact hline ts ▸ reads_line s₀.driver (observe (step w conv) taken s₀ ts)
  intro n hn e line
  have hrun : Inv (run (step w conv) s₀ ts) :=
    run_invariant Inv (fun _ => True) (fun s t _ => inv_step s t) hinv fun _ _ => trivial
  have hend : Inv e := run_invariant Inv (fun _ => True) (fun s t _ => inv_step s t) hinv fun _ _ => trivial
  have hset : settled e := by
    rw [show e = run (step w conv) (run (step w conv) s₀ ts) (List.replicate n .guest) from run_append s₀ ts _]
    exact settled_after hrun hn
  have hhand : inHand e = [] := by
    rcases hset with hpc | ⟨hpc, -⟩ <;> simp [inHand, hpc]
  have hcodes : codes = observe (step w conv) taken s₀ (ts ++ List.replicate n .guest) ++ e.queue := by
    have hall := hbalance (ts ++ List.replicate n .guest)
    rw [observe_append, accepted_guest, List.append_nil, hhand, List.nil_append] at hall
    exact hall
  -- the keycodes taken give the line of all of them: they end it, or nothing is left
  have hwhole : s₀.driver.line conv codes = (e.driver, decide (e.pc = .signalled)) := by
    rcases hset with hpc | ⟨-, hnone⟩
    · have hsignal : (s₀.driver.line conv (observe (step w conv) taken s₀ (ts ++ List.replicate n .guest))).2 = true := by
        rw [hline]
        exact decide_eq_true hpc
      rw [hcodes, line_append_of_signalled hsignal, hline]
    · rw [hcodes, hnone, List.append_nil, hline]
  obtain ⟨hscreen, hcont, hvv, hcomplete⟩ := hwhole ▸ reads_line s₀.driver codes
  refine ⟨hscreen, ?_, ?_, ?_, hcodes, ?_⟩
  · rw [State.nnAfter, hcont]
    change nn - (nn - UInt32.ofNat line.1.length) = UInt32.ofNat line.1.length
    grind
  · intro k
    have hcell := hvv k
    change e.driver.vv k = if 0 ≤ k ∧ k < 0 + line.1.length then line.1.getD (k - 0) 0 else vv k at hcell
    simpa using hcell
  · have hsame : decide (e.pc = .signalled) = line.2 := hcomplete
    rw [← hsame, decide_eq_true_eq]
  · intro hpc
    have hat := hend.holds
    rw [hpc] at hat
    exact ⟨hend.steady, hat⟩

/-- A key before the keyboard is enabled, two for a line, with the enter key last, and one behind it. -/
theorem stored_line_two :
    let s : State := ⟨⟨Vm.zeroed, 0⟩, false, .signalled, ⟨0, 0, fun _ => 0, false, []⟩⟩
    let conv : Bool → UInt8 → UInt8 := fun shift a =>
      if a = 0x1C then newline else if a = 0x1E then if shift then 0x41 else 0x61 else 0
    let ts : List Turn := [.keycode 0x1E, .guest, .guest, .keycode 0x1E, .guest, .keycode 0x1C, .keycode 0x1E]
    let e := run (step (fun _ => 0) conv) (s.cLeggiLinea 80 fun _ => 0) (ts ++ List.replicate 135 .guest)
    e.driver.screen = [0x61, 0x0A] ∧ e.nnAfter 80 = 2 ∧ e.pc = .signalled := by
  intro s conv ts e
  have hready : Ready s := ⟨Keyboard.steady_new _, rfl, rfl, rfl⟩
  obtain ⟨hscreen, hnn, -, hpc, -, -⟩ :=
    (@stored_line (fun _ => 0) conv s hready 80 (fun _ => 0) ts).2.2 135 (Nat.le_refl _)
  have hcodes : s.queue ++ observe (step (fun _ => 0) conv) accepted (s.cLeggiLinea 80 fun _ => 0) ts =
      [0x1E, 0x1C, 0x1E] := by decide +kernel
  rw [hcodes] at hscreen hnn hpc
  exact ⟨hscreen.trans rfl, hnn.trans rfl, hpc.mpr rfl⟩

end

end ModTas
end EndlessFault
