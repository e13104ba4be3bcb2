import EndlessFault.Frontend.Keyboard

/- The keyboard as a bounded queue. `Fifo` says what the keyboard is for: a
   queue of at most 16 keycodes, the keycode delivered last, and the switch that
   decides whether keycodes are taken. `Refines` relates a keyboard to it and is
   kept by every event, so every run of the keyboard is a run of the queue, and
   what holds of queues carries over: `keyboard_fifo`. -/
namespace EndlessFault
open Lib Lib.Machine

/-- A queue of at most 16 keycodes with the keycode delivered last; `command`
is the last command byte, which says whether a data byte is a configuration. -/
structure Fifo where
  queue : List UInt8
  fits : queue.length ≤ 16
  last : UInt8
  enabled : Bool
  command : UInt8

namespace Fifo
open Keyboard

def empty : Fifo where
  queue := []
  fits := Nat.zero_le _
  last := 0
  enabled := false
  command := 0

def insert (q : Fifo) (keycode : UInt8) : Fifo :=
  if h : q.enabled = true ∧ q.queue.length < 16 then
    { q with queue := q.queue ++ [keycode], fits := by rw [List.length_append]; exact h.2 }
  else q

def deliver (q : Fifo) : Fifo :=
  { q with
    queue := q.queue.tail
    fits := Nat.le_trans (by simp) q.fits
    last := q.queue.head?.getD q.last }

def write (q : Fifo) (addr : UInt16) (val : UInt8) : Fifo :=
  if addr = cmrAddr then { q with command := val }
  else if addr = tbrAddr ∧ q.command = 0x60 then { q with enabled := val &&& 0x10 == 0 }
  else q

def step (q : Fifo) : Event → Fifo
  | .insert keycode => q.insert keycode
  | .readByte addr => if addr = rbrAddr then q.deliver else q
  | .writeByte addr val => q.write addr val

/-- The keycode an event puts in the queue, if it does. -/
def accepted (q : Fifo) : Event → List UInt8
  | .insert keycode => if q.enabled = true ∧ q.queue.length < 16 then [keycode] else []
  | _ => []

/-- The keycode an event takes out of the queue, if it does. -/
def delivered (q : Fifo) : Event → List UInt8
  | .readByte addr => if addr = rbrAddr then q.queue.head?.toList else []
  | _ => []

@[simp] theorem deliver_last (q : Fifo) : q.deliver.last = q.queue.head?.getD q.last := rfl

theorem queue_write (q : Fifo) (addr : UInt16) (val : UInt8) :
    (q.write addr val).queue = q.queue ∧ (q.write addr val).last = q.last := by
  unfold write
  split_ifs <;> exact ⟨rfl, rfl⟩

theorem insert_queue (q : Fifo) (keycode : UInt8) :
    (q.insert keycode).queue = q.queue ++ q.accepted (.insert keycode) ∧
    (q.insert keycode).last = q.last := by
  unfold insert accepted
  split_ifs with h
  · exact ⟨rfl, rfl⟩
  · exact ⟨(List.append_nil _).symm, rfl⟩

/-- Each event balances: what is held and taken in is what is delivered and held. -/
theorem step_balance (q : Fifo) (e : Event) :
    q.queue ++ q.accepted e = q.delivered e ++ (q.step e).queue := by
  cases e with
  | insert keycode => rw [step, (insert_queue q keycode).1]; rfl
  | readByte addr =>
    simp only [accepted, delivered, step, List.append_nil]
    split_ifs
    · cases q with | mk queue _ _ _ _ => cases queue <;> rfl
    · rfl
  | writeByte addr val => rw [step, (queue_write q addr val).1]; simp [accepted, delivered]

theorem step_last (q : Fifo) (e : Event) :
    (q.step e).last = (q.delivered e).getLast?.getD q.last := by
  cases e with
  | insert keycode => exact (insert_queue q keycode).2
  | readByte addr =>
    simp only [delivered, step]
    split_ifs
    · cases q with | mk queue _ _ _ _ => cases queue <;> rfl
    · rfl
  | writeByte addr val => exact (queue_write q addr val).2

/-- Over a whole run nothing is lost, duplicated or reordered. -/
theorem run_balance (es : List Event) :
    observe step accepted empty es =
      observe step delivered empty es ++ (run step empty es).queue :=
  observe_balance (fun _ => True) queue accepted delivered (fun _ _ _ => trivial)
    (fun q e _ => step_balance q e) (s := empty) trivial es

end Fifo

namespace Keyboard

/-- The keyboard holds what the queue says, in a well-formed ring. -/
structure Refines (k : Keyboard) (q : Fifo) : Prop where
  wf : Ring.Wf internalBufferSize k.bufferHeadPointer k.bufferTailPointer k.bufferElementCount
  queue : k.queue = q.queue
  last : k.RBR = q.last
  enabled : k.enabled = q.enabled
  command : k.CMR = q.command

theorem length_queue (k : Keyboard) : k.queue.length = k.bufferElementCount :=
  Ring.length_contents (by decide) _

theorem queue_eq_nil_iff (k : Keyboard) : k.queue = [] ↔ k.bufferElementCount = 0 := by
  rw [← length_queue, List.length_eq_zero_iff]

/-- `update_FI` touches the status and the interrupt only. -/
theorem updateFI_frame (k : Keyboard) (insert : Bool) : ∃ status raised irq,
    k.updateFI insert = { k with STR := status, interruptRaised := raised, irq := irq } := by
  unfold updateFI setIRQline
  cases insert <;> simp only [if_true, Bool.false_eq_true, if_false] <;> split_ifs <;>
    exact ⟨_, _, _, rfl⟩

/-- What a data byte can do: nothing unless it configures; else it sets the two
switches, and drives the line up when interrupts are enabled over held keycodes. -/
theorem processCmd_cases (k : Keyboard) :
    (k.CMR ≠ 0x60 ∧ k.processCmd = k) ∨
    (k.CMR = 0x60 ∧
      (k.processCmd = { k with enabled := k.TBR &&& 0x10 == 0, interruptEnabled := false } ∨
      (k.bufferElementCount ≠ 0 ∧ k.processCmd = { k with
        enabled := k.TBR &&& 0x10 == 0
        interruptEnabled := true
        interruptRaised := true
        irq := k.irq ++ [1] }) ∨
      ((k.bufferElementCount ≠ 0 → k.interruptRaised = true) ∧
        k.processCmd = { k with enabled := k.TBR &&& 0x10 == 0, interruptEnabled := true }))) := by
  have hswitch : (if k.TBR &&& 0x10 ≠ 0 then false else true) = (k.TBR &&& 0x10 == 0) := by
    by_cases h : k.TBR &&& 0x10 = 0 <;> simp [h]
  simp only [processCmd, hswitch, setIRQline]
  split_ifs with hcmd hint hraise
  · exact .inr ⟨hcmd, .inr (.inl ⟨hraise.1, rfl⟩)⟩
  · refine .inr ⟨hcmd, .inr (.inr ⟨fun hheld => ?_, rfl⟩)⟩
    simpa [hheld] using hraise
  · exact .inr ⟨hcmd, .inl rfl⟩
  · exact .inl ⟨hcmd, rfl⟩

theorem Refines.updateFI {k : Keyboard} {q : Fifo} (h : Refines k q) (insert : Bool) :
    Refines (k.updateFI insert) q := by
  obtain ⟨status, raised, irq, hk⟩ := updateFI_frame k insert
  rw [hk]
  exact ⟨h.wf, h.queue, h.last, h.enabled, h.command⟩

theorem Refines.insert {k : Keyboard} {q : Fifo} (h : Refines k q) (keycode : UInt8) :
    Refines (k.insertKeycodeEvent keycode) (q.insert keycode) := by
  have hlen : q.queue.length = k.bufferElementCount := by rw [← h.queue, length_queue]
  unfold insertKeycodeEvent Fifo.insert
  by_cases hoff : k.enabled = false
  · rw [if_pos hoff, dif_neg (by simp [← h.enabled, hoff])]
    exact h
  · rw [if_neg hoff]
    by_cases hfull : k.bufferElementCount = internalBufferSize
    · rw [if_pos hfull, dif_neg (by simp [hlen, hfull])]
      exact h
    · have hroom : k.bufferElementCount < internalBufferSize := by
        have := h.wf.count_le
        omega
      have hopen : q.enabled = true := by rw [← h.enabled]; simpa using hoff
      rw [if_neg hfull, dif_pos ⟨hopen, hlen ▸ hroom⟩]
      apply Refines.updateFI
      refine ⟨h.wf.push hroom, ?_, h.last, h.enabled, h.command⟩
      calc Ring.contents (k.internalBuffer.setIfInBounds k.bufferHeadPointer keycode)
            k.bufferTailPointer (k.bufferElementCount + 1)
          = k.queue ++ [keycode] := Ring.contents_push h.wf hroom keycode
        _ = q.queue ++ [keycode] := by rw [h.queue]

theorem Refines.nextRBR {k : Keyboard} {q : Fifo} (h : Refines k q) :
    Refines k.nextRBR q.deliver := by
  unfold Keyboard.nextRBR Fifo.deliver
  by_cases hheld : k.bufferElementCount = 0
  · have hnil : q.queue = [] := by rw [← h.queue, queue_eq_nil_iff, hheld]
    rw [if_neg (by simp [hheld])]
    refine ⟨h.wf, ?_, ?_, h.enabled, h.command⟩
    · rw [h.queue]
      show q.queue = q.queue.tail
      rw [hnil, List.tail_nil]
    · rw [h.last]
      show q.last = q.queue.head?.getD q.last
      rw [hnil]
      rfl
  · rw [if_pos hheld]
    have hpop : q.queue = k.internalBuffer[k.bufferTailPointer]?.toList ++
        Ring.contents k.internalBuffer ((k.bufferTailPointer + 1) % internalBufferSize)
          (k.bufferElementCount - 1) := by
      rw [← h.queue]
      exact Ring.contents_pop h.wf hheld
    rw [Vector.getElem?_eq_getElem h.wf.tail_lt] at hpop ⊢
    refine ⟨h.wf.pop hheld, ?_, ?_, h.enabled, h.command⟩
    · show _ = q.queue.tail
      rw [hpop]
      rfl
    · show _ = q.queue.head?.getD q.last
      rw [hpop]
      rfl

theorem Refines.read {k : Keyboard} {q : Fifo} (h : Refines k q) (addr : UInt16) :
    Refines (k.readRegByte addr).1 (if addr = rbrAddr then q.deliver else q) := by
  unfold readRegByte
  by_cases hrbr : addr = rbrAddr
  · rw [if_pos hrbr, if_pos hrbr]
    exact h.nextRBR.updateFI false
  · rw [if_neg hrbr, if_neg hrbr]
    split_ifs <;> exact h

theorem Refines.write {k : Keyboard} {q : Fifo} (h : Refines k q) (addr : UInt16) (val : UInt8) :
    Refines (k.writeRegByte addr val) (q.write addr val) := by
  unfold writeRegByte Fifo.write
  by_cases hcmr : addr = cmrAddr
  · rw [if_pos hcmr, if_pos hcmr]
    exact ⟨h.wf, h.queue, h.last, h.enabled, rfl⟩
  · rw [if_neg hcmr, if_neg hcmr]
    by_cases htbr : addr = tbrAddr
    · rw [if_pos htbr]
      rcases processCmd_cases { k with TBR := val } with ⟨hcmd, hk⟩ | ⟨hcmd, hk⟩
      · rw [hk, if_neg (fun hc => hcmd (h.command.trans hc.2))]
        exact ⟨h.wf, h.queue, h.last, h.enabled, h.command⟩
      · rw [if_pos ⟨htbr, h.command.symm.trans hcmd⟩]
        rcases hk with hk | ⟨-, hk⟩ | ⟨-, hk⟩ <;> rw [hk] <;>
          exact ⟨h.wf, h.queue, h.last, rfl, h.command⟩
    · rw [if_neg htbr, if_neg (fun hc => htbr hc.1)]
      exact h

theorem Refines.step {k : Keyboard} {q : Fifo} (h : Refines k q) (e : Event) :
    Refines (k.step e) (q.step e) := by
  cases e with
  | insert keycode => exact h.insert keycode
  | readByte addr => exact h.read addr
  | writeByte addr val => exact h.write addr val

/-- A read of `RBR` returns what the queue delivers last. -/
theorem Refines.reply {k : Keyboard} {q : Fifo} (h : Refines k q) :
    (k.readRegByte rbrAddr).2 = q.deliver.last := by
  rw [readRegByte, if_pos rfl]
  exact h.nextRBR.last

theorem Refines.accepted {k : Keyboard} {q : Fifo} (h : Refines k q) (e : Event) :
    k.accepted e = q.accepted e := by
  cases e with
  | insert keycode => rw [Keyboard.accepted, Fifo.accepted, h.enabled, h.queue]
  | readByte addr => rfl
  | writeByte addr val => rfl

theorem Refines.delivered {k : Keyboard} {q : Fifo} (h : Refines k q) (e : Event) :
    k.delivered e = q.delivered e := by
  cases e with
  | insert keycode => rfl
  | writeByte addr val => rfl
  | readByte addr =>
    rw [Keyboard.delivered, Fifo.delivered, h.queue]
    by_cases hrbr : addr = rbrAddr
    · subst hrbr
      rw [h.reply, if_pos rfl, Fifo.deliver_last]
      cases q.queue <;> rfl
    · rw [if_neg (fun hc => hrbr hc.1), if_neg hrbr]

theorem length_delivered_le (k : Keyboard) (e : Event) : (k.delivered e).length ≤ 1 := by
  cases e with
  | insert keycode => exact Nat.zero_le _
  | writeByte addr val => exact Nat.zero_le _
  | readByte addr =>
    rw [Keyboard.delivered]
    split_ifs
    · exact Nat.le_refl _
    · exact Nat.zero_le _

/-- Each event balances on the keyboard, as it does on the queue. -/
theorem Refines.balance {k : Keyboard} {q : Fifo} (h : Refines k q) (e : Event) :
    k.queue ++ k.accepted e = k.delivered e ++ (k.step e).queue := by
  rw [h.queue, h.accepted, h.delivered, (h.step e).queue, Fifo.step_balance]

theorem new_refines (buffer : Vector UInt8 internalBufferSize) : Refines (new buffer) Fifo.empty :=
  ⟨⟨Nat.zero_lt_succ 15, Nat.zero_le _, rfl⟩, rfl, rfl, rfl, rfl⟩

/-- Every run of the keyboard is a run of the queue. -/
theorem run_refines (buffer : Vector UInt8 internalBufferSize) (es : List Event) :
    Refines (run step (new buffer) es) (run Fifo.step Fifo.empty es) :=
  run_simulation (fun _ _ e h => h.step e) (new_refines buffer) es

/-- Insertion appends when the keyboard is enabled and holds fewer than 16
keycodes, and changes nothing at all otherwise. -/
theorem Refines.insert_cases {k : Keyboard} {q : Fifo} (h : Refines k q) (keycode : UInt8) :
    if k.enabled = true ∧ k.queue.length < 16 then
      (k.insertKeycodeEvent keycode).queue = k.queue ++ [keycode]
    else k.insertKeycodeEvent keycode = k := by
  split_ifs with hopen
  · rw [(h.insert keycode).queue, (Fifo.insert_queue q keycode).1, ← h.accepted, h.queue,
      Keyboard.accepted, if_pos hopen]
  · have hle : k.bufferElementCount ≤ 16 := h.wf.count_le
    rw [length_queue, not_and_or] at hopen
    unfold insertKeycodeEvent
    rcases hopen with hoff | hfull
    · rw [if_pos (by simpa using hoff)]
    · rw [if_pos (show k.bufferElementCount = 16 by omega), ite_self]

/-- Over a whole run, what was accepted is what was delivered followed by what is
held. -/
theorem observe_accepted (buffer : Vector UInt8 internalBufferSize) (es : List Event) :
    observe step accepted (new buffer) es =
      observe step delivered (new buffer) es ++ (run step (new buffer) es).queue := by
  have hacc := observe_simulation (R := Refines) (fun _ _ e h => h.step e) (fun _ _ e h => h.accepted e)
    (new_refines buffer) es
  have hdel := observe_simulation (R := Refines) (fun _ _ e h => h.step e) (fun _ _ e h => h.delivered e)
    (new_refines buffer) es
  rw [hacc, hdel, (run_refines buffer es).queue, Fifo.run_balance]

/-- Any run of the keyboard: the ring is well formed and holds the queue; a
keycode is appended exactly when the keyboard is enabled and not full; what was
accepted is what was delivered followed by what is held; and a read with nothing
held returns the keycode delivered last (0 when none was). -/
theorem keyboard_fifo (buffer : Vector UInt8 internalBufferSize) (es : List Event) :
    let k := run step (new buffer) es
    (k.bufferHeadPointer < 16 ∧ k.bufferTailPointer < 16 ∧ k.bufferElementCount ≤ 16 ∧
      k.bufferHeadPointer = (k.bufferTailPointer + k.bufferElementCount) % 16) ∧
    k.queue = (run Fifo.step Fifo.empty es).queue ∧
    (∀ keycode, if k.enabled = true ∧ k.queue.length < 16 then
        (k.insertKeycodeEvent keycode).queue = k.queue ++ [keycode]
      else k.insertKeycodeEvent keycode = k) ∧
    observe step accepted (new buffer) es =
      observe step delivered (new buffer) es ++ k.queue ∧
    (k.queue = [] → (k.readRegByte rbrAddr).2 =
      (observe step delivered (new buffer) es).getLast?.getD 0) := by
  intro k
  have href := run_refines buffer es
  have hdel := observe_simulation (R := Refines) (fun _ _ e h => h.step e) (fun _ _ e h => h.delivered e)
    (new_refines buffer) es
  refine ⟨⟨href.wf.head_lt, href.wf.tail_lt, href.wf.count_le, href.wf.head_eq⟩, href.queue,
    href.insert_cases, observe_accepted buffer es, fun hnil => ?_⟩
  · rw [href.reply, hdel, Fifo.deliver_last, ← href.queue, hnil]
    exact observe_latest Fifo.last Fifo.step_last Fifo.empty es

end Keyboard
end EndlessFault
