import EndlessFault.Frontend.KeyboardQueue

/- The keyboard's status bit and interrupt line. `Agrees` is the invariant:
   the bit `FI` says whether keycodes are held, the line is up exactly when
   `interrupt_raised` is set, and with interrupts enabled it is up whenever
   keycodes are held. `update_FI` establishes it from the line alone, and a
   configuration command keeps it, so it holds along every run. `irq_step` bounds
   the levels one event drives: none is 1 when it ends with interrupts disabled.
   Main result: `status_agrees`. -/
namespace EndlessFault
open Lib Lib.Machine

namespace Keyboard

/-- The line carries what `interrupt_raised` says. -/
def LineOk (k : Keyboard) : Prop := k.line = if k.interruptRaised then 1 else 0

/-- Status, interrupt flag and line agree with the number of keycodes held. -/
structure Agrees (k : Keyboard) : Prop where
  status : k.STR = if k.bufferElementCount = 0 then 0 else fiMask
  lineOk : k.LineOk
  held : k.interruptRaised = true → k.bufferElementCount ≠ 0
  asserted : k.interruptEnabled = true → k.bufferElementCount ≠ 0 → k.interruptRaised = true

theorem new_agrees (buffer : Vector UInt8 internalBufferSize) : Agrees (new buffer) where
  status := rfl
  lineOk := rfl
  held h := absurd h Bool.false_ne_true
  asserted h := absurd h Bool.false_ne_true

/-- Driving the line and recording it keeps the two in step. -/
theorem lineOk_drive (k : Keyboard) (raised : Bool) :
    LineOk { k.setIRQline (if raised then 1 else 0) with interruptRaised := raised } := by
  simp [LineOk, line, setIRQline]

theorem fi_set {status : UInt8} (h : status = 0 ∨ status = fiMask) : status ||| fiMask = fiMask := by
  rcases h with rfl | rfl <;> rfl

theorem fi_clear {status : UInt8} (h : status = 0 ∨ status = fiMask) : status &&& ~~~fiMask = 0 := by
  rcases h with rfl | rfl <;> rfl

/-- `update_FI` brings everything in line, whatever the count has become. -/
theorem updateFI_agrees {k : Keyboard} (hstr : k.STR = 0 ∨ k.STR = fiMask) (hline : k.LineOk)
    (insert : Bool) : Agrees (k.updateFI insert) := by
  -- after the first conditional: a keyboard with a consistent line and the same count
  have hmain : ∀ j : Keyboard, (j.STR = 0 ∨ j.STR = fiMask) → j.LineOk →
      Agrees (j.updateFI true) := by
    intro j hs hl
    simp only [updateFI, if_true]
    split_ifs with hc hen hr
    · exact ⟨by simp [setIRQline, fi_set hs, hc], lineOk_drive _ true, fun _ => hc, fun _ _ => rfl⟩
    · exact ⟨by simp [fi_set hs, hc], hl, fun _ => hc, fun h => absurd h hen⟩
    · exact ⟨by simp [setIRQline, fi_clear hs, not_not.mp hc], lineOk_drive _ false,
        fun h => absurd h Bool.false_ne_true, fun _ h => absurd h hc⟩
    · exact ⟨by simp [fi_clear hs, not_not.mp hc], hl, fun h => absurd h hr, fun _ h => absurd h hc⟩
  cases insert with
  | true => exact hmain k hstr hline
  | false => exact hmain { k.setIRQline 0 with interruptRaised := false } hstr (lineOk_drive k false)

theorem Agrees.status_cases {k : Keyboard} (h : Agrees k) : k.STR = 0 ∨ k.STR = fiMask := by
  rw [h.status]
  split_ifs
  · exact .inl rfl
  · exact .inr rfl

theorem Agrees.insert {k : Keyboard} (h : Agrees k) (keycode : UInt8) :
    Agrees (k.insertKeycodeEvent keycode) := by
  unfold insertKeycodeEvent
  split_ifs
  · exact h
  · exact h
  · apply updateFI_agrees
    · exact h.status_cases
    · exact h.lineOk

theorem Agrees.read {k : Keyboard} (h : Agrees k) (addr : UInt16) :
    Agrees (k.readRegByte addr).1 := by
  unfold readRegByte
  split_ifs
  · refine updateFI_agrees ?_ ?_ false <;> unfold nextRBR <;> split_ifs
    · exact h.status_cases
    · exact h.status_cases
    · exact h.lineOk
    · exact h.lineOk
  · exact h
  · exact h

theorem Agrees.processCmd {k : Keyboard} (h : Agrees k) : Agrees k.processCmd := by
  rcases processCmd_cases k with ⟨-, hk⟩ | ⟨-, hk | ⟨hheld, hk⟩ | ⟨hraised, hk⟩⟩
  · rw [hk]
    exact h
  · rw [hk]
    exact ⟨h.status, h.lineOk, h.held, fun hen => absurd hen Bool.false_ne_true⟩
  · rw [hk]
    exact ⟨h.status, lineOk_drive k true, fun _ => hheld, fun _ _ => rfl⟩
  · rw [hk]
    exact ⟨h.status, h.lineOk, h.held, fun _ => hraised⟩

theorem Agrees.step {k : Keyboard} (h : Agrees k) (e : Event) : Agrees (k.step e) := by
  cases e with
  | insert keycode => exact h.insert keycode
  | readByte addr => exact h.read addr
  | writeByte addr val =>
    unfold Keyboard.step writeRegByte
    dsimp only
    split_ifs
    · exact ⟨h.status, h.lineOk, h.held, h.asserted⟩
    · exact Agrees.processCmd ⟨h.status, h.lineOk, h.held, h.asserted⟩
    · exact h

/-- The invariant holds along every run. -/
theorem run_agrees (buffer : Vector UInt8 internalBufferSize) (es : List Event) :
    Agrees (run Keyboard.step (new buffer) es) :=
  run_invariant Agrees (fun _ => True) (fun _ e _ h => h.step e) (new_agrees buffer)
    (fun _ _ => trivial)

/-! The levels one event drives. -/

/-- `j` comes from `k` by driving some levels, none of them 1 when `j` ends with
interrupts disabled. -/
def Drives (k j : Keyboard) : Prop :=
  ∃ levels, j.irq = k.irq ++ levels ∧ (j.interruptEnabled = false → ∀ level ∈ levels, level = 0)

theorem Drives.none {k j : Keyboard} (h : j.irq = k.irq) : Drives k j :=
  ⟨[], by rw [h, List.append_nil], fun _ _ hl => absurd hl List.not_mem_nil⟩

theorem updateFI_drives (k : Keyboard) (insert : Bool) : Drives k (k.updateFI insert) := by
  cases insert with
  | true =>
    simp only [updateFI, if_true]
    split_ifs with hc hen hr
    · exact ⟨[1], rfl, fun h => absurd hen (by simpa [setIRQline] using h)⟩
    · exact .none rfl
    · exact ⟨[0], rfl, fun _ _ hl => List.mem_singleton.mp hl⟩
    · exact .none rfl
  | false =>
    -- a read drops the line first and raises it again for the keycodes left
    simp only [updateFI, Bool.false_eq_true, if_false, setIRQline]
    split_ifs with hc hen
    · exact ⟨[0, 1], by simp, fun h => absurd hen (by simpa using h)⟩
    · exact ⟨[0], rfl, fun _ _ hl => List.mem_singleton.mp hl⟩
    · exact ⟨[0], rfl, fun _ _ hl => List.mem_singleton.mp hl⟩

theorem irq_step (k : Keyboard) (e : Event) : Drives k (k.step e) := by
  cases e with
  | insert keycode =>
    simp only [step, insertKeycodeEvent]
    split_ifs
    · exact .none rfl
    · exact .none rfl
    · exact updateFI_drives _ true
  | readByte addr =>
    simp only [step, readRegByte]
    split_ifs
    · have hnext : k.nextRBR.irq = k.irq := by
        unfold nextRBR
        split_ifs <;> rfl
      obtain ⟨levels, hirq, hzero⟩ := updateFI_drives k.nextRBR false
      exact ⟨levels, by rw [hirq, hnext], hzero⟩
    · exact .none rfl
    · exact .none rfl
  | writeByte addr val =>
    simp only [step, writeRegByte]
    split_ifs
    · exact .none rfl
    · rcases processCmd_cases { k with TBR := val } with ⟨-, hk⟩ | ⟨-, hk | ⟨-, hk⟩ | ⟨-, hk⟩⟩ <;>
        rw [hk]
      · exact .none rfl
      · exact .none rfl
      · exact ⟨[1], rfl, fun h => absurd h.symm Bool.false_ne_true⟩
      · exact .none rfl
    · exact .none rfl

/-- A line that was down stays down when only 0 is driven. -/
theorem line_of_zeros {k j : Keyboard} {levels : List UInt16} (hirq : j.irq = k.irq ++ levels)
    (hzero : ∀ level ∈ levels, level = 0) (hline : k.line = 0) : j.line = 0 := by
  rw [line, hirq, List.getLast?_append]
  cases hlast : levels.getLast? with
  | none => exact hline
  | some level => exact hzero level (List.mem_of_getLast? hlast)

/-- In every state of every run the status and the line agree with the queue,
and no event that ends with interrupts disabled drives the line up. -/
theorem status_agrees (buffer : Vector UInt8 internalBufferSize) (es : List Event) :
    let k := run step (new buffer) es
    k.STR = (if k.queue = [] then 0 else 1) ∧
    (k.line = 1 ↔ k.interruptRaised = true) ∧
    (k.interruptRaised = true → k.queue ≠ []) ∧
    (k.interruptEnabled = true → k.queue ≠ [] → k.interruptRaised = true) ∧
    ∀ e, (k.step e).interruptEnabled = false →
      (k.line = 0 → (k.step e).line = 0) ∧
      ∀ level ∈ (k.step e).irq.drop k.irq.length, level = 0 := by
  intro k
  have h : Agrees k := run_agrees buffer es
  have hqueue := queue_eq_nil_iff k
  refine ⟨?_, ?_, fun hr => ?_, fun hen hq => ?_, fun e hoff => ?_⟩
  · rw [h.status]
    simp only [hqueue]
    rfl
  · rw [h.lineOk]
    cases k.interruptRaised <;> decide
  · exact fun hnil => h.held hr (hqueue.mp hnil)
  · exact h.asserted hen (fun hc => hq (hqueue.mpr hc))
  · obtain ⟨levels, hirq, hzero⟩ := irq_step k e
    refine ⟨line_of_zeros hirq (hzero hoff), ?_⟩
    rw [hirq, List.drop_left]
    exact hzero hoff

end Keyboard
end EndlessFault
