import EndlessFault.Frontend.KeyboardStatus
import Mathlib.Data.List.Induction

/- The interrupts that the keyboard raises. The levels passed to `set_IRQline` are a
   signal that starts at 0, and an interrupt is a rise of it. Every member function
   changes the queue before it drives the line, so the keycode in front at a rise is
   the one in front after the call; `edges` names it by its place among the accepted
   keycodes.

   `edge_step` counts the rises of one event: the line ends up exactly when it was up
   for the same keycode or rose once. From it, by induction over the run, a keycode
   has one rise if interrupts were enabled in some state with it in front, and none
   otherwise (`one_edge_per_keycode`). -/
namespace EndlessFault
open Lib Lib.Machine

namespace Keyboard

/-- The 0-to-1 transitions of a signal that comes from `level`. -/
def rises : UInt16 → List UInt16 → Nat
  | _, [] => 0
  | level, next :: levels => (if level = 0 ∧ next = 1 then 1 else 0) + rises next levels

/-- The levels an event drives. -/
def levels (k : Keyboard) (e : Event) : List UInt16 := (k.step e).irq.drop k.irq.length

/-- A keyboard and the number of keycodes it has delivered. -/
def countStep (s : Keyboard × Nat) (e : Event) : Keyboard × Nat :=
  (s.1.step e, s.2 + (s.1.delivered e).length)

/-- For each rise in an event, the place of the keycode then in front, if any. -/
def edgesOf (s : Keyboard × Nat) (e : Event) : List (Option Nat) :=
  let s' := countStep s e
  List.replicate (rises s.1.line (s.1.levels e)) (if s'.1.queue = [] then none else some s'.2)

/-- The rises of a whole run. -/
def edges (buffer : Vector UInt8 internalBufferSize) (es : List Event) : List (Option Nat) :=
  observe countStep edgesOf (new buffer, 0) es

/-- The number of keycodes delivered in a run. -/
def dequeued (buffer : Vector UInt8 internalBufferSize) (es : List Event) : Nat :=
  (observe step delivered (new buffer) es).length

/-- In some state of the run, the initial one included, keycode `i` is in front and
interrupts are enabled. -/
def Asserted (buffer : Vector UInt8 internalBufferSize) (es : List Event) (i : Nat) : Prop :=
  ∃ pre, pre <+: es ∧ dequeued buffer pre = i ∧ (run step (new buffer) pre).queue ≠ [] ∧
    (run step (new buffer) pre).interruptEnabled = true

/-! One event. -/

theorem rises_append (level : UInt16) (ls ls' : List UInt16) :
    rises level (ls ++ ls') = rises level ls + rises (ls.getLast?.getD level) ls' := by
  induction ls generalizing level with
  | nil => rw [List.nil_append, rises, Nat.zero_add]; rfl
  | cons l ls ih =>
    have hlast : (l :: ls).getLast?.getD level = ls.getLast?.getD l := by
      rw [List.getLast?_cons, Option.getD_some]
    rw [List.cons_append, rises, ih, rises, hlast, Nat.add_assoc]

theorem irq_eq (k : Keyboard) (e : Event) : (k.step e).irq = k.irq ++ k.levels e := by
  obtain ⟨ls, hirq, -⟩ := irq_step k e
  rw [levels, hirq, List.drop_left]

/-- The line as a level. -/
theorem LineOk.rises_one {k : Keyboard} (h : k.LineOk) :
    rises k.line [1] + k.interruptRaised.toNat = 1 := by
  rw [LineOk] at h
  rw [h]
  cases k.interruptRaised <;> decide

/-- `update_FI` after an insertion: the line stays up or rises. -/
theorem rises_updateFI_true {k : Keyboard} (h : k.LineOk)
    (hheld : k.interruptRaised = true → k.bufferElementCount ≠ 0) :
    ∃ ls, (k.updateFI true).irq = k.irq ++ ls ∧
      rises k.line ls + k.interruptRaised.toNat = (k.updateFI true).interruptRaised.toNat := by
  simp only [updateFI, if_true]
  split_ifs with hc hen hr
  · exact ⟨[1], rfl, h.rises_one⟩
  · exact ⟨[], (List.append_nil _).symm, Nat.zero_add _⟩
  · exact absurd (hheld hr) hc
  · exact ⟨[], (List.append_nil _).symm, Nat.zero_add _⟩

/-- `update_FI` after a read: the line falls, and rises again when it ends up. -/
theorem rises_updateFI_false (k : Keyboard) :
    ∃ ls, (k.updateFI false).irq = k.irq ++ ls ∧
      rises k.line ls = (k.updateFI false).interruptRaised.toNat := by
  have hfall : ∀ level : UInt16, rises level [0] = 0 := by
    intro level
    rw [rises, if_neg fun h => absurd h.2 (by decide), rises]
  simp only [updateFI, Bool.false_eq_true, if_false, setIRQline]
  split_ifs with hc hen
  · refine ⟨[0, 1], by simp, ?_⟩
    rw [rises, if_neg fun h => absurd h.2 (by decide)]
    rfl
  · exact ⟨[0], rfl, hfall _⟩
  · exact ⟨[0], rfl, hfall _⟩

theorem rises_insert {k : Keyboard} (h : Agrees k) (keycode : UInt8) :
    ∃ ls, (k.insertKeycodeEvent keycode).irq = k.irq ++ ls ∧
      rises k.line ls + k.interruptRaised.toNat =
        (k.insertKeycodeEvent keycode).interruptRaised.toNat := by
  unfold insertKeycodeEvent
  split_ifs
  · exact ⟨[], (List.append_nil _).symm, Nat.zero_add _⟩
  · exact ⟨[], (List.append_nil _).symm, Nat.zero_add _⟩
  · exact rises_updateFI_true h.lineOk fun _ => Nat.succ_ne_zero _

theorem rises_read {k : Keyboard} (h : Agrees k) (addr : UInt16) :
    ∃ ls, (k.readRegByte addr).1.irq = k.irq ++ ls ∧
      rises k.line ls + (if k.delivered (.readByte addr) = [] then k.interruptRaised.toNat else 0) =
        (k.readRegByte addr).1.interruptRaised.toNat := by
  unfold readRegByte
  by_cases hrbr : addr = rbrAddr
  · obtain ⟨ls, hirq, hrises⟩ := rises_updateFI_false k.nextRBR
    have hnext : k.nextRBR.irq = k.irq := by
      unfold nextRBR
      split_ifs <;> rfl
    rw [line, hnext, ← line] at hrises
    rw [if_pos hrbr]
    refine ⟨ls, hnext ▸ hirq, ?_⟩
    -- with nothing delivered nothing was held, and the line was down
    by_cases hnil : k.queue = []
    · have hdown : k.interruptRaised = false := by
        by_contra hup
        exact h.held (by simpa using hup) ((queue_eq_nil_iff k).mp hnil)
      rw [hdown, Bool.toNat_false, ite_self, Nat.add_zero]
      exact hrises
    · have hdel : k.delivered (.readByte addr) ≠ [] := by
        rw [delivered, if_pos ⟨hrbr, hnil⟩]
        exact List.cons_ne_nil _ _
      rw [if_neg hdel, Nat.add_zero]
      exact hrises
  · have hdel : k.delivered (.readByte addr) = [] := if_neg fun hc => hrbr hc.1
    rw [if_neg hrbr, if_pos hdel]
    split_ifs
    · exact ⟨[], (List.append_nil _).symm, Nat.zero_add _⟩
    · exact ⟨[], (List.append_nil _).symm, Nat.zero_add _⟩

theorem rises_write {k : Keyboard} (h : Agrees k) (addr : UInt16) (val : UInt8) :
    ∃ ls, (k.writeRegByte addr val).irq = k.irq ++ ls ∧
      rises k.line ls + k.interruptRaised.toNat = (k.writeRegByte addr val).interruptRaised.toNat := by
  unfold writeRegByte
  split_ifs
  · exact ⟨[], (List.append_nil _).symm, Nat.zero_add _⟩
  · rcases processCmd_cases { k with TBR := val } with ⟨-, hp⟩ | ⟨-, hp | ⟨-, hp⟩ | ⟨-, hp⟩⟩
    · rw [hp]
      exact ⟨[], (List.append_nil _).symm, Nat.zero_add _⟩
    · rw [hp]
      exact ⟨[], (List.append_nil _).symm, Nat.zero_add _⟩
    · rw [hp]
      exact ⟨[1], rfl, h.lineOk.rises_one⟩
    · rw [hp]
      exact ⟨[], (List.append_nil _).symm, Nat.zero_add _⟩
  · exact ⟨[], (List.append_nil _).symm, Nat.zero_add _⟩

/-- The rises of one event: the line ends up exactly when it was up for a keycode
that is still in front, or rose once. -/
theorem edge_step {k : Keyboard} (h : Agrees k) (e : Event) :
    rises k.line (k.levels e) + (if k.delivered e = [] then k.interruptRaised.toNat else 0) =
      (k.step e).interruptRaised.toNat := by
  obtain ⟨ls, hirq, hrises⟩ : ∃ ls, (k.step e).irq = k.irq ++ ls ∧
      rises k.line ls + (if k.delivered e = [] then k.interruptRaised.toNat else 0) =
        (k.step e).interruptRaised.toNat := by
    cases e with
    | insert keycode => exact rises_insert h keycode
    | readByte addr => exact rises_read h addr
    | writeByte addr val => exact rises_write h addr val
  rw [levels, hirq, List.drop_left]
  exact hrises

theorem rises_zeros {ls : List UInt16} (h : ∀ l ∈ ls, l = 0) (level : UInt16) : rises level ls = 0 := by
  induction ls generalizing level with
  | nil => rfl
  | cons l ls ih =>
    have hl := h l List.mem_cons_self
    rw [rises, ih fun m hm => h m (List.mem_cons_of_mem l hm), hl, if_neg fun hc => absurd hc.2 (by decide)]

/-- The line rises only into a state with interrupts enabled. -/
theorem enabled_of_rise {k : Keyboard} {e : Event} (h : rises k.line (k.levels e) ≠ 0) :
    (k.step e).interruptEnabled = true := by
  obtain ⟨ls, hirq, hzero⟩ := irq_step k e
  by_contra hoff
  apply h
  rw [levels, hirq, List.drop_left]
  exact rises_zeros (hzero (by simpa using hoff)) _

/-! Runs. -/

section
variable (buffer : Vector UInt8 internalBufferSize) (es : List Event) (e : Event)

theorem dequeued_concat : dequeued buffer (es ++ [e]) =
    dequeued buffer es + ((run step (new buffer) es).delivered e).length := by
  rw [dequeued, observe_append, List.length_append, ← dequeued, observe_cons, observe_nil, List.append_nil]

theorem run_concat : run step (new buffer) (es ++ [e]) = (run step (new buffer) es).step e := by
  rw [run_append, run_cons, run_nil]

theorem run_countStep :
    run countStep (new buffer, 0) es = (run step (new buffer) es, dequeued buffer es) := by
  induction es using List.reverseRecOn with
  | nil => rfl
  | append_singleton es e ih =>
    rw [run_append, run_cons, run_nil, ih, run_concat, dequeued_concat]
    rfl

theorem edges_concat : edges buffer (es ++ [e]) = edges buffer es ++
    List.replicate (rises (run step (new buffer) es).line ((run step (new buffer) es).levels e))
      (if (run step (new buffer) (es ++ [e])).queue = [] then none
        else some (dequeued buffer (es ++ [e]))) := by
  rw [edges, observe_append, ← edges, observe_cons, observe_nil, List.append_nil, run_countStep,
    run_concat, dequeued_concat]
  rfl

theorem asserted_concat (i : Nat) : Asserted buffer (es ++ [e]) i ↔ Asserted buffer es i ∨
    (dequeued buffer (es ++ [e]) = i ∧ (run step (new buffer) (es ++ [e])).queue ≠ [] ∧
      (run step (new buffer) (es ++ [e])).interruptEnabled = true) := by
  constructor
  · rintro ⟨pre, hpre, hfront⟩
    rcases List.prefix_concat_iff.mp hpre with rfl | hpre
    · exact .inr hfront
    · exact .inl ⟨pre, hpre, hfront⟩
  · rintro (⟨pre, hpre, hfront⟩ | hfront)
    · exact ⟨pre, hpre.trans (List.prefix_append ..), hfront⟩
    · exact ⟨_, List.prefix_rfl, hfront⟩

/-- What the rises of a run amount to. The keycode in front has had its rise exactly
when the line is up. -/
structure Counted : Prop where
  count : ∀ i, (Asserted buffer es i → (edges buffer es).count (some i) = 1) ∧
    (¬ Asserted buffer es i → (edges buffer es).count (some i) = 0)
  front : Asserted buffer es (dequeued buffer es) ↔
    (run step (new buffer) es).interruptRaised = true
  later : ∀ i, dequeued buffer es < i → ¬ Asserted buffer es i
  named : ∀ f ∈ edges buffer es, ∃ i, f = some i ∧ i < (observe step accepted (new buffer) es).length
  total : rises 0 (run step (new buffer) es).irq = (edges buffer es).length

end

theorem counted_nil (buffer : Vector UInt8 internalBufferSize) : Counted buffer [] := by
  have hnone : ∀ i, ¬ Asserted buffer [] i := by
    rintro i ⟨pre, hpre, -, hqueue, -⟩
    obtain rfl := List.prefix_nil.mp hpre
    exact hqueue rfl
  refine ⟨fun i => ⟨fun h => absurd h (hnone i), fun _ => rfl⟩, ?_, fun i _ => hnone i, ?_, rfl⟩
  · exact iff_of_false (hnone _) Bool.false_ne_true
  · intro f hf
    exact absurd hf List.not_mem_nil

section
variable {buffer : Vector UInt8 internalBufferSize} {es : List Event} (e : Event)

theorem queue_of_raised {k : Keyboard} (h : Agrees k) (hr : k.interruptRaised = true) : k.queue ≠ [] :=
  fun hnil => h.held hr ((queue_eq_nil_iff k).mp hnil)

/-- The line rises into a state with the line up, and so with a keycode in front. -/
theorem raised_of_rise
    (hn : rises (run step (new buffer) es).line ((run step (new buffer) es).levels e) ≠ 0) :
    (run step (new buffer) (es ++ [e])).interruptRaised = true := by
  have hedge := edge_step (run_agrees buffer es) e
  rw [← run_concat] at hedge
  cases hr : (run step (new buffer) (es ++ [e])).interruptRaised with
  | true => rfl
  | false =>
    rw [hr, Bool.toNat_false] at hedge
    omega

theorem count_concat (i : Nat) : (edges buffer (es ++ [e])).count (some i) =
    (edges buffer es).count (some i) + if dequeued buffer (es ++ [e]) = i then
      rises (run step (new buffer) es).line ((run step (new buffer) es).levels e) else 0 := by
  rw [edges_concat, List.count_append]
  congr 1
  by_cases hn : rises (run step (new buffer) es).line ((run step (new buffer) es).levels e) = 0
  · rw [hn, ite_self]
    rfl
  · rw [if_neg (queue_of_raised (run_agrees buffer _) (raised_of_rise e hn)), List.count_replicate]
    simp

/-- The keycode in front after an event had its rise before exactly when the line was
up for it; with the rises of the event it has one exactly when the line is up now. -/
theorem Counted.front_concat (h : Counted buffer es) : ∃ up : Bool,
    (Asserted buffer es (dequeued buffer (es ++ [e])) ↔ up = true) ∧
    rises (run step (new buffer) es).line ((run step (new buffer) es).levels e) + up.toNat =
      (run step (new buffer) (es ++ [e])).interruptRaised.toNat := by
  have hedge := edge_step (run_agrees buffer es) e
  have hdeq := dequeued_concat buffer es e
  rw [← run_concat] at hedge
  by_cases hdel : (run step (new buffer) es).delivered e = []
  · rw [if_pos hdel] at hedge
    rw [hdel, List.length_nil, Nat.add_zero] at hdeq
    exact ⟨_, hdeq ▸ h.front, hedge⟩
  · rw [if_neg hdel] at hedge
    have hpos := List.length_pos_of_ne_nil hdel
    exact ⟨false, iff_of_false (h.later _ (by omega)) Bool.false_ne_true, hedge⟩

/-- An event asserts the keycode in front after it only. -/
theorem asserted_other {i : Nat} (hne : dequeued buffer (es ++ [e]) ≠ i) :
    Asserted buffer (es ++ [e]) i ↔ Asserted buffer es i := by
  rw [asserted_concat]
  exact ⟨fun hi => hi.resolve_right fun hc => hne hc.1, .inl⟩

theorem Counted.asserted_front (h : Counted buffer es) :
    Asserted buffer (es ++ [e]) (dequeued buffer (es ++ [e])) ↔
      (run step (new buffer) (es ++ [e])).interruptRaised = true := by
  obtain ⟨up, hbefore, hedge⟩ := h.front_concat e
  have hk' := run_agrees buffer (es ++ [e])
  rw [asserted_concat, hbefore]
  constructor
  · rintro (hup | ⟨-, hqueue, hen⟩)
    · rw [hup] at hedge
      cases hr : (run step (new buffer) (es ++ [e])).interruptRaised with
      | true => rfl
      | false => rw [hr, Bool.toNat_false, Bool.toNat_true] at hedge; omega
    · exact hk'.asserted hen fun hc => hqueue ((queue_eq_nil_iff _).mpr hc)
  · intro hr
    cases hup : up with
    | true => exact .inl rfl
    | false =>
      rw [hr, hup, Bool.toNat_false, Bool.toNat_true] at hedge
      refine .inr ⟨rfl, queue_of_raised hk' hr, ?_⟩
      rw [run_concat]
      exact enabled_of_rise (by omega)

/-- The keycode in front has one rise when the line is up, and none when it is down. -/
theorem Counted.count_front (h : Counted buffer es) :
    (edges buffer (es ++ [e])).count (some (dequeued buffer (es ++ [e]))) =
      (run step (new buffer) (es ++ [e])).interruptRaised.toNat := by
  obtain ⟨up, hbefore, hedge⟩ := h.front_concat e
  have hcount : (edges buffer es).count (some (dequeued buffer (es ++ [e]))) = up.toNat := by
    cases hup : up with
    | true => exact (h.count _).1 (hbefore.mpr hup)
    | false => exact (h.count _).2 fun hc => Bool.false_ne_true (hup ▸ hbefore.mp hc)
  rw [count_concat, if_pos rfl, hcount, Nat.add_comm, hedge]

theorem Counted.named_concat (h : Counted buffer es) : ∀ f ∈ edges buffer (es ++ [e]),
    ∃ i, f = some i ∧ i < (observe step accepted (new buffer) (es ++ [e])).length := by
  intro f hf
  rw [edges_concat] at hf
  obtain hf | hf := List.mem_append.mp hf
  · obtain ⟨i, hi, hlt⟩ := h.named f hf
    refine ⟨i, hi, ?_⟩
    rw [observe_append, List.length_append]
    omega
  · obtain ⟨hn, hf⟩ := List.mem_replicate.mp hf
    have hqueue := queue_of_raised (run_agrees buffer (es ++ [e])) (raised_of_rise e hn)
    refine ⟨_, by rw [hf, if_neg hqueue], ?_⟩
    have hpos := List.length_pos_of_ne_nil hqueue
    rw [observe_accepted, List.length_append, ← dequeued]
    omega

theorem Counted.total_concat (h : Counted buffer es) :
    rises 0 (run step (new buffer) (es ++ [e])).irq = (edges buffer (es ++ [e])).length := by
  have hirq : (run step (new buffer) (es ++ [e])).irq =
      (run step (new buffer) es).irq ++ (run step (new buffer) es).levels e := by
    rw [run_concat, irq_eq]
  rw [hirq, rises_append, h.total, edges_concat, List.length_append, List.length_replicate]
  rfl

theorem Counted.concat (h : Counted buffer es) : Counted buffer (es ++ [e]) := by
  have hdeq := dequeued_concat buffer es e
  refine ⟨?_, h.asserted_front e, ?_, h.named_concat e, h.total_concat e⟩
  · intro i
    by_cases hi : dequeued buffer (es ++ [e]) = i
    · rw [← hi, h.count_front e, h.asserted_front e]
      cases (run step (new buffer) (es ++ [e])).interruptRaised <;> decide
    · rw [count_concat, if_neg hi, Nat.add_zero, asserted_other e hi]
      exact h.count i
  · intro i hi
    rw [asserted_other e (by omega)]
    exact h.later i (by omega)

end

theorem counted (buffer : Vector UInt8 internalBufferSize) (es : List Event) : Counted buffer es := by
  induction es using List.reverseRecOn with
  | nil => exact counted_nil buffer
  | append_singleton es e ih => exact ih.concat e

/-- With interrupts enabled whenever a keycode is held, every keycode delivered has
had its rise, and the one in front has it when the line is up. -/
theorem total_enabled {buffer : Vector UInt8 internalBufferSize} {es : List Event}
    (hen : ∀ pre, pre <+: es → (run step (new buffer) pre).queue ≠ [] →
      (run step (new buffer) pre).interruptEnabled = true) :
    rises 0 (run step (new buffer) es).irq =
      dequeued buffer es + (run step (new buffer) es).interruptRaised.toNat := by
  induction es using List.reverseRecOn with
  | nil => rfl
  | append_singleton es e ih =>
    have hk := run_agrees buffer es
    have hedge := edge_step hk e
    have hdeq := dequeued_concat buffer es e
    have hprev := ih fun pre hpre => hen pre (hpre.trans (List.prefix_append ..))
    rw [run_concat, irq_eq, rises_append, hprev]
    show _ + rises (run step (new buffer) es).line _ = _
    by_cases hdel : (run step (new buffer) es).delivered e = []
    · rw [if_pos hdel] at hedge
      rw [hdel, List.length_nil] at hdeq
      omega
    · -- a keycode was delivered, so one was held, and the line was up for it
      have hqueue : (run step (new buffer) es).queue ≠ [] := by
        intro hnil
        cases e with
        | insert keycode => exact hdel rfl
        | writeByte addr val => exact hdel rfl
        | readByte addr => exact hdel (if_neg fun hc => hc.2 hnil)
      have hup : (run step (new buffer) es).interruptRaised = true :=
        hk.asserted (hen es (List.prefix_append ..) hqueue) fun hc => hqueue ((queue_eq_nil_iff _).mpr hc)
      have hlen := length_delivered_le (run step (new buffer) es) e
      have hpos := List.length_pos_of_ne_nil hdel
      rw [if_neg hdel] at hedge
      rw [hup, Bool.toNat_true]
      omega

/-- Any run of the keyboard: the rises of the line are the ones listed in `edges`,
each with an accepted keycode in front; a keycode has one if interrupts are enabled in
some state with it in front, and none otherwise; and with interrupts enabled whenever
a keycode is held, there is one for each keycode delivered and one for the one in
front. -/
theorem one_edge_per_keycode (buffer : Vector UInt8 internalBufferSize) (es : List Event) :
    let k := run step (new buffer) es
    let accepted := observe step accepted (new buffer) es
    rises 0 k.irq = (edges buffer es).length ∧
    (∀ f ∈ edges buffer es, ∃ i, f = some i ∧ i < accepted.length) ∧
    (∀ i, i < accepted.length →
      (Asserted buffer es i → (edges buffer es).count (some i) = 1) ∧
      (¬ Asserted buffer es i → (edges buffer es).count (some i) = 0)) ∧
    ((∀ pre, pre <+: es → (run step (new buffer) pre).queue ≠ [] →
        (run step (new buffer) pre).interruptEnabled = true) →
      rises 0 k.irq = dequeued buffer es + if k.queue = [] then 0 else 1) := by
  intro k accepted
  have h := counted buffer es
  have hk : Agrees k := run_agrees buffer es
  refine ⟨h.total, h.named, fun i _ => h.count i, ?_⟩
  intro hen
  rw [total_enabled hen]
  congr 1
  by_cases hnil : k.queue = []
  · have hdown : k.interruptRaised = false := by
      by_contra hup
      exact queue_of_raised hk (by simpa using hup) hnil
    rw [if_pos hnil]
    exact congrArg Bool.toNat hdown
  · have hup : k.interruptRaised = true :=
      hk.asserted (hen es List.prefix_rfl hnil) fun hc => hnil ((queue_eq_nil_iff k).mpr hc)
    rw [if_neg hnil]
    exact congrArg Bool.toNat hup

end Keyboard
end EndlessFault
