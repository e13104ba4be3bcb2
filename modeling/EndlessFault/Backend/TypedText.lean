import EndlessFault.Backend.ConsoleInput
import Mathlib.Data.List.GetD

/- Typed text and the guest's decoding of it. The thread and the guest each keep a
   shift state, and the thread assumes that the shift codes it inserts arrive.
   `Synced` is what this needs: decoded over all the keycodes accepted so far, the
   shift state is the one from which the pending keycodes decode to their labels and
   leave `is_shifted`. A make or a break code may be refused without harm, a shift
   code may not (`typed_text`). -/
namespace EndlessFault
open Lib Lib.Machine

namespace ConsoleInput
open Keyboard

/-! One character. -/

theorem tab_facts : ∀ code ∈ tab, code ≠ 0 ∧ code ≠ shiftMake ∧ code ≠ shiftBreak ∧
    code ||| 0x80 ≠ shiftMake ∧ code ||| 0x80 ≠ shiftBreak ∧ code ||| 0x80 ∉ tab := by
  decide +kernel

theorem tab_nodup : tab.Nodup := by decide

/-- The make code of position `pos` decodes by the table of the shift state. -/
theorem decodeChar_tab {pos : Nat} (hpos : pos < maxCode) (shift : Bool) :
    decodeChar shift (tab.getD pos 0) = some ((if shift then tabmai else tabmin).getD pos 0) := by
  have hlen : pos < tab.length := hpos
  have hget : tab.getD pos 0 = tab[pos] := List.getD_eq_getElem _ _ hlen
  obtain ⟨-, hmake, hbreak, -⟩ := tab_facts tab[pos] (List.getElem_mem hlen)
  have hidx : tab.idxOf tab[pos] = pos := tab_nodup.idxOf_getElem pos hlen
  have hne : pos ≠ maxCode := Nat.ne_of_lt hpos
  rw [hget, decodeChar, hidx, if_neg (by simp [hmake, hbreak, hne])]

/-- Neither a make nor a break code moves the shift state, and a break code is no
character. -/
theorem decode_key {pos : Nat} (hpos : pos < maxCode) (shift : Bool) :
    decodeShift shift (tab.getD pos 0) = shift ∧
    decodeShift shift (tab.getD pos 0 ||| 0x80) = shift ∧
    decodeChar shift (tab.getD pos 0 ||| 0x80) = none := by
  have hlen : pos < tab.length := hpos
  have hget : tab.getD pos 0 = tab[pos] := List.getD_eq_getElem _ _ hlen
  obtain ⟨-, h1, h2, h3, h4, h5⟩ := tab_facts tab[pos] (List.getElem_mem hlen)
  have hidx : tab.idxOf (tab[pos] ||| 0x80) = maxCode := List.idxOf_eq_length h5
  rw [hget]
  refine ⟨?_, ?_, ?_⟩
  · rw [decodeShift, if_neg h1, if_neg h2]
  · rw [decodeShift, if_neg h3, if_neg h4]
  · rw [decodeChar, hidx, if_pos (.inr (.inr rfl))]

theorem asciiToKeycode_cases (asciiC : UInt8) (shift : Bool) :
    (asciiC ∉ tabmin ∧ asciiC ∉ tabmai ∧ asciiToKeycode asciiC shift = (0, shift)) ∨
    ∃ newShift pos, pos < maxCode ∧ (if newShift then tabmai else tabmin).getD pos 0 = asciiC ∧
      asciiToKeycode asciiC shift = (tab.getD pos 0, newShift) := by
  -- a position found holds the character
  have hfound : ∀ table : List UInt8, table.length = maxCode → table.idxOf asciiC ≠ maxCode →
      table.idxOf asciiC < maxCode ∧ table.getD (table.idxOf asciiC) 0 = asciiC := by
    intro table hlen hne
    have hlt : table.idxOf asciiC < table.length := by
      have := List.idxOf_le_length (l := table) (a := asciiC)
      omega
    exact ⟨hlen ▸ hlt, by rw [List.getD_eq_getElem _ _ hlt, List.getElem_idxOf]⟩
  unfold asciiToKeycode
  by_cases hmin : tabmin.idxOf asciiC = maxCode
  · by_cases hmai : tabmai.idxOf asciiC = maxCode
    · refine .inl ⟨?_, ?_, by simp only [hmin, hmai, if_true]⟩
      · exact List.idxOf_eq_length_iff.mp hmin
      · exact List.idxOf_eq_length_iff.mp hmai
    · obtain ⟨hlt, hchar⟩ := hfound tabmai (by decide) hmai
      exact .inr ⟨true, _, hlt, hchar, by simp only [hmin, hmai, if_true, if_false]⟩
  · obtain ⟨hlt, hchar⟩ := hfound tabmin (by decide) hmin
    exact .inr ⟨false, _, hlt, hchar, by simp only [hmin, if_false]⟩

@[simp] theorem decode_nil (shift : Bool) : decode shift [] = [] := rfl

@[simp] theorem decode_cons (shift : Bool) (code : UInt8) (codes : List UInt8) :
    decode shift (code :: codes) = decodeChar shift code :: decode (decodeShift shift code) codes := rfl

theorem decode_append (shift : Bool) (codes codes' : List UInt8) :
    decode shift (codes ++ codes') =
      decode shift codes ++ decode (run decodeShift shift codes) codes' :=
  observe_append ..

theorem length_decode (shift : Bool) (codes : List UInt8) :
    (decode shift codes).length = codes.length := by
  induction codes generalizing shift with
  | nil => rfl
  | cons code codes ih => rw [decode_cons, List.length_cons, ih, List.length_cons]

/-- The keycodes `keycodes` decode to their labels from `shift` on and leave `after`. -/
def Decodes (shift : Bool) (keycodes : List Keycode) (after : Bool) : Prop :=
  decode shift (keycodes.map Keycode.code) = keycodes.map Keycode.char ∧
  run decodeShift shift (keycodes.map Keycode.code) = after

theorem Decodes.cons_iff {shift after : Bool} {keycode : Keycode} {keycodes : List Keycode} :
    Decodes shift (keycode :: keycodes) after ↔
      decodeChar shift keycode.code = keycode.char ∧
      Decodes (decodeShift shift keycode.code) keycodes after := by
  simp only [Decodes, List.map_cons, decode_cons, run_cons, List.cons.injEq, and_assoc]

/-- One round of the thread, when all its keycodes arrive. -/
theorem mainThread_decodes (isShifted : Bool) (newchar : UInt8) :
    Decodes isShifted (mainThread isShifted newchar).1 (mainThread isShifted newchar).2 ∧
    ((mainThread isShifted newchar).1.filterMap Keycode.char).Sublist [newchar] := by
  unfold mainThread
  rcases asciiToKeycode_cases newchar isShifted with ⟨-, -, hnone⟩ | ⟨newShift, pos, hpos, hchar, hfound⟩
  · rw [hnone]
    simp [Decodes]
  · have hcode : tab.getD pos 0 ≠ 0 := by
      rw [List.getD_eq_getElem _ _ hpos]
      exact (tab_facts _ (List.getElem_mem _)).1
    have hkey : Decodes newShift [⟨tab.getD pos 0, some newchar⟩, ⟨tab.getD pos 0 ||| 0x80, none⟩]
        newShift := by
      obtain ⟨hmake, hbreak, hno⟩ := decode_key hpos newShift
      rw [Decodes.cons_iff, Decodes.cons_iff, decodeChar_tab hpos, hchar, hmake, hbreak, hno]
      exact ⟨rfl, rfl, rfl, rfl⟩
    rw [hfound]
    simp only [hcode, ne_eq, not_false_eq_true, if_true]
    cases isShifted <;> cases newShift
    · exact ⟨hkey, by simp⟩
    · exact ⟨Decodes.cons_iff.mpr ⟨rfl, hkey⟩, by simp⟩
    · exact ⟨Decodes.cons_iff.mpr ⟨rfl, hkey⟩, by simp⟩
    · exact ⟨hkey, by simp⟩

/-! Runs. -/

structure Synced (s : ConsoleInput) : Prop where
  ring : ∃ q, Refines s.attachedKeyboard q
  queue : s.held.map Keycode.code = s.attachedKeyboard.queue
  shift : ∃ shift, Decodes false (s.delivered ++ s.held) shift ∧ Decodes shift s.pending s.isShifted
  order : ((s.delivered ++ s.held ++ s.pending).filterMap Keycode.char).Sublist s.typed

theorem start_synced (buffer : Vector UInt8 internalBufferSize) : Synced (start buffer) where
  ring := ⟨_, new_refines buffer⟩
  queue := rfl
  shift := ⟨false, ⟨rfl, rfl⟩, ⟨rfl, rfl⟩⟩
  order := List.Sublist.refl _

/-- A shift code is inserted only when the keyboard takes it. -/
def ShiftTaken (s : ConsoleInput) : Action → Prop
  | .insert => ∀ keycode ∈ s.pending.head?, keycode.code = shiftMake ∨ keycode.code = shiftBreak →
      s.attachedKeyboard.enabled = true ∧ s.attachedKeyboard.queue.length < 16
  | _ => True

theorem Decodes.append {shift middle after : Bool} {keycodes keycodes' : List Keycode}
    (h : Decodes shift keycodes middle) (h' : Decodes middle keycodes' after) :
    Decodes shift (keycodes ++ keycodes') after := by
  refine ⟨?_, ?_⟩
  · rw [List.map_append, decode_append, h.2, h.1, h'.1, List.map_append]
  · rw [List.map_append, run_append, h.2, h'.2]

/-- A character is read: the thread and the decoder are in the same shift state. -/
theorem Synced.type {s : ConsoleInput} (h : Synced s) (newchar : UInt8) :
    Synced (s.step (.type newchar)) := by
  simp only [step]
  split_ifs with hidle
  · obtain ⟨shift, hall, hpending⟩ := h.shift
    obtain rfl : shift = s.isShifted := by
      rw [hidle] at hpending
      exact hpending.2
    obtain ⟨hdec, hsub⟩ := mainThread_decodes s.isShifted newchar
    refine ⟨h.ring, h.queue, ⟨s.isShifted, hall, hdec⟩, ?_⟩
    have horder := h.order
    rw [hidle, List.append_nil] at horder
    show (List.filterMap _ (s.delivered ++ s.held ++ (mainThread s.isShifted newchar).1)).Sublist _
    rw [List.filterMap_append]
    exact horder.append hsub
  · exact h

/-- A keycode is inserted. It joins the accepted ones, or it is refused and the shift
state stays as it is. -/
theorem Synced.insert {s : ConsoleInput} (h : Synced s) (hok : ShiftTaken s .insert) :
    Synced (s.step .insert) := by
  cases hp : s.pending with
  | nil =>
    simp only [step, hp]
    exact h
  | cons keycode pending =>
    obtain ⟨q, hq⟩ := h.ring
    obtain ⟨shift, hall, hpending⟩ := h.shift
    rw [hp, Decodes.cons_iff] at hpending
    obtain ⟨hchar, hrest⟩ := hpending
    have horder := h.order
    rw [hp] at horder
    have hring : ∃ q, Refines (s.attachedKeyboard.insertKeycodeEvent keycode.code) q :=
      ⟨_, hq.insert keycode.code⟩
    have hcases := hq.insert_cases keycode.code
    by_cases htaken : s.attachedKeyboard.enabled = true ∧ s.attachedKeyboard.queue.length < 16
    · rw [if_pos htaken] at hcases
      have hacc : s.attachedKeyboard.accepted (.insert keycode.code) = [keycode.code] := if_pos htaken
      simp only [step, hp, hacc, List.map_cons, List.map_nil]
      refine ⟨hring, ?_, ⟨decodeShift shift keycode.code, ?_, hrest⟩, ?_⟩
      · rw [List.map_append, h.queue, hcases]
        rfl
      · rw [← List.append_assoc]
        exact hall.append ⟨by simp [hchar], rfl⟩
      · simpa using horder
    · rw [if_neg htaken] at hcases
      have hacc : s.attachedKeyboard.accepted (.insert keycode.code) = [] := if_neg htaken
      -- a keycode that is refused is no shift code
      have hkeep : decodeShift shift keycode.code = shift := by
        have hno : ¬ (keycode.code = shiftMake ∨ keycode.code = shiftBreak) :=
          fun hs => htaken (hok keycode (by rw [hp]; rfl) hs)
        rw [not_or] at hno
        rw [decodeShift, if_neg hno.1, if_neg hno.2]
      rw [hkeep] at hrest
      simp only [step, hp, hacc, List.map_nil, List.append_nil]
      refine ⟨hring, ?_, ⟨shift, hall, hrest⟩, ?_⟩
      · rw [hcases]
        exact h.queue
      · refine List.Sublist.trans (List.Sublist.filterMap _ ?_) horder
        exact List.Sublist.append_left (List.sublist_cons_self keycode pending) _

/-- A read moves at most one keycode from the queue to the delivered ones. -/
theorem Synced.read {s : ConsoleInput} (h : Synced s) (addr : UInt16) :
    Synced (s.step (.readByte addr)) := by
  obtain ⟨q, hq⟩ := h.ring
  have hbalance : s.attachedKeyboard.queue = s.attachedKeyboard.delivered (.readByte addr) ++
      (s.attachedKeyboard.readRegByte addr).1.queue := by
    rw [← List.append_nil s.attachedKeyboard.queue]
    exact hq.balance (.readByte addr)
  have hring : ∃ q, Refines (s.attachedKeyboard.readRegByte addr).1 q := ⟨_, hq.read addr⟩
  cases hd : s.attachedKeyboard.delivered (.readByte addr) with
  | nil =>
    rw [hd, List.nil_append] at hbalance
    simp only [step, hd, List.length_nil, List.drop_zero, List.map_nil, List.append_nil]
    exact ⟨hring, h.queue.trans hbalance, h.shift, h.order⟩
  | cons code codes =>
    obtain rfl : codes = [] := by
      have hlen := length_delivered_le s.attachedKeyboard (.readByte addr)
      rw [hd] at hlen
      simpa using hlen
    rw [hd] at hbalance
    cases hheld : s.held with
    | nil =>
      have hqueue := h.queue
      rw [hheld, hbalance] at hqueue
      exact absurd hqueue.symm (List.cons_ne_nil _ _)
    | cons keycode held =>
      have hqueue := h.queue
      rw [hheld, hbalance, List.map_cons, List.singleton_append, List.cons.injEq] at hqueue
      have hall : s.delivered ++ [⟨code, keycode.char⟩] ++ held = s.delivered ++ s.held := by
        rw [hheld, ← hqueue.1, List.append_assoc]
        rfl
      simp only [step, hd, hheld, List.length_singleton, List.drop_one, List.tail_cons, List.map_cons,
        List.map_nil, List.head?_cons, Option.bind_some]
      refine ⟨hring, hqueue.2, ?_, ?_⟩
      · simp only [hall]
        exact h.shift
      · simp only [hall]
        exact h.order

theorem Synced.write {s : ConsoleInput} (h : Synced s) (addr : UInt16) (val : UInt8) :
    Synced (s.step (.writeByte addr val)) := by
  obtain ⟨q, hq⟩ := h.ring
  refine ⟨⟨_, hq.write addr val⟩, ?_, h.shift, h.order⟩
  have hbalance : s.attachedKeyboard.queue ++ [] = [] ++ (s.attachedKeyboard.writeRegByte addr val).queue :=
    hq.balance (.writeByte addr val)
  rw [List.append_nil, List.nil_append] at hbalance
  exact h.queue.trans hbalance

theorem Synced.step {s : ConsoleInput} (h : Synced s) (a : Action) (hok : ShiftTaken s a) :
    Synced (s.step a) := by
  cases a with
  | type newchar => exact h.type newchar
  | insert => exact h.insert hok
  | readByte addr => exact h.read addr
  | writeByte addr val => exact h.write addr val

/-- As long as no shift code is refused, in every state of every run each delivered
keycode decodes to the character that produced it, and the characters come in the
order in which they were typed. -/
theorem typed_text (buffer : Vector UInt8 internalBufferSize) {as : List Action}
    (h : Along step ShiftTaken (start buffer) as) :
    let s := run step (start buffer) as
    decode false (s.delivered.map Keycode.code) = s.delivered.map Keycode.char ∧
    (s.delivered.filterMap Keycode.char).Sublist s.typed := by
  intro s
  have hs : Synced s :=
    run_along Synced (fun s a hok hs => hs.step a hok) (start_synced buffer) h
  obtain ⟨shift, ⟨hdec, -⟩, -⟩ := hs.shift
  constructor
  · rw [List.map_append, List.map_append, decode_append] at hdec
    refine (List.append_inj hdec ?_).1
    rw [length_decode, List.length_map, List.length_map]
  · refine List.Sublist.trans (List.Sublist.filterMap _ ?_) hs.order
    rw [List.append_assoc]
    exact List.sublist_append_left _ _

/-- Enable the keyboard, then type `A` and read everything. -/
def capital : List Action :=
  [.writeByte 0x64 0x60, .writeByte 0x60 0, .type 0x41, .insert, .insert, .insert,
   .readByte 0x60, .readByte 0x60, .readByte 0x60]

theorem typed_text_capital :
    let s := run step (start (Vector.replicate 16 0)) capital
    decode false (s.delivered.map Keycode.code) = s.delivered.map Keycode.char ∧
    s.delivered.filterMap Keycode.char = [0x41] := by
  have h : Along step ShiftTaken (start (Vector.replicate 16 0)) capital := by
    refine ⟨trivial, trivial, trivial, ?_, ?_, ?_, trivial, trivial, trivial, trivial⟩
    · intro keycode hmem _
      decide
    · intro keycode hmem _
      decide
    · intro keycode hmem _
      decide
  exact ⟨(typed_text _ h).1, by decide +kernel⟩

/-- The keyboard is enabled after the shift code was refused: the guest reads `a`. -/
def lostShift : List Action :=
  [.type 0x41, .insert, .writeByte 0x64 0x60, .writeByte 0x60 0, .insert, .insert, .readByte 0x60]

theorem lost_shift_wrong_case :
    let s := run step (start (Vector.replicate 16 0)) lostShift
    s.typed = [0x41] ∧ s.delivered = [⟨0x1e, some 0x41⟩] ∧
    decode false (s.delivered.map Keycode.code) = [some 0x61] ∧
    decode false (s.delivered.map Keycode.code) ≠ s.delivered.map Keycode.char := by
  decide +kernel

end ConsoleInput
end EndlessFault
