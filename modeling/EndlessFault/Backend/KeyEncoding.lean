import EndlessFault.Backend.TypedText

/- The loop of `_mainThread` over the outcomes of its reads. A turn reads into
   `newchar`, converts `newchar` and inserts its keycodes, and only then looks at the
   result of the read, so a turn that read nothing converts what `newchar` still
   holds: the character of an earlier turn, or whatever stood there before the first
   one. The loop goes on at the end of the file and ends after an error.

   Two results:
   1. over bytes alone the encoding can be decoded: the keycodes give back exactly the
      bytes that are on the keyboard (`console_encoding_decodes`);
   2. over any outcomes the keycodes are those of the bytes read if and only if no
      turn without a byte finds a character of the keyboard in `newchar`
      (`only_real_input_iff`). -/
namespace EndlessFault
open Lib Lib.Machine

namespace ConsoleInput

/-- A character one of the two tables has. -/
def Mapped (c : UInt8) : Prop := c ∈ tabmin ∨ c ∈ tabmai

instance (c : UInt8) : Decidable (Mapped c) := inferInstanceAs (Decidable (_ ∨ _))

/-! One turn. -/

/-- The keycodes of the shift key. -/
def IsShift (code : UInt8) : Prop := code = shiftMake ∨ code = shiftBreak

instance (code : UInt8) : Decidable (IsShift code) := inferInstanceAs (Decidable (_ ∨ _))

theorem tab_make : ∀ code ∈ tab, code < 0x80 ∧ ¬ IsShift code ∧ ¬ IsShift (code ||| 0x80) := by
  decide +kernel

/-- A character of neither table. -/
theorem mainThread_unmapped {c : UInt8} (h : ¬ Mapped c) (isShifted : Bool) :
    mainThread isShifted c = ([], isShifted) := by
  rcases asciiToKeycode_cases c isShifted with ⟨-, -, hnone⟩ | ⟨newShift, pos, hpos, hchar, -⟩
  · simp [mainThread, hnone]
  · -- a position of a table holds a character of that table
    refine absurd ?_ h
    rw [← hchar]
    cases newShift with
    | false => exact .inl (List.getD_eq_getElem tabmin 0 hpos ▸ List.getElem_mem hpos)
    | true => exact .inr (List.getD_eq_getElem tabmai 0 hpos ▸ List.getElem_mem hpos)

/-- A character of a table: after at most a shift code, its make and its break code. -/
theorem mainThread_mapped {c : UInt8} (h : Mapped c) (isShifted : Bool) :
    ∃ shiftCodes code, code ∈ tab ∧
      (∀ keycode ∈ shiftCodes, IsShift keycode.code ∧ keycode.char = none) ∧
      (mainThread isShifted c).1 =
        shiftCodes ++ [⟨code, some c⟩, ⟨code ||| 0x80, none⟩] := by
  rcases asciiToKeycode_cases c isShifted with ⟨hmin, hmai, -⟩ | ⟨newShift, pos, hpos, -, hfound⟩
  · exact absurd h (not_or.mpr ⟨hmin, hmai⟩)
  · have hmem : tab.getD pos 0 ∈ tab :=
      List.getD_eq_getElem tab 0 hpos ▸ List.getElem_mem hpos
    have hcode : tab.getD pos 0 ≠ 0 := (tab_facts _ hmem).1
    unfold mainThread
    rw [hfound]
    simp only [hcode, ne_eq, not_false_eq_true, if_true]
    cases isShifted <;> cases newShift
    · exact ⟨[], _, hmem, by simp, rfl⟩
    · exact ⟨[⟨0x2a, none⟩], _, hmem, by simp [IsShift, shiftMake], rfl⟩
    · exact ⟨[⟨0xaa, none⟩], _, hmem, by simp [IsShift, shiftBreak], rfl⟩
    · exact ⟨[], _, hmem, by simp, rfl⟩

/-- Apart from shift codes a character of a table gives one make code and the break
code of the same key. -/
theorem mainThread_key {c : UInt8} (h : Mapped c) (isShifted : Bool) :
    ∃ code, code < 0x80 ∧ ((mainThread isShifted c).1.map Keycode.code).filter (¬ IsShift ·) =
      [code, code ||| 0x80] := by
  obtain ⟨shiftCodes, code, hmem, hshift, hcodes⟩ := mainThread_mapped h isShifted
  obtain ⟨hlow, hmake, hbreak⟩ := tab_make code hmem
  refine ⟨code, hlow, ?_⟩
  have hnone : (shiftCodes.map Keycode.code).filter (¬ IsShift ·) = [] := by
    rw [List.filter_eq_nil_iff]
    intro x hx
    obtain ⟨keycode, hk, rfl⟩ := List.mem_map.mp hx
    simpa using (hshift keycode hk).1
  rw [hcodes, List.map_append, List.filter_append, hnone]
  simp [hmake, hbreak]

theorem mainThread_chars (isShifted : Bool) (c : UInt8) :
    (mainThread isShifted c).1.filterMap Keycode.char = [c].filter (Mapped ·) := by
  by_cases h : Mapped c
  · obtain ⟨shiftCodes, code, -, hshift, hcodes⟩ := mainThread_mapped h isShifted
    have hnone : shiftCodes.filterMap Keycode.char = [] := by
      rw [List.filterMap_eq_nil_iff]
      exact fun keycode hk => (hshift keycode hk).2
    rw [hcodes, List.filterMap_append, hnone]
    simp [h]
  · rw [mainThread_unmapped h]
    simp [h]

/-! The loop. -/

/-- What `read(0, &newchar, 1)` comes to: a byte, 0 at the end of the file, or -1. -/
inductive ReadResult where
  | byte (c : UInt8)
  | eof
  | error
  deriving DecidableEq, Repr

def ReadResult.byte? : ReadResult → Option UInt8
  | .byte c => some c
  | _ => none

/-- The variables of the loop; `stopped` once it is over. -/
structure MainThread where
  newchar : UInt8
  isShifted : Bool
  stopped : Bool
  deriving DecidableEq, Repr

namespace MainThread

/-- `newchar` is not initialised. -/
def enter (newchar : UInt8) : MainThread where
  newchar := newchar
  isShifted := false
  stopped := false

/-- `newchar` after the read. -/
def loaded (t : MainThread) (res : ReadResult) : UInt8 := res.byte?.getD t.newchar

/-- The keycodes a turn inserts. -/
def inserts (t : MainThread) (res : ReadResult) : List Keycode :=
  if t.stopped then [] else (mainThread t.isShifted (t.loaded res)).1

def turn (t : MainThread) (res : ReadResult) : MainThread :=
  if t.stopped then t
  else
    { newchar := t.loaded res
      isShifted := (mainThread t.isShifted (t.loaded res)).2
      -- the loop goes on while `res >= 0`
      stopped := res = .error }

end MainThread

/-- The keycodes the thread inserts over the outcomes `rs` of its reads. -/
def inserted (t : MainThread) (rs : List ReadResult) : List Keycode :=
  observe MainThread.turn MainThread.inserts t rs

namespace MainThread

theorem turn_byte {t : MainThread} (ht : t.stopped = false) (c : UInt8) :
    t.turn (.byte c) = ⟨c, (mainThread t.isShifted c).2, false⟩ := by
  simp [turn, ht, loaded, ReadResult.byte?]

theorem inserts_byte {t : MainThread} (ht : t.stopped = false) (c : UInt8) :
    t.inserts (.byte c) = (mainThread t.isShifted c).1 := by
  simp [inserts, ht, loaded, ReadResult.byte?]

theorem stopped_run_bytes {t : MainThread} (ht : t.stopped = false) (cs : List UInt8) :
    (run turn t (cs.map .byte)).stopped = false := by
  induction cs generalizing t with
  | nil => exact ht
  | cons c cs ih =>
    rw [List.map_cons, run_cons]
    exact ih (by rw [turn_byte ht])

/-- Over bytes the keycodes decode to the bytes of the tables, and the decoder's shift
state is the thread's. -/
theorem inserted_bytes {t : MainThread} (ht : t.stopped = false) (cs : List UInt8) :
    Decodes t.isShifted (inserted t (cs.map .byte)) (run turn t (cs.map .byte)).isShifted ∧
    (inserted t (cs.map .byte)).filterMap Keycode.char = cs.filter (Mapped ·) := by
  induction cs generalizing t with
  | nil => exact ⟨⟨rfl, rfl⟩, rfl⟩
  | cons c cs ih =>
    have hstep : (t.turn (.byte c)).stopped = false := by rw [turn_byte ht]
    have hshift : (t.turn (.byte c)).isShifted = (mainThread t.isShifted c).2 := by
      rw [turn_byte ht]
    obtain ⟨hdec, hchars⟩ := ih hstep
    rw [hshift] at hdec
    have hnow := (mainThread_decodes t.isShifted c).1
    rw [List.map_cons, inserted, observe_cons, inserts_byte ht, run_cons]
    refine ⟨hnow.append hdec, ?_⟩
    rw [List.filterMap_append, mainThread_chars, ← inserted, hchars, ← List.filter_append]
    rfl

end MainThread

open MainThread

/-- Break codes are no characters. -/
theorem decodeChar_high (shift : Bool) {code : UInt8} (h : 0x80 ≤ code) :
    decodeChar shift code = none := by
  have hmem : code ∉ tab := fun hmem => absurd (tab_make code hmem).1 (UInt8.not_lt.mpr h)
  have hidx : tab.idxOf code = maxCode := List.idxOf_eq_length hmem
  rw [decodeChar, if_pos (.inr (.inr hidx))]

/-- The keycodes of any typed bytes decode to exactly those of the bytes that are in a
table, in order. Each of these adds one make code and its break code besides shift
codes, and any other byte adds nothing. -/
theorem console_encoding_decodes (newchar : UInt8) :
    (∀ cs : List UInt8,
      (decode false ((inserted (enter newchar) (cs.map .byte)).map Keycode.code)).filterMap id =
        cs.filter (Mapped ·)) ∧
    (∀ (pre : List UInt8) (c : UInt8) (post : List UInt8),
      let t := run turn (enter newchar) (pre.map .byte)
      inserted (enter newchar) ((pre ++ c :: post).map .byte) =
        inserted (enter newchar) (pre.map .byte) ++ t.inserts (.byte c) ++
          inserted (t.turn (.byte c)) (post.map .byte) ∧
      (Mapped c → ∃ code, code < 0x80 ∧
        ((t.inserts (.byte c)).map Keycode.code).filter (¬ IsShift ·) = [code, code ||| 0x80]) ∧
      (¬ Mapped c → t.inserts (.byte c) = [] ∧ (t.turn (.byte c)).isShifted = t.isShifted)) ∧
    (∀ (shift : Bool) (code : UInt8), 0x80 ≤ code → decodeChar shift code = none) := by
  refine ⟨?_, ?_, fun shift code h => decodeChar_high shift h⟩
  · intro cs
    obtain ⟨⟨hdec, -⟩, hchars⟩ := inserted_bytes (t := enter newchar) rfl cs
    rw [show (false : Bool) = (enter newchar).isShifted from rfl, hdec, List.filterMap_map, ← hchars]
    rfl
  · intro pre c post t
    have ht : t.stopped = false := stopped_run_bytes rfl pre
    refine ⟨?_, ?_, ?_⟩
    · rw [List.map_append, List.map_cons, inserted, observe_append, observe_cons, List.append_assoc]
      rfl
    · intro hmap
      rw [inserts_byte ht]
      exact mainThread_key hmap t.isShifted
    · intro hmap
      rw [inserts_byte ht, turn_byte ht, mainThread_unmapped hmap]
      exact ⟨rfl, rfl⟩

/-! Turns that read nothing. -/

/-- The bytes the thread reads: those before the first error. -/
def bytesRead : List ReadResult → List UInt8
  | [] => []
  | .byte c :: rs => c :: bytesRead rs
  | .eof :: rs => bytesRead rs
  | .error :: _ => []

/-- A turn without a byte inserts nothing and keeps the shift state. -/
def Silent (t : MainThread) (res : ReadResult) : Prop :=
  res.byte? = none → t.inserts res = [] ∧ (t.turn res).isShifted = t.isShifted

/-- The keycodes are those of the bytes read, and every other turn is silent. -/
structure OnlyRealInput (t : MainThread) (rs : List ReadResult) : Prop where
  stream : inserted t rs = inserted t ((bytesRead rs).map .byte)
  silent : Along turn Silent t rs

/-- At every turn without a byte, `newchar` holds a character of neither table. -/
def Unmapped (newchar : UInt8) : List ReadResult → Prop
  | [] => True
  | .byte c :: rs => Unmapped c rs
  | .eof :: rs => ¬ Mapped newchar ∧ Unmapped newchar rs
  | .error :: _ => ¬ Mapped newchar

theorem silent_iff {t : MainThread} (ht : t.stopped = false) (res : ReadResult)
    (hres : res.byte? = none) :
    t.inserts res = [] ∧ (t.turn res).isShifted = t.isShifted ↔ ¬ Mapped t.newchar := by
  have hload : t.loaded res = t.newchar := by simp [loaded, hres]
  simp only [inserts, turn, ht, Bool.false_eq_true, if_false, hload]
  refine ⟨?_, ?_⟩
  · intro hquiet hmap
    obtain ⟨shiftCodes, code, -, -, hcodes⟩ := mainThread_mapped hmap t.isShifted
    rw [hcodes] at hquiet
    simp at hquiet
  · intro hmap
    rw [mainThread_unmapped hmap]
    exact ⟨rfl, rfl⟩

theorem stopped_silent {t : MainThread} (ht : t.stopped = true) (rs : List ReadResult) :
    inserted t rs = [] ∧ Along turn Silent t rs := by
  induction rs with
  | nil => exact ⟨rfl, trivial⟩
  | cons r rs ih =>
    have hturn : t.turn r = t := if_pos ht
    have hins : t.inserts r = [] := if_pos ht
    refine ⟨?_, ?_, ?_⟩
    · rw [inserted, observe_cons, hins, hturn]
      exact ih.1
    · exact fun _ => ⟨hins, by rw [hturn]⟩
    · rw [hturn]
      exact ih.2

/-- A silent turn at the end of the file changes nothing at all. -/
theorem turn_eof {t : MainThread} (ht : t.stopped = false)
    (hshift : (t.turn .eof).isShifted = t.isShifted) : t.turn .eof = t := by
  have hnew : t.turn .eof = ⟨t.newchar, (t.turn .eof).isShifted, false⟩ := by
    simp [turn, ht, loaded, ReadResult.byte?]
  rw [hnew, hshift, ← ht]

/-- The keycodes of a byte stand at the head of both streams. -/
theorem onlyRealInput_byte {t : MainThread} (c : UInt8) (rs : List ReadResult) :
    OnlyRealInput t (.byte c :: rs) ↔ OnlyRealInput (t.turn (.byte c)) rs := by
  refine ⟨?_, ?_⟩
  · intro h
    have hstream := h.stream
    rw [bytesRead, List.map_cons, inserted, inserted, observe_cons, observe_cons,
      List.append_cancel_left_eq] at hstream
    exact ⟨hstream, h.silent.2⟩
  · intro h
    refine ⟨?_, fun hnone => absurd hnone (by simp [ReadResult.byte?]), h.silent⟩
    rw [bytesRead, List.map_cons, inserted, inserted, observe_cons, observe_cons]
    exact congrArg _ h.stream

theorem onlyRealInput_eof {t : MainThread} (ht : t.stopped = false) (rs : List ReadResult) :
    OnlyRealInput t (.eof :: rs) ↔ ¬ Mapped t.newchar ∧ OnlyRealInput t rs := by
  rw [← silent_iff ht .eof rfl]
  refine ⟨?_, ?_⟩
  · intro h
    have hquiet := h.silent.1 rfl
    have hstay := turn_eof ht hquiet.2
    have hstream := h.stream
    have hrest := h.silent.2
    rw [inserted, observe_cons, hquiet.1, hstay, List.nil_append] at hstream
    rw [hstay] at hrest
    exact ⟨hquiet, hstream, hrest⟩
  · intro h
    obtain ⟨hquiet, hrest⟩ := h
    have hstay := turn_eof ht hquiet.2
    refine ⟨?_, fun _ => hquiet, ?_⟩
    · rw [inserted, observe_cons, hquiet.1, hstay, List.nil_append]
      exact hrest.stream
    · rw [hstay]
      exact hrest.silent

/-- An error is the last turn. -/
theorem onlyRealInput_error {t : MainThread} (ht : t.stopped = false) (rs : List ReadResult) :
    OnlyRealInput t (.error :: rs) ↔ ¬ Mapped t.newchar := by
  have hover : (t.turn .error).stopped = true := by simp [turn, ht]
  obtain ⟨hnone, halong⟩ := stopped_silent hover rs
  rw [← silent_iff ht .error rfl]
  refine ⟨?_, ?_⟩
  · intro h
    exact h.silent.1 rfl
  · intro hquiet
    refine ⟨?_, fun _ => hquiet, halong⟩
    rw [inserted, observe_cons, hquiet.1, ← inserted, hnone]
    rfl

theorem onlyRealInput_iff {t : MainThread} (ht : t.stopped = false) (rs : List ReadResult) :
    OnlyRealInput t rs ↔ Unmapped t.newchar rs := by
  induction rs generalizing t with
  | nil => exact iff_of_true ⟨rfl, trivial⟩ trivial
  | cons r rs ih =>
    cases r with
    | byte c =>
      have hnext := ih (t := t.turn (.byte c)) (by rw [turn_byte ht])
      rw [onlyRealInput_byte, hnext, turn_byte ht, Unmapped]
    | eof => rw [onlyRealInput_eof ht, ih ht, Unmapped]
    | error => rw [onlyRealInput_error ht, Unmapped]

/-- The keycodes are those of the bytes actually read exactly when no turn without a
byte finds a character of the keyboard left in `newchar`. -/
theorem only_real_input_iff (newchar : UInt8) (rs : List ReadResult) :
    OnlyRealInput (enter newchar) rs ↔ Unmapped newchar rs :=
  onlyRealInput_iff rfl rs

/-- At the end of the file after `a`, the keycodes of `a` are inserted again. -/
theorem only_real_input_repeats :
    (inserted (enter 0) [.byte 0x61, .eof]).map Keycode.code = [0x1e, 0x9e, 0x1e, 0x9e] ∧
    ¬ OnlyRealInput (enter 0) [.byte 0x61, .eof] := by
  have hcodes : (inserted (enter 0) [.byte 0x61, .eof]).map Keycode.code = [0x1e, 0x9e, 0x1e, 0x9e] := by
    decide +kernel
  refine ⟨hcodes, ?_⟩
  intro h
  have hstream : (inserted (enter 0) [.byte 0x61, .eof]).map Keycode.code = [0x1e, 0x9e] := by
    rw [h.stream]
    decide +kernel
  rw [hcodes] at hstream
  simp at hstream

end ConsoleInput
end EndlessFault
