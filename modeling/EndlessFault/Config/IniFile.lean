import Mathlib.Data.List.Chain
import Mathlib.Data.List.DropRight
import EndlessFault.Lib.Machine

/- The configuration file parser (`INIReader.h`, `ini_parse_stream`): a line is read into
   a buffer of 200 bytes, stripped, and taken as a comment, the continuation of the value
   before it, a section, or a name and its value.

   A `char *` into the line is the NUL-terminated string that starts there. The two places
   where the code compares pointers are the end of `rstrip` and `start > line`, which says
   that something was skipped on the left. -/
namespace EndlessFault
open Lib.Machine

namespace Config

/-- The character `c` as a byte. -/
def byte (c : Char) : UInt8 := c.toUInt8

def INI_MAX_LINE : Nat := 200
def MAX_SECTION : Nat := 50
def MAX_NAME : Nat := 50

/-- `INI_INLINE_COMMENT_PREFIXES`. -/
def inlineCommentPrefixes : List UInt8 := [byte ';']

/-- The mark a UTF-8 file may start with. -/
def bom : List UInt8 := [0xEF, 0xBB, 0xBF]

/-- `isspace` of the C locale: the blank, and tab to carriage return. -/
def isspace (c : UInt8) : Bool := c == 0x20 || (0x09 ≤ c && c ≤ 0x0D)

/-- The string in a buffer ends at its first NUL. -/
def cstr (line : List UInt8) : List UInt8 := line.takeWhile (· != 0)

def rstrip (s : List UInt8) : List UInt8 := s.rdropWhile isspace

def lskip (s : List UInt8) : List UInt8 := s.dropWhile isspace

/-- What lies before the place found, and what starts there. `chars` is none for the NULL
pointer. -/
def findCharsOrComment (chars : Option (List UInt8)) (wasSpace : Bool) : List UInt8 → List UInt8 × List UInt8
  | [] => ([], [])
  | c :: s =>
    if c ∈ chars.getD [] ∨ (wasSpace ∧ c ∈ inlineCommentPrefixes) then ([], c :: s)
    else
      let found := findCharsOrComment chars (isspace c) s
      (c :: found.1, found.2)

def strncpy0 (src : List UInt8) (size : Nat) : List UInt8 := src.take (size - 1)

/-! Reading. -/

/-- At most `n` characters of the stream, the last of them the first newline; and the rest
of the stream. -/
def fgets : Nat → List UInt8 → List UInt8 × List UInt8
  | 0, s => ([], s)
  | _ + 1, [] => ([], [])
  | n + 1, c :: s =>
    if c = byte '\n' then ([c], s)
    else
      let got := fgets n s
      (c :: got.1, got.2)

theorem fgets_rest (n : Nat) (s : List UInt8) : (fgets n s).2.length ≤ s.length := by
  induction n generalizing s with
  | zero => exact Nat.le_refl _
  | succ n ih =>
    cases s with
    | nil => exact Nat.le_refl _
    | cons c s =>
      rw [fgets]
      split
      · exact Nat.le_succ _
      · exact Nat.le_succ_of_le (ih s)

theorem fgets_rest_lt (n : Nat) (c : UInt8) (s : List UInt8) :
    (fgets (n + 1) (c :: s)).2.length < (c :: s).length := by
  rw [fgets]
  split
  · exact Nat.lt_succ_self _
  · exact Nat.lt_succ_of_le (fgets_rest n s)

/-- What the successive calls of `fgets` return, until one returns NULL. -/
def readLines (stream : List UInt8) : List (List UInt8) :=
  match stream with
  | [] => []
  | c :: s =>
    (fgets (INI_MAX_LINE - 1) (c :: s)).1 :: readLines (fgets (INI_MAX_LINE - 1) (c :: s)).2
termination_by stream.length
decreasing_by exact fgets_rest_lt 198 c s

/-! Parsing. -/

section Parsing
variable {σ : Type}

/-- Called with the section, the name and the value; false is an error. -/
abbrev Handler (σ : Type) := σ → List UInt8 → List UInt8 → List UInt8 → σ × Bool

/-- The locals of `ini_parse_stream`, and what `user` points to. -/
structure Locals (σ : Type) where
  sectionName : List UInt8
  prevName : List UInt8
  lineno : Nat
  error : Nat
  user : σ

namespace Locals

/-- `error = lineno`, the first time. -/
def fail (p : Locals σ) : Locals σ := if p.error = 0 then { p with error := p.lineno } else p

def handle (handler : Handler σ) (p : Locals σ) (name value : List UInt8) : Locals σ :=
  let answer := handler p.user p.sectionName name value
  let p := { p with user := answer.1 }
  if answer.2 then p else p.fail

/-- `rest` starts after the bracket of a section line. -/
def sectionLine (p : Locals σ) (rest : List UInt8) : Locals σ :=
  let found := findCharsOrComment (some [byte ']']) false rest
  match found.2 with
  | [] => p.fail
  | c :: _ =>
    if c = byte ']' then { p with sectionName := strncpy0 found.1 MAX_SECTION, prevName := [] }
    else p.fail

/-- A line that has to be a name and its value. -/
def pairLine (handler : Handler σ) (p : Locals σ) (start : List UInt8) : Locals σ :=
  let found := findCharsOrComment (some [byte '=', byte ':']) false start
  match found.2 with
  | [] => p.fail
  | c :: rest =>
    if c = byte '=' ∨ c = byte ':' then
      let name := rstrip found.1
      let value := rstrip (findCharsOrComment none false (lskip rest)).1
      { p with prevName := strncpy0 name MAX_NAME }.handle handler name value
    else p.fail

/-- The line from its first character that is not blank on; `moved` says `start > line`. -/
def dispatch (handler : Handler σ) (p : Locals σ) (moved : Bool) (start : List UInt8) : Locals σ :=
  match start with
  | [] => p
  | c :: rest =>
    if c = byte ';' ∨ c = byte '#' then p
    else if p.prevName ≠ [] ∧ moved then
      p.handle handler p.prevName (rstrip (findCharsOrComment none false start).1)
    else if c = byte '[' then p.sectionLine rest
    else p.pairLine handler start

def line (handler : Handler σ) (p : Locals σ) (text : List UInt8) : Locals σ :=
  let p := { p with lineno := p.lineno + 1 }
  let whole := cstr text
  let unmarked := if p.lineno = 1 ∧ bom <+: whole then whole.drop 3 else whole
  let start := lskip (rstrip unmarked)
  p.dispatch handler (unmarked.length < whole.length ∨ start.length < (rstrip unmarked).length) start

end Locals

def iniParseStream (handler : Handler σ) (user : σ) (stream : List UInt8) : Locals σ :=
  run (Locals.line handler) ⟨[], [], 0, 0, user⟩ (readLines stream)

end Parsing

/-! Strings. -/

/-- Neither character of the string starts an inline comment. -/
def Uncommented (s : List UInt8) : Prop := s.IsChain fun a b => ¬ (isspace a = true ∧ b ∈ inlineCommentPrefixes)

/-- No blank on either side. -/
def Trimmed (s : List UInt8) : Prop := lskip s = s ∧ rstrip s = s

/-- Blanks within a line. -/
def Blank (s : List UInt8) : Prop := ∀ c ∈ s, isspace c = true

instance (s : List UInt8) : Decidable (Uncommented s) :=
  inferInstanceAs (Decidable (s.IsChain fun a b => ¬ (isspace a = true ∧ b ∈ inlineCommentPrefixes)))

instance (s : List UInt8) : Decidable (Trimmed s) := inferInstanceAs (Decidable (lskip s = s ∧ rstrip s = s))

instance (s : List UInt8) : Decidable (Blank s) := List.decidableBAll (fun c => isspace c = true) s

theorem rstrip_blank {w : List UInt8} (hw : Blank w) (s : List UInt8) : rstrip (s ++ w) = rstrip s := by
  induction w using List.reverseRecOn with
  | nil => rw [List.append_nil]
  | append_singleton w c ih =>
    have hc : isspace c = true := hw c (by simp)
    rw [← List.append_assoc, rstrip, List.rdropWhile_concat_pos _ _ _ hc]
    exact ih fun x hx => hw x (List.mem_append_left _ hx)

theorem rstrip_append (s : List UInt8) {t : List UInt8} (ht : rstrip t ≠ []) : rstrip (s ++ t) = s ++ rstrip t := by
  induction t using List.reverseRecOn with
  | nil => exact absurd rfl ht
  | append_singleton t c ih =>
    unfold rstrip at ht ih ⊢
    rw [← List.append_assoc, List.rdropWhile_concat, List.rdropWhile_concat] at *
    split_ifs at ht ⊢ with hc
    · exact ih ht
    · exact List.append_assoc ..

theorem rstrip_cons (s : List UInt8) {c : UInt8} (hc : isspace c = false) (t : List UInt8) :
    rstrip (s ++ c :: t) = s ++ c :: rstrip t := by
  by_cases ht : rstrip t = []
  · have hblank : Blank t := fun x hx => List.rdropWhile_eq_nil_iff.mp ht x hx
    rw [show s ++ c :: t = (s ++ [c]) ++ t by simp, rstrip_blank hblank, ht, rstrip,
      List.rdropWhile_concat_neg _ _ _ (by simp [hc])]
  · rw [show s ++ c :: t = (s ++ [c]) ++ t by simp, rstrip_append _ ht, List.append_assoc, List.singleton_append]

theorem lskip_blank {w : List UInt8} (hw : Blank w) (s : List UInt8) : lskip (w ++ s) = lskip s := by
  induction w with
  | nil => rfl
  | cons c w ih =>
    rw [lskip, List.cons_append, List.dropWhile_cons_of_pos (hw c List.mem_cons_self)]
    exact ih fun x hx => hw x (List.mem_cons_of_mem c hx)

theorem lskip_cons {c : UInt8} (hc : isspace c = false) (s : List UInt8) : lskip (c :: s) = c :: s :=
  List.dropWhile_cons_of_neg (by simp [hc])

theorem Trimmed.head {c : UInt8} {s : List UInt8} (h : Trimmed (c :: s)) : isspace c = false := by
  by_contra hc
  have hlen : (lskip (c :: s)).length ≤ s.length := by
    rw [lskip, List.dropWhile_cons_of_pos (by simpa using hc)]
    exact (List.dropWhile_suffix _).length_le
  rw [h.1] at hlen
  exact absurd hlen (Nat.not_succ_le_self _)

/-- A search runs over what neither ends it nor starts a comment. -/
theorem findCharsOrComment_over (chars : Option (List UInt8)) {c : UInt8} {s : List UInt8} (t : List UInt8)
    (hquiet : Uncommented (c :: s)) (hnone : ∀ x ∈ s, x ∉ chars.getD []) :
    findCharsOrComment chars (isspace c) (s ++ t) =
      (s ++ (findCharsOrComment chars (isspace ((c :: s).getLast (List.cons_ne_nil c s))) t).1,
        (findCharsOrComment chars (isspace ((c :: s).getLast (List.cons_ne_nil c s))) t).2) := by
  induction s generalizing c with
  | nil => rfl
  | cons x s ih =>
    obtain ⟨hcx, hrest⟩ := List.isChain_cons_cons.mp hquiet
    have hgo : ¬ (x ∈ chars.getD [] ∨ (isspace c = true ∧ x ∈ inlineCommentPrefixes)) := by
      rintro (hx | hx)
      · exact hnone x List.mem_cons_self hx
      · exact hcx hx
    rw [List.cons_append, findCharsOrComment, if_neg hgo, ih hrest fun y hy => hnone y (List.mem_cons_of_mem x hy)]
    simp only [List.getLast_cons_cons, List.cons_append]

/-- Before the first character there is no blank. -/
theorem Uncommented.start {s : List UInt8} (h : Uncommented s) : Uncommented (byte 'a' :: s) := by
  cases s with
  | nil => exact List.isChain_singleton _
  | cons x s => exact List.isChain_cons_cons.mpr ⟨fun hx => absurd hx.1 (by decide), h⟩

theorem Uncommented.append_blank {s w : List UInt8} (hs : Uncommented s) (hw : Blank w) : Uncommented (s ++ w) := by
  have hprefix : ∀ c ∈ w, c ∉ inlineCommentPrefixes := by
    intro c hc hsemi
    have hspace := hw c hc
    rw [List.mem_singleton.mp hsemi] at hspace
    exact absurd hspace (by decide)
  refine List.isChain_append.mpr ⟨hs, ?_, fun x _ y hy h => hprefix y (List.mem_of_mem_head? hy) h.2⟩
  clear hw
  induction w with
  | nil => exact List.isChain_nil
  | cons c w ih =>
    cases w with
    | nil => exact List.isChain_singleton c
    | cons d w =>
      exact List.isChain_cons_cons.mpr ⟨fun h => hprefix d (by simp) h.2, ih fun x hx => hprefix x (List.mem_cons_of_mem c hx)⟩

/-- A character looked for is found after a string without one. -/
theorem findCharsOrComment_stop {chars s t : List UInt8} {e : UInt8} (hs : Uncommented s)
    (hnone : ∀ x ∈ s, x ∉ chars) (he : e ∈ chars) :
    findCharsOrComment (some chars) false (s ++ e :: t) = (s, e :: t) := by
  have h := findCharsOrComment_over (some chars) (e :: t) hs.start hnone
  rw [show isspace (byte 'a') = false by decide] at h
  have hgo : e ∈ (some chars).getD [] := he
  rw [h, findCharsOrComment, if_pos (Or.inl hgo), List.append_nil]

/-- What a search has found, after the character `c`. -/
structure Found (chars : Option (List UInt8)) (c : UInt8) (s : List UInt8) (found : List UInt8 × List UInt8) :
    Prop where
  split : found.1 ++ found.2 = s
  quiet : Uncommented (c :: found.1)
  none : ∀ x ∈ found.1, x ∉ chars.getD []
  stop : ∀ e ∈ found.2.head?, e ∈ chars.getD [] ∨
    (isspace ((c :: found.1).getLast (List.cons_ne_nil c found.1)) = true ∧ e ∈ inlineCommentPrefixes)

theorem found (chars : Option (List UInt8)) (c : UInt8) (s : List UInt8) :
    Found chars c s (findCharsOrComment chars (isspace c) s) := by
  induction s generalizing c with
  | nil =>
    refine ⟨rfl, List.isChain_singleton c, fun x hx => absurd hx List.not_mem_nil, fun e he => ?_⟩
    exact absurd he (by simp [findCharsOrComment])
  | cons x s ih =>
    rw [findCharsOrComment]
    split_ifs with hx
    · refine ⟨rfl, List.isChain_singleton c, fun y hy => absurd hy List.not_mem_nil, fun e he => ?_⟩
      rw [← Option.some.inj he]
      exact hx
    · obtain ⟨hsplit, hquiet, hnone, hstop⟩ := ih x
      rw [not_or] at hx
      refine ⟨congrArg (x :: ·) hsplit, List.isChain_cons_cons.mpr ⟨hx.2, hquiet⟩, ?_, ?_⟩
      · intro y hy
        rcases List.mem_cons.mp hy with rfl | hy
        · exact hx.1
        · exact hnone y hy
      · simpa only [List.getLast_cons_cons] using hstop

theorem found_start (chars : Option (List UInt8)) (s : List UInt8) :
    Found chars (byte 'a') s (findCharsOrComment chars false s) := found chars (byte 'a') s

/-- Blanks to the end of the line, or an inline comment. -/
inductive Tail : List UInt8 → Prop
  | blank {w : List UInt8} (hw : Blank w) : Tail w
  | comment {w : List UInt8} {c : UInt8} {body : List UInt8} (hw : Blank w) (hne : w ≠ [])
      (hc : c ∈ inlineCommentPrefixes) : Tail (w ++ c :: body)

theorem Tail.append {t w : List UInt8} (ht : Tail t) (hw : Blank w) : Tail (t ++ w) := by
  cases ht with
  | blank ht => exact .blank fun c hc => (List.mem_append.mp hc).elim (ht c) (hw c)
  | @comment w' c body ht hne hc =>
    rw [List.append_assoc, List.cons_append]
    exact .comment ht hne hc

/-- The text of a value is what stands between the blanks before it and the tail. -/
theorem text_of_line {margin text tail : List UInt8} (hmargin : Blank margin) (htrim : Trimmed text)
    (hquiet : Uncommented text) (htail : Tail tail) (hempty : text = [] → Blank tail) :
    rstrip (findCharsOrComment none false (lskip (rstrip (margin ++ (text ++ tail))))).1 = text := by
  have hnone : ∀ s : List UInt8, ∀ x ∈ s, x ∉ (none : Option (List UInt8)).getD [] := fun s x _ => List.not_mem_nil
  have hfalse : isspace (byte 'a') = false := by decide
  by_cases hnil : text = []
  · have hblank : Blank (margin ++ (text ++ tail)) := by
      intro c hc
      rw [hnil, List.nil_append] at hc
      exact (List.mem_append.mp hc).elim (hmargin c) (hempty hnil c)
    have hstrip : rstrip (margin ++ (text ++ tail)) = [] := List.rdropWhile_eq_nil_iff.mpr hblank
    rw [hstrip, hnil]
    rfl
  · have hskip : ∀ t, lskip (text ++ t) = text ++ t := by
      intro t
      obtain ⟨c, s, rfl⟩ := List.exists_cons_of_ne_nil hnil
      exact lskip_cons htrim.head _
    cases htail with
    | blank hw =>
      have hstrip : rstrip (text ++ tail) = text := (rstrip_blank hw text).trans htrim.2
      have hfind := findCharsOrComment_over none [] hquiet.start (hnone text)
      rw [hfalse, List.append_nil] at hfind
      rw [rstrip_append margin (by rwa [hstrip]), hstrip, lskip_blank hmargin, htrim.1, hfind]
      simpa [findCharsOrComment] using htrim.2
    | @comment w c body hw hne hc =>
      have hspace : isspace c = false := by
        rw [List.mem_singleton.mp hc]
        decide
      have hlast : isspace ((byte 'a' :: (text ++ w)).getLast (List.cons_ne_nil _ _)) = true := by
        refine hw _ ?_
        rw [List.getLast_cons (by simp [hne]), List.getLast_append_of_ne_nil _ hne]
        exact List.getLast_mem hne
      have hfind := findCharsOrComment_over none (c :: rstrip body)
        (hquiet.append_blank hw).start (hnone (text ++ w))
      rw [hfalse, hlast, findCharsOrComment, if_pos (Or.inr ⟨rfl, hc⟩), List.append_nil] at hfind
      rw [show margin ++ (text ++ (w ++ c :: body)) = (margin ++ (text ++ w)) ++ c :: body by simp,
        rstrip_cons _ hspace, List.append_assoc, lskip_blank hmargin, List.append_assoc, hskip,
        ← List.append_assoc, hfind, rstrip_blank hw, htrim.2]

end Config
end EndlessFault
