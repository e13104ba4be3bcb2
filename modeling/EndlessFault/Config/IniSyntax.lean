import EndlessFault.Config.IniFile

/- What a configuration file says, apart from how it is read: a line is an `Item`, with its
   layout, and `Item.step` and `Item.entries` give its meaning at a `Place`. The parser agrees
   with it line by line, in both directions: a line that is an item does what the item says
   (`dispatch_item`), and a line that is none is an error and nothing else
   (`item_or_malformed`). -/
namespace EndlessFault
open Lib.Machine

namespace Config

/-- What a line depends on: the section, and the name whose value a line may continue. -/
structure Place where
  sectionName : List UInt8
  prevName : List UInt8

/-- A value reported for a name of a section. -/
structure Entry where
  sectionName : List UInt8
  name : List UInt8
  value : List UInt8
deriving DecidableEq

/-- A line. -/
inductive Item where
  | blank (w : List UInt8)
  | comment (margin : List UInt8) (mark : UInt8) (body : List UInt8)
  | header (margin name rest : List UInt8)
  | pair (margin name before : List UInt8) (sep : UInt8) (after value tail : List UInt8)
  | more (margin value tail : List UInt8)

namespace Item

def text : Item → List UInt8
  | blank w => w
  | comment margin mark body => margin ++ mark :: body
  | header margin name rest => margin ++ byte '[' :: (name ++ byte ']' :: rest)
  | pair margin name before sep after value tail =>
    margin ++ ((name ++ before) ++ sep :: (after ++ (value ++ tail)))
  | more margin value tail => margin ++ (value ++ tail)

/-- A value and what follows it on its line. An empty value leaves no room for a comment. -/
structure Written (value tail : List UInt8) : Prop where
  trimmed : Trimmed value
  quiet : Uncommented value
  ending : Tail tail
  empty : value = [] → Blank tail

/-- A name, and the blanks before the separator. -/
structure Named (name before : List UInt8) : Prop where
  trimmed : Trimmed name
  quiet : Uncommented name
  apart : ∀ c ∈ name, c ∉ [byte '=', byte ':']
  first : ∀ c ∈ name.head?, c ∉ [byte ';', byte '#', byte '[']
  gap : Blank before
  empty : name = [] → before = []

/-- The items that can stand at a place. A line with blanks on the left continues the name
before it, if there is one. -/
def Allowed (p : Place) : Item → Prop
  | blank w => Blank w
  | comment margin mark _ => Blank margin ∧ mark ∈ [byte ';', byte '#']
  | header margin name _ =>
    Blank margin ∧ (p.prevName ≠ [] → margin = []) ∧ byte ']' ∉ name ∧ Uncommented name
  | pair margin name before sep after value tail =>
    Blank margin ∧ (p.prevName ≠ [] → margin = []) ∧ Named name before ∧
      sep ∈ [byte '=', byte ':'] ∧ Blank after ∧ Written value tail
  | more margin value tail =>
    p.prevName ≠ [] ∧ Blank margin ∧ margin ≠ [] ∧ value ≠ [] ∧
      (∀ c ∈ value.head?, c ∉ [byte ';', byte '#']) ∧ Written value tail

/-- A name is continued under its first 49 characters, and a section is known by them. -/
def step (p : Place) : Item → Place
  | header _ name _ => ⟨name.take 49, []⟩
  | pair _ name _ _ _ _ _ => ⟨p.sectionName, name.take 49⟩
  | _ => p

def entries (p : Place) : Item → List Entry
  | pair _ name _ _ _ value _ => [⟨p.sectionName, name, value⟩]
  | more _ value _ => [⟨p.sectionName, p.prevName, value⟩]
  | _ => []

end Item

namespace Locals
variable {σ : Type}

def place (p : Locals σ) : Place := ⟨p.sectionName, p.prevName⟩

/-- A handler that accepts, given an entry. -/
def report (handler : Handler σ) (user : σ) (e : Entry) : σ := (handler user e.sectionName e.name e.value).1

/-- What an item does to the locals, past its line number. -/
def take (handler : Handler σ) (p : Locals σ) (i : Item) : Locals σ :=
  { p with
    sectionName := (i.step p.place).sectionName
    prevName := (i.step p.place).prevName
    user := (i.entries p.place).foldl (report handler) p.user }

/-- A line whose mark, if any, has been skipped. -/
def classify (handler : Handler σ) (p : Locals σ) (t : List UInt8) : Locals σ :=
  p.dispatch handler ((lskip (rstrip t)).length < (rstrip t).length) (lskip (rstrip t))

end Locals

theorem lskip_start {margin : List UInt8} {c : UInt8} (hmargin : Blank margin) (hc : isspace c = false)
    (s : List UInt8) : lskip (rstrip (margin ++ c :: s)) = c :: rstrip s := by
  rw [rstrip_cons _ hc, lskip_blank hmargin, lskip_cons hc]

section
variable {σ : Type} {handler : Handler σ}

theorem classify_start {margin : List UInt8} {c : UInt8} (hmargin : Blank margin) (hc : isspace c = false)
    (p : Locals σ) (s : List UInt8) :
    p.classify handler (margin ++ c :: s) = p.dispatch handler (decide (margin ≠ [])) (c :: rstrip s) := by
  have hmoved : (lskip (rstrip (margin ++ c :: s))).length < (rstrip (margin ++ c :: s)).length ↔ margin ≠ [] := by
    rw [lskip_start hmargin hc, rstrip_cons _ hc, List.length_append, ← List.length_pos_iff]
    omega
  rw [Locals.classify, lskip_start hmargin hc, decide_eq_decide.mpr]
  rw [← lskip_start hmargin hc, hmoved]

theorem classify_blank {w : List UInt8} (hw : Blank w) (p : Locals σ) : p.classify handler w = p := by
  have hstrip : rstrip w = [] := List.rdropWhile_eq_nil_iff.mpr hw
  rw [Locals.classify, hstrip]
  rfl

/-- A line that is not a comment and continues nothing. -/
theorem dispatch_fresh {p : Locals σ} {margin : List UInt8} (hfresh : p.prevName ≠ [] → margin = []) {c : UInt8}
    (hc : c ∉ [byte ';', byte '#']) (s : List UInt8) :
    p.dispatch handler (decide (margin ≠ [])) (c :: s) =
      if c = byte '[' then p.sectionLine s else p.pairLine handler (c :: s) := by
  have hcomment : ¬ (c = byte ';' ∨ c = byte '#') := by simpa using hc
  have hmore : ¬ (p.prevName ≠ [] ∧ decide (margin ≠ []) = true) := by
    rintro ⟨hprev, hmargin⟩
    exact (of_decide_eq_true hmargin) (hfresh hprev)
  rw [Locals.dispatch, if_neg hcomment, if_neg hmore]

theorem sectionLine_header {name : List UInt8} (hname : byte ']' ∉ name) (hquiet : Uncommented name) (p : Locals σ)
    (rest : List UInt8) :
    p.sectionLine (name ++ byte ']' :: rest) = { p with sectionName := name.take 49, prevName := [] } := by
  have hfind : findCharsOrComment (some [byte ']']) false (name ++ byte ']' :: rest) = (name, byte ']' :: rest) := by
    refine findCharsOrComment_stop hquiet (fun x hx h => ?_) (List.mem_singleton_self _)
    rw [List.mem_singleton.mp h] at hx
    exact hname hx
  rw [Locals.sectionLine, hfind]
  rfl

variable (haccepts : ∀ u s n v, (handler u s n v).2 = true)
include haccepts

theorem handle_accepts (p : Locals σ) (name value : List UInt8) :
    p.handle handler name value = { p with user := (handler p.user p.sectionName name value).1 } := by
  simp only [Locals.handle, haccepts, if_true]

theorem pairLine_pair {name before after value tail : List UInt8} {sep : UInt8} (hname : Item.Named name before)
    (hsep : sep ∈ [byte '=', byte ':']) (hafter : Blank after) (hvalue : Item.Written value tail) (p : Locals σ) :
    p.pairLine handler ((name ++ before) ++ sep :: rstrip (after ++ (value ++ tail))) =
      { p with
        prevName := name.take 49
        user := (handler p.user p.sectionName name value).1 } := by
  have hblank : ∀ x ∈ before, x ∉ [byte '=', byte ':'] := by
    intro x hx hmem
    have hspace := hname.gap x hx
    rcases List.mem_pair.mp hmem with rfl | rfl <;> exact absurd hspace (by decide)
  have hfind : findCharsOrComment (some [byte '=', byte ':']) false
      ((name ++ before) ++ sep :: rstrip (after ++ (value ++ tail))) =
        (name ++ before, sep :: rstrip (after ++ (value ++ tail))) :=
    findCharsOrComment_stop (hname.quiet.append_blank hname.gap)
      (fun x hx => (List.mem_append.mp hx).elim (hname.apart x) (hblank x)) hsep
  have hstrip : rstrip (name ++ before) = name := (rstrip_blank hname.gap name).trans hname.trimmed.2
  have htext := text_of_line hafter hvalue.trimmed hvalue.quiet hvalue.ending hvalue.empty
  rw [Locals.pairLine, hfind]
  simp only [List.mem_pair.mp hsep, if_true, hstrip, htext, handle_accepts haccepts]
  rfl

/-- A line that is an item does what the item says. -/
theorem classify_item {p : Locals σ} {i : Item} (hi : i.Allowed p.place) :
    p.classify handler i.text = p.take handler i := by
  cases i with
  | blank w => exact classify_blank hi p
  | comment margin mark body =>
    obtain ⟨hmargin, hmark⟩ := hi
    have hspace : isspace mark = false := by
      rcases List.mem_pair.mp hmark with rfl | rfl <;> decide
    rw [Item.text, classify_start hmargin hspace, Locals.dispatch, if_pos (List.mem_pair.mp hmark)]
    rfl
  | header margin name rest =>
    obtain ⟨hmargin, hfresh, hname, hquiet⟩ := hi
    rw [Item.text, classify_start hmargin (by decide), dispatch_fresh hfresh (by decide), if_pos rfl,
      rstrip_cons name (by decide), sectionLine_header hname hquiet]
    rfl
  | pair margin name before sep after value tail =>
    obtain ⟨hmargin, hfresh, hname, hsep, hafter, hvalue⟩ := hi
    have hsepSpace : isspace sep = false := by
      rcases List.mem_pair.mp hsep with rfl | rfl <;> decide
    -- the line starts with the name, or with the separator if there is none
    obtain ⟨c, s, hstart, hc, hmark⟩ : ∃ c s, (name ++ before) ++ sep :: (after ++ (value ++ tail)) = c :: s ∧
        isspace c = false ∧ c ∉ [byte ';', byte '#', byte '['] := by
      cases name with
      | nil =>
        rw [hname.empty rfl]
        refine ⟨sep, _, rfl, hsepSpace, ?_⟩
        rcases List.mem_pair.mp hsep with rfl | rfl <;> decide
      | cons c name => exact ⟨c, _, rfl, hname.trimmed.head, hname.first c rfl⟩
    have hmarks : c ∉ [byte ';', byte '#'] := fun h => hmark (by simp at h ⊢; tauto)
    have hbracket : ¬ c = byte '[' := fun h => hmark (by simp [h])
    have hstrip : c :: rstrip s = (name ++ before) ++ sep :: rstrip (after ++ (value ++ tail)) := by
      rw [← rstrip_cons _ hsepSpace, hstart, ← List.nil_append (c :: s), rstrip_cons _ hc, List.nil_append]
    rw [Item.text, hstart, classify_start hmargin hc, dispatch_fresh hfresh hmarks, if_neg hbracket, hstrip,
      pairLine_pair haccepts hname hsep hafter hvalue]
    rfl
  | more margin value tail =>
    obtain ⟨hprev, hmargin, hmoved, hne, hmark, hvalue⟩ := hi
    have htext := text_of_line hmargin hvalue.trimmed hvalue.quiet hvalue.ending hvalue.empty
    obtain ⟨c, s, rfl⟩ := List.exists_cons_of_ne_nil hne
    have hc := hvalue.trimmed.head
    have hmarks : ¬ (c = byte ';' ∨ c = byte '#') := by simpa using hmark c rfl
    rw [List.cons_append, lskip_start hmargin hc] at htext
    rw [Item.text, List.cons_append, classify_start hmargin hc, Locals.dispatch, if_neg hmarks,
      if_pos ⟨hprev, decide_eq_true hmoved⟩, htext, handle_accepts haccepts]
    rfl

end

/-! Every line is an item, or an error. -/

theorem rstrip_split (s : List UInt8) : ∃ w, Blank w ∧ rstrip s ++ w = s :=
  ⟨s.rtakeWhile isspace, fun _ hc => List.mem_rtakeWhile_imp hc, List.rdropWhile_append_rtakeWhile⟩

theorem lskip_split (s : List UInt8) : ∃ w, Blank w ∧ w ++ lskip s = s :=
  ⟨s.takeWhile isspace, fun _ hc => List.mem_takeWhile_imp hc, List.takeWhile_append_dropWhile⟩

theorem lskip_head (s : List UInt8) {c : UInt8} (hc : c ∈ (lskip s).head?) : isspace c = false := by
  have hnot := List.head?_dropWhile_not isspace s
  simpa [show (s.dropWhile isspace).head? = some c from hc] using hnot

theorem trimmed_rstrip {c : UInt8} (hc : isspace c = false) (s : List UInt8) : Trimmed (c :: rstrip s) := by
  refine ⟨lskip_cons hc _, ?_⟩
  have hkeep := rstrip_cons [] hc (rstrip s)
  rwa [List.nil_append, List.nil_append, show rstrip (rstrip s) = rstrip s from List.rdropWhile_idempotent _ _] at hkeep

/-- A value ends where the search for a comment says. -/
theorem written_of_find {s w : List UInt8} (hs : ∀ c ∈ s.head?, isspace c = false) (hw : Blank w) :
    ∃ tail, Item.Written (rstrip (findCharsOrComment none false s).1) tail ∧
      rstrip (findCharsOrComment none false s).1 ++ tail = s ++ w ∧
      (s ≠ [] → rstrip (findCharsOrComment none false s).1 ≠ []) := by
  cases s with
  | nil =>
    refine ⟨w, ⟨⟨rfl, rfl⟩, List.isChain_nil, .blank hw, fun _ => hw⟩, rfl, fun h => absurd rfl h⟩
  | cons c s =>
    have hc : isspace c = false := hs c rfl
    have hf := found_start none (c :: s)
    obtain ⟨before, rest, hfound⟩ : ∃ before rest, findCharsOrComment none false (c :: s) = (c :: before, rest) :=
      ⟨_, _, by rw [findCharsOrComment, if_neg (by simp)]⟩
    rw [hfound] at hf ⊢
    obtain ⟨gap, hgap, hsplit⟩ := rstrip_split before
    have hstrip : rstrip (c :: before) = c :: rstrip before := rstrip_cons [] hc before
    have hquiet : Uncommented (c :: rstrip before) := by
      have hall : Uncommented (c :: before) := (List.isChain_cons_cons.mp hf.quiet).2
      rw [← hsplit, ← List.cons_append] at hall
      exact hall.left_of_append
    rw [hstrip]
    refine ⟨gap ++ (rest ++ w), ⟨trimmed_rstrip hc before, hquiet, ?_, fun h => absurd h (by simp)⟩, ?_, fun _ => by simp⟩
    · cases rest with
      | nil => exact (Tail.blank hgap).append hw
      | cons e rest =>
        -- a comment starts after a blank, so the gap is not empty
        rcases hf.stop e rfl with he | ⟨hlast, he⟩
        · exact absurd he List.not_mem_nil
        · refine .comment hgap (fun hnil => ?_) he
          have hbefore : rstrip before = before := by rwa [hnil, List.append_nil] at hsplit
          have htrim := (trimmed_rstrip hc before).2
          rw [hbefore] at htrim
          rw [List.getLast_cons (List.cons_ne_nil c before)] at hlast
          exact List.rdropWhile_eq_self_iff.mp htrim (List.cons_ne_nil c before) hlast
    · rw [← List.append_assoc, List.cons_append, hsplit, ← List.append_assoc, hf.split]


theorem section_or_malformed (s : List UInt8) :
    (∃ name rest, byte ']' ∉ name ∧ Uncommented name ∧ name ++ byte ']' :: rest = s) ∨
      ∀ {σ : Type} (p : Locals σ), p.sectionLine s = p.fail := by
  have hf := found_start (some [byte ']']) s
  unfold Locals.sectionLine
  generalize findCharsOrComment (some [byte ']']) false s = f at hf
  obtain ⟨name, rest⟩ := f
  cases rest with
  | nil => exact .inr fun p => rfl
  | cons e rest =>
    by_cases he : e = byte ']'
    · subst he
      exact .inl ⟨name, rest, fun h => hf.none _ h (List.mem_singleton_self _), (List.isChain_cons.mp hf.quiet).2, hf.split⟩
    · exact .inr fun p => if_neg he

theorem pair_or_malformed {c : UInt8} (hc : isspace c = false) (hmark : c ∉ [byte ';', byte '#', byte '['])
    (s : List UInt8) :
    (∃ name before sep rest, Item.Named name before ∧ sep ∈ [byte '=', byte ':'] ∧
        (name ++ before) ++ sep :: rest = c :: s) ∨
      ∀ {σ : Type} (handler : Handler σ) (p : Locals σ), p.pairLine handler (c :: s) = p.fail := by
  have hf := found_start (some [byte '=', byte ':']) (c :: s)
  unfold Locals.pairLine
  generalize findCharsOrComment (some [byte '=', byte ':']) false (c :: s) = f at hf
  obtain ⟨name, rest⟩ := f
  cases rest with
  | nil => exact .inr fun handler p => rfl
  | cons sep rest =>
    by_cases hsep : sep = byte '=' ∨ sep = byte ':'
    · refine .inl ?_
      cases name with
      | nil =>
        refine ⟨[], [], sep, rest, ⟨⟨rfl, rfl⟩, List.isChain_nil, ?_, ?_, ?_, fun _ => rfl⟩, List.mem_pair.mpr hsep,
          hf.split⟩
        all_goals
          intro x hx
          simp at hx
      | cons d name =>
        obtain ⟨rfl, -⟩ := List.cons.inj hf.split
        obtain ⟨gap, hgap, hsplit⟩ := rstrip_split name
        have hall : Uncommented (d :: name) := (List.isChain_cons_cons.mp hf.quiet).2
        have hapart : ∀ x ∈ d :: name, x ∉ [byte '=', byte ':'] := hf.none
        have hwhole : (d :: rstrip name) ++ gap = d :: name := congrArg (d :: ·) hsplit
        rw [← hwhole] at hall hapart
        have hnamed : Item.Named (d :: rstrip name) gap := by
          refine ⟨trimmed_rstrip hc name, hall.left_of_append, fun x hx => hapart x (List.mem_append_left _ hx), ?_, hgap,
            fun h => absurd h (by simp)⟩
          intro x hx
          rw [← Option.some.inj hx]
          exact hmark
        exact ⟨d :: rstrip name, gap, sep, rest, hnamed, List.mem_pair.mpr hsep, by rw [hwhole]; exact hf.split⟩
    · exact .inr fun handler p => if_neg hsep

/-- A line with blanks on the left, after a name. -/
theorem more_item {q : Place} {margin : List UInt8} {c : UInt8} (hprev : q.prevName ≠ []) (hmargin : Blank margin)
    (hmoved : margin ≠ []) (hc : isspace c = false) (hmark : c ∉ [byte ';', byte '#']) (s : List UInt8) :
    ∃ i : Item, i.Allowed q ∧ i.text = margin ++ c :: s := by
  obtain ⟨w, hw, hstrip⟩ := rstrip_split s
  obtain ⟨tail, hvalue, htext, hne⟩ := written_of_find (s := c :: rstrip s) (w := w)
    (fun x hx => by rwa [← Option.some.inj hx]) hw
  rw [List.cons_append, hstrip] at htext
  refine ⟨.more margin _ tail, ⟨hprev, hmargin, hmoved, hne (by simp), ?_, hvalue⟩, by rw [Item.text, htext]⟩
  intro x hx
  have hhead : (rstrip (findCharsOrComment none false (c :: rstrip s)).1 ++ tail).head? = some x := by
    rw [List.head?_append, Option.mem_def.mp hx, Option.some_or]
  rw [htext] at hhead
  rwa [← Option.some.inj hhead]

/-- A line is an item at its place, or it is an error that does nothing else. -/
theorem item_or_malformed (q : Place) (t : List UInt8) :
    (∃ i : Item, i.Allowed q ∧ i.text = t) ∨
      ∀ {σ : Type} (handler : Handler σ) (p : Locals σ), p.place = q → p.classify handler t = p.fail := by
  obtain ⟨margin, hmargin, hsplit⟩ := lskip_split t
  cases hskip : lskip t with
  | nil =>
    rw [hskip, List.append_nil] at hsplit
    exact .inl ⟨.blank t, hsplit ▸ hmargin, rfl⟩
  | cons c s =>
    have hc : isspace c = false := lskip_head t (by rw [hskip]; rfl)
    rw [hskip] at hsplit
    subst hsplit
    by_cases hcomment : c ∈ [byte ';', byte '#']
    · exact .inl ⟨.comment margin c s, ⟨hmargin, hcomment⟩, rfl⟩
    by_cases hmore : q.prevName ≠ [] ∧ margin ≠ []
    · exact .inl (more_item hmore.1 hmargin hmore.2 hc hcomment s)
    have hfresh : q.prevName ≠ [] → margin = [] := by
      intro hprev
      by_contra hne
      exact hmore ⟨hprev, hne⟩
    have hline : ∀ {σ : Type} (handler : Handler σ) (p : Locals σ), p.place = q → p.classify handler (margin ++ c :: s) =
        if c = byte '[' then p.sectionLine (rstrip s) else p.pairLine handler (c :: rstrip s) := by
      rintro σ handler p rfl
      rw [classify_start hmargin hc]
      exact dispatch_fresh hfresh hcomment _
    obtain ⟨w, hw, hstrip⟩ := rstrip_split s
    by_cases hbracket : c = byte '['
    · subst hbracket
      rcases section_or_malformed (rstrip s) with ⟨name, rest, hname, hquiet, hs⟩ | hfail
      · have hwhole : name ++ byte ']' :: (rest ++ w) = s := by
          rw [← List.cons_append, ← List.append_assoc, hs, hstrip]
        exact .inl ⟨.header margin name (rest ++ w), ⟨hmargin, hfresh, hname, hquiet⟩, by rw [Item.text, hwhole]⟩
      · exact .inr fun handler p hp => by rw [hline handler p hp, if_pos rfl, hfail]
    · have hmark : c ∉ [byte ';', byte '#', byte '['] := by
        intro h
        simp only [List.mem_cons, List.not_mem_nil, or_false] at h hcomment
        tauto
      rcases pair_or_malformed hc hmark (rstrip s) with ⟨name, before, sep, rest, hnamed, hsep, hs⟩ | hfail
      · obtain ⟨after, hafter, hrest⟩ := lskip_split rest
        obtain ⟨tail, hvalue, htext, -⟩ := written_of_find (fun x hx => lskip_head rest hx) hw
        refine .inl ⟨.pair margin name before sep after _ tail, ⟨hmargin, hfresh, hnamed, hsep, hafter, hvalue⟩, ?_⟩
        rw [Item.text, htext, ← List.append_assoc after, hrest, ← List.cons_append, ← List.append_assoc (name ++ before),
          hs, List.cons_append, hstrip]
      · exact .inr fun handler p hp => by rw [hline handler p hp, if_neg hbracket, hfail]

end Config
end EndlessFault
