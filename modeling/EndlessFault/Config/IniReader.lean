import Mathlib.Data.Finset.Dedup
import Mathlib.Data.Finset.Lattice.Lemmas
import Mathlib.Data.List.ReduceOption
import Mathlib.Logic.Function.Basic
import EndlessFault.Config.IniSyntax

/- The reader of the configuration file (`INIReader`): what `ValueHandler` makes of the
   entries the parser reports, and the lookups of `main`.

   Main results: `get_file`, for every file a lookup gives what the lines that are items say,
   and the error is the number of the first line that is none; `get_render`, a well-formed
   document written out is read back. -/
namespace EndlessFault
open Lib.Machine

namespace Config

/-! From the stream to the lines. -/

/-- A line as the parser sees it: up to its first NUL, and the first line past its mark. -/
def seen (stream : List UInt8) : List (List UInt8) :=
  match (readLines stream).map cstr with
  | [] => []
  | l :: ls => (if bom <+: l then l.drop 3 else l) :: ls

section
variable {σ : Type} {handler : Handler σ}

/-- A step of the loop on such a line. -/
def Locals.next (handler : Handler σ) (p : Locals σ) (t : List UInt8) : Locals σ :=
  { p with lineno := p.lineno + 1 }.classify handler t

theorem lineno_fail (p : Locals σ) : p.fail.lineno = p.lineno := by
  unfold Locals.fail
  split <;> rfl

theorem lineno_handle (p : Locals σ) (name value : List UInt8) : (p.handle handler name value).lineno = p.lineno := by
  unfold Locals.handle
  dsimp only
  split
  · rfl
  · exact lineno_fail _

theorem lineno_dispatch (p : Locals σ) (moved : Bool) (start : List UInt8) :
    (p.dispatch handler moved start).lineno = p.lineno := by
  have hsection : ∀ rest, (p.sectionLine rest).lineno = p.lineno := by
    intro rest
    unfold Locals.sectionLine
    dsimp only
    repeat' split
    all_goals first | rfl | exact lineno_fail p
  have hpair : ∀ start, (p.pairLine handler start).lineno = p.lineno := by
    intro start
    unfold Locals.pairLine
    dsimp only
    repeat' split
    all_goals first | exact lineno_fail p | exact lineno_handle _ _ _
  cases start with
  | nil => rfl
  | cons c rest =>
    rw [Locals.dispatch]
    split_ifs
    · rfl
    · exact lineno_handle p _ _
    · exact hsection rest
    · exact hpair (c :: rest)

theorem dispatch_unnamed {p : Locals σ} (hprev : p.prevName = []) (moved moved' : Bool) (start : List UInt8) :
    p.dispatch handler moved start = p.dispatch handler moved' start := by
  cases start with
  | nil => rfl
  | cons c rest => simp [Locals.dispatch, hprev]

theorem line_later {p : Locals σ} (hlater : p.lineno ≠ 0) (text : List UInt8) :
    p.line handler text = p.next handler (cstr text) := by
  have hnot : ¬ (p.lineno + 1 = 1 ∧ bom <+: cstr text) := fun h => hlater (by omega)
  simp only [Locals.line, Locals.next, Locals.classify, if_neg hnot, Nat.lt_irrefl, false_or]

theorem line_first {p : Locals σ} (hfirst : p.lineno = 0) (hprev : p.prevName = []) (text : List UInt8) :
    p.line handler text = p.next handler (if bom <+: cstr text then (cstr text).drop 3 else cstr text) := by
  simp only [Locals.line, Locals.next, Locals.classify, hfirst, Nat.zero_add, true_and]
  refine dispatch_unnamed ?_ _ _ _
  exact hprev

theorem run_later (ls : List (List UInt8)) {p : Locals σ} (hlater : p.lineno ≠ 0) :
    run (Locals.line handler) p ls = run (Locals.next handler) p (ls.map cstr) := by
  induction ls generalizing p with
  | nil => rfl
  | cons l ls ih =>
    rw [run_cons, List.map_cons, run_cons, line_later hlater]
    refine ih ?_
    rw [Locals.next, Locals.classify, lineno_dispatch]
    exact Nat.succ_ne_zero _

theorem iniParseStream_seen (user : σ) (stream : List UInt8) :
    iniParseStream handler user stream = run (Locals.next handler) ⟨[], [], 0, 0, user⟩ (seen stream) := by
  unfold iniParseStream seen
  cases readLines stream with
  | nil => rfl
  | cons l ls =>
    rw [run_cons, line_first rfl rfl, run_later]
    · rfl
    · rw [Locals.next, Locals.classify, lineno_dispatch]
      exact Nat.succ_ne_zero _

end

/-! From the lines to the entries. -/

/-- Lines read one after the other: an item where the line is one at its place, and none
where it is not. -/
inductive Reads : Place → List (List UInt8) → List (Option Item) → Prop
  | nil {q : Place} : Reads q [] []
  | item {q : Place} {i : Item} {ls : List (List UInt8)} {ds : List (Option Item)} (hi : i.Allowed q)
      (hrest : Reads (i.step q) ls ds) : Reads q (i.text :: ls) (some i :: ds)
  | malformed {q : Place} {l : List UInt8} {ls : List (List UInt8)} {ds : List (Option Item)}
      (hl : ∀ i : Item, i.Allowed q → i.text ≠ l) (hrest : Reads q ls ds) : Reads q (l :: ls) (none :: ds)

theorem reads_exists (q : Place) (ls : List (List UInt8)) : ∃ ds, Reads q ls ds := by
  induction ls generalizing q with
  | nil => exact ⟨[], .nil⟩
  | cons l ls ih =>
    by_cases h : ∃ i : Item, i.Allowed q ∧ i.text = l
    · obtain ⟨i, hi, rfl⟩ := h
      obtain ⟨ds, hds⟩ := ih (i.step q)
      exact ⟨some i :: ds, .item hi hds⟩
    · obtain ⟨ds, hds⟩ := ih q
      exact ⟨none :: ds, .malformed (fun i hi ht => h ⟨i, hi, ht⟩) hds⟩

/-- The number of the first line that is no item, 0 if there is none. -/
def firstError (ds : List (Option Item)) : Nat := (ds.findIdx? Option.isNone).elim 0 (· + 1)

/-- The entries of the items from a place on. -/
def entriesFrom (q : Place) (items : List Item) : List Entry := observe Item.step Item.entries q items

def start : Place := ⟨[], []⟩

section
variable {σ : Type} {handler : Handler σ}

theorem next_malformed {p : Locals σ} {l : List UInt8} (hl : ∀ i : Item, i.Allowed p.place → i.text ≠ l) :
    p.next handler l = { p with lineno := p.lineno + 1 }.fail := by
  rcases item_or_malformed p.place l with ⟨i, hi, ht⟩ | hfail
  · exact absurd ht (hl i hi)
  · exact hfail handler _ rfl

variable (haccepts : ∀ u s n v, (handler u s n v).2 = true)
include haccepts

theorem run_reads {q : Place} {ls : List (List UInt8)} {ds : List (Option Item)} (h : Reads q ls ds) (p : Locals σ)
    (hp : p.place = q) :
    (run (Locals.next handler) p ls).user = (entriesFrom q ds.reduceOption).foldl (Locals.report handler) p.user ∧
    (run (Locals.next handler) p ls).error =
      if p.error = 0 then (ds.findIdx? Option.isNone).elim 0 (p.lineno + 1 + ·) else p.error := by
  induction h generalizing p with
  | nil => exact ⟨rfl, by simp⟩
  | @item q i ls ds hi hrest ih =>
    subst hp
    have hnext : p.next handler i.text = { p with lineno := p.lineno + 1 }.take handler i :=
      classify_item haccepts hi
    obtain ⟨huser, herror⟩ := ih (p.next handler i.text) (by rw [hnext]; rfl)
    rw [run_cons]
    refine ⟨?_, ?_⟩
    · rw [huser, hnext, List.reduceOption_cons_of_some, entriesFrom, entriesFrom, observe_cons, List.foldl_append]
      rfl
    · rw [herror, hnext, List.findIdx?_cons]
      cases ds.findIdx? Option.isNone with
      | none => rfl
      | some k =>
        simp only [Locals.take, Option.isNone_some, Bool.false_eq_true, if_false, Option.map_some, Option.elim_some]
        rw [Nat.add_right_comm, Nat.add_assoc (p.lineno + 1)]
        rfl
  | @malformed q l ls ds hl hrest ih =>
    subst hp
    have hnext : p.next handler l = { p with lineno := p.lineno + 1 }.fail := next_malformed hl
    have hplace : (p.next handler l).place = p.place ∧ (p.next handler l).user = p.user ∧
        (p.next handler l).error = if p.error = 0 then p.lineno + 1 else p.error := by
      rw [hnext, Locals.fail]
      dsimp only
      split_ifs <;> exact ⟨rfl, rfl, rfl⟩
    obtain ⟨huser, herror⟩ := ih (p.next handler l) hplace.1
    rw [run_cons, huser, herror, hplace.2.1, hplace.2.2, List.reduceOption_cons_of_none, List.findIdx?_cons]
    refine ⟨rfl, ?_⟩
    split_ifs <;> simp_all

end

/-- A name that is reported has no equals sign, so that a key falls apart at its last one. -/
theorem names_apart {q : Place} {ls : List (List UInt8)} {ds : List (Option Item)} (h : Reads q ls ds)
    (hq : byte '=' ∉ q.prevName) : ∀ e ∈ entriesFrom q ds.reduceOption, byte '=' ∉ e.name := by
  induction h with
  | nil => exact fun e he => absurd he List.not_mem_nil
  | malformed hl hrest ih =>
    rw [List.reduceOption_cons_of_none]
    exact ih hq
  | @item q i ls ds hi hrest ih =>
    rw [List.reduceOption_cons_of_some, entriesFrom, observe_cons]
    have hname : ∀ margin name before sep after value tail, i = .pair margin name before sep after value tail →
        byte '=' ∉ name := by
      rintro margin name before sep after value tail rfl h
      exact hi.2.2.1.apart _ h (by simp)
    intro e he
    rcases List.mem_append.mp he with he | he
    · cases i with
      | blank w => exact absurd he List.not_mem_nil
      | comment margin mark body => exact absurd he List.not_mem_nil
      | header margin name rest => exact absurd he List.not_mem_nil
      | pair margin name before sep after value tail =>
        rw [List.mem_singleton.mp he]
        exact hname _ _ _ _ _ _ _ rfl
      | more margin value tail =>
        rw [List.mem_singleton.mp he]
        exact hq
    · refine ih ?_ e he
      cases i with
      | blank w => exact hq
      | comment margin mark body => exact hq
      | header margin name rest => exact List.not_mem_nil
      | pair margin name before sep after value tail =>
        exact fun h => hname _ _ _ _ _ _ _ rfl (List.mem_of_mem_take h)
      | more margin value tail => exact hq

/-! The reader. -/

def tolower (c : UInt8) : UInt8 := if byte 'A' ≤ c ∧ c ≤ byte 'Z' then c + 32 else c

def lower (s : List UInt8) : List UInt8 := s.map tolower

structure INIReader where
  error : Int
  values : List UInt8 → Option (List UInt8)
  sections : Finset (List UInt8)

namespace INIReader

def empty : INIReader := ⟨0, fun _ => none, ∅⟩

def makeKey (sectionName name : List UInt8) : List UInt8 := lower (sectionName ++ byte '=' :: name)

/-- A further value for a key. -/
def append (held value : List UInt8) : List UInt8 :=
  (if held.length > 0 then held ++ [byte '\n'] else held) ++ value

def valueHandler : Handler INIReader := fun reader sectionName name value =>
  let key := makeKey sectionName name
  ({ reader with
      values := Function.update reader.values key (some (append ((reader.values key).getD []) value))
      sections := insert sectionName reader.sections }, true)

/-- The file is none if it cannot be opened. -/
def new (file : Option (List UInt8)) : INIReader :=
  match file with
  | none => { empty with error := -1 }
  | some stream =>
    let parsed := iniParseStream valueHandler empty stream
    { parsed.user with error := parsed.error }

def get (reader : INIReader) (sectionName name default : List UInt8) : List UInt8 :=
  (reader.values (makeKey sectionName name)).getD default

end INIReader

/-! What a lookup gives. -/

/-- The values of a name in a section, whatever the case of their letters, one on each line.
Empty values before the first other one leave no line. -/
def lookup (es : List Entry) (sectionName name : List UInt8) : Option (List UInt8) :=
  match (es.filter fun e => lower e.sectionName = lower sectionName ∧ lower e.name = lower name).map Entry.value with
  | [] => none
  | v :: vs => some ([byte '\n'].intercalate ((v :: vs).dropWhile (· = [])))

theorem tolower_eq {c : UInt8} : tolower c = byte '=' ↔ c = byte '=' := by
  constructor
  · intro h
    unfold tolower at h
    split_ifs at h with hletter
    · have hge : 65 ≤ c.toNat := UInt8.le_iff_toNat_le.mp hletter.1
      have hle : c.toNat ≤ 90 := UInt8.le_iff_toNat_le.mp hletter.2
      have hsum : (c + 32).toNat = 61 := congrArg UInt8.toNat h
      rw [UInt8.toNat_add, show (32 : UInt8).toNat = 32 from rfl] at hsum
      omega
    · exact h
  · rintro rfl
    rfl

theorem mem_lower {s : List UInt8} : byte '=' ∈ lower s ↔ byte '=' ∈ s := by
  simp [lower, List.mem_map, tolower_eq]

theorem append_last_inj {a a' b b' : List UInt8} {c : UInt8} (hb : c ∉ b) (hb' : c ∉ b') :
    a ++ c :: b = a' ++ c :: b' ↔ a = a' ∧ b = b' := by
  -- what the longer of the two has more would put `c` behind the last one
  have hnone : ∀ {d e more : List UInt8}, c ∉ d → c :: d = more ++ c :: e → more = [] ∧ d = e := by
    intro d e more hd h
    cases more with
    | nil => exact ⟨rfl, (List.cons.inj h).2⟩
    | cons x more =>
      obtain ⟨-, rfl⟩ := List.cons.inj h
      exact absurd (by simp) hd
  constructor
  · intro h
    rcases List.append_eq_append_iff.mp h with ⟨more, rfl, hmore⟩ | ⟨more, rfl, hmore⟩
    · obtain ⟨rfl, rfl⟩ := hnone hb hmore
      exact ⟨(List.append_nil a).symm, rfl⟩
    · obtain ⟨rfl, rfl⟩ := hnone hb' hmore
      exact ⟨List.append_nil a', rfl⟩
  · rintro ⟨rfl, rfl⟩
    rfl

theorem makeKey_inj {s s' n n' : List UInt8} (hn : byte '=' ∉ n) (hn' : byte '=' ∉ n') :
    INIReader.makeKey s n = INIReader.makeKey s' n' ↔ lower s = lower s' ∧ lower n = lower n' := by
  have hkey : ∀ s n, INIReader.makeKey s n = lower s ++ byte '=' :: lower n := by
    intro s n
    simp only [INIReader.makeKey, lower, List.map_append, List.map_cons]
    rfl
  rw [hkey, hkey]
  exact append_last_inj (mem_lower.not.mpr hn) (mem_lower.not.mpr hn')

theorem foldl_append_nonempty {held : List UInt8} (h : held ≠ []) (vs : List (List UInt8)) :
    vs.foldl INIReader.append held = [byte '\n'].intercalate (held :: vs) := by
  induction vs generalizing held with
  | nil => simp
  | cons v vs ih =>
    have hpos : held.length > 0 := List.length_pos_iff.mpr h
    rw [List.foldl_cons, INIReader.append, if_pos hpos, ih (by simp)]
    cases vs <;> simp [List.intercalate]

theorem foldl_append_nil (vs : List (List UInt8)) :
    vs.foldl INIReader.append [] = [byte '\n'].intercalate (vs.dropWhile (· = [])) := by
  induction vs with
  | nil => rfl
  | cons v vs ih =>
    rw [List.foldl_cons, INIReader.append, if_neg (by simp), List.nil_append]
    by_cases hv : v = []
    · rw [hv, ih, List.dropWhile_cons_of_pos (by simp)]
    · rw [foldl_append_nonempty hv, List.dropWhile_cons_of_neg (by simpa using hv)]

theorem values_foldl (es : List Entry) (reader : INIReader) (key : List UInt8) :
    (es.foldl (Locals.report INIReader.valueHandler) reader).values key =
      match (es.filter fun e => INIReader.makeKey e.sectionName e.name = key).map Entry.value with
      | [] => reader.values key
      | v :: vs => some ((v :: vs).foldl INIReader.append ((reader.values key).getD [])) := by
  induction es generalizing reader with
  | nil => rfl
  | cons e es ih =>
    rw [List.foldl_cons, ih]
    by_cases hkey : INIReader.makeKey e.sectionName e.name = key
    · rw [List.filter_cons_of_pos (by simpa using hkey), List.map_cons]
      subst hkey
      simp only [Locals.report, INIReader.valueHandler, Function.update_self, Option.getD_some]
      split
      · next hnil => rw [hnil, List.foldl_cons, List.foldl_nil]
      · next v vs hvs =>
        rw [hvs]
        rfl
    · rw [List.filter_cons_of_neg (by simpa using hkey)]
      simp only [Locals.report, INIReader.valueHandler, Function.update_of_ne (Ne.symm hkey)]

theorem sections_foldl (es : List Entry) (reader : INIReader) :
    (es.foldl (Locals.report INIReader.valueHandler) reader).sections =
      reader.sections ∪ (es.map Entry.sectionName).toFinset := by
  induction es generalizing reader with
  | nil => simp
  | cons e es ih =>
    rw [List.foldl_cons, ih]
    simp [Locals.report, INIReader.valueHandler]

theorem get_foldl {es : List Entry} (hes : ∀ e ∈ es, byte '=' ∉ e.name) (sectionName default : List UInt8)
    {name : List UInt8} (hname : byte '=' ∉ name) :
    (es.foldl (Locals.report INIReader.valueHandler) INIReader.empty).get sectionName name default =
      (lookup es sectionName name).getD default := by
  have hfilter : (es.filter fun e => INIReader.makeKey e.sectionName e.name = INIReader.makeKey sectionName name) =
      es.filter fun e => lower e.sectionName = lower sectionName ∧ lower e.name = lower name :=
    List.filter_congr fun e he => decide_eq_decide.mpr (makeKey_inj (hes e he) hname)
  rw [INIReader.get, values_foldl, hfilter, lookup]
  cases (es.filter fun e => lower e.sectionName = lower sectionName ∧ lower e.name = lower name).map Entry.value with
  | nil => rfl
  | cons v vs => exact congrArg (fun held => (some held).getD default) (foldl_append_nil (v :: vs))

theorem new_reads {stream : List UInt8} {ds : List (Option Item)} (hds : Reads start (seen stream) ds) :
    (INIReader.new (some stream)).error = firstError ds ∧
    (INIReader.new (some stream)).sections = ((entriesFrom start ds.reduceOption).map Entry.sectionName).toFinset ∧
    ∀ sectionName name default, byte '=' ∉ name →
      (INIReader.new (some stream)).get sectionName name default =
        (lookup (entriesFrom start ds.reduceOption) sectionName name).getD default := by
  have haccepts : ∀ u s n v, (INIReader.valueHandler u s n v).2 = true := fun _ _ _ _ => rfl
  obtain ⟨huser, herror⟩ := run_reads haccepts hds ⟨[], [], 0, 0, .empty⟩ rfl
  rw [← iniParseStream_seen] at huser herror
  refine ⟨?_, ?_, ?_⟩
  · rw [INIReader.new, herror, firstError]
    cases ds.findIdx? Option.isNone with
    | none => rfl
    | some k => simp [Nat.add_comm]
  · rw [INIReader.new, huser, sections_foldl]
    exact Finset.empty_union _
  · intro sectionName name default hname
    rw [← get_foldl (names_apart hds List.not_mem_nil) sectionName default hname, ← huser]
    rfl

/-- A file is read as its lines say: those that are items give the values of every name, and the
first that is none gives the error. -/
theorem get_file (stream : List UInt8) :
    (∃ ds, Reads start (seen stream) ds) ∧
    ∀ ds, Reads start (seen stream) ds →
      (INIReader.new (some stream)).error = firstError ds ∧
      (INIReader.new (some stream)).sections = ((entriesFrom start ds.reduceOption).map Entry.sectionName).toFinset ∧
      ∀ sectionName name default, byte '=' ∉ name →
        (INIReader.new (some stream)).get sectionName name default =
          (lookup (entriesFrom start ds.reduceOption) sectionName name).getD default :=
  ⟨reads_exists start (seen stream), fun _ hds => new_reads hds⟩

/-! Written out and read back. -/

/-- A line that fits the buffer with its newline. -/
def Item.Fits (i : Item) : Prop :=
  ∃ body, i.text = body ++ [byte '\n'] ∧ (∀ c ∈ body, c ≠ 0 ∧ c ≠ byte '\n') ∧ body.length < INI_MAX_LINE - 1

theorem Item.fits_iff (i : Item) : i.Fits ↔ i.text = i.text.dropLast ++ [byte '\n'] ∧
    (∀ c ∈ i.text.dropLast, c ≠ 0 ∧ c ≠ byte '\n') ∧ i.text.dropLast.length < INI_MAX_LINE - 1 := by
  constructor
  · rintro ⟨body, htext, hbody⟩
    rw [htext, List.dropLast_concat]
    exact ⟨rfl, hbody⟩
  · rintro ⟨htext, hbody⟩
    exact ⟨i.text.dropLast, htext, hbody⟩

instance (i : Item) : Decidable i.Fits :=
  haveI : Decidable (∀ c ∈ i.text.dropLast, c ≠ 0 ∧ c ≠ byte '\n') := List.decidableBAll _ _
  decidable_of_iff' _ i.fits_iff

def render (items : List Item) : List UInt8 := items.flatMap Item.text

theorem fgets_line {body : List UInt8} (hbody : ∀ c ∈ body, c ≠ byte '\n') {n : Nat} (hn : body.length < n) (s : List UInt8) :
    fgets n (body ++ byte '\n' :: s) = (body ++ [byte '\n'], s) := by
  induction body generalizing n with
  | nil =>
    obtain ⟨k, rfl⟩ := Nat.exists_eq_succ_of_ne_zero (Nat.ne_of_gt hn)
    rw [List.nil_append, fgets, if_pos rfl]
    rfl
  | cons c body ih =>
    obtain ⟨k, rfl⟩ := Nat.exists_eq_succ_of_ne_zero (Nat.ne_of_gt (Nat.zero_lt_of_lt hn))
    rw [List.cons_append, fgets, if_neg (hbody c List.mem_cons_self),
      ih (fun x hx => hbody x (List.mem_cons_of_mem c hx)) (Nat.lt_of_succ_lt_succ hn)]
    rfl

theorem readLines_line {body : List UInt8} (hbody : ∀ c ∈ body, c ≠ byte '\n') (hshort : body.length < INI_MAX_LINE - 1)
    (s : List UInt8) : readLines (body ++ byte '\n' :: s) = (body ++ [byte '\n']) :: readLines s := by
  have hline := fgets_line hbody hshort s
  cases hstream : body ++ byte '\n' :: s with
  | nil => simp at hstream
  | cons c t => rw [readLines, ← hstream, hline]

theorem cstr_line {body : List UInt8} (hbody : ∀ c ∈ body, c ≠ 0) : cstr (body ++ [byte '\n']) = body ++ [byte '\n'] := by
  refine List.takeWhile_eq_self_iff.mpr fun c hc => ?_
  rcases List.mem_append.mp hc with hc | hc
  · simpa using hbody c hc
  · rw [List.mem_singleton.mp hc]
    decide

theorem readLines_render {items : List Item} (hfits : ∀ i ∈ items, i.Fits) :
    (readLines (render items)).map cstr = items.map Item.text := by
  induction items with
  | nil => rw [render, List.flatMap_nil, readLines, List.map_nil, List.map_nil]
  | cons i items ih =>
    obtain ⟨body, htext, hplain, hshort⟩ := hfits i List.mem_cons_self
    have hrender : render (i :: items) = body ++ byte '\n' :: render items := by
      rw [render, List.flatMap_cons, htext, List.append_assoc]
      rfl
    rw [hrender, readLines_line (fun c hc => (hplain c hc).2) hshort, List.map_cons, List.map_cons,
      cstr_line fun c hc => (hplain c hc).1, htext, ih fun j hj => hfits j (List.mem_cons_of_mem i hj)]

theorem reads_items {q : Place} {items : List Item} (h : Along Item.step (fun q i => i.Allowed q) q items) :
    Reads q (items.map Item.text) (items.map some) := by
  induction items generalizing q with
  | nil => exact .nil
  | cons i items ih => exact .item h.1 (ih h.2)

theorem seen_render {items : List Item} (hfits : ∀ i ∈ items, i.Fits) (hmark : ¬ bom <+: render items) :
    seen (render items) = items.map Item.text := by
  rw [seen, readLines_render hfits]
  cases items with
  | nil => rfl
  | cons i items =>
    have hnot : ¬ bom <+: i.text := fun h => hmark (h.trans (List.prefix_append _ _))
    rw [List.map_cons]
    simp only [if_neg hnot]

theorem render_reads {items : List Item} (hitems : Along Item.step (fun q i => i.Allowed q) start items)
    (hfits : ∀ i ∈ items, i.Fits) (hmark : ¬ bom <+: render items) :
    Reads start (seen (render items)) (items.map some) := by
  rw [seen_render hfits hmark]
  exact reads_items hitems

theorem reduceOption_map_some (items : List Item) : (items.map some).reduceOption = items := by
  rw [List.reduceOption, List.filterMap_map, Function.id_comp, List.filterMap_some]

theorem firstError_map_some (items : List Item) : firstError (items.map some) = 0 := by
  rw [firstError, List.findIdx?_eq_none_iff.mpr, Option.elim_none]
  intro d hd
  obtain ⟨i, -, rfl⟩ := List.mem_map.mp hd
  rfl

/-- A document written out is read back, whatever its layout, with its comments and with the
values that run over several lines. -/
theorem get_render {items : List Item} (hitems : Along Item.step (fun q i => i.Allowed q) start items)
    (hfits : ∀ i ∈ items, i.Fits) (hmark : ¬ bom <+: render items) :
    (INIReader.new (some (render items))).error = 0 ∧
    ∀ sectionName name default, byte '=' ∉ name →
      (INIReader.new (some (render items))).get sectionName name default =
        (lookup (entriesFrom start items) sectionName name).getD default := by
  obtain ⟨herror, -, hget⟩ := new_reads (render_reads hitems hfits hmark)
  rw [reduceOption_map_some] at hget
  rw [firstError_map_some] at herror
  exact ⟨herror, hget⟩

theorem allowed_pair {q : Place} {name value : List UInt8} (hname : Trimmed name ∧ Uncommented name)
    (hapart : name.all (· ∉ [byte '=', byte ':']) = true) (hfirst : name.head?.all (· ∉ [byte ';', byte '#', byte '[']) = true)
    (hvalue : Trimmed value ∧ Uncommented value) :
    (Item.pair [] name [] (byte '=') [] value [byte '\n']).Allowed q := by
  have hnone : Blank [] := by decide
  have hnewline : Blank [byte '\n'] := by decide
  have hchars : ∀ c ∈ name, c ∉ [byte '=', byte ':'] := fun c hc => of_decide_eq_true (List.all_eq_true.mp hapart c hc)
  have hhead : ∀ c ∈ name.head?, c ∉ [byte ';', byte '#', byte '['] :=
    fun c hc => of_decide_eq_true ((Option.all_eq_true _ _).mp hfirst c hc)
  exact ⟨hnone, fun _ => rfl, ⟨hname.1, hname.2, hchars, hhead, hnone, fun _ => rfl⟩, by decide, hnone,
    hvalue.1, hvalue.2, .blank hnewline, fun _ => hnewline⟩

/-- A value on two lines, the second with a comment, and asked for in capitals. -/
theorem get_render_two_lines :
    (INIReader.new (some ("[s]\nname=one\n two ;three\n".toList.map byte))).get [byte 'S'] ("NAME".toList.map byte) [] =
      "one\ntwo".toList.map byte := by
  have hblank : Blank [byte ' '] := by decide
  have hnewline : Blank [byte '\n'] := by decide
  have hitems : Along Item.step (fun q i => i.Allowed q) start
      [.header [] [byte 's'] [byte '\n'], .pair [] ("name".toList.map byte) [] (byte '=') [] ("one".toList.map byte) [byte '\n'],
        .more [byte ' '] ("two".toList.map byte) ([byte ' '] ++ byte ';' :: "three\n".toList.map byte)] := by
    refine ⟨⟨by decide, by decide, by decide, by decide⟩, ?_, ?_, trivial⟩
    · exact allowed_pair (by decide) (by decide) (by decide) (by decide)
    have hhead : ∀ c ∈ ("two".toList.map byte).head?, c ∉ [byte ';', byte '#'] := by
      intro c hc
      rw [← Option.some.inj hc]
      decide
    exact ⟨by decide, hblank, by decide, by decide, hhead, by decide, by decide,
      .comment hblank (by decide) (by decide), fun h => absurd h (by decide)⟩
  have hread := (get_render hitems (by decide) (by decide)).2 [byte 'S'] ("NAME".toList.map byte) [] (by decide)
  exact hread.trans (by decide)

end Config
end EndlessFault
