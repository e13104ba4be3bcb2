import EndlessFault.Backend.ConsoleOutput

/- What the terminal shows of the text memory. A frame is a text for a terminal; read as
   one (`frame_reads`) it sets the rendition and prints a character for each cell, row
   by row, and ends on its last row without scrolling. So after any frames the terminal
   has in each cell the character, the colours and the cursor of the last one (`Drawn`).

   The colours of the card from 8 on are drawn bold, and no sequence that is sent for a
   dark colour ends bold again; only the one behind the underlined cursor does. So a
   bright cell makes all cells behind it bold up to the cursor, over the ends of
   rows and frames (`intensity`). Main result: `frames_shown`. -/
namespace EndlessFault
open Lib.Terminal

namespace ConsoleOutput

/-! What is wanted. -/

/-- The terminal's number of a colour of the card: the bits of the card are blue, green
and red from the lowest up, those of the terminal red, green and blue. -/
def colour (c : Nat) : Nat := 4 * (c % 2) + 2 * (c / 2 % 2) + c / 4 % 2

namespace Pass
variable (p : Pass)

def bright (i j : Nat) : Bool := 8 ≤ (textC (p.temp i j)).toNat

/-- The cell is the cursor's, drawn while the cursor shows. -/
def underlined (i j : Nat) : Bool := decide (p.cursorIndex.toNat = i * COLS + j) && p.isBlinkingCursor i j

/-- The intensity after a cell: bold stays until the cursor is drawn. -/
def carry (bold : Bool) (at_ : Nat × Nat) : Bool := (bold || p.bright at_.1 at_.2) && !p.underlined at_.1 at_.2

/-- The intensity left by some cells. -/
def intensity (bold : Bool) (cells : List (Nat × Nat)) : Bool := cells.foldl p.carry bold

/-- The cells of a row up to a column, and all cells before one, in the order they are drawn. -/
def rowTo (i j : Nat) : List (Nat × Nat) := (List.range j).map fun c => (i, c)

def before (i j : Nat) : List (Nat × Nat) :=
  (List.range i).flatMap (fun r => rowTo r p.minCols) ++ rowTo i j

/-- The cell as it should be shown, with the intensity before it. -/
def shown (bold : Bool) (i j : Nat) : Cell where
  char := p.char i j
  rendition :=
    { text := colour ((textC (p.temp i j)).toNat % 8)
      background := colour (backg (p.temp i j)).toNat
      bold := bold || p.bright i j
      underlined := p.underlined i j }

/-- Every character of the pass takes a cell of the terminal. -/
def Printable : Prop :=
  ∀ i j, i < p.minRows → j < p.minCols → Parser.printable (p.temp i j).toUInt8 = true

end Pass

/-! The text. -/

/-- The parameters of a text colour. -/
def textParams (c : Nat) : List Nat := if c < 8 then [30 + colour c] else [1, 30 + colour (c - 8)]

theorem colour_lt (c : Nat) : colour c < 8 := by
  unfold colour
  omega

/-- Both colours in one sequence. -/
theorem reads_colours : ∀ (c : Fin 16) (b : Fin 8),
    Parser.run .ground (text "\x1b[" ++ supportedTextColor.getD c [] ++ text ";" ++
      supportedBackgroundColor.getD b [] ++ text "m") = .ground ∧
    Parser.actions .ground (text "\x1b[" ++ supportedTextColor.getD c [] ++ text ";" ++
      supportedBackgroundColor.getD b [] ++ text "m") = [.sgr (textParams c ++ [40 + colour b])] := by
  decide +kernel

theorem textC_lt (temp : UInt16) : (textC temp).toNat < 16 := by
  rw [textC, UInt16.toNat_and]
  exact Nat.lt_of_le_of_lt Nat.and_le_right (by decide)

theorem backg_lt (temp : UInt16) : (backg temp).toNat < 8 := by
  have hle : (temp &&& 0x7000).toNat ≤ 0x7000 := by
    rw [UInt16.toNat_and]
    exact Nat.and_le_right
  have hshift : (12 : UInt16).toNat % 16 = 12 := rfl
  rw [backg, UInt16.toNat_shiftRight, hshift, Nat.shiftRight_eq_div_pow]
  omega

namespace Pass
variable (p : Pass)

/-- The actions of a cell, a row and a frame. -/
def colourActions (i j : Nat) : List Action :=
  [.sgr (textParams (textC (p.temp i j)).toNat ++ [40 + colour (backg (p.temp i j)).toNat]),
   .print (p.char i j)]

def cellActions (i j : Nat) : List Action :=
  if p.underlined i j then .sgr [4] :: (p.colourActions i j ++ [.sgr [0]]) else p.colourActions i j

def rowActions (i : Nat) : List Action :=
  (List.range p.minCols).flatMap (p.cellActions i) ++ .sgr [30, 40] ::
    if i ≠ p.minRows - 1 then [.lineEnd] else []

def frameActions : List Action := .position [0, 0] :: (List.range p.minRows).flatMap p.rowActions

variable {p}

theorem printable_char {i j : Nat} (h : Parser.printable (p.temp i j).toUInt8 = true) :
    Parser.printable (p.char i j) = true := by
  unfold char
  split_ifs
  · exact h
  · decide
  · exact h

theorem toPrint_reads {i j : Nat} (h : Parser.printable (p.temp i j).toUInt8 = true) :
    Parser.Reads (p.toPrint i j) (p.colourActions i j) := by
  have hcolours := reads_colours ⟨_, textC_lt (p.temp i j)⟩ ⟨_, backg_lt (p.temp i j)⟩
  have htext : getTextColor (textC (p.temp i j)) = supportedTextColor.getD (textC (p.temp i j)).toNat [] :=
    if_neg (Nat.not_le.mpr (textC_lt _))
  have hback : getBackgroundColor (backg (p.temp i j)) =
      supportedBackgroundColor.getD (backg (p.temp i j)).toNat [] :=
    if_neg (Nat.not_le.mpr (backg_lt _))
  rw [toPrint, htext, hback]
  exact Parser.Reads.append ⟨hcolours.1, hcolours.2⟩ (Parser.reads_print (printable_char h))

theorem cell_reads {i j : Nat} (h : Parser.printable (p.temp i j).toUInt8 = true) :
    Parser.Reads (p.cell i j) (p.cellActions i j) := by
  have hcursor : p.cursorY * COLS + p.cursorX = p.cursorIndex.toNat := Nat.div_add_mod' ..
  have hunder : Parser.Reads UNDERLINED [.sgr [4]] := ⟨by decide, by decide⟩
  have hrestore : Parser.Reads RESTORE [.sgr [0]] := ⟨by decide, by decide⟩
  have hprint := toPrint_reads h
  unfold cell cellActions underlined
  rw [hcursor]
  by_cases hat : p.cursorIndex.toNat = i * COLS + j
  · rw [if_pos hat, decide_eq_true hat, Bool.true_and]
    split_ifs
    · exact (hunder.append hprint).append hrestore
    · exact hprint
  · rw [if_neg hat, decide_eq_false hat]
    exact hprint

theorem row_reads {i : Nat} (hi : i < p.minRows) (h : p.Printable) :
    Parser.Reads (p.row i) (p.rowActions i) := by
  have hstandard : Parser.Reads standardBackground [.sgr [30, 40]] := ⟨by decide, by decide⟩
  have hcells : Parser.Reads ((List.range p.minCols).flatMap (p.cell i))
      ((List.range p.minCols).flatMap (p.cellActions i)) :=
    Parser.Reads.flatMap fun j hj => cell_reads (h i j hi (List.mem_range.mp hj))
  have hend : Parser.Reads (if i ≠ p.minRows - 1 then text "\n" else [])
      (if i ≠ p.minRows - 1 then [.lineEnd] else []) := by
    split_ifs
    · exact ⟨by decide, by decide⟩
    · exact Parser.reads_nil
  have hall := (hcells.append hstandard).append hend
  rwa [List.append_assoc _ [Action.sgr [30, 40]]] at hall

/-- A frame as the terminal reads it. -/
theorem frame_reads (h : p.Printable) : Parser.Reads p.frame p.frameActions := by
  have hstart : Parser.Reads cursorStart [.position [0, 0]] := ⟨by decide, by decide⟩
  exact hstart.append (Parser.Reads.flatMap fun i hi => row_reads (List.mem_range.mp hi) h)

/-! The screen. -/

variable (p)

/-- The cells before row `i`, column `j` are drawn over the display `d₀`, from the intensity
`bold` on, and the position is there. -/
structure Drawn (bold : Bool) (d₀ d : Display) (i j : Nat) : Prop where
  rows : d.rows = d₀.rows
  cols : d.cols = d₀.cols
  row : d.row = i
  col : j < d₀.cols → d.col = j ∧ d.pending = false
  intensity : d.rendition.bold = p.intensity bold (p.before i j)
  underlined : d.rendition.underlined = false
  drawn : ∀ r c, c < p.minCols → (r < i ∨ r = i ∧ c < j) →
    d.screen r c = p.shown (p.intensity bold (p.before r c)) r c
  kept : ∀ r c, ¬ (c < p.minCols ∧ (r < i ∨ r = i ∧ c < j)) → d.screen r c = d₀.screen r c

variable {p}

/-- The selection of both colours. -/
theorem select_colours (r : Rendition) {c : Nat} (hc : c < 16) (b : Nat) :
    (textParams c ++ [40 + colour b]).foldl Rendition.select r =
      ⟨colour (c % 8), colour b, r.bold || decide (8 ≤ c), r.underlined⟩ := by
  rw [List.foldl_append, List.foldl_cons, List.foldl_nil, Rendition.select_background _ (colour_lt b)]
  by_cases hdark : c < 8
  · rw [textParams, if_pos hdark, Nat.mod_eq_of_lt hdark, decide_eq_false (by omega), Bool.or_false,
      List.foldl_cons, List.foldl_nil, Rendition.select_text _ (colour_lt c)]
  · have hmod : c % 8 = c - 8 := by omega
    rw [textParams, if_neg hdark, hmod, decide_eq_true (by omega), Bool.or_true, List.foldl_cons,
      List.foldl_cons, List.foldl_nil, Rendition.select_text _ (colour_lt _)]
    rfl

theorem before_succ (i j : Nat) : p.before i (j + 1) = p.before i j ++ [(i, j)] := by
  rw [before, before, rowTo, List.range_succ, List.map_append, ← List.append_assoc]
  rfl

theorem before_row (i : Nat) : p.before (i + 1) 0 = p.before i p.minCols := by
  rw [before, before, List.range_succ, List.flatMap_append]
  simp [rowTo]

theorem intensity_succ (bold : Bool) (i j : Nat) :
    p.intensity bold (p.before i (j + 1)) = p.carry (p.intensity bold (p.before i j)) (i, j) := by
  rw [before_succ, intensity, List.foldl_append]
  rfl

/-- The two colours and the character, wherever the position is. -/
theorem run_colourActions {d : Display} {i j : Nat} (hp : d.pending = false) :
    d.run (p.colourActions i j) = Display.write { d with rendition :=
      { text := colour ((textC (p.temp i j)).toNat % 8)
        background := colour (backg (p.temp i j)).toNat
        bold := d.rendition.bold || p.bright i j
        underlined := d.rendition.underlined } } (p.char i j) := by
  simp only [colourActions, Display.run_cons, Display.run_nil, Display.act]
  rw [select_colours _ (textC_lt _)]
  simp only [Display.print, hp, bright]
  rfl

/-- What a cell makes of the display: its own place is drawn, the position moves on, and
the rendition keeps at most bold. -/
theorem run_cellActions {d : Display} {i j : Nat} (hp : d.pending = false)
    (hu : d.rendition.underlined = false) :
    ∃ r : Rendition, r.bold = p.carry d.rendition.bold (i, j) ∧ r.underlined = false ∧
      d.run (p.cellActions i j) = { d with
        screen := fun r c => if r = d.row ∧ c = d.col then p.shown d.rendition.bold i j else d.screen r c
        col := if d.col + 1 < d.cols then d.col + 1 else d.col
        pending := decide (d.cols ≤ d.col + 1)
        rendition := r } := by
  unfold cellActions
  cases hunder : p.underlined i j with
  | true =>
    refine ⟨Rendition.default, ?_, rfl, ?_⟩
    · simp [carry, hunder, Rendition.default]
    · have hcolour := run_colourActions (p := p) (d := d.act (.sgr [4])) (i := i) (j := j) hp
      rw [if_pos rfl, Display.run_cons, Display.run_append, hcolour]
      simp only [shown, hunder]
      rfl
  | false =>
    rw [if_neg Bool.false_ne_true, run_colourActions hp]
    refine ⟨(p.shown d.rendition.bold i j).rendition, ?_, hunder, ?_⟩
    · simp [shown, carry, hunder]
    · simp only [Display.write, shown, hunder, hu]

/-- One cell more. -/
theorem Drawn.cell {bold : Bool} {d₀ d : Display} {i j : Nat} (h : p.Drawn bold d₀ d i j)
    (hj : j < p.minCols) (hcols : p.minCols ≤ d₀.cols) :
    p.Drawn bold d₀ (d.run (p.cellActions i j)) i (j + 1) := by
  obtain ⟨hcol, hpending⟩ := h.col (Nat.lt_of_lt_of_le hj hcols)
  obtain ⟨r, hbold, hunder, hrun⟩ := run_cellActions (i := i) (j := j) hpending h.underlined
  rw [hrun]
  refine ⟨h.rows, h.cols, h.row, ?_, ?_, hunder, ?_, ?_⟩
  · intro hlt
    rw [h.cols, hcol]
    exact ⟨if_pos hlt, decide_eq_false (Nat.not_le.mpr hlt)⟩
  · rw [intensity_succ, ← h.intensity]
    exact hbold
  · intro r c hc hbefore
    by_cases hat : r = i ∧ c = j
    · obtain ⟨rfl, rfl⟩ := hat
      rw [← h.intensity]
      exact if_pos ⟨h.row.symm, hcol.symm⟩
    · show ite _ _ _ = _
      rw [if_neg (by rw [h.row, hcol]; exact hat)]
      exact h.drawn r c hc (by omega)
  · intro r c hnot
    show ite _ _ _ = _
    rw [if_neg (by rw [h.row, hcol]; omega)]
    exact h.kept r c (by omega)

/-- The rest of a row, by induction on the columns left. -/
theorem Drawn.cells {bold : Bool} {d₀ d : Display} {i : Nat} (h : p.Drawn bold d₀ d i 0)
    (hcols : p.minCols ≤ d₀.cols) {n : Nat} (hn : n ≤ p.minCols) :
    p.Drawn bold d₀ (d.run ((List.range n).flatMap (p.cellActions i))) i n := by
  induction n with
  | zero => exact h
  | succ n ih =>
    rw [List.range_succ, List.flatMap_append, Display.run_append, List.flatMap_singleton]
    exact (ih (by omega)).cell (by omega) hcols

/-- The colours between the rows change no cell. -/
theorem Drawn.standard {bold : Bool} {d₀ d : Display} {i j : Nat} (h : p.Drawn bold d₀ d i j) :
    p.Drawn bold d₀ (d.act (.sgr [30, 40])) i j :=
  ⟨h.rows, h.cols, h.row, h.col, h.intensity, h.underlined, h.drawn, h.kept⟩

/-- The line end behind a row. -/
theorem Drawn.lineEnd {bold : Bool} {d₀ d : Display} {i : Nat} (h : p.Drawn bold d₀ d i p.minCols)
    (hi : i + 1 < d₀.rows) : p.Drawn bold d₀ (d.act .lineEnd) (i + 1) 0 := by
  have hin : d.row + 1 < d.rows := by rwa [h.row, h.rows]
  rw [Display.act, Display.lineEnd_inside hin]
  refine ⟨h.rows, h.cols, congrArg (· + 1) h.row, fun _ => ⟨rfl, rfl⟩, ?_, h.underlined, ?_, ?_⟩
  · rw [before_row]
    exact h.intensity
  · intro r c hc hbefore
    exact h.drawn r c hc (by omega)
  · intro r c hnot
    exact h.kept r c (by omega)

/-- The rows above row `n`, by induction on them. -/
theorem Drawn.rowsTo {bold : Bool} {d₀ d : Display} (h : p.Drawn bold d₀ d 0 0)
    (hcols : p.minCols ≤ d₀.cols) (hrows : p.minRows ≤ d₀.rows) {n : Nat} (hn : n < p.minRows) :
    p.Drawn bold d₀ (d.run ((List.range n).flatMap p.rowActions)) n 0 := by
  induction n with
  | zero => exact h
  | succ n ih =>
    rw [List.range_succ, List.flatMap_append, Display.run_append, List.flatMap_singleton, rowActions,
      if_pos (by omega), Display.run_append]
    exact (((ih (by omega)).cells hcols (Nat.le_refl _)).standard).lineEnd (by omega)

variable (p)

/-- All cells of a frame. -/
def cells : List (Nat × Nat) := (List.range p.minRows).flatMap fun r => rowTo r p.minCols

/-- What a frame makes of the display. -/
structure Framed (d e : Display) : Prop where
  rows : e.rows = d.rows
  cols : e.cols = d.cols
  intensity : e.rendition.bold = p.intensity d.rendition.bold p.cells
  underlined : e.rendition.underlined = false
  drawn : ∀ r c, r < p.minRows → c < p.minCols →
    e.screen r c = p.shown (p.intensity d.rendition.bold (p.before r c)) r c
  kept : ∀ r c, ¬ (r < p.minRows ∧ c < p.minCols) → e.screen r c = d.screen r c

variable {p}

theorem run_frameActions {d : Display} (hcols : p.minCols ≤ d.cols) (hrows : p.minRows ≤ d.rows)
    (hu : d.rendition.underlined = false) : p.Framed d (d.run p.frameActions) := by
  have hstart : p.Drawn d.rendition.bold d (d.act (.position [0, 0])) 0 0 :=
    ⟨rfl, rfl, Nat.zero_min _, fun _ => ⟨Nat.zero_min _, rfl⟩, rfl, hu, by omega, fun _ _ _ => rfl⟩
  rw [frameActions, Display.run_cons]
  cases hn : p.minRows with
  | zero =>
    refine ⟨rfl, rfl, ?_, hu, by omega, fun _ _ _ => rfl⟩
    rw [cells, hn]
    rfl
  | succ n =>
    have hall : p.cells = p.before n p.minCols := by
      rw [cells, hn, ← before_row, before, rowTo, List.range_zero, List.map_nil, List.append_nil]
    have hlast := (((hstart.rowsTo hcols hrows (n := n) (by omega)).cells hcols (Nat.le_refl _))).standard
    rw [List.range_succ, List.flatMap_append, Display.run_append, List.flatMap_singleton, rowActions,
      if_neg (by omega), Display.run_append]
    refine ⟨hlast.rows, hlast.cols, ?_, hlast.underlined, ?_, ?_⟩
    · rw [hall]
      exact hlast.intensity
    · intro r c hr hc
      exact hlast.drawn r c hc (by omega)
    · intro r c hnot
      exact hlast.kept r c (by omega)

end Pass

/-! Frame after frame. -/

/-- The intensity after some frames. -/
def intensityAfter (bold : Bool) (ps : List Pass) : Bool := ps.foldl (fun b p => p.intensity b p.cells) bold

/-- The passes fit a display of some size, and their characters take cells. -/
def Fits (m n : Nat) (p : Pass) : Prop := p.Printable ∧ p.wsRow.toNat = m ∧ p.wsCol.toNat = n

theorem Fits.minRows {m n : Nat} {p : Pass} (h : Fits m n p) : p.minRows = min ROWS m := by
  rw [Pass.minRows, h.2.1]

theorem Fits.minCols {m n : Nat} {p : Pass} (h : Fits m n p) : p.minCols = min COLS n := by
  rw [Pass.minCols, h.2.2]

/-- The terminal between two frames, with nothing written outside the frames. -/
structure Between (m n : Nat) (bold : Bool) (t : Tty) : Prop where
  ground : t.parser = .ground
  rows : t.display.rows = m
  cols : t.display.cols = n
  intensity : t.display.rendition.bold = bold
  underlined : t.display.rendition.underlined = false
  outside : ∀ i j, ¬ (i < min ROWS m ∧ j < min COLS n) → t.display.screen i j = Cell.blank

/-- One frame. -/
theorem Between.frame {m n : Nat} {bold : Bool} {t : Tty} {p : Pass} (h : Between m n bold t)
    (hp : Fits m n p) :
    t.feed p.frame = ⟨.ground, t.display.run p.frameActions⟩ ∧
    p.Framed t.display (t.display.run p.frameActions) ∧
    Between m n (p.intensity bold p.cells) (t.feed p.frame) := by
  have hfeed := Tty.feed_reads h.ground (Pass.frame_reads hp.1)
  have hframed : p.Framed t.display (t.display.run p.frameActions) := by
    refine Pass.run_frameActions ?_ ?_ h.underlined
    · rw [hp.minCols, h.cols]
      exact Nat.min_le_right ..
    · rw [hp.minRows, h.rows]
      exact Nat.min_le_right ..
  refine ⟨hfeed, hframed, ?_⟩
  rw [hfeed]
  refine ⟨rfl, hframed.rows.trans h.rows, hframed.cols.trans h.cols, ?_, hframed.underlined, ?_⟩
  · rw [← h.intensity]
    exact hframed.intensity
  · intro i j hout
    rw [← hp.minRows, ← hp.minCols] at hout
    refine (hframed.kept i j hout).trans (h.outside i j ?_)
    rwa [hp.minRows, hp.minCols] at hout

/-- Any number of frames. -/
theorem Between.frames {m n : Nat} {bold : Bool} {t : Tty} {ps : List Pass}
    (h : Between m n bold t) (hps : ∀ p ∈ ps, Fits m n p) :
    Between m n (intensityAfter bold ps) (t.feed (ps.flatMap Pass.frame)) := by
  induction ps generalizing t bold with
  | nil => exact h
  | cons p ps ih =>
    rw [List.flatMap_cons, Tty.feed_append]
    exact ih (h.frame (hps p List.mem_cons_self)).2.2 fun q hq => hps q (List.mem_cons_of_mem p hq)

/-- The two sequences before the first frame. -/
theorem between_start {t : Tty} (hground : t.parser = .ground) (hplain : t.display.rendition = Rendition.default) :
    Between t.display.rows t.display.cols false (t.feed (hideCursor ++ CLEAR)) := by
  have hreads : Parser.Reads (hideCursor ++ CLEAR) [.erase [2]] := ⟨by decide, by decide⟩
  rw [Tty.feed_reads hground hreads]
  exact ⟨rfl, rfl, rfl, congrArg Rendition.bold hplain, congrArg Rendition.underlined hplain, fun _ _ _ => rfl⟩

/-- After any frames each cell of the terminal shows the cell of the text memory that the
last frame read for it: its character, blank while it blinks, its two colours, underlined
exactly where and while the cursor shows, and bold when it is bright or a bright cell was drawn before it,
in this frame or an earlier one, and no underlined one since. The rest stays blank. -/
theorem frames_shown (t : Tty) (earlier : List Pass) (last : Pass) (hground : t.parser = .ground)
    (hplain : t.display.rendition = Rendition.default)
    (hfits : ∀ p ∈ earlier ++ [last], Fits t.display.rows t.display.cols p) :
    (∀ i j, i < min ROWS t.display.rows → j < min COLS t.display.cols →
      (t.feed (mainThread (earlier ++ [last]))).display.screen i j =
        last.shown (last.intensity (intensityAfter false earlier) (last.before i j)) i j) ∧
    (∀ i j, ¬ (i < min ROWS t.display.rows ∧ j < min COLS t.display.cols) →
      (t.feed (mainThread (earlier ++ [last]))).display.screen i j = Cell.blank) := by
  have hlast : Fits t.display.rows t.display.cols last := hfits last (by simp)
  have hearlier := (between_start hground hplain).frames
    fun p hp => hfits p (List.mem_append_left [last] hp)
  obtain ⟨hfeed, hframed, hbetween⟩ := hearlier.frame hlast
  have hall : t.feed (mainThread (earlier ++ [last])) =
      (((t.feed (hideCursor ++ CLEAR)).feed (earlier.flatMap Pass.frame))).feed last.frame := by
    rw [mainThread, List.flatMap_append, List.flatMap_singleton, Tty.feed_append, Tty.feed_append _ _ last.frame]
  rw [hall]
  refine ⟨?_, hbetween.outside⟩
  intro i j hi hj
  rw [hfeed, ← hearlier.intensity]
  exact hframed.drawn i j (by rwa [hlast.minRows]) (by rwa [hlast.minCols])

/-- A bright letter and a dark one, on a line of two columns. -/
def brightThenDark : Pass where
  wsRow := 1
  wsCol := 2
  cursorIndex := 100
  memory _ _ := Memory.store (fun _ => 0) VGAController.vMem [0x41, 0x0C, 0x42, 0x07]
  isBlinking _ _ := true
  isBlinkingCursor _ _ := true

/-- The dark letter is shown bold. -/
theorem frames_shown_bright_then_dark :
    (Tty.feed ⟨.ground, ⟨1, 2, fun _ _ => Cell.blank, 0, 0, false, Rendition.default⟩⟩
      (mainThread ([brightThenDark] ++ [brightThenDark]))).display.screen 0 1 = ⟨0x42, ⟨7, 0, true, false⟩⟩ := by
  have hfits : Fits 1 2 brightThenDark := by
    refine ⟨?_, rfl, rfl⟩
    intro i j hi hj
    obtain rfl : i = 0 := Nat.lt_one_iff.mp hi
    obtain rfl | rfl : j = 0 ∨ j = 1 := Nat.le_one_iff_eq_zero_or_eq_one.mp (Nat.le_of_lt_succ hj)
    · decide
    · decide
  have hshown := (frames_shown ⟨.ground, ⟨1, 2, fun _ _ => Cell.blank, 0, 0, false, Rendition.default⟩⟩
    [brightThenDark] brightThenDark rfl rfl (by simpa using hfits)).1 0 1 (by decide) (by decide)
  exact hshown.trans (by decide)

end ConsoleOutput
end EndlessFault
