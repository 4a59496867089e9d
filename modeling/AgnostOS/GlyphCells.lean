import AgnostOS.RedrawPixels

/-! The cells that the console remembers for the characters of its current line, against what
the screen shows there. -/
namespace AgnostOS.Shell
open Globals Graphics Commands Console Keyboard

section Mirror
variable (font : Font)

def cursorCell (w : KWriter) : Cell := ⟨w.column, w.row⟩

def CellOnScreen (w : KWriter) (cell : Cell) : Prop :=
  cell.column * w.fontW font < w.fb.width ∧ cell.row * w.fontH < w.fb.height

def Covered (w : KWriter) (cell : Cell) : Prop :=
  cell = cursorCell w ∧ w.x font + w.fontW font ≤ w.fb.width ∧
    w.y + (w.fontH - 4) ≤ w.fb.height

def Inked (w : KWriter) (m : ByteMemory) (cell : Cell) (ch : Char) : Prop :=
  ∀ x y, x < w.fb.width → y < w.fb.height → cellAt font w.fontSize x y = cell →
    inkAt font w.fontSize ch x y ≠ 0 →
    w.fb.readPixel m x y = shade WHITE (inkAt font w.fontSize ch x y)

/-- The character is displayed in the cell, except where the block cursor covers it. -/
def Displayed (w : KWriter) (m : ByteMemory) (cell : Cell) (ch : Char) : Prop :=
  CellOnScreen font w cell ∧ (Covered font w cell ∨ Inked font w m cell ch)

structure Mirrors (m₀ : ByteMemory) (w : KWriter) : Prop where
  length : w.glyphCells.length = w.currentLine.length
  shown : ∀ (i : Nat) ch cell, w.currentLine[i]? = some ch → w.glyphCells[i]? = some cell →
    Displayed font w (screen font m₀ w) cell ch

/-! ### Room for the cells -/

def nextCell (w : KWriter) : Cell :=
  if Wraps font w then ⟨0, w.row + 1⟩ else cursorCell w

/-- The call empties the line or draws all of it again, whatever its cells were. -/
def Renews (p : KWriter × Text) : Call → Prop
  | .char ch => ch = '\n'
  | .reset => True
  | c => redraws p c ≠ none

def CellsKept (p : KWriter × Text) : Call → Prop
  | .char ch => ch ≠ '\n' → nextCell font p.1 ∉ p.1.glyphCells ∧
      (nextCell font p.1).row * p.1.fontH < p.1.fb.height
  | .drawCursor => p.1.glyphCells = [] ∨ (p.1.fb.width < p.1.x font + p.1.fontW font →
      (p.1.row + 1) * p.1.fontH < p.1.fb.height - 3 * p.1.fontH)
  | .printHistory => p.1.glyphCells = []
  | .rescale _ => p.1.glyphCells = []
  | .setFontSize size => p.1.glyphCells = [] ∨ size = p.1.fontSize
  | c => ∀ e ∈ redraws p c,
      (lineCell font p.1 (startRow p.1) (PROMPT.length + e.1 - 1)).row * p.1.fontH < p.1.fb.height

instance (p : KWriter × Text) (c : Call) : Decidable (Renews p c) :=
  match c with
  | .char ch => inferInstanceAs (Decidable (ch = '\n'))
  | .reset => inferInstanceAs (Decidable True)
  | .insertChar _ | .backspace | .arrowRight | .arrowLeft | .arrowUp | .arrowDown | .drawCursor
  | .eraseCursor | .resetInputCursor | .printHistory | .setFontSize _ | .rescale _ | .clearLine
  | .shutdown => inferInstanceAs (Decidable (redraws p _ ≠ none))

instance (p : KWriter × Text) (c : Call) : Decidable (CellsKept font p c) :=
  match c with
  | .char _ => inferInstanceAs (Decidable (_ → _ ∧ _))
  | .drawCursor => inferInstanceAs (Decidable (_ ∨ (_ → _)))
  | .printHistory => inferInstanceAs (Decidable (p.1.glyphCells = []))
  | .rescale _ => inferInstanceAs (Decidable (p.1.glyphCells = []))
  | .setFontSize _ => inferInstanceAs (Decidable (_ ∨ _))
  | .insertChar _ | .backspace | .arrowRight | .arrowLeft | .arrowUp | .arrowDown | .eraseCursor
  | .resetInputCursor | .reset | .clearLine | .shutdown =>
    inferInstanceAs (Decidable (∀ e ∈ redraws p _, _))

/-- Every call keeps the cells, apart from those that a later one of the calls makes good. -/
def Keeps (before : Prop) (p : KWriter × Text) : List Call → Prop
  | [] => before
  | c :: rest => ∀ p', call font p c = .ok p' →
      Keeps ((before ∨ Renews p c) ∧ CellsKept font p c) p' rest

def Keeps.decide : (before : Prop) → [Decidable before] → (p : KWriter × Text) →
    (calls : List Call) → Decidable (Keeps font before p calls)
  | before, _, _, [] => inferInstanceAs (Decidable before)
  | before, _, p, c :: rest =>
    match hcall : call font p c with
    | .error _ => isTrue fun _ h => nomatch hcall.symm.trans h
    | .ok next =>
      have := Keeps.decide ((before ∨ Renews p c) ∧ CellsKept font p c) next rest
      decidable_of_iff (Keeps font ((before ∨ Renews p c) ∧ CellsKept font p c) next rest)
        ⟨fun h _ h' => Except.ok.inj (hcall.symm.trans h') ▸ h, fun h => h next hcall⟩

instance (before : Prop) [Decidable before] (p : KWriter × Text) (calls : List Call) :
    Decidable (Keeps font before p calls) := Keeps.decide font before p calls

end Mirror

/-! ### What a call does to the cells -/

section Calls
variable {font : Font} {m₀ : ByteMemory} {w w' : KWriter}

theorem Mirrors.of_nil (hcells : w.glyphCells = []) (hline : w.currentLine = []) :
    Mirrors font m₀ w := by
  constructor
  · rw [hcells, hline, List.length_nil, List.length_nil]
  · intro i ch cell hch
    rw [hline] at hch
    cases hch

theorem Mirrors.line_nil (h : Mirrors font m₀ w) (hcells : w.glyphCells = []) :
    w.currentLine = [] := by
  apply List.eq_nil_of_length_eq_zero
  rw [← h.length, hcells, List.length_nil]

theorem Inked.of_same {m m' : ByteMemory} {cell : Cell} {ch : Char} (h : Inked font w m cell ch)
    (hsame : ∀ x y, x < w.fb.width → y < w.fb.height → cellAt font w.fontSize x y = cell →
      w.fb.readPixel m' x y = w.fb.readPixel m x y) : Inked font w m' cell ch := by
  intro x y hx hy hcell hink
  rw [hsame x y hx hy hcell]
  exact h x y hx hy hcell hink

/-- The block cursor, white or black, changes no cell but its own. -/
theorem Mirrors.block (hdraw : w.fb.isDrawable = true) (h : Mirrors font m₀ w) {color : Color}
    (hblock : w.drawRec ⟨w.x font, w.y⟩ (w.fontW font) (w.fontH - 4) color = .ok w') :
    Mirrors font m₀ w' := by
  rw [KWriter.drawRec] at hblock
  split at hblock
  · next hpos =>
    cases hblock
    refine ⟨h.length, fun i ch cell hch hcell => ?_⟩
    have hshown := h.shown i ch cell hch hcell
    refine ⟨hshown.1, ?_⟩
    by_cases hcovered : Covered font w cell
    · exact .inl hcovered
    · have hink : Inked font w (screen font m₀ w) cell ch := hshown.2.resolve_left hcovered
      refine .inr (hink.of_same fun x y hx hy hat => ?_)
      have hscreen : screen font m₀ (w.draw (.drawRec ⟨w.x font, w.y⟩
          ⟨w.fontW font, w.fontH - 4, hpos.1, hpos.2⟩ color)) =
          (DrawOp.drawRec ⟨w.x font, w.y⟩ ⟨w.fontW font, w.fontH - 4, hpos.1, hpos.2⟩ color).apply
            font w.fb (screen font m₀ w) := render_append w.drawn [_]
      rw [hscreen, readPixel_drawRec hdraw _ _ color hx hy, if_neg]
      intro hin
      apply hcovered
      refine ⟨?_, hin.1⟩
      rw [← hat, cellAt_eq_iff]
      have hxrec := hin.2.1
      have hyrec := hin.2.2
      simp only [cursorCell, KWriter.x, KWriter.y, KWriter.fontW, KWriter.fontH] at hxrec hyrec ⊢
      omega
  · cases hblock

theorem not_covered_of_next {cell : Cell} (hcell : cell ≠ nextCell font w) :
    ¬ Covered font w cell := by
  intro hcovered
  apply hcell
  have hbeside : ¬ Wraps font w := by
    have hblock := hcovered.2.1
    rw [KWriter.x, ← Nat.succ_mul] at hblock
    exact Nat.not_lt.mpr hblock
  rw [nextCell, if_neg hbeside]
  exact hcovered.1

theorem nextCell_column (font : Font) (w : KWriter) :
    (nextCell font w).column * w.fontW font < w.fb.width := by
  have hpos : 0 < w.fontW font := fontW_pos font w
  rw [nextCell]
  split
  · rw [Nat.zero_mul]
    exact w.fb.size.width_pos
  · next hbeside =>
    have hroom : (w.column + 1) * w.fontW font ≤ w.fb.width := Nat.not_lt.mp hbeside
    rw [Nat.succ_mul] at hroom
    exact lt_of_lt_of_le (Nat.lt_add_of_pos_right hpos) hroom

theorem Mirrors.char (hdraw : w.fb.isDrawable = true) (hfit : RastersFit font w.fontSize)
    (h : Mirrors font m₀ w) {ch : Char} (hch : ch ≠ '\n')
    (hfree : nextCell font w ∉ w.glyphCells) (hrow : (nextCell font w).row * w.fontH < w.fb.height) :
    Mirrors font m₀ (w.writeChar font ch) := by
  let op : DrawOp := .drawText [ch] (nextCell font w).column (nextCell font w).row WHITE
    (some w.fontSize)
  let printed : KWriter := { w with
    currentLine := w.currentLine ++ [ch]
    column := (nextCell font w).column + 1
    row := (nextCell font w).row
    drawn := w.drawn ++ [op]
    glyphCells := w.glyphCells ++ [nextCell font w] }
  have hwrite : w.writeChar font ch = printed := writeChar_cell hch
  have hscreen : screen font m₀ printed = op.apply font w.fb (screen font m₀ w) :=
    render_append w.drawn [op]
  have hpixel : ∀ x y, x < w.fb.width → y < w.fb.height →
      w.fb.readPixel (screen font m₀ printed) x y =
        if cellAt font w.fontSize x y = nextCell font w ∧ inkAt font w.fontSize ch x y ≠ 0 then
          shade WHITE (inkAt font w.fontSize ch x y)
        else w.fb.readPixel (screen font m₀ w) x y := by
    intro x y hx hy
    rw [hscreen]
    exact readPixel_drawText hdraw hfit ch _ WHITE hx hy
  rw [hwrite]
  constructor
  · simp only [printed, List.length_append, h.length, List.length_singleton]
  · intro i ch' cell hline hcell
    simp only [printed, List.getElem?_append, h.length] at hline hcell
    by_cases hold : i < w.currentLine.length
    · rw [if_pos hold] at hline hcell
      have hother : cell ≠ nextCell font w := fun heq => hfree (heq ▸ List.mem_of_getElem? hcell)
      have hshown := h.shown i ch' cell hline hcell
      have hink : Inked font w (screen font m₀ w) cell ch' :=
        hshown.2.resolve_left (not_covered_of_next hother)
      refine ⟨hshown.1, .inr (hink.of_same fun x y hx hy hat => ?_)⟩
      rw [hpixel x y hx hy, if_neg]
      rw [hat]
      exact fun hnew => hother hnew.1
    · rw [if_neg hold] at hline hcell
      have hfirst : ∀ {α : Type} {a b : α} {k : Nat}, [a][k]? = some b → a = b := by
        intro α a b k hget
        exact (List.mem_singleton.mp (List.mem_of_getElem? hget)).symm
      obtain rfl := hfirst hline
      obtain rfl := hfirst hcell
      refine ⟨⟨nextCell_column font w, hrow⟩, .inr fun x y hx hy hat hink => ?_⟩
      exact (hpixel x y hx hy).trans (if_pos ⟨hat, hink⟩)

theorem lineCell_column (font : Font) (w : KWriter) (start i : Nat) :
    (lineCell font w start i).column * w.fontW font < w.fb.width := by
  have hdiv : i * w.fontW font % w.fb.width / w.fontW font * w.fontW font ≤
      i * w.fontW font % w.fb.width := Nat.div_mul_le_self ..
  exact lt_of_le_of_lt hdiv (Nat.mod_lt _ w.fb.size.width_pos)

/-- A line drawn again has new cells, all on the screen if those of its last row are. -/
theorem Mirrors.redrawn (hdraw : w.fb.isDrawable = true) (hfit : RastersFit font w.fontSize)
    {text : Text} {cursor : Nat}
    (hlast : (lineCell font w (startRow w) (PROMPT.length + text.length - 1)).row * w.fontH <
      w.fb.height)
    (hredraw : w.redrawInputLine font text cursor = .ok w') : Mirrors font m₀ w' := by
  obtain ⟨column, row, hredrawn⟩ := redrawInputLine_ok font w text cursor
  have hscreen : screen font m₀ (redrawnAt font w text cursor column row) =
      render font w.fb (screen font m₀ w) (redrawCalls font w text) :=
    render_append w.drawn (redrawCalls font w text)
  obtain rfl := Except.ok.inj (hredrawn.symm.trans hredraw)
  constructor
  · simp only [redrawnAt, List.length_map, List.length_range']
  · intro i ch cell hch hcell
    have hi : i < (PROMPT ++ text).length := (List.getElem?_eq_some_iff.mp hch).1
    rw [redrawnAt, getElem?_cells hi] at hcell
    obtain rfl := Option.some.inj hcell
    have hrow : (lineCell font w (startRow w) i).row ≤
        (lineCell font w (startRow w) (PROMPT.length + text.length - 1)).row := by
      apply lineCell_row_mono
      rw [List.length_append] at hi
      omega
    have honscreen : CellOnScreen font w (lineCell font w (startRow w) i) :=
      ⟨lineCell_column .., lt_of_le_of_lt (Nat.mul_le_mul_right _ hrow) hlast⟩
    refine ⟨honscreen, .inr fun x y hx hy hat hink => ?_⟩
    rw [hscreen]
    exact (readPixel_redraw_inside hdraw hfit hx hy hch hat).trans (if_pos hink)

/-- The cursor wraps to the next row, where a character could not have been covered. -/
theorem Mirrors.wrapped (h : Mirrors font m₀ w) (hedge : w.fb.width < w.x font + w.fontW font) :
    Mirrors font m₀ { w with column := 0, row := w.row + 1 } := by
  refine ⟨h.length, fun i ch cell hch hcell => ?_⟩
  have hshown := h.shown i ch cell hch hcell
  exact ⟨hshown.1, .inr (hshown.2.resolve_left fun hcovered =>
    absurd hcovered.2.1 (Nat.not_le.mpr hedge))⟩

theorem Mirrors.drawCursor (hdraw : w.fb.isDrawable = true) (h : Mirrors font m₀ w)
    (hkept : w.glyphCells = [] ∨ (w.fb.width < w.x font + w.fontW font →
      (w.row + 1) * w.fontH < w.fb.height - 3 * w.fontH))
    (hcursor : w.drawCursor font = .ok w') : Mirrors font m₀ w' := by
  rw [KWriter.drawCursor] at hcursor
  by_cases hedge : w.fb.width < w.x font + w.fontW font
  · simp only [if_pos hedge] at hcursor
    let below : KWriter := { w with column := 0, row := w.row + 1 }
    cases hkept with
    | inl hempty =>
      obtain ⟨row, ops, hscroll, -⟩ := checkScroll_frame below w.fontH
      rw [hscroll] at hcursor
      obtain ⟨op, rfl, -⟩ := drawRec_spec hcursor
      exact Mirrors.of_nil hempty (h.line_nil hempty)
    | inr hroom =>
      have hstill : below.checkScroll w.fontH = below := if_neg (Nat.not_le.mpr (hroom hedge))
      rw [hstill] at hcursor
      have hwrapped : Mirrors font m₀ below := h.wrapped hedge
      exact Mirrors.block (w := below) hdraw hwrapped hcursor
  · simp only [if_neg hedge] at hcursor
    exact h.block hdraw hcursor

theorem writeChar_fb (w : KWriter) (ch : Char) : (w.writeChar font ch).fb = w.fb := by
  rw [KWriter.writeChar]
  split
  · exact checkScroll_fb _ _
  · simp only [KWriter.draw]
    split <;> rfl

theorem edited_fb {p : KWriter × Text} {c : Call} (h : Edited font p c w') : w'.fb = p.1.fb := by
  cases h with
  | kept t hnone hline hw => rw [hw]
  | redrawn t text cursor hsome hredraw =>
    obtain ⟨column, row, hredrawn⟩ := redrawInputLine_ok font { p.1 with toTranscript := t } text
      cursor
    rw [← Except.ok.inj (hredrawn.symm.trans hredraw), redrawnAt]

theorem call_fb {p p' : KWriter × Text} {c : Call} (hcall : call font p c = .ok p') :
    p'.1.fb = p.1.fb := by
  obtain ⟨w, line⟩ := p
  cases c with
  | char ch =>
    cases hcall
    exact writeChar_fb w ch
  | insertChar ch => exact edited_fb (call_edited rfl hcall)
  | backspace => exact edited_fb (call_edited rfl hcall)
  | arrowRight => exact edited_fb (call_edited rfl hcall)
  | arrowLeft => exact edited_fb (call_edited rfl hcall)
  | arrowUp => exact edited_fb (call_edited rfl hcall)
  | arrowDown => exact edited_fb (call_edited rfl hcall)
  | drawCursor =>
    obtain ⟨w₁, hdraw, hcall⟩ := Attempt.exists_of_bind_eq_ok hcall
    cases hcall
    obtain ⟨op, rfl, -⟩ := drawRec_spec hdraw
    simp only [KWriter.draw]
    split
    · exact checkScroll_fb _ _
    · rfl
  | eraseCursor =>
    obtain ⟨w₁, herase, hcall⟩ := Attempt.exists_of_bind_eq_ok hcall
    cases hcall
    obtain ⟨op, rfl, -⟩ := drawRec_spec herase
    rfl
  | shutdown => cases hcall
  | _ =>
    cases hcall
    rfl

/-- An editing call leaves the line alone or draws it again. -/
theorem edited_mirrors {p : KWriter × Text} {c : Call} (hdraw : p.1.fb.isDrawable = true)
    (hfit : ∀ size, RastersFit font size) (h : Mirrors font m₀ p.1 ∨ redraws p c ≠ none)
    (hkept : ∀ e ∈ redraws p c,
      (lineCell font p.1 (startRow p.1) (PROMPT.length + e.1 - 1)).row * p.1.fontH < p.1.fb.height)
    (hedited : Edited font p c w') : Mirrors font m₀ w' := by
  cases hedited with
  | kept t hnone hline hw =>
    have hold : Mirrors font m₀ p.1 := h.resolve_right fun hsome => hsome hnone
    rw [hw]
    refine ⟨hold.length.trans (congrArg List.length hline.symm), fun i ch cell hch hcell => ?_⟩
    simp only at hch
    rw [hline] at hch
    exact hold.shown i ch cell hch hcell
  | redrawn t text cursor hsome hredraw =>
    have hlast : (lineCell font p.1 (startRow p.1) (PROMPT.length + text.length - 1)).row *
        p.1.fontH < p.1.fb.height := hkept (text.length, cursor) hsome
    exact Mirrors.redrawn (w := { p.1 with toTranscript := t }) hdraw (hfit _) hlast hredraw

/-- A call keeps the cells a mirror of the line if there is room for it, and makes them one
if it renews them. -/
theorem call_mirrors {p p' : KWriter × Text} {c : Call} (hdraw : p.1.fb.isDrawable = true)
    (hfit : ∀ size, RastersFit font size) (h : Mirrors font m₀ p.1 ∨ Renews p c)
    (hkept : CellsKept font p c) (hcall : call font p c = .ok p') : Mirrors font m₀ p'.1 := by
  obtain ⟨w, line⟩ := p
  cases c with
  | char ch =>
    cases hcall
    by_cases hbreak : ch = '\n'
    · have hstep : w.writeChar font ch = ({ w with
          history := w.history ++ [w.currentLine], currentLine := [], glyphCells := [], column := 0,
          row := w.row + 1 } : KWriter).checkScroll w.fontH := if_pos hbreak
      simp only [hstep]
      obtain ⟨row, ops, hscroll, -⟩ := checkScroll_frame { w with
        history := w.history ++ [w.currentLine], currentLine := [], glyphCells := [], column := 0,
        row := w.row + 1 } w.fontH
      rw [hscroll]
      exact Mirrors.of_nil rfl rfl
    · have hroom := hkept hbreak
      exact (h.resolve_right hbreak).char hdraw (hfit _) hbreak hroom.1 hroom.2
  | insertChar ch => exact edited_mirrors hdraw hfit h hkept (call_edited rfl hcall)
  | backspace => exact edited_mirrors hdraw hfit h hkept (call_edited rfl hcall)
  | arrowRight => exact edited_mirrors hdraw hfit h hkept (call_edited rfl hcall)
  | arrowLeft => exact edited_mirrors hdraw hfit h hkept (call_edited rfl hcall)
  | arrowUp => exact edited_mirrors hdraw hfit h hkept (call_edited rfl hcall)
  | arrowDown => exact edited_mirrors hdraw hfit h hkept (call_edited rfl hcall)
  | drawCursor =>
    have hold : Mirrors font m₀ w := h.resolve_right fun hnew => hnew rfl
    obtain ⟨w₁, hcursor, hcall⟩ := Attempt.exists_of_bind_eq_ok hcall
    cases hcall
    exact hold.drawCursor hdraw hkept hcursor
  | eraseCursor =>
    have hold : Mirrors font m₀ w := h.resolve_right fun hnew => hnew rfl
    obtain ⟨w₁, herase, hcall⟩ := Attempt.exists_of_bind_eq_ok hcall
    cases hcall
    exact hold.block hdraw herase
  | resetInputCursor =>
    have hold : Mirrors font m₀ w := h.resolve_right fun hnew => hnew rfl
    cases hcall
    exact ⟨hold.length, hold.shown⟩
  | reset =>
    cases hcall
    exact Mirrors.of_nil rfl rfl
  | printHistory =>
    have hold : Mirrors font m₀ w := h.resolve_right fun hnew => hnew rfl
    cases hcall
    exact Mirrors.of_nil hkept (hold.line_nil hkept)
  | setFontSize size =>
    have hold : Mirrors font m₀ w := h.resolve_right fun hnew => hnew rfl
    cases hcall
    cases hkept with
    | inl hempty => exact Mirrors.of_nil hempty (hold.line_nil hempty)
    | inr hsame =>
      subst hsame
      exact ⟨hold.length, hold.shown⟩
  | rescale size =>
    cases hcall
    exact Mirrors.of_nil hkept rfl
  | clearLine =>
    have hold : Mirrors font m₀ w := h.resolve_right fun hnew => hnew rfl
    cases hcall
    exact hold
  | shutdown => cases hcall

end Calls

/-! ### Runs -/

section Runs
variable {font : Font} {m₀ : ByteMemory} {fb : Framebuffer} {p p' : KWriter × Text}
  {calls : List Call}

theorem perform_mirrors (hptr : fb.ptr ≠ 0) (hfit : ∀ size, RastersFit font size)
    {before : Prop} (hfb : p.1.fb = fb) (h : before → Mirrors font m₀ p.1)
    (hkeeps : Keeps font before p calls) (hperform : perform font p calls = .ok p') :
    p'.1.fb = fb ∧ Mirrors font m₀ p'.1 := by
  induction calls generalizing p before with
  | nil =>
    cases hperform
    exact ⟨hfb, h hkeeps⟩
  | cons c rest ih =>
    rw [perform_cons] at hperform
    obtain ⟨next, hcall, hrest⟩ := Attempt.exists_of_bind_eq_ok hperform
    apply ih ((call_fb hcall).trans hfb) ?_ (hkeeps next hcall) hrest
    intro hnow
    have hdraw : p.1.fb.isDrawable = true := Framebuffer.isDrawable_of_ptr (hfb ▸ hptr)
    exact call_mirrors hdraw hfit (hnow.1.imp_left h) hnow.2 hcall

/-- The first character of the line is displayed in the row where a redraw starts. -/
theorem Mirrors.starts {w : KWriter} (h : Mirrors font m₀ w) {ch : Char}
    (hch : w.currentLine[0]? = some ch) :
    ∃ column, Displayed font w (screen font m₀ w) ⟨column, startRow w⟩ ch := by
  cases hcells : w.glyphCells with
  | nil =>
    rw [h.line_nil hcells] at hch
    cases hch
  | cons cell rest =>
    have hstart : startRow w = cell.row := by
      rw [startRow, hcells]
      rfl
    have hfirst : w.glyphCells[0]? = some cell := by rw [hcells, List.getElem?_cons_zero]
    refine ⟨cell.column, ?_⟩
    rw [hstart]
    exact h.shown 0 ch cell hch hfirst

/-- In a run whose calls all keep their cells, the cells mirror the current line, and a redraw
starts in the row of its first character. -/
theorem cells_mirror_line (hptr : fb.ptr ≠ 0) (hfit : ∀ size, RastersFit font size)
    (m₀ : ByteMemory) {ops : List Operation} {s : Session}
    (h : Trace (fun op s s' => s.operate font op = .ok s' ∧ Keeps font True s.view (s.calls op))
      ops (boot fb) s) :
    Mirrors font m₀ s.writer ∧ ∀ ch, s.writer.currentLine[0]? = some ch →
      ∃ column, Displayed font s.writer (screen font m₀ s.writer)
        ⟨column, startRow s.writer⟩ ch := by
  have hmirrors : s.writer.fb = fb ∧ Mirrors font m₀ s.writer := by
    refine h.invariant (I := fun s => s.writer.fb = fb ∧ Mirrors font m₀ s.writer) ?_ ?_
    · intro op s s' hs hstep
      exact perform_mirrors hptr hfit hs.1 (fun _ => hs.2) hstep.2 (operate_perform hstep.1)
    · exact ⟨rfl, Mirrors.of_nil rfl rfl⟩
  exact ⟨hmirrors.2, fun ch hch => hmirrors.2.starts hch⟩

end Runs

open KWriter (xga)

def mirroredSession : List Operation :=
  [.kprint PROMPT] ++ ([.char 'a', .char 'b', .char 'c', .arrowLeft, .char '\x08', .char 'd'].map
    fun key => .key key idleSystem) ++ [.drawCursor]

theorem prompt_mirrored : ∃ s, Trace (fun op s s' => s.operate barFont op = .ok s' ∧
    Keeps barFont True s.view (s.calls op)) mirroredSession (boot narrowDisplay) s ∧
    Mirrors barFont (fun _ => 0) s.writer := by
  have hpasses : Trace.passes (Session.operate barFont)
      (fun s op => Keeps barFont True s.view (s.calls op)) mirroredSession
      (boot narrowDisplay) = true := by decide +kernel
  obtain ⟨s, htrace⟩ := Trace.exists_of_passes hpasses
  exact ⟨s, htrace, (cells_mirror_line (by decide) barFont_fits (fun _ => 0) htrace).1⟩

/-- A zoom keeps the cells of the line it had, in front of those of the line printed anew, and
the next redraw starts in the row of the former. -/
theorem zoom_keeps_old_cells :
    ∃ s, Trace (fun op s s' => s.operate blankFont op = .ok s')
      [.kprint (List.replicate 147 'a' ++ "\n> ".toList), .zoomIn []] (boot xga) s ∧
      s.writer.currentLine = "> ".toList ∧
      s.writer.glyphCells = [⟨0, 2⟩, ⟨1, 2⟩, ⟨0, 1⟩, ⟨1, 1⟩] ∧ startRow s.writer = 2 ∧
      ¬ Mirrors blankFont (fun _ => 0) s.writer := by
  let printed : KWriter := (KWriter.init xga).kprint blankFont
    (List.replicate 147 'a' ++ "\n> ".toList)
  let w : KWriter := printed.zoomIn blankFont []
  have hline : w.currentLine = "> ".toList := by decide +kernel
  have hcells : w.glyphCells = [⟨0, 2⟩, ⟨1, 2⟩, ⟨0, 1⟩, ⟨1, 1⟩] := by decide +kernel
  have hstart : startRow w = 2 := by rw [startRow, hcells]; rfl
  refine ⟨⟨w, [], []⟩, ⟨⟨printed, [], []⟩, rfl, ⟨w, [], []⟩, rfl, rfl⟩, hline, hcells, hstart,
    fun hmirrors => ?_⟩
  have hlength : w.glyphCells.length = w.currentLine.length := hmirrors.length
  rw [hcells, hline] at hlength
  revert hlength
  decide

end AgnostOS.Shell
