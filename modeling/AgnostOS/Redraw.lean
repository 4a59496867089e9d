import AgnostOS.ScrollGrid

/-! A redraw of the input line as one step: the drawing calls that it makes, the cells of the
line that it leaves, and the cursor. -/
namespace AgnostOS.Shell
open Globals Graphics Commands Console

section Cells
variable (font : Font)

def lineCell (w : KWriter) (start i : Nat) : Cell :=
  ⟨(KWriter.cellPosition i (w.fontW font) w.fb.width).1,
    start + (KWriter.cellPosition i (w.fontW font) w.fb.width).2⟩

end Cells

def startRow (w : KWriter) : Nat := (w.glyphCells.head?.map Cell.row).getD w.row

section Redraw
variable {font : Font} {w : KWriter}

theorem lineCell_row_mono {start i j : Nat} (hle : i ≤ j) :
    (lineCell font w start i).row ≤ (lineCell font w start j).row :=
  Nat.add_le_add_left (Nat.div_le_div_right (Nat.mul_le_mul_right _ hle)) start

theorem setInputCursor_moves (font : Font) (w : KWriter) :
    ∃ column row, w.setInputCursor font = { w with column := column, row := row } := by
  simp only [KWriter.setInputCursor]
  split
  · exact ⟨_, _, rfl⟩
  · split
    · split
      · exact ⟨_, _, rfl⟩
      · exact ⟨_, _, rfl⟩
    · exact ⟨_, _, rfl⟩

def glyphCall (font : Font) (w : KWriter) (start : Nat) (p : Char × Nat) : DrawOp :=
  .drawText [p.1] (lineCell font w start p.2).column (lineCell font w start p.2).row WHITE
    (some w.fontSize)

theorem redrawGlyphs_eq (start index : Nat) (text : Text) :
    w.redrawGlyphs font start index text = { w with
      drawn := w.drawn ++ (text.zipIdx index).map (glyphCall font w start)
      glyphCells := w.glyphCells ++ (List.range' index text.length).map (lineCell font w start) } := by
  induction text generalizing w index with
  | nil => simp [KWriter.redrawGlyphs]
  | cons ch rest ih =>
    let next : KWriter := { w.draw (glyphCall font w start (ch, index)) with
      glyphCells := w.glyphCells ++ [lineCell font w start index] }
    have hstep : w.redrawGlyphs font start index (ch :: rest) =
        next.redrawGlyphs font start (index + 1) rest := rfl
    rw [hstep, ih, List.length_cons, List.range'_succ, List.map_cons, List.zipIdx_cons,
      List.map_cons]
    simp only [next, KWriter.draw, List.append_assoc, List.singleton_append]
    rfl

def erasedRows (font : Font) (w : KWriter) (length : Nat) : Nat :=
  max ((length * w.fontW font + (w.fb.width - 1)) / w.fb.width) 1

theorem erasedRows_pos (font : Font) (w : KWriter) (length : Nat) :
    0 < w.fontH * erasedRows font w length :=
  Nat.mul_pos w.fontH_pos (Nat.le_max_right ..)

def redrawCalls (font : Font) (w : KWriter) (text : Text) : List DrawOp :=
  .drawRec ⟨0, startRow w * w.fontH⟩
    ⟨w.fb.width, w.fontH * erasedRows font w (PROMPT.length + text.length), w.fb.size.width_pos,
      erasedRows_pos font w _⟩ BLACK ::
    (PROMPT ++ text).zipIdx.map (glyphCall font w (startRow w))

theorem redrawInputLine_eq (font : Font) (w : KWriter) (text : Text) (cursor : Nat) :
    w.redrawInputLine font text cursor = .ok (({ w with
      drawn := w.drawn ++ redrawCalls font w text
      currentLine := PROMPT ++ text
      inputCursor := cursor
      row := startRow w
      glyphCells := (List.range' 0 (PROMPT ++ text).length).map
        (lineCell font w (startRow w)) } : KWriter).setInputCursor font) := by
  let erase : DrawOp := .drawRec ⟨0, startRow w * w.fontH⟩ ⟨w.fb.width, _, w.fb.size.width_pos,
    erasedRows_pos font w (PROMPT.length + text.length)⟩ BLACK
  let erased : KWriter :=
    { w.draw erase with currentLine := PROMPT ++ text, inputCursor := cursor, glyphCells := [] }
  have hrec : w.drawRec ⟨0, startRow w * w.fontH⟩ w.fb.width
      (w.fontH * erasedRows font w (PROMPT.length + text.length)) BLACK = .ok (w.draw erase) :=
    dif_pos ⟨w.fb.size.width_pos, erasedRows_pos font w _⟩
  have hredraw : w.redrawInputLine font text cursor =
      .ok (KWriter.setInputCursor font { erased.redrawGlyphs font (startRow w) 0 (PROMPT ++ text)
        with row := startRow w }) := by
    change w.drawRec ⟨0, startRow w * w.fontH⟩ w.fb.width
      (w.fontH * erasedRows font w (PROMPT.length + text.length)) BLACK >>= _ = _
    rw [hrec]
    rfl
  rw [hredraw, redrawGlyphs_eq]
  simp only [erased, KWriter.draw, List.nil_append, List.append_assoc, List.singleton_append]
  rfl

def redrawnAt (font : Font) (w : KWriter) (text : Text) (cursor column row : Nat) : KWriter :=
  { w with
    drawn := w.drawn ++ redrawCalls font w text
    currentLine := PROMPT ++ text
    inputCursor := cursor
    column := column
    row := row
    glyphCells := (List.range' 0 (PROMPT ++ text).length).map (lineCell font w (startRow w)) }

theorem redrawInputLine_ok (font : Font) (w : KWriter) (text : Text) (cursor : Nat) :
    ∃ column row, w.redrawInputLine font text cursor =
      .ok (redrawnAt font w text cursor column row) := by
  rw [redrawInputLine_eq]
  obtain ⟨column, row, hmoved⟩ := setInputCursor_moves font
    (redrawnAt font w text cursor w.column (startRow w))
  exact ⟨column, row, congrArg Except.ok hmoved⟩

end Redraw

end AgnostOS.Shell
