import AgnostOS.CursorRows

/-! Where the characters of a line lie: printing counts whole cells up to the right edge,
redrawing takes pixel positions modulo the width of the framebuffer. -/
namespace AgnostOS.Shell
open Globals Graphics Commands Console

section Printing
variable (font : Font)

def columns (w : KWriter) : Nat := w.fb.width / w.fontW font

def printedCell (w : KWriter) (start i : Nat) : Cell :=
  ⟨i % columns font w, start + i / columns font w⟩

def Behind (w : KWriter) (start : Nat) : Nat → Prop
  | 0 => w.column = 0 ∧ w.row = start
  | i + 1 => w.column = (printedCell font w start i).column + 1 ∧
      w.row = (printedCell font w start i).row

variable {font} {w : KWriter} {start : Nat}

theorem fontW_pos (font : Font) (w : KWriter) : 0 < w.fontW font := font.rasterWidth_pos _

theorem columns_pos (hcell : w.fontW font ≤ w.fb.width) : 0 < columns font w :=
  Nat.div_pos hcell (fontW_pos font w)

theorem wraps_iff : Wraps font w ↔ columns font w ≤ w.column := by
  have hpos : 0 < w.fontW font := fontW_pos font w
  rw [Wraps, columns, gt_iff_lt, ← Nat.div_lt_iff_lt_mul hpos]
  exact Nat.lt_succ_iff

/-- The next character goes to the cell that its index says. -/
theorem Behind.next (hcell : w.fontW font ≤ w.fb.width) {i : Nat} (h : Behind font w start i) :
    (if Wraps font w then (⟨0, w.row + 1⟩ : Cell) else ⟨w.column, w.row⟩) =
      printedCell font w start i := by
  have hpos : 0 < columns font w := columns_pos hcell
  cases i with
  | zero =>
    obtain ⟨hcolumn, hrow⟩ := h
    have hbeside : ¬ Wraps font w := by
      rw [wraps_iff]
      omega
    rw [if_neg hbeside, printedCell, hcolumn, hrow, Nat.zero_mod, Nat.zero_div, Nat.add_zero]
  | succ i =>
    obtain ⟨hcolumn, hrow⟩ := h
    simp only [printedCell] at hcolumn hrow
    have hlt : i % columns font w < columns font w := Nat.mod_lt i hpos
    have hsplit : columns font w * (i / columns font w) + i % columns font w = i :=
      Nat.div_add_mod i (columns font w)
    by_cases hlast : i % columns font w + 1 = columns font w
    · have hwrap : Wraps font w := by
        rw [wraps_iff]
        omega
      have hnext := (Nat.div_mod_unique (a := i + 1) (c := 0) (d := i / columns font w + 1) hpos).mpr
        ⟨by rw [Nat.mul_add, Nat.mul_one]; omega, hpos⟩
      rw [if_pos hwrap, printedCell, hnext.1, hnext.2, hrow, Nat.add_assoc]
    · have hbeside : ¬ Wraps font w := by
        rw [wraps_iff]
        omega
      have hnext := (Nat.div_mod_unique (a := i + 1) (c := i % columns font w + 1)
        (d := i / columns font w) hpos).mpr ⟨by omega, by omega⟩
      rw [if_neg hbeside, printedCell, hnext.1, hnext.2, hcolumn, hrow]

theorem writeChar_cell {ch : Char} (hch : ch ≠ '\n') :
    let cell := if Wraps font w then (⟨0, w.row + 1⟩ : Cell) else ⟨w.column, w.row⟩
    w.writeChar font ch = { w with
      currentLine := w.currentLine ++ [ch]
      column := cell.column + 1
      row := cell.row
      drawn := w.drawn ++ [.drawText [ch] cell.column cell.row WHITE (some w.fontSize)]
      glyphCells := w.glyphCells ++ [cell] } := by
  let typed : KWriter := { w with currentLine := w.currentLine ++ [ch] }
  have hstep : w.writeChar font ch = place ch (if Wraps font w then
      { typed with column := 0, row := w.row + 1 } else typed) := if_neg hch
  rw [hstep]
  by_cases hwrap : Wraps font w
  · simp only [if_pos hwrap]
    rfl
  · simp only [if_neg hwrap]
    rfl

theorem kprint_cells (hcell : w.fontW font ≤ w.fb.width) {text : Text} (hflat : '\n' ∉ text)
    {i : Nat} (h : Behind font w start i) : (w.kprint font text).glyphCells =
      w.glyphCells ++ (List.range' i text.length).map (printedCell font w start) := by
  induction text generalizing w i with
  | nil => simp [KWriter.kprint, KWriter.writeStr]
  | cons ch text ih =>
    have hch : ch ≠ '\n' := fun heq => hflat (heq ▸ List.mem_cons_self)
    have hwrite : w.writeChar font ch = _ := writeChar_cell hch
    simp only [h.next hcell] at hwrite
    have hrest := ih (w := w.writeChar font ch) (i := i + 1) (by rw [hwrite]; exact hcell)
      (fun hmem => hflat (List.mem_cons_of_mem ch hmem)) (by rw [hwrite]; exact ⟨rfl, rfl⟩)
    have hprint : w.kprint font (ch :: text) = (w.writeChar font ch).kprint font text := rfl
    rw [hprint, hrest, hwrite, List.length_cons, List.range'_succ, List.map_cons,
      List.append_assoc, List.singleton_append]
    rfl

end Printing

/-! ### Redrawing -/

section Redrawing
variable {font : Font} {w : KWriter} {start : Nat}

/-- Both ways agree while a row ends where the framebuffer does, and on the first row. -/
theorem lineCell_eq_printedCell {i : Nat}
    (h : w.fontW font ∣ w.fb.width ∨ i < columns font w) :
    lineCell font w start i = printedCell font w start i := by
  have hpos : 0 < w.fontW font := fontW_pos font w
  rw [lineCell, printedCell, KWriter.cellPosition]
  cases h with
  | inl hwhole =>
    have hwidth : columns font w * w.fontW font = w.fb.width := Nat.div_mul_cancel hwhole
    rw [← hwidth, Nat.mul_mod_mul_right, Nat.mul_div_cancel _ hpos, Nat.mul_div_mul_right _ _ hpos]
  | inr hfirst =>
    have hlt : i * w.fontW font < w.fb.width := by
      have hrow : (i + 1) * w.fontW font ≤ w.fb.width := (Nat.le_div_iff_mul_le hpos).mp hfirst
      rw [Nat.succ_mul] at hrow
      omega
    rw [Nat.mod_eq_of_lt hlt, Nat.div_eq_of_lt hlt, Nat.mul_div_cancel _ hpos,
      Nat.mod_eq_of_lt hfirst, Nat.div_eq_of_lt hfirst]

/-- A row that ends inside a cell keeps that cell on the row when it is redrawn. -/
theorem lineCell_columns (hpart : ¬ w.fontW font ∣ w.fb.width) :
    (lineCell font w start (columns font w)).row = start := by
  have hlt : columns font w * w.fontW font < w.fb.width :=
    Nat.lt_of_le_of_ne (Nat.div_mul_le_self ..) fun heq => hpart (heq ▸ Nat.dvd_mul_left ..)
  rw [lineCell, KWriter.cellPosition]
  simp only
  rw [Nat.div_eq_of_lt hlt, Nat.add_zero]

theorem printedCell_inside (hcell : w.fontW font ≤ w.fb.width) (i : Nat) :
    ((printedCell font w start i).column + 1) * w.fontW font ≤ w.fb.width := by
  have hlt : i % columns font w < columns font w := Nat.mod_lt i (columns_pos hcell)
  exact (Nat.mul_le_mul_right _ hlt).trans (Nat.div_mul_le_self ..)

theorem cells_agree_iff (hcell : w.fontW font ≤ w.fb.width) {n : Nat} :
    (∀ i < n, lineCell font w start i = printedCell font w start i) ↔
      w.fontW font ∣ w.fb.width ∨ n ≤ columns font w := by
  constructor
  · intro h
    by_contra hneither
    rw [not_or, Nat.not_le] at hneither
    have hrow := congrArg Cell.row (h (columns font w) hneither.2)
    rw [lineCell_columns hneither.1, printedCell, Nat.div_self (columns_pos hcell)] at hrow
    exact absurd hrow (Nat.ne_of_lt (Nat.lt_succ_self start))
  · intro h i hi
    exact lineCell_eq_printedCell (h.imp_right hi.trans_le)

theorem getElem?_cells {cell : Nat → Cell} {n i : Nat} (hi : i < n) :
    ((List.range' 0 n).map cell)[i]? = some (cell i) := by
  rw [List.getElem?_map, List.getElem?_range' hi, Nat.zero_add, Nat.one_mul, Option.map_some]

/-- Redrawing a line puts its characters into the cells that printing it from the start of the
row does, all within the width, exactly if the width is a whole number of cells or the line
fits in one row. -/
theorem layout_agrees_iff (font : Font) {w : KWriter} (hcell : w.fontW font ≤ w.fb.width)
    {text : Text} (hflat : '\n' ∉ text) (cursor : Nat) :
    let line := PROMPT ++ text
    let printed := ({ w with
      column := 0
      row := startRow w
      currentLine := []
      glyphCells := [] } : KWriter).kprint font line
    ∃ redrawn, w.redrawInputLine font text cursor = .ok redrawn ∧
      ((∀ i < line.length, ∃ cell, redrawn.glyphCells[i]? = some cell ∧
        printed.glyphCells[i]? = some cell ∧ (cell.column + 1) * w.fontW font ≤ w.fb.width) ↔
      w.fontW font ∣ w.fb.width ∨ line.length ≤ w.fb.width / w.fontW font) := by
  intro line printed
  have hline : '\n' ∉ line := by simp [line, hflat]
  have hprinted : printed.glyphCells =
      (List.range' 0 line.length).map (printedCell font w (startRow w)) :=
    kprint_cells (w := { w with
      column := 0, row := startRow w, currentLine := [], glyphCells := [] }) hcell hline
      (i := 0) ⟨rfl, rfl⟩
  have hagree : (∀ i < line.length,
      lineCell font w (startRow w) i = printedCell font w (startRow w) i) ↔
      w.fontW font ∣ w.fb.width ∨ line.length ≤ w.fb.width / w.fontW font := cells_agree_iff hcell
  obtain ⟨column, row, hredrawn⟩ := redrawInputLine_ok font w text cursor
  refine ⟨_, hredrawn, Iff.trans ?_ hagree⟩
  rw [hprinted]
  refine forall₂_congr fun i hi => ?_
  rw [redrawnAt, getElem?_cells hi, getElem?_cells hi]
  constructor
  · rintro ⟨cell, hleft, hright, -⟩
    exact Option.some.inj (hleft.trans hright.symm)
  · intro hsame
    exact ⟨_, rfl, congrArg some hsame.symm, hsame ▸ printedCell_inside hcell i⟩

open KWriter (xga)

theorem layout_agrees_on_short_line :
    let w : KWriter := { KWriter.init xga with row := 5 }
    let printed := { w with currentLine := [] }.kprint blankFont "> ls".toList
    ∃ redrawn, w.redrawInputLine blankFont "ls".toList 2 = .ok redrawn ∧
      ((∀ i < 4, ∃ cell, redrawn.glyphCells[i]? = some cell ∧
        printed.glyphCells[i]? = some cell ∧ (cell.column + 1) * 7 ≤ 1024) ↔
      7 ∣ 1024 ∨ 4 ≤ 1024 / 7) :=
  layout_agrees_iff blankFont (w := { KWriter.init xga with row := 5 }) (by decide)
    (by decide : '\n' ∉ "ls".toList) 2

/-- On a display of three cells and four pixels, the fourth character is redrawn beyond the edge
and printed on the next row. -/
theorem redrawn_past_the_edge :
    let w := KWriter.init smallDisplay
    let printed := w.kprint blankFont "> ab".toList
    w.fontW blankFont = 7 ∧ w.fb.width = 25 ∧
    ∃ redrawn, w.redrawInputLine blankFont "ab".toList 2 = .ok redrawn ∧
      redrawn.glyphCells[3]? = some ⟨3, 0⟩ ∧ printed.glyphCells[3]? = some ⟨0, 1⟩ ∧
      ¬ (3 + 1) * 7 ≤ 25 :=
  ⟨rfl, rfl, _, rfl, rfl, rfl, by decide⟩

end Redrawing

end AgnostOS.Shell
