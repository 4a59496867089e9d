import AgnostOS.GlyphPixels
import AgnostOS.LineLayout

/-! What a redraw of the input line leaves on the screen: the rows that it erases are those of
the new text, and they are erased only if all of them fit on the screen. -/
namespace AgnostOS.Shell
open Globals Graphics Commands Console

def screen (font : Font) (m₀ : ByteMemory) (w : KWriter) : ByteMemory :=
  render font w.fb m₀ w.drawn

section Redrawing
variable (font : Font)

def EraseFits (w : KWriter) (length : Nat) : Prop :=
  startRow w * w.fontH + w.fontH * erasedRows font w length ≤ w.fb.height

def ErasedRow (w : KWriter) (length row : Nat) : Prop :=
  startRow w ≤ row ∧ row < startRow w + erasedRows font w length

def BlankBeside (w : KWriter) (m : ByteMemory) (cell : Cell) (ch : Char) : Prop :=
  ∀ x y, x < w.fb.width → y < w.fb.height → cellAt font w.fontSize x y = cell →
    inkAt font w.fontSize ch x y = 0 → w.fb.readPixel m x y = BLACK

/-- The state before a redraw with a line lets it leave no remains: its rows can be erased,
or there is nothing beside the new characters, and each old cell that the line does not use
again lies in a row that is erased, or is blank. -/
structure CleanBefore (w : KWriter) (m : ByteMemory) (newLine : Text) : Prop where
  fresh : ∀ (i : Nat) ch, newLine[i]? = some ch →
    EraseFits font w newLine.length ∨ BlankBeside font w m (lineCell font w (startRow w) i) ch
  stale : ∀ cell ∈ w.glyphCells, (∀ i < newLine.length, lineCell font w (startRow w) i ≠ cell) →
    (EraseFits font w newLine.length ∧ ErasedRow font w newLine.length cell.row) ∨
      Blank font w.fb w.fontSize m cell

structure CleanAfter (w redrawn : KWriter) (m' : ByteMemory) (newLine : Text) : Prop where
  fresh : ∀ (i : Nat) ch cell, newLine[i]? = some ch → redrawn.glyphCells[i]? = some cell →
    ShowsOnly font w.fb w.fontSize m' cell ch
  stale : ∀ cell ∈ w.glyphCells, cell ∉ redrawn.glyphCells → Blank font w.fb w.fontSize m' cell

instance (w : KWriter) (length : Nat) : Decidable (EraseFits font w length) :=
  inferInstanceAs (Decidable (_ ≤ _))

instance (w : KWriter) (length row : Nat) : Decidable (ErasedRow font w length row) :=
  inferInstanceAs (Decidable (_ ∧ _))

variable {font} {w : KWriter} {m : ByteMemory} {text : Text} {x y : Nat}

theorem lineCell_injective (font : Font) (w : KWriter) (start : Nat) :
    Function.Injective (lineCell font w start) := by
  intro i j heq
  have hpos : 0 < w.fontW font := fontW_pos font w
  have hcolumn : i * w.fontW font % w.fb.width / w.fontW font =
      j * w.fontW font % w.fb.width / w.fontW font := congrArg Cell.column heq
  have hrow : i * w.fontW font / w.fb.width = j * w.fontW font / w.fb.width :=
    Nat.add_left_cancel (congrArg Cell.row heq)
  -- positions in one row differ by whole cells
  have hi := Nat.div_add_mod (i * w.fontW font) w.fb.width
  have hj := Nat.div_add_mod (j * w.fontW font) w.fb.width
  have hci := Nat.div_add_mod (i * w.fontW font % w.fb.width) (w.fontW font)
  have hcj := Nat.div_add_mod (j * w.fontW font % w.fb.width) (w.fontW font)
  have hli := Nat.mod_lt (i * w.fontW font % w.fb.width) hpos
  have hlj := Nat.mod_lt (j * w.fontW font % w.fb.width) hpos
  rw [hrow] at hi
  rw [hcolumn] at hci
  have hle : ∀ {a b : Nat}, a * w.fontW font < (b + 1) * w.fontW font → a ≤ b := fun h =>
    Nat.le_of_lt_succ (Nat.lt_of_mul_lt_mul_right h)
  apply Nat.le_antisymm
  · apply hle
    rw [Nat.succ_mul]
    omega
  · apply hle
    rw [Nat.succ_mul]
    omega

theorem lineCell_erased {length i : Nat} (hi : i < length) :
    ErasedRow font w length (lineCell font w (startRow w) i).row := by
  refine ⟨Nat.le_add_right .., Nat.add_lt_add_left (lt_max_of_lt_left ?_) _⟩
  change i * w.fontW font / w.fb.width < (length * w.fontW font + (w.fb.width - 1)) / w.fb.width
  have hwidth : 0 < w.fb.width := w.fb.size.width_pos
  have hpos : 0 < w.fontW font := fontW_pos font w
  have hnext : (i + 1) * w.fontW font ≤ length * w.fontW font := Nat.mul_le_mul_right _ hi
  rw [Nat.succ_mul] at hnext
  rw [Nat.lt_iff_add_one_le, Nat.le_div_iff_mul_le hwidth, Nat.succ_mul]
  have hdiv := Nat.div_mul_le_self (i * w.fontW font) w.fb.width
  omega

theorem inRec_erased {length : Nat} (hx : x < w.fb.width) :
    InRec w.fb ⟨0, startRow w * w.fontH⟩
        ⟨w.fb.width, w.fontH * erasedRows font w length, w.fb.size.width_pos,
          erasedRows_pos font w length⟩ x y ↔
      EraseFits font w length ∧ ErasedRow font w length (cellAt font w.fontSize x y).row := by
  have hpos : 0 < w.fontH := w.fontH_pos
  have hlow : startRow w ≤ y / w.fontH ↔ startRow w * w.fontH ≤ y := Nat.le_div_iff_mul_le hpos
  have hhigh : y / w.fontH < startRow w + erasedRows font w length ↔
      y < startRow w * w.fontH + w.fontH * erasedRows font w length := by
    rw [Nat.div_lt_iff_lt_mul hpos, Nat.add_mul, Nat.mul_comm w.fontH]
  rw [InRec, EraseFits, ErasedRow]
  change _ ↔ _ ∧ startRow w ≤ y / w.fontH ∧ y / w.fontH < _
  rw [hlow, hhigh]
  simp [hx]

theorem readPixel_redraw_outside (hdraw : w.fb.isDrawable = true)
    (hfit : RastersFit font w.fontSize) (hx : x < w.fb.width) (hy : y < w.fb.height)
    (hout : ∀ i < (PROMPT ++ text).length,
      lineCell font w (startRow w) i ≠ cellAt font w.fontSize x y) :
    w.fb.readPixel (render font w.fb m (redrawCalls font w text)) x y =
      if EraseFits font w (PROMPT ++ text).length ∧
        ErasedRow font w (PROMPT ++ text).length (cellAt font w.fontSize x y).row then BLACK
      else w.fb.readPixel m x y := by
  have houtside : ∀ i, 0 ≤ i → i < 0 + (PROMPT ++ text).length →
      lineCell font w (startRow w) i ≠ cellAt font w.fontSize x y := by
    intro i _ hi
    exact hout i (by omega)
  rw [redrawCalls, render_cons]
  refine (readPixel_glyphs_outside hdraw hfit hx hy houtside).trans ?_
  rw [readPixel_drawRec hdraw _ _ BLACK hx hy, List.length_append]
  simp only [inRec_erased hx]

theorem readPixel_redraw_inside (hdraw : w.fb.isDrawable = true)
    (hfit : RastersFit font w.fontSize) (hx : x < w.fb.width) (hy : y < w.fb.height) {i : Nat}
    {ch : Char} (hch : (PROMPT ++ text)[i]? = some ch)
    (hcell : cellAt font w.fontSize x y = lineCell font w (startRow w) i) :
    w.fb.readPixel (render font w.fb m (redrawCalls font w text)) x y =
      if inkAt font w.fontSize ch x y ≠ 0 then shade WHITE (inkAt font w.fontSize ch x y)
      else if EraseFits font w (PROMPT ++ text).length then BLACK
      else w.fb.readPixel m x y := by
  have hi : i < (PROMPT ++ text).length := (List.getElem?_eq_some_iff.mp hch).1
  have hat : lineCell font w (startRow w) (0 + i) = cellAt font w.fontSize x y := by
    rw [Nat.zero_add, hcell]
  have hrow : ErasedRow font w (PROMPT ++ text).length (cellAt font w.fontSize x y).row := by
    rw [hcell]
    exact lineCell_erased hi
  rw [redrawCalls, render_cons]
  refine (readPixel_glyphs hdraw hfit (lineCell_injective font w _) hx hy hch hat).trans ?_
  rw [List.length_append] at hrow ⊢
  rw [readPixel_drawRec hdraw _ _ BLACK hx hy]
  simp only [inRec_erased hx, hrow, and_true]

theorem showsOnly_redraw_iff (hdraw : w.fb.isDrawable = true)
    (hfit : RastersFit font w.fontSize) {i : Nat} {ch : Char}
    (hch : (PROMPT ++ text)[i]? = some ch) :
    ShowsOnly font w.fb w.fontSize (render font w.fb m (redrawCalls font w text))
        (lineCell font w (startRow w) i) ch ↔
      EraseFits font w (PROMPT ++ text).length ∨
        BlankBeside font w m (lineCell font w (startRow w) i) ch := by
  constructor
  · intro hshows
    by_cases hfits : EraseFits font w (PROMPT ++ text).length
    · exact .inl hfits
    · refine .inr fun x y hx hy hcell hblank => ?_
      have hpixel := hshows x y hx hy hcell
      rw [readPixel_redraw_inside hdraw hfit hx hy hch hcell, if_neg (not_not.mpr hblank),
        if_neg hfits, hblank, shade_zero] at hpixel
      exact hpixel
  · intro hbefore x y hx hy hcell
    rw [readPixel_redraw_inside hdraw hfit hx hy hch hcell]
    by_cases hink : inkAt font w.fontSize ch x y = 0
    · rw [if_neg (not_not.mpr hink), hink, shade_zero]
      cases hbefore with
      | inl hfits => exact if_pos hfits
      | inr hblank =>
        have hpixel : w.fb.readPixel m x y = BLACK := hblank x y hx hy hcell hink
        rw [hpixel, ite_self]
    · rw [if_pos hink]

theorem blank_redraw_iff (hdraw : w.fb.isDrawable = true) (hfit : RastersFit font w.fontSize)
    {cell : Cell}
    (hout : ∀ i < (PROMPT ++ text).length, lineCell font w (startRow w) i ≠ cell) :
    Blank font w.fb w.fontSize (render font w.fb m (redrawCalls font w text)) cell ↔
      (EraseFits font w (PROMPT ++ text).length ∧
        ErasedRow font w (PROMPT ++ text).length cell.row) ∨ Blank font w.fb w.fontSize m cell := by
  have hpixel : ∀ x y, x < w.fb.width → y < w.fb.height → cellAt font w.fontSize x y = cell →
      w.fb.readPixel (render font w.fb m (redrawCalls font w text)) x y =
        if EraseFits font w (PROMPT ++ text).length ∧
          ErasedRow font w (PROMPT ++ text).length cell.row then BLACK
        else w.fb.readPixel m x y := by
    intro x y hx hy hcell
    subst hcell
    exact readPixel_redraw_outside hdraw hfit hx hy hout
  by_cases herased : EraseFits font w (PROMPT ++ text).length ∧
      ErasedRow font w (PROMPT ++ text).length cell.row
  · simp only [if_pos herased] at hpixel
    exact iff_of_true hpixel (.inl herased)
  · simp only [if_neg herased] at hpixel
    rw [or_iff_right herased]
    apply forall₂_congr
    intro x y
    refine forall₃_congr fun hx hy hcell => ?_
    rw [hpixel x y hx hy hcell]

theorem mem_cells {cell : Nat → Cell} {n : Nat} {c : Cell} :
    c ∈ (List.range' 0 n).map cell ↔ ∃ i < n, cell i = c := by
  simp [List.mem_map, List.mem_range'_1]

/-- A redraw leaves no remains of the old line exactly if the rows of the new one could be
erased and the old line lies in them, or there was nothing to erase. -/
theorem redraw_clean_iff (hptr : w.fb.ptr ≠ 0) (hfit : RastersFit font w.fontSize) (text : Text)
    (cursor : Nat) (m₀ : ByteMemory) :
    ∃ redrawn, w.redrawInputLine font text cursor = .ok redrawn ∧
      (CleanAfter font w redrawn (screen font m₀ redrawn) (PROMPT ++ text) ↔
        CleanBefore font w (screen font m₀ w) (PROMPT ++ text)) := by
  have hdraw : w.fb.isDrawable = true := Framebuffer.isDrawable_of_ptr hptr
  let line : Text := PROMPT ++ text
  obtain ⟨column, row, hredrawn⟩ := redrawInputLine_ok font w text cursor
  let redrawn : KWriter := redrawnAt font w text cursor column row
  have hscreen : screen font m₀ redrawn =
      render font w.fb (screen font m₀ w) (redrawCalls font w text) :=
    render_append w.drawn (redrawCalls font w text)
  have hcells : redrawn.glyphCells =
      (List.range' 0 line.length).map (lineCell font w (startRow w)) := rfl
  refine ⟨redrawn, hredrawn, ?_⟩
  rw [hscreen]
  constructor
  · intro hafter
    refine ⟨fun i ch hch => ?_, fun cell hcell hout => ?_⟩
    · have hi : i < line.length := (List.getElem?_eq_some_iff.mp hch).1
      apply (showsOnly_redraw_iff hdraw hfit hch).mp
      apply hafter.fresh i ch _ hch
      rw [hcells, getElem?_cells hi]
    · apply (blank_redraw_iff hdraw hfit hout).mp
      apply hafter.stale cell hcell
      rw [hcells, mem_cells]
      exact fun h => h.elim fun i hi => hout i hi.1 hi.2
  · intro hbefore
    refine ⟨fun i ch cell hch hcell => ?_, fun cell hcell hout => ?_⟩
    · have hi : i < line.length := (List.getElem?_eq_some_iff.mp hch).1
      rw [hcells, getElem?_cells hi] at hcell
      rw [← Option.some.inj hcell]
      exact (showsOnly_redraw_iff hdraw hfit hch).mpr (hbefore.fresh i ch hch)
    · have hother : ∀ i < line.length, lineCell font w (startRow w) i ≠ cell := by
        intro i hi heq
        apply hout
        rw [hcells, mem_cells]
        exact ⟨i, hi, heq⟩
      exact (blank_redraw_iff hdraw hfit hother).mpr (hbefore.stale cell hcell hother)

/-- The kernel's cells with a bar in the middle of each but the space. -/
def barFont : Font where
  rasterWidth := regularWidth
  rasterWidth_pos := regularWidth_pos
  getRaster := fun ch size => some ⟨List.replicate (cellHeight size - 2)
    ((List.range (regularWidth size)).map fun x =>
      if ch ≠ ' ' ∧ x = regularWidth size / 2 then 255 else 0), regularWidth size⟩

theorem barFont_fits (size : RasterHeight) : RastersFit barFont size := by
  intro ch raster hraster
  obtain rfl := Option.some.inj hraster
  constructor
  · rw [List.length_replicate]
    exact Nat.sub_le ..
  · intro rowData hrow
    rw [List.eq_of_mem_replicate hrow, List.length_map, List.length_range]
    exact le_rfl

theorem redraw_clean_on_one_row :
    let w := (KWriter.init smallDisplay).kprint barFont "> a".toList
    ∃ redrawn, w.redrawInputLine barFont [] 0 = .ok redrawn ∧
      (CleanAfter barFont w redrawn (screen barFont (fun _ => 0) redrawn) (PROMPT ++ []) ↔
        CleanBefore barFont w (screen barFont (fun _ => 0) w) (PROMPT ++ [])) :=
  redraw_clean_iff (by decide) (barFont_fits _) [] 0 fun _ => 0

/-- A line of two rows is replaced by one of a single row: the bar in its second row remains. -/
theorem second_row_remains :
    let w := (KWriter.init smallDisplay).kprint barFont "> a|".toList
    ∃ redrawn, w.redrawInputLine barFont [] 0 = .ok redrawn ∧
      (⟨0, 1⟩ : Cell) ∈ w.glyphCells ∧ (⟨0, 1⟩ : Cell) ∉ redrawn.glyphCells ∧
      smallDisplay.readPixel (screen barFont (fun _ => 0) redrawn) 3 23 = WHITE ∧
      ¬ Blank barFont smallDisplay .size16 (screen barFont (fun _ => 0) redrawn) ⟨0, 1⟩ := by
  refine ⟨_, rfl, by decide, by decide,
    (and_iff_left_of_imp fun hwhite hblank => ?_).mpr (by decide +kernel)⟩
  have hblack := hblank 3 23 (by decide) (by decide) rfl
  exact absurd (hwhite.symm.trans hblack) (by decide)

end Redrawing

end AgnostOS.Shell
