import AgnostOS.Console
import AgnostOS.Primitives

/-! Text on the screen: the character cells that the pixels belong to, the ink of a glyph in
its cell, and what the drawing calls of the console change. -/
namespace AgnostOS.Graphics
open Word
open Console (Cell)

def render (font : Font) (fb : Framebuffer) (m : ByteMemory) (ops : List DrawOp) : ByteMemory :=
  ops.foldl (DrawOp.apply font fb) m

def Font.glyph (font : Font) (size : RasterHeight) (ch : Char) : Option RasterizedChar :=
  (font.getRaster ch size).or (font.getRaster '?' FONT_HEIGHT)

def RasterizedChar.intensity (raster : RasterizedChar) (dx dy : Nat) : UInt8 :=
  (raster.raster[dy]?.bind fun rowData => rowData[dx]?).getD 0

/-- The rasters of the bitmap font fit into the cells of the size, also where a character is
replaced by a smaller `?`. -/
def RastersFit (font : Font) (size : RasterHeight) : Prop :=
  ∀ ch, ∀ raster ∈ font.glyph size ch, raster.raster.length ≤ cellHeight size ∧
    ∀ rowData ∈ raster.raster, rowData.length ≤ cellWidth font size

def cellAt (font : Font) (size : RasterHeight) (x y : Nat) : Cell :=
  ⟨x / cellWidth font size, y / cellHeight size⟩

def inkAt (font : Font) (size : RasterHeight) (ch : Char) (x y : Nat) : UInt8 :=
  if ch = '\n' then 0
  else ((font.glyph size ch).map fun raster =>
    raster.intensity (x % cellWidth font size) (y % cellHeight size)).getD 0

def shade (color : Color) (intensity : UInt8) : Color :=
  ⟨blend color.r intensity, blend color.g intensity, blend color.b intensity⟩

theorem shade_zero (color : Color) : shade color 0 = BLACK := by
  simp [shade, blend]

section Glyphs
variable {font : Font} {fb : Framebuffer} {size : RasterHeight} {color : Color} {x y : Nat}

theorem mem_drawGlyph {raster : RasterizedChar} {originX originY : Nat} {c : Color}
    (hx : x < fb.width) (hy : y < fb.height) :
    (y * fb.stride.get + x, c) ∈ drawGlyph fb raster originX originY color ↔
      ∃ dx dy intensity, x = originX + dx ∧ y = originY + dy ∧ intensity ≠ 0 ∧
        (raster.raster[dy]?.bind fun rowData => rowData[dx]?) = some intensity ∧
        c = shade color intensity := by
  have hwidth : fb.width ≤ fb.stride.get := Framebuffer.width_le_stride
  have hsize : fb.width < 2 ^ 62 ∧ fb.height < 2 ^ 62 := size_lt
  rw [drawGlyph, List.mem_flatMap]
  constructor
  · intro hmem
    obtain ⟨⟨rowData, row⟩, hrow, hmem⟩ := hmem
    obtain ⟨⟨intensity, col⟩, hcol, hmem⟩ := List.mem_filterMap.mp hmem
    have hraster : raster.raster[row]? = some rowData := List.mem_zipIdx_iff_getElem?.mp hrow
    have hdata : rowData[col]? = some intensity := List.mem_zipIdx_iff_getElem?.mp hcol
    dsimp only at hmem
    split at hmem
    · cases hmem
    · next hink =>
      split at hmem
      · next x' y' hx' hy' =>
        split at hmem
        · cases hmem
        · next hin =>
          rw [checkedAdd_eq_some] at hx' hy'
          have hpair := Option.some.inj hmem
          have hsame := Framebuffer.pixel_inj (by omega) (lt_of_lt_of_le hx hwidth)
            (congrArg Prod.fst hpair)
          refine ⟨col, row, intensity, by omega, by omega, hink, ?_, (congrArg Prod.snd hpair).symm⟩
          rw [hraster, Option.bind_some, hdata]
      · cases hmem
  · intro h
    obtain ⟨dx, dy, intensity, hdx, hdy, hink, hraster, hc⟩ := h
    obtain ⟨rowData, hrow, hcol⟩ := Option.bind_eq_some_iff.mp hraster
    refine ⟨(rowData, dy), List.mem_zipIdx_iff_getElem?.mpr hrow, List.mem_filterMap.mpr
      ⟨(intensity, dx), List.mem_zipIdx_iff_getElem?.mpr hcol, ?_⟩⟩
    have hatX : checkedAdd 64 originX dx = some x := by
      rw [checkedAdd_eq_some]
      omega
    have hatY : checkedAdd 64 originY dy = some y := by
      rw [checkedAdd_eq_some]
      omega
    simp only [if_neg hink, hatX, hatY]
    rw [if_neg (by omega), hc]
    rfl

/-- The last write of a glyph to a pixel is its ink there. -/
theorem last_drawGlyph {raster : RasterizedChar} {originX originY : Nat} (hx : x < fb.width)
    (hy : y < fb.height) :
    Writes.last (drawGlyph fb raster originX originY color) (y * fb.stride.get + x) =
      if originX ≤ x ∧ originY ≤ y ∧ raster.intensity (x - originX) (y - originY) ≠ 0 then
        some (shade color (raster.intensity (x - originX) (y - originY)))
      else none := by
  have hink : ∀ {dx dy intensity}, intensity ≠ 0 →
      (raster.raster[dy]?.bind fun rowData => rowData[dx]?) = some intensity →
      raster.intensity dx dy = intensity := by
    intro dx dy intensity _ hraster
    rw [RasterizedChar.intensity, hraster, Option.getD_some]
  split
  · next hin =>
    have hraster : (raster.raster[y - originY]?.bind fun rowData => rowData[x - originX]?) =
        some (raster.intensity (x - originX) (y - originY)) := by
      have hne := hin.2.2
      rw [RasterizedChar.intensity] at hne ⊢
      generalize (raster.raster[y - originY]?.bind fun rowData => rowData[x - originX]?) = found at hne ⊢
      cases found with
      | none => exact absurd rfl hne
      | some intensity => rfl
    apply Writes.last_eq_some
    · exact (mem_drawGlyph hx hy).mpr
        ⟨x - originX, y - originY, _, by omega, by omega, hin.2.2, hraster, rfl⟩
    · intro c hc
      obtain ⟨dx, dy, intensity, hdx, hdy, hne, hfound, hcolor⟩ := (mem_drawGlyph hx hy).mp hc
      rw [hdx, hdy, Nat.add_sub_cancel_left, Nat.add_sub_cancel_left, hink hne hfound, hcolor]
  · next hout =>
    rw [Writes.last_eq_none_iff]
    intro write hwrite hpixel
    have hmem : (y * fb.stride.get + x, write.2) ∈ drawGlyph fb raster originX originY color := by
      rw [← hpixel]
      exact hwrite
    obtain ⟨dx, dy, intensity, hdx, hdy, hne, hfound, -⟩ := (mem_drawGlyph hx hy).mp hmem
    apply hout
    rw [hdx, hdy, Nat.add_sub_cancel_left, Nat.add_sub_cancel_left, hink hne hfound]
    exact ⟨Nat.le_add_right .., Nat.le_add_right .., hne⟩

theorem intensity_outside (hfit : RastersFit font size) {ch : Char} {raster : RasterizedChar}
    (hraster : font.glyph size ch = some raster) {dx dy : Nat}
    (hout : cellWidth font size ≤ dx ∨ cellHeight size ≤ dy) : raster.intensity dx dy = 0 := by
  obtain ⟨hrows, hcols⟩ := hfit ch raster hraster
  rw [RasterizedChar.intensity]
  cases hrow : raster.raster[dy]? with
  | none => rfl
  | some rowData =>
    have hlt : dy < raster.raster.length := (List.getElem?_eq_some_iff.mp hrow).1
    have hwide := hcols rowData (List.mem_of_getElem? hrow)
    rw [Option.bind_some, List.getElem?_eq_none (by omega), Option.getD_none]

/-- The loop of `draw_text` over a single character. -/
theorem drawChars_single (originX originY : Nat) (ch : Char) :
    drawChars font fb originY color size originX [ch] =
      if ch = '\n' then []
      else (font.glyph size ch).elim [] fun raster =>
        drawGlyph fb raster originX originY color := by
  rw [drawChars, Font.glyph]
  split
  · rfl
  · cases (font.getRaster ch size).or (font.getRaster '?' FONT_HEIGHT) with
    | none => rfl
    | some raster =>
      simp only [Option.elim_some]
      cases checkedAdd 64 originX raster.width <;> exact List.append_nil _

theorem cellHeight_pos (size : RasterHeight) : 0 < cellHeight size := by
  cases size <;> decide

theorem cellAt_eq_iff {cell : Cell} : cellAt font size x y = cell ↔
    (cell.column * cellWidth font size ≤ x ∧
      x - cell.column * cellWidth font size < cellWidth font size) ∧
    cell.row * cellHeight size ≤ y ∧ y - cell.row * cellHeight size < cellHeight size := by
  have hdiv : ∀ {z n k : Nat}, 0 < n → (z / n = k ↔ k * n ≤ z ∧ z - k * n < n) := by
    intro z n k hn
    rw [Nat.div_eq_iff hn]
    omega
  have hwidth : 0 < cellWidth font size := font.rasterWidth_pos size
  rw [← hdiv hwidth, ← hdiv (cellHeight_pos size), cellAt]
  cases cell
  simp

theorem sub_corner {cell : Cell} (h : cellAt font size x y = cell) :
    x - cell.column * cellWidth font size = x % cellWidth font size ∧
      y - cell.row * cellHeight size = y % cellHeight size := by
  rw [← h, Nat.mod_eq_sub_div_mul, Nat.mod_eq_sub_div_mul]
  exact ⟨rfl, rfl⟩

/-- A glyph drawn at a cell reaches the pixels of that cell only. -/
theorem last_drawText (hdraw : fb.isDrawable = true) (hfit : RastersFit font size) (ch : Char)
    (cell : Cell) (hx : x < fb.width) (hy : y < fb.height) :
    Writes.last (drawText font fb [ch] cell.column cell.row color (some size))
        (y * fb.stride.get + x) =
      if cellAt font size x y = cell ∧ inkAt font size ch x y ≠ 0 then
        some (shade color (inkAt font size ch x y))
      else none := by
  have htext : drawText font fb [ch] cell.column cell.row color (some size) =
      drawChars font fb (cell.row * cellHeight size) color size
        (cell.column * cellWidth font size) [ch] := if_pos hdraw
  rw [htext, drawChars_single, inkAt]
  by_cases hbreak : ch = '\n'
  · rw [if_pos hbreak, if_pos hbreak, if_neg fun h => h.2 rfl]
    rfl
  rw [if_neg hbreak, if_neg hbreak]
  cases hraster : font.glyph size ch with
  | none =>
    rw [Option.map_none, Option.getD_none, if_neg fun h => h.2 rfl]
    rfl
  | some raster =>
    simp only [Option.elim_some, Option.map_some, Option.getD_some]
    rw [last_drawGlyph hx hy]
    by_cases hcell : cellAt font size x y = cell
    · obtain ⟨hcolumn, hrow⟩ := sub_corner hcell
      have hcorner := cellAt_eq_iff.mp hcell
      rw [hcolumn, hrow]
      simp only [hcell, hcorner.1.1, hcorner.2.1, true_and]
    · have hnothing : ¬ (cell.column * cellWidth font size ≤ x ∧ cell.row * cellHeight size ≤ y ∧
          raster.intensity (x - cell.column * cellWidth font size)
            (y - cell.row * cellHeight size) ≠ 0) := by
        intro h
        apply h.2.2
        apply intensity_outside hfit hraster
        rw [cellAt_eq_iff] at hcell
        omega
      rw [if_neg hnothing, if_neg fun h => hcell h.1]

end Glyphs

/-! ### Pixels after drawing calls -/

section Rendering
variable {font : Font} {fb : Framebuffer} {m m' : ByteMemory} {size : RasterHeight} {x y : Nat}

theorem render_append (first second : List DrawOp) :
    render font fb m (first ++ second) = render font fb (render font fb m first) second :=
  List.foldl_append

theorem render_cons (op : DrawOp) (ops : List DrawOp) :
    render font fb m (op :: ops) = render font fb (op.apply font fb m) ops := rfl

theorem readPixel_of_paints (hdraw : fb.isDrawable = true) {shown : Nat → Nat → Option Color}
    (h : fb.Paints m m' shown) (hx : x < fb.width) (hy : y < fb.height) :
    fb.readPixel m' x y = (shown x y).getD (fb.readPixel m x y) := by
  cases hshown : shown x y with
  | some color => exact h.set x y color hx hy hshown
  | none =>
    rw [Option.getD_none, Framebuffer.readPixel_of_visible hdraw hx hy,
      Framebuffer.readPixel_of_visible hdraw hx hy]
    have hkept := h.kept x y hx hy hshown
    apply Framebuffer.colorAt_congr
    intro a ha
    have hbyte := hkept (a - 4 * (y * fb.stride.get + x)) (by have := ha.2; omega)
    rwa [Nat.add_sub_cancel' ha.1] at hbyte

theorem readPixel_drawText (hdraw : fb.isDrawable = true) (hfit : RastersFit font size) (ch : Char)
    (cell : Cell) (color : Color) (hx : x < fb.width) (hy : y < fb.height) :
    fb.readPixel ((DrawOp.drawText [ch] cell.column cell.row color (some size)).apply font fb m) x y =
      if cellAt font size x y = cell ∧ inkAt font size ch x y ≠ 0 then
        shade color (inkAt font size ch x y)
      else fb.readPixel m x y := by
  have hpaints := (drawText_paints hdraw font [ch] cell.column cell.row color (some size) m).paints
  have hread := readPixel_of_paints hdraw hpaints hx hy
  rw [last_drawText hdraw hfit ch cell hx hy] at hread
  refine hread.trans ?_
  split <;> rfl

theorem readPixel_drawRec (hdraw : fb.isDrawable = true) (origin : PixelCoord) (area : PixelSize)
    (color : Color) (hx : x < fb.width) (hy : y < fb.height) :
    fb.readPixel ((DrawOp.drawRec origin area color).apply font fb m) x y =
      if InRec fb origin area x y then color else fb.readPixel m x y := by
  refine (readPixel_of_paints hdraw (drawRec_paints hdraw origin area color m).paints hx hy).trans ?_
  split <;> rfl

def glyphCalls (size : RasterHeight) (cells : Nat → Cell) (k : Nat) (text : List Char) :
    List DrawOp :=
  (text.zipIdx k).map fun p =>
    .drawText [p.1] (cells p.2).column (cells p.2).row WHITE (some size)

theorem readPixel_glyphs_outside (hdraw : fb.isDrawable = true) (hfit : RastersFit font size)
    {cells : Nat → Cell} {k : Nat} {text : List Char} (hx : x < fb.width) (hy : y < fb.height)
    (hout : ∀ i, k ≤ i → i < k + text.length → cells i ≠ cellAt font size x y) :
    fb.readPixel (render font fb m (glyphCalls size cells k text)) x y = fb.readPixel m x y := by
  induction text generalizing m k with
  | nil => rfl
  | cons ch text ih =>
    rw [glyphCalls, List.zipIdx_cons, List.map_cons, render_cons]
    have hrest : ∀ i, k + 1 ≤ i → i < k + 1 + text.length → cells i ≠ cellAt font size x y := by
      intro i hle hlt
      apply hout i (Nat.le_of_succ_le hle)
      rw [List.length_cons]
      omega
    have hfirst : cells k ≠ cellAt font size x y := hout k le_rfl (by simp)
    refine (ih hrest).trans ((readPixel_drawText hdraw hfit ch _ WHITE hx hy).trans ?_)
    rw [if_neg fun h => hfirst h.1.symm]

/-- A pixel in the cell of a character takes the ink of that character. -/
theorem readPixel_glyphs (hdraw : fb.isDrawable = true) (hfit : RastersFit font size)
    {cells : Nat → Cell} (hinj : Function.Injective cells) {k i : Nat} {text : List Char} {ch : Char}
    (hx : x < fb.width) (hy : y < fb.height) (hch : text[i]? = some ch)
    (hcell : cells (k + i) = cellAt font size x y) :
    fb.readPixel (render font fb m (glyphCalls size cells k text)) x y =
      if inkAt font size ch x y ≠ 0 then shade WHITE (inkAt font size ch x y)
      else fb.readPixel m x y := by
  induction text generalizing m k i with
  | nil => cases hch
  | cons ch' text ih =>
    rw [glyphCalls, List.zipIdx_cons, List.map_cons, render_cons]
    cases i with
    | zero =>
      obtain rfl : ch' = ch := Option.some.inj hch
      have hrest : ∀ i, k + 1 ≤ i → i < k + 1 + text.length → cells i ≠ cellAt font size x y := by
        intro i hle _ heq
        have hsame := hinj (heq.trans hcell.symm)
        omega
      refine (readPixel_glyphs_outside hdraw hfit hx hy hrest).trans
        ((readPixel_drawText hdraw hfit ch' _ WHITE hx hy).trans ?_)
      simp only [hcell.symm, Nat.add_zero, true_and]
    | succ i =>
      have hother : cells k ≠ cellAt font size x y := by
        intro heq
        have hsame := hinj (heq.trans hcell.symm)
        omega
      have hnext : cells (k + 1 + i) = cellAt font size x y := by
        rw [← hcell, Nat.add_right_comm, Nat.add_assoc]
      refine (ih hch hnext).trans ?_
      have hkept := readPixel_drawText (m := m) hdraw hfit ch' (cells k) WHITE hx hy
      rw [if_neg fun h => hother h.1.symm] at hkept
      simp only [hkept]

end Rendering

/-! ### Cells of the screen -/

section Cells
variable (font : Font) (fb : Framebuffer) (size : RasterHeight) (m : ByteMemory)

def Blank (cell : Cell) : Prop :=
  ∀ x y, x < fb.width → y < fb.height → cellAt font size x y = cell → fb.readPixel m x y = BLACK

def ShowsOnly (cell : Cell) (ch : Char) : Prop :=
  ∀ x y, x < fb.width → y < fb.height → cellAt font size x y = cell →
    fb.readPixel m x y = shade WHITE (inkAt font size ch x y)

end Cells

end AgnostOS.Graphics
