import AgnostOS.Pixels
import AgnostOS.Library.SignedWord
import Mathlib.Algebra.Order.Ring.Abs
import Mathlib.Data.Int.Range
import Mathlib.Tactic.Ring
import Mathlib.Tactic.Linarith

/-! The filled shapes and the text of graphics/drawing.rs and graphics/text.rs: each
paints its visible pixels and nothing else. -/
namespace AgnostOS.Graphics
open Word

def diskPixels (fb : Framebuffer) (radius radiusSquared centerX centerY width height : Int) :
    List Nat :=
  (Int.range (-radius) (radius + 1)).flatMap fun deltaY =>
    (Int.range (-radius) (radius + 1)).filterMap fun deltaX =>
      match (SignedWord.checkedMul 64 deltaX deltaX).bind fun x =>
          (SignedWord.checkedMul 64 deltaY deltaY).bind fun y => SignedWord.checkedAdd 64 y x with
      | none => none
      | some distanceSquared =>
        match SignedWord.checkedAdd 64 centerX deltaX, SignedWord.checkedAdd 64 centerY deltaY with
        | some x, some y =>
          if distanceSquared ≤ radiusSquared ∧ 0 ≤ x ∧ 0 ≤ y ∧ x < width ∧ y < height then
            some (y.toNat * fb.stride.get + x.toNat)
          else none
        | _, _ => none

def drawCircle (fb : Framebuffer) (radius : Nat) (center : PixelCoord) (color : Color) :
    List (Nat × Color) :=
  if fb.isDrawable then
    match SignedWord.tryFrom 64 radius, SignedWord.tryFrom 64 center.x,
        SignedWord.tryFrom 64 center.y, SignedWord.tryFrom 64 fb.width,
        SignedWord.tryFrom 64 fb.height with
    | some radius, some centerX, some centerY, some width, some height =>
      match SignedWord.checkedMul 64 radius radius with
      | none => []
      | some radiusSquared =>
        (diskPixels fb radius radiusSquared centerX centerY width height).map fun pixel =>
          (pixel, color)
    | _, _, _, _, _ => []
  else []

variable {fb : Framebuffer}

/-! ### Rectangles -/

theorem mem_rectangle {x y x1 y1 x2 y2 : Nat} (hx : x < fb.stride.get) (hx2 : x2 ≤ fb.stride.get) :
    y * fb.stride.get + x ∈ rectangle fb x1 y1 x2 y2 ↔ (x1 ≤ x ∧ x < x2) ∧ y1 ≤ y ∧ y < y2 := by
  rw [rectangle, List.mem_flatMap]
  constructor
  · intro hmem
    obtain ⟨row, hrow, hcol⟩ := hmem
    obtain ⟨col, hcol, hpixel⟩ := List.mem_map.mp hcol
    rw [List.mem_range'_1] at hrow hcol
    have hsame := Framebuffer.pixel_inj (by omega) hx hpixel
    omega
  · intro hin
    refine ⟨y, List.mem_range'_1.mpr (by omega), List.mem_map.mpr ⟨x, ?_, rfl⟩⟩
    exact List.mem_range'_1.mpr (by omega)

theorem visible_of_mem_rectangle {pixel x1 y1 x2 y2 : Nat} (hx2 : x2 ≤ fb.width)
    (hy2 : y2 ≤ fb.height) (h : pixel ∈ rectangle fb x1 y1 x2 y2) : fb.Visible pixel := by
  obtain ⟨row, hrow, hcol⟩ := List.mem_flatMap.mp h
  obtain ⟨col, hcol, hpixel⟩ := List.mem_map.mp hcol
  rw [List.mem_range'_1] at hrow hcol
  exact ⟨col, row, by omega, by omega, hpixel.symm⟩

structure PaintsVisible (fb : Framebuffer) (m : ByteMemory) (writes : List (Nat × Color))
    (shown : Nat → Nat → Option Color) : Prop where
  inside : ∀ write ∈ writes, fb.Visible write.1 ∧ fb.Holds write.1
  paints : fb.Paints m (fb.paint m writes) shown

theorem paintsVisible_of_writes (hdraw : fb.isDrawable = true) {writes : List (Nat × Color)}
    {shown : Nat → Nat → Option Color} (hvisible : ∀ write ∈ writes, fb.Visible write.1)
    (hlast : ∀ x y, x < fb.width → y < fb.height →
      Writes.last writes (y * fb.stride.get + x) = shown x y) (m : ByteMemory) :
    PaintsVisible fb m writes shown :=
  ⟨fun write hwrite => ⟨hvisible write hwrite, (hvisible write hwrite).holds⟩,
    Framebuffer.paints_of_writes hdraw hvisible hlast m⟩

/-- Writes of one colour set the pixels that they reach. -/
theorem paintsVisible_const (hdraw : fb.isDrawable = true) {pixels : List Nat}
    {P : Nat → Nat → Prop} [∀ x y, Decidable (P x y)] (hvisible : ∀ pixel ∈ pixels, fb.Visible pixel)
    (hmem : ∀ x y, x < fb.width → y < fb.height → (y * fb.stride.get + x ∈ pixels ↔ P x y))
    (color : Color) (m : ByteMemory) :
    PaintsVisible fb m (pixels.map fun pixel => (pixel, color))
      (fun x y => if P x y then some color else none) := by
  apply paintsVisible_of_writes hdraw
  · intro write hwrite
    obtain ⟨pixel, hpixel, heq⟩ := List.mem_map.mp hwrite
    rw [← heq]
    exact hvisible pixel hpixel
  · intro x y hx hy
    rw [Writes.last_const]
    by_cases hin : P x y
    · rw [if_pos hin, if_pos ((hmem x y hx hy).mpr hin)]
    · rw [if_neg hin, if_neg (mt (hmem x y hx hy).mp hin)]

theorem clearBackground_paints (hdraw : fb.isDrawable = true) (color : Color) (m : ByteMemory) :
    PaintsVisible fb m (clearBackground fb color) fun _ _ => some color := by
  rw [clearBackground, if_pos hdraw]
  have hwidth : fb.width ≤ fb.stride.get := Framebuffer.width_le_stride
  have hmem : ∀ x y, x < fb.width → y < fb.height →
      (y * fb.stride.get + x ∈ rectangle fb 0 0 fb.width fb.height ↔ True) := by
    intro x y hx hy
    rw [mem_rectangle (lt_of_lt_of_le hx hwidth) hwidth]
    simp [hx, hy]
  have hall := paintsVisible_const hdraw
    (fun pixel hpixel => visible_of_mem_rectangle le_rfl le_rfl hpixel) hmem color m
  simpa only [if_true] using hall

def InRec (fb : Framebuffer) (origin : PixelCoord) (size : PixelSize) (x y : Nat) : Prop :=
  (origin.x + size.width ≤ fb.width ∧ origin.y + size.height ≤ fb.height) ∧
    (origin.x ≤ x ∧ x < origin.x + size.width) ∧ origin.y ≤ y ∧ y < origin.y + size.height

instance (fb : Framebuffer) (origin : PixelCoord) (size : PixelSize) (x y : Nat) :
    Decidable (InRec fb origin size x y) := inferInstanceAs (Decidable ((_ ∧ _) ∧ _))

/-- The sizes of a mapping are a quarter of the address range at most. -/
theorem size_lt : fb.width < 2 ^ 62 ∧ fb.height < 2 ^ 62 := by
  have hrows : fb.stride.get * fb.height * 4 < 2 ^ 64 := Framebuffer.rows_covered.2
  have hwidth : fb.width ≤ fb.stride.get := Framebuffer.width_le_stride
  have hheight : fb.stride.get ≤ fb.stride.get * fb.height :=
    Nat.le_mul_of_pos_right _ fb.size.height_pos
  have hstride : fb.height ≤ fb.stride.get * fb.height :=
    Nat.le_mul_of_pos_left _ fb.stride.pos
  omega

theorem drawRec_paints (hdraw : fb.isDrawable = true) (origin : PixelCoord) (size : PixelSize)
    (color : Color) (m : ByteMemory) :
    PaintsVisible fb m (drawRec fb origin size color)
      fun x y => if InRec fb origin size x y then some color else none := by
  have hsize : fb.width < 2 ^ 62 ∧ fb.height < 2 ^ 62 := size_lt
  have hwidth : fb.width ≤ fb.stride.get := Framebuffer.width_le_stride
  by_cases hfits : origin.x + size.width ≤ fb.width ∧ origin.y + size.height ≤ fb.height
  · have hx2 : checkedAdd 64 origin.x size.width = some (origin.x + size.width) := by
      rw [checkedAdd_eq_some]
      omega
    have hy2 : checkedAdd 64 origin.y size.height = some (origin.y + size.height) := by
      rw [checkedAdd_eq_some]
      omega
    rw [drawRec, if_pos hdraw, hx2, hy2]
    simp only
    rw [if_neg (by omega)]
    apply paintsVisible_const hdraw
    · intro pixel hpixel
      exact visible_of_mem_rectangle hfits.1 hfits.2 hpixel
    · intro x y hx hy
      rw [mem_rectangle (lt_of_lt_of_le hx hwidth) (hfits.1.trans hwidth), InRec]
      simp [hfits]
  · have hnothing : drawRec fb origin size color = [] := by
      rw [drawRec, if_pos hdraw]
      split
      · next x2 y2 hx2 hy2 =>
        rw [checkedAdd_eq_some] at hx2 hy2
        rw [if_pos (by omega)]
      · rfl
    rw [hnothing]
    apply paintsVisible_of_writes hdraw
    · simp
    · intro x y hx hy
      rw [if_neg fun hin => hfits hin.1]
      rfl

/-! ### Disks -/

def InDisk (radius : Nat) (center : PixelCoord) (x y : Nat) : Prop :=
  ((x : Int) - center.x) ^ 2 + ((y : Int) - center.y) ^ 2 ≤ (radius : Int) ^ 2

instance (radius : Nat) (center : PixelCoord) (x y : Nat) : Decidable (InDisk radius center x y) :=
  inferInstanceAs (Decidable (_ ≤ _))

variable {radius : Nat} {center : PixelCoord}

theorem InDisk.near {x y : Nat} (h : InDisk radius center x y) :
    (-(radius : Int) ≤ (x : Int) - center.x ∧ (x : Int) - center.x ≤ radius) ∧
      -(radius : Int) ≤ (y : Int) - center.y ∧ (y : Int) - center.y ≤ radius := by
  rw [InDisk] at h
  have hx := abs_le_of_sq_le_sq' (a := (x : Int) - center.x) (b := radius)
    (by linarith [sq_nonneg ((y : Int) - center.y)]) (by omega)
  have hy := abs_le_of_sq_le_sq' (a := (y : Int) - center.y) (b := radius)
    (by linarith [sq_nonneg ((x : Int) - center.x)]) (by omega)
  exact ⟨hx, hy⟩

theorem visible_of_mem_diskPixels {pixel : Nat} {radius radiusSquared centerX centerY : Int}
    (h : pixel ∈ diskPixels fb radius radiusSquared centerX centerY fb.width fb.height) :
    fb.Visible pixel := by
  obtain ⟨deltaY, -, hrow⟩ := List.mem_flatMap.mp h
  obtain ⟨deltaX, -, hcol⟩ := List.mem_filterMap.mp hrow
  split at hcol
  · cases hcol
  · split at hcol
    · next x y hx hy =>
      split at hcol
      · next hin => exact ⟨x.toNat, y.toNat, by omega, by omega, (Option.some.inj hcol).symm⟩
      · cases hcol
    · cases hcol

theorem mem_diskPixels (hradius : radius * radius < 2 ^ 63) {x y : Nat} (hx : x < fb.width)
    (hy : y < fb.height) : y * fb.stride.get + x ∈ diskPixels fb radius (radius * radius) center.x
      center.y fb.width fb.height ↔ InDisk radius center x y := by
  have hwidth : fb.width ≤ fb.stride.get := Framebuffer.width_le_stride
  have hsize : fb.width < 2 ^ 62 ∧ fb.height < 2 ^ 62 := size_lt
  have hradius' : (radius : Int) * radius < 2 ^ 63 := by exact_mod_cast hradius
  rw [diskPixels, List.mem_flatMap]
  constructor
  · intro hmem
    obtain ⟨deltaY, -, hrow⟩ := hmem
    obtain ⟨deltaX, -, hcol⟩ := List.mem_filterMap.mp hrow
    split at hcol
    · cases hcol
    · next distance hdistance =>
      split at hcol
      · next x' y' hx' hy' =>
        split at hcol
        · next hin =>
          have hsame := Framebuffer.pixel_inj (by omega) (lt_of_lt_of_le hx hwidth)
            (Option.some.inj hcol)
          simp only [Option.bind_eq_some_iff, SignedWord.checkedMul, SignedWord.checkedAdd,
            SignedWord.checked_eq_some] at hdistance hx' hy'
          obtain ⟨dx, ⟨-, rfl⟩, dy, ⟨-, rfl⟩, -, rfl⟩ := hdistance
          have hdx : deltaX = (x : Int) - center.x := by omega
          have hdy : deltaY = (y : Int) - center.y := by omega
          rw [InDisk, ← hdx, ← hdy]
          linarith [hin.1]
        · cases hcol
      · cases hcol
  · intro hin
    have hnear := hin.near
    rw [InDisk] at hin
    have hdx : 0 ≤ ((x : Int) - center.x) ^ 2 := sq_nonneg _
    have hdy : 0 ≤ ((y : Int) - center.y) ^ 2 := sq_nonneg _
    have hfitsX : SignedWord.Fits 64 (((x : Int) - center.x) * ((x : Int) - center.x)) :=
      SignedWord.fits_of_lt (mul_self_nonneg _) (by norm_num; linarith)
    have hfitsY : SignedWord.Fits 64 (((y : Int) - center.y) * ((y : Int) - center.y)) :=
      SignedWord.fits_of_lt (mul_self_nonneg _) (by norm_num; linarith)
    have hfits : SignedWord.Fits 64 (((y : Int) - center.y) * ((y : Int) - center.y) +
        ((x : Int) - center.x) * ((x : Int) - center.x)) :=
      SignedWord.fits_of_lt (add_nonneg (mul_self_nonneg _) (mul_self_nonneg _))
        (by norm_num; linarith)
    have hatX : SignedWord.checkedAdd 64 (center.x : Int) ((x : Int) - center.x) = some (x : Int) := by
      rw [SignedWord.checkedAdd, SignedWord.checked_eq_some, SignedWord.Fits]
      omega
    have hatY : SignedWord.checkedAdd 64 (center.y : Int) ((y : Int) - center.y) = some (y : Int) := by
      rw [SignedWord.checkedAdd, SignedWord.checked_eq_some, SignedWord.Fits]
      omega
    refine ⟨(y : Int) - center.y, Int.mem_range_iff.mpr (by omega), List.mem_filterMap.mpr
      ⟨(x : Int) - center.x, Int.mem_range_iff.mpr (by omega), ?_⟩⟩
    simp only [SignedWord.checkedMul, SignedWord.checked_of_fits hfitsX,
      SignedWord.checked_of_fits hfitsY, Option.bind_some, hatX, hatY]
    rw [SignedWord.checkedAdd, SignedWord.checked_of_fits hfits]
    simp only
    rw [if_pos ⟨by linarith, by omega, by omega, by omega, by omega⟩]
    simp

theorem drawCircle_paints (hdraw : fb.isDrawable = true) (hradius : radius * radius < 2 ^ 63)
    (center : PixelCoord) (color : Color) (m : ByteMemory) :
    PaintsVisible fb m (drawCircle fb radius center color)
      fun x y => if InDisk radius center x y then some color else none := by
  have hsize : fb.width < 2 ^ 62 ∧ fb.height < 2 ^ 62 := size_lt
  have hsmall : radius < 2 ^ 32 := by
    by_contra hlarge
    have hsquare := Nat.mul_le_mul (Nat.le_of_not_lt hlarge) (Nat.le_of_not_lt hlarge)
    omega
  have hsquared : SignedWord.checkedMul 64 (radius : Int) radius = some ((radius : Int) * radius) := by
    have hcast : (radius : Int) * radius < 2 ^ 63 := by exact_mod_cast hradius
    have hpos : 0 ≤ (radius : Int) * radius := mul_self_nonneg _
    exact SignedWord.checked_of_fits (SignedWord.fits_of_lt hpos hcast)
  rw [drawCircle, if_pos hdraw]
  split
  · next r centerX centerY width height hr hcenterX hcenterY hw hh =>
    obtain ⟨-, rfl⟩ := SignedWord.tryFrom_eq_some.mp hr
    obtain ⟨-, rfl⟩ := SignedWord.tryFrom_eq_some.mp hcenterX
    obtain ⟨-, rfl⟩ := SignedWord.tryFrom_eq_some.mp hcenterY
    obtain ⟨-, rfl⟩ := SignedWord.tryFrom_eq_some.mp hw
    obtain ⟨-, rfl⟩ := SignedWord.tryFrom_eq_some.mp hh
    rw [hsquared]
    apply paintsVisible_const hdraw
    · intro pixel hpixel
      exact visible_of_mem_diskPixels hpixel
    · intro x y hx hy
      exact mem_diskPixels hradius hx hy
  · next hfails =>
    -- a centre beyond the signed range is further than the radius from the screen
    have hcenter : ¬ (center.x < 2 ^ 63 ∧ center.y < 2 ^ 63) := by
      intro hlt
      exact hfails _ _ _ _ _ (SignedWord.tryFrom_of_lt (by omega))
        (SignedWord.tryFrom_of_lt (by omega)) (SignedWord.tryFrom_of_lt (by omega))
        (SignedWord.tryFrom_of_lt (by omega)) (SignedWord.tryFrom_of_lt (by omega))
    apply paintsVisible_of_writes hdraw
    · simp
    · intro x y hx hy
      rw [if_neg]
      · rfl
      · intro hin
        have hnear := hin.near
        omega

/-! ### Text -/

theorem visible_of_mem_drawGlyph {raster : RasterizedChar} {originX originY : Nat} {color : Color}
    {write : Nat × Color} (h : write ∈ drawGlyph fb raster originX originY color) :
    fb.Visible write.1 := by
  obtain ⟨⟨rowData, row⟩, -, hrow⟩ := List.mem_flatMap.mp h
  obtain ⟨⟨intensity, col⟩, -, hcol⟩ := List.mem_filterMap.mp hrow
  dsimp only at hcol
  split at hcol
  · cases hcol
  · split at hcol
    · next x y hx hy =>
      split at hcol
      · cases hcol
      · next hin =>
        rw [← Option.some.inj hcol]
        exact ⟨x, y, by omega, by omega, rfl⟩
    · cases hcol

theorem visible_of_mem_drawChars {font : Font} {originY : Nat} {color : Color}
    {fontHeight : RasterHeight} {write : Nat × Color} (text : List Char) (cursorX : Nat)
    (h : write ∈ drawChars font fb originY color fontHeight cursorX text) :
    fb.Visible write.1 := by
  induction text generalizing cursorX with
  | nil => cases h
  | cons ch text ih =>
    rw [drawChars] at h
    split at h
    · cases h
    · split at h
      · exact ih cursorX h
      · cases List.mem_append.mp h with
        | inl hglyph => exact visible_of_mem_drawGlyph hglyph
        | inr hrest =>
          split at hrest
          · cases hrest
          · exact ih _ hrest

theorem drawText_paints (hdraw : fb.isDrawable = true) (font : Font) (text : List Char)
    (column row : Nat) (color : Color) (fontHeight : Option RasterHeight) (m : ByteMemory) :
    PaintsVisible fb m (drawText font fb text column row color fontHeight) fun x y =>
      Writes.last (drawText font fb text column row color fontHeight) (y * fb.stride.get + x) := by
  apply paintsVisible_of_writes hdraw
  · intro write hwrite
    rw [drawText, if_pos hdraw] at hwrite
    exact visible_of_mem_drawChars text _ hwrite
  · intro x y hx hy
    rfl

/-- Every primitive sets exactly its pixels on the screen, and every index that it computes
addresses a whole pixel inside the mapping. -/
theorem primitives_paint_visible {ptr byteLen : Nat} {size : PixelSize} {stride : Stride}
    {format : PixelFormat}
    (haccepted : Framebuffer.fromRawParts ptr byteLen size stride format = .ok fb) (hptr : ptr ≠ 0)
    (m : ByteMemory) (color : Color) :
    PaintsVisible fb m (clearBackground fb color) (fun _ _ => some color) ∧
    (∀ origin size, PaintsVisible fb m (drawRec fb origin size color)
      fun x y => if InRec fb origin size x y then some color else none) ∧
    (∀ radius center, radius * radius < 2 ^ 63 →
      PaintsVisible fb m (drawCircle fb radius center color)
        fun x y => if InDisk radius center x y then some color else none) ∧
    ∀ font text column row fontHeight,
      column * cellWidth font (fontHeight.getD FONT_HEIGHT) < 2 ^ 64 →
      row * cellHeight (fontHeight.getD FONT_HEIGHT) < 2 ^ 64 →
      PaintsVisible fb m (drawText font fb text column row color fontHeight) fun x y =>
        Writes.last (drawText font fb text column row color fontHeight) (y * fb.stride.get + x) := by
  have hdraw : fb.isDrawable = true := Framebuffer.isDrawable_of_ok haccepted hptr
  refine ⟨clearBackground_paints hdraw color m, fun origin size => drawRec_paints hdraw origin size
    color m, fun radius center hradius => drawCircle_paints hdraw hradius center color m, ?_⟩
  intro font text column row fontHeight _ _
  exact drawText_paints hdraw font text column row color fontHeight m

/-- A disk over a corner of a display. -/
theorem disk_on_small_display :
    PaintsVisible smallDisplay (fun _ => 0) (drawCircle smallDisplay 3 ⟨1, 1⟩ WHITE)
      fun x y => if InDisk 3 ⟨1, 1⟩ x y then some WHITE else none := by
  have happly := primitives_paint_visible Framebuffer.smallDisplay_accepted (by decide) (fun _ => 0) WHITE
  exact happly.2.2.1 3 ⟨1, 1⟩ (by decide)

end AgnostOS.Graphics
