import AgnostOS.Library.ByteMemory
import AgnostOS.Library.Word

/-! Framebuffer and drawing of graphics/framebuffer.rs, graphics/drawing.rs and
graphics/text.rs. The mapping is a memory of bytes addressed from its first byte. -/
namespace AgnostOS.Graphics
open Word

structure Color where
  r : UInt8
  g : UInt8
  b : UInt8
  deriving DecidableEq, Repr

abbrev WHITE : Color := ⟨255, 255, 255⟩
abbrev BLACK : Color := ⟨0, 0, 0⟩

inductive PixelFormat where
  | rgb | bgr | bitmask | bltOnly
  deriving DecidableEq, Repr

structure PixelSize where
  width : Nat
  height : Nat
  width_pos : 0 < width
  height_pos : 0 < height

structure Stride where
  get : Nat
  pos : 0 < get

inductive FramebufferError where
  | unsupportedPixelFormat (format : PixelFormat)
  | invalidGeometry
  | framebufferTooSmall (required actual : Nat)
  deriving DecidableEq, Repr

def requiredByteLen (size : PixelSize) (stride : Stride) : Option Nat :=
  if size.width > stride.get then none
  else (checkedMul 64 stride.get size.height).bind fun pixels => checkedMul 64 pixels 4

/-- A mapping that `from_raw_parts` accepted. -/
structure Framebuffer where
  ptr : Nat
  size : PixelSize
  stride : Stride
  pixelFormat : PixelFormat
  byteLen : Nat
  supported : pixelFormat = .rgb ∨ pixelFormat = .bgr
  covered : ∃ required ∈ requiredByteLen size stride, required ≤ byteLen

namespace Framebuffer

def fromRawParts (ptr byteLen : Nat) (size : PixelSize) (stride : Stride)
    (pixelFormat : PixelFormat) : Except FramebufferError Framebuffer :=
  if hformat : pixelFormat = .rgb ∨ pixelFormat = .bgr then
    match hrequired : requiredByteLen size stride with
    | none => .error .invalidGeometry
    | some required =>
      if hlen : byteLen < required then .error (.framebufferTooSmall required byteLen)
      else .ok {
        ptr, size, stride, pixelFormat, byteLen
        supported := hformat
        covered := ⟨required, hrequired, Nat.le_of_not_lt hlen⟩ }
  else .error (.unsupportedPixelFormat pixelFormat)

def width (fb : Framebuffer) : Nat := fb.size.width
def height (fb : Framebuffer) : Nat := fb.size.height

def isDrawable (fb : Framebuffer) : Bool :=
  fb.ptr ≠ 0 ∧ (fb.pixelFormat = .rgb ∨ fb.pixelFormat = .bgr) ∧
    ∃ required ∈ requiredByteLen fb.size fb.stride, required ≤ fb.byteLen

def encode : PixelFormat → Color → Option (UInt8 × UInt8 × UInt8)
  | .rgb, c => some (c.r, c.g, c.b)
  | .bgr, c => some (c.b, c.g, c.r)
  | _, _ => none

def decode : PixelFormat → UInt8 → UInt8 → UInt8 → Color
  | .rgb, first, second, third => ⟨first, second, third⟩
  | .bgr, first, second, third => ⟨third, second, first⟩
  | _, _, _, _ => BLACK

def readPixel (fb : Framebuffer) (m : ByteMemory) (x y : Nat) : Color :=
  if fb.isDrawable = false ∨ x ≥ fb.width ∨ y ≥ fb.height then BLACK
  else
    match (checkedMul 64 y fb.stride.get).bind fun row =>
        (checkedAdd 64 row x).bind fun pixel => checkedMul 64 pixel 4 with
    | none => BLACK
    | some offset =>
      match checkedAdd 64 offset 4 with
      | none => BLACK
      | some stop =>
        if stop > fb.byteLen then BLACK
        else decode fb.pixelFormat (m offset) (m (offset + 1)) (m (offset + 2))

def writePixel (fb : Framebuffer) (m : ByteMemory) (pixelIndex : Nat) (color : Color) :
    Bool × ByteMemory :=
  match encode fb.pixelFormat color with
  | none => (false, m)
  | some (first, second, third) =>
    match checkedMul 64 pixelIndex 4 with
    | none => (false, m)
    | some offset =>
      match checkedAdd 64 offset 4 with
      | none => (false, m)
      | some stop =>
        if stop > fb.byteLen then (false, m)
        else (true, Function.update (Function.update (Function.update m offset first)
          (offset + 1) second) (offset + 2) third)

def paint (fb : Framebuffer) (m : ByteMemory) (writes : List (Nat × Color)) : ByteMemory :=
  writes.foldl (fun m write => (fb.writePixel m write.1 write.2).2) m

def scrollRows (fb : Framebuffer) (m : ByteMemory) (rows : Nat) : ByteMemory :=
  if fb.isDrawable = false ∨ rows = 0 then m
  else
    let rowBytes := fb.stride.get * 4
    if rows ≥ fb.height then fun a => if a < fb.stride.get * fb.height * 4 then 0 else m a
    else
      let movedBytes := (fb.height - rows) * rowBytes
      let clearedBytes := rows * rowBytes
      fun a =>
        if a < movedBytes then m (a + rows * rowBytes)
        else if a < movedBytes + clearedBytes then 0
        else m a

end Framebuffer

/-! ### Drawing -/

structure PixelCoord where
  x : Nat
  y : Nat
  deriving DecidableEq, Repr

inductive RasterHeight where
  | size16 | size20 | size24 | size32
  deriving DecidableEq, Repr

abbrev FONT_HEIGHT : RasterHeight := .size16

structure RasterizedChar where
  raster : List (List UInt8)
  width : Nat

/-- The bitmap font crate, in the one weight that the kernel uses. -/
structure Font where
  rasterWidth : RasterHeight → Nat
  rasterWidth_pos : ∀ size, 0 < rasterWidth size
  getRaster : Char → RasterHeight → Option RasterizedChar

def cellWidth (font : Font) (size : RasterHeight) : Nat := font.rasterWidth size

def cellHeight (size : RasterHeight) : Nat :=
  (match size with
    | .size16 => 16
    | .size20 => 20
    | .size24 => 24
    | .size32 => 32) + 2

def rectangle (fb : Framebuffer) (x y x2 y2 : Nat) : List Nat :=
  (List.range' y (y2 - y)).flatMap fun row =>
    (List.range' x (x2 - x)).map fun col => row * fb.stride.get + col

def clearBackground (fb : Framebuffer) (color : Color) : List (Nat × Color) :=
  if fb.isDrawable then
    (rectangle fb 0 0 fb.width fb.height).map fun pixel => (pixel, color)
  else []

def drawRec (fb : Framebuffer) (origin : PixelCoord) (size : PixelSize) (color : Color) :
    List (Nat × Color) :=
  if fb.isDrawable then
    match checkedAdd 64 origin.x size.width, checkedAdd 64 origin.y size.height with
    | some x2, some y2 =>
      if x2 > fb.width ∨ y2 > fb.height then []
      else (rectangle fb origin.x origin.y x2 y2).map fun pixel => (pixel, color)
    | _, _ => []
  else []

def blend (channel intensity : UInt8) : UInt8 :=
  UInt8.ofNat (channel.toNat * intensity.toNat / 255)

def drawGlyph (fb : Framebuffer) (raster : RasterizedChar) (originX originY : Nat)
    (color : Color) : List (Nat × Color) :=
  raster.raster.zipIdx.flatMap fun (rowData, row) =>
    rowData.zipIdx.filterMap fun (intensity, col) =>
      if intensity = 0 then none
      else
        match checkedAdd 64 originX col, checkedAdd 64 originY row with
        | some x, some y =>
          if x ≥ fb.width ∨ y ≥ fb.height then none
          else some (y * fb.stride.get + x,
            ⟨blend color.r intensity, blend color.g intensity, blend color.b intensity⟩)
        | _, _ => none

def drawChars (font : Font) (fb : Framebuffer) (originY : Nat) (color : Color)
    (fontHeight : RasterHeight) : Nat → List Char → List (Nat × Color)
  | _, [] => []
  | cursorX, ch :: rest =>
    if ch = '\n' then []
    else
      match (font.getRaster ch fontHeight).or (font.getRaster '?' FONT_HEIGHT) with
      | none => drawChars font fb originY color fontHeight cursorX rest
      | some raster =>
        drawGlyph fb raster cursorX originY color ++
          match checkedAdd 64 cursorX raster.width with
          | none => []
          | some nextX => drawChars font fb originY color fontHeight nextX rest

def drawText (font : Font) (fb : Framebuffer) (text : List Char) (column row : Nat)
    (color : Color) (fontHeight : Option RasterHeight) : List (Nat × Color) :=
  if fb.isDrawable then
    let fontHeight := fontHeight.getD FONT_HEIGHT
    drawChars font fb (row * cellHeight fontHeight) color fontHeight
      (column * cellWidth font fontHeight) text
  else []

inductive DrawOp where
  | clearBackground (color : Color)
  | drawRec (origin : PixelCoord) (size : PixelSize) (color : Color)
  | drawText (text : List Char) (column row : Nat) (color : Color)
      (fontHeight : Option RasterHeight)
  | scrollUp (rows : Nat)

def DrawOp.writes (font : Font) (fb : Framebuffer) : DrawOp → List (Nat × Color)
  | .clearBackground color => Graphics.clearBackground fb color
  | .drawRec origin size color => Graphics.drawRec fb origin size color
  | .drawText text column row color fontHeight =>
    Graphics.drawText font fb text column row color fontHeight
  | .scrollUp _ => []

def DrawOp.apply (font : Font) (fb : Framebuffer) (m : ByteMemory) : DrawOp → ByteMemory
  | .scrollUp rows => fb.scrollRows m rows
  | op => fb.paint m (op.writes font fb)

/-! ### What a loop of pixel writes changes -/

namespace Framebuffer
variable {fb : Framebuffer} {m m' : ByteMemory} {a : Nat}

def InPixel (pixel a : Nat) : Prop := 4 * pixel ≤ a ∧ a < 4 * pixel + 3

def Holds (fb : Framebuffer) (pixel : Nat) : Prop :=
  4 * pixel + 4 ≤ fb.byteLen ∧ 4 * pixel + 4 < 2 ^ 64

theorem writePixel_cases (fb : Framebuffer) (m : ByteMemory) (pixel : Nat) (color : Color) :
    (fb.writePixel m pixel color).2 = m ∨
    ∃ first second third, encode fb.pixelFormat color = some (first, second, third) ∧
      (fb.writePixel m pixel color).2 = Function.update (Function.update (Function.update m
        (4 * pixel) first) (4 * pixel + 1) second) (4 * pixel + 2) third := by
  rw [writePixel]
  split
  · exact .inl rfl
  · next first second third hencode =>
    split
    · exact .inl rfl
    · next offset hoffset =>
      obtain rfl : 4 * pixel = offset := by
        rw [mul_comm]
        exact (checkedMul_eq_some.mp hoffset).2
      split
      · exact .inl rfl
      · split
        · exact .inl rfl
        · exact .inr ⟨first, second, third, hencode, rfl⟩

theorem writePixel_of_holds {pixel : Nat} (hholds : fb.Holds pixel) (m : ByteMemory)
    {color : Color} {first second third : UInt8}
    (hencode : encode fb.pixelFormat color = some (first, second, third)) :
    (fb.writePixel m pixel color).2 = Function.update (Function.update (Function.update m
      (4 * pixel) first) (4 * pixel + 1) second) (4 * pixel + 2) third := by
  have hoffset : checkedMul 64 pixel 4 = some (4 * pixel) := by
    have hlt := hholds.2
    rw [checkedMul_eq_some]
    omega
  have hstop : checkedAdd 64 (4 * pixel) 4 = some (4 * pixel + 4) := by
    rw [checkedAdd_eq_some]
    exact ⟨hholds.2, rfl⟩
  rw [writePixel, hencode]
  simp only [hoffset, hstop, if_neg (Nat.not_lt.mpr hholds.1)]

theorem writePixel_outside {pixel : Nat} (m : ByteMemory) (color : Color)
    (h : ¬ InPixel pixel a) : (fb.writePixel m pixel color).2 a = m a := by
  cases fb.writePixel_cases m pixel color with
  | inl hsame => rw [hsame]
  | inr hwrite =>
    obtain ⟨first, second, third, -, hwrite⟩ := hwrite
    simp only [InPixel] at h
    rw [hwrite, Function.update_of_ne (by omega), Function.update_of_ne (by omega),
      Function.update_of_ne (by omega)]

theorem writePixel_congr (pixel : Nat) (color : Color) (h : m a = m' a) :
    (fb.writePixel m pixel color).2 a = (fb.writePixel m' pixel color).2 a := by
  simp only [writePixel]
  split
  · exact h
  · split
    · exact h
    · split
      · exact h
      · split
        · exact h
        · simp only [Function.update_apply, h]

theorem paint_cons (m : ByteMemory) (write : Nat × Color) (writes : List (Nat × Color)) :
    fb.paint m (write :: writes) = fb.paint (fb.writePixel m write.1 write.2).2 writes := rfl

theorem paint_outside {writes : List (Nat × Color)} (m : ByteMemory)
    (h : ∀ write ∈ writes, ¬ InPixel write.1 a) : fb.paint m writes a = m a := by
  induction writes generalizing m with
  | nil => rfl
  | cons write writes ih =>
    rw [paint_cons, ih _ fun w hw => h w (List.mem_cons_of_mem write hw)]
    exact writePixel_outside m write.2 (h write List.mem_cons_self)

theorem paint_congr (writes : List (Nat × Color)) (h : m a = m' a) :
    fb.paint m writes a = fb.paint m' writes a := by
  induction writes generalizing m m' with
  | nil => exact h
  | cons write writes ih => exact ih (writePixel_congr write.1 write.2 h)

def colorAt (fb : Framebuffer) (m : ByteMemory) (pixel : Nat) : Color :=
  decode fb.pixelFormat (m (4 * pixel)) (m (4 * pixel + 1)) (m (4 * pixel + 2))

theorem encode_colorAt (fb : Framebuffer) (m : ByteMemory) (pixel : Nat) :
    encode fb.pixelFormat (fb.colorAt m pixel) =
      some (m (4 * pixel), m (4 * pixel + 1), m (4 * pixel + 2)) := by
  cases fb.supported with
  | inl hrgb => simp [colorAt, encode, decode, hrgb]
  | inr hbgr => simp [colorAt, encode, decode, hbgr]

theorem colorAt_congr {pixel : Nat} (h : ∀ a, InPixel pixel a → m a = m' a) :
    fb.colorAt m pixel = fb.colorAt m' pixel := by
  rw [colorAt, colorAt, h _ ⟨by omega, by omega⟩, h (4 * pixel + 1) ⟨by omega, by omega⟩,
    h (4 * pixel + 2) ⟨by omega, by omega⟩]

/-- Writing a colour back over a pixel restores the bytes it was read from. -/
theorem writePixel_colorAt {pixel : Nat} (hholds : fb.Holds pixel) (ha : InPixel pixel a) :
    (fb.writePixel m pixel (fb.colorAt m' pixel)).2 a = m' a := by
  rw [writePixel_of_holds hholds m (encode_colorAt fb m' pixel)]
  obtain ⟨hlo, hhi⟩ := ha
  by_cases hthird : a = 4 * pixel + 2
  · rw [hthird, Function.update_self]
  · rw [Function.update_of_ne hthird]
    by_cases hsecond : a = 4 * pixel + 1
    · rw [hsecond, Function.update_self]
    · obtain rfl : a = 4 * pixel := by omega
      rw [Function.update_of_ne hsecond, Function.update_self]

/-- Restoring some pixels of `m'` over `m`, where the two agree elsewhere. -/
theorem paint_restore {pixels : List Nat} (hholds : ∀ pixel ∈ pixels, fb.Holds pixel)
    (h : (∀ pixel ∈ pixels, ¬ InPixel pixel a) → m a = m' a) :
    fb.paint m (pixels.map fun pixel => (pixel, fb.colorAt m' pixel)) a = m' a := by
  induction pixels generalizing m with
  | nil => exact h (by simp)
  | cons pixel pixels ih =>
    rw [List.map_cons, paint_cons]
    apply ih fun p hp => hholds p (List.mem_cons_of_mem pixel hp)
    intro hrest
    by_cases hin : InPixel pixel a
    · exact writePixel_colorAt (hholds pixel List.mem_cons_self) hin
    · rw [writePixel_outside m _ hin]
      apply h
      intro p hp
      cases List.mem_cons.mp hp with
      | inl heq => exact heq ▸ hin
      | inr hmem => exact hrest p hmem

theorem width_le_stride : fb.width ≤ fb.stride.get := by
  obtain ⟨required, hrequired, -⟩ := fb.covered
  rw [requiredByteLen] at hrequired
  split at hrequired
  · cases hrequired
  · next hstride => exact Nat.le_of_not_lt hstride

/-- A visible pixel lies inside the mapping, and `read_pixel` shows its colour. -/
theorem holds_of_visible {x y : Nat} (hx : x < fb.width) (hy : y < fb.height) :
    fb.Holds (y * fb.stride.get + x) := by
  obtain ⟨required, hrequired, hle⟩ := fb.covered
  rw [requiredByteLen] at hrequired
  split at hrequired
  · cases hrequired
  · next hstride =>
    obtain ⟨pixels, hpixels, hbytes⟩ := Option.bind_eq_some_iff.mp hrequired
    obtain ⟨-, rfl⟩ := checkedMul_eq_some.mp hpixels
    obtain ⟨hlt, rfl⟩ := checkedMul_eq_some.mp hbytes
    have hrow : y * fb.stride.get + x < fb.stride.get * fb.size.height := by
      have hy' : (y + 1) * fb.stride.get ≤ fb.size.height * fb.stride.get :=
        Nat.mul_le_mul_right _ hy
      rw [Nat.add_mul, one_mul] at hy'
      have hx' : x < fb.stride.get := lt_of_lt_of_le hx (Nat.le_of_not_lt hstride)
      rw [Nat.mul_comm fb.stride.get]
      omega
    exact ⟨by omega, by omega⟩

theorem readPixel_of_visible {x y : Nat} (hdraw : fb.isDrawable = true) (hx : x < fb.width)
    (hy : y < fb.height) (m : ByteMemory) :
    fb.readPixel m x y = fb.colorAt m (y * fb.stride.get + x) := by
  obtain ⟨hle, hlt⟩ := holds_of_visible hx hy
  have hrow : checkedMul 64 y fb.stride.get = some (y * fb.stride.get) := by
    rw [checkedMul_eq_some]
    omega
  have hpixel : checkedAdd 64 (y * fb.stride.get) x = some (y * fb.stride.get + x) := by
    rw [checkedAdd_eq_some]
    omega
  have hoffset : checkedMul 64 (y * fb.stride.get + x) 4 =
      some (4 * (y * fb.stride.get + x)) := by
    rw [checkedMul_eq_some]
    omega
  have hstop : checkedAdd 64 (4 * (y * fb.stride.get + x)) 4 =
      some (4 * (y * fb.stride.get + x) + 4) := by
    rw [checkedAdd_eq_some]
    omega
  rw [readPixel, if_neg (by simp [hdraw, hx, hy])]
  simp only [hrow, hpixel, hoffset, hstop, Option.bind_some, if_neg (Nat.not_lt.mpr hle), colorAt]

end Framebuffer

def smallDisplay : Framebuffer where
  ptr := 0x1000
  size := ⟨25, 25, by decide, by decide⟩
  stride := ⟨25, by decide⟩
  pixelFormat := .rgb
  byteLen := 2500
  supported := .inl rfl
  covered := ⟨2500, by simp [requiredByteLen, checkedMul], le_rfl⟩

/-- The widths of the regular glyphs of `noto-sans-mono-bitmap`. -/
def regularWidth : RasterHeight → Nat
  | .size16 => 7
  | .size20 => 9
  | .size24 => 11
  | .size32 => 14

theorem regularWidth_pos (size : RasterHeight) : 0 < regularWidth size := by
  cases size <;> decide

/-- The kernel's cells without their ink. -/
def blankFont : Font := ⟨regularWidth, regularWidth_pos, fun _ _ => none⟩

end AgnostOS.Graphics
