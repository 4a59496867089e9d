import AgnostOS.Graphics
import AgnostOS.Library.Writes

/-! What the pixel writes of a drawing call leave on the screen and in the bytes around it. -/
namespace AgnostOS.Graphics.Framebuffer
open Word
variable {fb : Framebuffer} {m : ByteMemory}

theorem fields_of_ok {ptr byteLen : Nat} {size : PixelSize} {stride : Stride} {format : PixelFormat}
    (h : fromRawParts ptr byteLen size stride format = .ok fb) :
    fb.ptr = ptr ∧ fb.byteLen = byteLen := by
  rw [fromRawParts] at h
  split at h
  · split at h
    · cases h
    · split at h
      · cases h
      · cases h
        exact ⟨rfl, rfl⟩
  · cases h

theorem isDrawable_of_ptr (hptr : fb.ptr ≠ 0) : fb.isDrawable = true := by
  rw [isDrawable, decide_eq_true_eq]
  exact ⟨hptr, fb.supported, fb.covered⟩

/-- A mapping that was accepted at a non-null address is drawable. -/
theorem isDrawable_of_ok {ptr byteLen : Nat} {size : PixelSize} {stride : Stride}
    {format : PixelFormat} (h : fromRawParts ptr byteLen size stride format = .ok fb)
    (hptr : ptr ≠ 0) : fb.isDrawable = true := by
  apply isDrawable_of_ptr
  rwa [(fields_of_ok h).1]

theorem smallDisplay_accepted : fromRawParts 0x1000 2500 ⟨25, 25, by decide, by decide⟩
    ⟨25, by decide⟩ .rgb = .ok smallDisplay := rfl

/-- The bytes of all rows, padding included, have addresses. -/
theorem rows_covered : fb.stride.get * fb.height * 4 ≤ fb.byteLen ∧
    fb.stride.get * fb.height * 4 < 2 ^ 64 := by
  obtain ⟨required, hrequired, hle⟩ := fb.covered
  rw [requiredByteLen] at hrequired
  split at hrequired
  · cases hrequired
  · obtain ⟨pixels, hpixels, hbytes⟩ := Option.bind_eq_some_iff.mp hrequired
    obtain ⟨-, rfl⟩ := checkedMul_eq_some.mp hpixels
    obtain ⟨hlt, rfl⟩ := checkedMul_eq_some.mp hbytes
    exact ⟨hle, hlt⟩

theorem pixel_inj {x y x' y' : Nat} (hx : x < fb.stride.get) (hx' : x' < fb.stride.get)
    (h : y * fb.stride.get + x = y' * fb.stride.get + x') : x = x' ∧ y = y' := by
  have hpos : 0 < fb.stride.get := fb.stride.pos
  have hsplit : ∀ {row col : Nat}, col < fb.stride.get →
      (row * fb.stride.get + col) / fb.stride.get = row := by
    intro row col hcol
    rw [Nat.mul_comm, Nat.mul_add_div hpos, Nat.div_eq_of_lt hcol, Nat.add_zero]
  have hrow : y = y' := (hsplit hx).symm.trans (h ▸ hsplit hx')
  rw [hrow] at h
  exact ⟨Nat.add_left_cancel h, hrow⟩

theorem colorAt_writePixel {pixel : Nat} (hholds : fb.Holds pixel) (m : ByteMemory)
    (color : Color) : fb.colorAt (fb.writePixel m pixel color).2 pixel = color := by
  cases fb.supported with
  | inl hrgb =>
    rw [writePixel_of_holds hholds m (by rw [hrgb]; rfl)]
    simp [colorAt, decode, hrgb]
  | inr hbgr =>
    rw [writePixel_of_holds hholds m (by rw [hbgr]; rfl)]
    simp [colorAt, decode, hbgr]

theorem colorAt_paint {pixel : Nat} (hholds : fb.Holds pixel) (m : ByteMemory)
    (writes : List (Nat × Color)) :
    fb.colorAt (fb.paint m writes) pixel = (Writes.last writes pixel).getD (fb.colorAt m pixel) := by
  induction writes generalizing m with
  | nil => rfl
  | cons write writes ih =>
    rw [paint_cons, ih, Writes.last]
    have hfirst : fb.colorAt (fb.writePixel m write.1 write.2).2 pixel =
        (if write.1 = pixel then some write.2 else none).getD (fb.colorAt m pixel) := by
      by_cases hself : write.1 = pixel
      · rw [if_pos hself, hself]
        exact colorAt_writePixel hholds m write.2
      · rw [if_neg hself]
        apply colorAt_congr
        intro a ha
        apply writePixel_outside
        simp only [InPixel] at ha ⊢
        omega
    rw [hfirst]
    cases Writes.last writes pixel <;> simp

/-- The pixels that `shown` gives a colour are set to it, and no other byte changes. -/
structure Paints (fb : Framebuffer) (m m' : ByteMemory) (shown : Nat → Nat → Option Color) :
    Prop where
  set : ∀ x y color, x < fb.width → y < fb.height → shown x y = some color →
    fb.readPixel m' x y = color
  kept : ∀ x y, x < fb.width → y < fb.height → shown x y = none →
    ∀ i, i < 4 → m' (4 * (y * fb.stride.get + x) + i) = m (4 * (y * fb.stride.get + x) + i)
  fourth : ∀ pixel, m' (4 * pixel + 3) = m (4 * pixel + 3)
  padding : ∀ x y, fb.width ≤ x → x < fb.stride.get → y < fb.height →
    ∀ i, i < 4 → m' (4 * (y * fb.stride.get + x) + i) = m (4 * (y * fb.stride.get + x) + i)
  past : ∀ a, fb.stride.get * fb.height * 4 ≤ a → m' a = m a

def Visible (fb : Framebuffer) (pixel : Nat) : Prop :=
  ∃ x y, x < fb.width ∧ y < fb.height ∧ pixel = y * fb.stride.get + x

theorem Visible.holds {pixel : Nat} (h : fb.Visible pixel) : fb.Holds pixel := by
  obtain ⟨x, y, hx, hy, rfl⟩ := h
  exact holds_of_visible hx hy

theorem Visible.lt {pixel : Nat} (h : fb.Visible pixel) : pixel < fb.stride.get * fb.height := by
  obtain ⟨x, y, hx, hy, rfl⟩ := h
  have hwidth : fb.width ≤ fb.stride.get := width_le_stride
  have hrow : (y + 1) * fb.stride.get ≤ fb.height * fb.stride.get := Nat.mul_le_mul_right _ hy
  rw [Nat.add_mul, one_mul] at hrow
  rw [Nat.mul_comm fb.stride.get]
  omega

theorem paints_of_writes (hdraw : fb.isDrawable = true) {writes : List (Nat × Color)}
    {shown : Nat → Nat → Option Color} (hvisible : ∀ write ∈ writes, fb.Visible write.1)
    (hlast : ∀ x y, x < fb.width → y < fb.height →
      Writes.last writes (y * fb.stride.get + x) = shown x y) (m : ByteMemory) :
    fb.Paints m (fb.paint m writes) shown := by
  have hwidth : fb.width ≤ fb.stride.get := width_le_stride
  -- a byte changes only as a colour byte of a written pixel
  have hbyte : ∀ pixel i, i < 4 → (∀ write ∈ writes, write.1 ≠ pixel) →
      fb.paint m writes (4 * pixel + i) = m (4 * pixel + i) := by
    intro pixel i hi hnone
    apply paint_outside
    intro write hwrite hin
    have hother := hnone write hwrite
    simp only [InPixel] at hin
    omega
  refine ⟨fun x y color hx hy hcolor => ?_, fun x y hx hy hnone => ?_, fun pixel => ?_,
    fun x y hx hx' hy i hi => ?_, fun a ha => ?_⟩
  · rw [readPixel_of_visible hdraw hx hy, colorAt_paint (holds_of_visible hx hy), hlast x y hx hy,
      hcolor, Option.getD_some]
  · intro i hi
    apply hbyte _ i hi
    apply Writes.last_eq_none_iff.mp
    rw [hlast x y hx hy, hnone]
  · apply paint_outside
    intro write hwrite hin
    simp only [InPixel] at hin
    omega
  · apply hbyte _ i hi
    intro write hwrite heq
    obtain ⟨x', y', hx'', hy', hpixel⟩ := hvisible write hwrite
    have hsame := pixel_inj (lt_of_lt_of_le hx'' hwidth) hx' (hpixel.symm.trans heq)
    omega
  · apply paint_outside
    intro write hwrite hin
    have hlt := (hvisible write hwrite).lt
    simp only [InPixel] at hin
    omega

end AgnostOS.Graphics.Framebuffer
