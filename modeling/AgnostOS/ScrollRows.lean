import AgnostOS.Pixels
import Mathlib.Tactic.Ring

/-! Scrolling of graphics/framebuffer.rs byte by byte: rows move up whole, padding included,
so that scrolls add up. -/
namespace AgnostOS.Graphics.Framebuffer
variable {fb : Framebuffer}

/-- What `scroll_rows` computes: sizes, offsets and the ends of the ranges that it copies
and clears. -/
def scrollOffsets (fb : Framebuffer) (rows : Nat) : List Nat :=
  if fb.isDrawable = false ∨ rows = 0 then []
  else
    let rowBytes := fb.stride.get * 4
    if rows ≥ fb.height then [rowBytes, fb.stride.get * fb.height, fb.stride.get * fb.height * 4]
    else
      let movedBytes := (fb.height - rows) * rowBytes
      let clearedBytes := rows * rowBytes
      [rowBytes, movedBytes, clearedBytes, rows * rowBytes + movedBytes, movedBytes + clearedBytes]

theorem rows_eq : fb.stride.get * fb.height * 4 = fb.height * (fb.stride.get * 4) := by ring

/-- An offset inside a row lies before the row number n exactly when its row does. -/
theorem row_lt_iff {row offset rowBytes n : Nat} (ho : offset < rowBytes) :
    row * rowBytes + offset < n * rowBytes ↔ row < n := by
  constructor
  · intro hlt
    by_contra hge
    have hle : n * rowBytes ≤ row * rowBytes := Nat.mul_le_mul_right _ (Nat.le_of_not_lt hge)
    omega
  · intro hlt
    have hle : (row + 1) * rowBytes ≤ n * rowBytes := Nat.mul_le_mul_right _ hlt
    rw [Nat.add_mul, one_mul] at hle
    omega

theorem scrollRows_row (hdraw : fb.isDrawable = true) (m : ByteMemory) (rows : Nat)
    {row offset : Nat} (ho : offset < fb.stride.get * 4) :
    fb.scrollRows m rows (row * (fb.stride.get * 4) + offset) =
      if row + rows < fb.height then m ((row + rows) * (fb.stride.get * 4) + offset)
      else if row < fb.height then 0
      else m (row * (fb.stride.get * 4) + offset) := by
  by_cases hzero : rows = 0
  · rw [scrollRows, if_pos (.inr hzero), hzero, Nat.add_zero]
    by_cases hrow : row < fb.height
    · rw [if_pos hrow]
    · rw [if_neg hrow, if_neg hrow]
  · rw [scrollRows, if_neg (by simp [hdraw, hzero])]
    by_cases hall : rows ≥ fb.height
    · simp only [if_pos hall]
      rw [if_neg (by omega : ¬ row + rows < fb.height), rows_eq]
      simp only [row_lt_iff ho]
    · have hend : (fb.height - rows) * (fb.stride.get * 4) + rows * (fb.stride.get * 4) =
          fb.height * (fb.stride.get * 4) := by
        rw [← Nat.add_mul, Nat.sub_add_cancel (by omega)]
      have hmoved : row < fb.height - rows ↔ row + rows < fb.height := by omega
      have hsource : row * (fb.stride.get * 4) + offset + rows * (fb.stride.get * 4) =
          (row + rows) * (fb.stride.get * 4) + offset := by ring
      simp only [if_neg hall]
      rw [hend, hsource]
      simp only [row_lt_iff ho, hmoved]

theorem exists_row (fb : Framebuffer) (a : Nat) :
    ∃ row offset, offset < fb.stride.get * 4 ∧ a = row * (fb.stride.get * 4) + offset := by
  have hpos : 0 < fb.stride.get := fb.stride.pos
  exact ⟨a / (fb.stride.get * 4), a % (fb.stride.get * 4), Nat.mod_lt _ (by omega),
    (Nat.div_add_mod' _ _).symm⟩

theorem scrollRows_add (hdraw : fb.isDrawable = true) (m : ByteMemory) (first second : Nat) :
    fb.scrollRows (fb.scrollRows m first) second = fb.scrollRows m (first + second) := by
  funext a
  obtain ⟨row, offset, ho, rfl⟩ := exists_row fb a
  rw [scrollRows_row hdraw _ second ho, scrollRows_row hdraw m first ho,
    scrollRows_row hdraw m first ho, scrollRows_row hdraw m (first + second) ho]
  have hsum : row + second + first = row + (first + second) := by omega
  rw [hsum]
  by_cases hsource : row + (first + second) < fb.height
  · rw [if_pos hsource, if_pos hsource, if_pos (by omega)]
  · rw [if_neg hsource, if_neg hsource]
    by_cases hrow : row < fb.height
    · by_cases hmiddle : row + second < fb.height <;>
        simp only [if_pos hrow, hmiddle, if_true, if_false]
    · simp only [if_neg hrow, if_neg (by omega : ¬ row + second < fb.height),
        if_neg (by omega : ¬ row + first < fb.height)]

theorem scrollOffsets_covered (rows : Nat) :
    ∀ offset ∈ fb.scrollOffsets rows, offset ≤ fb.byteLen ∧ offset < 2 ^ 64 := by
  have hcovered : fb.height * (fb.stride.get * 4) ≤ fb.byteLen ∧
      fb.height * (fb.stride.get * 4) < 2 ^ 64 := by
    rw [← rows_eq]
    exact rows_covered
  have hheight : 0 < fb.height := fb.size.height_pos
  have hrow : fb.stride.get * 4 ≤ fb.height * (fb.stride.get * 4) :=
    Nat.le_mul_of_pos_left _ hheight
  suffices hbound : ∀ offset ∈ fb.scrollOffsets rows, offset ≤ fb.height * (fb.stride.get * 4) by
    intro offset hoffset
    have hle := hbound offset hoffset
    omega
  rw [scrollOffsets]
  split
  · simp
  · split
    · rw [← rows_eq] at hrow ⊢
      simp only [List.forall_mem_cons]
      refine ⟨hrow, ?_, le_rfl, by simp⟩
      omega
    · next hpart =>
      have hend : (fb.height - rows) * (fb.stride.get * 4) + rows * (fb.stride.get * 4) =
          fb.height * (fb.stride.get * 4) := by
        rw [← Nat.add_mul, Nat.sub_add_cancel (by omega)]
      simp only [List.forall_mem_cons]
      refine ⟨hrow, ?_, ?_, ?_, ?_, by simp⟩
      all_goals omega

/-- A scroll moves whole rows up, clears the rows it vacates, and two scrolls are one. -/
theorem scroll_law {ptr byteLen : Nat} {size : PixelSize} {stride : Stride} {format : PixelFormat}
    (haccepted : fromRawParts ptr byteLen size stride format = .ok fb) (hptr : ptr ≠ 0) :
    (∀ m rows x y i, x < fb.stride.get → y < fb.height → i < 4 →
      fb.scrollRows m rows (4 * (y * fb.stride.get + x) + i) =
        if y + rows < fb.height then m (4 * ((y + rows) * fb.stride.get + x) + i) else 0) ∧
    (∀ m rows a, fb.stride.get * fb.height * 4 ≤ a → fb.scrollRows m rows a = m a) ∧
    (∀ rows, ∀ offset ∈ fb.scrollOffsets rows, offset ≤ byteLen ∧ offset < 2 ^ 64) ∧
    ∀ m first second,
      fb.scrollRows (fb.scrollRows m first) second = fb.scrollRows m (first + second) := by
  have hdraw : fb.isDrawable = true := isDrawable_of_ok haccepted hptr
  refine ⟨fun m rows x y i hx hy hi => ?_, fun m rows a ha => ?_, fun rows => ?_,
    fun m first second => scrollRows_add hdraw m first second⟩
  · have hbyte : ∀ row, 4 * (row * fb.stride.get + x) + i =
        row * (fb.stride.get * 4) + (4 * x + i) := by
      intro row
      ring
    rw [hbyte, hbyte, scrollRows_row hdraw m rows (by omega), if_pos hy]
  · obtain ⟨row, offset, ho, rfl⟩ := exists_row fb a
    rw [rows_eq, ← not_lt, row_lt_iff ho] at ha
    rw [scrollRows_row hdraw m rows ho, if_neg (by omega), if_neg ha]
  · have hlen : fb.byteLen = byteLen := (fields_of_ok haccepted).2
    rw [← hlen]
    exact scrollOffsets_covered rows

/-- Part of a small display scrolled, and all of it in two steps. -/
theorem scroll_small_display :
    smallDisplay.scrollRows (fun a => UInt8.ofNat a) 3 (4 * (2 * 25 + 7) + 1) = 17 ∧
      smallDisplay.scrollRows (smallDisplay.scrollRows (fun a => UInt8.ofNat a) 3) 30 =
        smallDisplay.scrollRows (fun a => UInt8.ofNat a) 33 := by
  have happly := scroll_law smallDisplay_accepted (by decide)
  refine ⟨?_, happly.2.2.2 _ 3 30⟩
  have hmoved := happly.1 (fun a => UInt8.ofNat a) 3 7 2 1 (by decide) (by decide) (by decide)
  exact hmoved.trans (by decide)

end AgnostOS.Graphics.Framebuffer
