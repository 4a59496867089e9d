import AgnostOS.Console

/-! Scrolling against the grid of text rows: the scroll distance is counted in pixel rows
from the threshold, the new cursor row in whole text rows below it. -/
namespace AgnostOS.Console.KWriter
open Graphics

def InTextRow (w : KWriter) (row p : Nat) : Prop := row * w.fontH ≤ p ∧ p < (row + 1) * w.fontH

/-- A scroll by `rows` pixel rows from w to w' fits the grid: the cursor moves with the text,
text rows land on text rows, and the line just completed stays clear of the new cursor row. -/
structure OnGrid (w w' : KWriter) (rows : Nat) : Prop where
  distance : w.row * w.fontH = w'.row * w.fontH + rows
  text : ∀ row, rows ≤ row * w.fontH → w.fontH ∣ row * w.fontH - rows
  clear : ∀ row p, row + 1 = w.row → w.InTextRow row p → rows ≤ p → ¬ w.InTextRow w'.row (p - rows)

theorem fontH_pos (w : KWriter) : 0 < w.fontH := by
  rw [fontH]
  cases w.fontSize <;> decide

theorem checkScroll_of_ge {w : KWriter} (h : w.fb.height - 3 * w.fontH ≤ w.y) :
    w.checkScroll w.fontH =
      { w.draw (.scrollUp (w.y - (w.fb.height - 3 * w.fontH) + w.fontH)) with
        row := (w.fb.height - 3 * w.fontH - w.fontH) / w.fontH } := by
  rw [checkScroll, if_pos h]

/-- A scroll fits the grid exactly on displays whose height is a whole number of lines. -/
theorem onGrid_checkScroll_iff {w : KWriter} (hlines : 4 * w.fontH ≤ w.fb.height)
    (hscroll : w.fb.height - 3 * w.fontH ≤ w.y) :
    ∃ rows, (w.checkScroll w.fontH).drawn = w.drawn ++ [.scrollUp rows] ∧
      (w.OnGrid (w.checkScroll w.fontH) rows ↔ w.fontH ∣ w.fb.height) := by
  rw [checkScroll_of_ge hscroll]
  refine ⟨_, rfl, ?_⟩
  have hpos : 0 < w.fontH := w.fontH_pos
  have hy : w.y = w.row * w.fontH := rfl
  rw [hy] at hscroll ⊢
  -- the rounding division loses exactly what the height has over whole lines
  have hdiv : (w.fb.height - 3 * w.fontH - w.fontH) / w.fontH * w.fontH +
      w.fb.height % w.fontH = w.fb.height - 4 * w.fontH := by
    have hmod : (w.fb.height - 3 * w.fontH - w.fontH) % w.fontH = w.fb.height % w.fontH := by
      have hheight : w.fb.height = (w.fb.height - 3 * w.fontH - w.fontH) + w.fontH * 4 := by omega
      conv_rhs => rw [hheight, Nat.add_mul_mod_self_left]
    have hsplit := Nat.div_add_mod' (w.fb.height - 3 * w.fontH - w.fontH) w.fontH
    omega
  constructor
  · intro hgrid
    have hdistance := hgrid.distance
    simp only at hdistance
    apply Nat.dvd_of_mod_eq_zero
    omega
  · intro hwhole
    have hzero : w.fb.height % w.fontH = 0 := Nat.mod_eq_zero_of_dvd hwhole
    refine ⟨?_, fun row hrow => ?_, fun row p hrow hp hrows hnew => ?_⟩
    · simp only
      omega
    · have hdistance : w.row * w.fontH - (w.fb.height - 3 * w.fontH) + w.fontH =
          w.row * w.fontH - (w.fb.height - 3 * w.fontH - w.fontH) / w.fontH * w.fontH := by
        omega
      rw [hdistance]
      exact Nat.dvd_sub (Nat.dvd_mul_left _ _) (Nat.dvd_sub (Nat.dvd_mul_left _ _) (Nat.dvd_mul_left _ _))
    · simp only [InTextRow] at hp hnew
      rw [hrow] at hp
      omega

def fullHd : Framebuffer where
  ptr := 0x80000000
  size := ⟨1920, 1080, by decide, by decide⟩
  stride := ⟨1920, by decide⟩
  pixelFormat := .bgr
  byteLen := 8294400
  supported := .inr rfl
  covered := ⟨8294400, by simp [requiredByteLen, Word.checkedMul], le_rfl⟩

theorem onGrid_on_sixty_lines :
    ∃ rows, ({ init fullHd with row := 57 : KWriter }.checkScroll 18).drawn = [.scrollUp rows] ∧
      OnGrid { init fullHd with row := 57 }
        ({ init fullHd with row := 57 : KWriter }.checkScroll 18) rows := by
  have happly := onGrid_checkScroll_iff (w := { init fullHd with row := 57 }) (by decide) (by decide)
  obtain ⟨rows, hdrawn, hiff⟩ := happly
  exact ⟨rows, hdrawn, hiff.mpr (by decide)⟩

def xga : Framebuffer where
  ptr := 0x80000000
  size := ⟨1024, 768, by decide, by decide⟩
  stride := ⟨1024, by decide⟩
  pixelFormat := .bgr
  byteLen := 3145728
  supported := .inr rfl
  covered := ⟨3145728, by simp [requiredByteLen, Word.checkedMul], le_rfl⟩

/-- The cursor goes up two lines while the text goes up 24 pixel rows. -/
theorem scroll_off_the_grid :
    let w : KWriter := { init xga with row := 40 }
    4 * w.fontH ≤ w.fb.height ∧ (w.checkScroll w.fontH).row = 38 ∧
      (w.checkScroll w.fontH).drawn = [.scrollUp 24] ∧ (40 - 38) * w.fontH = 36 ∧
      ¬ w.OnGrid (w.checkScroll w.fontH) 24 := by
  refine ⟨by decide, by decide, rfl, by decide, fun hgrid => ?_⟩
  have hdistance := hgrid.distance
  revert hdistance
  decide

end AgnostOS.Console.KWriter
