import Mathlib.Tactic.Linarith
import Mathlib.Tactic.Ring

/-! The points of a line segment on the integer grid by the error term: a point has moved i of
a steps along one axis and k of b along the other, and every step moves along the axes that
the error calls for. -/
namespace DigitalLine

def error (a b : Nat) (p : Nat × Nat) : Int := (p.2 + 1) * a - (p.1 + 1) * b

def step (a b : Nat) (p : Nat × Nat) : Nat × Nat :=
  (if 2 * error a b p > -b then p.1 + 1 else p.1, if 2 * error a b p < a then p.2 + 1 else p.2)

def point (a b : Nat) : Nat → Nat × Nat
  | 0 => (0, 0)
  | j + 1 => step a b (point a b j)

/-- Twice the distance of the point from the line, in parts of the longer axis. -/
def offset (a b : Nat) (p : Nat × Nat) : Int := 2 * ((p.2 : Int) * a - p.1 * b)

variable {a b j : Nat} {p : Nat × Nat}

theorem error_first (i k : Nat) : error a b (i + 1, k) = error a b (i, k) - b := by
  rw [error, error]
  push_cast
  ring

theorem error_second (i k : Nat) : error a b (i, k + 1) = error a b (i, k) + a := by
  rw [error, error]
  push_cast
  ring

theorem error_step (p : Nat × Nat) : error a b (step a b p) =
    if 2 * error a b p < a then (if 2 * error a b p > -b then error a b p - b else error a b p) + a
    else if 2 * error a b p > -b then error a b p - b else error a b p := by
  rw [step]
  by_cases hsecond : 2 * error a b p < a
  · rw [if_pos hsecond, if_pos hsecond, error_second]
    by_cases hfirst : 2 * error a b p > -b
    · rw [if_pos hfirst, if_pos hfirst, error_first]
    · rw [if_neg hfirst, if_neg hfirst]
  · rw [if_neg hsecond, if_neg hsecond]
    by_cases hfirst : 2 * error a b p > -b
    · rw [if_pos hfirst, if_pos hfirst, error_first]
    · rw [if_neg hfirst, if_neg hfirst]

/-! The axes may change places. -/

theorem error_swap (p : Nat × Nat) : error b a p.swap = -error a b p := by
  rw [error, error, Prod.fst_swap, Prod.snd_swap]
  ring

theorem step_swap (p : Nat × Nat) : step b a p.swap = (step a b p).swap := by
  have hsecond : 2 * -error a b p > -(a : Int) ↔ 2 * error a b p < a := by omega
  have hfirst : 2 * -error a b p < (b : Int) ↔ 2 * error a b p > -b := by omega
  simp only [step, error_swap, hsecond, hfirst, Prod.fst_swap, Prod.snd_swap, Prod.swap_prod_mk]

theorem point_swap (a b j : Nat) : point b a j = (point a b j).swap := by
  induction j with
  | zero => rfl
  | succ j ih => rw [point, point, ih, step_swap]

theorem offset_swap (p : Nat × Nat) : offset b a p.swap = -offset a b p := by
  rw [offset, offset, Prod.fst_swap, Prod.snd_swap]
  ring

/-! ### Steps of the longer axis -/

/-- A step moves along the longer axis and stays within half a step of the line. -/
theorem step_of_le (hlong : b ≤ a) (hi : p.1 < a) (h : |offset a b p| ≤ a) :
    (step a b p).1 = p.1 + 1 ∧ |offset a b (step a b p)| ≤ a := by
  rw [offset, abs_le] at h
  have herror : error a b p = (p.2 : Int) * a - p.1 * b + a - b := by
    rw [error]
    ring
  have hmove : 2 * error a b p > -b := by
    cases Nat.lt_or_ge b a with
    | inl hlt => omega
    | inr hge =>
      -- on a diagonal the offset is a multiple of 2 * a
      have heq : a = b := by omega
      have hhalf : 2 * ((p.2 : Int) * a - p.1 * b) ≠ -a := by
        intro hodd
        have hfactor : (2 * ((p.2 : Int) - p.1)) * a = -1 * a := by
          rw [heq] at hodd ⊢
          linarith
        have hcancel := mul_right_cancel₀ (by omega : (a : Int) ≠ 0) hfactor
        omega
      omega
  have hfirst : (step a b p).1 = p.1 + 1 := by rw [step, if_pos hmove]
  refine ⟨hfirst, ?_⟩
  rw [offset, abs_le, hfirst, step]
  have hnext : ((p.1 + 1 : Nat) : Int) * b = p.1 * b + b := by
    push_cast
    ring
  by_cases hsecond : 2 * error a b p < a
  · have hup : ((p.2 + 1 : Nat) : Int) * a = p.2 * a + a := by
      push_cast
      ring
    simp only [if_pos hsecond, hnext, hup]
    omega
  · simp only [if_neg hsecond, hnext]
    omega

theorem point_of_le (hlong : b ≤ a) (hj : j ≤ a) :
    (point a b j).1 = j ∧ |offset a b (point a b j)| ≤ a := by
  induction j with
  | zero => simp [point, offset]
  | succ j ih =>
    have hprevious := ih (by omega)
    rw [point]
    have hstep := step_of_le (p := point a b j) hlong (by omega) hprevious.2
    rw [hprevious.1] at hstep
    exact hstep

/-- Points near the line do not pass the end of the shorter axis. -/
theorem le_of_offset (hi : p.1 ≤ a) (h : |offset a b p| ≤ a) (hpos : 0 < a) : p.2 ≤ b := by
  rw [offset, abs_le] at h
  by_contra hgt
  have hright : (p.1 : Int) * b ≤ a * b := by exact_mod_cast Nat.mul_le_mul_right b hi
  have hleft : ((b + 1 : Nat) : Int) * a ≤ p.2 * a := by
    exact_mod_cast Nat.mul_le_mul_right a (by omega : b + 1 ≤ p.2)
  push_cast at hleft
  linarith

theorem eq_of_offset (hi : p.1 = a) (h : |offset a b p| ≤ a) (hpos : 0 < a) : p.2 = b := by
  have hle := le_of_offset hi.le h hpos
  rw [offset, abs_le, hi] at h
  by_contra hne
  have hleft : (p.2 + 1 : Int) * a ≤ b * a := by
    exact_mod_cast Nat.mul_le_mul_right a (by omega : p.2 + 1 ≤ b)
  linarith

/-! ### The points of the segment -/

/-- A point after j steps: every step moves along the longer axis, no coordinate passes its end,
and the line is at most half a step away. -/
structure OnLine (a b j : Nat) (p : Nat × Nat) : Prop where
  long : (b ≤ a → p.1 = j) ∧ (a ≤ b → p.2 = j)
  first : p.1 ≤ a
  second : p.2 ≤ b
  near : |offset a b p| ≤ (max a b : Nat)

theorem OnLine.swap (h : OnLine a b j p) : OnLine b a j p.swap := by
  refine ⟨⟨h.long.2, h.long.1⟩, h.second, h.first, ?_⟩
  rw [offset_swap, abs_neg, max_comm]
  exact h.near

theorem onLine_of_le (hlong : b ≤ a) (hj : j ≤ a) : OnLine a b j (point a b j) := by
  have hpoint := point_of_le hlong hj
  have hnear : |offset a b (point a b j)| ≤ (max a b : Nat) := by
    rw [max_eq_left hlong]
    exact hpoint.2
  have hsecond : (point a b j).2 ≤ b := by
    cases Nat.eq_zero_or_pos a with
    | inl hzero =>
      have hstart : j = 0 := by omega
      rw [hstart]
      exact Nat.zero_le b
    | inr hpos => exact le_of_offset (hpoint.1.trans_le hj) hpoint.2 hpos
  refine ⟨⟨fun _ => hpoint.1, fun hle => ?_⟩, hpoint.1.trans_le hj, hsecond, hnear⟩
  -- on a diagonal the swapped line has the same points
  have heq : a = b := le_antisymm hle hlong
  have hswap := congrArg Prod.fst (point_swap a b j)
  rw [← heq] at hswap hpoint ⊢
  exact hswap.symm.trans hpoint.1

theorem onLine_point (hj : j ≤ max a b) : OnLine a b j (point a b j) := by
  cases Nat.le_total b a with
  | inl hle => exact onLine_of_le hle (by omega)
  | inr hle =>
    rw [point_swap b a j]
    exact (onLine_of_le hle (by omega)).swap

theorem point_end_of_le (hlong : b ≤ a) : point a b a = (a, b) := by
  have hpoint := point_of_le hlong le_rfl
  cases Nat.eq_zero_or_pos a with
  | inl hzero =>
    have hother : b = 0 := by omega
    rw [hzero, hother]
    rfl
  | inr hpos => exact Prod.ext hpoint.1 (eq_of_offset hpoint.1 hpoint.2 hpos)

theorem point_end : point a b (max a b) = (a, b) := by
  cases Nat.le_total b a with
  | inl hle =>
    rw [max_eq_left hle]
    exact point_end_of_le hle
  | inr hle => rw [max_eq_right hle, point_swap, point_end_of_le hle, Prod.swap_prod_mk]

theorem point_ne_end (hj : j < max a b) : point a b j ≠ (a, b) := by
  intro hend
  have hlong := (onLine_point hj.le).long
  rw [hend] at hlong
  cases Nat.le_total b a with
  | inl hle =>
    have hfirst := hlong.1 hle
    simp only at hfirst
    omega
  | inr hle =>
    have hsecond := hlong.2 hle
    simp only at hsecond
    omega

/-- The error term stays within three halves of the longer axis. -/
theorem error_bound (hj : j ≤ max a b) :
    -(3 * (max a b : Nat) : Int) ≤ 2 * error a b (point a b j) ∧
      2 * error a b (point a b j) ≤ 3 * (max a b : Nat) := by
  have hnear := abs_le.mp (onLine_point hj).near
  have herror : 2 * error a b (point a b j) = offset a b (point a b j) + 2 * a - 2 * b := by
    rw [error, offset]
    ring
  omega

end DigitalLine
