import Mathlib.Algebra.Group.Int.Defs
import Mathlib.Algebra.Group.Nat.Defs
import Mathlib.Tactic.Common

/-! Signed machine words of width w, as the integers from -2^(w-1) below 2^(w-1). The
checked operators give no result outside of that range. -/
namespace SignedWord

def Fits (w : Nat) (a : Int) : Prop := -2 ^ (w - 1) ≤ a ∧ a < 2 ^ (w - 1)

theorem natCast_lt_pow {n k : Nat} : (n : Int) < 2 ^ k ↔ n < 2 ^ k := by
  rw [← Int.ofNat_lt]
  simp

theorem fits_ofNat {w n : Nat} : Fits w (.ofNat n) ↔ n < 2 ^ (w - 1) := by
  have hpos : (0 : Int) < 2 ^ (w - 1) := Int.pow_pos (by decide)
  rw [Fits, Int.ofNat_eq_natCast, natCast_lt_pow]
  omega

theorem fits_negSucc {w n : Nat} : Fits w (.negSucc n) ↔ n < 2 ^ (w - 1) := by
  have hpos : (0 : Int) < 2 ^ (w - 1) := Int.pow_pos (by decide)
  rw [Fits, ← natCast_lt_pow]
  omega

theorem fits_of_lt {w : Nat} {a : Int} (h : 0 ≤ a) (hlt : a < 2 ^ (w - 1)) : Fits w a := by
  have hpos : (0 : Int) < 2 ^ (w - 1) := Int.pow_pos (by decide)
  exact ⟨by omega, hlt⟩

instance (w : Nat) : (a : Int) → Decidable (Fits w a)
  | .ofNat n => decidable_of_iff (n < 2 ^ (w - 1)) fits_ofNat.symm
  | .negSucc n => decidable_of_iff (n < 2 ^ (w - 1)) fits_negSucc.symm

def checked (w : Nat) (a : Int) : Option Int := if Fits w a then some a else none

def tryFrom (w a : Nat) : Option Int := checked w a

def checkedAdd (w : Nat) (a b : Int) : Option Int := checked w (a + b)
def checkedSub (w : Nat) (a b : Int) : Option Int := checked w (a - b)
def checkedMul (w : Nat) (a b : Int) : Option Int := checked w (a * b)

variable {w : Nat} {a b : Int}

@[simp] theorem checked_eq_some : checked w a = some b ↔ Fits w a ∧ a = b := by
  by_cases h : Fits w a <;> simp [checked, h]

@[simp] theorem checked_eq_none : checked w a = none ↔ ¬ Fits w a := by
  by_cases h : Fits w a <;> simp [checked, h]

theorem checked_of_fits (h : Fits w a) : checked w a = some a := checked_eq_some.mpr ⟨h, rfl⟩

@[simp] theorem tryFrom_eq_some {n : Nat} :
    tryFrom w n = some b ↔ n < 2 ^ (w - 1) ∧ (n : Int) = b := by
  rw [tryFrom, checked_eq_some]
  exact and_congr_left fun _ => fits_ofNat

theorem tryFrom_of_lt {n : Nat} (h : n < 2 ^ (w - 1)) : tryFrom w n = some (n : Int) :=
  tryFrom_eq_some.mpr ⟨h, rfl⟩

end SignedWord
