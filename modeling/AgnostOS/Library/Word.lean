import Mathlib.Data.Nat.Bitwise
import Mathlib.Tactic.Common

/-! Unsigned machine words of width w, as natural numbers below 2^w. A plain
operator of a release build wraps; the checked and saturating forms do not. -/
namespace Word

def checkedAdd (w a b : Nat) : Option Nat := if a + b < 2 ^ w then some (a + b) else none
def checkedSub (a b : Nat) : Option Nat := if b ≤ a then some (a - b) else none
def checkedMul (w a b : Nat) : Option Nat := if a * b < 2 ^ w then some (a * b) else none
def saturatingAdd (w a b : Nat) : Nat := min (a + b) (2 ^ w - 1)
def saturatingSub (a b : Nat) : Nat := a - b
def saturatingMul (w a b : Nat) : Nat := min (a * b) (2 ^ w - 1)
def wrappingAdd (w a b : Nat) : Nat := (a + b) % 2 ^ w
def wrappingSub (w a b : Nat) : Nat := (a + (2 ^ w - b % 2 ^ w)) % 2 ^ w

def complement (w a : Nat) : Nat := 2 ^ w - 1 - a

@[simp] theorem checkedAdd_eq_some {w a b c : Nat} :
    checkedAdd w a b = some c ↔ a + b < 2 ^ w ∧ a + b = c := by
  by_cases h : a + b < 2 ^ w <;> simp [checkedAdd, h]

@[simp] theorem checkedAdd_eq_none {w a b : Nat} :
    checkedAdd w a b = none ↔ 2 ^ w ≤ a + b := by
  by_cases h : a + b < 2 ^ w <;> simp [checkedAdd, h]
  omega

@[simp] theorem checkedMul_eq_some {w a b c : Nat} :
    checkedMul w a b = some c ↔ a * b < 2 ^ w ∧ a * b = c := by
  by_cases h : a * b < 2 ^ w <;> simp [checkedMul, h]

theorem saturatingAdd_of_lt {w a b : Nat} (h : a + b < 2 ^ w) : saturatingAdd w a b = a + b := by
  simp only [saturatingAdd]
  omega

theorem saturatingMul_of_lt {w a b : Nat} (h : a * b < 2 ^ w) : saturatingMul w a b = a * b := by
  simp only [saturatingMul]
  omega

theorem wrappingAdd_of_lt {w a b : Nat} (h : a + b < 2 ^ w) : wrappingAdd w a b = a + b :=
  Nat.mod_eq_of_lt h

theorem wrappingSub_of_le {w a b : Nat} (hb : b ≤ a) (ha : a < 2 ^ w) :
    wrappingSub w a b = a - b := by
  have hmod : b % 2 ^ w = b := Nat.mod_eq_of_lt (by omega)
  have hsum : a + (2 ^ w - b) = (a - b) + 2 ^ w := by omega
  rw [wrappingSub, hmod, hsum, Nat.add_mod_right]
  exact Nat.mod_eq_of_lt (by omega)

/-- Masking with the complement of 2^k - 1 rounds a word down to a multiple of 2^k. -/
theorem and_complement_two_pow {w k a : Nat} (ha : a < 2 ^ w) (hk : k ≤ w) :
    a &&& complement w (2 ^ k - 1) = a / 2 ^ k * 2 ^ k := by
  have hmask : complement w (2 ^ k - 1) = (2 ^ (w - k) - 1) * 2 ^ k := by
    have hpow : 2 ^ (w - k) * 2 ^ k = 2 ^ w := by rw [← pow_add, Nat.sub_add_cancel hk]
    have hpos : 0 < 2 ^ k := Nat.two_pow_pos k
    rw [complement, Nat.sub_mul, hpow, one_mul]
    omega
  rw [hmask]
  apply Nat.eq_of_testBit_eq
  intro i
  rw [Nat.testBit_and, Nat.testBit_mul_two_pow, Nat.testBit_mul_two_pow, Nat.testBit_two_pow_sub_one,
    Nat.testBit_div_two_pow]
  by_cases hi : k ≤ i
  · have hsub : i - k + k = i := Nat.sub_add_cancel hi
    by_cases hw : i < w
    · have hlt : i - k < w - k := by omega
      simp [hi, hsub, hlt]
    · have hzero : a.testBit i = false := by
        apply Nat.testBit_lt_two_pow
        exact lt_of_lt_of_le ha (Nat.pow_le_pow_right (by omega) (by omega))
      simp [hsub, hzero]
  · simp [hi]

theorem and_complement_mod (w a m : Nat) : a &&& complement w m = a % 2 ^ w &&& complement w m := by
  apply Nat.eq_of_testBit_eq
  intro i
  rw [Nat.testBit_and, Nat.testBit_and, Nat.testBit_mod_two_pow]
  by_cases hi : i < w
  · simp [hi]
  · have hlt : complement w m < 2 ^ i := by
      have hpow : 2 ^ w ≤ 2 ^ i := Nat.pow_le_pow_right (by decide) (Nat.le_of_not_lt hi)
      have hpos : 0 < 2 ^ w := Nat.two_pow_pos w
      simp only [complement]
      omega
    simp [Nat.testBit_lt_two_pow hlt]

end Word
