import Mathlib.Algebra.Group.Nat.Defs
import Mathlib.Logic.Function.Basic
import Mathlib.Tactic.Common

/-! Byte-addressed memory with little-endian words of n bytes. -/

abbrev ByteMemory := Nat → UInt8

namespace ByteMemory

def read (m : ByteMemory) (a : Nat) : Nat → Nat
  | 0 => 0
  | n + 1 => (m a).toNat + 256 * read m (a + 1) n

def write (m : ByteMemory) (a : Nat) : Nat → Nat → ByteMemory
  | 0, _ => m
  | n + 1, v => write (Function.update m a (UInt8.ofNat v)) (a + 1) n (v / 256)

theorem write_outside (m : ByteMemory) {a n b : Nat} (v : Nat) (h : b < a ∨ a + n ≤ b) :
    write m a n v b = m b := by
  induction n generalizing m a v with
  | zero => rfl
  | succ n ih =>
    have hne : b ≠ a := by omega
    rw [write, ih _ _ (by omega), Function.update_of_ne hne]

theorem read_congr {m m' : ByteMemory} {a n : Nat} (h : ∀ b, a ≤ b → b < a + n → m b = m' b) :
    read m a n = read m' a n := by
  induction n generalizing a with
  | zero => rfl
  | succ n ih =>
    rw [read, read, h a (Nat.le_refl a) (by omega), ih fun b hlo hhi => h b (by omega) (by omega)]

theorem read_write_apart (m : ByteMemory) {a b n k : Nat} (v : Nat) (h : a + n ≤ b ∨ b + k ≤ a) :
    read (write m a n v) b k = read m b k :=
  read_congr fun c _ _ => write_outside m v (by omega)

/-- A written word reads back as far as its bytes hold it. -/
theorem read_write_mod (m : ByteMemory) (a n v : Nat) : read (write m a n v) a n = v % 256 ^ n := by
  induction n generalizing m a v with
  | zero => rw [read, Nat.pow_zero, Nat.mod_one]
  | succ n ih =>
    have hsplit : v % 256 ^ (n + 1) = v % 256 + 256 * (v / 256 % 256 ^ n) := by
      rw [Nat.pow_succ', Nat.mod_mul]
    rw [hsplit, write, read, ih, write_outside _ _ (by omega), Function.update_self,
      UInt8.toNat_ofNat']

theorem read_write_same (m : ByteMemory) (a : Nat) {n v : Nat} (hv : v < 256 ^ n) :
    read (write m a n v) a n = v := by
  rw [read_write_mod, Nat.mod_eq_of_lt hv]

theorem read_shift {m m' : ByteMemory} {base a n : Nat}
    (h : ∀ b, a ≤ b → b < a + n → m (base + b) = m' b) : read m (base + a) n = read m' a n := by
  induction n generalizing a with
  | zero => rfl
  | succ n ih =>
    rw [read, read, h a (Nat.le_refl a) (by omega), Nat.add_assoc,
      ih fun b hlo hhi => h b (by omega) (by omega)]

theorem read_lt (m : ByteMemory) (a n : Nat) : read m a n < 256 ^ n := by
  induction n generalizing a with
  | zero => simp [read]
  | succ n ih =>
    have hbyte := (m a).toNat_lt
    have hrest := ih (a + 1)
    rw [read, Nat.pow_succ]
    omega

/-- Words that read the same are made of the same bytes. -/
theorem byte_of_read {m m' : ByteMemory} {a n : Nat} (h : read m a n = read m' a n) {b : Nat}
    (hlo : a ≤ b) (hhi : b < a + n) : m b = m' b := by
  induction n generalizing a with
  | zero => omega
  | succ n ih =>
    have hbyte := (m a).toNat_lt
    have hbyte' := (m' a).toNat_lt
    rw [read, read] at h
    by_cases hfirst : b = a
    · subst hfirst
      exact UInt8.toNat_inj.mp (by omega)
    · have hrest : read m (a + 1) n = read m' (a + 1) n := by omega
      exact ih hrest (by omega) (by omega)

end ByteMemory
