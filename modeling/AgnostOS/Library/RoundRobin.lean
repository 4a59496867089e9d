import Mathlib.Algebra.GroupWithZero.Nat
import Mathlib.Data.Fintype.Card
import Mathlib.Data.List.FinRange
import Mathlib.Tactic.Common

/-! Cyclic scans over n places: the scan from a cursor finds the wanted place at the
least cyclic distance, and serving a place brings every other wanted one nearer. -/

namespace RoundRobin
variable {n : Nat} [NeZero n]

def distance (cursor : Nat) (i : Fin n) : Nat := (i + (n - cursor % n)) % n

theorem distance_lt (cursor : Nat) (i : Fin n) : distance cursor i < n :=
  Nat.mod_lt _ (Nat.pos_of_neZero n)

theorem ofNat_add_distance (cursor : Nat) (i : Fin n) :
    Fin.ofNat n (cursor + distance cursor i) = i := by
  have hn : 0 < n := Nat.pos_of_neZero n
  have hmod := Nat.mod_lt cursor hn
  have hi := i.isLt
  apply Fin.ext
  have hstep : (cursor + distance cursor i) % n = (cursor % n + (i + (n - cursor % n))) % n := by
    rw [distance, Nat.add_mod, Nat.mod_mod, ← Nat.add_mod]
    simp [Nat.add_mod]
  rw [Fin.val_ofNat, hstep]
  have hsum : cursor % n + (i + (n - cursor % n)) = i + n := by omega
  rw [hsum, Nat.add_mod_right, Nat.mod_eq_of_lt hi]

theorem distance_ofNat_add {cursor offset : Nat} (h : offset < n) :
    distance cursor (Fin.ofNat n (cursor + offset)) = offset := by
  have hn : 0 < n := Nat.pos_of_neZero n
  have hmod := Nat.mod_lt cursor hn
  rw [distance, Fin.val_ofNat, Nat.mod_add_mod]
  have hsum : cursor + offset + (n - cursor % n) = offset + n * (cursor / n + 1) := by
    have hdiv := Nat.div_add_mod cursor n
    rw [Nat.mul_add, Nat.mul_one]
    omega
  rw [hsum, Nat.add_mul_mod_self_left, Nat.mod_eq_of_lt h]

/-- After place j was served, a place not before it is nearer by what was scanned. -/
theorem distance_after {cursor : Nat} {i j : Fin n} (hne : j ≠ i)
    (hle : distance cursor j ≤ distance cursor i) :
    distance ((j : Nat) + 1) i + distance cursor j + 1 = distance cursor i := by
  have hlt := distance_lt cursor i
  have hapart : distance cursor j ≠ distance cursor i := by
    intro heq
    apply hne
    rw [← ofNat_add_distance cursor j, heq, ofNat_add_distance]
  have hj : (j : Nat) = (cursor + distance cursor j) % n := by
    conv_lhs => rw [← ofNat_add_distance cursor j, Fin.val_ofNat]
  -- i lies that many places behind the new cursor
  have hi : i = Fin.ofNat n (((j : Nat) + 1) + (distance cursor i - distance cursor j - 1)) := by
    apply Fin.ext
    conv_lhs => rw [← ofNat_add_distance cursor i, Fin.val_ofNat]
    rw [Fin.val_ofNat, hj, Nat.add_assoc, Nat.mod_add_mod]
    congr 1
    omega
  have hbelow : distance cursor i - distance cursor j - 1 < n := by omega
  have hback := @distance_ofNat_add n _ ((j : Nat) + 1) _ hbelow
  rw [← hi] at hback
  omega

def scan (cursor : Nat) (wanted : Fin n → Bool) : Option (Fin n) :=
  ((List.range n).map fun offset => Fin.ofNat n (cursor + offset)).find? wanted

theorem scan_eq_some {cursor : Nat} {wanted : Fin n → Bool} {j : Fin n}
    (h : scan cursor wanted = some j) :
    wanted j ∧ ∀ i, wanted i → distance cursor j ≤ distance cursor i := by
  rw [scan, List.find?_map, Option.map_eq_some_iff] at h
  obtain ⟨offset, hfind, rfl⟩ := h
  obtain ⟨hwanted, hmem, hfirst⟩ := List.find?_range_eq_some.mp hfind
  refine ⟨hwanted, fun i hi => ?_⟩
  rw [distance_ofNat_add (List.mem_range.mp hmem)]
  by_contra hlt
  have hskipped := hfirst (distance cursor i) (not_le.mp hlt)
  simp only [Function.comp_apply, ofNat_add_distance, hi, Bool.not_true, Bool.false_eq_true]
    at hskipped

end RoundRobin
