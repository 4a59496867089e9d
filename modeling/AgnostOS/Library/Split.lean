import Mathlib.Algebra.GroupWithZero.Nat
import Mathlib.Algebra.Order.BigOperators.Group.List
import Mathlib.Algebra.Order.Group.Nat
import Mathlib.Tactic.Common

/-! Lists cut at separators. -/
namespace Split
variable {α : Type*} {p : α → Bool}

theorem not_separator {xs part : List α} (h : part ∈ xs.splitOnP p) : ∀ x ∈ part, p x = false := by
  induction xs generalizing part with
  | nil =>
    rw [List.splitOnP_nil, List.mem_singleton] at h
    simp [h]
  | cons y ys ih =>
    rw [List.splitOnP_cons_eq_if_modifyHead] at h
    split at h
    · cases h with
      | head => simp
      | tail _ h => exact ih h
    · next hy =>
      cases hparts : ys.splitOnP p with
      | nil => exact absurd hparts (List.splitOnP_ne_nil p ys)
      | cons first rest =>
        rw [hparts] at h ih
        cases h with
        | head =>
          have hfirst := ih List.mem_cons_self
          simpa [hy] using hfirst
        | tail _ h => exact ih (List.mem_cons_of_mem first h)

/-- The parts and the separators between them make up the list. -/
theorem length_parts (xs : List α) :
    ((xs.splitOnP p).map List.length).sum + (xs.splitOnP p).length = xs.length + 1 := by
  induction xs with
  | nil => simp
  | cons y ys ih =>
    rw [List.splitOnP_cons_eq_if_modifyHead]
    split
    · simp only [List.map_cons, List.sum_cons, List.length_cons, List.length_nil]
      omega
    · cases hparts : ys.splitOnP p with
      | nil => exact absurd hparts (List.splitOnP_ne_nil p ys)
      | cons first rest =>
        rw [hparts] at ih
        simp only [List.modifyHead_cons, List.map_cons, List.sum_cons, List.length_cons] at ih ⊢
        omega

theorem length_intercalate (separator : α) (part : List α) (parts : List (List α)) :
    (List.intercalate [separator] (part :: parts)).length + 1 =
      ((part :: parts).map List.length).sum + (part :: parts).length := by
  induction parts generalizing part with
  | nil => simp
  | cons next parts ih =>
    have hrest := ih next
    simp only [List.intercalate_cons_cons, List.length_append, List.map_cons, List.sum_cons,
      List.length_cons, List.length_nil] at hrest ⊢
    omega

/-- Some of the parts, joined again, are no longer than the list. -/
theorem length_intercalate_le {separator : α} {xs : List α} {parts : List (List α)}
    (h : parts.Sublist (xs.splitOnP p)) :
    (List.intercalate [separator] parts).length ≤ xs.length := by
  have htotal := length_parts (p := p) xs
  have hsum : (parts.map List.length).sum ≤ ((xs.splitOnP p).map List.length).sum :=
    (h.map List.length).sum_le_sum fun _ _ => Nat.zero_le _
  have hcount := h.length_le
  cases parts with
  | nil => simp
  | cons part parts =>
    have hjoined := length_intercalate separator part parts
    omega

end Split
