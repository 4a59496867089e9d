import Mathlib.Tactic.Common

/-! Writes to the cells of a memory in order, and the value that each cell is left with. -/
namespace Writes
variable {α β : Type*} [DecidableEq α]

def last : List (α × β) → α → Option β
  | [], _ => none
  | write :: writes, a => (last writes a).or (if write.1 = a then some write.2 else none)

theorem last_eq_none_iff {writes : List (α × β)} {a : α} :
    last writes a = none ↔ ∀ write ∈ writes, write.1 ≠ a := by
  induction writes with
  | nil => simp [last]
  | cons write writes ih =>
    rw [last, Option.or_eq_none_iff, ih, List.forall_mem_cons, and_comm]
    by_cases h : write.1 = a <;> simp [h]

theorem last_const (cells : List α) (b : β) (a : α) :
    last (cells.map fun cell => (cell, b)) a = if a ∈ cells then some b else none := by
  induction cells with
  | nil => rfl
  | cons cell cells ih =>
    rw [List.map_cons, last, ih]
    by_cases hrest : a ∈ cells
    · simp [hrest]
    · rw [if_neg hrest]
      by_cases hself : a = cell
      · simp [hself]
      · simp [hrest, hself, Ne.symm hself]

theorem mem_of_last {writes : List (α × β)} {a : α} {b : β} (h : last writes a = some b) :
    (a, b) ∈ writes := by
  induction writes with
  | nil => cases h
  | cons write writes ih =>
    rw [last, Option.or_eq_some_iff] at h
    cases h with
    | inl hlater => exact List.mem_cons_of_mem write (ih hlater)
    | inr hhere =>
      by_cases hself : write.1 = a
      · rw [if_pos hself] at hhere
        rw [← Option.some.inj hhere.2, ← hself]
        exact List.mem_cons_self
      · rw [if_neg hself] at hhere
        cases hhere.2

theorem last_eq_some {writes : List (α × β)} {a : α} {b : β} (hmem : (a, b) ∈ writes)
    (hsame : ∀ c, (a, c) ∈ writes → c = b) : last writes a = some b := by
  cases hlast : last writes a with
  | none => exact absurd rfl (last_eq_none_iff.mp hlast (a, b) hmem)
  | some c => rw [hsame c (mem_of_last hlast)]

end Writes
