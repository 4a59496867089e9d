import Mathlib.Data.List.Infix
import Mathlib.Data.List.Induction
import Mathlib.Tactic.Common

/-! Tables that link to tables through their cells: walks along index paths, and what
a change of one cell does to them. -/

namespace Radix
variable {T I : Type*}

def walk (next : T → I → Option T) (root : T) (path : List I) : Option T :=
  path.foldlM next root

section Walk
variable {next next' : T → I → Option T} {root t : T}

@[simp] theorem walk_nil : walk next root [] = some root := rfl

theorem walk_cons (i : I) (path : List I) :
    walk next root (i :: path) = (next root i).bind fun t => walk next t path := rfl

theorem walk_append (p q : List I) :
    walk next root (p ++ q) = (walk next root p).bind fun t => walk next t q :=
  List.foldlM_append

theorem walk_concat (p : List I) (i : I) :
    walk next root (p ++ [i]) = (walk next root p).bind fun t => next t i := by
  rw [walk_append]
  congr 1
  funext t
  cases h : next t i <;> simp [walk_cons, h]

end Walk

/-- No two paths of at most n indices lead to one table. -/
def Tree (next : T → I → Option T) (root : T) (n : Nat) : Prop :=
  ∀ p q t, p.length ≤ n → q.length ≤ n → walk next root p = some t → walk next root q = some t →
    p = q

section Change
variable {next next' : T → I → Option T} {root t : T} {i : I} {n : Nat} {place : List I}

/-- A change of one cell of a table that one path reaches is felt only behind it. -/
theorem walk_of_change (hsame : ∀ t' j, ¬ (t' = t ∧ j = i) → next' t' j = next t' j)
    (honly : ∀ p : List I, p.length ≤ n → walk next root p = some t → p = place)
    {path : List I} (hlen : path.length ≤ n + 1) (hbehind : ¬ place ++ [i] <+: path) :
    walk next' root path = walk next root path := by
  induction path using List.reverseRecOn with
  | nil => rfl
  | append_singleton path j ih =>
    have hlen' : path.length ≤ n := by simpa using hlen
    have hbefore : ¬ place ++ [i] <+: path := fun h => hbehind (h.trans (List.prefix_append _ _))
    rw [walk_concat, walk_concat, ih (Nat.le_succ_of_le hlen') hbefore]
    cases ht : walk next root path with
    | none => rfl
    | some u =>
      apply hsame
      rintro ⟨rfl, rfl⟩
      exact hbehind (honly path hlen' ht ▸ List.prefix_refl _)

theorem walk_of_link [DecidableEq I] {fresh : T}
    (hplace : walk next root place = some t)
    (honly : ∀ p : List I, p.length ≤ n → walk next root p = some t → p = place)
    (hfresh : ∀ p : List I, p.length ≤ n → walk next root p ≠ some fresh) (hnone : next t i = none)
    (hlink : next' t i = some fresh) (hempty : ∀ j, next' fresh j = none)
    (hsame : ∀ t' j, t' ≠ fresh → ¬ (t' = t ∧ j = i) → next' t' j = next t' j)
    {path : List I} (hlen : path.length ≤ n + 1) :
    walk next' root path = if path = place ++ [i] then some fresh else walk next root path := by
  have hmissing : walk next root (place ++ [i]) = none := by
    rw [walk_concat, hplace, Option.bind_some, hnone]
  induction path using List.reverseRecOn with
  | nil => simp
  | append_singleton path j ih =>
    have hlen' : path.length ≤ n := by simpa using hlen
    rw [walk_concat, walk_concat, ih (Nat.le_succ_of_le hlen')]
    by_cases hend : path = place ++ [i]
    · subst hend
      simp [hempty, hmissing]
    · rw [if_neg hend]
      cases hu : walk next root path with
      | none =>
        have hne : path ≠ place := by
          rintro rfl
          cases hu.symm.trans hplace
        simp [hne]
      | some u =>
        simp only [Option.bind_some]
        by_cases hcell : u = t ∧ j = i
        · obtain ⟨rfl, rfl⟩ := hcell
          rw [if_pos (by rw [honly path hlen' hu]), hlink]
        · have hne : path ++ [j] ≠ place ++ [i] := by
            intro heq
            obtain ⟨rfl, hj⟩ := List.append_inj' heq rfl
            exact hcell ⟨Option.some.inj (hu.symm.trans hplace), List.singleton_inj.mp hj⟩
          rw [if_neg hne]
          exact hsame u j (fun h => hfresh path hlen' (h ▸ hu)) hcell

/-- The fresh table is reached by its path alone, and the tree stays a tree. -/
theorem Tree.of_link [DecidableEq I] {fresh : T} (h : Tree next root n)
    (hfresh : ∀ p : List I, p.length ≤ n → walk next root p ≠ some fresh)
    (hwalk : ∀ path : List I, path.length ≤ n →
      walk next' root path = if path = place then some fresh else walk next root path) :
    Tree next' root n := by
  intro p q u hp hq hpu hqu
  rw [hwalk p hp] at hpu
  rw [hwalk q hq] at hqu
  by_cases hpe : p = place
  · by_cases hqe : q = place
    · exact hpe.trans hqe.symm
    · rw [if_pos hpe] at hpu
      rw [if_neg hqe, ← hpu] at hqu
      exact absurd hqu (hfresh q hq)
  · rw [if_neg hpe] at hpu
    by_cases hqe : q = place
    · rw [if_pos hqe] at hqu
      exact absurd (hpu.trans hqu.symm) (hfresh p hp)
    · rw [if_neg hqe] at hqu
      exact h p q u hp hq hpu hqu

end Change

end Radix
