import Mathlib.Tactic.Common

/-! Bounded first-in first-out queues, and what they accept and give back. -/

structure Fifo (n : Nat) (α : Type*) where
  items : List α
  bound : items.length ≤ n

namespace Fifo
variable {n : Nat} {α : Type*}

def empty : Fifo n α := ⟨[], Nat.zero_le n⟩

def isEmpty (q : Fifo n α) : Bool := q.items.isEmpty

def isFull (q : Fifo n α) : Bool := n ≤ q.items.length

def tryPush (q : Fifo n α) (a : α) : Option (Fifo n α) :=
  if h : q.items.length < n then
    some ⟨q.items ++ [a], by rw [List.length_append, List.length_singleton]; omega⟩
  else none

def tryPop : Fifo n α → Option (α × Fifo n α)
  | ⟨[], _⟩ => none
  | ⟨a :: rest, h⟩ => some (a, ⟨rest, Nat.le_of_succ_le h⟩)

@[ext] theorem ext {q q' : Fifo n α} (h : q.items = q'.items) : q = q' := by
  cases q
  cases q'
  cases h
  rfl

@[simp] theorem items_empty : (empty : Fifo n α).items = [] := rfl

theorem isEmpty_iff {q : Fifo n α} : q.isEmpty = true ↔ q.items = [] := List.isEmpty_iff

theorem isFull_iff {q : Fifo n α} : q.isFull = true ↔ n ≤ q.items.length := decide_eq_true_iff

theorem tryPush_eq_some {q q' : Fifo n α} {a : α} :
    q.tryPush a = some q' ↔ q.isFull = false ∧ q'.items = q.items ++ [a] := by
  rw [tryPush, ← Bool.not_eq_true, isFull_iff]
  split
  · next h =>
    rw [Option.some_inj, Fifo.ext_iff, eq_comm]
    exact (and_iff_right (by omega)).symm
  · next h =>
    constructor
    · intro hnone
      cases hnone
    · intro hroom
      exact absurd hroom.1 (by omega)

theorem tryPush_eq_none {q : Fifo n α} {a : α} : q.tryPush a = none ↔ q.isFull = true := by
  rw [tryPush, isFull_iff]
  split
  · next h => simpa using h
  · next h => simpa using h

theorem tryPop_eq_some {q q' : Fifo n α} {a : α} :
    q.tryPop = some (a, q') ↔ q.items = a :: q'.items := by
  cases q with
  | mk items bound =>
    cases items with
    | nil => simp [tryPop]
    | cons b rest => simp [tryPop, Fifo.ext_iff]

theorem tryPop_eq_none {q : Fifo n α} : q.tryPop = none ↔ q.items = [] := by
  cases q with
  | mk items bound =>
    cases items with
    | nil => simp [tryPop]
    | cons b rest => simp [tryPop]

/-- What was accepted is what was given back and what is still queued, in this order. -/
def Conserves (q : Fifo n α) (accepted popped : List α) : Prop := popped ++ q.items = accepted

variable {q q' : Fifo n α} {accepted popped : List α} {a : α}

theorem Conserves.push (h : q.Conserves accepted popped) (hpush : q.tryPush a = some q') :
    q'.Conserves (accepted ++ [a]) popped := by
  rw [Conserves, (tryPush_eq_some.mp hpush).2, ← List.append_assoc, h]

theorem Conserves.pop (h : q.Conserves accepted popped) (hpop : q.tryPop = some (a, q')) :
    q'.Conserves accepted (popped ++ [a]) := by
  rw [Conserves, List.append_assoc, List.singleton_append, ← tryPop_eq_some.mp hpop]
  exact h

theorem Conserves.popped_first (h : q.Conserves accepted popped) : popped <+: accepted := ⟨q.items, h⟩

theorem Conserves.drained (h : q.Conserves accepted popped) (hempty : q.items = []) :
    popped = accepted := by
  rw [← h, hempty, List.append_nil]

end Fifo
