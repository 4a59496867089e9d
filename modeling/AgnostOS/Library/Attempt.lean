import Mathlib.Tactic.Common

/-! Computations on a state that may stop early: what one returns and the state it
leaves, whether it returns or not. -/

abbrev Attempt (ε σ α : Type) := ExceptT ε (StateM σ) α

namespace Attempt
variable {ε ε' σ α β : Type} {s t : σ}

theorem exists_of_bind_eq_ok {x : Except ε α} {f : α → Except ε β} {b : β}
    (h : x >>= f = .ok b) : ∃ a, x = .ok a ∧ f a = .ok b := by
  cases x with
  | error e => cases h
  | ok a => exact ⟨a, rfl, h⟩

def outcome (x : Attempt ε σ α) (s : σ) : Except ε α × σ := x.run.run s

@[simp] theorem outcome_pure (a : α) (s : σ) :
    outcome (pure a : Attempt ε σ α) s = (.ok a, s) := rfl

@[simp] theorem outcome_throw (e : ε) (s : σ) :
    outcome (throw e : Attempt ε σ α) s = (.error e, s) := rfl

@[simp] theorem outcome_get (s : σ) : outcome (get : Attempt ε σ σ) s = (.ok s, s) := rfl

@[simp] theorem outcome_modify (f : σ → σ) (s : σ) :
    outcome (modify f : Attempt ε σ PUnit) s = (.ok ⟨⟩, f s) := rfl

@[simp] theorem outcome_ite {P : Prop} [Decidable P] (x y : Attempt ε σ α) (s : σ) :
    outcome (if P then x else y) s = if P then outcome x s else outcome y s := by
  split <;> rfl

theorem outcome_bind (x : Attempt ε σ α) (f : α → Attempt ε σ β) (s : σ) :
    outcome (x >>= f) s =
      match outcome x s with
      | (.ok a, t) => outcome (f a) t
      | (.error e, t) => (.error e, t) := by
  simp only [outcome, ExceptT.run_bind, StateT.run_bind]
  cases x.run.run s with
  | mk result t => cases result <;> rfl

@[simp] theorem outcome_get_bind (f : σ → Attempt ε σ β) (s : σ) :
    outcome (get >>= f) s = outcome (f s) s := rfl

@[simp] theorem outcome_modify_bind (g : σ → σ) (f : PUnit → Attempt ε σ β) (s : σ) :
    outcome (modify g >>= f) s = outcome (f ⟨⟩) (g s) := rfl

@[simp] theorem outcome_throw_bind (e : ε) (f : α → Attempt ε σ β) (s : σ) :
    outcome (throw e >>= f) s = (.error e, s) := rfl

theorem outcome_bind_ok {x : Attempt ε σ α} {a : α} (f : α → Attempt ε σ β)
    (h : outcome x s = (.ok a, t)) : outcome (x >>= f) s = outcome (f a) t := by
  rw [outcome_bind, h]

theorem outcome_bind_error {x : Attempt ε σ α} {e : ε} (f : α → Attempt ε σ β)
    (h : outcome x s = (.error e, t)) : outcome (x >>= f) s = (.error e, t) := by
  rw [outcome_bind, h]

/-- Renaming the error changes neither the value nor the state. -/
theorem outcome_adapt (g : ε → ε') (x : Attempt ε σ α) (s : σ) :
    outcome (ExceptT.adapt g x : Attempt ε' σ α) s =
      ((outcome x s).1.mapError g, (outcome x s).2) := rfl

end Attempt
