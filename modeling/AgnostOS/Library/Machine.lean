import Mathlib.Data.List.Basic

/-! Deterministic machines driven by a list of calls: runs, guarded runs, and what
a run emits. -/

namespace Machine
variable {σ κ β : Type*}

def run (step : σ → κ → σ) (s : σ) (calls : List κ) : σ := calls.foldl step s

@[simp] theorem run_nil (step : σ → κ → σ) (s : σ) : run step s [] = s := rfl

theorem run_invariant {step : σ → κ → σ} {I : σ → Prop} (hstep : ∀ s c, I s → I (step s c))
    {s : σ} (h : I s) (calls : List κ) : I (run step s calls) := by
  induction calls generalizing s with
  | nil => exact h
  | cons c calls ih => exact ih (hstep s c h)

/-- Every call of the run meets the guard in the state that it finds. -/
def Guarded (step : σ → κ → σ) (guard : σ → κ → Prop) : σ → List κ → Prop
  | _, [] => True
  | s, c :: calls => guard s c ∧ Guarded step guard (step s c) calls

/-- What every guarded call keeps, every guarded run keeps. -/
theorem guarded_invariant {step : σ → κ → σ} {guard : σ → κ → Prop} {I : σ → Prop}
    (hstep : ∀ s c, I s → guard s c → I (step s c)) {s : σ} (h : I s) {calls : List κ}
    (hguard : Guarded step guard s calls) : I (run step s calls) := by
  induction calls generalizing s with
  | nil => exact h
  | cons c calls ih => exact ih (hstep s c h hguard.1) hguard.2

end Machine
