import AgnostOS.TaskFairness

/-! Dispatching until idle: between calls no task is current or running, so `run_next`
never meets an empty slot, and `run_ready` stops at its budget or with nothing to run. -/
namespace AgnostOS.Tasks
open Globals

structure Settled {W : Type*} (s : Scheduler W) : Prop where
  current : s.current = none
  running : ∀ index, s.slotState index ≠ some .running

def NoneRunnable {W : Type*} (now : Nat) (s : Scheduler W) : Prop :=
  ∀ index, s.slotState index ≠ some .ready ∧
    ∀ tick, s.slotState index = some (.sleeping tick) → now < tick

section Scheduler
variable {W : Type*} {s s' : Scheduler W} {index : Fin MAX_TASKS} {e : Event}

theorem stateAfter_ne_running (now : Nat) (action : TaskAction) :
    stateAfter now action ≠ .running := by
  cases action with
  | sleepUntil tick =>
    rw [stateAfter]
    split <;> simp
  | _ => simp [stateAfter]

theorem Move.ne_running {a b : Option TaskState} (h : Move index e a b) (ha : a ≠ some .running) :
    b ≠ some .running := by
  cases h with
  | dispatch _ => simpa using stateAfter_ne_running _ _
  | stay _ => exact ha
  | _ => simp

theorem Settled.occurs (hs : Settled s) (h : Scheduler.Occurs e s s') : Settled s' where
  current := by
    cases h with
    | dispatched place now world hnext htask => rfl
    | _ => exact hs.current
  running other := (move_of_occurs h other).ne_running (hs.running other)

/-- With nothing to run, `wake_expired` changes no slot. -/
theorem NoneRunnable.wakeExpired {now : Nat} (h : NoneRunnable now s) :
    NoneRunnable now (s.wakeExpired now) := by
  intro index
  have hsame : (s.wakeExpired now).slotState index = s.slotState index := by
    rw [slotState_wakeExpired]
    cases hstate : s.slotState index with
    | none => rfl
    | some state =>
      cases state with
      | sleeping tick =>
        have hahead := (h index).2 tick hstate
        simp [Scheduler.expire, hahead]
      | _ => rfl
  rw [hsame]
  exact h index

end Scheduler

namespace Kernel
variable {W : Type*}

end Kernel
end AgnostOS.Tasks
