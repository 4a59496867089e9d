import AgnostOS.TaskStack
import AgnostOS.Library.RoundRobin

/-! The cooperative task scheduler of task/mod.rs. A task entry may read and change
the rest of the kernel, the world. -/
namespace AgnostOS.Tasks
open Globals Word

structure TaskId where
  index : Nat
  generation : Nat
  deriving DecidableEq, Repr

inductive TaskState where
  | ready | running
  | sleeping (tick : Nat)
  | blocked | finished | cancelled
  deriving DecidableEq, Repr

inductive TaskAction where
  | yield
  | sleepUntil (tick : Nat)
  | block
  | exit
  deriving DecidableEq, Repr

abbrev TaskEntry (W : Type*) := W → TaskAction × W

inductive SchedulerError where
  | noTaskSlots | invalidTask | taskNotFinished
  deriving DecidableEq, Repr

structure Task (W : Type*) where
  entry : TaskEntry W
  state : TaskState

structure Scheduler (W : Type*) where
  tasks : Fin MAX_TASKS → Option (Task W)
  taskStacks : Fin MAX_TASKS → TaskStack
  contexts : Fin MAX_TASKS → TaskContext
  generations : Fin MAX_TASKS → Nat
  current : Option TaskId
  next : Nat

abbrev slotOf (index : Nat) : Fin MAX_TASKS := Fin.ofNat MAX_TASKS index

/-- Where the stacks and `task_trampoline` lie in memory during a call. -/
structure Placement where
  address : Fin MAX_TASKS → Nat
  trampoline : Nat

def stateAfter (now : Nat) : TaskAction → TaskState
  | .yield => .ready
  | .sleepUntil tick => if tick ≤ now then .ready else .sleeping tick
  | .block => .blocked
  | .exit => .finished

namespace Scheduler
variable {W : Type*}

def new : Scheduler W where
  tasks _ := none
  taskStacks _ := .new
  contexts _ := .new
  generations _ := 0
  current := none
  next := 0

def spawn (self : Scheduler W) (entry : TaskEntry W) : Except SchedulerError TaskId × Scheduler W :=
  match (List.finRange MAX_TASKS).find? fun index => (self.tasks index).isNone with
  | none => (.error .noTaskSlots, self)
  | some index =>
    let generation := max (wrappingAdd 32 (self.generations index) 1) 1
    (.ok ⟨index, generation⟩,
      { self with
        tasks := Function.update self.tasks index (some ⟨entry, .ready⟩)
        generations := Function.update self.generations index generation })

def validTask (self : Scheduler W) (task : TaskId) : Except SchedulerError (Option (Task W)) :=
  if task.index ≥ MAX_TASKS ∨ self.generations (slotOf task.index) ≠ task.generation then
    .error .invalidTask
  else .ok (self.tasks (slotOf task.index))

def liveTask (self : Scheduler W) (task : TaskId) : Except SchedulerError (Task W) :=
  match self.validTask task with
  | .error error => .error error
  | .ok none => .error .invalidTask
  | .ok (some slot) => .ok slot

def lookup (self : Scheduler W) (task : TaskId) : Option (Task W) :=
  match self.validTask task with
  | .error _ => none
  | .ok slot => slot

def state (self : Scheduler W) (task : TaskId) : Option TaskState :=
  (self.lookup task).map Task.state

def context (self : Scheduler W) (task : TaskId) : Option TaskContext :=
  (self.lookup task).map fun _ => self.contexts (slotOf task.index)

def stack (self : Scheduler W) (task : TaskId) : Option TaskStack :=
  (self.lookup task).map fun _ => self.taskStacks (slotOf task.index)

def assign (self : Scheduler W) (index : Fin MAX_TASKS) (state : TaskState) :
    Except SchedulerError Unit × Scheduler W :=
  match self.tasks index with
  | none => (.error .invalidTask, self)
  | some task =>
    (.ok (), { self with tasks := Function.update self.tasks index (some { task with state }) })

def wake (self : Scheduler W) (task : TaskId) : Except SchedulerError Unit × Scheduler W :=
  match self.liveTask task with
  | .error error => (.error error, self)
  | .ok slot =>
    if slot.state = .blocked then self.assign (slotOf task.index) .ready else (.ok (), self)

def cancel (self : Scheduler W) (task : TaskId) : Except SchedulerError Unit × Scheduler W :=
  match self.liveTask task with
  | .error error => (.error error, self)
  | .ok slot =>
    if ¬ (slot.state = .finished ∨ slot.state = .cancelled) then
      self.assign (slotOf task.index) .cancelled
    else (.ok (), self)

def reap (self : Scheduler W) (task : TaskId) : Except SchedulerError Unit × Scheduler W :=
  match self.liveTask task with
  | .error error => (.error error, self)
  | .ok slot =>
    if ¬ (slot.state = .finished ∨ slot.state = .cancelled) then (.error .taskNotFinished, self)
    else
      (.ok (), { self with
        tasks := Function.update self.tasks (slotOf task.index) none
        contexts := Function.update self.contexts (slotOf task.index) .new })

def expire (now : Nat) : TaskState → TaskState
  | .sleeping tick => if now ≥ tick then .ready else .sleeping tick
  | state => state

def wakeExpired (self : Scheduler W) (now : Nat) : Scheduler W :=
  { self with
    tasks := fun index => (self.tasks index).map fun task =>
      { task with state := expire now task.state } }

def findNextReady (self : Scheduler W) : Option (Fin MAX_TASKS) :=
  ((List.range MAX_TASKS).map fun offset => slotOf (self.next + offset)).find? fun index =>
    (self.tasks index).any fun task => task.state = .ready

def prepare (self : Scheduler W) (place : Placement) (index : Fin MAX_TASKS) : Scheduler W :=
  let context := self.contexts index
  let (stackPointer, stack) :=
    (self.taskStacks index).initializeFrame (place.address index) place.trampoline context
  { self with
    taskStacks := Function.update self.taskStacks index stack
    contexts := Function.update self.contexts index { context with stackPointer }
    current := some ⟨index, self.generations index⟩ }

end Scheduler

/-! ### The scheduler in the kernel -/

inductive Event where
  | spawned (task : TaskId)
  | woken (task : TaskId)
  | cancelled (task : TaskId)
  | reaped (task : TaskId)
  | clock (now : Nat)
  | dispatched (task : TaskId) (action : TaskAction) (now : Nat)
  deriving DecidableEq, Repr

/-- The scheduler beside the rest of the kernel. The history records the calls that
succeeded, the clock values seen and the tasks dispatched; no code reads it. -/
structure Kernel (W : Type*) where
  scheduler : Scheduler W
  world : W
  history : List Event

namespace Kernel
variable {W : Type*}

def wakeExpired (k : Kernel W) (now : Nat) : Kernel W :=
  { k with scheduler := k.scheduler.wakeExpired now, history := k.history ++ [.clock now] }

def runNext (k : Kernel W) (place : Placement) (now : Nat) :
    Except SchedulerError (Option TaskId) × Kernel W :=
  let k := k.wakeExpired now
  match k.scheduler.findNextReady with
  | none => (.ok none, k)
  | some index =>
    let taskId : TaskId := ⟨index, k.scheduler.generations index⟩
    let s := k.scheduler.prepare place index
    match s.tasks index with
    | none => (.error .invalidTask, { k with scheduler := s })
    | some task =>
      match s.assign index .running with
      | (.error error, s) => (.error error, { k with scheduler := s })
      | (.ok (), s) =>
        let (action, world) := task.entry k.world
        match s.assign index (stateAfter now action) with
        | (.error error, s) => (.error error, ⟨s, world, k.history⟩)
        | (.ok (), s) =>
          (.ok (some taskId),
            ⟨{ s with current := none, next := (index + 1) % MAX_TASKS }, world,
              k.history ++ [.dispatched taskId action now]⟩)

/-- The loop of `run_ready` with so much of its budget left. -/
def runReadyFrom (place : Placement) (now : Nat) :
    Nat → Nat → Kernel W → Except SchedulerError Nat × Kernel W
  | 0, dispatched, k => (.ok dispatched, k)
  | budget + 1, dispatched, k =>
    match k.runNext place now with
    | (.error error, k) => (.error error, k)
    | (.ok none, k) => (.ok dispatched, k)
    | (.ok (some _), k) => runReadyFrom place now budget (dispatched + 1) k

def runReady (k : Kernel W) (place : Placement) (now budget : Nat) :
    Except SchedulerError Nat × Kernel W :=
  runReadyFrom place now budget 0 k

end Kernel
end AgnostOS.Tasks
