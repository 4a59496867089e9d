import AgnostOS.Scheduler
import AgnostOS.Library.Machine
import AgnostOS.Library.Trace

/-! Runs of the scheduler. Every call is a trace of a few kinds of events; what an
event does to the scheduler is said once. -/
namespace AgnostOS.Tasks
open Globals Word
variable {W : Type*}

/-! ### Events -/

def nextGeneration (generation : Nat) : Nat := max (wrappingAdd 32 generation 1) 1

def awaken : TaskState → TaskState
  | .blocked => .ready
  | state => state

def abort : TaskState → TaskState
  | .finished => .finished
  | _ => .cancelled

namespace Scheduler

def slotState (s : Scheduler W) (index : Fin MAX_TASKS) : Option TaskState :=
  (s.tasks index).map Task.state

abbrev setTask (s : Scheduler W) (index : Fin MAX_TASKS) (task : Option (Task W)) : Scheduler W :=
  { s with tasks := Function.update s.tasks index task }

def idAt (s : Scheduler W) (index : Fin MAX_TASKS) : TaskId := ⟨index, s.generations index⟩

inductive Occurs : Event → Scheduler W → Scheduler W → Prop
  | spawned {s : Scheduler W} {index : Fin MAX_TASKS} (entry : TaskEntry W)
      (hempty : s.tasks index = none) :
      Occurs (.spawned ⟨index, nextGeneration (s.generations index)⟩) s
        { s.setTask index (some ⟨entry, .ready⟩) with
          generations :=
            Function.update s.generations index (nextGeneration (s.generations index)) }
  | woken {s : Scheduler W} {index : Fin MAX_TASKS} {task : Task W}
      (htask : s.tasks index = some task) :
      Occurs (.woken (s.idAt index)) s
        (s.setTask index (some { task with state := awaken task.state }))
  | cancelled {s : Scheduler W} {index : Fin MAX_TASKS} {task : Task W}
      (htask : s.tasks index = some task) :
      Occurs (.cancelled (s.idAt index)) s
        (s.setTask index (some { task with state := abort task.state }))
  | reaped {s : Scheduler W} {index : Fin MAX_TASKS} {task : Task W}
      (htask : s.tasks index = some task)
      (hdone : task.state = .finished ∨ task.state = .cancelled) :
      Occurs (.reaped (s.idAt index)) s
        { s.setTask index none with contexts := Function.update s.contexts index .new }
  | clock {s : Scheduler W} (now : Nat) : Occurs (.clock now) s (s.wakeExpired now)
  | dispatched {s : Scheduler W} {index : Fin MAX_TASKS} {task : Task W} (place : Placement)
      (now : Nat) (world : W) (hnext : s.findNextReady = some index)
      (htask : s.tasks index = some task) :
      Occurs (.dispatched (s.idAt index) (task.entry world).1 now) s
        { (s.prepare place index).setTask index
            (some { task with state := stateAfter now (task.entry world).1 }) with
          current := none
          next := (index + 1) % MAX_TASKS }

/-! ### The operations -/

theorem slotOf_val (index : Fin MAX_TASKS) : slotOf index = index := by
  simp [slotOf]

theorem validTask_idAt (s : Scheduler W) (index : Fin MAX_TASKS) :
    s.validTask (s.idAt index) = .ok (s.tasks index) := by
  have hlt : ¬ MAX_TASKS ≤ (index : Nat) := not_le.mpr index.isLt
  simp [validTask, idAt, hlt]

/-- A task is live exactly under the identifier of its slot. -/
theorem liveTask_eq_ok {s : Scheduler W} {id : TaskId} {task : Task W} :
    s.liveTask id = .ok task ↔ ∃ index, id = s.idAt index ∧ s.tasks index = some task := by
  constructor
  · intro h
    simp only [liveTask, validTask] at h
    split at h
    · cases h
    · cases h
    · next slot hvalid =>
      split_ifs at hvalid with hbad
      push Not at hbad
      have hslot : s.tasks (slotOf id.index) = some task := by
        rw [Except.ok.inj hvalid, Except.ok.inj h]
      refine ⟨slotOf id.index, ?_, hslot⟩
      cases id
      simp only [idAt, TaskId.mk.injEq]
      exact ⟨(Nat.mod_eq_of_lt hbad.1).symm, hbad.2.symm⟩
  · rintro ⟨index, rfl, htask⟩
    simp [liveTask, validTask_idAt, htask]

theorem lookup_eq_some {s : Scheduler W} {id : TaskId} {task : Task W} :
    s.lookup id = some task ↔ s.liveTask id = .ok task := by
  simp only [lookup, liveTask]
  cases s.validTask id with
  | error error => simp
  | ok slot =>
    cases slot with
    | none => simp
    | some slot => simp

theorem assign_of_some {s : Scheduler W} {index : Fin MAX_TASKS} {task : Task W}
    (htask : s.tasks index = some task) (state : TaskState) :
    s.assign index state = (.ok (), s.setTask index (some { task with state })) := by
  simp only [assign, htask]

theorem spawn_cases (s : Scheduler W) (entry : TaskEntry W) :
    ((∀ index, s.tasks index ≠ none) ∧ s.spawn entry = (.error .noTaskSlots, s)) ∨
    ∃ index, s.tasks index = none ∧
      s.spawn entry = (.ok ⟨index, nextGeneration (s.generations index)⟩,
        { s.setTask index (some ⟨entry, .ready⟩) with
          generations :=
            Function.update s.generations index (nextGeneration (s.generations index)) }) := by
  rw [spawn]
  cases hfind : (List.finRange MAX_TASKS).find? fun index => (s.tasks index).isNone with
  | none =>
    refine .inl ⟨fun index hnone => ?_, rfl⟩
    have hsome := List.find?_eq_none.mp hfind index (List.mem_finRange index)
    simp [hnone] at hsome
  | some index =>
    have hnone : s.tasks index = none := by simpa using List.find?_some hfind
    exact .inr ⟨index, hnone, rfl⟩

theorem wake_cases (s : Scheduler W) (id : TaskId) :
    (∃ error, s.liveTask id = .error error ∧ s.wake id = (.error error, s)) ∨
    ∃ index task, id = s.idAt index ∧ s.tasks index = some task ∧
      s.wake id = (.ok (), s.setTask index (some { task with state := awaken task.state })) := by
  cases hlive : s.liveTask id with
  | error error => exact .inl ⟨error, rfl, by simp only [wake, hlive]⟩
  | ok task =>
    obtain ⟨index, rfl, htask⟩ := liveTask_eq_ok.mp hlive
    refine .inr ⟨index, task, rfl, htask, ?_⟩
    simp only [wake, hlive]
    split
    · next hblocked =>
      simp only [idAt, slotOf_val, assign_of_some htask, hblocked, awaken]
    · next hother =>
      have hsame : awaken task.state = task.state := by
        cases hstate : task.state <;> simp_all [awaken]
      rw [hsame, setTask, ← htask, Function.update_eq_self]

theorem cancel_cases (s : Scheduler W) (id : TaskId) :
    (∃ error, s.liveTask id = .error error ∧ s.cancel id = (.error error, s)) ∨
    ∃ index task, id = s.idAt index ∧ s.tasks index = some task ∧
      s.cancel id = (.ok (), s.setTask index (some { task with state := abort task.state })) := by
  cases hlive : s.liveTask id with
  | error error => exact .inl ⟨error, rfl, by simp only [cancel, hlive]⟩
  | ok task =>
    obtain ⟨index, rfl, htask⟩ := liveTask_eq_ok.mp hlive
    refine .inr ⟨index, task, rfl, htask, ?_⟩
    simp only [cancel, hlive]
    split
    · next hopen =>
      have hcancelled : abort task.state = .cancelled := by
        cases hstate : task.state <;> simp_all [abort]
      simp only [idAt, slotOf_val, assign_of_some htask, hcancelled]
    · next hdone =>
      have hsame : abort task.state = task.state := by
        cases hstate : task.state <;> simp_all [abort]
      rw [hsame, setTask, ← htask, Function.update_eq_self]

theorem reap_cases (s : Scheduler W) (id : TaskId) :
    (∃ error, s.liveTask id = .error error ∧ s.reap id = (.error error, s)) ∨
    ∃ index task, id = s.idAt index ∧ s.tasks index = some task ∧
      ((¬ (task.state = .finished ∨ task.state = .cancelled) ∧
          s.reap id = (.error .taskNotFinished, s)) ∨
        (task.state = .finished ∨ task.state = .cancelled) ∧ s.reap id =
          (.ok (), { s.setTask index none with
            contexts := Function.update s.contexts index .new })) := by
  cases hlive : s.liveTask id with
  | error error => exact .inl ⟨error, rfl, by simp only [reap, hlive]⟩
  | ok task =>
    obtain ⟨index, rfl, htask⟩ := liveTask_eq_ok.mp hlive
    refine .inr ⟨index, task, rfl, htask, ?_⟩
    simp only [reap, hlive]
    split
    · next hopen => exact .inl ⟨hopen, rfl⟩
    · next hdone =>
      refine .inr ⟨not_not.mp hdone, ?_⟩
      simp only [idAt, slotOf_val]

/-- The next slot to run is ready, and no ready slot comes before it in the scan. -/
theorem findNextReady_eq_some {s : Scheduler W} {index : Fin MAX_TASKS}
    (h : s.findNextReady = some index) :
    (∃ task, s.tasks index = some task ∧ task.state = .ready) ∧
      ∀ other, s.slotState other = some .ready →
        RoundRobin.distance s.next index ≤ RoundRobin.distance s.next other := by
  obtain ⟨hready, hfirst⟩ := RoundRobin.scan_eq_some h
  constructor
  · simpa [Option.any_eq_true] using hready
  · intro other hother
    refine hfirst other ?_
    simpa [Option.any_eq_true, slotState] using hother

end Scheduler

namespace Kernel

/-- `run_next` by its two outcomes: nothing is ready, or one task runs. -/
theorem runNext_cases (k : Kernel W) (place : Placement) (now : Nat) {s : Scheduler W}
    (hs : k.scheduler.wakeExpired now = s) :
    (s.findNextReady = none ∧ k.runNext place now = (.ok none, k.wakeExpired now)) ∨
    ∃ index task, s.findNextReady = some index ∧ s.tasks index = some task ∧
      k.runNext place now = (.ok (some (s.idAt index)),
        { scheduler :=
            { (s.prepare place index).setTask index
                (some { task with state := stateAfter now (task.entry k.world).1 }) with
              current := none
              next := (index + 1) % MAX_TASKS }
          world := (task.entry k.world).2
          history := k.history ++ [.clock now] ++
            [.dispatched (s.idAt index) (task.entry k.world).1 now] }) := by
  cases hnext : s.findNextReady with
  | none =>
    refine .inl ⟨rfl, ?_⟩
    simp only [runNext, wakeExpired, hs, hnext]
  | some index =>
    obtain ⟨⟨task, htask, -⟩, -⟩ := Scheduler.findNextReady_eq_some hnext
    refine .inr ⟨index, task, rfl, htask, ?_⟩
    have hprepared : (s.prepare place index).tasks index = some task := htask
    have hrunning := Scheduler.assign_of_some hprepared .running
    -- the entry ran while its slot said so
    have hreturned : ((s.prepare place index).setTask index
        (some { task with state := .running })).tasks index =
          some { task with state := .running } := Function.update_self ..
    have hafter := Scheduler.assign_of_some hreturned (stateAfter now (task.entry k.world).1)
    simp only [runNext, wakeExpired, hs, hnext, hprepared, hrunning, hafter, Scheduler.setTask,
      Function.update_idem]
    rfl

structure Effect (k k' : Kernel W) (events : List Event) : Prop where
  history : k'.history = k.history ++ events
  trace : Trace Scheduler.Occurs events k.scheduler k'.scheduler

theorem Effect.refl (k : Kernel W) : Effect k k [] := ⟨(List.append_nil _).symm, rfl⟩

theorem Effect.trans {k k' k'' : Kernel W} {first second : List Event} (h : Effect k k' first)
    (h' : Effect k' k'' second) : Effect k k'' (first ++ second) :=
  ⟨by rw [h'.history, h.history, List.append_assoc], h.trace.append h'.trace⟩

inductive RunsAt (now : Nat) : Event → Prop
  | clock : RunsAt now (.clock now)
  | dispatched (task : TaskId) (action : TaskAction) : RunsAt now (.dispatched task action now)

theorem wakeExpired_effect (k : Kernel W) (now : Nat) :
    Effect k (k.wakeExpired now) [.clock now] :=
  ⟨rfl, .single (.clock now)⟩

theorem runNext_effect (k : Kernel W) (place : Placement) (now : Nat) :
    ∃ events, Effect k (k.runNext place now).2 events ∧ ∀ e ∈ events, RunsAt now e := by
  rcases runNext_cases k place now rfl with
    ⟨-, hrun⟩ | ⟨index, task, hnext, htask, hrun⟩
  · rw [hrun]
    refine ⟨_, wakeExpired_effect k now, fun e he => ?_⟩
    rw [List.mem_singleton.mp he]
    exact .clock
  · rw [hrun]
    have hdispatch := Scheduler.Occurs.dispatched place now k.world hnext htask
    refine ⟨[.clock now] ++ [.dispatched _ _ now],
      ⟨by rw [List.append_assoc], (Trace.single (.clock now)).append (.single hdispatch)⟩, ?_⟩
    intro e he
    cases List.mem_append.mp he with
    | inl hclock =>
      rw [List.mem_singleton.mp hclock]
      exact .clock
    | inr hdispatched =>
      rw [List.mem_singleton.mp hdispatched]
      exact .dispatched _ _

theorem runReadyFrom_effect (k : Kernel W) (place : Placement) (now budget dispatched : Nat) :
    ∃ events, Effect k (runReadyFrom place now budget dispatched k).2 events ∧
      ∀ e ∈ events, RunsAt now e := by
  induction budget generalizing k dispatched with
  | zero => exact ⟨[], .refl k, by simp⟩
  | succ budget ih =>
    obtain ⟨events, heffect, hevents⟩ := runNext_effect k place now
    rw [runReadyFrom]
    split
    · next k' hrun =>
      rw [hrun] at heffect
      exact ⟨events, heffect, hevents⟩
    · next k' hrun =>
      rw [hrun] at heffect
      exact ⟨events, heffect, hevents⟩
    · next k' hrun =>
      rw [hrun] at heffect
      obtain ⟨rest, hrest, hall⟩ := ih k' (dispatched + 1)
      refine ⟨events ++ rest, heffect.trans hrest, fun e he => ?_⟩
      cases List.mem_append.mp he with
      | inl he => exact hevents e he
      | inr he => exact hall e he

end Kernel

/-! ### Generations -/

def SpawnsAt (index : Nat) (e : Event) : Prop := ∃ task, e = .spawned task ∧ task.index = index

/-- The generation of a slot changes only when a task is spawned into it. -/
theorem Scheduler.Occurs.generations {e : Event} {s s' : Scheduler W} (h : Occurs e s s')
    (index : Fin MAX_TASKS) :
    (SpawnsAt index e ∧ s.tasks index = none ∧
      s'.generations index = nextGeneration (s.generations index)) ∨
    ¬ SpawnsAt index e ∧ s'.generations index = s.generations index := by
  cases h with
  | @spawned _ slot entry hempty =>
    by_cases heq : index = slot
    · subst heq
      exact .inl ⟨⟨_, rfl, rfl⟩, hempty, Function.update_self ..⟩
    · refine .inr ⟨?_, Function.update_of_ne heq ..⟩
      rintro ⟨task, hspawned, hindex⟩
      cases hspawned
      exact heq (Fin.ext hindex.symm)
  | _ => exact .inr ⟨by simp [SpawnsAt], rfl⟩

/-! ### Calls -/

/-- A call of the scheduler, or code elsewhere in the kernel. -/
inductive Call (W : Type*) where
  | spawn (entry : TaskEntry W)
  | wake (task : TaskId)
  | cancel (task : TaskId)
  | reap (task : TaskId)
  | wakeExpired (now : Nat)
  | runNext (place : Placement) (now : Nat)
  | runReady (place : Placement) (now budget : Nat)
  | elsewhere (change : W → W)

inductive Call.Emits : Call W → Event → Prop
  | spawn (entry : TaskEntry W) (task : TaskId) : Emits (.spawn entry) (.spawned task)
  | wake (task : TaskId) : Emits (.wake task) (.woken task)
  | cancel (task : TaskId) : Emits (.cancel task) (.cancelled task)
  | reap (task : TaskId) : Emits (.reap task) (.reaped task)
  | wakeExpired (now : Nat) : Emits (.wakeExpired now) (.clock now)
  | runNext {place : Placement} {now : Nat} {e : Event} (h : Kernel.RunsAt now e) :
      Emits (.runNext place now) e
  | runReady {place : Placement} {now budget : Nat} {e : Event} (h : Kernel.RunsAt now e) :
      Emits (.runReady place now budget) e

namespace Kernel

def new (world : W) : Kernel W := ⟨.new, world, []⟩

/-- Takes over the scheduler that a call returned, and records the call when it succeeded. -/
def record {α : Type} (k : Kernel W) (result : Except SchedulerError α × Scheduler W)
    (event : α → Event) : Kernel W :=
  match result with
  | (.ok value, s) => { k with scheduler := s, history := k.history ++ [event value] }
  | (.error _, s) => { k with scheduler := s }

def step (k : Kernel W) : Call W → Kernel W
  | .spawn entry => k.record (k.scheduler.spawn entry) .spawned
  | .wake task => k.record (k.scheduler.wake task) fun _ => .woken task
  | .cancel task => k.record (k.scheduler.cancel task) fun _ => .cancelled task
  | .reap task => k.record (k.scheduler.reap task) fun _ => .reaped task
  | .wakeExpired now => k.wakeExpired now
  | .runNext place now => (k.runNext place now).2
  | .runReady place now budget => (k.runReady place now budget).2
  | .elsewhere change => { k with world := change k.world }

abbrev runCalls (k : Kernel W) (calls : List (Call W)) : Kernel W := Machine.run step k calls

/-- A call that fails leaves the kernel as it was, with no event. -/
theorem emits_of_error {α : Type} {k : Kernel W} {result : Except SchedulerError α × Scheduler W}
    {event : α → Event} {error : SchedulerError} {c : Call W}
    (h : result = (.error error, k.scheduler)) :
    ∃ events, Effect k (k.record result event) events ∧ ∀ e ∈ events, c.Emits e := by
  subst h
  exact ⟨[], .refl k, by simp⟩

/-- A call that succeeds is the one event recorded for it. -/
theorem emits_of_ok {α : Type} {k : Kernel W} {result : Except SchedulerError α × Scheduler W}
    {event : α → Event} {value : α} {s : Scheduler W} {c : Call W} (h : result = (.ok value, s))
    (hoccurs : Scheduler.Occurs (event value) k.scheduler s) (hemits : c.Emits (event value)) :
    ∃ events, Effect k (k.record result event) events ∧ ∀ e ∈ events, c.Emits e := by
  subst h
  refine ⟨[event value], ⟨rfl, .single hoccurs⟩, fun e he => ?_⟩
  rw [List.mem_singleton.mp he]
  exact hemits

theorem step_effect (k : Kernel W) (c : Call W) :
    ∃ events, Effect k (k.step c) events ∧ ∀ e ∈ events, c.Emits e := by
  cases c with
  | spawn entry =>
    cases k.scheduler.spawn_cases entry with
    | inl hfull => exact emits_of_error hfull.2
    | inr hfree =>
      obtain ⟨index, hempty, hspawn⟩ := hfree
      exact emits_of_ok hspawn (.spawned entry hempty) (.spawn entry _)
  | wake task =>
    cases k.scheduler.wake_cases task with
    | inl hdead =>
      obtain ⟨error, -, hwake⟩ := hdead
      exact emits_of_error hwake
    | inr hlive =>
      obtain ⟨index, slot, rfl, hslot, hwake⟩ := hlive
      exact emits_of_ok hwake (.woken hslot) (.wake _)
  | cancel task =>
    cases k.scheduler.cancel_cases task with
    | inl hdead =>
      obtain ⟨error, -, hcancel⟩ := hdead
      exact emits_of_error hcancel
    | inr hlive =>
      obtain ⟨index, slot, rfl, hslot, hcancel⟩ := hlive
      exact emits_of_ok hcancel (.cancelled hslot) (.cancel _)
  | reap task =>
    rcases k.scheduler.reap_cases task with
      ⟨error, -, hreap⟩ | ⟨index, slot, rfl, hslot, ⟨-, hreap⟩ | ⟨hdone, hreap⟩⟩
    · exact emits_of_error hreap
    · exact emits_of_error hreap
    · exact emits_of_ok hreap (.reaped hslot hdone) (.reap _)
  | wakeExpired now =>
    refine ⟨_, wakeExpired_effect k now, fun e he => ?_⟩
    rw [List.mem_singleton.mp he]
    exact .wakeExpired now
  | runNext place now =>
    obtain ⟨events, heffect, hevents⟩ := runNext_effect k place now
    exact ⟨events, heffect, fun e he => .runNext (hevents e he)⟩
  | runReady place now budget =>
    obtain ⟨events, heffect, hevents⟩ := runReadyFrom_effect k place now budget 0
    exact ⟨events, heffect, fun e he => .runReady (hevents e he)⟩
  | elsewhere change => exact ⟨[], ⟨(List.append_nil _).symm, rfl⟩, by simp⟩

theorem run_effect (k : Kernel W) (calls : List (Call W)) :
    ∃ events, Effect k (k.runCalls calls) events := by
  induction calls generalizing k with
  | nil => exact ⟨[], .refl k⟩
  | cons c calls ih =>
    obtain ⟨events, heffect, -⟩ := step_effect k c
    obtain ⟨rest, hrest⟩ := ih (k.step c)
    exact ⟨events ++ rest, heffect.trans hrest⟩

/-- From a new scheduler the history is the whole trace. -/
theorem run_trace (world : W) (calls : List (Call W)) :
    Trace Scheduler.Occurs ((new world).runCalls calls).history .new
      ((new world).runCalls calls).scheduler := by
  obtain ⟨events, heffect⟩ := run_effect (new world) calls
  rw [heffect.history]
  exact heffect.trace

end Kernel
end AgnostOS.Tasks
