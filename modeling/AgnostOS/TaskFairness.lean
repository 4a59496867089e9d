import AgnostOS.TaskLifecycle
import Mathlib.Data.List.TakeWhile

/-! No overtaking in the round-robin: while a ready task waits, every dispatch brings
the scan cursor nearer to it, so no slot is dispatched twice. -/
namespace AgnostOS.Tasks
open Globals

def Event.settles (task : TaskId) : Event → Bool
  | .dispatched id _ _ | .cancelled id => id = task
  | _ => false

def Event.dispatchedSlot : Event → Option Nat
  | .dispatched id _ _ => some id.index
  | _ => none

def dispatchedSlots (events : List Event) : List Nat := events.filterMap Event.dispatchedSlot

section Waiting
variable {W : Type*} {s s' : Scheduler W} {index : Fin MAX_TASKS} {e : Event}

/-- A ready task stays ready, under its identifier, until it is dispatched or cancelled. -/
theorem ready_of_unsettled (h : Scheduler.Occurs e s s') (hready : s.slotState index = some .ready)
    (hwait : ¬ e.settles (s.idAt index)) :
    s'.slotState index = some .ready ∧ s'.idAt index = s.idAt index := by
  constructor
  · have hmove := move_of_occurs h index
    rw [hready] at hmove
    generalize s'.slotState index = b at hmove
    cases hmove with
    | dispatch hindex =>
      cases h
      cases Fin.ext hindex
      simp [Event.settles] at hwait
    | cancel hindex =>
      cases h
      cases Fin.ext hindex
      simp [Event.settles] at hwait
    | reap _ hdone => simp [Done] at hdone
    | stay => rfl
  · rcases h.generations index with ⟨-, hempty, -⟩ | ⟨-, hsame⟩
    · rw [Scheduler.slotState, hempty] at hready
      cases hready
    · rw [Scheduler.idAt, hsame, Scheduler.idAt]

/-- What a dispatch of another slot does to the cursor; nothing else moves it. -/
theorem cursor_of_unsettled (h : Scheduler.Occurs e s s') (hready : s.slotState index = some .ready)
    (hwait : ¬ e.settles (s.idAt index)) :
    (e.dispatchedSlot = none ∧ s'.next = s.next) ∨
    ∃ other : Fin MAX_TASKS, e.dispatchedSlot = some other ∧ other ≠ index ∧
      s'.next = (other + 1) % MAX_TASKS ∧
      RoundRobin.distance ((other : Nat) + 1) index < RoundRobin.distance s.next index := by
  cases h with
  | @dispatched _ other task place now world hnext htask =>
    have hne : other ≠ index := by
      rintro rfl
      simp [Event.settles] at hwait
    have hfirst := (Scheduler.findNextReady_eq_some hnext).2 index hready
    have hnearer := RoundRobin.distance_after hne hfirst
    exact .inr ⟨other, rfl, hne, rfl, by omega⟩
  | _ => exact .inl ⟨rfl, rfl⟩

theorem distance_mod (cursor : Nat) (index : Fin MAX_TASKS) :
    RoundRobin.distance (cursor % MAX_TASKS) index = RoundRobin.distance cursor index := by
  rw [RoundRobin.distance, RoundRobin.distance, Nat.mod_mod]

/-- The slots dispatched while a ready task waits: none twice, all nearer and nearer. -/
theorem dispatched_while_waiting {events : List Event} (h : Trace Scheduler.Occurs events s s')
    (hready : s.slotState index = some .ready)
    (hwait : ∀ e ∈ events, ¬ e.settles (s.idAt index)) :
    (dispatchedSlots events).Nodup ∧ ∀ slot ∈ dispatchedSlots events,
      slot < MAX_TASKS ∧ slot ≠ index ∧
        RoundRobin.distance (slot + 1) index < RoundRobin.distance s.next index := by
  induction events generalizing s with
  | nil => simp [dispatchedSlots]
  | cons e events ih =>
    obtain ⟨t, he, hrest⟩ := h
    have hunsettled := hwait e List.mem_cons_self
    obtain ⟨hstill, hid⟩ := ready_of_unsettled he hready hunsettled
    obtain ⟨hnodup, hnear⟩ := ih hrest hstill fun d hd =>
      hid ▸ hwait d (List.mem_cons_of_mem e hd)
    rcases cursor_of_unsettled he hready hunsettled with
      ⟨hnone, hnext⟩ | ⟨other, hother, hne, hnext, hnearer⟩
    · rw [dispatchedSlots, List.filterMap_cons_none hnone]
      rw [hnext] at hnear
      exact ⟨hnodup, hnear⟩
    · rw [dispatchedSlots, List.filterMap_cons_some hother]
      simp only [hnext, distance_mod] at hnear
      refine ⟨List.nodup_cons.mpr ⟨fun hmem => ?_, hnodup⟩, ?_⟩
      · exact Nat.lt_irrefl _ (hnear other hmem).2.2
      · refine List.forall_mem_cons.mpr ⟨⟨other.isLt, ?_, hnearer⟩, fun slot hmem => ?_⟩
        · exact fun heq => hne (Fin.ext heq)
        · obtain ⟨hlt, hapart, hcloser⟩ := hnear slot hmem
          exact ⟨hlt, hapart, hcloser.trans hnearer⟩

end Waiting

/-- The task is overtaken by no slot twice, so it waits for fewer dispatches than there
are slots. -/
def NotOvertaken (task : TaskId) (events : List Event) : Prop :=
  let waiting := events.takeWhile fun e => ¬ e.settles task
  (dispatchedSlots waiting).Nodup ∧ task.index ∉ dispatchedSlots waiting ∧
    (dispatchedSlots waiting).length ≤ MAX_TASKS - 1 ∧
    (MAX_TASKS ≤ (dispatchedSlots events).length → ∃ e ∈ events, e.settles task)

theorem notOvertaken_of_waiting {task : TaskId} {events : List Event} (hindex : task.index < MAX_TASKS)
    (hnodup : (dispatchedSlots (events.takeWhile fun e => ¬ e.settles task)).Nodup)
    (hslots : ∀ slot ∈ dispatchedSlots (events.takeWhile fun e => ¬ e.settles task),
      slot < MAX_TASKS ∧ slot ≠ task.index) : NotOvertaken task events := by
  have hout : task.index ∉ dispatchedSlots (events.takeWhile fun e => ¬ e.settles task) :=
    fun hmem => (hslots _ hmem).2 rfl
  -- the waiting slot and the dispatched ones are distinct slots
  have hall : task.index :: dispatchedSlots (events.takeWhile fun e => ¬ e.settles task) ⊆
      List.range MAX_TASKS := by
    refine List.cons_subset.mpr ⟨List.mem_range.mpr hindex, fun slot hmem => ?_⟩
    exact List.mem_range.mpr (hslots slot hmem).1
  have hlen := ((List.nodup_cons.mpr ⟨hout, hnodup⟩).subperm hall).length_le
  rw [List.length_range, List.length_cons] at hlen
  refine ⟨hnodup, hout, Nat.le_sub_of_add_le hlen, fun hmany => ?_⟩
  by_contra hnone
  push Not at hnone
  have hwhole : events.takeWhile (fun e => ¬ e.settles task) = events :=
    List.takeWhile_eq_self_iff.mpr fun e he => by simpa using hnone e he
  rw [hwhole] at hlen
  exact absurd (Nat.lt_of_succ_le hlen) (not_lt.mpr hmany)

theorem no_overtaking {W : Type*} (world : W) (calls later : List (Call W)) {task : TaskId}
    (hready : ((Kernel.new world).runCalls calls).scheduler.state task = some .ready) :
    ∃ events, (((Kernel.new world).runCalls calls).runCalls later).history =
        ((Kernel.new world).runCalls calls).history ++ events ∧ NotOvertaken task events := by
  obtain ⟨slot, hlookup, hstate⟩ := Option.map_eq_some_iff.mp hready
  obtain ⟨index, rfl, htask⟩ :=
    Scheduler.liveTask_eq_ok.mp (Scheduler.lookup_eq_some.mp hlookup)
  obtain ⟨events, heffect⟩ := Kernel.run_effect ((Kernel.new world).runCalls calls) later
  generalize (Kernel.new world).runCalls calls = k at *
  have htrace := heffect.trace
  rw [← @List.takeWhile_append_dropWhile _ (fun e => ¬ e.settles (k.scheduler.idAt index)) events]
    at htrace
  obtain ⟨_, hwaiting, -⟩ := Trace.append_iff.mp htrace
  have hslot := (slotState_of_some htask).trans (congrArg some hstate)
  obtain ⟨hnodup, hnear⟩ := dispatched_while_waiting hwaiting hslot fun e he => by
    simpa using List.mem_takeWhile_imp he
  refine ⟨events, heffect.history, notOvertaken_of_waiting index.isLt hnodup fun other hmem => ?_⟩
  exact ⟨(hnear other hmem).1, (hnear other hmem).2.1⟩

def threeYielding : List (Call Unit) :=
  [.spawn fun w => (.yield, w), .spawn fun w => (.yield, w), .spawn fun w => (.yield, w),
    .runReady ⟨fun _ => 0, 0⟩ 0 1]

def twoRounds : List (Call Unit) :=
  [.runReady ⟨fun _ => 0, 0⟩ 1 1, .runReady ⟨fun _ => 0, 0⟩ 2 2]

/-- Three tasks that yield, of which the first has just run: it waits for the other two over a
call of `run_ready` with a budget of one dispatch and into the next. -/
theorem first_task_not_overtaken :
    ∃ events, (((Kernel.new ()).runCalls threeYielding).runCalls twoRounds).history =
        ((Kernel.new ()).runCalls threeYielding).history ++ events ∧
      NotOvertaken ⟨0, 1⟩ events ∧ dispatchedSlots events = [1, 2, 0] := by
  have hready : ((Kernel.new ()).runCalls threeYielding).scheduler.state ⟨0, 1⟩ = some .ready := by
    decide +kernel
  obtain ⟨events, hhistory, hkept⟩ := no_overtaking () threeYielding twoRounds hready
  refine ⟨events, hhistory, hkept, ?_⟩
  have hbefore : dispatchedSlots ((Kernel.new ()).runCalls threeYielding).history = [0] := by
    decide +kernel
  have hafter : dispatchedSlots
      (((Kernel.new ()).runCalls threeYielding).runCalls twoRounds).history = [0, 1, 2, 0] := by
    decide +kernel
  rw [hhistory, dispatchedSlots, List.filterMap_append, ← dispatchedSlots, hbefore] at hafter
  exact List.append_cancel_left hafter

end AgnostOS.Tasks
