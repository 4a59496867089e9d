import AgnostOS.TaskLifecycle
import Mathlib.Data.Fintype.Card

/-! Task identifiers: no two spawns return the same one, the identifier of a reaped task
does nothing, and the occupied slots are accounted for. -/
namespace AgnostOS.Tasks
open Globals Word

def Event.spawnedId : Event → Option TaskId
  | .spawned task => some task
  | _ => none

def Event.reapedId : Event → Option TaskId
  | .reaped task => some task
  | _ => none

def spawnedIds (events : List Event) : List TaskId := events.filterMap Event.spawnedId
def reapedIds (events : List Event) : List TaskId := events.filterMap Event.reapedId

def spawnCount (index : Fin MAX_TASKS) (events : List Event) : Nat :=
  (spawnedIds events).countP fun id => id.index = (index : Nat)

def Scheduler.occupied {W : Type*} (s : Scheduler W) : Nat :=
  (Finset.univ.filter fun index => (s.tasks index).isSome).card

section Counts
variable {W : Type*} {s s' : Scheduler W} {index : Fin MAX_TASKS}

theorem occupied_congr (h : ∀ index, (s'.tasks index).isSome = (s.tasks index).isSome) :
    s'.occupied = s.occupied := by
  simp only [Scheduler.occupied, h]

theorem occupied_fill {task : Task W} (hempty : s.tasks index = none)
    (htasks : s'.tasks = Function.update s.tasks index (some task)) :
    s'.occupied = s.occupied + 1 := by
  have hinsert : (Finset.univ.filter fun other => (s'.tasks other).isSome) =
      insert index (Finset.univ.filter fun other => (s.tasks other).isSome) := by
    ext other
    by_cases hother : other = index
    · subst hother
      simp [htasks]
    · simp [htasks, hother]
  rw [Scheduler.occupied, hinsert, Finset.card_insert_of_notMem (by simp [hempty]),
    Scheduler.occupied]

theorem occupied_clear {task : Task W} (hfull : s.tasks index = some task)
    (htasks : s'.tasks = Function.update s.tasks index none) : s'.occupied + 1 = s.occupied := by
  refine (@occupied_fill W s' s index task ?_ ?_).symm
  · rw [htasks, Function.update_self]
  · rw [htasks, Function.update_idem, ← hfull, Function.update_eq_self]

theorem occupied_overwrite {old task : Task W} (hfull : s.tasks index = some old)
    (htasks : s'.tasks = Function.update s.tasks index (some task)) :
    s'.occupied = s.occupied := by
  refine occupied_congr fun other => ?_
  by_cases hother : other = index
  · subst hother
    simp [htasks, hfull]
  · simp [htasks, hother]

theorem occupied_eq_max : s.occupied = MAX_TASKS ↔ ∀ index, s.tasks index ≠ none := by
  have hcard : (Finset.univ : Finset (Fin MAX_TASKS)).card = MAX_TASKS := Finset.card_fin MAX_TASKS
  constructor
  · intro hfull index
    have huniv := Finset.eq_univ_of_card _ (hfull.trans (Fintype.card_fin MAX_TASKS).symm)
    have hmem : index ∈ Finset.univ.filter fun index => (s.tasks index).isSome := by
      rw [huniv]
      exact Finset.mem_univ index
    simpa [Option.isSome_iff_ne_none] using hmem
  · intro hall
    have hfilter : (Finset.univ.filter fun index => (s.tasks index).isSome) = Finset.univ :=
      Finset.filter_true_of_mem fun index _ => Option.isSome_iff_ne_none.mpr (hall index)
    rw [Scheduler.occupied, hfilter, hcard]

end Counts

/-! ### Occupancy -/

theorem occupied_of_occurs {W : Type*} {e : Event} {s s' : Scheduler W}
    (h : Scheduler.Occurs e s s') :
    s'.occupied + (reapedIds [e]).length = s.occupied + (spawnedIds [e]).length := by
  cases h with
  | spawned entry hempty => exact occupied_fill hempty rfl
  | reaped htask => exact occupied_clear htask rfl
  | woken htask => exact occupied_overwrite htask rfl
  | cancelled htask => exact occupied_overwrite htask rfl
  | dispatched place now world hnext htask => exact occupied_overwrite htask rfl
  | clock now =>
    refine occupied_congr fun index => ?_
    rw [Scheduler.wakeExpired, Option.isSome_map]

/-- Occupied slots are the spawns that no reap has undone. -/
theorem occupied_of_trace {W : Type*} {events : List Event} {s : Scheduler W}
    (h : Trace Scheduler.Occurs events .new s) :
    s.occupied + (reapedIds events).length = (spawnedIds events).length := by
  refine h.history_invariant (I := fun events (s : Scheduler W) =>
    s.occupied + (reapedIds events).length = (spawnedIds events).length) ?_ ?_
  · intro events e s s' hbefore hoccurs
    have hafter := occupied_of_occurs hoccurs
    simp only [reapedIds, spawnedIds, List.filterMap_append, List.length_append] at *
    omega
  · simp [Scheduler.occupied, Scheduler.new, reapedIds, spawnedIds]

/-! ### Generations -/

structure Fresh {W : Type*} (events : List Event) (s : Scheduler W) : Prop where
  generations : ∀ index, s.generations index = spawnCount index events
  nodup : (spawnedIds events).Nodup
  spawned : ∀ id ∈ spawnedIds events, id.generation ≤ spawnCount (slotOf id.index) events
  reaped : ∀ index : Fin MAX_TASKS, ∀ id ∈ reapedIds events, id.index = index →
    id.generation ≤ s.generations index ∧
      (id.generation = s.generations index → s.tasks index = none)

section Fresh
variable {W : Type*} {events : List Event} {s s' : Scheduler W}

theorem Fresh.quiet (hf : Fresh events s) {e : Event} (hspawn : e.spawnedId = none)
    (hreap : e.reapedId = none) (hgen : s'.generations = s.generations)
    (hempty : ∀ index, s.tasks index = none → s'.tasks index = none) :
    Fresh (events ++ [e]) s' := by
  have hspawned : spawnedIds (events ++ [e]) = spawnedIds events := by
    simp [spawnedIds, List.filterMap_append, hspawn]
  have hreaped : reapedIds (events ++ [e]) = reapedIds events := by
    simp [reapedIds, List.filterMap_append, hreap]
  refine ⟨?_, ?_, ?_, ?_⟩
  · simpa [spawnCount, hspawned, hgen] using hf.generations
  · rw [hspawned]
    exact hf.nodup
  · simpa [spawnCount, hspawned] using hf.spawned
  · intro index id hid hindex
    rw [hreaped] at hid
    obtain ⟨hle, hnone⟩ := hf.reaped index id hid hindex
    rw [hgen]
    exact ⟨hle, fun heq => hempty index (hnone heq)⟩

theorem nextGeneration_of_lt {generation : Nat} (h : generation < 2 ^ 32 - 1) :
    nextGeneration generation = generation + 1 := by
  rw [nextGeneration, wrappingAdd_of_lt (by omega)]
  omega

theorem spawnedIds_spawned (events : List Event) (id : TaskId) :
    spawnedIds (events ++ [.spawned id]) = spawnedIds events ++ [id] := by
  simp [spawnedIds, List.filterMap_append, Event.spawnedId]

theorem spawnCount_spawned (events : List Event) (index other : Fin MAX_TASKS) (generation : Nat) :
    spawnCount other (events ++ [.spawned ⟨index, generation⟩]) =
      spawnCount other events + if other = index then 1 else 0 := by
  simp only [spawnCount, spawnedIds_spawned, List.countP_append]
  by_cases hother : other = index
  · simp [hother]
  · have hne : (index : Nat) ≠ other := fun heq => hother (Fin.ext heq.symm)
    simp [hother, hne]

theorem Fresh.spawn (hf : Fresh events s) {index : Fin MAX_TASKS}
    (hroom : spawnCount index events < 2 ^ 32 - 1)
    (hgen : s'.generations =
      Function.update s.generations index (nextGeneration (s.generations index)))
    (htasks : ∀ other, other ≠ index → s'.tasks other = s.tasks other) :
    Fresh (events ++ [.spawned ⟨index, nextGeneration (s.generations index)⟩]) s' := by
  have hnext : nextGeneration (s.generations index) = spawnCount index events + 1 := by
    rw [hf.generations index, nextGeneration_of_lt hroom]
  rw [hnext] at hgen ⊢
  have hspawned := spawnedIds_spawned events ⟨index, spawnCount index events + 1⟩
  refine ⟨fun other => ?_, ?_, fun id hid => ?_, fun other id hid hindex => ?_⟩
  · rw [spawnCount_spawned, hgen]
    by_cases hother : other = index
    · subst hother
      simp
    · simp [hother, hf.generations other]
  · rw [hspawned]
    refine List.nodup_append.mpr ⟨hf.nodup, List.nodup_singleton _, fun id hid new hnew heq => ?_⟩
    rw [List.mem_singleton.mp hnew] at heq
    have hle := hf.spawned id hid
    rw [heq] at hle
    simp only [Scheduler.slotOf_val] at hle
    omega
  · rw [spawnCount_spawned]
    rw [hspawned] at hid
    cases List.mem_append.mp hid with
    | inl hold => exact (hf.spawned id hold).trans (Nat.le_add_right _ _)
    | inr hnew =>
      rw [List.mem_singleton.mp hnew]
      simp
  · have hreaped : id ∈ reapedIds events := by
      simpa [reapedIds, List.filterMap_append, Event.reapedId] using hid
    obtain ⟨hle, hnone⟩ := hf.reaped other id hreaped hindex
    rw [hgen]
    by_cases hother : other = index
    · subst hother
      rw [Function.update_self]
      rw [hf.generations other] at hle
      exact ⟨by omega, fun heq => by omega⟩
    · rw [Function.update_of_ne hother, htasks other hother]
      exact ⟨hle, hnone⟩

theorem Fresh.reap (hf : Fresh events s) {index : Fin MAX_TASKS}
    (hgen : s'.generations = s.generations)
    (htasks : s'.tasks = Function.update s.tasks index none) :
    Fresh (events ++ [.reaped (s.idAt index)]) s' := by
  have hspawned : spawnedIds (events ++ [.reaped (s.idAt index)]) = spawnedIds events := by
    simp [spawnedIds, List.filterMap_append, Event.spawnedId]
  have hreaped : reapedIds (events ++ [.reaped (s.idAt index)]) =
      reapedIds events ++ [s.idAt index] := by
    simp [reapedIds, List.filterMap_append, Event.reapedId]
  refine ⟨?_, ?_, ?_, fun other id hid hindex => ?_⟩
  · simpa [spawnCount, hspawned, hgen] using hf.generations
  · rw [hspawned]
    exact hf.nodup
  · simpa [spawnCount, hspawned] using hf.spawned
  · rw [hreaped] at hid
    rw [hgen, htasks]
    by_cases hother : other = index
    · subst hother
      rw [Function.update_self]
      refine ⟨?_, fun _ => rfl⟩
      cases List.mem_append.mp hid with
      | inl hold => exact (hf.reaped other id hold hindex).1
      | inr hnew =>
        rw [List.mem_singleton.mp hnew]
        exact Nat.le_refl _
    · rw [Function.update_of_ne hother]
      cases List.mem_append.mp hid with
      | inl hold => exact hf.reaped other id hold hindex
      | inr hnew =>
        rw [List.mem_singleton.mp hnew] at hindex
        exact absurd (Fin.ext hindex.symm) hother

/-- An empty slot stays empty unless a task is spawned into it. -/
theorem empty_of_occurs {e : Event} (h : Scheduler.Occurs e s s') (hspawn : e.spawnedId = none)
    (index : Fin MAX_TASKS) (hempty : s.tasks index = none) : s'.tasks index = none := by
  have hmove := move_of_occurs h index
  rw [Scheduler.slotState, hempty, Option.map_none] at hmove
  generalize hafter : s'.slotState index = b at hmove
  cases hmove with
  | spawn => cases hspawn
  | reap _ hdone => simp [Done] at hdone
  | stay => simpa [Scheduler.slotState] using hafter

theorem Fresh.occurs {e : Event} (hf : Fresh events s) (h : Scheduler.Occurs e s s')
    (hroom : ∀ index, spawnCount index (events ++ [e]) ≤ 2 ^ 32 - 1) :
    Fresh (events ++ [e]) s' := by
  have hstays := empty_of_occurs h
  cases h with
  | @spawned _ index entry hempty =>
    have hbound := hroom index
    rw [spawnCount_spawned, if_pos rfl] at hbound
    exact hf.spawn (Nat.lt_of_succ_le hbound) rfl fun other hother =>
      Function.update_of_ne hother ..
  | reaped htask hdone => exact hf.reap rfl rfl
  | _ => exact hf.quiet rfl rfl rfl (hstays rfl)

theorem spawnCount_le_append (index : Fin MAX_TASKS) (first second : List Event) :
    spawnCount index first ≤ spawnCount index (first ++ second) := by
  rw [spawnCount, spawnCount, spawnedIds, spawnedIds, List.filterMap_append, List.countP_append]
  exact Nat.le_add_right _ _

theorem fresh_of_trace (h : Trace Scheduler.Occurs events .new s)
    (hroom : ∀ index, spawnCount index events ≤ 2 ^ 32 - 1) : Fresh events s := by
  refine h.history_invariant (I := fun events (s : Scheduler W) =>
    (∀ index, spawnCount index events ≤ 2 ^ 32 - 1) → Fresh events s) ?_ ?_ hroom
  · intro events e s s' hfresh hoccurs hbound
    exact (hfresh fun index => (spawnCount_le_append index events [e]).trans
      (hbound index)).occurs hoccurs hbound
  · intro _
    refine ⟨?_, ?_, ?_, ?_⟩ <;> simp [Scheduler.new, spawnCount, spawnedIds, reapedIds]

end Fresh

/-! ### Stale identifiers -/

structure Inert {W : Type*} (s : Scheduler W) (id : TaskId) : Prop where
  state : s.state id = none
  context : s.context id = none
  stack : s.stack id = none
  wake : s.wake id = (.error .invalidTask, s)
  cancel : s.cancel id = (.error .invalidTask, s)
  reap : s.reap id = (.error .invalidTask, s)

structure SameBeside {W : Type*} (index : Nat) (s s' : Scheduler W) : Prop where
  tasks : ∀ other : Fin MAX_TASKS, (other : Nat) ≠ index → s'.tasks other = s.tasks other
  taskStacks : ∀ other : Fin MAX_TASKS, (other : Nat) ≠ index →
    s'.taskStacks other = s.taskStacks other
  contexts : ∀ other : Fin MAX_TASKS, (other : Nat) ≠ index → s'.contexts other = s.contexts other
  generations : s'.generations = s.generations
  current : s'.current = s.current
  next : s'.next = s.next

section Stale
variable {W : Type*} {s : Scheduler W}

theorem liveTask_error {id : TaskId} {error : SchedulerError} (h : s.liveTask id = .error error) :
    error = .invalidTask := by
  simp only [Scheduler.liveTask, Scheduler.validTask] at h
  split_ifs at h
  · exact (Except.error.inj h).symm
  · cases hslot : s.tasks (slotOf id.index) with
    | none =>
      rw [hslot] at h
      exact (Except.error.inj h).symm
    | some task =>
      rw [hslot] at h
      cases h

theorem inert_of_not_live {id : TaskId} (h : ∀ task, s.liveTask id ≠ .ok task) : Inert s id := by
  cases hlive : s.liveTask id with
  | ok task => exact absurd hlive (h task)
  | error error =>
    cases liveTask_error hlive
    have hlookup : s.lookup id = none := by
      cases hsome : s.lookup id with
      | none => rfl
      | some task => exact absurd (Scheduler.lookup_eq_some.mp hsome) (h task)
    refine ⟨?_, ?_, ?_, ?_, ?_, ?_⟩
    · rw [Scheduler.state, hlookup, Option.map_none]
    · rw [Scheduler.context, hlookup, Option.map_none]
    · rw [Scheduler.stack, hlookup, Option.map_none]
    · simp only [Scheduler.wake, hlive]
    · simp only [Scheduler.cancel, hlive]
    · simp only [Scheduler.reap, hlive]

theorem Fresh.inert {events : List Event} (hf : Fresh events s) {id : TaskId}
    (hreaped : id ∈ reapedIds events) : Inert s id := by
  refine inert_of_not_live fun task hlive => ?_
  obtain ⟨index, rfl, htask⟩ := Scheduler.liveTask_eq_ok.mp hlive
  have hnone := (hf.reaped index _ hreaped rfl).2 rfl
  rw [htask] at hnone
  cases hnone

theorem SameBeside.refl (index : Nat) (s : Scheduler W) : SameBeside index s s :=
  ⟨fun _ _ => rfl, fun _ _ => rfl, fun _ _ => rfl, rfl, rfl, rfl⟩

theorem sameBeside_setTask (index : Fin MAX_TASKS) (task : Option (Task W)) :
    SameBeside index s (s.setTask index task) :=
  ⟨fun _ h => Function.update_of_ne (fun heq => h (congrArg Fin.val heq)) ..,
    fun _ _ => rfl, fun _ _ => rfl, rfl, rfl, rfl⟩

theorem sameBeside_wake (s : Scheduler W) (id : TaskId) : SameBeside id.index s (s.wake id).2 := by
  rcases s.wake_cases id with ⟨error, -, hwake⟩ | ⟨index, task, rfl, htask, hwake⟩
  · rw [hwake]
    exact .refl _ s
  · rw [hwake]
    exact sameBeside_setTask index _

theorem sameBeside_cancel (s : Scheduler W) (id : TaskId) :
    SameBeside id.index s (s.cancel id).2 := by
  rcases s.cancel_cases id with ⟨error, -, hcancel⟩ | ⟨index, task, rfl, htask, hcancel⟩
  · rw [hcancel]
    exact .refl _ s
  · rw [hcancel]
    exact sameBeside_setTask index _

theorem sameBeside_reap (s : Scheduler W) (id : TaskId) : SameBeside id.index s (s.reap id).2 := by
  rcases s.reap_cases id with
    ⟨error, -, hreap⟩ | ⟨index, task, rfl, htask, ⟨-, hreap⟩ | ⟨-, hreap⟩⟩
  · rw [hreap]
    exact .refl _ s
  · rw [hreap]
    exact .refl _ s
  · rw [hreap]
    refine { sameBeside_setTask index none with contexts := fun _ h => ?_ }
    exact Function.update_of_ne (fun heq => h (congrArg Fin.val heq)) ..

/-- `spawn` fails exactly on a full scheduler. -/
theorem spawn_fails_iff (entry : TaskEntry W) :
    (∃ error, (s.spawn entry).1 = .error error) ↔ s.occupied = MAX_TASKS := by
  rw [occupied_eq_max]
  rcases s.spawn_cases entry with ⟨hfull, hspawn⟩ | ⟨index, hempty, hspawn⟩
  · simp [hspawn, hfull]
  · rw [hspawn]
    simp only [reduceCtorEq, exists_false, false_iff]
    exact fun hall => hall index hempty

end Stale

/-! ### Every run -/

structure IdsKept {W : Type*} (k : Kernel W) : Prop where
  distinct : (spawnedIds k.history).Nodup
  inert : ∀ id ∈ reapedIds k.history, Inert k.scheduler id
  own_slot : ∀ id, SameBeside id.index k.scheduler (k.scheduler.wake id).2 ∧
    SameBeside id.index k.scheduler (k.scheduler.cancel id).2 ∧
    SameBeside id.index k.scheduler (k.scheduler.reap id).2
  occupancy : k.scheduler.occupied + (reapedIds k.history).length =
    (spawnedIds k.history).length
  full : ∀ entry, (∃ error, (k.scheduler.spawn entry).1 = .error error) ↔
    k.scheduler.occupied = 64

theorem ids_of_run {W : Type*} (world : W) (calls : List (Call W))
    (hroom : ∀ index, spawnCount index ((Kernel.new world).runCalls calls).history ≤ 2 ^ 32 - 1) :
    IdsKept ((Kernel.new world).runCalls calls) := by
  have htrace := Kernel.run_trace world calls
  have hfresh := fresh_of_trace htrace hroom
  have hoccupied := occupied_of_trace htrace
  refine ⟨hfresh.nodup, fun id hid => hfresh.inert hid, fun id => ?_, hoccupied, fun entry => ?_⟩
  · exact ⟨sameBeside_wake _ id, sameBeside_cancel _ id, sameBeside_reap _ id⟩
  · exact spawn_fails_iff entry

/-- A slot that is spawned into, ended, reaped and reused. -/
theorem ids_after_reuse :
    IdsKept ((Kernel.new ()).runCalls [.spawn fun w => (.exit, w), .runNext ⟨fun _ => 0, 0⟩ 0,
      .reap ⟨0, 1⟩, .spawn fun w => (.yield, w)]) :=
  ids_of_run () _ (by decide +kernel)

end AgnostOS.Tasks
