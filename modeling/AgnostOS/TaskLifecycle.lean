import AgnostOS.SchedulerRuns

/-! The lifecycle of a task slot: the edges along which its state moves, whatever calls
are made and whatever the clock shows. -/
namespace AgnostOS.Tasks
open Globals

def Done (state : Option TaskState) : Prop := state = some .finished ∨ state = some .cancelled

def Idle (index : Fin MAX_TASKS) : Event → Option TaskState → Prop
  | .clock now, state => ∀ tick, state = some (.sleeping tick) → now < tick
  | .woken task, state => task.index = index → ∃ s, state = some s ∧ s ≠ .blocked
  | .cancelled task, state => task.index = index → Done state
  | .spawned task, _ | .reaped task, _ | .dispatched task _ _, _ => task.index ≠ index

inductive Move (index : Fin MAX_TASKS) : Event → Option TaskState → Option TaskState → Prop
  | spawn {task : TaskId} (h : task.index = index) : Move index (.spawned task) none (some .ready)
  | expire {now tick : Nat} (h : now ≥ tick) :
      Move index (.clock now) (some (.sleeping tick)) (some .ready)
  | wake {task : TaskId} (h : task.index = index) :
      Move index (.woken task) (some .blocked) (some .ready)
  | dispatch {task : TaskId} {action : TaskAction} {now : Nat} (h : task.index = index) :
      Move index (.dispatched task action now) (some .ready) (some (stateAfter now action))
  | cancel {task : TaskId} {state : TaskState} (h : task.index = index)
      (hopen : ¬ Done (some state)) : Move index (.cancelled task) (some state) (some .cancelled)
  | reap {task : TaskId} {state : Option TaskState} (h : task.index = index) (hdone : Done state) :
      Move index (.reaped task) state none
  | stay {e : Event} {state : Option TaskState} (h : Idle index e state) : Move index e state state

/-! ### The scheduler follows the edges -/

def Event.task : Event → Option TaskId
  | .clock _ => none
  | .spawned task | .woken task | .cancelled task | .reaped task | .dispatched task _ _ => some task

theorem idle_of_other {e : Event} {task : TaskId} {index : Fin MAX_TASKS} (he : e.task = some task)
    (h : task.index ≠ index) (state : Option TaskState) : Idle index e state := by
  cases e with
  | clock now => cases he
  | woken task => cases he; exact fun heq => absurd heq h
  | cancelled task => cases he; exact fun heq => absurd heq h
  | _ => cases he; exact h

section Follows
variable {W : Type*} {s s' : Scheduler W} {index : Fin MAX_TASKS}

theorem move_wake (state : TaskState) {task : TaskId} (h : task.index = index) :
    Move index (.woken task) (some state) (some (awaken state)) := by
  cases state with
  | blocked => exact .wake h
  | _ => exact .stay fun _ => ⟨_, rfl, by simp⟩

theorem move_cancel (state : TaskState) {task : TaskId} (h : task.index = index) :
    Move index (.cancelled task) (some state) (some (abort state)) := by
  cases state with
  | finished => exact .stay fun _ => .inl rfl
  | cancelled => exact .stay fun _ => .inr rfl
  | _ => exact .cancel h (by simp [Done])

theorem move_clock (now : Nat) (state : Option TaskState) :
    Move index (.clock now) state (state.map (Scheduler.expire now)) := by
  cases state with
  | none => exact .stay fun _ h => by cases h
  | some state =>
    cases state with
    | sleeping tick =>
      by_cases hpast : now ≥ tick
      · simp only [Option.map_some, Scheduler.expire, if_pos hpast]
        exact .expire hpast
      · simp only [Option.map_some, Scheduler.expire, if_neg hpast]
        refine .stay fun tick' hsame => ?_
        cases hsame
        exact not_le.mp hpast
    | _ => exact .stay fun _ h => by cases h

theorem slotState_wakeExpired (s : Scheduler W) (now : Nat) :
    (s.wakeExpired now).slotState index = (s.slotState index).map (Scheduler.expire now) := by
  simp only [Scheduler.slotState, Scheduler.wakeExpired, Option.map_map]
  rfl

theorem slotState_of_some {task : Task W} (h : s.tasks index = some task) :
    s.slotState index = some task.state := by
  rw [Scheduler.slotState, h, Option.map_some]

/-- An event that writes one slot moves all of them along edges. -/
theorem move_of_update {task : Option (Task W)} {e : Event} {id : TaskId}
    (htasks : s'.tasks = Function.update s.tasks index task) (he : e.task = some id)
    (hid : id.index = index) (hself : Move index e (s.slotState index) (task.map Task.state))
    (other : Fin MAX_TASKS) : Move other e (s.slotState other) (s'.slotState other) := by
  by_cases hother : other = index
  · subst hother
    have hafter : s'.slotState other = task.map Task.state := by
      rw [Scheduler.slotState, htasks, Function.update_self]
    rw [hafter]
    exact hself
  · have hafter : s'.slotState other = s.slotState other := by
      rw [Scheduler.slotState, htasks, Function.update_of_ne hother, Scheduler.slotState]
    rw [hafter]
    refine .stay (idle_of_other he ?_ _)
    rw [hid]
    exact fun heq => hother (Fin.ext heq.symm)

theorem move_of_occurs {e : Event} (h : Scheduler.Occurs e s s') (other : Fin MAX_TASKS) :
    Move other e (s.slotState other) (s'.slotState other) := by
  cases h with
  | spawned entry hempty =>
    refine move_of_update rfl rfl rfl ?_ other
    rw [Scheduler.slotState, hempty]
    exact .spawn rfl
  | woken htask =>
    refine move_of_update rfl rfl rfl ?_ other
    rw [slotState_of_some htask]
    exact move_wake _ rfl
  | cancelled htask =>
    refine move_of_update rfl rfl rfl ?_ other
    rw [slotState_of_some htask]
    exact move_cancel _ rfl
  | reaped htask hdone =>
    refine move_of_update rfl rfl rfl ?_ other
    rw [slotState_of_some htask]
    exact .reap rfl (by simpa [Done] using hdone)
  | clock now =>
    rw [slotState_wakeExpired]
    exact move_clock now _
  | dispatched place now world hnext htask =>
    refine move_of_update rfl rfl rfl ?_ other
    obtain ⟨⟨task, htask', hready⟩, -⟩ := Scheduler.findNextReady_eq_some hnext
    cases htask.symm.trans htask'
    rw [slotState_of_some htask, hready]
    exact .dispatch rfl

end Follows

/-! ### What must lie between two events of a slot -/

def DispatchesAt (index : Nat) (e : Event) : Prop :=
  ∃ task action now, e = .dispatched task action now ∧ task.index = index

def ReapsAt (index : Nat) (e : Event) : Prop := ∃ task, e = .reaped task ∧ task.index = index

def EndsAt (index : Nat) (e : Event) : Prop :=
  (∃ task now, e = .dispatched task .exit now ∧ task.index = index) ∨
    ∃ task, e = .cancelled task ∧ task.index = index

section Between
variable {index : Fin MAX_TASKS} {e d : Event} {a b : Option TaskState}

theorem ready_of_dispatch (h : Move index d a b) (hd : DispatchesAt index d) : a = some .ready := by
  obtain ⟨task, action, now, rfl, hindex⟩ := hd
  cases h with
  | dispatch => rfl
  | stay hidle => exact absurd hindex hidle

theorem done_of_end (h : Move index e a b) (he : EndsAt index e) : Done b := by
  rcases he with ⟨task, now, rfl, hindex⟩ | ⟨task, rfl, hindex⟩
  · cases h with
    | dispatch => exact .inl rfl
    | stay hidle => exact absurd hindex hidle
  · cases h with
    | cancel => exact .inr rfl
    | stay hidle => exact hidle hindex

/-- Only `reap` leaves a finished or cancelled slot. -/
theorem reap_of_leaving_done (h : Move index e a b) (ha : Done a) (hb : ¬ Done b) :
    ReapsAt index e := by
  cases h with
  | reap hindex => exact ⟨_, rfl, hindex⟩
  | stay => exact absurd ha hb
  | cancel _ hopen => exact absurd ha hopen
  | _ => simp [Done] at ha

/-- A slot leaves its sleep by a clock past the deadline, or by `cancel` and `reap`. -/
theorem leaving_sleep {tick : Nat} (h : Move index e a b)
    (ha : a = some (.sleeping tick) ∨ a = some .cancelled)
    (hb : ¬ (b = some (.sleeping tick) ∨ b = some .cancelled)) :
    (∃ now ≥ tick, e = .clock now) ∨ ReapsAt index e := by
  cases h with
  | @expire now _ hpast =>
    cases ha with
    | inl ha =>
      cases ha
      exact .inl ⟨now, hpast, rfl⟩
    | inr ha => cases ha
  | reap hindex => exact .inr ⟨_, rfl, hindex⟩
  | stay => exact absurd ha hb
  | cancel => exact absurd (.inr rfl) hb
  | _ => simp at ha

variable {before between after : List Event}

/-- A slot that is dispatched after its task ended was reaped in between. -/
theorem reaped_between (h : Trace (Move index) (before ++ e :: (between ++ d :: after)) a b)
    (he : EndsAt index e) (hd : DispatchesAt index d) : ∃ r ∈ between, ReapsAt index r := by
  obtain ⟨_, -, ended, hend, hrest⟩ := Trace.append_iff.mp h
  obtain ⟨ready, hbetween, _, hdispatch, -⟩ := Trace.append_iff.mp hrest
  have hdone : Done ended := done_of_end hend he
  have hready : ¬ Done ready := by
    rw [ready_of_dispatch hdispatch hd]
    simp [Done]
  obtain ⟨r, hmem, _, _, hmove, hleft, hright⟩ := hbetween.exists_leaving hdone hready
  exact ⟨r, hmem, reap_of_leaving_done hmove hleft hright⟩

/-- A slot that is dispatched after its task went to sleep saw the deadline pass. -/
theorem clock_between {task : TaskId} {tick now : Nat}
    (h : Trace (Move index)
      (before ++ .dispatched task (.sleepUntil tick) now :: (between ++ d :: after)) a b)
    (hindex : task.index = index) (hlater : now < tick) (hd : DispatchesAt index d) :
    (∃ now' ≥ tick, Event.clock now' ∈ between) ∨ ∃ r ∈ between, ReapsAt index r := by
  obtain ⟨_, -, asleep, hsleep, hrest⟩ := Trace.append_iff.mp h
  obtain ⟨ready, hbetween, _, hdispatch, -⟩ := Trace.append_iff.mp hrest
  have hasleep : asleep = some (.sleeping tick) := by
    cases hsleep with
    | dispatch => simp only [stateAfter, if_neg (not_le.mpr hlater)]
    | stay hidle => exact absurd hindex hidle
  have hready : ¬ (ready = some (.sleeping tick) ∨ ready = some .cancelled) := by
    rw [ready_of_dispatch hdispatch hd]
    simp
  obtain ⟨r, hmem, _, _, hmove, hleft, hright⟩ := hbetween.exists_leaving
    (P := fun state => state = some (.sleeping tick) ∨ state = some .cancelled) (.inl hasleep) hready
  rcases leaving_sleep hmove hleft hright with ⟨now', hpast, rfl⟩ | hreap
  · exact .inl ⟨now', hpast, hmem⟩
  · exact .inr ⟨r, hmem, hreap⟩

end Between

/-! ### Every run -/

structure Lifecycle {W : Type*} (k : Kernel W) : Prop where
  moves : ∀ c, ∃ events, Kernel.Effect k (k.step c) events ∧ (∀ e ∈ events, c.Emits e) ∧
    ∀ index, Trace (Move index) events (k.scheduler.slotState index)
      ((k.step c).scheduler.slotState index)
  reap_open : ∀ id state, k.scheduler.state id = some state → ¬ Done (some state) →
    k.scheduler.reap id = (.error .taskNotFinished, k.scheduler)
  ended : ∀ (index : Fin MAX_TASKS) before e between d after,
    k.history = before ++ e :: (between ++ d :: after) → EndsAt index e → DispatchesAt index d →
      ∃ r ∈ between, ReapsAt index r
  asleep : ∀ (index : Fin MAX_TASKS) (task : TaskId) tick now before between d after,
    k.history = before ++ .dispatched task (.sleepUntil tick) now :: (between ++ d :: after) →
      task.index = index → now < tick → DispatchesAt index d →
        (∃ now' ≥ tick, Event.clock now' ∈ between) ∨ ∃ r ∈ between, ReapsAt index r

theorem reap_of_open {W : Type*} {s : Scheduler W} {id : TaskId} {state : TaskState}
    (hstate : s.state id = some state) (hopen : ¬ Done (some state)) :
    s.reap id = (.error .taskNotFinished, s) := by
  obtain ⟨task, hlookup, rfl⟩ := Option.map_eq_some_iff.mp hstate
  have hlive := Scheduler.lookup_eq_some.mp hlookup
  have hleave : ¬ (task.state = .finished ∨ task.state = .cancelled) := by simpa [Done] using hopen
  simp only [Scheduler.reap, hlive, if_pos hleave]

theorem trace_of_occurs {W : Type*} {s s' : Scheduler W} {events : List Event}
    (h : Trace Scheduler.Occurs events s s') (index : Fin MAX_TASKS) :
    Trace (Move index) events (s.slotState index) (s'.slotState index) :=
  h.project (fun s => s.slotState index) fun _ _ _ hoccurs => move_of_occurs hoccurs index

theorem lifecycle_of_run {W : Type*} (world : W) (calls : List (Call W)) :
    Lifecycle ((Kernel.new world).runCalls calls) := by
  have htrace := trace_of_occurs (Kernel.run_trace world calls)
  refine ⟨fun c => ?_, fun id state => reap_of_open, ?_, ?_⟩
  · obtain ⟨events, heffect, hemits⟩ := Kernel.step_effect ((Kernel.new world).runCalls calls) c
    exact ⟨events, heffect, hemits, trace_of_occurs heffect.trace⟩
  · intro index before e between d after hsplit hend hdispatch
    have h := htrace index
    rw [hsplit] at h
    exact reaped_between h hend hdispatch
  · intro index task tick now before between d after hsplit hindex hlater hdispatch
    have h := htrace index
    rw [hsplit] at h
    exact clock_between h hindex hlater hdispatch

end AgnostOS.Tasks
