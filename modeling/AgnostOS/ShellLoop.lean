import AgnostOS.Keyboard
import AgnostOS.Library.Trace
import AgnostOS.MousePackets

/-! The input loop of shell/mod.rs against the input IRQs: sleeping and waking. -/
namespace AgnostOS.Shell
open Input Keyboard Mouse

inductive Device where
  | keyboard | mouse
  deriving DecidableEq

/-- Where the shell is. `sleep` is the `sti` of `enable_and_hlt`, `shadow` the gap between
it and the `hlt`, in which the processor takes no interrupt; `stopped` is a shell whose
`shutdown` command never returned. -/
inductive Phase where
  | prologue | pollMouse | runTasks | reportDropped | pollKeyboard
  | handleKey (key : KeyboardEvent)
  | disable | checkKeyboard | checkMouse | sleep | shadow | halted | enable | stopped
  deriving DecidableEq

structure Loop (δ : Type) where
  phase : Phase
  interruptsEnabled : Bool
  keyboard : KeyboardStatics δ
  mouse : MouseStatics

namespace Loop
variable {δ : Type}

def start (keyboard : δ) : Loop δ := ⟨.prologue, true, initKeyboard keyboard, initMouse⟩

def Interruptible (s : Loop δ) : Prop := s.interruptsEnabled = true ∧ s.phase ≠ .shadow

/-- Returning from an interrupt leaves the `hlt` that it woke. -/
def wake (s : Loop δ) : Loop δ := if s.phase = .halted then { s with phase := .pollMouse } else s

def queue (s : Loop δ) : Device → InputQueue UInt8
  | .keyboard => s.keyboard.input
  | .mouse => s.mouse.input

def irq (s : Loop δ) : Device → UInt8 → Loop δ
  | .keyboard, code => { s with keyboard := keyboardIrq s.keyboard code }
  | .mouse, byte => { s with mouse := pushMouseByte s.mouse byte }

def taken (s : Loop δ) : Device → UInt8 → List UInt8
  | .keyboard, code => if isProtocolByte code then [] else s.keyboard.input.accepts code
  | .mouse, byte => s.mouse.input.accepts byte

end Loop

inductive Event where
  | timerIrq
  | irq (device : Device) (byte : UInt8) (taken : List UInt8)
  | poll (device : Device) (popped : Option UInt8)
  | shell

variable {δ : Type}

inductive Move (kb : PS2Keyboard δ) : Event → Loop δ → Loop δ → Prop
  | timerIrq {s} (h : s.Interruptible) : Move kb .timerIrq s s.wake
  | irq {s} (h : s.Interruptible) (device : Device) (byte : UInt8) :
      Move kb (.irq device byte (s.taken device byte)) s (s.irq device byte).wake
  | enter {s} (h : s.phase = .prologue) : Move kb .shell s { s with phase := .pollMouse }
  | pollMouse {s} (h : s.phase = .pollMouse) :
      Move kb (.poll .mouse (popMouseByte s.mouse).1) s
        { s with phase := .runTasks, mouse := (Mouse.poll s.mouse).2 }
  | runTasks {s} (h : s.phase = .runTasks) : Move kb .shell s { s with phase := .reportDropped }
  | skipReport {s} (h : s.phase = .reportDropped) :
      Move kb .shell s { s with phase := .pollKeyboard }
  | report {s} (h : s.phase = .reportDropped) :
      Move kb .shell s { s with
        phase := .pollKeyboard
        keyboard := { s.keyboard with input := s.keyboard.input.takeDropped.2 }
        mouse := { s.mouse with input := s.mouse.input.takeDropped.2 } }
  | pollKeyboard {s} (h : s.phase = .pollKeyboard) :
      Move kb (.poll .keyboard (popKeyboardScancode s.keyboard).1) s { s with
        phase := match (Keyboard.poll kb s.keyboard).1 with
          | some key => .handleKey key
          | none => .disable
        keyboard := (Keyboard.poll kb s.keyboard).2 }
  | handleKey {s key} (h : s.phase = .handleKey key) : Move kb .shell s { s with phase := .disable }
  | shutdown {s} (h : s.phase = .handleKey (.char '\n')) :
      Move kb .shell s { s with phase := .stopped }
  | disable {s} (h : s.phase = .disable) :
      Move kb .shell s { s with phase := .checkKeyboard, interruptsEnabled := false }
  | checkKeyboard {s} (h : s.phase = .checkKeyboard) :
      Move kb .shell s { s with
        phase := if keyboardQueueIsEmpty s.keyboard then .checkMouse else .enable }
  | checkMouse {s} (h : s.phase = .checkMouse) :
      Move kb .shell s { s with phase := if mouseQueueIsEmpty s.mouse then .sleep else .enable }
  | sti {s} (h : s.phase = .sleep) :
      Move kb .shell s { s with phase := .shadow, interruptsEnabled := true }
  | hlt {s} (h : s.phase = .shadow) : Move kb .shell s { s with phase := .halted }
  | enable {s} (h : s.phase = .enable) :
      Move kb .shell s { s with phase := .pollMouse, interruptsEnabled := true }

/-! ### What the queues have seen -/

def Event.accepted (device : Device) : Event → List UInt8
  | .irq device' _ taken => if device' = device then taken else []
  | _ => []

def Event.popped (device : Device) : Event → List UInt8
  | .poll device' popped => if device' = device then popped.toList else []
  | _ => []

def Event.isPoll (device : Device) : Event → Bool
  | .poll device' _ => device' = device
  | _ => false

def accepted (device : Device) (events : List Event) : List UInt8 :=
  events.flatMap (Event.accepted device)

def popped (device : Device) (events : List Event) : List UInt8 :=
  events.flatMap (Event.popped device)

def polls (device : Device) (events : List Event) : Nat := events.countP (Event.isPoll device)

section Queues
variable {kb : PS2Keyboard δ} {s t : Loop δ} {e : Event}

@[simp] theorem queue_wake (s : Loop δ) (device : Device) : s.wake.queue device = s.queue device := by
  rw [Loop.wake]
  split <;> cases device <;> rfl

inductive QueueStep (device : Device) (q : InputQueue UInt8) : Event → InputQueue UInt8 → Prop
  | same {e q'} (haccepted : e.accepted device = []) (hpopped : e.popped device = [])
      (hpoll : e.isPoll device = false) (hqueue : q'.queue = q.queue) : QueueStep device q e q'
  | push (byte : UInt8) : QueueStep device q (.irq device byte (q.accepts byte)) (q.push byte)
  | pop : QueueStep device q (.poll device q.pop.1) q.pop.2

theorem queueStep_irq (s : Loop δ) (source device : Device) (byte : UInt8) :
    QueueStep device (s.queue device) (.irq source byte (s.taken source byte))
      ((s.irq source byte).queue device) := by
  cases source with
  | mouse =>
    cases device with
    | mouse => exact .push byte
    | keyboard => exact .same rfl rfl rfl rfl
  | keyboard =>
    cases device with
    | mouse => exact .same rfl rfl rfl rfl
    | keyboard =>
      by_cases hprotocol : isProtocolByte byte = true
      · refine .same ?_ rfl rfl ?_
        · simp [Event.accepted, Loop.taken, hprotocol]
        · simp [Loop.queue, Loop.irq, keyboardIrq, hprotocol]
      · have htaken : s.taken .keyboard byte = s.keyboard.input.accepts byte := by
          simp [Loop.taken, hprotocol]
        have hpush : (s.irq .keyboard byte).queue .keyboard = s.keyboard.input.push byte := by
          simp [Loop.queue, Loop.irq, keyboardIrq, hprotocol, pushKeyboardScancode]
        rw [htaken, hpush]
        exact .push byte

theorem Move.queueStep (h : Move kb e s t) (device : Device) :
    QueueStep device (s.queue device) e (t.queue device) := by
  cases h with
  | timerIrq =>
    rw [queue_wake]
    exact .same rfl rfl rfl rfl
  | irq _ source byte =>
    rw [queue_wake]
    exact queueStep_irq s source device byte
  | pollMouse =>
    cases device with
    | keyboard => exact .same rfl rfl rfl rfl
    | mouse =>
      have hpop : (Mouse.poll s.mouse).2.input = s.mouse.input.pop.2 := (Line.poll_assemble _).2
      simp only [Loop.queue, hpop]
      exact .pop
  | pollKeyboard =>
    cases device with
    | mouse => exact .same rfl rfl rfl rfl
    | keyboard =>
      simp only [Loop.queue, poll_input]
      exact .pop
  | report => cases device <;> exact .same rfl rfl rfl rfl
  | enter => cases device <;> exact .same rfl rfl rfl rfl
  | runTasks => cases device <;> exact .same rfl rfl rfl rfl
  | skipReport => cases device <;> exact .same rfl rfl rfl rfl
  | handleKey => cases device <;> exact .same rfl rfl rfl rfl
  | shutdown => cases device <;> exact .same rfl rfl rfl rfl
  | disable => cases device <;> exact .same rfl rfl rfl rfl
  | checkKeyboard => cases device <;> exact .same rfl rfl rfl rfl
  | checkMouse => cases device <;> exact .same rfl rfl rfl rfl
  | sti => cases device <;> exact .same rfl rfl rfl rfl
  | hlt => cases device <;> exact .same rfl rfl rfl rfl
  | enable => cases device <;> exact .same rfl rfl rfl rfl

theorem QueueStep.conserves {device : Device} {q q' : InputQueue UInt8} {acc pop : List UInt8}
    (h : QueueStep device q e q') (hq : q.queue.Conserves acc pop) :
    q'.queue.Conserves (acc ++ e.accepted device) (pop ++ e.popped device) := by
  cases h with
  | same haccepted hpopped _ hqueue =>
    rw [haccepted, hpopped, List.append_nil, List.append_nil, hqueue]
    exact hq
  | push byte => simpa [Event.accepted, Event.popped] using InputQueue.push_conserves byte hq
  | pop => simpa [Event.accepted, Event.popped] using InputQueue.pop_conserves hq

theorem QueueStep.popped_or_drained {device : Device} {q q' : InputQueue UInt8}
    (h : QueueStep device q e q') (hpoll : e.isPoll device = true) :
    (e.popped device).length = 1 ∨ q.queue.items = [] := by
  cases h with
  | same _ _ hnone _ => simp [hnone] at hpoll
  | push byte => cases hpoll
  | pop =>
    cases hpop : q.pop.1 with
    | none => exact .inr (InputQueue.pop_eq_none.mp hpop)
    | some byte => simp [Event.popped]

variable {start : Loop δ} {events : List Event}

theorem conserves_of_trace (h : Trace (Move kb) events start s) (device : Device)
    {acc pop : List UInt8} (hstart : (start.queue device).queue.Conserves acc pop) :
    (s.queue device).queue.Conserves (acc ++ accepted device events)
      (pop ++ popped device events) := by
  refine Trace.history_invariant (I := fun events s => (s.queue device).queue.Conserves
    (acc ++ accepted device events) (pop ++ popped device events)) ?_ h ?_
  · intro events e s t hs hmove
    simpa [accepted, popped] using (hmove.queueStep device).conserves hs
  · simpa [accepted, popped] using hstart

/-- Each poll moves the shell one byte ahead, up to what the queue had accepted before. -/
theorem popped_of_polls (h : Trace (Move kb) events start s) (device : Device)
    {acc pop : List UInt8} (hstart : (start.queue device).queue.Conserves acc pop) :
    min acc.length (pop.length + polls device events) ≤ (pop ++ popped device events).length := by
  refine (Trace.history_invariant (I := fun events s => (s.queue device).queue.Conserves
      (acc ++ accepted device events) (pop ++ popped device events) ∧
    min acc.length (pop.length + polls device events) ≤ (pop ++ popped device events).length)
    ?_ h ⟨by simpa [accepted, popped] using hstart, by simp [polls, popped]⟩).2
  rintro events e s t ⟨hs, hle⟩ hmove
  have hstep := hmove.queueStep device
  refine ⟨by simpa [accepted, popped] using hstep.conserves hs, ?_⟩
  have hgrow : (pop ++ popped device (events ++ [e])).length =
      (pop ++ popped device events).length + (e.popped device).length := by
    simp [popped, Nat.add_assoc]
  have hpolls : polls device (events ++ [e]) =
      polls device events + if e.isPoll device then 1 else 0 := by
    simp [polls, List.countP_append, List.countP_singleton]
  rw [hgrow, hpolls]
  split
  · next hpoll =>
    cases hstep.popped_or_drained hpoll with
    | inl hone => omega
    | inr hdrained =>
      have hall := congrArg List.length (hs.drained hdrained)
      simp only [List.length_append] at hall hle ⊢
      omega
  · omega

end Queues

/-! ### Sleeping -/

/-- Interrupts are masked from the check of the queues to its outcome. -/
def Phase.masked : Phase → Bool
  | .checkKeyboard | .checkMouse | .sleep | .enable => true
  | _ => false

/-- The shell has found the device's queue empty and not looked at anything since. -/
def Phase.foundEmpty (device : Device) : Phase → Bool
  | .checkMouse => device = .keyboard
  | .sleep | .shadow | .halted => true
  | _ => false

structure Quiet (s : Loop δ) : Prop where
  masked : s.phase.masked = true → s.interruptsEnabled = false
  empty : ∀ device, s.phase.foundEmpty device = true → (s.queue device).queue.items = []

theorem quiet_start (keyboard : δ) : Quiet (Loop.start keyboard) where
  masked h := by cases h
  empty _ h := by cases h

theorem quiet_of_open {s : Loop δ} (hmasked : s.phase.masked = false)
    (hfound : ∀ device, s.phase.foundEmpty device = false) : Quiet s where
  masked h := by simp [hmasked] at h
  empty device h := by simp [hfound device] at h

theorem Phase.foundEmpty_eq_false {phase : Phase} (hmasked : phase.masked = false)
    (hshadow : phase ≠ .shadow) (hhalted : phase ≠ .halted) (device : Device) :
    phase.foundEmpty device = false := by
  cases phase with
  | shadow => exact absurd rfl hshadow
  | halted => exact absurd rfl hhalted
  | _ => first | rfl | cases hmasked

/-- An interrupt finds the shell asleep or away from the check. -/
theorem Quiet.interrupt {s t : Loop δ} (hs : Quiet s) (h : s.Interruptible)
    (hphase : t.phase = s.phase) : Quiet t.wake := by
  have hmasked : s.phase.masked = false := by
    cases hcase : s.phase.masked with
    | false => rfl
    | true => exact absurd h.1 (by simp [hs.masked hcase])
  rw [Loop.wake, hphase]
  split
  · exact quiet_of_open rfl fun _ => rfl
  · next hhalted =>
    rw [← hphase] at hmasked hhalted
    have hshadow : t.phase ≠ .shadow := hphase ▸ h.2
    exact quiet_of_open hmasked (Phase.foundEmpty_eq_false hmasked hshadow hhalted)

theorem Move.quiet {kb : PS2Keyboard δ} {s t : Loop δ} {e : Event} (h : Move kb e s t)
    (hs : Quiet s) : Quiet t := by
  have hkeyboard : keyboardQueueIsEmpty s.keyboard = true →
      (s.queue .keyboard).queue.items = [] := Fifo.isEmpty_iff.mp
  have hmouse : mouseQueueIsEmpty s.mouse = true →
      (s.queue .mouse).queue.items = [] := Fifo.isEmpty_iff.mp
  cases h with
  | timerIrq h => exact hs.interrupt h rfl
  | irq h source byte => exact hs.interrupt h (by cases source <;> rfl)
  | pollKeyboard =>
    cases hpoll : (Keyboard.poll kb s.keyboard).1 with
    | none => exact quiet_of_open rfl fun _ => rfl
    | some key => exact quiet_of_open rfl fun _ => rfl
  | disable => exact ⟨fun _ => rfl, fun _ h => by cases h⟩
  | checkKeyboard h =>
    have hmasked := hs.masked (by rw [h]; rfl)
    cases hempty : keyboardQueueIsEmpty s.keyboard with
    | false => exact ⟨fun _ => hmasked, fun _ h => by cases h⟩
    | true =>
      refine ⟨fun _ => hmasked, fun device hfound => ?_⟩
      cases device with
      | keyboard => exact hkeyboard hempty
      | mouse => cases hfound
  | checkMouse h =>
    have hmasked := hs.masked (by rw [h]; rfl)
    have hfirst := hs.empty .keyboard (by rw [h]; rfl)
    cases hempty : mouseQueueIsEmpty s.mouse with
    | false => exact ⟨fun _ => hmasked, fun _ h => by cases h⟩
    | true =>
      refine ⟨fun _ => hmasked, fun device _ => ?_⟩
      cases device with
      | keyboard => exact hfirst
      | mouse => exact hmouse hempty
  | sti h => exact ⟨fun hm => (by cases hm), fun device _ => hs.empty device (by rw [h]; rfl)⟩
  | hlt h => exact ⟨fun hm => (by cases hm), fun device _ => hs.empty device (by rw [h]; rfl)⟩
  | enter => exact quiet_of_open rfl fun _ => rfl
  | pollMouse => exact quiet_of_open rfl fun _ => rfl
  | runTasks => exact quiet_of_open rfl fun _ => rfl
  | skipReport => exact quiet_of_open rfl fun _ => rfl
  | report => exact quiet_of_open rfl fun _ => rfl
  | handleKey => exact quiet_of_open rfl fun _ => rfl
  | shutdown => exact quiet_of_open rfl fun _ => rfl
  | enable => exact quiet_of_open rfl fun _ => rfl

/-- A halted shell has seen every byte that its queues accepted. At any time the bytes popped
are the first of those accepted, in order and each once, and each further poll pops the
next of them. -/
theorem no_lost_wakeup {kb : PS2Keyboard δ} {keyboard : δ} {events : List Event} {s : Loop δ}
    (h : Trace (Move kb) events (Loop.start keyboard) s) (device : Device) :
    (s.phase = .halted → (s.queue device).queue.items = [] ∧
      popped device events = accepted device events) ∧
    popped device events ++ (s.queue device).queue.items = accepted device events ∧
    ∀ more t, Trace (Move kb) more s t →
      min (accepted device events).length
          ((popped device events).length + polls device more) ≤
        (popped device (events ++ more)).length := by
  have hstart : ((Loop.start keyboard).queue device).queue.Conserves [] [] := by
    cases device <;> rfl
  have hconserves := conserves_of_trace h device hstart
  simp only [List.nil_append] at hconserves
  have hquiet : Quiet s := h.invariant (fun _ _ _ hs hmove => hmove.quiet hs) (quiet_start keyboard)
  refine ⟨fun hhalted => ?_, hconserves, fun more t hmore => ?_⟩
  · have hempty := hquiet.empty device (by rw [hhalted]; rfl)
    exact ⟨hempty, hconserves.drained hempty⟩
  · have hle := popped_of_polls hmore device hconserves
    simpa [popped] using hle

def markerDecoder : PS2Keyboard Unit := ⟨fun _ _ => (some none, ()), fun _ _ => (none, ())⟩

/-- One pass of the loop pops the marker, and the shell sleeps. -/
theorem no_lost_wakeup_after_marker :
    ∃ events s, Trace (Move markerDecoder) events (Loop.start ()) s ∧ s.phase = .halted ∧
      (s.queue .keyboard).queue.items = [] ∧
      popped .keyboard events = accepted .keyboard events := by
  obtain ⟨events, s, htrace, hphase⟩ :
      ∃ events s, Trace (Move markerDecoder) events (Loop.start ()) s ∧ s.phase = .halted := by
    exact ⟨_, _, .cons (.enter rfl) (.cons (.irq ⟨rfl, by decide⟩ .keyboard 0xe0)
      (.cons (.pollMouse rfl) (.cons (.runTasks rfl) (.cons (.skipReport rfl)
      (.cons (.pollKeyboard rfl) (.cons (.disable rfl) (.cons (.checkKeyboard rfl)
      (.cons (.checkMouse rfl) (.cons (.sti rfl) (.cons (.hlt rfl) .nil)))))))))), rfl⟩
  exact ⟨events, s, htrace, hphase, (no_lost_wakeup htrace .keyboard).1 hphase⟩

end AgnostOS.Shell
