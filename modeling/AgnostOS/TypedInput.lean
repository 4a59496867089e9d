import AgnostOS.HistoryBrowsing
import AgnostOS.Library.Simulation
import AgnostOS.ShellLoop

/-! The shell loop of shell/mod.rs with its console: from the bytes that the keyboard's
interrupts queue to the keys that the session handles. -/
namespace AgnostOS.Shell
open Console Graphics Input Keyboard

/-! ### The decoder -/

variable {δ : Type}

/-- What `poll` makes of one byte, with the crate's decoder and the Ctrl flag. -/
def decode (kb : PS2Keyboard δ) (decoder : δ × Bool) (code : KeyboardScancode) :
    Option KeyboardEvent × (δ × Bool) :=
  let (event, k) := poll kb ⟨InputQueue.new.push code, decoder.1, decoder.2⟩
  (event, k.keyboard, k.ctrlHeld)

def decodeAll (kb : PS2Keyboard δ) (decoder : δ × Bool) :
    List KeyboardScancode → List KeyboardEvent × (δ × Bool)
  | [] => ([], decoder)
  | code :: codes =>
    let (event, decoder) := decode kb decoder code
    let (events, last) := decodeAll kb decoder codes
    (event.toList ++ events, last)

section Decoder
variable {kb : PS2Keyboard δ} {decoder : δ × Bool} {k : KeyboardStatics δ}

def decoderOf (k : KeyboardStatics δ) : δ × Bool := (k.keyboard, k.ctrlHeld)

theorem decodeAll_append (first second : List KeyboardScancode) :
    decodeAll kb decoder (first ++ second) =
      ((decodeAll kb decoder first).1 ++ (decodeAll kb (decodeAll kb decoder first).2 second).1,
        (decodeAll kb (decodeAll kb decoder first).2 second).2) := by
  induction first generalizing decoder with
  | nil => rfl
  | cons code first ih => simp only [List.cons_append, decodeAll, ih, List.append_assoc]

theorem handleKeyEvent_congr (kb : PS2Keyboard δ) {k k' : KeyboardStatics δ}
    (h : decoderOf k = decoderOf k') (event : KeyEvent) :
    (handleKeyEvent kb k event).1 = (handleKeyEvent kb k' event).1 ∧
      decoderOf (handleKeyEvent kb k event).2 = decoderOf (handleKeyEvent kb k' event).2 := by
  obtain ⟨input, keyboard, held⟩ := k
  obtain ⟨input', keyboard', held'⟩ := k'
  cases h
  rw [handleKeyEvent, handleKeyEvent]
  by_cases hctrl : event.code = .lControl ∨ event.code = .rControl
  · rw [if_pos hctrl, if_pos hctrl]
    exact ⟨rfl, rfl⟩
  · rw [if_neg hctrl, if_neg hctrl]
    cases (if event.state = .down then plainKey event.code else none) with
    | some key => exact ⟨rfl, rfl⟩
    | none =>
      cases (if held = true ∧ event.state = .down then ctrlChord event.code else none) with
      | some key => exact ⟨rfl, rfl⟩
      | none =>
        cases kb.processKeyevent keyboard event with
        | mk decoded next =>
          cases decoded with
          | none => exact ⟨rfl, rfl⟩
          | some key => cases key <;> exact ⟨rfl, rfl⟩

theorem poll_eq_decode (kb : PS2Keyboard δ) {code : KeyboardScancode} (h : k.input.pop.1 = some code) :
    (poll kb k).1 = (decode kb (decoderOf k) code).1 ∧
      decoderOf (poll kb k).2 = (decode kb (decoderOf k) code).2 := by
  obtain ⟨input, hpop⟩ : ∃ input, k.input.pop = (some code, input) := ⟨_, Prod.ext h rfl⟩
  obtain ⟨input', hsingle⟩ : ∃ input, (InputQueue.new.push code).pop = (some code, input) :=
    ⟨_, rfl⟩
  simp only [decode, poll, popKeyboardScancode, hpop, hsingle, decoderOf]
  cases (kb.addByte k.keyboard code).1 with
  | none => exact ⟨rfl, rfl⟩
  | some event =>
    cases event with
    | none => exact ⟨rfl, rfl⟩
    | some event =>
      refine handleKeyEvent_congr kb ?_ event
      rfl

theorem poll_of_empty (kb : PS2Keyboard δ) (h : k.input.pop.1 = none) :
    (poll kb k).1 = none ∧ decoderOf (poll kb k).2 = decoderOf k := by
  obtain ⟨input, hpop⟩ : ∃ input, k.input.pop = (none, input) := ⟨_, Prod.ext h rfl⟩
  rw [poll, popKeyboardScancode, hpop]
  exact ⟨rfl, rfl⟩

theorem poll_decodes (kb : PS2Keyboard δ) (k : KeyboardStatics δ) :
    (poll kb k).1.toList = (decodeAll kb (decoderOf k) (popKeyboardScancode k).1.toList).1 ∧
      decoderOf (poll kb k).2 =
        (decodeAll kb (decoderOf k) (popKeyboardScancode k).1.toList).2 := by
  cases hpop : (popKeyboardScancode k).1 with
  | none =>
    obtain ⟨hevent, hdecoder⟩ := poll_of_empty kb hpop
    rw [hevent, hdecoder]
    exact ⟨rfl, rfl⟩
  | some code =>
    obtain ⟨hevent, hdecoder⟩ := poll_eq_decode kb hpop
    rw [hevent, hdecoder]
    simp [decodeAll]

end Decoder

/-! ### The loop with its console -/

structure Desk (δ : Type) where
  loop : Loop δ
  session : Session

def Loop.droppedNotices (s : Loop δ) : List Notice :=
  (if 0 < s.keyboard.input.dropped then [.keyboardDropped s.keyboard.input.dropped] else []) ++
    if 0 < s.mouse.input.dropped then [.mouseDropped s.mouse.input.dropped] else []

def Session.printNotices (font : Font) (s : Session) (notices : List Notice) : Session :=
  notices.foldl (fun s notice => s.output font notice.text) s

def printedNotices (notices : List Notice) : List ShellEvent :=
  notices.map fun notice => .output notice.text

def Phase.prints : Phase → Bool
  | .runTasks | .reportDropped | .handleKey _ => true
  | _ => false

/-- A step of the loop with what it does to the console. Tasks print any notices; a handler
prints nothing. -/
inductive Desk.Step (kb : PS2Keyboard δ) (font : Font) :
    Event × List ShellEvent → Desk δ → Desk δ → Prop
  | quiet {s : Desk δ} {t : Loop δ} {e : Event} (hmove : Move kb e s.loop t)
      (hquiet : e ≠ .shell ∨ s.loop.phase.prints = false) : Step kb font (e, []) s ⟨t, s.session⟩
  | runTasks {s : Desk δ} (h : s.loop.phase = .runTasks) (notices : List Notice) :
      Step kb font (.shell, printedNotices notices) s
        ⟨{ s.loop with phase := .reportDropped }, s.session.printNotices font notices⟩
  | skipReport {s : Desk δ} (h : s.loop.phase = .reportDropped) :
      Step kb font (.shell, []) s ⟨{ s.loop with phase := .pollKeyboard }, s.session⟩
  | report {s : Desk δ} (h : s.loop.phase = .reportDropped) :
      Step kb font (.shell, printedNotices s.loop.droppedNotices) s
        ⟨{ s.loop with
            phase := .pollKeyboard
            keyboard := { s.loop.keyboard with input := s.loop.keyboard.input.takeDropped.2 }
            mouse := { s.loop.mouse with input := s.loop.mouse.input.takeDropped.2 } },
          s.session.printNotices font s.loop.droppedNotices⟩
  | handleKey {s : Desk δ} {key : KeyboardEvent} (h : s.loop.phase = .handleKey key)
      {info : Commands.SystemInfo} {session : Session}
      (hkey : s.session.handleKey font info key = .ok session) :
      Step kb font (.shell, [.key key info]) s ⟨{ s.loop with phase := .disable }, session⟩
  | shutdown {s : Desk δ} (h : s.loop.phase = .handleKey (.char '\n'))
      {info : Commands.SystemInfo}
      (hkey : s.session.handleKey font info (.char '\n') = .error .shutdown) :
      Step kb font (.shell, []) s ⟨{ s.loop with phase := .stopped }, s.session⟩

def loopEvents (events : List (Event × List ShellEvent)) : List Event := events.map Prod.fst

def consoleEvents (events : List (Event × List ShellEvent)) : List ShellEvent :=
  events.flatMap Prod.snd

def keysOf (events : List ShellEvent) : List KeyboardEvent :=
  events.filterMap fun
    | .key key _ => some key
    | .output _ => none

/-- The key that was decoded and not handled to its end. -/
def Phase.unhandled : Phase → List KeyboardEvent
  | .handleKey key => [key]
  | .stopped => [.char '\n']
  | _ => []

section Steps
variable {kb : PS2Keyboard δ} {font : Font} {s t : Desk δ} {e : Event × List ShellEvent}

theorem run_printedNotices (font : Font) (s : Session) (notices : List Notice) :
    s.run font (printedNotices notices) = .ok (s.printNotices font notices) := by
  induction notices generalizing s with
  | nil => rfl
  | cons notice notices ih => exact ih (s.output font notice.text)

theorem Desk.Step.move (h : Step kb font e s t) : Move kb e.1 s.loop t.loop := by
  cases h with
  | quiet hmove _ => exact hmove
  | runTasks h notices => exact .runTasks h
  | skipReport h => exact .skipReport h
  | report h => exact .report h
  | handleKey h _ => exact .handleKey h
  | shutdown h _ => exact .shutdown h

theorem Desk.Step.run (h : Step kb font e s t) : s.session.run font e.2 = .ok t.session := by
  cases h with
  | quiet _ _ => rfl
  | runTasks _ notices => exact run_printedNotices font s.session notices
  | skipReport _ => rfl
  | report _ => exact run_printedNotices font s.session s.loop.droppedNotices
  | handleKey _ hkey =>
    rw [Session.run, List.foldlM_cons, Session.step, hkey]
    rfl
  | shutdown _ _ => rfl

theorem decoderOf_keyboardIrq (k : KeyboardStatics δ) (code : KeyboardScancode) :
    decoderOf (keyboardIrq k code) = decoderOf k := by
  rw [keyboardIrq]
  split <;> rfl

/-- An interrupt decodes nothing, also when it wakes the shell. -/
theorem interrupted {s t : Loop δ} (hphase : t.phase = s.phase)
    (hdecoder : decoderOf t.keyboard = decoderOf s.keyboard) :
    t.wake.phase.unhandled = s.phase.unhandled ++ (decodeAll kb (decoderOf s.keyboard) []).1 ∧
      decoderOf t.wake.keyboard = (decodeAll kb (decoderOf s.keyboard) []).2 := by
  rw [Loop.wake, hphase]
  split
  · next hhalted => exact ⟨by rw [hhalted]; rfl, hdecoder⟩
  · exact ⟨by rw [hphase]; exact (List.append_nil _).symm, hdecoder⟩

/-- Away from the console, a step decodes what it took from the queue. -/
theorem Move.decodes {s t : Loop δ} {e : Event} (h : Move kb e s t)
    (hquiet : e ≠ .shell ∨ s.phase.prints = false) :
    t.phase.unhandled = s.phase.unhandled ++
        (decodeAll kb (decoderOf s.keyboard) (e.popped .keyboard)).1 ∧
      decoderOf t.keyboard = (decodeAll kb (decoderOf s.keyboard) (e.popped .keyboard)).2 := by
  cases h with
  | timerIrq _ => exact interrupted (s := s) rfl rfl
  | irq _ device byte =>
    cases device with
    | keyboard => exact interrupted rfl (decoderOf_keyboardIrq s.keyboard byte)
    | mouse => exact interrupted rfl rfl
  | pollKeyboard hphase =>
    obtain ⟨hevent, hdecoder⟩ := poll_decodes kb s.keyboard
    rw [hphase]
    refine ⟨?_, hdecoder⟩
    refine Eq.trans ?_ hevent
    cases (Keyboard.poll kb s.keyboard).1 <;> rfl
  | pollMouse hphase => exact ⟨by rw [hphase]; rfl, rfl⟩
  | enter hphase => exact ⟨by rw [hphase]; rfl, rfl⟩
  | disable hphase => exact ⟨by rw [hphase]; rfl, rfl⟩
  | checkKeyboard hphase =>
    refine ⟨?_, rfl⟩
    rw [hphase]
    cases hempty : keyboardQueueIsEmpty s.keyboard <;> rfl
  | checkMouse hphase =>
    refine ⟨?_, rfl⟩
    rw [hphase]
    cases hempty : Mouse.mouseQueueIsEmpty s.mouse <;> rfl
  | sti hphase => exact ⟨by rw [hphase]; rfl, rfl⟩
  | hlt hphase => exact ⟨by rw [hphase]; rfl, rfl⟩
  | enable hphase => exact ⟨by rw [hphase]; rfl, rfl⟩
  | runTasks hphase => simp [hphase, Phase.prints] at hquiet
  | skipReport hphase => simp [hphase, Phase.prints] at hquiet
  | report hphase => simp [hphase, Phase.prints] at hquiet
  | handleKey hphase => simp [hphase, Phase.prints] at hquiet
  | shutdown hphase => simp [hphase, Phase.prints] at hquiet

theorem keysOf_printedNotices (notices : List Notice) : keysOf (printedNotices notices) = [] := by
  rw [keysOf, List.filterMap_eq_nil_iff]
  intro event hevent
  obtain ⟨notice, -, rfl⟩ := List.mem_map.mp hevent
  rfl

/-- The keys handled and the key still held are those decoded from what was taken. -/
theorem Desk.Step.decodes (h : Step kb font e s t) :
    keysOf e.2 ++ t.loop.phase.unhandled = s.loop.phase.unhandled ++
        (decodeAll kb (decoderOf s.loop.keyboard) (e.1.popped .keyboard)).1 ∧
      decoderOf t.loop.keyboard =
        (decodeAll kb (decoderOf s.loop.keyboard) (e.1.popped .keyboard)).2 := by
  cases h with
  | quiet hmove hquiet => exact hmove.decodes hquiet
  | runTasks hphase notices =>
    rw [hphase, keysOf_printedNotices]
    exact ⟨rfl, rfl⟩
  | skipReport hphase =>
    rw [hphase]
    exact ⟨rfl, rfl⟩
  | report hphase =>
    rw [hphase, keysOf_printedNotices]
    exact ⟨rfl, rfl⟩
  | handleKey hphase _ =>
    rw [hphase]
    exact ⟨rfl, rfl⟩
  | shutdown hphase _ =>
    rw [hphase]
    exact ⟨rfl, rfl⟩

end Steps

/-! ### Runs -/

section Runs
variable {kb : PS2Keyboard δ} {font : Font} {keyboard : δ} {session : Session} {s t : Desk δ}
  {events : List (Event × List ShellEvent)}

/-- A run of the loop with its console is a run of the loop. -/
theorem Desk.loop_trace (h : Trace (Step kb font) events s t) :
    Trace (Move kb) (loopEvents events) s.loop t.loop := by
  have hshows : ShowsAs (Step kb font) (Move kb) (fun e => [e.1]) fun s l => s.loop = l := by
    rintro e s t - rfl hstep
    exact ⟨t.loop, .single hstep.move, rfl⟩
  obtain ⟨l, hloop, rfl⟩ := hshows.trace rfl h
  rw [loopEvents, List.map_eq_flatMap]
  exact hloop

theorem Desk.session_run (h : Trace (Step kb font) events s t) :
    s.session.run font (consoleEvents events) = .ok t.session := by
  induction events generalizing s with
  | nil => exact congrArg (fun s => Except.ok s.session) h
  | cons e events ih =>
    obtain ⟨u, hstep, hrest⟩ := h
    have hfirst := hstep.run
    rw [Session.run] at hfirst
    rw [consoleEvents, List.flatMap_cons, Session.run, List.foldlM_append, hfirst]
    exact ih hrest

theorem Desk.run_decodes
    (h : Trace (Step kb font) events ⟨Loop.start keyboard, session⟩ s) :
    keysOf (consoleEvents events) ++ s.loop.phase.unhandled =
        (decodeAll kb (keyboard, false) (popped .keyboard (loopEvents events))).1 ∧
      decoderOf s.loop.keyboard =
        (decodeAll kb (keyboard, false) (popped .keyboard (loopEvents events))).2 := by
  refine Trace.history_invariant (I := fun events (s : Desk δ) =>
    keysOf (consoleEvents events) ++ s.loop.phase.unhandled =
        (decodeAll kb (keyboard, false) (popped .keyboard (loopEvents events))).1 ∧
      decoderOf s.loop.keyboard =
        (decodeAll kb (keyboard, false) (popped .keyboard (loopEvents events))).2)
    ?_ h ⟨rfl, rfl⟩
  rintro events e s t ⟨hkeys, hdecoder⟩ hstep
  obtain ⟨hkeys', hdecoder'⟩ := hstep.decodes
  have hpopped : popped .keyboard (loopEvents (events ++ [e])) =
      popped .keyboard (loopEvents events) ++ e.1.popped .keyboard := by
    simp [popped, loopEvents]
  have hconsole : keysOf (consoleEvents (events ++ [e])) =
      keysOf (consoleEvents events) ++ keysOf e.2 := by
    simp [keysOf, consoleEvents]
  rw [hpopped, hconsole, decodeAll_append, ← hkeys, ← hdecoder, List.append_assoc, hkeys',
    List.append_assoc]
  exact ⟨rfl, hdecoder'⟩

/-- A key is handled to its end, or is the Enter of a `shutdown`. -/
theorem Dialogue.handleKey_outcome {d : Dialogue} (h : d.Recalling) (info : Commands.SystemInfo)
    (key : KeyboardEvent) : (∃ next, d.handleKey info key = .ok next) ∨
      d.handleKey info key = .error .shutdown ∧ key = .char '\n' := by
  have hsafe := handleKey_recalling h info key
  cases hstep : d.handleKey info key with
  | ok next => exact .inl ⟨next, rfl⟩
  | error stop =>
    rw [hstep] at hsafe
    have hshutdown : stop = .shutdown := hsafe
    refine .inr ⟨by rw [hshutdown], ?_⟩
    cases key with
    | char c =>
      by_contra hother
      have hnewline : c ≠ '\n' := fun h => hother (congrArg KeyboardEvent.char h)
      rw [Dialogue.handleKey, if_neg hnewline] at hstep
      split at hstep <;> cases hstep
    | arrowUp =>
      obtain ⟨next, hok, -⟩ := arrowUp_step info h.browsing
      rw [hok] at hstep
      cases hstep
    | arrowDown =>
      obtain ⟨next, hok, -⟩ := arrowDown_step info h.browsing
      rw [hok] at hstep
      cases hstep
    | _ => cases hstep

theorem Session.handleKey_outcome (font : Font) {session : Session}
    (h : session.dialogue.Recalling) (info : Commands.SystemInfo) (key : KeyboardEvent) :
    (∃ next, session.handleKey font info key = .ok next) ∨
      session.handleKey font info key = .error .shutdown ∧ key = .char '\n' := by
  have hdialogue : (session.handleKey font info key).map Session.dialogue =
      session.dialogue.handleKey info key := Session.handleKey_dialogue font session key
  cases hstep : session.handleKey font info key with
  | ok next => exact .inl ⟨next, rfl⟩
  | error stop =>
    rw [hstep] at hdialogue
    cases Dialogue.handleKey_outcome h info key with
    | inl hok =>
      obtain ⟨next, hok⟩ := hok
      rw [hok] at hdialogue
      cases hdialogue
    | inr hshutdown =>
      rw [hshutdown.1] at hdialogue
      cases hdialogue
      exact .inr ⟨rfl, hshutdown.2⟩

/-- In any order of keyboard, mouse and timer interrupts, tasks and passes of the loop, the
session handles the keys that the accepted scancodes decode to, in order and each once, up
to those still queued and the one at hand; when the shell sleeps it has handled them all.
A key at hand is always handled to its end, except for the Enter of a `shutdown`. -/
theorem typed_keys_reach_session {greetings : List Notice} {fb : Framebuffer}
    (hinit : Session.init font fb greetings = .ok session)
    (h : Trace (Desk.Step kb font) events ⟨Loop.start keyboard, session⟩ s) :
    session.run font (consoleEvents events) = .ok s.session ∧
    keysOf (consoleEvents events) ++ s.loop.phase.unhandled ++
        (decodeAll kb (decoderOf s.loop.keyboard) s.loop.keyboard.input.queue.items).1 =
      (decodeAll kb (keyboard, false) (accepted .keyboard (loopEvents events))).1 ∧
    (s.loop.phase = .halted → keysOf (consoleEvents events) =
      (decodeAll kb (keyboard, false) (accepted .keyboard (loopEvents events))).1) ∧
    ∀ key info, s.loop.phase = .handleKey key →
      (∃ t, Desk.Step kb font (.shell, [.key key info]) s t) ∨
        key = .char '\n' ∧ ∃ t, Desk.Step kb font (.shell, []) s t ∧ t.loop.phase = .stopped := by
  have hloop := Desk.loop_trace h
  have hrun := Desk.session_run h
  obtain ⟨hkeys, hdecoder⟩ := Desk.run_decodes h
  have hstart : ((Loop.start keyboard).queue .keyboard).queue.Conserves [] [] := rfl
  have hall : popped .keyboard (loopEvents events) ++ s.loop.keyboard.input.queue.items =
      accepted .keyboard (loopEvents events) := conserves_of_trace hloop .keyboard hstart
  have hdecoded : keysOf (consoleEvents events) ++ s.loop.phase.unhandled ++
        (decodeAll kb (decoderOf s.loop.keyboard) s.loop.keyboard.input.queue.items).1 =
      (decodeAll kb (keyboard, false) (accepted .keyboard (loopEvents events))).1 := by
    rw [← hall, decodeAll_append, ← hkeys, ← hdecoder]
  refine ⟨hrun, hdecoded, fun hhalted => ?_, fun key info hphase => ?_⟩
  · have hquiet : Quiet s.loop :=
      hloop.invariant (fun _ _ _ hs hmove => hmove.quiet hs) (quiet_start keyboard)
    have hempty : s.loop.keyboard.input.queue.items = [] :=
      hquiet.empty .keyboard (by rw [hhalted]; rfl)
    rw [hempty, hhalted] at hdecoded
    simpa [Phase.unhandled, decodeAll] using hdecoded
  · have hrecalling := (Session.run_recalling hinit (consoleEvents events)).of_ok hrun
    cases Session.handleKey_outcome font hrecalling info key with
    | inl hok =>
      obtain ⟨next, hok⟩ := hok
      exact .inl ⟨_, .handleKey hphase hok⟩
    | inr hshutdown =>
      obtain ⟨hshutdown, rfl⟩ := hshutdown
      exact .inr ⟨rfl, _, .shutdown hphase hshutdown, rfl⟩

end Runs

def letterDecoder : PS2Keyboard Unit where
  addByte _ code := (if code = 0x1e then some (some ⟨.other 30, .down⟩) else none, ())
  processKeyevent _ _ := (some (.unicode 'a'), ())

/-- The key arrives while the loop runs its tasks, one of which prints. -/
theorem typed_keys_reach_session_letter : ∃ session events s,
    Session.init blankFont smallDisplay [] = .ok session ∧
    Trace (Desk.Step letterDecoder blankFont) events ⟨Loop.start (), session⟩ s ∧
    s.loop.phase = .halted ∧ keysOf (consoleEvents events) = [.char 'a'] := by
  obtain ⟨session, hinit, -⟩ := Session.init_ok blankFont smallDisplay []
  let printed := session.printNotices blankFont [.taskOne 0]
  have hprinted : session.run blankFont (printedNotices [.taskOne 0]) = .ok printed :=
    run_printedNotices blankFont session [.taskOne 0]
  have hrecalling := (Session.run_recalling hinit _).of_ok hprinted
  obtain ⟨next, hnext⟩ : ∃ next, printed.handleKey blankFont idleSystem (.char 'a') = .ok next := by
    cases Session.handleKey_outcome blankFont hrecalling idleSystem (.char 'a') with
    | inl hok => exact hok
    | inr hshutdown => cases hshutdown.2
  obtain ⟨events, s, htrace, hphase, hcodes⟩ : ∃ events s,
      Trace (Desk.Step letterDecoder blankFont) events ⟨Loop.start (), session⟩ s ∧
      s.loop.phase = .halted ∧ accepted .keyboard (loopEvents events) = [0x1e] :=
    ⟨_, _, .cons (.quiet (.enter rfl) (.inr rfl)) (.cons (.quiet (.pollMouse rfl) (.inr rfl))
      (.cons (.quiet (.irq ⟨rfl, by rintro ⟨⟩⟩ .keyboard 0x1e) (.inl nofun))
      (.cons (.runTasks rfl [.taskOne 0]) (.cons (.skipReport rfl)
      (.cons (.quiet (.pollKeyboard rfl) (.inr rfl)) (.cons (.handleKey rfl hnext)
      (.cons (.quiet (.disable rfl) (.inr rfl)) (.cons (.quiet (.checkKeyboard rfl) (.inr rfl))
      (.cons (.quiet (.checkMouse rfl) (.inr rfl)) (.cons (.quiet (.sti rfl) (.inr rfl))
      (.cons (.quiet (.hlt rfl) (.inr rfl)) .nil))))))))))), rfl, rfl⟩
  have hkeys := (typed_keys_reach_session hinit htrace).2.2.1 hphase
  rw [hcodes] at hkeys
  exact ⟨session, events, s, hinit, htrace, hphase, hkeys⟩

end AgnostOS.Shell
