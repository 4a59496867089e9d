import AgnostOS.Keyboard
import AgnostOS.Library.Trace

/-! The Ctrl flag of keyboard/mod.rs against the two keys that share it, over every
interleaving of interrupts and polls. -/
namespace AgnostOS.Keyboard
open Input

/-! ### What the key events say -/

def isCtrl (code : KeyCode) : Bool := code = .lControl ∨ code = .rControl

def isDown (events : List KeyEvent) (code : KeyCode) : Bool :=
  events.foldl (fun down event => if event.code = code then event.state = .down else down) false

def ctrlDown (events : List KeyEvent) : Bool := isDown events .lControl || isDown events .rControl

/-- What `CTRL_HELD` is after these events. -/
def ctrlFlag (events : List KeyEvent) : Bool :=
  events.foldl (fun held event => if isCtrl event.code then event.state = .down else held) false

/-- The last Ctrl event let one Ctrl key go beside the other, which was down. -/
def ReleasedBeside (events : List KeyEvent) : Prop :=
  ∃ before event after, events = before ++ event :: after ∧ isCtrl event.code ∧
    event.state ≠ .down ∧ (∀ later ∈ after, isCtrl later.code = false) ∧
    ∃ other, isCtrl other ∧ other ≠ event.code ∧ isDown before other

theorem isDown_append (events : List KeyEvent) (event : KeyEvent) (code : KeyCode) :
    isDown (events ++ [event]) code =
      if event.code = code then decide (event.state = .down) else isDown events code := by
  simp [isDown]

theorem ctrlFlag_append (events : List KeyEvent) (event : KeyEvent) :
    ctrlFlag (events ++ [event]) =
      if isCtrl event.code then decide (event.state = .down) else ctrlFlag events := by
  simp [ctrlFlag]

theorem isDown_append_other {after : List KeyEvent} {code : KeyCode} (hcode : isCtrl code)
    (hafter : ∀ later ∈ after, isCtrl later.code = false) (before : List KeyEvent) :
    isDown (before ++ after) code = isDown before code := by
  induction after using List.reverseRecOn with
  | nil => rw [List.append_nil]
  | append_singleton after event ih =>
    have hevent : isCtrl event.code = false := hafter event (by simp)
    have hne : event.code ≠ code := by
      intro heq
      rw [heq, hcode] at hevent
      cases hevent
    rw [← List.append_assoc, isDown_append, if_neg hne]
    exact ih fun later hlater => hafter later (List.mem_append_left _ hlater)

theorem ctrlFlag_append_other {after : List KeyEvent}
    (hafter : ∀ later ∈ after, isCtrl later.code = false) (before : List KeyEvent) :
    ctrlFlag (before ++ after) = ctrlFlag before := by
  induction after using List.reverseRecOn with
  | nil => rw [List.append_nil]
  | append_singleton after event ih =>
    have hevent : isCtrl event.code = false := hafter event (by simp)
    rw [← List.append_assoc, ctrlFlag_append, hevent, if_neg Bool.false_ne_true]
    exact ih fun later hlater => hafter later (List.mem_append_left _ hlater)

theorem last_ctrl_event (events : List KeyEvent) :
    (∀ event ∈ events, isCtrl event.code = false) ∨
      ∃ before event after, events = before ++ event :: after ∧ isCtrl event.code ∧
        ∀ later ∈ after, isCtrl later.code = false := by
  induction events using List.reverseRecOn with
  | nil => exact .inl (by simp)
  | append_singleton events last ih =>
    cases hlast : isCtrl last.code with
    | true => exact .inr ⟨events, last, [], rfl, hlast, by simp⟩
    | false =>
      cases ih with
      | inl hnone =>
        left
        intro event hevent
        cases List.mem_append.mp hevent with
        | inl hold => exact hnone event hold
        | inr hnew => rw [List.mem_singleton.mp hnew, hlast]
      | inr hsome =>
        obtain ⟨before, event, after, rfl, hevent, hafter⟩ := hsome
        refine .inr ⟨before, event, after ++ [last], by simp, hevent, ?_⟩
        intro later hlater
        cases List.mem_append.mp hlater with
        | inl hold => exact hafter later hold
        | inr hnew => rw [List.mem_singleton.mp hnew, hlast]

theorem ctrlDown_eq_true {events : List KeyEvent} :
    ctrlDown events = true ↔ ∃ code, isCtrl code ∧ isDown events code := by
  simp [ctrlDown, isCtrl]

/-- After a last Ctrl event the flag is that event, and every other Ctrl key is where it
was before. -/
theorem after_last {before after : List KeyEvent} {event : KeyEvent} (hevent : isCtrl event.code)
    (hafter : ∀ later ∈ after, isCtrl later.code = false) :
    ctrlFlag (before ++ event :: after) = decide (event.state = .down) ∧
      ∀ code, isCtrl code → isDown (before ++ event :: after) code =
        if event.code = code then decide (event.state = .down) else isDown before code := by
  have hsplit : before ++ event :: after = (before ++ [event]) ++ after := by simp
  rw [hsplit, ctrlFlag_append_other hafter, ctrlFlag_append, if_pos hevent]
  refine ⟨rfl, fun code hcode => ?_⟩
  rw [isDown_append_other hcode hafter, isDown_append]

/-- The one flag stands for both keys but after a release of one beside the other. -/
theorem ctrlFlag_eq_ctrlDown_iff (events : List KeyEvent) :
    ctrlFlag events = ctrlDown events ↔ ¬ ReleasedBeside events := by
  constructor
  · intro heq hreleased
    obtain ⟨before, event, after, rfl, hevent, hup, hafter, other, hother, hne, hdown⟩ := hreleased
    have hlast := @after_last before after event hevent hafter
    have hheld : ctrlDown (before ++ event :: after) = true :=
      ctrlDown_eq_true.mpr ⟨other, hother, by rw [hlast.2 other hother, if_neg hne.symm, hdown]⟩
    rw [hlast.1, hheld] at heq
    exact hup (of_decide_eq_true heq)
  · intro hreleased
    cases last_ctrl_event events with
    | inl hnone =>
      have hflag := ctrlFlag_append_other hnone []
      have hdown : ∀ code, isCtrl code → isDown events code = false := fun code hcode =>
        isDown_append_other hcode hnone []
      rw [List.nil_append] at hflag
      rw [hflag, ctrlDown, hdown _ rfl, hdown _ rfl]
      rfl
    | inr hsome =>
      obtain ⟨before, event, after, rfl, hevent, hafter⟩ := hsome
      have hlast := @after_last before after event hevent hafter
      rw [hlast.1, Bool.eq_iff_iff, ctrlDown_eq_true, decide_eq_true_eq]
      constructor
      · intro hstate
        exact ⟨event.code, hevent, by rw [hlast.2 _ hevent, if_pos rfl, decide_eq_true hstate]⟩
      · intro hheld
        obtain ⟨code, hcode, hdown⟩ := hheld
        rw [hlast.2 code hcode] at hdown
        by_contra hup
        by_cases heq : event.code = code
        · rw [if_pos heq] at hdown
          exact hup (of_decide_eq_true hdown)
        · rw [if_neg heq] at hdown
          exact hreleased ⟨before, event, after, rfl, hevent, hup, hafter, code, hcode,
            Ne.symm heq, hdown⟩

/-! ### What `poll` makes of them -/

section Poll
variable {δ : Type} {kb : PS2Keyboard δ} {k : KeyboardStatics δ}

def nextEvent (kb : PS2Keyboard δ) (k : KeyboardStatics δ) : Option KeyEvent :=
  (popKeyboardScancode k).1.bind fun scancode => (kb.addByte k.keyboard scancode).1.join

theorem poll_of_nextEvent (kb : PS2Keyboard δ) (k : KeyboardStatics δ) :
    ∃ k' : KeyboardStatics δ, k'.ctrlHeld = k.ctrlHeld ∧
      poll kb k = match nextEvent kb k with
        | some event => handleKeyEvent kb k' event
        | none => (none, k') := by
  rw [poll, nextEvent, popKeyboardScancode]
  cases k.input.pop with
  | mk code input =>
    cases code with
    | none => exact ⟨{ k with input := input }, rfl, rfl⟩
    | some scancode =>
      refine ⟨{ k with input := input, keyboard := (kb.addByte k.keyboard scancode).2 }, rfl, ?_⟩
      simp only [Option.bind_some]
      cases (kb.addByte k.keyboard scancode).1 with
      | none => rfl
      | some event =>
        cases event with
        | none => rfl
        | some event => rfl

/-- Only the two Ctrl keys write the flag, each the state of its own event. -/
theorem handleKeyEvent_ctrlHeld (kb : PS2Keyboard δ) (k : KeyboardStatics δ) (event : KeyEvent) :
    (handleKeyEvent kb k event).2.ctrlHeld =
      if isCtrl event.code then decide (event.state = .down) else k.ctrlHeld := by
  rw [handleKeyEvent]
  by_cases hctrl : event.code = .lControl ∨ event.code = .rControl
  · rw [if_pos hctrl, isCtrl, decide_eq_true hctrl, if_pos rfl]
  · rw [if_neg hctrl, isCtrl, decide_eq_false hctrl, if_neg Bool.false_ne_true]
    split
    · rfl
    · split
      · rfl
      · cases kb.processKeyevent k.keyboard event with
        | mk decoded keyboard =>
          cases decoded with
          | none => rfl
          | some key => cases key <;> rfl

theorem poll_ctrlHeld (kb : PS2Keyboard δ) (k : KeyboardStatics δ) :
    (poll kb k).2.ctrlHeld = match nextEvent kb k with
      | some event => if isCtrl event.code then decide (event.state = .down) else k.ctrlHeld
      | none => k.ctrlHeld := by
  obtain ⟨k', hheld, hpoll⟩ := poll_of_nextEvent kb k
  rw [hpoll]
  cases nextEvent kb k with
  | none => exact hheld
  | some event =>
    rw [← hheld]
    exact handleKeyEvent_ctrlHeld kb k' event

/-- The layout gives the four chord keys a character. -/
def PS2Keyboard.Types (kb : PS2Keyboard δ) : Prop :=
  ∀ (keyboard : δ) (code : KeyCode), (ctrlChord code).isSome →
    ∃ c, (kb.processKeyevent keyboard ⟨code, .down⟩).1 = some (.unicode c)

theorem plain_of_chord {code : KeyCode} {key : KeyboardEvent} (h : ctrlChord code = some key) :
    isCtrl code = false ∧ plainKey code = none := by
  cases code <;> simp_all [ctrlChord, isCtrl, plainKey]

theorem ctrlChord_injective {code other : KeyCode} {key : KeyboardEvent}
    (hcode : ctrlChord code = some key) (hother : ctrlChord other = some key) : code = other := by
  cases code <;> cases hcode <;> cases other <;> cases hother <;> rfl

/-- A chord is neither a character nor the report of a plain key. -/
theorem ctrlChord_reports {code : KeyCode} {key : KeyboardEvent} (h : ctrlChord code = some key) :
    (∀ c, key ≠ .char c) ∧ ∀ other, plainKey other ≠ some key := by
  cases code <;> cases h <;> refine ⟨by simp, fun other => ?_⟩ <;> cases other <;> simp [plainKey]

/-- A chord key that goes down: its chord while the flag is set, its character otherwise. -/
theorem handleKeyEvent_chord (hkb : kb.Types) {code : KeyCode} {key : KeyboardEvent}
    (hchord : ctrlChord code = some key) :
    (k.ctrlHeld = true → (handleKeyEvent kb k ⟨code, .down⟩).1 = some key) ∧
      (k.ctrlHeld = false → ∃ c, (handleKeyEvent kb k ⟨code, .down⟩).1 = some (.char c)) := by
  have hplain := plain_of_chord hchord
  have hctrl : ¬ (code = .lControl ∨ code = .rControl) := of_decide_eq_false hplain.1
  have htypes := hkb k.keyboard code (hchord ▸ rfl)
  simp only [handleKeyEvent, hctrl, if_false, if_true, hplain.2, hchord]
  constructor
  · intro hheld
    simp [hheld]
  · intro hheld
    cases htypes with
    | intro c hc =>
      refine ⟨c, ?_⟩
      simp [hheld, hc]

theorem handleKeyEvent_reports_chord {event : KeyEvent} {code : KeyCode} {key : KeyboardEvent}
    (hchord : ctrlChord code = some key) (h : (handleKeyEvent kb k event).1 = some key) :
    k.ctrlHeld = true ∧ event = ⟨code, .down⟩ := by
  have hother := ctrlChord_reports hchord
  rw [handleKeyEvent] at h
  split at h
  · cases h
  · split at h
    · next plain hplain =>
      cases h
      split at hplain
      · exact absurd hplain (hother.2 event.code)
      · cases hplain
    · split at h
      · next found hfound =>
        cases h
        split at hfound
        · next hheld =>
          have hcode := ctrlChord_injective hfound hchord
          refine ⟨hheld.1, ?_⟩
          rw [← hcode, ← hheld.2]
        · cases hfound
      · cases hdecoded : (kb.processKeyevent k.keyboard event).1 with
        | none => simp [hdecoded] at h
        | some decoded =>
          cases decoded with
          | rawKey raw => simp [hdecoded] at h
          | unicode c =>
            simp only [hdecoded, Option.some.injEq] at h
            exact absurd h.symm (hother.1 c)

structure CtrlFollows (kb : PS2Keyboard δ) (events : List KeyEvent) (k : KeyboardStatics δ) :
    Prop where
  flag : k.ctrlHeld = ctrlDown events
  chord : ∀ code key, ctrlChord code = some key →
    ((poll kb k).1 = some key ↔ nextEvent kb k = some ⟨code, .down⟩ ∧ ctrlDown events = true)
  plain : ∀ code, (ctrlChord code).isSome → nextEvent kb k = some ⟨code, .down⟩ →
    ctrlDown events = false → ∃ c, (poll kb k).1 = some (.char c)

theorem ctrlFollows_iff (hkb : kb.Types) (events : List KeyEvent) :
    CtrlFollows kb events k ↔ k.ctrlHeld = ctrlDown events := by
  refine ⟨CtrlFollows.flag, fun hflag => ?_⟩
  obtain ⟨k', hheld, hpoll⟩ := poll_of_nextEvent kb k
  rw [hflag] at hheld
  constructor
  · exact hflag
  · intro code key hchord
    rw [hpoll, ← hheld]
    constructor
    · intro h
      cases hevent : nextEvent kb k with
      | none =>
        rw [hevent] at h
        cases h
      | some event =>
        rw [hevent] at h
        have hreport := handleKeyEvent_reports_chord hchord h
        exact ⟨by rw [hreport.2], hreport.1⟩
    · intro h
      rw [h.1]
      exact (handleKeyEvent_chord hkb hchord).1 h.2
  · intro code hcode hevent hup
    rw [hpoll, hevent]
    cases Option.isSome_iff_exists.mp hcode with
    | intro key hchord => exact (handleKeyEvent_chord hkb hchord).2 (hheld.trans hup)

/-! ### Runs -/

inductive Operation where
  | irq (code : KeyboardScancode)
  | report
  | poll (event : Option KeyEvent)

inductive Operates (kb : PS2Keyboard δ) :
    Operation → KeyboardStatics δ → KeyboardStatics δ → Prop where
  | irq {k : KeyboardStatics δ} (code : KeyboardScancode) :
      Operates kb (.irq code) k (keyboardIrq k code)
  | report {k : KeyboardStatics δ} :
      Operates kb .report k { k with input := k.input.takeDropped.2 }
  | poll {k : KeyboardStatics δ} : Operates kb (.poll (nextEvent kb k)) k (poll kb k).2

def keyEvents (history : List Operation) : List KeyEvent :=
  history.filterMap fun
    | .poll event => event
    | _ => none

theorem keyEvents_append (history : List Operation) (operation : Operation) :
    keyEvents (history ++ [operation]) = keyEvents history ++ keyEvents [operation] := by
  simp [keyEvents]

theorem keyboardIrq_ctrlHeld (k : KeyboardStatics δ) (code : KeyboardScancode) :
    (keyboardIrq k code).ctrlHeld = k.ctrlHeld := by
  rw [keyboardIrq]
  split <;> rfl

theorem ctrlHeld_step {history : List Operation} {operation : Operation}
    {k k' : KeyboardStatics δ} (hk : k.ctrlHeld = ctrlFlag (keyEvents history))
    (h : Operates kb operation k k') :
    k'.ctrlHeld = ctrlFlag (keyEvents (history ++ [operation])) := by
  rw [keyEvents_append]
  cases h with
  | irq code =>
    rw [keyboardIrq_ctrlHeld, hk]
    simp [keyEvents]
  | report =>
    rw [hk]
    simp [keyEvents]
  | poll =>
    rw [poll_ctrlHeld]
    cases hevent : nextEvent kb k with
    | none => simpa [keyEvents] using hk
    | some event =>
      have hsingle : keyEvents [.poll (some event)] = [event] := rfl
      rw [hsingle, ctrlFlag_append, ← hk]

theorem ctrlHeld_run {keyboard : δ} {history : List Operation} {k : KeyboardStatics δ}
    (h : Trace (Operates kb) history (initKeyboard keyboard) k) :
    k.ctrlHeld = ctrlFlag (keyEvents history) := by
  apply h.history_invariant
  · intro events operation k k' hk hmove
    exact ctrlHeld_step hk hmove
  · rfl

def typed (kb : PS2Keyboard δ) : List KeyboardScancode → KeyboardStatics δ → KeyboardStatics δ
  | [], k => k
  | code :: codes, k => typed kb codes (poll kb (keyboardIrq k code)).2

def typedHistory (kb : PS2Keyboard δ) : List KeyboardScancode → KeyboardStatics δ → List Operation
  | [], _ => []
  | code :: codes, k =>
    .irq code :: .poll (nextEvent kb (keyboardIrq k code)) ::
      typedHistory kb codes (poll kb (keyboardIrq k code)).2

theorem typed_run (kb : PS2Keyboard δ) (codes : List KeyboardScancode) (k : KeyboardStatics δ) :
    Trace (Operates kb) (typedHistory kb codes k) k (typed kb codes k) := by
  induction codes generalizing k with
  | nil => exact Trace.nil
  | cons code codes ih => exact (Trace.cons (.irq code) (Trace.cons .poll (ih _)))

end Poll

/-- In every state of every run the flag and the reports follow the Ctrl keys exactly when
the last Ctrl event was not a release beside the other key, whether or not the keys
alternate. -/
theorem ctrl_follows_keys_iff {δ : Type} {kb : PS2Keyboard δ} (hkb : kb.Types) {keyboard : δ}
    {history : List Operation} {k : KeyboardStatics δ}
    (h : Trace (Operates kb) history (initKeyboard keyboard) k) :
    CtrlFollows kb (keyEvents history) k ↔ ¬ ReleasedBeside (keyEvents history) := by
  rw [ctrlFollows_iff hkb, ctrlHeld_run h]
  exact ctrlFlag_eq_ctrlDown_iff _

/-- The Set-1 codes of the two Ctrl keys and of the chord keys, with the lower-case layout.
The state is whether the last byte was the extension. -/
def set1Keyboard : PS2Keyboard Bool where
  addByte extended scancode :=
    if scancode = 0xe0 then (some none, true)
    else
      let code := match extended, scancode % 0x80 with
        | false, 0x1d => .lControl
        | true, 0x1d => .rControl
        | false, 0x2e => .c
        | false, 0x26 => .l
        | false, 0x0d => .oemPlus
        | false, 0x0c => .oemMinus
        | _, other => .other other.toNat
      (some (some ⟨code, if scancode < 0x80 then .down else .up⟩), false)
  processKeyevent extended event :=
    match event with
    | ⟨.c, .down⟩ => (some (.unicode 'c'), extended)
    | ⟨.l, .down⟩ => (some (.unicode 'l'), extended)
    | ⟨.oemPlus, .down⟩ => (some (.unicode '='), extended)
    | ⟨.oemMinus, .down⟩ => (some (.unicode '-'), extended)
    | _ => (none, extended)

theorem set1Keyboard_types : set1Keyboard.Types := by
  intro extended code hcode
  cases code with
  | c => exact ⟨'c', rfl⟩
  | l => exact ⟨'l', rfl⟩
  | oemPlus => exact ⟨'=', rfl⟩
  | oemMinus => exact ⟨'-', rfl⟩
  | lControl => cases hcode
  | rControl => cases hcode
  | arrowLeft => cases hcode
  | arrowRight => cases hcode
  | arrowUp => cases hcode
  | arrowDown => cases hcode
  | tab => cases hcode
  | other raw => cases hcode

/-- Left Ctrl and then C. -/
theorem ctrl_c_follows :
    keyEvents (typedHistory set1Keyboard [0x1d] (initKeyboard false)) = [⟨.lControl, .down⟩] ∧
      CtrlFollows set1Keyboard
        (keyEvents (typedHistory set1Keyboard [0x1d] (initKeyboard false)))
        (typed set1Keyboard [0x1d] (initKeyboard false)) := by
  have hevents : keyEvents (typedHistory set1Keyboard [0x1d] (initKeyboard false)) =
      [⟨.lControl, .down⟩] := by decide
  have hiff := ctrl_follows_keys_iff set1Keyboard_types
    (typed_run set1Keyboard [0x1d] (initKeyboard false))
  refine ⟨hevents, hiff.mpr ?_⟩
  rw [hevents, ← ctrlFlag_eq_ctrlDown_iff]
  rfl

/-- Left Ctrl stays down while right Ctrl is pressed and released: C is a letter then. -/
theorem ctrl_lost_beside_held_key :
    ∃ history k, Trace (Operates set1Keyboard) history (initKeyboard false) k ∧
      keyEvents history = [⟨.lControl, .down⟩, ⟨.rControl, .down⟩, ⟨.rControl, .up⟩] ∧
      ctrlDown (keyEvents history) = true ∧ k.ctrlHeld = false ∧
      ¬ CtrlFollows set1Keyboard (keyEvents history) k ∧
      (poll set1Keyboard (keyboardIrq k 0x2e)).1 = some (.char 'c') := by
  have hrun := typed_run set1Keyboard [0x1d, 0xe0, 0x1d, 0xe0, 0x9d] (initKeyboard false)
  have hheld : (typed set1Keyboard [0x1d, 0xe0, 0x1d, 0xe0, 0x9d]
      (initKeyboard false)).ctrlHeld = false := by decide
  have hdown : ctrlDown (keyEvents (typedHistory set1Keyboard [0x1d, 0xe0, 0x1d, 0xe0, 0x9d]
      (initKeyboard false))) = true := by decide
  refine ⟨_, _, hrun, by decide, hdown, hheld, fun hfollows => ?_, by decide⟩
  have hflag := hfollows.flag
  rw [hheld, hdown] at hflag
  cases hflag

end AgnostOS.Keyboard
