import AgnostOS.InputQueue

/-! The keyboard path of keyboard/mod.rs: scancode queue, Ctrl state and the events
the shell understands. -/
namespace AgnostOS.Keyboard
open Input

abbrev KeyboardScancode := UInt8

/-- The keys that `poll` tells apart. -/
inductive KeyCode where
  | lControl | rControl | arrowLeft | arrowRight | arrowUp | arrowDown | tab
  | c | l | oemPlus | oemMinus
  | other (code : Nat)
  deriving DecidableEq, Repr

inductive KeyState where
  | up | down | singleShot
  deriving DecidableEq, Repr

structure KeyEvent where
  code : KeyCode
  state : KeyState
  deriving DecidableEq, Repr

inductive DecodedKey where
  | rawKey (code : KeyCode)
  | unicode (c : Char)
  deriving DecidableEq, Repr

structure PS2Keyboard (δ : Type) where
  addByte : δ → KeyboardScancode → Option (Option KeyEvent) × δ
  processKeyevent : δ → KeyEvent → Option DecodedKey × δ

inductive KeyboardEvent where
  | char (c : Char)
  | ctrlC | zoomIn | zoomOut | arrowUp | arrowDown | arrowLeft | arrowRight | ctrlL | tab
  deriving DecidableEq, Repr

structure KeyboardStatics (δ : Type) where
  input : InputQueue KeyboardScancode
  keyboard : δ
  ctrlHeld : Bool

variable {δ : Type}

def initKeyboard (keyboard : δ) : KeyboardStatics δ := ⟨.new, keyboard, false⟩

def pushKeyboardScancode (k : KeyboardStatics δ) (code : KeyboardScancode) : KeyboardStatics δ :=
  { k with input := k.input.push code }

def popKeyboardScancode (k : KeyboardStatics δ) :
    Option KeyboardScancode × KeyboardStatics δ :=
  (k.input.pop.1, { k with input := k.input.pop.2 })

def keyboardQueueIsEmpty (k : KeyboardStatics δ) : Bool := k.input.queue.isEmpty

/-- ACK and RESEND are answers of the controller, not scancodes. -/
def isProtocolByte (code : KeyboardScancode) : Bool := code = 0xfa ∨ code = 0xfe

def keyboardIrq (k : KeyboardStatics δ) (code : KeyboardScancode) : KeyboardStatics δ :=
  if isProtocolByte code then k else pushKeyboardScancode k code

/-- The keys that are events by themselves, whatever else is held. -/
def plainKey : KeyCode → Option KeyboardEvent
  | .arrowLeft => some .arrowLeft
  | .arrowRight => some .arrowRight
  | .arrowUp => some .arrowUp
  | .arrowDown => some .arrowDown
  | .tab => some .tab
  | _ => none

def ctrlChord : KeyCode → Option KeyboardEvent
  | .c => some .ctrlC
  | .l => some .ctrlL
  | .oemPlus => some .zoomIn
  | .oemMinus => some .zoomOut
  | _ => none

/-- The rest of `poll` once the decoder has a key. -/
def handleKeyEvent (kb : PS2Keyboard δ) (k : KeyboardStatics δ) (event : KeyEvent) :
    Option KeyboardEvent × KeyboardStatics δ :=
  if event.code = .lControl ∨ event.code = .rControl then
    (none, { k with ctrlHeld := event.state = .down })
  else
    match if event.state = .down then plainKey event.code else none with
    | some key => (some key, k)
    | none =>
      match if k.ctrlHeld ∧ event.state = .down then ctrlChord event.code else none with
      | some key => (some key, k)
      | none =>
        let (decoded, keyboard) := kb.processKeyevent k.keyboard event
        match decoded with
        | some (.unicode c) => (some (.char c), { k with keyboard := keyboard })
        | _ => (none, { k with keyboard := keyboard })

def poll (kb : PS2Keyboard δ) (k : KeyboardStatics δ) :
    Option KeyboardEvent × KeyboardStatics δ :=
  match popKeyboardScancode k with
  | (none, k) => (none, k)
  | (some scancode, k) =>
    let (event, keyboard) := kb.addByte k.keyboard scancode
    let k := { k with keyboard := keyboard }
    match event with
    | some (some event) => handleKeyEvent kb k event
    | _ => (none, k)

@[simp] theorem handleKeyEvent_input (kb : PS2Keyboard δ) (k : KeyboardStatics δ)
    (event : KeyEvent) : (handleKeyEvent kb k event).2.input = k.input := by
  rw [handleKeyEvent]
  split
  · rfl
  · split
    · rfl
    · split
      · rfl
      · cases kb.processKeyevent k.keyboard event with
        | mk decoded keyboard =>
          cases decoded with
          | none => rfl
          | some key => cases key <;> rfl

theorem poll_input (kb : PS2Keyboard δ) (k : KeyboardStatics δ) :
    (poll kb k).2.input = k.input.pop.2 := by
  rw [poll, popKeyboardScancode]
  cases k.input.pop with
  | mk code input =>
    cases code with
    | none => rfl
    | some scancode =>
      simp only
      cases (kb.addByte k.keyboard scancode).1 with
      | none => rfl
      | some event =>
        cases event with
        | none => rfl
        | some event => exact handleKeyEvent_input ..

end AgnostOS.Keyboard
