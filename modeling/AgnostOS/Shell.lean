import AgnostOS.Console
import AgnostOS.Keyboard
import AgnostOS.Scheduler

/-! Key dispatch of shell/mod.rs, and the text that a session leaves behind. -/
namespace AgnostOS.Shell
open Globals Graphics Commands Console Keyboard

/-- The console's writer and the shell's line. `submitted` lists the lines passed to
`run_command` so far; no code reads it. -/
structure Session where
  writer : KWriter
  line : Text
  submitted : List Text

/-- The lines that the demo tasks and the loop itself print. -/
inductive Notice where
  | taskOne (run : Nat)
  | taskTwo (run : Nat)
  | schedulerError (error : Tasks.SchedulerError)
  | keyboardDropped (count : Nat)
  | mouseDropped (count : Nat)

def Notice.text : Notice → Text
  | .taskOne run => "Task 1 ran: #".toList ++ decimal run
  | .taskTwo run => "Task 2 ran: #".toList ++ decimal run
  | .schedulerError .noTaskSlots => "no task slots available".toList
  | .schedulerError .invalidTask => "invalid task identifier".toList
  | .schedulerError .taskNotFinished => "task has not finished".toList
  | .keyboardDropped count => "Dropped ".toList ++ (decimal count ++ " keyboard inputs".toList)
  | .mouseDropped count => "Dropped ".toList ++ (decimal count ++ " mouse inputs".toList)

namespace Session
variable (font : Font)

/-- The session when the loop starts; tasks have already run. -/
def init (fb : Framebuffer) (greetings : List Notice) : Kernel Session := do
  let w := (KWriter.init fb).draw (.clearBackground BLACK)
  let w := (w.printLines font (greetings.map Notice.text)).kprint font PROMPT
  let w ← w.drawCursor font
  pure ⟨w, [], []⟩

/-- The body of `if let Some(key) = keyboard::poll()`, with the state of the rest of the
system that a command may print. -/
def handleKey (info : SystemInfo) (s : Session) (key : KeyboardEvent) : Kernel Session := do
  let w ← s.writer.eraseCursor font
  let s ← match key with
    | .char c =>
      if c = '\n' then do
        let w := w.kprint font ['\n']
        let w ← w.runCommand font info s.line
        pure ⟨(w.kprint font PROMPT).resetInputCursor, [], s.submitted ++ [s.line]⟩
      else if c = '\x08' then do
        let (w, line) ← w.backspace font s.line
        pure ⟨w, line, s.submitted⟩
      else do
        let (w, line) ← w.insertChar font s.line c
        pure ⟨w, line, s.submitted⟩
    | .ctrlC =>
      pure ⟨((w.kprintln font "^C".toList).kprint font PROMPT).resetInputCursor, [], s.submitted⟩
    | .zoomIn => pure { s with writer := w.zoomIn font s.line }
    | .zoomOut => pure { s with writer := w.zoomOut font s.line }
    | .arrowRight => do
      let w ← w.arrowRight font
      pure { s with writer := w }
    | .arrowLeft => do
      let w ← w.arrowLeft font
      pure { s with writer := w }
    | .arrowUp => do
      let (w, line) ← w.arrowUp font s.line
      pure ⟨w, line, s.submitted⟩
    | .arrowDown => do
      let (w, line) ← w.arrowDown font s.line
      pure ⟨w, line, s.submitted⟩
    | .ctrlL => pure ⟨w.reset.kprint font PROMPT, [], s.submitted⟩
    | .tab => do
      let (w, line) ← w.autoComplete font s.line
      pure ⟨w, line, s.submitted⟩
  let w ← s.writer.drawCursor font
  pure { s with writer := w }

/-- A line printed by a task, or by the shell about dropped input. -/
def output (s : Session) (text : Text) : Session :=
  { s with writer := s.writer.kprintln font text }

end Session

inductive ShellEvent where
  | key (key : KeyboardEvent) (info : SystemInfo)
  | output (text : Text)

def Session.step (font : Font) (s : Session) : ShellEvent → Kernel Session
  | .key key info => s.handleKey font info key
  | .output text => pure (s.output font text)

def Session.run (font : Font) (s : Session) (events : List ShellEvent) : Kernel Session :=
  events.foldlM (Session.step font) s

def idleSystem : SystemInfo := ⟨0, 0, none, ⟨0, 0, 0, 0, 0, 0, 0⟩, 0⟩

end AgnostOS.Shell
