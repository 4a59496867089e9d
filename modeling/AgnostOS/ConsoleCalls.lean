import AgnostOS.ConsoleText
import AgnostOS.Shell

/-! The console as its callers drive it: the single calls, and the calls that the shell makes
for each key. -/
namespace AgnostOS.Shell
open Globals Graphics Commands Console Keyboard

/-- What the console is asked to do, one character of a printed text at a time. `rescale` is
a zoom up to its prompt, `clearLine` and `shutdown` are the shell's own. -/
inductive Call where
  | char (ch : Char)
  | insertChar (ch : Char)
  | backspace
  | arrowRight
  | arrowLeft
  | arrowUp
  | arrowDown
  | drawCursor
  | eraseCursor
  | resetInputCursor
  | reset
  | printHistory
  | setFontSize (size : RasterHeight)
  | rescale (size : RasterHeight)
  | clearLine
  | shutdown

def rescale (w : KWriter) (size : RasterHeight) : KWriter :=
  let w := { w with fontSize := size }
  let w := { w.draw (.clearBackground BLACK) with currentLine := [] }
  w.printHistory

section Calls
variable (font : Font)

def call : KWriter × Text → Call → Kernel (KWriter × Text)
  | (w, line), .char ch => pure (w.writeChar font ch, line)
  | (w, line), .insertChar ch => w.insertChar font line ch
  | (w, line), .backspace => w.backspace font line
  | (w, line), .arrowRight => do return (← w.arrowRight font, line)
  | (w, line), .arrowLeft => do return (← w.arrowLeft font, line)
  | (w, line), .arrowUp => w.arrowUp font line
  | (w, line), .arrowDown => w.arrowDown font line
  | (w, line), .drawCursor => do return (← w.drawCursor font, line)
  | (w, line), .eraseCursor => do return (← w.eraseCursor font, line)
  | (w, line), .resetInputCursor => pure (w.resetInputCursor, line)
  | (w, line), .reset => pure (w.reset, line)
  | (w, line), .printHistory => pure (w.printHistory, line)
  | (w, line), .setFontSize size => pure (w.setFontSize size, line)
  | (w, line), .rescale size => pure (rescale w size, line)
  | (w, _), .clearLine => pure (w, [])
  | _, .shutdown => throw .shutdown

def perform (p : KWriter × Text) (calls : List Call) : Kernel (KWriter × Text) :=
  calls.foldlM (call font) p

end Calls

/-! ### The calls of an operation -/

def printed (text : Text) : List Call := text.map .char

def printedLines (lines : List Text) : List Call :=
  lines.flatMap fun text => printed text ++ [.char '\n']

def requestedSize (arg : Text) : Option RasterHeight :=
  if arg = "16".toList then some .size16
  else if arg = "20".toList then some .size20
  else if arg = "24".toList then some .size24
  else if arg = "32".toList then some .size32
  else none

def commandCalls (info : SystemInfo) (command : Text) : List Call :=
  let parsed := parse command
  match parsed.command with
  | .history => [.printHistory]
  | .clear => [.reset]
  | .shutdown => [.shutdown]
  | .font =>
    match requestedSize (parsed.args.headD []) with
    | some size => [.setFontSize size]
    | none => printedLines ["usage: font <16|20|24|32>".toList]
  | _ => printedLines (Transcript.responses info parsed)

def larger : RasterHeight → RasterHeight
  | .size16 => .size20
  | .size20 => .size24
  | .size24 | .size32 => .size32

def smaller : RasterHeight → RasterHeight
  | .size32 => .size24
  | .size24 => .size20
  | .size20 | .size16 => .size16

def completion (line : Text) : List Call :=
  match completeCommand line with
  | none => []
  | some command => (command.drop line.length).map .insertChar

def zoomCalls (size : RasterHeight) (currentInput : Text) : List Call :=
  .rescale size :: printed (PROMPT ++ currentInput)

def promptCalls : List Call := printed PROMPT ++ [.resetInputCursor, .clearLine]

def editCalls (info : SystemInfo) (s : Session) : KeyboardEvent → List Call
  | .char c =>
    if c = '\n' then
      .char '\n' :: (commandCalls info s.line ++ promptCalls)
    else if c = '\x08' then [.backspace]
    else [.insertChar c]
  | .ctrlC => printedLines ["^C".toList] ++ promptCalls
  | .zoomIn => zoomCalls (larger s.writer.fontSize) s.line
  | .zoomOut => zoomCalls (smaller s.writer.fontSize) s.line
  | .arrowRight => [.arrowRight]
  | .arrowLeft => [.arrowLeft]
  | .arrowUp => [.arrowUp]
  | .arrowDown => [.arrowDown]
  | .ctrlL => .reset :: (printed PROMPT ++ [.clearLine])
  | .tab => completion s.line

inductive Operation where
  | kprint (text : Text)
  | key (key : KeyboardEvent) (info : SystemInfo)
  | zoomIn (currentInput : Text)
  | zoomOut (currentInput : Text)
  | font (size : RasterHeight)
  | clear
  | history
  | drawCursor

namespace Session

def operate (font : Font) (s : Session) : Operation → Kernel Session
  | .kprint text => pure { s with writer := s.writer.kprint font text }
  | .key key info => s.handleKey font info key
  | .zoomIn currentInput => pure { s with writer := s.writer.zoomIn font currentInput }
  | .zoomOut currentInput => pure { s with writer := s.writer.zoomOut font currentInput }
  | .font size => pure { s with writer := s.writer.setFontSize size }
  | .clear => pure { s with writer := s.writer.reset }
  | .history => pure { s with writer := s.writer.printHistory }
  | .drawCursor => do return { s with writer := ← s.writer.drawCursor font }

def calls (s : Session) : Operation → List Call
  | .kprint text => printed text
  | .key key info => .eraseCursor :: (editCalls info s key ++ [.drawCursor])
  | .zoomIn currentInput => zoomCalls (larger s.writer.fontSize) currentInput
  | .zoomOut currentInput => zoomCalls (smaller s.writer.fontSize) currentInput
  | .font size => [.setFontSize size]
  | .clear => [.reset]
  | .history => [.printHistory]
  | .drawCursor => [.drawCursor]

def view (s : Session) : KWriter × Text := (s.writer, s.line)

end Session

section Perform
variable {font : Font} {w : KWriter} {line : Text}

theorem perform_append (p : KWriter × Text) (first second : List Call) :
    perform font p (first ++ second) = perform font p first >>= fun p => perform font p second :=
  List.foldlM_append

theorem perform_cons (p : KWriter × Text) (c : Call) (rest : List Call) :
    perform font p (c :: rest) = call font p c >>= fun p => perform font p rest :=
  List.foldlM_cons

theorem perform_single (p : KWriter × Text) (c : Call) : perform font p [c] = call font p c := by
  rw [perform_cons]
  exact bind_pure _

theorem perform_printed (text : Text) :
    perform font (w, line) (printed text) = .ok (w.kprint font text, line) := by
  induction text generalizing w with
  | nil => rfl
  | cons ch text ih => exact ih

theorem perform_prompt :
    perform font (w, line) promptCalls = .ok ((w.kprint font PROMPT).resetInputCursor, []) := by
  rw [promptCalls, perform_append, perform_printed]
  rfl

theorem perform_printedLines (lines : List Text) :
    perform font (w, line) (printedLines lines) = .ok (w.printLines font lines, line) := by
  induction lines generalizing w with
  | nil => rfl
  | cons text lines ih =>
    have hcalls : printedLines (text :: lines) =
        printed text ++ (.char '\n' :: printedLines lines) := by
      simp [printedLines]
    rw [hcalls, perform_append, perform_printed]
    exact ih

theorem perform_zoom (size : RasterHeight) (currentInput : Text) :
    perform font (w, line) (zoomCalls size currentInput) =
      .ok (w.zoomTo font size currentInput, line) :=
  perform_printed ..

theorem zoomed_calls {w' : KWriter} {size : RasterHeight} {currentInput : Text}
    (h : w' = w.zoomTo font size currentInput) :
    .ok (w', line) = perform font (w, line) (zoomCalls size currentInput) := by
  rw [perform_zoom, h]

theorem perform_insertChars (suffix : Text) :
    perform font (w, line) (suffix.map .insertChar) = w.insertChars font line suffix := by
  induction suffix generalizing w line with
  | nil => rfl
  | cons ch suffix ih =>
    rw [List.map_cons, perform_cons, KWriter.insertChars]
    exact bind_congr fun p => ih

theorem perform_completion : perform font (w, line) (completion line) = w.autoComplete font line := by
  rw [completion, KWriter.autoComplete]
  cases hcommand : completeCommand line with
  | none => rfl
  | some command =>
    obtain ⟨suffix, rfl⟩ := (KWriter.completeCommand_some hcommand).2
    simp only [Utf8.splitAt_boundary, List.drop_left]
    exact perform_insertChars suffix

theorem perform_command (info : SystemInfo) (command : Text) :
    perform font (w, line) (commandCalls info command) =
      (w.runCommand font info command).map fun w => (w, line) := by
  rw [commandCalls, KWriter.runCommand, Transcript.responses]
  simp only
  cases (parse command).command with
  | font =>
    by_cases h16 : (parse command).args.headD [] = "16".toList
    · simp only [requestedSize, if_pos h16]
      rfl
    by_cases h20 : (parse command).args.headD [] = "20".toList
    · simp only [requestedSize, if_neg h16, if_pos h20]
      rfl
    by_cases h24 : (parse command).args.headD [] = "24".toList
    · simp only [requestedSize, if_neg h16, if_neg h20, if_pos h24]
      rfl
    by_cases h32 : (parse command).args.headD [] = "32".toList
    · simp only [requestedSize, if_neg h16, if_neg h20, if_neg h24, if_pos h32]
      rfl
    simp only [requestedSize, if_neg h16, if_neg h20, if_neg h24, if_neg h32]
    exact perform_printedLines _
  | help => exact perform_printedLines _
  | about => exact perform_printedLines _
  | echo => exact perform_printedLines _
  | meminfo => exact perform_printedLines _
  | taskinfo => exact perform_printedLines _
  | uptime => exact perform_printedLines _
  | unknown => exact perform_printedLines _
  | empty => rfl
  | history => rfl
  | clear => rfl
  | shutdown => rfl

/-- The line is ended and run as a command, and a new prompt printed. -/
theorem perform_enter (info : SystemInfo) :
    perform font (w, line) (.char '\n' :: (commandCalls info line ++ promptCalls)) =
      ((w.kprint font ['\n']).runCommand font info line >>= fun w =>
        pure (w.kprint font PROMPT).resetInputCursor).map fun w => (w, []) := by
  rw [perform_cons]
  change perform font (w.kprint font ['\n'], line) _ = _
  rw [perform_append, perform_command]
  cases (w.kprint font ['\n']).runCommand font info line with
  | error stop => rfl
  | ok w =>
    change perform font (w, line) promptCalls = _
    rw [perform_prompt]
    rfl

end Perform

section Keys
variable {font : Font} {p : KWriter × Text} {calls : List Call}

theorem eraseCursor_draw (font : Font) (w : KWriter) :
    ∃ op, w.eraseCursor font = .ok (w.draw op) :=
  w.drawRec_ok ⟨w.x font, w.y⟩ BLACK (font.rasterWidth_pos w.fontSize)
    (Nat.sub_pos_of_lt w.fontH_gt)

theorem edited_calls {op : Kernel (KWriter × Text)} (h : op = perform font p calls)
    (submitted : List Text) :
    (op >>= fun q => do let w ← q.1.drawCursor font; pure (Session.mk w q.2 submitted)).map
      Session.view = perform font p (calls ++ [.drawCursor]) := by
  rw [perform_append, ← h]
  cases op with
  | error stop => rfl
  | ok q =>
    have hlast : perform font q [.drawCursor] = (q.1.drawCursor font).map fun w => (w, q.2) :=
      perform_single q .drawCursor
    refine Eq.trans ?_ hlast.symm
    change ((q.1.drawCursor font) >>= fun w => pure (Session.mk w q.2 submitted)).map _ = _
    cases q.1.drawCursor font <;> rfl

theorem rewritten_calls {op : Kernel KWriter} {line : Text}
    (h : op.map (fun w => (w, line)) = perform font p calls) (submitted : List Text) :
    (op >>= fun w => do let w ← w.drawCursor font; pure (Session.mk w line submitted)).map
      Session.view = perform font p (calls ++ [.drawCursor]) := by
  rw [← edited_calls h submitted]
  cases op <;> rfl

/-- The shell's handling of a key is a sequence of console calls. -/
theorem handleKey_calls (font : Font) (s : Session) (key : KeyboardEvent) (info : SystemInfo) :
    (s.handleKey font info key).map Session.view =
      perform font s.view (s.calls (.key key info)) := by
  obtain ⟨op, herase⟩ := eraseCursor_draw font s.writer
  have hcalls : perform font s.view (s.calls (.key key info)) =
      perform font (s.writer.draw op, s.line) (editCalls info s key ++ [.drawCursor]) := by
    rw [Session.calls, perform_cons, Session.view, call, herase]
    rfl
  rw [hcalls, Session.handleKey, herase]
  generalize hw : s.writer.draw op = w
  have hsize : s.writer.fontSize = w.fontSize := by rw [← hw]; rfl
  cases key with
  | char c =>
    simp only [editCalls]
    split
    · have hcalls : _ = perform font (w, s.line)
          (.char '\n' :: (commandCalls info s.line ++ promptCalls)) := (perform_enter info).symm
      have hedit := rewritten_calls hcalls (s.submitted ++ [s.line])
      rw [bind_assoc] at hedit
      exact hedit
    split
    · have hcall : w.backspace font s.line = perform font (w, s.line) [.backspace] :=
        (perform_single (w, s.line) .backspace).symm
      exact edited_calls hcall s.submitted
    · have hcall : w.insertChar font s.line c = perform font (w, s.line) [.insertChar c] :=
        (perform_single (w, s.line) (.insertChar c)).symm
      exact edited_calls hcall s.submitted
  | ctrlC =>
    have hcalls : (pure ((w.kprintln font "^C".toList).kprint font PROMPT).resetInputCursor :
        Kernel KWriter).map (fun w => (w, [])) =
        perform font (w, s.line) (editCalls info s .ctrlC) := by
      simp only [editCalls]
      rw [perform_append, perform_printedLines]
      change _ = perform font (w.printLines font ["^C".toList], s.line) promptCalls
      rw [perform_prompt]
      rfl
    exact rewritten_calls hcalls s.submitted
  | zoomIn =>
    have hcalls : (pure (w.zoomIn font s.line) : Kernel KWriter).map (fun w => (w, s.line)) =
        perform font (w, s.line) (editCalls info s .zoomIn) := by
      simp only [editCalls, hsize]
      exact zoomed_calls rfl
    exact rewritten_calls hcalls s.submitted
  | zoomOut =>
    have hcalls : (pure (w.zoomOut font s.line) : Kernel KWriter).map (fun w => (w, s.line)) =
        perform font (w, s.line) (editCalls info s .zoomOut) := by
      simp only [editCalls, hsize]
      exact zoomed_calls rfl
    exact rewritten_calls hcalls s.submitted
  | arrowRight =>
    have hcall : (w.arrowRight font).map (fun w => (w, s.line)) =
        perform font (w, s.line) [.arrowRight] := (perform_single (w, s.line) .arrowRight).symm
    exact rewritten_calls hcall s.submitted
  | arrowLeft =>
    have hcall : (w.arrowLeft font).map (fun w => (w, s.line)) =
        perform font (w, s.line) [.arrowLeft] := (perform_single (w, s.line) .arrowLeft).symm
    exact rewritten_calls hcall s.submitted
  | arrowUp =>
    have hcall : w.arrowUp font s.line = perform font (w, s.line) [.arrowUp] :=
      (perform_single (w, s.line) .arrowUp).symm
    exact edited_calls hcall s.submitted
  | arrowDown =>
    have hcall : w.arrowDown font s.line = perform font (w, s.line) [.arrowDown] :=
      (perform_single (w, s.line) .arrowDown).symm
    exact edited_calls hcall s.submitted
  | ctrlL =>
    have hcalls : (pure (w.reset.kprint font PROMPT) : Kernel KWriter).map (fun w => (w, [])) =
        perform font (w, s.line) (editCalls info s .ctrlL) := rfl
    exact rewritten_calls hcalls s.submitted
  | tab => exact edited_calls perform_completion.symm s.submitted

theorem operate_calls (font : Font) (s : Session) (op : Operation) :
    (s.operate font op).map Session.view = perform font s.view (s.calls op) := by
  cases op with
  | kprint text => exact (perform_printed text).symm
  | key key info => exact handleKey_calls font s key info
  | zoomIn currentInput => exact zoomed_calls rfl
  | zoomOut currentInput => exact zoomed_calls rfl
  | font size => rfl
  | clear => rfl
  | history => rfl
  | drawCursor =>
    rw [Session.calls, perform_single, Session.operate, Session.view, call]
    cases s.writer.drawCursor font <;> rfl

end Keys

end AgnostOS.Shell
