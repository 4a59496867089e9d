import AgnostOS.ConsoleText
import AgnostOS.Shell

/-! The shell session as a machine on texts: what the keys do to the line, the history
and the commands, whatever is drawn. -/
namespace AgnostOS.Shell
open Globals Graphics Commands Console Keyboard

structure Dialogue extends Transcript where
  line : Text
  submitted : List Text

def Session.dialogue (s : Session) : Dialogue := ⟨s.writer.toTranscript, s.line, s.submitted⟩

namespace Dialogue

def prompted (t : Transcript) (submitted : List Text) : Dialogue :=
  ⟨{ t.print PROMPT with inputCursor := 0 }, [], submitted⟩

def withText (d : Dialogue) (p : Transcript × Text) : Dialogue := ⟨p.1, p.2, d.submitted⟩

def enter (info : SystemInfo) (d : Dialogue) : Kernel Dialogue := do
  let t ← d.newline.runCommand info d.line
  pure (prompted t (d.submitted ++ [d.line]))

def handleKey (info : SystemInfo) (d : Dialogue) (key : KeyboardEvent) : Kernel Dialogue :=
  match key with
  | .char c =>
    if c = '\n' then d.enter info
    else if c = '\x08' then pure (d.withText (d.backspace d.line))
    else pure (d.withText (d.insertChar d.line c))
  | .ctrlC => pure (prompted (d.println "^C".toList) d.submitted)
  | .zoomIn | .zoomOut => pure (d.withText (d.zoom d.line, d.line))
  | .arrowRight => pure (d.withText (d.arrowRight, d.line))
  | .arrowLeft => pure (d.withText (d.arrowLeft, d.line))
  | .arrowUp => do
    let p ← d.arrowUp d.line
    pure (d.withText p)
  | .arrowDown => pure (d.withText (d.arrowDown d.line))
  | .ctrlL => pure (d.withText (d.cleared.print PROMPT, []))
  | .tab => pure (d.withText (d.autoComplete d.line))

def init (greetings : List Notice) : Dialogue :=
  ⟨(({ history := [], currentLine := [], inputCursor := 0, historyIndex := none } :
    Transcript).printLines (greetings.map Notice.text)).print PROMPT, [], []⟩

def output (d : Dialogue) (text : Text) : Dialogue := d.withText (d.println text, d.line)

def step (d : Dialogue) : ShellEvent → Kernel Dialogue
  | .key key info => d.handleKey info key
  | .output text => pure (d.output text)

def run (d : Dialogue) (events : List ShellEvent) : Kernel Dialogue := events.foldlM step d

end Dialogue

namespace Session
variable {font : Font} {info : SystemInfo} {s : Session}

/-- The cursor drawn at the end of a key changes no text. -/
theorem redrawn_cursor (font : Font) (s : Session) :
    (do let w ← s.writer.drawCursor font; pure { s with writer := w }).map dialogue =
      .ok s.dialogue := by
  obtain ⟨w', hdraw, htext⟩ := s.writer.drawCursor_ok font
  rw [hdraw]
  exact congrArg (fun t => Except.ok (Dialogue.mk t s.line s.submitted)) htext

theorem edited {op : Kernel (KWriter × Text)} {result : Kernel (Transcript × Text)}
    (h : op.map KWriter.text = result) (submitted : List Text) :
    (op >>= fun p => do let w ← p.1.drawCursor font; pure (Session.mk w p.2 submitted)).map
      dialogue = result >>= fun p => pure (Dialogue.mk p.1 p.2 submitted) :=
  map_bind h fun p => redrawn_cursor font ⟨p.1, p.2, submitted⟩

theorem rewritten {op : Kernel KWriter} {result : Kernel Transcript}
    (h : op.map KWriter.toTranscript = result) (line : Text) (submitted : List Text) :
    (op >>= fun w => do let w ← w.drawCursor font; pure (Session.mk w line submitted)).map
      dialogue = result >>= fun t => pure (Dialogue.mk t line submitted) :=
  map_bind h fun w => redrawn_cursor font ⟨w, line, submitted⟩

theorem init_dialogue (font : Font) (fb : Framebuffer) (greetings : List Notice) :
    (init font fb greetings).map dialogue = .ok (.init greetings) := by
  have hstart := redrawn_cursor font ⟨(((KWriter.init fb).draw (.clearBackground
    BLACK)).printLines font (greetings.map Notice.text)).kprint font PROMPT, [], []⟩
  have htext : ((((KWriter.init fb).draw (.clearBackground BLACK)).printLines font
      (greetings.map Notice.text)).kprint font PROMPT).toTranscript =
        (Dialogue.init greetings).toTranscript := by
    rw [KWriter.kprint_toTranscript, KWriter.printLines_toTranscript]
    rfl
  rw [dialogue, htext] at hstart
  exact hstart

theorem prompted_text (font : Font) (w : KWriter) :
    ((w.kprint font PROMPT).resetInputCursor).toTranscript =
      { w.toTranscript.print PROMPT with inputCursor := 0 } :=
  congrArg (fun t => { t with inputCursor := 0 }) (KWriter.kprint_toTranscript PROMPT)

theorem handleKey_dialogue (font : Font) (s : Session) (key : KeyboardEvent) :
    (s.handleKey font info key).map dialogue = s.dialogue.handleKey info key := by
  obtain ⟨w, herase, htext⟩ := s.writer.eraseCursor_ok font
  have hdialogue : s.dialogue = ⟨w.toTranscript, s.line, s.submitted⟩ := by
    rw [htext]
    rfl
  have hok {w' : KWriter} {t : Transcript} (h : w'.toTranscript = t) :
      (pure w' : Kernel KWriter).map KWriter.toTranscript = .ok t := congrArg Except.ok h
  rw [hdialogue, handleKey, herase]
  cases key with
  | char c =>
    simp only [Dialogue.handleKey]
    split
    · have hnewline : (w.kprint font ['\n']).toTranscript = w.toTranscript.newline :=
        KWriter.kprint_toTranscript _
      rw [Dialogue.enter, ← hnewline]
      apply map_bind (KWriter.runCommand_text info s.line)
      intro w
      exact rewritten (hok (prompted_text font w)) [] (s.submitted ++ [s.line])
    split
    · exact edited KWriter.backspace_text s.submitted
    · exact edited (KWriter.insertChar_text c) s.submitted
  | ctrlC =>
    have hcancelled : (w.kprintln font "^C".toList).toTranscript =
        w.toTranscript.println "^C".toList := KWriter.kprintln_toTranscript _
    have htext := prompted_text font (w.kprintln font "^C".toList)
    rw [hcancelled] at htext
    exact rewritten (hok htext) [] s.submitted
  | zoomIn =>
    have hzoom := w.zoomIn_toTranscript font s.line
    exact rewritten (hok hzoom) s.line s.submitted
  | zoomOut =>
    have hzoom := w.zoomOut_toTranscript font s.line
    exact rewritten (hok hzoom) s.line s.submitted
  | arrowRight => exact rewritten KWriter.arrowRight_text s.line s.submitted
  | arrowLeft => exact rewritten KWriter.arrowLeft_text s.line s.submitted
  | arrowUp => exact edited KWriter.arrowUp_text s.submitted
  | arrowDown => exact edited KWriter.arrowDown_text s.submitted
  | ctrlL => exact rewritten (hok (KWriter.kprint_toTranscript PROMPT)) [] s.submitted
  | tab => exact edited KWriter.autoComplete_text s.submitted

theorem step_dialogue (font : Font) (s : Session) (event : ShellEvent) :
    (s.step font event).map dialogue = s.dialogue.step event := by
  cases event with
  | key key info => exact handleKey_dialogue font s key
  | output text =>
    exact congrArg (fun t => Except.ok (Dialogue.mk t s.line s.submitted))
      (KWriter.kprintln_toTranscript text)

theorem run_dialogue (font : Font) (s : Session) (events : List ShellEvent) :
    (s.run font events).map dialogue = s.dialogue.run events := by
  induction events generalizing s with
  | nil => rfl
  | cons event events ih =>
    rw [run, Dialogue.run, List.foldlM_cons, List.foldlM_cons]
    exact map_bind (step_dialogue font s event) ih

theorem exists_run (font : Font) {s : Session} {events : List ShellEvent} {d : Dialogue}
    (h : s.dialogue.run events = .ok d) : ∃ s', s.run font events = .ok s' ∧ s'.dialogue = d := by
  rw [← run_dialogue font] at h
  cases hrun : s.run font events with
  | error stop =>
    rw [hrun] at h
    cases h
  | ok s' =>
    rw [hrun] at h
    exact ⟨s', rfl, Except.ok.inj h⟩

end Session

end AgnostOS.Shell
