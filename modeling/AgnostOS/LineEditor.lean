import AgnostOS.ShellLines

/-! The shell's line and the writer's cursor follow a reference editor. -/
namespace AgnostOS.Shell
open Globals Graphics Commands Console Keyboard

/-! ### Reference editor -/

structure Editor where
  line : Text
  cursor : Nat
  deriving DecidableEq, Repr

inductive Edit where
  | insert (ch : Char)
  | erase
  | left | right
  | retrieve (text : Text)
  | clear

def Editor.apply (e : Editor) : Edit → Editor
  | .insert ch =>
    if e.line.length < MAX_INPUT_CHARS then ⟨e.line.insertIdx e.cursor ch, e.cursor + 1⟩ else e
  | .erase => if e.cursor = 0 then e else ⟨e.line.eraseIdx (e.cursor - 1), e.cursor - 1⟩
  | .left => ⟨e.line, e.cursor - 1⟩
  | .right => ⟨e.line, min (e.cursor + 1) e.line.length⟩
  | .retrieve text => ⟨text, text.length⟩
  | .clear => ⟨[], 0⟩

def olderText (t : Transcript) : Option Text :=
  let commands := commandHistory t.history
  commands[Transcript.olderIndex commands.length t.historyIndex]?.map trimPrompts

def newerText (t : Transcript) : Option Text :=
  let commands := commandHistory t.history
  if commands = [] then none
  else t.historyIndex.map fun index => (commands[index + 1]?.map trimPrompts).getD []

def edits (d : Dialogue) : KeyboardEvent → List Edit
  | .char c => if c = '\n' then [.clear] else if c = '\x08' then [.erase] else [.insert c]
  | .ctrlC | .ctrlL => [.clear]
  | .zoomIn | .zoomOut => []
  | .arrowLeft => [.left]
  | .arrowRight => [.right]
  | .arrowUp => ((olderText d.toTranscript).map Edit.retrieve).toList
  | .arrowDown => ((newerText d.toTranscript).map Edit.retrieve).toList
  | .tab => (((completeCommand d.line).getD []).drop d.line.length).map .insert

def typed (font : Font) (p : Session × Editor) (input : KeyboardEvent × SystemInfo) :
    Kernel (Session × Editor) := do
  let s ← p.1.handleKey font input.2 input.1
  pure (s, (edits p.1.dialogue input.1).foldl Editor.apply p.2)

/-! ### Agreement -/

def Dialogue.editor (d : Dialogue) : Editor := ⟨d.line, d.inputCursor⟩

structure Dialogue.Prompted (d : Dialogue) : Prop where
  shown : d.currentLine = PROMPT ++ d.line
  cursor_le : d.inputCursor ≤ d.line.length
  line_flat : '\n' ∉ d.line
  history_flat : ∀ line ∈ d.history, '\n' ∉ line
  browsing : d.toTranscript.Browsing

namespace Dialogue
variable {info : SystemInfo} {d : Dialogue}

theorem Prompted.shown_text (h : d.Prompted) : d.toTranscript.shown = d.line := by
  rw [Transcript.shown, h.shown]
  simp

theorem prompted_prompted {t : Transcript} {lines : List Text} (h : d.Prompted)
    (hline : t.currentLine = []) (hhistory : t.history = d.history ++ lines)
    (hlines : ∀ line ∈ lines, '\n' ∉ line)
    (hindex : t.historyIndex = d.historyIndex ∨ t.historyIndex = none) (submitted : List Text) :
    (prompted t submitted).Prompted ∧ (prompted t submitted).editor = ⟨[], 0⟩ := by
  have hprint : t.print PROMPT = { t with currentLine := PROMPT } := by
    rw [Transcript.print_of_flat t (by decide), hline]
    rfl
  rw [prompted, hprint]
  refine ⟨⟨rfl, Nat.le_refl 0, List.not_mem_nil, ?_, h.browsing.mono hhistory hindex⟩, rfl⟩
  intro line hmem
  rw [hhistory] at hmem
  cases List.mem_append.mp hmem with
  | inl hold => exact h.history_flat line hold
  | inr hnew => exact hlines line hnew

theorem Prompted.redrawn (h : d.Prompted) {line : Text} {cursor : Nat}
    (hcursor : cursor ≤ line.length) (hflat : '\n' ∉ line) :
    (d.withText (d.toTranscript.redrawn line cursor, line)).Prompted :=
  ⟨rfl, hcursor, hflat, h.history_flat, h.browsing⟩

theorem insertChar_prompted (h : d.Prompted) {ch : Char} (hch : ch ≠ '\n') :
    (d.withText (d.insertChar d.line ch)).Prompted ∧
      (d.withText (d.insertChar d.line ch)).editor = d.editor.apply (.insert ch) := by
  simp only [Transcript.insertChar]
  by_cases hfull : d.line.length < MAX_INPUT_CHARS
  · have hmin : min d.inputCursor d.line.length = d.inputCursor := Nat.min_eq_left h.cursor_le
    have hinsert : d.line.insertIdx d.inputCursor ch =
        d.line.take d.inputCursor ++ ch :: d.line.drop d.inputCursor := by
      have htail := List.modifyTailIdx_add (List.cons ch) 0 (d.line.take d.inputCursor)
        (d.line.drop d.inputCursor)
      rw [List.take_append_drop, List.length_take, hmin] at htail
      exact htail
    have happly : d.editor.apply (.insert ch) =
        ⟨d.line.insertIdx d.inputCursor ch, d.inputCursor + 1⟩ := if_pos hfull
    rw [if_neg (Nat.not_le.mpr hfull), happly, hmin, hinsert]
    refine ⟨h.redrawn ?_ ?_, rfl⟩
    · have hle := h.cursor_le
      simp only [List.length_append, List.length_take, List.length_cons, List.length_drop]
      omega
    · intro hmem
      rw [← hinsert] at hmem
      cases List.eq_or_mem_of_mem_insertIdx hmem with
      | inl heq => exact hch heq.symm
      | inr hold => exact h.line_flat hold
  · have happly : d.editor.apply (.insert ch) = d.editor := if_neg hfull
    rw [if_pos (Nat.not_lt.mp hfull), happly]
    exact ⟨h, rfl⟩

theorem insertChars_prompted (h : d.Prompted) {text : Text} (htext : '\n' ∉ text) :
    (d.withText (d.insertChars d.line text)).Prompted ∧
      (d.withText (d.insertChars d.line text)).editor =
        (text.map Edit.insert).foldl Editor.apply d.editor := by
  induction text generalizing d with
  | nil => exact ⟨h, rfl⟩
  | cons ch text ih =>
    have hfirst := insertChar_prompted h fun heq : ch = '\n' => htext (heq ▸ List.mem_cons_self)
    have hrest := ih hfirst.1 fun hmem => htext (List.mem_cons_of_mem ch hmem)
    rw [hfirst.2] at hrest
    exact hrest

theorem backspace_prompted (h : d.Prompted) :
    (d.withText (d.backspace d.line)).Prompted ∧
      (d.withText (d.backspace d.line)).editor = d.editor.apply .erase := by
  have hle := h.cursor_le
  have hmin : min d.inputCursor d.line.length = d.inputCursor := Nat.min_eq_left hle
  simp only [Transcript.backspace, hmin]
  by_cases hzero : d.inputCursor = 0
  · have happly : d.editor.apply .erase = ⟨d.line, d.inputCursor⟩ := if_pos hzero
    rw [if_pos hzero, happly, hzero]
    exact ⟨⟨h.shown, Nat.zero_le _, h.line_flat, h.history_flat, h.browsing⟩, rfl⟩
  · have herase : d.line.eraseIdx (d.inputCursor - 1) =
        d.line.take (d.inputCursor - 1) ++ d.line.drop d.inputCursor := by
      rw [List.eraseIdx_eq_take_drop_succ, Nat.sub_add_cancel (Nat.pos_of_ne_zero hzero)]
    have happly : d.editor.apply .erase =
        ⟨d.line.eraseIdx (d.inputCursor - 1), d.inputCursor - 1⟩ := if_neg hzero
    rw [if_neg hzero, happly, ← herase]
    refine ⟨h.redrawn ?_ ?_, rfl⟩
    · rw [List.length_eraseIdx]
      split <;> omega
    · exact fun hmem => h.line_flat (List.mem_of_mem_eraseIdx hmem)

theorem arrow_prompted (h : d.Prompted) {cursor : Nat} (hcursor : cursor ≤ d.line.length) :
    (d.withText (d.toTranscript.redrawn d.toTranscript.shown cursor, d.line)).Prompted ∧
      (d.withText (d.toTranscript.redrawn d.toTranscript.shown cursor, d.line)).editor =
        ⟨d.line, cursor⟩ := by
  rw [h.shown_text]
  exact ⟨h.redrawn hcursor h.line_flat, rfl⟩

theorem recall_prompted (h : d.Prompted) (historyIndex : Option Nat) {text : Text}
    (htext : '\n' ∉ text)
    (hindex : ∀ index ∈ historyIndex, index < (commandHistory d.history).length) :
    (d.withText (d.toTranscript.retrieve historyIndex text)).Prompted ∧
      (d.withText (d.toTranscript.retrieve historyIndex text)).editor = ⟨text, text.length⟩ :=
  ⟨⟨rfl, Nat.le_refl _, htext, h.history_flat, hindex⟩, rfl⟩

theorem trimPrompts_flat (h : d.Prompted) {index : Nat} {command : Text}
    (hcommand : (commandHistory d.history)[index]? = some command) :
    '\n' ∉ trimPrompts command := fun hmem =>
  h.history_flat command
    (Transcript.mem_of_mem_commandHistory (List.mem_of_getElem? hcommand))
    (Transcript.mem_of_mem_trimPrompts hmem)

theorem Prompted.shown_flat (h : d.Prompted) : '\n' ∉ d.currentLine := by
  intro hmem
  rw [h.shown] at hmem
  cases List.mem_append.mp hmem with
  | inl hprompt => exact absurd hprompt (by decide)
  | inr hline => exact h.line_flat hline

theorem zoom_prompted (h : d.Prompted) : d.toTranscript.zoom d.line = d.toTranscript := by
  have hflat := h.shown_flat
  rw [h.shown] at hflat
  rw [Transcript.zoom, Transcript.print_of_flat _ hflat, List.nil_append, ← h.shown]

theorem answered_prompted (h : d.Prompted) {t : Transcript} (hline : t.currentLine = [])
    (hhistory : t.history = d.newline.history ++ Transcript.screenLines info d.line)
    (hindex : t.historyIndex = d.historyIndex ∨ t.historyIndex = none) (submitted : List Text) :
    (prompted t submitted).Prompted ∧ (prompted t submitted).editor = ⟨[], 0⟩ := by
  have hgrown : t.history = d.history ++ d.currentLine :: Transcript.screenLines info d.line := by
    rw [hhistory, Transcript.newline, List.append_assoc, List.singleton_append]
  have hflat : ∀ line ∈ d.currentLine :: Transcript.screenLines info d.line, '\n' ∉ line := by
    intro line hmem
    cases hmem with
    | head => exact h.shown_flat
    | tail _ hmem => exact Transcript.screenLines_flat hmem
  exact prompted_prompted h hline hgrown hflat hindex submitted

theorem enter_prompted (h : d.Prompted) :
    Safe (fun d' => d'.Prompted ∧ d'.editor = ⟨[], 0⟩) (d.enter info) := by
  apply (Transcript.runCommand_safe info d.line rfl).bind
  intro t ht
  exact answered_prompted h ht.1 ht.2.1 ht.2.2 _

theorem cancel_prompted (h : d.Prompted) :
    (prompted (d.println "^C".toList) d.submitted).Prompted ∧
      (prompted (d.println "^C".toList) d.submitted).editor = ⟨[], 0⟩ := by
  have hsplit : "^C".toList.splitOn '\n' = ["^C".toList] :=
    List.splitOn_eq_singleton (by decide)
  have hflat : ∀ line ∈ [d.currentLine ++ "^C".toList], '\n' ∉ line := by
    intro line hmem hnewline
    rw [List.mem_singleton.mp hmem] at hnewline
    cases List.mem_append.mp hnewline with
    | inl hshown => exact h.shown_flat hshown
    | inr hmark => exact absurd hmark (by decide)
  have hprint : d.println "^C".toList = { d.toTranscript with
      history := d.history ++ [d.currentLine ++ "^C".toList], currentLine := [] } := by
    rw [Transcript.println_eq, hsplit]
    rfl
  rw [hprint]
  refine prompted_prompted h ?_ ?_ hflat (.inl ?_) _ <;> rfl

theorem clear_prompted (h : d.Prompted) :
    (d.withText (d.cleared.print PROMPT, [])).Prompted ∧
      (d.withText (d.cleared.print PROMPT, [])).editor = ⟨[], 0⟩ :=
  prompted_prompted (t := d.cleared) h rfl (List.append_nil _).symm
    (fun _ hmem => absurd hmem List.not_mem_nil) (.inr rfl) d.submitted

theorem arrowUp_prompted (h : d.Prompted) :
    Safe (fun d' => d'.Prompted ∧
      d'.editor = (edits d .arrowUp).foldl Editor.apply d.editor)
      (d.handleKey info .arrowUp) := by
  simp only [handleKey, Transcript.arrowUp, edits, olderText]
  by_cases hempty : commandHistory d.history = []
  · simp only [hempty]
    exact ⟨h, rfl⟩
  have hlt : Transcript.olderIndex (commandHistory d.history).length d.historyIndex <
      (commandHistory d.history).length := by
    have hpos := List.length_pos_of_ne_nil hempty
    cases hindex : d.historyIndex with
    | none => exact Nat.sub_lt hpos Nat.zero_lt_one
    | some index => exact (Nat.sub_le index 1).trans_lt (h.browsing index hindex)
  have hcommand := List.getElem?_eq_getElem hlt
  simp only [if_neg hempty, hcommand]
  refine recall_prompted h (some _) (trimPrompts_flat h hcommand) ?_
  intro index hmem
  cases hmem
  exact hlt

theorem arrowDown_prompted (h : d.Prompted) :
    (d.withText (d.arrowDown d.line)).Prompted ∧ (d.withText (d.arrowDown d.line)).editor =
      (edits d .arrowDown).foldl Editor.apply d.editor := by
  simp only [Transcript.arrowDown, edits, newerText]
  cases hindex : d.historyIndex with
  | none =>
    simp only [Option.map_none, ite_self]
    exact ⟨h, rfl⟩
  | some index =>
    by_cases hempty : commandHistory d.history = []
    · simp only [if_pos hempty]
      exact ⟨h, rfl⟩
    simp only [if_neg hempty, Option.map_some]
    cases hcommand : (commandHistory d.history)[index + 1]? with
    | none =>
      have hnone : '\n' ∉ ([] : Text) := List.not_mem_nil
      exact recall_prompted h none hnone fun _ hmem => absurd hmem (by simp)
    | some command =>
      refine recall_prompted h (some (index + 1)) (trimPrompts_flat h hcommand) ?_
      intro index' hmem
      cases hmem
      exact (List.getElem?_eq_some_iff.mp hcommand).1

theorem completion_flat {line command : Text} (h : completeCommand line = some command) :
    '\n' ∉ command.drop line.length := by
  have hnames : ∀ name ∈ COMMAND_NAMES, '\n' ∉ name := by decide
  have hflat := hnames command (KWriter.completeCommand_some h).1
  exact fun hmem => hflat (List.mem_of_mem_drop hmem)

theorem autoComplete_prompted (h : d.Prompted) :
    (d.withText (d.autoComplete d.line)).Prompted ∧ (d.withText (d.autoComplete d.line)).editor =
      (edits d .tab).foldl Editor.apply d.editor := by
  rw [Transcript.autoComplete, edits]
  cases hcommand : completeCommand d.line with
  | none =>
    rw [Option.getD_none, List.drop_nil]
    exact ⟨h, rfl⟩
  | some command => exact insertChars_prompted h (completion_flat hcommand)

theorem handleKey_prompted (info : SystemInfo) (h : d.Prompted) (key : KeyboardEvent) :
    Safe (fun d' => d'.Prompted ∧ d'.editor = (edits d key).foldl Editor.apply d.editor)
      (d.handleKey info key) := by
  have hzoom : Safe (fun d' => d'.Prompted ∧ d'.editor = d.editor)
      (d.handleKey info .zoomIn) := by
    rw [handleKey, zoom_prompted h]
    exact ⟨h, rfl⟩
  cases key with
  | char c =>
    rw [handleKey, edits]
    by_cases hnewline : c = '\n'
    · rw [if_pos hnewline, if_pos hnewline]
      exact enter_prompted h
    by_cases herase : c = '\x08'
    · rw [if_neg hnewline, if_neg hnewline, if_pos herase, if_pos herase]
      exact backspace_prompted h
    · rw [if_neg hnewline, if_neg hnewline, if_neg herase, if_neg herase]
      exact insertChar_prompted h hnewline
  | ctrlC => exact cancel_prompted h
  | zoomIn => exact hzoom
  | zoomOut => exact hzoom
  | arrowLeft => exact arrow_prompted h ((Nat.sub_le ..).trans h.cursor_le)
  | arrowRight =>
    have hlength : d.currentLine.length - PROMPT.length = d.line.length := by
      rw [h.shown, List.length_append, Nat.add_sub_cancel_left]
    have hright := arrow_prompted h (Nat.min_le_right (d.inputCursor + 1) d.line.length)
    rw [handleKey, Transcript.arrowRight, hlength]
    exact hright
  | arrowUp => exact arrowUp_prompted h
  | arrowDown => exact arrowDown_prompted h
  | ctrlL => exact clear_prompted h
  | tab => exact autoComplete_prompted h

end Dialogue

/-! ### Runs -/

/-- A prompt at which nothing was typed, below any newline-free history. -/
structure Dialogue.FreshPrompt (d : Dialogue) : Prop where
  line_empty : d.line = []
  shown : d.currentLine = PROMPT
  cursor_zero : d.inputCursor = 0
  history_flat : ∀ line ∈ d.history, '\n' ∉ line
  browsing : d.toTranscript.Browsing

theorem Dialogue.FreshPrompt.prompted {d : Dialogue} (h : d.FreshPrompt) : d.Prompted where
  shown := by rw [h.shown, h.line_empty, List.append_nil]
  cursor_le := by rw [h.cursor_zero]; exact Nat.zero_le _
  line_flat := by rw [h.line_empty]; exact List.not_mem_nil
  history_flat := h.history_flat
  browsing := h.browsing

theorem Dialogue.init_eq (greetings : List Notice) : Dialogue.init greetings =
    ⟨⟨(greetings.map Notice.text).flatMap (·.splitOn '\n'), PROMPT, 0, none⟩, [], []⟩ := by
  rw [Dialogue.init, Transcript.printLines_of_empty _ rfl, Transcript.print_of_flat _ (by decide)]
  rfl

theorem Dialogue.init_fresh (greetings : List Notice) : (Dialogue.init greetings).FreshPrompt := by
  rw [Dialogue.init_eq]
  refine ⟨rfl, rfl, rfl, ?_, fun _ hmem => absurd hmem (by simp)⟩
  intro line hmem
  obtain ⟨text, _, hline⟩ := List.mem_flatMap.mp hmem
  rw [List.splitOn_eq_splitOnP] at hline
  exact fun hnewline => absurd (Split.not_separator hline _ hnewline) (by simp)

theorem Session.init_ok (font : Font) (fb : Framebuffer) (greetings : List Notice) :
    ∃ s, Session.init font fb greetings = .ok s ∧ s.dialogue = .init greetings := by
  have hinit := Session.init_dialogue font fb greetings
  cases hs : Session.init font fb greetings with
  | error stop =>
    rw [hs] at hinit
    cases hinit
  | ok s =>
    rw [hs] at hinit
    exact ⟨s, rfl, Except.ok.inj hinit⟩

/-- Whatever is typed, the shell does not panic: every index it edits at is a boundary of
characters. It shuts down, or holds the editor's line and cursor. -/
theorem line_editor_refines (font : Font) {s : Session} (h : s.dialogue.FreshPrompt)
    (inputs : List (KeyboardEvent × SystemInfo)) :
    Safe (fun p : Session × Editor => p.1.line = p.2.line ∧ p.1.writer.inputCursor = p.2.cursor ∧
      p.2.cursor ≤ p.2.line.length ∧ p.1.writer.currentLine = PROMPT ++ p.1.line)
      (inputs.foldlM (typed font) (s, ⟨[], 0⟩)) := by
  have hstart : s.dialogue.editor = ⟨[], 0⟩ := by
    rw [Dialogue.editor, h.line_empty, h.cursor_zero]
  have hstep (p : Session × Editor) (input : KeyboardEvent × SystemInfo)
      (hp : p.1.dialogue.Prompted ∧ p.1.dialogue.editor = p.2) :
      Safe (fun p => p.1.dialogue.Prompted ∧ p.1.dialogue.editor = p.2) (typed font p input) := by
    have hkey := Dialogue.handleKey_prompted input.2 hp.1 input.1
    rw [hp.2, ← Session.handleKey_dialogue font] at hkey
    exact hkey.of_map.bind fun s' hs' => hs'
  apply (Safe.foldlM hstep ⟨h.prompted, hstart⟩ inputs).mono
  intro p hp
  rw [← hp.2]
  exact ⟨rfl, rfl, hp.1.cursor_le, hp.1.shown⟩

theorem line_editor_refines_insertion :
    ∃ s, Session.init blankFont smallDisplay [] = .ok s ∧
      Safe (fun p : Session × Editor => p.1.line = p.2.line ∧
        p.1.writer.inputCursor = p.2.cursor ∧ p.2.cursor ≤ p.2.line.length ∧
        p.1.writer.currentLine = PROMPT ++ p.1.line)
        ([(.char 'a', idleSystem), (.arrowLeft, idleSystem), (.char 'é', idleSystem)].foldlM
          (typed blankFont) (s, ⟨[], 0⟩)) := by
  obtain ⟨s, hinit, hdialogue⟩ := Session.init_ok blankFont smallDisplay []
  exact ⟨s, hinit, line_editor_refines blankFont (hdialogue ▸ Dialogue.init_fresh []) _⟩

end AgnostOS.Shell
