import AgnostOS.Console

/-! What each console call does to the text, whatever it draws. -/
namespace AgnostOS.Console
open Globals Graphics Commands

/-- Two steps in a row are seen through `h` and `g` as two other steps. -/
theorem map_bind {α β γ δ : Type} {h : α → β} {g : γ → δ} {first : Kernel α} {first' : Kernel β}
    {next : α → Kernel γ} {k : β → Kernel δ} (hfirst : first.map h = first')
    (hnext : ∀ a, (next a).map g = k (h a)) : (first >>= next).map g = first' >>= k := by
  subst hfirst
  cases first with
  | error stop => rfl
  | ok a => exact hnext a

namespace Transcript

def newline (t : Transcript) : Transcript :=
  { t with history := t.history ++ [t.currentLine], currentLine := [] }

def put (t : Transcript) (ch : Char) : Transcript :=
  if ch = '\n' then t.newline else { t with currentLine := t.currentLine ++ [ch] }

def print (t : Transcript) (text : Text) : Transcript := text.foldl put t

def println (t : Transcript) (text : Text) : Transcript := (t.print text).newline

def redrawn (t : Transcript) (text : Text) (cursor : Nat) : Transcript :=
  { t with currentLine := PROMPT ++ text, inputCursor := cursor }

def cleared (t : Transcript) : Transcript :=
  { t with currentLine := [], inputCursor := 0, historyIndex := none }

def shown (t : Transcript) : Text :=
  if PROMPT.isPrefixOf t.currentLine then t.currentLine.drop PROMPT.length else []

/-! The editing calls take the shell's line along, as they do in the writer. -/

def insertChar (t : Transcript) (line : Text) (ch : Char) : Transcript × Text :=
  if line.length ≥ MAX_INPUT_CHARS then (t, line)
  else
    let cursor := min t.inputCursor line.length
    let line := line.take cursor ++ ch :: line.drop cursor
    (t.redrawn line (cursor + 1), line)

def insertChars (t : Transcript) (line text : Text) : Transcript × Text :=
  text.foldl (fun p ch => p.1.insertChar p.2 ch) (t, line)

def backspace (t : Transcript) (line : Text) : Transcript × Text :=
  let cursor := min t.inputCursor line.length
  if cursor = 0 then ({ t with inputCursor := 0 }, line)
  else
    let line := line.take (cursor - 1) ++ line.drop cursor
    (t.redrawn line (cursor - 1), line)

def autoComplete (t : Transcript) (line : Text) : Transcript × Text :=
  match completeCommand line with
  | none => (t, line)
  | some command => t.insertChars line (command.drop line.length)

def arrowRight (t : Transcript) : Transcript :=
  t.redrawn t.shown (moveCursorRight t.inputCursor (t.currentLine.length - PROMPT.length))

def arrowLeft (t : Transcript) : Transcript := t.redrawn t.shown (moveCursorLeft t.inputCursor)

def olderIndex (count : Nat) : Option Nat → Nat
  | none => count - 1
  | some index => index - 1

def retrieve (t : Transcript) (historyIndex : Option Nat) (text : Text) : Transcript × Text :=
  ({ t with historyIndex := historyIndex }.redrawn text text.length, text)

def arrowUp (t : Transcript) (line : Text) : Kernel (Transcript × Text) :=
  let commands := commandHistory t.history
  if commands = [] then pure (t, line)
  else do
    let index := olderIndex commands.length t.historyIndex
    let command ← expect commands[index]?
    pure (t.retrieve (some index) (trimPrompts command))

def arrowDown (t : Transcript) (line : Text) : Transcript × Text :=
  let commands := commandHistory t.history
  match t.historyIndex with
  | none => (t, line)
  | some index =>
    if commands = [] then (t, line)
    else
      match commands[index + 1]? with
      | some command => t.retrieve (some (index + 1)) (trimPrompts command)
      | none => t.retrieve none []

def zoom (t : Transcript) (line : Text) : Transcript :=
  { t with currentLine := [] }.print (PROMPT ++ line)

def printLines (t : Transcript) (lines : List Text) : Transcript := lines.foldl println t

def responses (info : SystemInfo) (parsed : ParsedCommand) : List Text :=
  match parsed.command with
  | .help => help parsed.args
  | .about => [about]
  | .echo => [List.intercalate [' '] parsed.args]
  | .meminfo => meminfo info
  | .taskinfo => taskinfo info
  | .font =>
    if parsed.args.headD [] ∈ ["16".toList, "20".toList, "24".toList, "32".toList] then []
    else ["usage: font <16|20|24|32>".toList]
  | .uptime => [uptime info]
  | .unknown => ["Unknown command".toList]
  | .clear | .shutdown | .history | .empty => []

def runCommand (info : SystemInfo) (t : Transcript) (command : Text) : Kernel Transcript :=
  let parsed := parse command
  match parsed.command with
  | .clear => pure t.cleared
  | .shutdown => throw .shutdown
  | _ => pure (t.printLines (responses info parsed))

/-- Text without a newline only extends the current line. -/
theorem print_of_flat {text : Text} (t : Transcript) (h : '\n' ∉ text) :
    t.print text = { t with currentLine := t.currentLine ++ text } := by
  induction text generalizing t with
  | nil => simp [print]
  | cons ch text ih =>
    have hne : ch ≠ '\n' := fun heq => h (heq ▸ List.mem_cons_self)
    have hput : t.put ch = { t with currentLine := t.currentLine ++ [ch] } := if_neg hne
    have hrest := ih (t.put ch) fun hmem => h (List.mem_cons_of_mem ch hmem)
    rw [hput] at hrest
    simp only [print, List.foldl_cons, hput] at hrest ⊢
    rw [hrest, List.append_assoc, List.singleton_append]

end Transcript

namespace KWriter
variable {font : Font} {w : KWriter} {line : Text}

@[simp] theorem draw_toTranscript (op : DrawOp) : (w.draw op).toTranscript = w.toTranscript := rfl

@[simp] theorem checkScroll_toTranscript (fh : Nat) :
    (w.checkScroll fh).toTranscript = w.toTranscript := by
  rw [checkScroll]
  split <;> rfl

theorem writeChar_toTranscript (ch : Char) :
    (w.writeChar font ch).toTranscript = w.toTranscript.put ch := by
  rw [writeChar, Transcript.put]
  split
  · rw [checkScroll_toTranscript]
    rfl
  · simp only [draw]
    split <;> rfl

@[simp] theorem kprint_toTranscript (text : Text) :
    (w.kprint font text).toTranscript = w.toTranscript.print text := by
  rw [kprint, writeStr, Transcript.print]
  induction text generalizing w with
  | nil => rfl
  | cons ch text ih => rw [List.foldl_cons, List.foldl_cons, ih, writeChar_toTranscript]

@[simp] theorem kprintln_toTranscript (text : Text) :
    (w.kprintln font text).toTranscript = w.toTranscript.println text := by
  rw [kprintln, kprint_toTranscript, kprint_toTranscript]
  rfl

@[simp] theorem reset_toTranscript : w.reset.toTranscript = w.toTranscript.cleared := rfl

@[simp] theorem printHistory_toTranscript : w.printHistory.toTranscript = w.toTranscript := rfl

@[simp] theorem printLines_toTranscript (lines : List Text) :
    (w.printLines font lines).toTranscript = lines.foldl Transcript.println w.toTranscript := by
  rw [printLines]
  induction lines generalizing w with
  | nil => rfl
  | cons text lines ih => rw [List.foldl_cons, List.foldl_cons, ih, kprintln_toTranscript]

theorem zoomTo_toTranscript (fontSize : RasterHeight) (text : Text) :
    (w.zoomTo font fontSize text).toTranscript =
      ({ w.toTranscript with currentLine := [] } : Transcript).print (PROMPT ++ text) := by
  rw [zoomTo, kprint_toTranscript]
  rfl

/-! ### Redrawing -/

theorem fontH_gt : 4 < w.fontH := by
  rw [fontH]
  cases w.fontSize <;> decide

theorem drawRec_ok (w : KWriter) (origin : PixelCoord) {width height : Nat} (color : Color)
    (hw : 0 < width) (hh : 0 < height) :
    ∃ op, w.drawRec origin width height color = .ok (w.draw op) :=
  ⟨_, dif_pos ⟨hw, hh⟩⟩

theorem drawCursor_ok (font : Font) (w : KWriter) : ∃ w', w.drawCursor font = .ok w' ∧
    w'.toTranscript = w.toTranscript := by
  let wrapped := if w.fb.width < w.x font + w.fontW font then
    ({ w with column := 0, row := w.row + 1 } : KWriter).checkScroll w.fontH else w
  have htext : wrapped.toTranscript = w.toTranscript := by
    simp only [wrapped]
    split
    · rw [checkScroll_toTranscript]
    · rfl
  obtain ⟨op, hop⟩ := wrapped.drawRec_ok ⟨wrapped.x font, wrapped.y⟩ WHITE
    (font.rasterWidth_pos w.fontSize) (Nat.sub_pos_of_lt w.fontH_gt)
  exact ⟨_, hop, htext⟩

theorem eraseCursor_ok (font : Font) (w : KWriter) : ∃ w', w.eraseCursor font = .ok w' ∧
    w'.toTranscript = w.toTranscript := by
  obtain ⟨op, hop⟩ := w.drawRec_ok ⟨w.x font, w.y⟩ BLACK (font.rasterWidth_pos w.fontSize)
    (Nat.sub_pos_of_lt w.fontH_gt)
  exact ⟨_, hop, rfl⟩

theorem setInputCursor_toTranscript :
    (w.setInputCursor font).toTranscript = w.toTranscript := by
  simp only [setInputCursor]
  split
  · rfl
  · split
    · split <;> rfl
    · rfl

theorem redrawGlyphs_toTranscript (startRow index : Nat) (text : Text) :
    (w.redrawGlyphs font startRow index text).toTranscript = w.toTranscript := by
  induction text generalizing w index with
  | nil => rfl
  | cons ch text ih =>
    rw [redrawGlyphs, ih]
    rfl

theorem redrawInputLine_ok (font : Font) (w : KWriter) (text : Text) (cursor : Nat) :
    ∃ w', w.redrawInputLine font text cursor = .ok w' ∧
      w'.toTranscript = w.toTranscript.redrawn text cursor := by
  have hrows (rows : Nat) : 0 < w.fontH * max rows 1 :=
    Nat.mul_pos (by have := w.fontH_gt; omega) (by omega)
  obtain ⟨op, hop⟩ := w.drawRec_ok
    ⟨0, (w.glyphCells.head?.map Cell.row).getD w.row * w.fontH⟩ BLACK w.fb.size.width_pos
    (hrows (((PROMPT.length + text.length) * w.fontW font + (w.fb.width - 1)) / w.fb.width))
  simp only [redrawInputLine, Framebuffer.width] at hop ⊢
  rw [hop]
  refine ⟨_, rfl, ?_⟩
  rw [setInputCursor_toTranscript]
  simp only [redrawGlyphs_toTranscript, draw_toTranscript]
  rfl

theorem redrawInputLine_text (text : Text) (cursor : Nat) :
    (w.redrawInputLine font text cursor).map toTranscript =
      .ok (w.toTranscript.redrawn text cursor) := by
  obtain ⟨w', hredraw, htext⟩ := redrawInputLine_ok font w text cursor
  rw [hredraw]
  exact congrArg Except.ok htext

/-! ### Editing -/

theorem insertCharAt_ok (line : Text) (cursor : Nat) (ch : Char) :
    insertCharAt line cursor ch = .ok (line.take cursor ++ ch :: line.drop cursor) := by
  have hindex := Utf8.index_of_nth line 0 cursor
  have hinsert := Utf8.insert_boundary (line.take cursor) (line.drop cursor) ch
  rw [List.take_append_drop] at hinsert
  rw [Nat.zero_add, Nat.zero_add] at hindex
  rw [insertCharAt, hindex, hinsert]
  rfl

theorem removeCharAt_ok {line : Text} {cursor : Nat} (hpos : 0 < cursor)
    (hle : cursor ≤ line.length) :
    removeCharAt line cursor = .ok (line.take (cursor - 1) ++ line.drop cursor) := by
  have hmin : min cursor line.length = cursor := Nat.min_eq_left hle
  have hstart := Utf8.nth_charIndices (s := line) (k := cursor - 1) 0 (by omega)
  have hstop := Utf8.index_of_nth line 0 cursor
  rw [Nat.zero_add] at hstart
  rw [Nat.zero_add, Nat.zero_add] at hstop
  have hbefore : line.take (cursor - 1) ++ (line.take cursor).drop (cursor - 1) =
      line.take cursor := by
    have htake := List.take_append_drop (cursor - 1) (line.take cursor)
    rwa [List.take_take, Nat.min_eq_left (Nat.sub_le cursor 1)] at htake
  have hreplace := Utf8.replaceRange_boundary (line.take (cursor - 1))
    ((line.take cursor).drop (cursor - 1)) (line.drop cursor) []
  rw [hbefore, List.take_append_drop, List.append_nil] at hreplace
  simp only [removeCharAt, hmin, if_neg hpos.ne', hstart, hstop, Option.getD_some, hreplace]
  rfl

def text (p : KWriter × Text) : Transcript × Text := (p.1.toTranscript, p.2)

theorem redrawn_with_line (text' line' : Text) (cursor : Nat) :
    (w.redrawInputLine font text' cursor >>= fun w' => pure (w', line')).map text =
      .ok (w.toTranscript.redrawn text' cursor, line') :=
  map_bind (redrawInputLine_text ..) (k := fun t => .ok (t, line')) fun _ => rfl

theorem insertChar_text (ch : Char) : (w.insertChar font line ch).map text =
    .ok (w.toTranscript.insertChar line ch) := by
  simp only [insertChar, Transcript.insertChar]
  split
  · rfl
  · simp only [insertCharAt_ok]
    exact redrawn_with_line ..

theorem insertChars_text (suffix : Text) : (w.insertChars font line suffix).map text =
    .ok (w.toTranscript.insertChars line suffix) := by
  induction suffix generalizing w line with
  | nil => rfl
  | cons ch suffix ih =>
    exact map_bind (insertChar_text ch) (k := fun p => .ok (p.1.insertChars p.2 suffix))
      fun _ => ih

theorem backspace_text : (w.backspace font line).map text =
    .ok (w.toTranscript.backspace line) := by
  simp only [backspace, Transcript.backspace]
  split
  · next hzero =>
    simp only [hzero]
    rfl
  · next hpos =>
    simp only [removeCharAt_ok (Nat.pos_of_ne_zero hpos) (Nat.min_le_right ..)]
    exact redrawn_with_line ..

theorem completeCommand_some {command : Text} (h : completeCommand line = some command) :
    command ∈ COMMAND_NAMES ∧ line <+: command := by
  rw [completeCommand] at h
  split at h
  · cases h
  · split at h
    · next heq =>
      cases h
      have hmem : command ∈ COMMAND_NAMES.filter line.isPrefixOf := heq ▸ List.mem_singleton_self _
      rw [List.mem_filter] at hmem
      exact ⟨hmem.1, List.isPrefixOf_iff_prefix.mp hmem.2⟩
    · cases h

theorem autoComplete_text : (w.autoComplete font line).map text =
    .ok (w.toTranscript.autoComplete line) := by
  rw [autoComplete, Transcript.autoComplete]
  cases hcommand : completeCommand line with
  | none => rfl
  | some command =>
    obtain ⟨suffix, rfl⟩ := (completeCommand_some hcommand).2
    simp only [Utf8.splitAt_boundary, List.drop_left]
    exact insertChars_text suffix

theorem arrowRight_text : (w.arrowRight font).map toTranscript =
    .ok w.toTranscript.arrowRight :=
  redrawInputLine_text ..

theorem arrowLeft_text : (w.arrowLeft font).map toTranscript = .ok w.toTranscript.arrowLeft :=
  redrawInputLine_text ..

theorem arrowUp_text : (w.arrowUp font line).map text = w.toTranscript.arrowUp line := by
  simp only [arrowUp, Transcript.arrowUp]
  split
  · rfl
  · have hrecall (index : Nat) :
        (expect (commandHistory w.history)[index]? >>= fun command =>
          ({ w with historyIndex := some index } : KWriter).redrawInputLine font
            (trimPrompts command) (trimPrompts command).length >>= fun w =>
          pure (w, trimPrompts command)).map text =
        expect (commandHistory w.history)[index]? >>= fun command =>
          pure (w.toTranscript.retrieve (some index) (trimPrompts command)) := by
      cases (commandHistory w.history)[index]? with
      | none => rfl
      | some command => exact redrawn_with_line ..
    cases w.historyIndex with
    | none => exact hrecall _
    | some index => cases index <;> exact hrecall _

theorem arrowDown_text : (w.arrowDown font line).map text =
    .ok (w.toTranscript.arrowDown line) := by
  simp only [arrowDown, Transcript.arrowDown]
  cases w.historyIndex with
  | none => split <;> rfl
  | some index =>
    simp only
    split
    · rfl
    · split
      · next hlt =>
        rw [List.getElem?_eq_getElem hlt]
        exact redrawn_with_line ..
      · next hge =>
        rw [List.getElem?_eq_none (Nat.not_lt.mp hge)]
        exact redrawn_with_line ..

theorem zoomIn_toTranscript (font : Font) (w : KWriter) (line : Text) :
    (w.zoomIn font line).toTranscript = w.toTranscript.zoom line :=
  zoomTo_toTranscript ..

theorem zoomOut_toTranscript (font : Font) (w : KWriter) (line : Text) :
    (w.zoomOut font line).toTranscript = w.toTranscript.zoom line :=
  zoomTo_toTranscript ..

theorem runCommand_text (info : SystemInfo) (command : Text) :
    (w.runCommand font info command).map toTranscript =
      w.toTranscript.runCommand info command := by
  have hprintln (text : Text) : (pure (w.kprintln font text) : Kernel KWriter).map toTranscript =
      pure (w.toTranscript.printLines [text]) :=
    congrArg Except.ok (kprintln_toTranscript text)
  have hprintLines (lines : List Text) :
      (pure (w.printLines font lines) : Kernel KWriter).map toTranscript =
        pure (w.toTranscript.printLines lines) :=
    congrArg Except.ok (printLines_toTranscript lines)
  rw [runCommand, Transcript.runCommand, Transcript.responses]
  simp only
  cases (parse command).command with
  | font =>
    simp only [List.mem_cons, List.not_mem_nil, or_false]
    by_cases h16 : (parse command).args.headD [] = "16".toList
    · rw [if_pos h16, if_pos (.inl h16)]
      rfl
    by_cases h20 : (parse command).args.headD [] = "20".toList
    · rw [if_neg h16, if_pos h20, if_pos (.inr (.inl h20))]
      rfl
    by_cases h24 : (parse command).args.headD [] = "24".toList
    · rw [if_neg h16, if_neg h20, if_pos h24, if_pos (.inr (.inr (.inl h24)))]
      rfl
    by_cases h32 : (parse command).args.headD [] = "32".toList
    · rw [if_neg h16, if_neg h20, if_neg h24, if_pos h32, if_pos (.inr (.inr (.inr h32)))]
      rfl
    rw [if_neg h16, if_neg h20, if_neg h24, if_neg h32,
      if_neg (not_or.mpr ⟨h16, not_or.mpr ⟨h20, not_or.mpr ⟨h24, h32⟩⟩⟩)]
    exact hprintln _
  | help => exact hprintLines _
  | about => exact hprintln _
  | history => rfl
  | echo => exact hprintln _
  | meminfo => exact hprintLines _
  | taskinfo => exact hprintLines _
  | clear => rfl
  | shutdown => rfl
  | empty => rfl
  | unknown => exact hprintln _
  | uptime => exact hprintln _

end KWriter

end AgnostOS.Console
