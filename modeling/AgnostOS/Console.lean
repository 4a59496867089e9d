import AgnostOS.Commands
import AgnostOS.Graphics
import AgnostOS.Library.Utf8

/-! The text console of console/mod.rs: the writer, its history and the input line. -/
namespace AgnostOS.Console
open Globals Graphics Commands

/-- What ends the kernel instead of a result: a panic, or the shutdown command. -/
inductive Stop where
  | panic | shutdown
  deriving DecidableEq

abbrev Kernel := Except Stop

/-- The value of an operation of the standard library that panics on none. -/
def expect {α : Type} (result : Option α) : Kernel α := result.elim (throw .panic) pure

structure Cell where
  column : Nat
  row : Nat
  deriving DecidableEq, Repr

structure Transcript where
  history : List Text
  currentLine : Text
  inputCursor : Nat
  historyIndex : Option Nat

/-- The console's writer. `drawn` lists the drawing calls made on `fb`, in order. -/
structure KWriter extends Transcript where
  fb : Framebuffer
  column : Nat
  row : Nat
  glyphCells : List Cell
  fontSize : RasterHeight
  drawn : List DrawOp

namespace KWriter
variable (font : Font)

def init (fb : Framebuffer) : KWriter where
  history := []
  currentLine := []
  inputCursor := 0
  historyIndex := none
  fb := fb
  column := 0
  row := 0
  glyphCells := []
  fontSize := .size16
  drawn := []

def fontH (w : KWriter) : Nat := cellHeight w.fontSize
def fontW (w : KWriter) : Nat := cellWidth font w.fontSize

def x (w : KWriter) : Nat := w.column * w.fontW font
def y (w : KWriter) : Nat := w.row * w.fontH

def draw (w : KWriter) (op : DrawOp) : KWriter := { w with drawn := w.drawn ++ [op] }

/-- A rectangle as `draw_rec` is called with; `PixelSize::new` panics on an empty one. -/
def drawRec (w : KWriter) (origin : PixelCoord) (width height : Nat) (color : Color) :
    Kernel KWriter :=
  if h : 0 < width ∧ 0 < height then
    pure (w.draw (.drawRec origin ⟨width, height, h.1, h.2⟩ color))
  else throw .panic

def checkScroll (w : KWriter) (fh : Nat) : KWriter :=
  let threshold := w.fb.height - 3 * fh
  if w.y ≥ threshold then
    let scrollBy := w.y - threshold + fh
    { w.draw (.scrollUp scrollBy) with row := (threshold - fh) / fh }
  else w

def writeChar (w : KWriter) (ch : Char) : KWriter :=
  if ch = '\n' then
    -- flush the current line into history and move the cursor down
    let w := { w with
      history := w.history ++ [w.currentLine]
      currentLine := []
      glyphCells := []
      column := 0
      row := w.row + 1 }
    w.checkScroll w.fontH
  else
    let w := { w with currentLine := w.currentLine ++ [ch] }
    -- wrap at the right edge
    let w := if (w.column + 1) * w.fontW font > w.fb.width then
      { w with column := 0, row := w.row + 1 } else w
    let w := w.draw (.drawText [ch] w.column w.row WHITE (some w.fontSize))
    { w with
      glyphCells := w.glyphCells ++ [⟨w.column, w.row⟩]
      column := w.column + 1 }

def writeStr (w : KWriter) (s : Text) : KWriter := s.foldl (writeChar font) w

def kprint (w : KWriter) (text : Text) : KWriter := w.writeStr font text

def kprintln (w : KWriter) (text : Text) : KWriter := (w.kprint font text).kprint font ['\n']

def reset (w : KWriter) : KWriter :=
  { w.draw (.clearBackground BLACK) with
    column := 0
    row := 0
    glyphCells := []
    currentLine := []
    inputCursor := 0
    historyIndex := none }

def cellPosition (index cellWidth framebufferWidth : Nat) : Nat × Nat :=
  let pixelX := index * cellWidth
  (pixelX % framebufferWidth / cellWidth, pixelX / framebufferWidth)

def setInputCursor (w : KWriter) : KWriter :=
  let index := PROMPT.length + w.inputCursor
  match w.glyphCells[index]? with
  | some cell => { w with column := cell.column, row := cell.row }
  | none =>
    match w.glyphCells.getLast? with
    | some cell =>
      let w := { w with column := cell.column + 1, row := cell.row }
      if (w.column + 1) * w.fontW font > w.fb.width then
        { w with column := 0, row := w.row + 1 }
      else w
    | none => w

def redrawGlyphs (startRow : Nat) (w : KWriter) : Nat → Text → KWriter
  | _, [] => w
  | index, ch :: rest =>
    let (column, rowOffset) := cellPosition index (w.fontW font) w.fb.width
    let row := startRow + rowOffset
    let w := w.draw (.drawText [ch] column row WHITE (some w.fontSize))
    redrawGlyphs startRow { w with glyphCells := w.glyphCells ++ [⟨column, row⟩] } (index + 1) rest

def redrawInputLine (w : KWriter) (text : Text) (cursor : Nat) : Kernel KWriter := do
  let fh := w.fontH
  let fw := w.fontW font
  let startRow := (w.glyphCells.head?.map Cell.row).getD w.row
  let totalChars := PROMPT.length + text.length
  let rows := (totalChars * fw + (w.fb.width - 1)) / w.fb.width
  let w ← w.drawRec ⟨0, startRow * fh⟩ w.fb.width (fh * max rows 1) BLACK
  let w := { w with
    currentLine := PROMPT ++ text
    inputCursor := cursor
    glyphCells := [] }
  let w := w.redrawGlyphs font startRow 0 w.currentLine
  pure (setInputCursor font { w with row := startRow })

def redrawCurrentInput (w : KWriter) : Kernel KWriter :=
  let text := if PROMPT.isPrefixOf w.currentLine then w.currentLine.drop PROMPT.length else []
  w.redrawInputLine font text w.inputCursor

end KWriter

/-! ### Editing the line -/

def insertCharAt (line : Text) (cursor : Nat) (ch : Char) : Kernel Text :=
  let index := ((Utf8.charIndices 0 line)[cursor]?.map Prod.fst).getD (Utf8.byteLen line)
  expect (Utf8.insert line index ch)

def removeCharAt (line : Text) (cursor : Nat) : Kernel Text :=
  let cursor := min cursor line.length
  if cursor = 0 then pure line
  else
    let start := ((Utf8.charIndices 0 line)[cursor - 1]?.map Prod.fst).getD 0
    let stop := ((Utf8.charIndices 0 line)[cursor]?.map Prod.fst).getD (Utf8.byteLen line)
    expect (Utf8.replaceRange line start stop [])

def moveCursorLeft (cursor : Nat) : Nat := cursor - 1

def moveCursorRight (cursor lineLength : Nat) : Nat := min (cursor + 1) lineLength

namespace KWriter
variable (font : Font)

/-- The shell's line travels with the writer through the editing calls. -/
def backspace (w : KWriter) (line : Text) : Kernel (KWriter × Text) := do
  let w := { w with inputCursor := min w.inputCursor line.length }
  if w.inputCursor = 0 then
    return (w, line)
  let line ← removeCharAt line w.inputCursor
  let w := { w with inputCursor := w.inputCursor - 1 }
  let w ← w.redrawInputLine font line w.inputCursor
  return (w, line)

def insertChar (w : KWriter) (line : Text) (ch : Char) : Kernel (KWriter × Text) := do
  if line.length ≥ MAX_INPUT_CHARS then
    return (w, line)
  let w := { w with inputCursor := min w.inputCursor line.length }
  let line ← insertCharAt line w.inputCursor ch
  let w := { w with inputCursor := w.inputCursor + 1 }
  let w ← w.redrawInputLine font line w.inputCursor
  return (w, line)

def resetInputCursor (w : KWriter) : KWriter := { w with inputCursor := 0 }

def drawCursor (w : KWriter) : Kernel KWriter :=
  let fh := w.fontH
  let fw := w.fontW font
  let w := if w.fb.width < w.x font + fw then
    ({ w with column := 0, row := w.row + 1 } : KWriter).checkScroll fh else w
  w.drawRec ⟨w.x font, w.y⟩ fw (fh - 4) WHITE

def eraseCursor (w : KWriter) : Kernel KWriter :=
  w.drawRec ⟨w.x font, w.y⟩ (w.fontW font) (w.fontH - 4) BLACK

def insertChars (w : KWriter) (line : Text) : Text → Kernel (KWriter × Text)
  | [] => pure (w, line)
  | ch :: rest => do
    let (w, line) ← w.insertChar font line ch
    insertChars w line rest

def autoComplete (w : KWriter) (line : Text) : Kernel (KWriter × Text) :=
  match completeCommand line with
  | none => pure (w, line)
  | some command => do
    let (_, suffix) ← expect (Utf8.splitAt command (Utf8.byteLen line))
    w.insertChars font line suffix

def printHistory (w : KWriter) : KWriter :=
  let fh := w.fontH
  let maxLines := w.fb.height / fh
  let visible := w.history.drop (w.history.length - maxLines)
  let draws := visible.zipIdx.map fun (line, index) =>
    DrawOp.drawText line 0 (index * fh / fh) WHITE (some w.fontSize)
  { w with
    drawn := w.drawn ++ draws
    column := 0
    row := visible.length * fh / fh }

def zoomTo (w : KWriter) (fontSize : RasterHeight) (currentInput : Text) : KWriter :=
  let w := { w with fontSize := fontSize }
  let w := { w.draw (.clearBackground BLACK) with currentLine := [] }
  w.printHistory.kprint font (PROMPT ++ currentInput)

def zoomIn (w : KWriter) (currentInput : Text) : KWriter :=
  w.zoomTo font
    (match w.fontSize with
      | .size16 => .size20
      | .size20 => .size24
      | .size24 | .size32 => .size32)
    currentInput

def zoomOut (w : KWriter) (currentInput : Text) : KWriter :=
  w.zoomTo font
    (match w.fontSize with
      | .size32 => .size24
      | .size24 => .size20
      | .size20 | .size16 => .size16)
    currentInput

def setFontSize (w : KWriter) (fontSize : RasterHeight) : KWriter := { w with fontSize := fontSize }

end KWriter

/-! ### Command history -/

def commandHistory (history : List Text) : List Text :=
  history.filter fun line => PROMPT.isPrefixOf line ∧ line ≠ "^C".toList ∧ line ≠ []

def trimPrompts : Text → Text
  | '>' :: ' ' :: rest => trimPrompts rest
  | line => line

namespace KWriter
variable (font : Font)

def arrowRight (w : KWriter) : Kernel KWriter :=
  let length := w.currentLine.length - PROMPT.length
  let w := { w with inputCursor := moveCursorRight w.inputCursor length }
  w.redrawCurrentInput font

def arrowLeft (w : KWriter) : Kernel KWriter :=
  let w := { w with inputCursor := moveCursorLeft w.inputCursor }
  w.redrawCurrentInput font

def arrowUp (w : KWriter) (line : Text) : Kernel (KWriter × Text) :=
  let commands := commandHistory w.history
  if commands = [] then pure (w, line)
  else do
    let newIndex := match w.historyIndex with
      | none => commands.length - 1
      | some 0 => 0
      | some (i + 1) => i
    let w := { w with historyIndex := some newIndex }
    let command ← expect commands[newIndex]?
    let recalled := trimPrompts command
    let w ← w.redrawInputLine font recalled recalled.length
    return (w, recalled)

def arrowDown (w : KWriter) (line : Text) : Kernel (KWriter × Text) :=
  let commands := commandHistory w.history
  if commands = [] then pure (w, line)
  else
    match w.historyIndex with
    | none => pure (w, line)
    | some i => do
      let (w, newText) ←
        if i + 1 < commands.length then do
          let command ← expect commands[i + 1]?
          pure ({ w with historyIndex := some (i + 1) }, trimPrompts command)
        else pure ({ w with historyIndex := none }, [])
      let w ← w.redrawInputLine font newText newText.length
      return (w, newText)

/-! ### Running a command -/

def printLines (w : KWriter) (lines : List Text) : KWriter := lines.foldl (kprintln font) w

/-- `run_command`; the shutdown command does not return. -/
def runCommand (info : SystemInfo) (w : KWriter) (command : Text) : Kernel KWriter :=
  let parsed := parse command
  let args := parsed.args
  match parsed.command with
  | .help => pure (w.printLines font (help args))
  | .about => pure (w.kprintln font about)
  | .history => pure w.printHistory
  | .echo => pure (w.kprintln font (List.intercalate [' '] args))
  | .meminfo => pure (w.printLines font (meminfo info))
  | .taskinfo => pure (w.printLines font (taskinfo info))
  | .font =>
    let arg := args.headD []
    if arg = "16".toList then pure (w.setFontSize .size16)
    else if arg = "20".toList then pure (w.setFontSize .size20)
    else if arg = "24".toList then pure (w.setFontSize .size24)
    else if arg = "32".toList then pure (w.setFontSize .size32)
    else pure (w.kprintln font "usage: font <16|20|24|32>".toList)
  | .clear => pure w.reset
  | .shutdown => throw .shutdown
  | .uptime => pure (w.kprintln font (uptime info))
  | .empty => pure w
  | .unknown => pure (w.kprintln font "Unknown command".toList)

end KWriter

end AgnostOS.Console
