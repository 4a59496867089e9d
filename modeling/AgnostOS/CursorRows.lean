import AgnostOS.EditCalls
import AgnostOS.Redraw
import AgnostOS.Library.Trace

/-! The rows that the console writes to: which calls keep the cursor and every glyph on the
screen, and which carry them below its last row. -/
namespace AgnostOS.Shell
open Globals Graphics Commands Console Keyboard

def FitsRow (fb : Framebuffer) (size : RasterHeight) (row : Nat) : Prop :=
  (row + 1) * cellHeight size ≤ fb.height

instance (fb : Framebuffer) (size : RasterHeight) (row : Nat) : Decidable (FitsRow fb size row) :=
  inferInstanceAs (Decidable (_ ≤ _))

def GlyphsFit (fb : Framebuffer) : DrawOp → Prop
  | .drawText text _ row _ fontHeight => text ≠ [] → FitsRow fb (fontHeight.getD FONT_HEIGHT) row
  | _ => True

structure OnScreen (w : KWriter) : Prop where
  row : FitsRow w.fb w.fontSize w.row
  glyphs : ∀ op ∈ w.drawn, GlyphsFit w.fb op

/-! ### Room for a call -/

section Room
variable (font : Font)

def Wraps (w : KWriter) : Prop := (w.column + 1) * w.fontW font > w.fb.width

instance (w : KWriter) : Decidable (Wraps font w) := inferInstanceAs (Decidable (_ > _))

/-- The input line of this length has its rows on the screen, and so has a cursor that stands
behind its last character. -/
def RedrawRoom (w : KWriter) (length cursor : Nat) : Prop :=
  let start := (w.glyphCells.head?.map Cell.row).getD w.row
  let last := KWriter.cellPosition (PROMPT.length + length - 1) (w.fontW font) w.fb.width
  FitsRow w.fb w.fontSize (start + last.2) ∧
    (length ≤ cursor → (last.1 + 1 + 1) * w.fontW font > w.fb.width →
      FitsRow w.fb w.fontSize (start + last.2 + 1))

def Room : KWriter × Text → Call → Prop
  | (w, _), .char ch => ch ≠ '\n' → Wraps font w → FitsRow w.fb w.fontSize (w.row + 1)
  | (w, line), .insertChar _ => line.length < MAX_INPUT_CHARS →
      RedrawRoom font w (line.length + 1) (min w.inputCursor line.length + 1)
  | (w, line), .backspace => 0 < min w.inputCursor line.length →
      RedrawRoom font w (line.length - 1) (min w.inputCursor line.length - 1)
  | (w, _), .arrowRight => RedrawRoom font w w.shown.length
      (moveCursorRight w.inputCursor (w.currentLine.length - PROMPT.length))
  | (w, _), .arrowLeft => RedrawRoom font w w.shown.length (moveCursorLeft w.inputCursor)
  | (w, _), .arrowUp =>
    let commands := commandHistory w.history
    ∀ command ∈ commands[Transcript.olderIndex commands.length w.historyIndex]?,
      RedrawRoom font w (trimPrompts command).length (trimPrompts command).length
  | (w, _), .arrowDown =>
    let commands := commandHistory w.history
    commands ≠ [] → ∀ i ∈ w.historyIndex,
      let length := (commands[i + 1]?.map fun command => (trimPrompts command).length).getD 0
      RedrawRoom font w length length
  | (w, _), .printHistory => FitsRow w.fb w.fontSize w.history.length
  | (w, _), .setFontSize size => FitsRow w.fb size w.row
  | (w, _), .rescale size => FitsRow w.fb size w.history.length
  | _, _ => True

instance (w : KWriter) (length cursor : Nat) : Decidable (RedrawRoom font w length cursor) :=
  inferInstanceAs (Decidable (FitsRow .. ∧ (_ → _ → FitsRow ..)))

instance (p : KWriter × Text) (c : Call) : Decidable (Room font p c) :=
  match c with
  | .char _ => inferInstanceAs (Decidable (_ → _ → _))
  | .insertChar _ => inferInstanceAs (Decidable (_ → _))
  | .backspace => inferInstanceAs (Decidable (_ → _))
  | .arrowRight => inferInstanceAs (Decidable (RedrawRoom ..))
  | .arrowLeft => inferInstanceAs (Decidable (RedrawRoom ..))
  | .arrowUp => inferInstanceAs (Decidable (∀ command ∈ (_ : Option Text), RedrawRoom ..))
  | .arrowDown => inferInstanceAs (Decidable (_ → ∀ i ∈ (_ : Option Nat), RedrawRoom ..))
  | .printHistory => inferInstanceAs (Decidable (FitsRow ..))
  | .setFontSize _ => inferInstanceAs (Decidable (FitsRow ..))
  | .rescale _ => inferInstanceAs (Decidable (FitsRow ..))
  | .drawCursor | .eraseCursor | .resetInputCursor | .reset | .clearLine | .shutdown =>
    inferInstanceAs (Decidable True)

end Room

section Drawing
variable {w w' : KWriter} {ops : List DrawOp}

theorem OnScreen.iff_of_drawn (h : OnScreen w) (hfb : w'.fb = w.fb)
    (hdrawn : w'.drawn = w.drawn ++ ops) :
    OnScreen w' ↔ FitsRow w.fb w'.fontSize w'.row ∧ ∀ op ∈ ops, GlyphsFit w.fb op := by
  constructor
  · intro h'
    refine ⟨hfb ▸ h'.row, fun op hop => hfb ▸ h'.glyphs op ?_⟩
    rw [hdrawn]
    exact List.mem_append_right _ hop
  · intro h'
    refine ⟨hfb ▸ h'.1, fun op hop => hfb ▸ ?_⟩
    rw [hdrawn, List.mem_append] at hop
    exact hop.elim (h.glyphs op) (h'.2 op)

theorem OnScreen.draw (h : OnScreen w) {op : DrawOp} (hop : GlyphsFit w.fb op) :
    OnScreen (w.draw op) where
  row := h.row
  glyphs := fun op' hin => (List.mem_append.mp hin).elim (h.glyphs op')
    fun hnew => List.mem_singleton.mp hnew ▸ hop

theorem OnScreen.cleared (h : OnScreen w) : OnScreen (w.draw (.clearBackground BLACK)) :=
  h.draw trivial

theorem FitsRow.mono {fb : Framebuffer} {size : RasterHeight} {row row' : Nat}
    (h : FitsRow fb size row') (hle : row ≤ row') : FitsRow fb size row :=
  (Nat.mul_le_mul_right _ (Nat.succ_le_succ hle)).trans h

/-- A check for scrolling leaves the cursor on the screen, wherever it was. -/
theorem checkScroll_fits (hlines : 4 * w.fontH ≤ w.fb.height) :
    FitsRow w.fb w.fontSize (w.checkScroll w.fontH).row := by
  have hheight : cellHeight w.fontSize = w.fontH := rfl
  rw [FitsRow, hheight, Nat.succ_mul]
  by_cases hscroll : w.fb.height - 3 * w.fontH ≤ w.y
  · rw [KWriter.checkScroll_of_ge hscroll]
    have hdiv := Nat.div_mul_le_self (w.fb.height - 3 * w.fontH - w.fontH) w.fontH
    simp only
    omega
  · have hy : w.y = w.row * w.fontH := rfl
    rw [KWriter.checkScroll, if_neg hscroll]
    omega

/-- A check for scrolling moves the cursor's row and may scroll the picture. -/
theorem checkScroll_frame (w : KWriter) (fh : Nat) : ∃ row ops,
    w.checkScroll fh = { w with row := row, drawn := w.drawn ++ ops } ∧
      ∀ op ∈ ops, GlyphsFit w.fb op := by
  rw [KWriter.checkScroll]
  simp only
  split
  · exact ⟨_, _, rfl, by simp [GlyphsFit]⟩
  · refine ⟨w.row, [], ?_, by simp⟩
    rw [List.append_nil]

theorem checkScroll_fb (w : KWriter) (fh : Nat) : (w.checkScroll fh).fb = w.fb := by
  obtain ⟨row, ops, hscroll, -⟩ := checkScroll_frame w fh
  rw [hscroll]

theorem drawRec_spec {origin : PixelCoord} {width height : Nat} {color : Color}
    (h : w.drawRec origin width height color = .ok w') :
    ∃ op, w' = w.draw op ∧ GlyphsFit w.fb op := by
  rw [KWriter.drawRec] at h
  split at h
  · exact ⟨_, (Except.ok.inj h).symm, trivial⟩
  · cases h

end Drawing

/-! ### Redrawing the input line -/

section Redraw
variable (font : Font)

variable {font} {w : KWriter}

theorem glyphCalls_fit (start : Nat) (text : Text) :
    (∀ op ∈ (text.zipIdx 0).map (glyphCall font w start), GlyphsFit w.fb op) ↔
      ∀ i < text.length, FitsRow w.fb w.fontSize (lineCell font w start i).row := by
  rw [List.forall_mem_map]
  constructor
  · intro hall i hi
    have hmem : (text[i], i) ∈ text.zipIdx 0 := by
      rw [List.mem_zipIdx_iff_getElem?, List.getElem?_eq_getElem hi]
    exact hall (text[i], i) hmem (List.cons_ne_nil _ _)
  · intro hall p hp _
    exact hall p.2 (by simpa using List.snd_lt_of_mem_zipIdx hp)

/-- Rows go down along the line, so its last character decides. -/
theorem rows_fit_iff {start n : Nat} (hn : 0 < n) :
    (∀ i < n, FitsRow w.fb w.fontSize (lineCell font w start i).row) ↔
      FitsRow w.fb w.fontSize (lineCell font w start (n - 1)).row := by
  constructor
  · intro hall
    exact hall (n - 1) (Nat.sub_lt hn Nat.one_pos)
  · intro hlast i hi
    exact hlast.mono (lineCell_row_mono (by omega))

/-- Where the cursor stands in a line that has been drawn. -/
theorem setInputCursor_spec {start n : Nat} (hn : 0 < n)
    (hcells : w.glyphCells = (List.range' 0 n).map (lineCell font w start)) :
    let last := lineCell font w start (n - 1)
    let index := PROMPT.length + w.inputCursor
    (w.setInputCursor font).fb = w.fb ∧ (w.setInputCursor font).fontSize = w.fontSize ∧
      (w.setInputCursor font).drawn = w.drawn ∧
      (w.setInputCursor font).row =
        if index < n then (lineCell font w start index).row
        else if (last.column + 1 + 1) * w.fontW font > w.fb.width then last.row + 1
        else last.row := by
  have hget : ∀ i, w.glyphCells[i]? = if i < n then some (lineCell font w start i) else none := by
    intro i
    rw [hcells, List.getElem?_map]
    by_cases hi : i < n
    · rw [List.getElem?_range' hi, if_pos hi, Nat.zero_add, Nat.one_mul, Option.map_some]
    · rw [List.getElem?_eq_none (by rw [List.length_range']; omega), if_neg hi, Option.map_none]
  have hlast : w.glyphCells.getLast? = some (lineCell font w start (n - 1)) := by
    rw [List.getLast?_eq_getElem?, hget, hcells, List.length_map, List.length_range',
      if_pos (Nat.sub_lt hn Nat.one_pos)]
  intro last index
  rw [KWriter.setInputCursor]
  simp only [hget, hlast]
  by_cases hindex : index < n
  · simp only [index] at hindex
    simp only [index, if_pos hindex, and_self]
  · simp only [index] at hindex
    simp only [index, if_neg hindex]
    split
    · next hwrap => exact ⟨rfl, rfl, rfl, (if_pos hwrap).symm⟩
    · next hroom => exact ⟨rfl, rfl, rfl, (if_neg hroom).symm⟩

/-- The line is drawn, and the cursor still has to find its place in it. -/
theorem placed_onScreen (h : OnScreen w) {v : KWriter} {start length : Nat} {ops : List DrawOp}
    (hfb : v.fb = w.fb) (hsize : v.fontSize = w.fontSize) (hdrawn : v.drawn = w.drawn ++ ops)
    (hcells : v.glyphCells =
      (List.range' 0 (PROMPT.length + length)).map (lineCell font w start))
    (hops : (∀ op ∈ ops, GlyphsFit w.fb op) ↔ ∀ i < PROMPT.length + length,
      FitsRow w.fb w.fontSize (lineCell font w start i).row) :
    let last := lineCell font w start (PROMPT.length + length - 1)
    (v.setInputCursor font).fb = w.fb ∧ (OnScreen (v.setInputCursor font) ↔
      FitsRow w.fb w.fontSize last.row ∧
        (length ≤ v.inputCursor → (last.column + 1 + 1) * w.fontW font > w.fb.width →
          FitsRow w.fb w.fontSize (last.row + 1))) := by
  have hpos : 0 < PROMPT.length + length := Nat.add_pos_left (by decide) _
  have hcell : lineCell font v start = lineCell font w start := by
    funext i
    simp only [lineCell, KWriter.fontW, hfb, hsize]
  have hwidth : v.fontW font = w.fontW font := by
    simp only [KWriter.fontW, hsize]
  rw [← hcell] at hcells
  obtain ⟨hfb', hsize', hdrawn', hrow'⟩ := setInputCursor_spec hpos hcells
  rw [hcell, hwidth, hfb] at hrow'
  intro last
  refine ⟨hfb'.trans hfb, ?_⟩
  rw [h.iff_of_drawn (hfb'.trans hfb) (hdrawn'.trans hdrawn), hsize', hsize, hrow']
  have hall := hops.trans (rows_fit_iff hpos)
  by_cases hinside : PROMPT.length + v.inputCursor < PROMPT.length + length
  · rw [if_pos hinside]
    have hshort : ¬ length ≤ v.inputCursor := by omega
    constructor
    · rintro ⟨-, hdrawn⟩
      exact ⟨hall.mp hdrawn, fun hle => absurd hle hshort⟩
    · rintro ⟨hlast, -⟩
      exact ⟨(rows_fit_iff hpos).mpr hlast _ (by omega), hall.mpr hlast⟩
  · rw [if_neg hinside]
    have hlong : length ≤ v.inputCursor := by omega
    by_cases hwrap : (last.column + 1 + 1) * w.fontW font > w.fb.width
    · rw [if_pos hwrap]
      constructor
      · rintro ⟨hnext, hdrawn⟩
        exact ⟨hall.mp hdrawn, fun _ _ => hnext⟩
      · rintro ⟨hlast, hnext⟩
        exact ⟨hnext hlong hwrap, hall.mpr hlast⟩
    · rw [if_neg hwrap]
      constructor
      · rintro ⟨hlast, -⟩
        exact ⟨hlast, fun _ h => absurd h hwrap⟩
      · rintro ⟨hlast, -⟩
        exact ⟨hlast, hall.mpr hlast⟩

/-- A redrawn line stays on the screen exactly if there was room for it. -/
theorem redraw_onScreen (h : OnScreen w) {text : Text} {cursor : Nat} {w' : KWriter}
    (hredraw : w.redrawInputLine font text cursor = .ok w') :
    w'.fb = w.fb ∧ (OnScreen w' ↔ RedrawRoom font w text.length cursor) := by
  let line : Text := PROMPT ++ text
  let drawn : KWriter := { w with
    drawn := w.drawn ++ redrawCalls font w text
    currentLine := line
    inputCursor := cursor
    row := startRow w
    glyphCells := (List.range' 0 line.length).map (lineCell font w (startRow w)) }
  have hdrawn : drawn.setInputCursor font = w' :=
    Except.ok.inj ((redrawInputLine_eq font w text cursor).symm.trans hredraw)
  have hops : (∀ op ∈ redrawCalls font w text, GlyphsFit w.fb op) ↔
      ∀ i < line.length, FitsRow w.fb w.fontSize (lineCell font w (startRow w) i).row := by
    rw [redrawCalls, List.forall_mem_cons, glyphCalls_fit]
    exact and_iff_right trivial
  have hcells : drawn.glyphCells = (List.range' 0 (PROMPT.length + text.length)).map
      (lineCell font w (startRow w)) := by
    simp only [drawn, line, List.length_append]
  rw [List.length_append] at hops
  rw [← hdrawn]
  exact placed_onScreen (v := drawn) h rfl rfl rfl hcells hops

end Redraw

/-! ### Calls -/

section Calls
variable {font : Font} {w w' : KWriter} {line line' : Text}

/-- Scrolling brings the cursor back, whatever row it had reached. -/
theorem scrolled_onScreen (hlines : 4 * w.fontH ≤ w.fb.height)
    (hglyphs : ∀ op ∈ w.drawn, GlyphsFit w.fb op) : OnScreen (w.checkScroll w.fontH) := by
  have hfits : FitsRow w.fb w.fontSize (w.checkScroll w.fontH).row := checkScroll_fits hlines
  obtain ⟨row, ops, hscroll, hops⟩ := checkScroll_frame w w.fontH
  rw [hscroll] at hfits ⊢
  exact ⟨hfits, fun op hop => (List.mem_append.mp hop).elim (hglyphs op) (hops op)⟩

def place (ch : Char) (w : KWriter) : KWriter :=
  { w.draw (.drawText [ch] w.column w.row WHITE (some w.fontSize)) with
    glyphCells := w.glyphCells ++ [⟨w.column, w.row⟩]
    column := w.column + 1 }

theorem place_onScreen (h : ∀ op ∈ w.drawn, GlyphsFit w.fb op) (ch : Char) :
    OnScreen (place ch w) ↔ FitsRow w.fb w.fontSize w.row := by
  constructor
  · exact fun h' => h'.row
  · intro hrow
    refine ⟨hrow, fun op hop => ?_⟩
    cases List.mem_append.mp hop with
    | inl hold => exact h op hold
    | inr hnew =>
      rw [List.mem_singleton.mp hnew]
      exact fun _ => hrow

theorem writeChar_onScreen (hlines : 4 * w.fontH ≤ w.fb.height) (h : OnScreen w) (ch : Char) :
    (w.writeChar font ch).fb = w.fb ∧
      (OnScreen (w.writeChar font ch) ↔ Room font (w, line) (.char ch)) := by
  by_cases hnewline : ch = '\n'
  · let below : KWriter := { w with
      history := w.history ++ [w.currentLine], currentLine := [], glyphCells := [], column := 0,
      row := w.row + 1 }
    have hstep : w.writeChar font ch = below.checkScroll below.fontH := if_pos hnewline
    have hscreen : OnScreen (below.checkScroll below.fontH) := scrolled_onScreen hlines h.glyphs
    rw [hstep]
    exact ⟨checkScroll_fb below _, iff_of_true hscreen fun hne => absurd hnewline hne⟩
  · let typed : KWriter := { w with currentLine := w.currentLine ++ [ch] }
    have hstep : w.writeChar font ch = place ch (if (w.column + 1) * w.fontW font > w.fb.width then
        { typed with column := 0, row := w.row + 1 } else typed) := if_neg hnewline
    rw [hstep]
    by_cases hwrap : (w.column + 1) * w.fontW font > w.fb.width
    · have hplace := place_onScreen (w := { typed with column := 0, row := w.row + 1 }) h.glyphs ch
      rw [if_pos hwrap, hplace]
      exact ⟨rfl, fun hfits _ _ => hfits, fun hroom => hroom hnewline hwrap⟩
    · have hplace := place_onScreen (w := typed) h.glyphs ch
      rw [if_neg hwrap, hplace]
      exact ⟨rfl, iff_of_true h.row fun _ hw => absurd hw hwrap⟩

theorem drawCursor_onScreen (hlines : 4 * w.fontH ≤ w.fb.height) (h : OnScreen w)
    (hdraw : w.drawCursor font = .ok w') : w'.fb = w.fb ∧ OnScreen w' := by
  obtain ⟨op, rfl, hop⟩ := drawRec_spec hdraw
  by_cases hedge : w.fb.width < w.x font + w.fontW font
  · let below : KWriter := { w with column := 0, row := w.row + 1 }
    have hscreen : OnScreen (below.checkScroll below.fontH) := scrolled_onScreen hlines h.glyphs
    rw [if_pos hedge] at hop ⊢
    exact ⟨checkScroll_fb below _, hscreen.draw hop⟩
  · rw [if_neg hedge] at hop ⊢
    exact ⟨rfl, h.draw hop⟩

theorem eraseCursor_onScreen (h : OnScreen w) (herase : w.eraseCursor font = .ok w') :
    w'.fb = w.fb ∧ OnScreen w' := by
  obtain ⟨op, rfl, hop⟩ := drawRec_spec herase
  exact ⟨rfl, h.draw hop⟩

/-- The recalled lines are numbered from the top of the screen. -/
theorem printHistory_onScreen (h : ∀ op ∈ w.drawn, GlyphsFit w.fb op) :
    OnScreen w.printHistory ↔ FitsRow w.fb w.fontSize w.history.length := by
  have hpos : 0 < w.fontH := w.fontH_pos
  have hrow : w.printHistory.row = min w.history.length (w.fb.height / w.fontH) := by
    rw [KWriter.printHistory]
    simp only
    rw [Nat.mul_div_cancel _ hpos, List.length_drop]
    generalize w.fb.height / w.fontH = lines
    omega
  have hfits : ∀ row, FitsRow w.fb w.fontSize row ↔ row < w.fb.height / w.fontH := by
    intro row
    exact (Nat.le_div_iff_mul_le hpos).symm
  have hlast : FitsRow w.fb w.fontSize w.printHistory.row ↔
      FitsRow w.fb w.fontSize w.history.length := by
    rw [hfits, hfits, hrow]
    generalize w.fb.height / w.fontH = lines
    omega
  rw [← hlast]
  constructor
  · exact fun h' => h'.row
  · intro hrow'
    refine ⟨hrow', fun op hop => ?_⟩
    cases List.mem_append.mp hop with
    | inl hold => exact h op hold
    | inr hnew =>
      obtain ⟨⟨line, index⟩, hmem, rfl⟩ := List.mem_map.mp hnew
      have hindex : index < (w.history.drop (w.history.length - w.fb.height / w.fontH)).length :=
        List.snd_lt_of_mem_zipIdx hmem
      exact fun _ => hrow'.mono (Nat.div_le_div_right (Nat.mul_le_mul_right _ hindex.le))

/-- There is room for an editing call if there is for the line that it draws. -/
theorem room_edit_iff {p : KWriter × Text} {c : Call} (hedits : c.edits = true) :
    Room font p c ↔ ∀ e ∈ redraws p c, RedrawRoom font p.1 e.1 e.2 := by
  obtain ⟨w, line⟩ := p
  cases c with
  | insertChar ch => simp [Room, redraws]
  | backspace => simp [Room, redraws]
  | arrowRight => simp [Room, redraws]
  | arrowLeft => simp [Room, redraws]
  | arrowUp => simp [Room, redraws]
  | arrowDown =>
    by_cases hnone : commandHistory w.history = []
    · simp [Room, redraws, hnone]
    · cases hindex : w.historyIndex with
      | none => simp [Room, redraws, hindex]
      | some i => simp [Room, redraws, hindex, hnone]
  | _ => cases hedits

/-- An editing call keeps the screen right exactly if there was room for its line. -/
theorem edited_onScreen {p : KWriter × Text} {c : Call} (hedits : c.edits = true)
    (h : OnScreen p.1) (hedited : Edited font p c w') :
    w'.fb = p.1.fb ∧ (OnScreen w' ↔ Room font p c) := by
  rw [room_edit_iff hedits]
  cases hedited with
  | kept t hnone hline hw =>
    subst hw
    rw [hnone]
    exact ⟨rfl, iff_of_true ⟨h.row, h.glyphs⟩ fun e he => by cases he⟩
  | redrawn t text cursor hsome hredraw =>
    have hscreen : OnScreen { p.1 with toTranscript := t } := ⟨h.row, h.glyphs⟩
    obtain ⟨hfb, hroom⟩ := redraw_onScreen hscreen hredraw
    have hsame : OnScreen w' ↔ RedrawRoom font p.1 text.length cursor := hroom
    refine ⟨hfb, hsame.trans ?_⟩
    simp only [hsome, Option.mem_some_iff, forall_eq']

/-- A call from a screen that is right leaves it right exactly if there was room. -/
theorem call_onScreen {p p' : KWriter × Text} {c : Call}
    (hlines : ∀ size, 4 * cellHeight size ≤ p.1.fb.height) (h : OnScreen p.1)
    (hcall : call font p c = .ok p') :
    p'.1.fb = p.1.fb ∧ (OnScreen p'.1 ↔ Room font p c) := by
  obtain ⟨w, line⟩ := p
  obtain ⟨w', line'⟩ := p'
  cases c with
  | char ch =>
    cases hcall
    exact writeChar_onScreen (hlines w.fontSize) h ch
  | insertChar ch => exact edited_onScreen rfl h (call_edited rfl hcall)
  | backspace => exact edited_onScreen rfl h (call_edited rfl hcall)
  | arrowRight => exact edited_onScreen rfl h (call_edited rfl hcall)
  | arrowLeft => exact edited_onScreen rfl h (call_edited rfl hcall)
  | arrowUp => exact edited_onScreen rfl h (call_edited rfl hcall)
  | arrowDown => exact edited_onScreen rfl h (call_edited rfl hcall)
  | drawCursor =>
    obtain ⟨w₁, hdraw, hcall⟩ := Attempt.exists_of_bind_eq_ok hcall
    cases hcall
    obtain ⟨hfb, hscreen⟩ := drawCursor_onScreen (hlines w.fontSize) h hdraw
    exact ⟨hfb, iff_of_true hscreen trivial⟩
  | eraseCursor =>
    obtain ⟨w₁, herase, hcall⟩ := Attempt.exists_of_bind_eq_ok hcall
    cases hcall
    obtain ⟨hfb, hscreen⟩ := eraseCursor_onScreen h herase
    exact ⟨hfb, iff_of_true hscreen trivial⟩
  | resetInputCursor =>
    cases hcall
    exact ⟨rfl, iff_of_true ⟨h.row, h.glyphs⟩ trivial⟩
  | reset =>
    cases hcall
    have htop : FitsRow w.fb w.fontSize 0 := by
      have hheight : 4 * cellHeight w.fontSize ≤ w.fb.height := hlines w.fontSize
      rw [FitsRow]
      omega
    exact ⟨rfl, iff_of_true ⟨htop, h.cleared.glyphs⟩ trivial⟩
  | printHistory =>
    cases hcall
    exact ⟨rfl, printHistory_onScreen h.glyphs⟩
  | setFontSize size =>
    cases hcall
    exact ⟨rfl, fun h' => h'.row, fun hrow => ⟨hrow, h.glyphs⟩⟩
  | rescale size =>
    cases hcall
    exact ⟨rfl, printHistory_onScreen (w := { ({ w with fontSize := size } : KWriter).draw
      (.clearBackground BLACK) with currentLine := [] }) h.cleared.glyphs⟩
  | clearLine =>
    cases hcall
    exact ⟨rfl, iff_of_true h trivial⟩
  | shutdown => cases hcall

end Calls

/-! ### Runs -/

section Runs
variable (font : Font)

def Shown (p : KWriter × Text) : List Call → Prop
  | [] => OnScreen p.1
  | c :: rest => OnScreen p.1 ∧ ∀ p', call font p c = .ok p' → Shown p' rest

def HasRoom (p : KWriter × Text) : List Call → Prop
  | [] => True
  | c :: rest => ∀ p', call font p c = .ok p' → Room font p c ∧ HasRoom p' rest

def HasRoom.decide : (p : KWriter × Text) → (calls : List Call) → Decidable (HasRoom font p calls)
  | _, [] => inferInstanceAs (Decidable True)
  | p, c :: rest =>
    match hcall : call font p c with
    | .error _ => isTrue fun _ h => nomatch hcall.symm.trans h
    | .ok next =>
      have := HasRoom.decide next rest
      decidable_of_iff (Room font p c ∧ HasRoom font next rest)
        ⟨fun h _ h' => Except.ok.inj (hcall.symm.trans h') ▸ h, fun h => h next hcall⟩

instance (p : KWriter × Text) (calls : List Call) : Decidable (HasRoom font p calls) :=
  HasRoom.decide font p calls

def boot (fb : Framebuffer) : Session := ⟨KWriter.init fb, [], []⟩

variable {font} {fb : Framebuffer} {p p' : KWriter × Text} {calls : List Call}

theorem shown_iff (hlines : ∀ size, 4 * cellHeight size ≤ fb.height) (hfb : p.1.fb = fb)
    (h : OnScreen p.1) : Shown font p calls ↔ HasRoom font p calls := by
  induction calls generalizing p with
  | nil => exact iff_of_true h trivial
  | cons c rest ih =>
    subst hfb
    rw [Shown, HasRoom, and_iff_right h]
    refine forall₂_congr fun next hcall => ?_
    obtain ⟨hfb, hroom⟩ := call_onScreen hlines h hcall
    constructor
    · intro hshown
      have hnext : OnScreen next.1 := by
        cases rest with
        | nil => exact hshown
        | cons c' rest => exact hshown.1
      exact ⟨hroom.mp hnext, (ih hfb hnext).mp hshown⟩
    · rintro ⟨hc, hrest⟩
      exact (ih hfb (hroom.mpr hc)).mpr hrest

theorem Shown.final (hlines : ∀ size, 4 * cellHeight size ≤ p.1.fb.height)
    (h : Shown font p calls) (hperform : perform font p calls = .ok p') :
    p'.1.fb = p.1.fb ∧ OnScreen p'.1 := by
  induction calls generalizing p with
  | nil =>
    cases hperform
    exact ⟨rfl, h⟩
  | cons c rest ih =>
    rw [perform_cons] at hperform
    obtain ⟨next, hcall, hrest⟩ := Attempt.exists_of_bind_eq_ok hperform
    obtain ⟨hfb, -⟩ := call_onScreen hlines h.1 hcall
    obtain ⟨hfb', hscreen⟩ := ih (by rwa [hfb]) (h.2 next hcall) hrest
    exact ⟨hfb'.trans hfb, hscreen⟩

theorem operate_perform {s s' : Session} {op : Operation} (h : s.operate font op = .ok s') :
    perform font s.view (s.calls op) = .ok s'.view := by
  rw [← operate_calls, h]
  rfl

/-- The cursor and all glyphs stay on the screen in exactly the runs whose calls all find
room. -/
theorem on_screen_iff (hlines : ∀ size, 4 * cellHeight size ≤ fb.height) {ops : List Operation}
    {s : Session} :
    Trace (fun op s s' => s.operate font op = .ok s' ∧ Shown font s.view (s.calls op) ∧
      OnScreen s'.writer) ops (boot fb) s ↔
    Trace (fun op s s' => s.operate font op = .ok s' ∧ HasRoom font s.view (s.calls op))
      ops (boot fb) s := by
  have hfinal : ∀ op (s s' : Session), s.writer.fb = fb → s.operate font op = .ok s' →
      Shown font s.view (s.calls op) → s'.writer.fb = fb ∧ OnScreen s'.writer := by
    rintro op s s' rfl hoperate hshown
    exact hshown.final hlines (operate_perform hoperate)
  refine Trace.congr_of_invariant (I := fun s => s.writer.fb = fb ∧ OnScreen s.writer) ?_ ?_ ?_
  · intro op s s' hs
    have hiff : Shown font s.view (s.calls op) ↔ HasRoom font s.view (s.calls op) :=
      shown_iff hlines hs.1 hs.2
    constructor
    · exact fun h => ⟨h.1, hiff.mp h.2.1⟩
    · intro h
      have hshown := hiff.mpr h.2
      exact ⟨h.1, hshown, (hfinal op s s' hs.1 h.1 hshown).2⟩
  · exact fun op s s' hs h => hfinal op s s' hs.1 h.1 h.2.1
  · have htop : FitsRow fb .size16 0 := by
      have hheight := hlines .size16
      rw [FitsRow]
      omega
    exact ⟨rfl, htop, by simp [boot, KWriter.init]⟩

end Runs

open KWriter (xga)

def narrowDisplay : Framebuffer where
  ptr := 0x80000000
  size := ⟨28, 150, Nat.succ_pos _, Nat.succ_pos _⟩
  stride := ⟨28, Nat.succ_pos _⟩
  pixelFormat := .bgr
  byteLen := 16800
  supported := xga.supported
  covered := ⟨16800, rfl, le_rfl⟩

/-- A line that wraps is edited and entered, its answer wraps and scrolls, and the history is
printed. -/
def narrowSession : List Operation :=
  [.kprint PROMPT] ++ ([.char 'a', .char 'b', .char 'c', .arrowLeft, .char '\n'].map
    fun key => .key key idleSystem) ++ [.history, .drawCursor]

theorem prompt_on_screen : ∃ s, Trace (fun op s s' => s.operate blankFont op = .ok s' ∧
    Shown blankFont s.view (s.calls op) ∧ OnScreen s'.writer)
    narrowSession (boot narrowDisplay) s := by
  have hpasses : Trace.passes (Session.operate blankFont)
      (fun s op => HasRoom blankFont s.view (s.calls op)) narrowSession
      (boot narrowDisplay) = true := by decide +kernel
  obtain ⟨s, htrace⟩ := Trace.exists_of_passes hpasses
  exact ⟨s, (on_screen_iff fun size => by cases size <;> decide).mpr htrace⟩

/-- A long line at the bottom of the screen: its last character lies in the row below. -/
theorem wrapped_below_the_screen :
    (∀ size, cellWidth blankFont size ≤ xga.width) ∧ (∀ size, 4 * cellHeight size ≤ xga.height) ∧
    ∃ s, Trace (fun op s s' => s.operate blankFont op = .ok s')
      [.kprint (List.replicate 39 '\n' ++ List.replicate 439 'a')] (boot xga) s ∧
      s.writer.row = 42 ∧ ¬ OnScreen s.writer := by
  let w : KWriter := (KWriter.init xga).kprint blankFont
    (List.replicate 39 '\n' ++ List.replicate 439 'a')
  have hrow : w.row = 42 ∧ ¬ FitsRow w.fb w.fontSize w.row := by decide +kernel
  have hwide : ∀ size, cellWidth blankFont size ≤ xga.width := fun size => by cases size <;> decide
  have hhigh : ∀ size, 4 * cellHeight size ≤ xga.height := fun size => by cases size <;> decide
  exact ⟨hwide, hhigh, ⟨w, [], []⟩, ⟨_, rfl, rfl⟩, hrow.1, fun hscreen => hrow.2 hscreen.row⟩

end AgnostOS.Shell
