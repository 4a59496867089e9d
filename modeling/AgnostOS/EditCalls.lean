import AgnostOS.ConsoleCalls
import AgnostOS.Library.Attempt

/-! The editing calls of the console: each draws the input line again, with the text that it
has edited or recalled, or leaves the screen alone. -/
namespace AgnostOS.Shell
open Globals Graphics Commands Console

def redraws : KWriter × Text → Call → Option (Nat × Nat)
  | (w, line), .insertChar _ =>
    if line.length < MAX_INPUT_CHARS then
      some (line.length + 1, min w.inputCursor line.length + 1)
    else none
  | (w, line), .backspace =>
    if 0 < min w.inputCursor line.length then
      some (line.length - 1, min w.inputCursor line.length - 1)
    else none
  | (w, _), .arrowRight => some (w.shown.length,
      moveCursorRight w.inputCursor (w.currentLine.length - PROMPT.length))
  | (w, _), .arrowLeft => some (w.shown.length, moveCursorLeft w.inputCursor)
  | (w, _), .arrowUp =>
    let commands := commandHistory w.history
    commands[Transcript.olderIndex commands.length w.historyIndex]?.map fun command =>
      ((trimPrompts command).length, (trimPrompts command).length)
  | (w, _), .arrowDown =>
    let commands := commandHistory w.history
    if commands = [] then none
    else w.historyIndex.map fun i =>
      let length := (commands[i + 1]?.map fun command => (trimPrompts command).length).getD 0
      (length, length)
  | _, _ => none

section Editing
variable {font : Font} {w w' : KWriter} {line line' : Text}

inductive Edited (font : Font) (p : KWriter × Text) (c : Call) (w' : KWriter) : Prop where
  | kept (t : Transcript) (hnone : redraws p c = none) (hline : t.currentLine = p.1.currentLine)
    (h : w' = { p.1 with toTranscript := t })
  | redrawn (t : Transcript) (text : Text) (cursor : Nat)
    (hsome : redraws p c = some (text.length, cursor))
    (h : ({ p.1 with toTranscript := t } : KWriter).redrawInputLine font text cursor = .ok w')

theorem insertChar_edited {ch : Char} (hcall : w.insertChar font line ch = .ok (w', line')) :
    Edited font (w, line) (.insertChar ch) w' := by
  rw [KWriter.insertChar] at hcall
  by_cases hfull : line.length ≥ MAX_INPUT_CHARS
  · rw [if_pos hfull] at hcall
    cases hcall
    exact .kept w.toTranscript (if_neg (Nat.not_lt.mpr hfull)) rfl rfl
  · rw [if_neg hfull] at hcall
    obtain ⟨line₁, hline, hcall⟩ := Attempt.exists_of_bind_eq_ok hcall
    obtain ⟨w₁, hredraw, hcall⟩ := Attempt.exists_of_bind_eq_ok hcall
    cases hcall
    have hlen : line'.length = line.length + 1 := by
      have hinsert := KWriter.insertCharAt_ok line (min w.inputCursor line.length) ch
      rw [← Except.ok.inj (hline.symm.trans hinsert).symm, List.length_append, List.length_cons,
        List.length_take, List.length_drop]
      omega
    refine .redrawn _ line' _ ?_ hredraw
    rw [hlen]
    exact if_pos (Nat.lt_of_not_le hfull)

theorem backspace_edited (hcall : w.backspace font line = .ok (w', line')) :
    Edited font (w, line) .backspace w' := by
  rw [KWriter.backspace] at hcall
  by_cases hzero : min w.inputCursor line.length = 0
  · simp only [if_pos hzero] at hcall
    cases hcall
    exact .kept { w.toTranscript with inputCursor := min w.inputCursor line.length }
      (if_neg (Nat.not_lt.mpr hzero.le)) rfl rfl
  · simp only [if_neg hzero] at hcall
    obtain ⟨line₁, hline, hcall⟩ := Attempt.exists_of_bind_eq_ok hcall
    obtain ⟨w₁, hredraw, hcall⟩ := Attempt.exists_of_bind_eq_ok hcall
    cases hcall
    have hpos : 0 < min w.inputCursor line.length := Nat.pos_of_ne_zero hzero
    have hlen : line'.length = line.length - 1 := by
      have hremove := KWriter.removeCharAt_ok hpos (Nat.min_le_right ..)
      rw [← Except.ok.inj (hline.symm.trans hremove).symm, List.length_append, List.length_take,
        List.length_drop]
      omega
    refine .redrawn _ line' _ ?_ hredraw
    rw [hlen]
    exact if_pos hpos

theorem eq_some_of_expect {α : Type} {result : Option α} {a : α} (h : expect result = .ok a) :
    result = some a := by
  cases result with
  | none => cases h
  | some b => exact congrArg some (Except.ok.inj h)

theorem arrowUp_edited (hcall : w.arrowUp font line = .ok (w', line')) :
    Edited font (w, line) .arrowUp w' := by
  rw [KWriter.arrowUp] at hcall
  by_cases hnone : commandHistory w.history = []
  · simp only [if_pos hnone] at hcall
    cases hcall
    refine .kept w.toTranscript ?_ rfl rfl
    simp [redraws, hnone]
  · simp only [if_neg hnone] at hcall
    obtain ⟨command, hcommand, hcall⟩ := Attempt.exists_of_bind_eq_ok hcall
    obtain ⟨w₁, hredraw, hcall⟩ := Attempt.exists_of_bind_eq_ok hcall
    cases hcall
    have hfound : (commandHistory w.history)[Transcript.olderIndex
        (commandHistory w.history).length w.historyIndex]? = some command := by
      revert hcommand
      cases w.historyIndex with
      | none => exact eq_some_of_expect
      | some index =>
        cases index with
        | zero => exact eq_some_of_expect
        | succ index => exact eq_some_of_expect
    refine .redrawn _ (trimPrompts command) _ ?_ hredraw
    simp only [redraws, hfound, Option.map_some]

theorem arrowDown_edited (hcall : w.arrowDown font line = .ok (w', line')) :
    Edited font (w, line) .arrowDown w' := by
  rw [KWriter.arrowDown] at hcall
  by_cases hnone : commandHistory w.history = []
  · simp only [if_pos hnone] at hcall
    cases hcall
    exact .kept w.toTranscript (if_pos hnone) rfl rfl
  · simp only [if_neg hnone] at hcall
    cases hindex : w.historyIndex with
    | none =>
      simp only [hindex] at hcall
      cases hcall
      refine .kept w.toTranscript ?_ rfl rfl
      simp [redraws, hindex]
    | some i =>
      simp only [hindex] at hcall
      have hredraws : redraws (w, line) .arrowDown = some
          ((((commandHistory w.history)[i + 1]?.map fun command =>
              (trimPrompts command).length).getD 0),
            ((commandHistory w.history)[i + 1]?.map fun command =>
              (trimPrompts command).length).getD 0) := by
        simp only [redraws, hindex, if_neg hnone, Option.map_some]
      by_cases hlt : i + 1 < (commandHistory w.history).length
      · simp only [if_pos hlt] at hcall
        obtain ⟨command, hcommand, hcall⟩ := Attempt.exists_of_bind_eq_ok hcall
        obtain ⟨next, hnext, hcall⟩ := Attempt.exists_of_bind_eq_ok hcall
        obtain ⟨w₁, hredraw, hcall⟩ := Attempt.exists_of_bind_eq_ok hcall
        cases hnext
        cases hcall
        refine .redrawn _ (trimPrompts command) _ ?_ hredraw
        rw [hredraws, eq_some_of_expect hcommand, Option.map_some, Option.getD_some]
      · simp only [if_neg hlt] at hcall
        obtain ⟨next, hnext, hcall⟩ := Attempt.exists_of_bind_eq_ok hcall
        obtain ⟨w₁, hredraw, hcall⟩ := Attempt.exists_of_bind_eq_ok hcall
        cases hnext
        cases hcall
        refine .redrawn _ [] _ ?_ hredraw
        rw [hredraws, List.getElem?_eq_none (Nat.not_lt.mp hlt)]
        rfl

theorem redrawCurrent_edited {c : Call} {t : Transcript} {cursor : Nat}
    (hredraws : redraws (w, line) c = some (t.shown.length, cursor))
    (hcall : ({ w with toTranscript := { t with inputCursor := cursor } } : KWriter).redrawCurrentInput
      font = .ok w') : Edited font (w, line) c w' :=
  .redrawn _ t.shown cursor hredraws hcall

def Call.edits : Call → Bool
  | .insertChar _ | .backspace | .arrowRight | .arrowLeft | .arrowUp | .arrowDown => true
  | _ => false

theorem call_edited {p p' : KWriter × Text} {c : Call} (hedits : c.edits = true)
    (hcall : call font p c = .ok p') : Edited font p c p'.1 := by
  obtain ⟨w, line⟩ := p
  obtain ⟨w', line'⟩ := p'
  cases c with
  | insertChar ch => exact insertChar_edited hcall
  | backspace => exact backspace_edited hcall
  | arrowRight =>
    obtain ⟨w₁, hredraw, hcall⟩ := Attempt.exists_of_bind_eq_ok hcall
    cases hcall
    exact redrawCurrent_edited (t := w.toTranscript) rfl hredraw
  | arrowLeft =>
    obtain ⟨w₁, hredraw, hcall⟩ := Attempt.exists_of_bind_eq_ok hcall
    cases hcall
    exact redrawCurrent_edited (t := w.toTranscript) rfl hredraw
  | arrowUp => exact arrowUp_edited hcall
  | arrowDown => exact arrowDown_edited hcall
  | _ => cases hedits

end Editing

end AgnostOS.Shell
