import AgnostOS.ConsoleText

/-! Tab: the rest of a command name, inserted at the cursor. -/
namespace AgnostOS.Console
open Globals Graphics Commands

def candidates (word : Text) : List Text := COMMAND_NAMES.filter word.isPrefixOf

/-- Nothing to complete: no word, more than one, or not the start of exactly one name. -/
def Incompletable (line : Text) : Prop :=
  line = [] ∨ (∃ c ∈ line, isWhitespace c = true) ∨ (candidates line).length ≠ 1

/-- The line stays as it is where there is nothing to complete, and otherwise becomes the one
name it is the start of, which is a command. -/
def Completes (line line' : Text) : Prop :=
  (Incompletable line ∧ line' = line) ∨
    ∃ name, candidates line = [name] ∧ line' = name ∧
      (parse name).command ≠ .unknown ∧ (parse name).command ≠ .empty

theorem completeCommand_cases (line : Text) :
    (Incompletable line ∧ completeCommand line = none) ∨
    ¬ Incompletable line ∧ ∃ name, candidates line = [name] ∧ completeCommand line = some name := by
  rw [completeCommand]
  by_cases hblank : line.isEmpty ∨ line.any isWhitespace
  · rw [if_pos hblank]
    rw [List.isEmpty_iff, List.any_eq_true] at hblank
    exact .inl ⟨hblank.imp_right .inl, rfl⟩
  · rw [if_neg hblank]
    rw [List.isEmpty_iff, List.any_eq_true, not_or] at hblank
    have hnames : COMMAND_NAMES.filter line.isPrefixOf = candidates line := rfl
    rw [hnames]
    cases hlist : candidates line with
    | nil => exact .inl ⟨.inr (.inr (by simp [hlist])), rfl⟩
    | cons name names =>
      cases names with
      | nil =>
        refine .inr ⟨?_, name, rfl, rfl⟩
        simp [Incompletable, hblank, hlist]
      | cons other names => exact .inl ⟨.inr (.inr (by simp [hlist])), rfl⟩

theorem mem_candidates {word name : Text} (h : candidates word = [name]) :
    name ∈ COMMAND_NAMES ∧ word <+: name := by
  have hmem : name ∈ candidates word := h ▸ List.mem_singleton_self name
  rw [candidates, List.mem_filter] at hmem
  exact ⟨hmem.1, List.isPrefixOf_iff_prefix.mp hmem.2⟩

/-! ### The two tables of names -/

theorem name_is_command : ∀ name ∈ COMMAND_NAMES,
    (parse name).command ≠ .unknown ∧ (parse name).command ≠ .empty := by
  decide +kernel

theorem name_length_lt : ∀ name ∈ COMMAND_NAMES, name.length < MAX_INPUT_CHARS := by
  decide +kernel

theorem name_not_rotated : ∀ name ∈ COMMAND_NAMES, ∀ stop < name.length, ∀ start < stop,
    name.drop stop ++ (name.take stop).drop start ≠ (name.take stop).drop start ++ name.drop stop := by
  decide +kernel

/-! ### Inserting the rest -/

namespace Transcript

/-- The characters go in at the cursor, one behind the other. -/
theorem insertChars_at {t : Transcript} {front back text : Text}
    (hcursor : min t.inputCursor (front ++ back).length = front.length)
    (hroom : front.length + back.length + text.length ≤ MAX_INPUT_CHARS) :
    (t.insertChars (front ++ back) text).2 = front ++ text ++ back := by
  induction text generalizing t front with
  | nil => simp [insertChars]
  | cons ch text ih =>
    rw [List.length_cons] at hroom
    have hinsert : t.insertChar (front ++ back) ch =
        (t.redrawn (front ++ [ch] ++ back) (front.length + 1), front ++ [ch] ++ back) := by
      rw [insertChar, if_neg (by rw [List.length_append]; omega)]
      simp only [hcursor, List.take_left', List.drop_left', List.append_assoc,
        List.singleton_append]
    have hstep : t.insertChars (front ++ back) (ch :: text) =
        (t.insertChar (front ++ back) ch).1.insertChars (t.insertChar (front ++ back) ch).2 text :=
      rfl
    have hnext : min (front.length + 1) (front ++ [ch] ++ back).length = (front ++ [ch]).length := by
      simp only [List.length_append, List.length_singleton]
      omega
    rw [hstep, hinsert, ih hnext, List.append_assoc, List.append_assoc, List.append_assoc]
    · rfl
    · rw [List.length_append, List.length_singleton]
      omega

theorem insertChars_line {t : Transcript} {line text : Text}
    (hroom : line.length + text.length ≤ MAX_INPUT_CHARS) :
    (t.insertChars line text).2 = line.take t.inputCursor ++ text ++ line.drop t.inputCursor := by
  have hsplit := List.take_append_drop t.inputCursor line
  have hlength := congrArg List.length hsplit
  rw [List.length_append] at hlength
  have hcursor : min t.inputCursor (line.take t.inputCursor ++ line.drop t.inputCursor).length =
      (line.take t.inputCursor).length := by rw [hsplit, List.length_take]
  have hinsert := insertChars_at hcursor (by omega : _ + text.length ≤ MAX_INPUT_CHARS)
  rwa [hsplit] at hinsert

/-- The name comes out exactly if nothing stands behind the cursor, or nothing is missing. -/
theorem insertChars_name_iff {t : Transcript} {line name : Text} (hname : candidates line = [name]) :
    (t.insertChars line (name.drop line.length)).2 = name ↔
      line.length ≤ t.inputCursor ∨ line ∈ COMMAND_NAMES := by
  obtain ⟨hmem, suffix, rfl⟩ := mem_candidates hname
  have hlength := name_length_lt _ hmem
  rw [List.length_append] at hlength
  rw [List.drop_left, insertChars_line hlength.le]
  constructor
  · intro hsame
    by_contra hneither
    rw [not_or, Nat.not_le] at hneither
    obtain ⟨hinside, hpart⟩ := hneither
    have hsuffix : suffix ≠ [] := by
      rintro rfl
      rw [List.append_nil] at hmem
      exact hpart hmem
    have hlonger : line.length < (line ++ suffix).length := by
      rw [List.length_append]
      exact Nat.lt_add_of_pos_right (List.length_pos_iff.mpr hsuffix)
    have hrotated := name_not_rotated _ hmem line.length hlonger t.inputCursor hinside
    rw [List.drop_left, List.take_left] at hrotated
    apply hrotated
    have hjoined : line.take t.inputCursor ++ (suffix ++ line.drop t.inputCursor) =
        line.take t.inputCursor ++ (line.drop t.inputCursor ++ suffix) := by
      rw [← List.append_assoc, hsame, ← List.append_assoc, List.take_append_drop]
    exact List.append_cancel_left hjoined
  · intro hcase
    cases hcase with
    | inl hend => rw [List.take_of_length_le hend, List.drop_of_length_le hend, List.append_nil]
    | inr hwhole =>
      have hself : line ∈ candidates line := by
        rw [candidates, List.mem_filter]
        exact ⟨hwhole, List.isPrefixOf_iff_prefix.mpr (List.prefix_refl line)⟩
      rw [hname] at hself
      have hnone : suffix = [] := by
        have hline := List.mem_singleton.mp hself
        exact List.append_right_eq_self.mp hline.symm
      rw [hnone, List.append_nil, List.append_nil, List.take_append_drop]

end Transcript

namespace KWriter

/-- Tab completes the command, without a panic, exactly if there is nothing to complete, the
cursor stands at the end of the line, or the line is a whole name. -/
theorem autoComplete_completes_iff (font : Font) (w : KWriter) (line : Text) :
    ∃ w' line', w.autoComplete font line = .ok (w', line') ∧
      (Completes line line' ↔
        Incompletable line ∨ line.length ≤ w.inputCursor ∨ line ∈ COMMAND_NAMES) := by
  have htext : (w.autoComplete font line).map text = _ := autoComplete_text
  cases hcall : w.autoComplete font line with
  | error stop =>
    rw [hcall] at htext
    cases htext
  | ok p =>
    rw [hcall] at htext
    refine ⟨p.1, p.2, rfl, ?_⟩
    have hline : p.2 = (w.toTranscript.autoComplete line).2 := congrArg Prod.snd (Except.ok.inj htext)
    rw [hline, Transcript.autoComplete]
    cases completeCommand_cases line with
    | inl hnone =>
      rw [hnone.2]
      exact iff_of_true (.inl ⟨hnone.1, rfl⟩) (.inl hnone.1)
    | inr hsome =>
      obtain ⟨hsome, name, hcandidates, hcommand⟩ := hsome
      obtain ⟨hname, -⟩ := mem_candidates hcandidates
      rw [hcommand, or_iff_right hsome, ← Transcript.insertChars_name_iff hcandidates]
      constructor
      · intro h
        cases h with
        | inl h => exact absurd h.1 hsome
        | inr h =>
          obtain ⟨name', hlist, hline', -⟩ := h
          rw [hcandidates] at hlist
          exact hline'.trans (List.singleton_inj.mp hlist).symm
      · intro h
        exact .inr ⟨name, hcandidates, h, name_is_command name hname⟩

/-- With the cursor behind its first letter, "ta" becomes "tskinfoa". -/
theorem completed_inside_the_word :
    let w := { init smallDisplay with inputCursor := 1 }
    ∃ w' line', w.autoComplete blankFont "ta".toList = .ok (w', line') ∧
      line' = "tskinfoa".toList ∧ ¬ Completes "ta".toList line' := by
  refine ⟨_, _, rfl, by decide +kernel, fun h => ?_⟩
  have hone : candidates "ta".toList = ["taskinfo".toList] := by decide +kernel
  cases h with
  | inl h =>
    obtain ⟨hempty | hblank | hmany, -⟩ := h
    · exact absurd hempty (by decide)
    · rw [← List.any_eq_true] at hblank
      exact absurd hblank (by decide)
    · apply hmany
      rw [hone, List.length_singleton]
  | inr h =>
    obtain ⟨name, hname, hline, -⟩ := h
    rw [hone] at hname
    rw [← List.singleton_inj.mp hname] at hline
    exact absurd hline (by decide +kernel)

end KWriter

end AgnostOS.Console
