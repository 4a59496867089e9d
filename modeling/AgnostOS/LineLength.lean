import AgnostOS.CommandHistory

/-! The limit of the input line, through typing, printing and recall. -/
namespace AgnostOS.Shell
open Globals Graphics Commands Console Keyboard

namespace Dialogue
variable {info : SystemInfo} {d d' : Dialogue} {line text : Text}

def Short (line : Text) : Prop := (trimPrompts line).length ≤ MAX_INPUT_CHARS

instance (line : Text) : Decidable (Short line) := inferInstanceAs (Decidable (_ ≤ _))

theorem short_of_length (h : line.length ≤ MAX_INPUT_CHARS) : Short line :=
  (trimPrompts_length_le line).trans h

structure Bounded (d : Dialogue) : Prop where
  line : d.line.length ≤ MAX_INPUT_CHARS
  shown : Short d.currentLine
  recalled : ∀ command ∈ commandHistory d.history, Short command

/-- No line that the text completes is a command longer than the limit. -/
def PrintsShort (d : Dialogue) (text : Text) : Prop :=
  ∀ line ∈ d.completes text, PROMPT <+: line → Short line

instance (d : Dialogue) (text : Text) : Decidable (d.PrintsShort text) :=
  inferInstanceAs (Decidable (∀ line ∈ d.completes text, PROMPT <+: line → Short line))

/-- Only Ctrl+C and the output of the tasks and the loop end a line that is not the shell's. -/
def EndsShort (d : Dialogue) : ShellEvent → Prop
  | .key .ctrlC _ => d.PrintsShort "^C".toList
  | .key _ _ => True
  | .output text => d.PrintsShort text

/-! ### Editing -/

theorem Bounded.redrawn (h : d.Bounded) {shown : Text} (hline : line.length ≤ MAX_INPUT_CHARS)
    (hshown : Short shown) (cursor : Nat) :
    (d.withText (d.toTranscript.redrawn shown cursor, line)).Bounded :=
  ⟨hline, hshown, h.recalled⟩

theorem Bounded.recall (h : d.Bounded) (index : Option Nat)
    (htext : text.length ≤ MAX_INPUT_CHARS) : (d.withText (d.retrieve index text)).Bounded :=
  ⟨htext, (short_of_length htext : Short text), h.recalled⟩

theorem insertChar_bounded (h : d.Bounded) (ch : Char) :
    (d.withText (d.insertChar d.line ch)).Bounded := by
  simp only [Transcript.insertChar]
  by_cases hfull : d.line.length ≥ MAX_INPUT_CHARS
  · rw [if_pos hfull]
    exact h
  · have hlength : (d.line.take (min d.inputCursor d.line.length) ++
        ch :: d.line.drop (min d.inputCursor d.line.length)).length ≤ MAX_INPUT_CHARS := by
      simp only [List.length_append, List.length_take, List.length_cons, List.length_drop]
      omega
    rw [if_neg hfull]
    exact h.redrawn hlength (short_of_length hlength) _

theorem insertChars_bounded (h : d.Bounded) (text : Text) :
    (d.withText (d.insertChars d.line text)).Bounded := by
  induction text generalizing d with
  | nil => exact h
  | cons ch text ih => exact ih (insertChar_bounded h ch)

theorem backspace_bounded (h : d.Bounded) : (d.withText (d.backspace d.line)).Bounded := by
  simp only [Transcript.backspace]
  split
  · exact ⟨h.line, h.shown, h.recalled⟩
  · have hlength : (d.line.take (min d.inputCursor d.line.length - 1) ++
        d.line.drop (min d.inputCursor d.line.length)).length ≤ MAX_INPUT_CHARS := by
      have hline := h.line
      simp only [List.length_append, List.length_take, List.length_drop]
      omega
    exact h.redrawn hlength (short_of_length hlength) _

theorem shown_short (h : d.Bounded) : Short d.toTranscript.shown := by
  rw [Transcript.shown]
  split
  · next hprompt =>
    obtain ⟨rest, hrest⟩ := List.isPrefixOf_iff_prefix.mp hprompt
    have hshown := h.shown
    rw [← hrest] at hshown ⊢
    exact hshown
  · exact Nat.zero_le _

theorem autoComplete_bounded (h : d.Bounded) : (d.withText (d.autoComplete d.line)).Bounded := by
  rw [Transcript.autoComplete]
  split
  · exact h
  · exact insertChars_bounded h _

/-! ### Printing -/

theorem trimPrompts_append_le (line more : Text) :
    (trimPrompts (line ++ more)).length ≤ (trimPrompts line).length + more.length := by
  fun_induction trimPrompts line with
  | case1 rest ih => exact ih
  | case2 line =>
    rw [← List.length_append]
    exact trimPrompts_length_le _

/-- Printing a text completes no line that is longer than the text and what it follows. -/
theorem print_short {t : Transcript} (hcommands : ∀ command ∈ commandHistory t.history, Short command)
    (hlength : (trimPrompts t.currentLine).length + text.length ≤ MAX_INPUT_CHARS) :
    Short (t.print text).currentLine ∧
      ∀ command ∈ commandHistory (t.print text).history, Short command := by
  induction text generalizing t with
  | nil => exact ⟨hlength, hcommands⟩
  | cons ch text ih =>
    rw [List.length_cons] at hlength
    have hprint : t.print (ch :: text) = (t.put ch).print text := rfl
    rw [hprint, Transcript.put]
    split
    · apply ih
      · intro command hmem
        rw [Transcript.newline, Transcript.commandHistory_append] at hmem
        cases List.mem_append.mp hmem with
        | inl hold => exact hcommands command hold
        | inr hnew =>
          rw [List.mem_singleton.mp (mem_commandHistory.mp hnew).1, Short]
          omega
      · have hempty : (trimPrompts t.newline.currentLine).length = 0 := rfl
        omega
    · apply ih (t := { t with currentLine := t.currentLine ++ [ch] }) hcommands
      have hle := trimPrompts_append_le t.currentLine [ch]
      rw [List.length_singleton] at hle
      change (trimPrompts (t.currentLine ++ [ch])).length + _ ≤ _
      omega

theorem zoom_bounded (h : d.Bounded) : (d.withText (d.zoom d.line, d.line)).Bounded := by
  let blank : Transcript := { d.toTranscript with currentLine := PROMPT }
  have hzoom : d.zoom d.line = blank.print d.line := rfl
  have hlength : (trimPrompts blank.currentLine).length + d.line.length ≤ MAX_INPUT_CHARS :=
    (Nat.zero_add _).trans_le h.line
  have hprint := print_short (t := blank) h.recalled hlength
  rw [hzoom]
  exact ⟨h.line, hprint.1, hprint.2⟩

theorem println_recalled (h : d.Bounded) (hshort : d.PrintsShort text) :
    ∀ command ∈ commandHistory (d.println text).history, Short command := by
  intro command hmem
  rw [Transcript.println_history, Transcript.commandHistory_append] at hmem
  cases List.mem_append.mp hmem with
  | inl hold => exact h.recalled command hold
  | inr hnew =>
    have hcompleted := mem_commandHistory.mp hnew
    exact hshort command hcompleted.1 hcompleted.2

theorem prompted_eq {t : Transcript} (h : t.currentLine = []) (submitted : List Text) :
    prompted t submitted = ⟨{ t with currentLine := PROMPT, inputCursor := 0 }, [], submitted⟩ := by
  rw [prompted, Transcript.print_of_flat t (by decide), h, List.nil_append]

theorem prompted_bounded {t : Transcript} (h : t.currentLine = [])
    (hcommands : ∀ command ∈ commandHistory t.history, Short command) (submitted : List Text) :
    (prompted t submitted).Bounded := by
  rw [prompted_eq h]
  exact ⟨Nat.zero_le _, Nat.zero_le _, hcommands⟩

theorem println_currentLine (t : Transcript) (text : Text) : (t.println text).currentLine = [] := rfl

theorem enter_bounded (h : d.Bounded) : Safe Bounded (d.enter info) := by
  apply (Transcript.runCommand_safe info d.line rfl).bind
  intro t ht
  apply prompted_bounded ht.1
  intro command hmem
  rw [ht.2.1, Transcript.newline, Transcript.commandHistory_append,
    Transcript.commandHistory_append, commandHistory_screenLines, List.append_assoc] at hmem
  cases List.mem_append.mp hmem with
  | inl hold => exact h.recalled command hold
  | inr hnew =>
    cases List.mem_append.mp hnew with
    | inl hline =>
      rw [List.mem_singleton.mp (mem_commandHistory.mp hline).1]
      exact h.shown
    | inr hecho =>
      split at hecho
      · rw [List.mem_singleton.mp hecho]
        exact short_of_length ((echoed_length_le d.line).trans h.line)
      · cases hecho

/-! ### Events -/

theorem handleKey_bounded (h : d.Bounded) {key : KeyboardEvent}
    (hends : d.EndsShort (.key key info)) (hstep : d.handleKey info key = .ok d') :
    d'.Bounded := by
  cases key with
  | char c =>
    rw [handleKey] at hstep
    split at hstep
    · exact (enter_bounded h).of_ok hstep
    · split at hstep
      · cases hstep
        exact backspace_bounded h
      · cases hstep
        exact insertChar_bounded h c
  | ctrlC =>
    cases hstep
    exact prompted_bounded (println_currentLine ..) (println_recalled h hends) _
  | zoomIn =>
    cases hstep
    exact zoom_bounded h
  | zoomOut =>
    cases hstep
    exact zoom_bounded h
  | arrowLeft =>
    cases hstep
    exact h.redrawn h.line (shown_short h) _
  | arrowRight =>
    cases hstep
    exact h.redrawn h.line (shown_short h) _
  | arrowUp =>
    rw [handleKey] at hstep
    cases hup : d.arrowUp d.line with
    | error stop =>
      rw [hup] at hstep
      cases hstep
    | ok p =>
      rw [hup] at hstep
      cases hstep
      cases arrowUp_cases hup with
      | inl hsame =>
        rw [hsame]
        exact h
      | inr hrecall =>
        obtain ⟨index, command, hcommand, rfl⟩ := hrecall
        exact h.recall _ (h.recalled command hcommand)
  | arrowDown =>
    cases hstep
    obtain hsame | ⟨index, command, hcommand, hrecall⟩ | hempty :=
      arrowDown_cases d.toTranscript d.line
    · rw [hsame]
      exact h
    · rw [hrecall]
      exact h.recall _ (h.recalled command hcommand)
    · rw [hempty]
      exact h.recall none (Nat.zero_le _)
  | ctrlL =>
    cases hstep
    exact prompted_bounded (t := d.cleared) rfl h.recalled d.submitted
  | tab =>
    cases hstep
    exact autoComplete_bounded h

theorem step_bounded (h : d.Bounded) {event : ShellEvent} (hends : d.EndsShort event)
    (hstep : d.step event = .ok d') : d'.Bounded := by
  cases event with
  | key key info => exact handleKey_bounded h hends hstep
  | output text =>
    cases hstep
    exact ⟨h.line, Nat.zero_le _, println_recalled h hends⟩

/-- Any other event records a command that the arrows recall beyond the limit. -/
theorem recorded_beyond {event : ShellEvent} (hends : ¬ d.EndsShort event)
    (hstep : d.step event = .ok d') : ∃ command ∈ commandHistory d'.history, ¬ Short command := by
  have hprinted {text : Text} (hlong : ¬ d.PrintsShort text) :
      ∃ command ∈ commandHistory (d.println text).history, ¬ Short command := by
    rw [PrintsShort] at hlong
    push Not at hlong
    obtain ⟨line, hline, hprompt, hshort⟩ := hlong
    refine ⟨line, ?_, hshort⟩
    rw [Transcript.println_history, Transcript.commandHistory_append]
    exact List.mem_append_right _ (mem_commandHistory.mpr ⟨hline, hprompt⟩)
  cases event with
  | key key info =>
    cases key with
    | ctrlC =>
      cases hstep
      rw [prompted_eq (println_currentLine ..)]
      exact hprinted hends
    | _ => exact absurd trivial hends
  | output text =>
    cases hstep
    exact hprinted hends

theorem init_bounded (greetings : List Notice) : (Dialogue.init greetings).Bounded := by
  have hfaithful := Dialogue.init_faithful greetings
  rw [Dialogue.init_eq] at hfaithful ⊢
  refine ⟨Nat.zero_le _, Nat.zero_le _, fun command hmem => ?_⟩
  rw [hfaithful.1] at hmem
  cases hmem

end Dialogue

/-- The line stays within the limit as long as nothing printed behind it, the mark of Ctrl+C
included, makes it a longer command. -/
theorem line_bounded {font : Font} {fb : Framebuffer} {greetings : List Notice} {s s' : Session}
    {events : List ShellEvent} (hinit : Session.init font fb greetings = .ok s)
    (h : Trace (fun event s s' => ShellMove font event s s' ∧ s.dialogue.EndsShort event)
      events s s') : s'.line.length ≤ MAX_INPUT_CHARS := by
  have hstart : s.dialogue.Bounded :=
    Session.dialogue_of_init hinit ▸ Dialogue.init_bounded greetings
  have hbounded := h.invariant (I := fun s => s.dialogue.Bounded)
    (fun event s s' hs hmove => Dialogue.step_bounded hs hmove.2 hmove.1.dialogue) hstart
  exact hbounded.line

/-- A line is printed behind the input, which goes on, is cancelled and recalled. -/
theorem line_bounded_cancel : ∃ s s', Session.init blankFont smallDisplay [] = .ok s ∧
    Trace (fun event s s' => ShellMove blankFont event s s' ∧ s.dialogue.EndsShort event)
      [.key (.char 'a') idleSystem, .output (Notice.keyboardDropped 3).text,
        .key (.char 'b') idleSystem, .key .ctrlC idleSystem, .key .arrowUp idleSystem] s s' ∧
    s'.line.length ≤ MAX_INPUT_CHARS := by
  obtain ⟨s, hinit, hdialogue⟩ := Session.init_ok blankFont smallDisplay []
  have htexts : ∃ d', Trace (fun event d d' => d.step event = .ok d' ∧ d.EndsShort event)
      [.key (.char 'a') idleSystem, .output (Notice.keyboardDropped 3).text,
        .key (.char 'b') idleSystem, .key .ctrlC idleSystem, .key .arrowUp idleSystem]
      (Dialogue.init []) d' := by
    refine ⟨_, .cons ⟨rfl, trivial⟩ (.cons ⟨rfl, ?_⟩ (.cons ⟨rfl, trivial⟩ (.cons ⟨rfl, ?_⟩
      (.cons ⟨rfl, trivial⟩ .nil))))⟩
    · change Dialogue.PrintsShort _ _
      decide
    · change Dialogue.PrintsShort _ _
      decide
  obtain ⟨d', htexts⟩ := htexts
  rw [← hdialogue] at htexts
  obtain ⟨s', htrace, _⟩ := ShellMove.exists_trace blankFont htexts
  exact ⟨s, s', hinit, htrace, line_bounded hinit htrace⟩

/-! ### Typing at the end of the line -/

def typing (text : Text) : List ShellEvent := text.map fun c => .key (.char c) idleSystem

theorem type_trace {d : Dialogue} {text : Text} (htext : ∀ c ∈ text, c ≠ '\n' ∧ c ≠ '\x08') :
    Trace (fun event d d' => d.step event = .ok d') (typing text) d
      (d.withText (d.insertChars d.line text)) := by
  induction text generalizing d with
  | nil => exact .nil
  | cons c text ih =>
    have hc := htext c List.mem_cons_self
    have hstep : d.step (.key (.char c) idleSystem) =
        .ok (d.withText (d.insertChar d.line c)) := by
      rw [Dialogue.step, Dialogue.handleKey, if_neg hc.1, if_neg hc.2]
      rfl
    exact .cons hstep (ih fun c' hmem => htext c' (List.mem_cons_of_mem c hmem))

theorem type_at_end {line text : Text} (h : line.length + text.length ≤ MAX_INPUT_CHARS) :
    (text.map Edit.insert).foldl Editor.apply ⟨line, line.length⟩ =
      ⟨line ++ text, (line ++ text).length⟩ := by
  induction text generalizing line with
  | nil => simp
  | cons c text ih =>
    have hroom : line.length < MAX_INPUT_CHARS := by
      rw [List.length_cons] at h
      omega
    have hfirst : (⟨line, line.length⟩ : Editor).apply (.insert c) =
        ⟨line ++ [c], (line ++ [c]).length⟩ := by
      rw [Editor.apply, if_pos hroom]
      simp
    have hlength : (line ++ [c]).length + text.length ≤ MAX_INPUT_CHARS := by
      simp only [List.length_append, List.length_cons, List.length_nil] at h ⊢
      omega
    have hrest := ih hlength
    rw [List.map_cons, List.foldl_cons, hfirst, hrest, List.append_assoc, List.singleton_append]

theorem insertChars_historyIndex (t : Transcript) (line text : Text) :
    (t.insertChars line text).1.historyIndex = t.historyIndex := by
  have hchar (t : Transcript) (line : Text) (ch : Char) :
      (t.insertChar line ch).1.historyIndex = t.historyIndex := by
    simp only [Transcript.insertChar]
    split <;> rfl
  induction text generalizing t line with
  | nil => rfl
  | cons ch text ih => exact (ih _ _).trans (hchar t line ch)

theorem type_first {text : Text} (hplain : ∀ c ∈ text, c ≠ '\n' ∧ c ≠ '\x08')
    (hle : text.length ≤ MAX_INPUT_CHARS) :
    ∃ cursor, Trace (fun event d d' => d.step event = .ok d') (typing text) (Dialogue.init [])
      ⟨⟨[], PROMPT ++ text, cursor, none⟩, text, []⟩ := by
  have hstart : Dialogue.init [] = ⟨⟨[], PROMPT, 0, none⟩, [], []⟩ := Dialogue.init_eq []
  have htyped := Dialogue.insertChars_prompted (Dialogue.init_fresh []).prompted
    fun hmem => (hplain '\n' hmem).1 rfl
  have hend : (text.map Edit.insert).foldl Editor.apply ⟨[], 0⟩ = ⟨text, text.length⟩ :=
    type_at_end ((Nat.zero_add _).trans_le hle)
  have htrace := type_trace (d := Dialogue.init []) hplain
  let typed := (Dialogue.init []).withText ((Dialogue.init []).insertChars [] text)
  have hline : typed.line = text := congrArg Editor.line (htyped.2.trans hend)
  have hshown : typed.currentLine = PROMPT ++ typed.line := htyped.1.shown
  have hhistory : typed.history = [] :=
    (Dialogue.insertChars_history (Dialogue.init []).toTranscript [] text).trans (by rw [hstart])
  have hindex : typed.historyIndex = none :=
    (insertChars_historyIndex (Dialogue.init []).toTranscript [] text).trans (by rw [hstart])
  have htext : typed = ⟨⟨[], PROMPT ++ text, typed.inputCursor, none⟩, text, []⟩ := by
    calc typed = ⟨⟨typed.history, typed.currentLine, typed.inputCursor, typed.historyIndex⟩,
          typed.line, []⟩ := rfl
      _ = _ := by rw [hhistory, hshown, hline, hindex]
  exact ⟨typed.inputCursor, htext ▸ htrace⟩

theorem recall_only {d : Dialogue} {text : Text} (hhistory : d.history = [PROMPT ++ text])
    (hindex : d.historyIndex = none) (hprompt : ¬ PROMPT <+: text) :
    ∃ d', d.step (.key .arrowUp idleSystem) = .ok d' ∧ d'.line = text := by
  have hcommands : commandHistory d.history = [PROMPT ++ text] := by
    rw [hhistory, Dialogue.commandHistory_prompted]
    rfl
  have hup : d.step (.key .arrowUp idleSystem) =
      .ok (d.withText (d.retrieve (some 0) (trimPrompts (PROMPT ++ text)))) := by
    rw [Dialogue.step, Dialogue.handleKey, Transcript.arrowUp]
    simp only [hcommands, hindex]
    rfl
  refine ⟨_, hup, ?_⟩
  rw [Dialogue.trimPrompts_prompt, Dialogue.trimPrompts_of_not_prefix hprompt]
  rfl

/-- What ends a typed line and leaves the browsing alone comes back with it. -/
theorem recalled_with_mark {s : Session} (hs : s.dialogue = Dialogue.init []) {text mark : Text}
    {event : ShellEvent} (hplain : ∀ c ∈ text, c ≠ '\n' ∧ c ≠ '\x08')
    (hle : text.length ≤ MAX_INPUT_CHARS) (hprompt : ¬ PROMPT <+: text ++ mark)
    (hends : ∀ cursor, ∃ d,
      Dialogue.step ⟨⟨[], PROMPT ++ text, cursor, none⟩, text, []⟩ event = .ok d ∧
        d.history = [PROMPT ++ (text ++ mark)] ∧ d.historyIndex = none) :
    ∃ s', Trace (ShellMove blankFont) (typing text ++ [event, .key .arrowUp idleSystem]) s s' ∧
      s'.line = text ++ mark := by
  obtain ⟨cursor, htyped⟩ := type_first hplain hle
  obtain ⟨d, hstep, hhistory, hindex⟩ := hends cursor
  obtain ⟨d', hup, hline⟩ := recall_only hhistory hindex hprompt
  have htrace := htyped.append (.cons hstep (.single hup))
  rw [← hs] at htrace
  obtain ⟨s', htrace, hs'⟩ := ShellMove.exists_trace blankFont (G := fun _ _ => True)
    (htrace.mono fun _ _ _ h => ⟨h, trivial⟩)
  exact ⟨s', htrace.mono fun _ _ _ h => h.1, (congrArg Dialogue.line hs').trans hline⟩

theorem recalled_with_output {s : Session} (hs : s.dialogue = Dialogue.init []) {text mark : Text}
    (hplain : ∀ c ∈ text, c ≠ '\n' ∧ c ≠ '\x08') (hle : text.length ≤ MAX_INPUT_CHARS)
    (hprompt : ¬ PROMPT <+: text ++ mark) (hmark : '\n' ∉ mark) :
    ∃ s', Trace (ShellMove blankFont)
      (typing text ++ [.output mark, .key .arrowUp idleSystem]) s s' ∧ s'.line = text ++ mark := by
  refine recalled_with_mark hs hplain hle hprompt fun cursor => ⟨_, rfl, ?_, ?_⟩
  · rw [Dialogue.output, Transcript.println_of_flat _ hmark, ← List.append_assoc]
    rfl
  · rw [Dialogue.output, Transcript.println_of_flat _ hmark]
    rfl

theorem recalled_with_cancel {s : Session} (hs : s.dialogue = Dialogue.init []) {text : Text}
    (hplain : ∀ c ∈ text, c ≠ '\n' ∧ c ≠ '\x08') (hle : text.length ≤ MAX_INPUT_CHARS)
    (hprompt : ¬ PROMPT <+: text ++ "^C".toList) :
    ∃ s', Trace (ShellMove blankFont)
      (typing text ++ [.key .ctrlC idleSystem, .key .arrowUp idleSystem]) s s' ∧
      s'.line = text ++ "^C".toList := by
  refine recalled_with_mark hs hplain hle hprompt fun cursor => ⟨_, rfl, ?_, ?_⟩
  · rw [Dialogue.cancel_eq, Dialogue.prompted_eq rfl, ← List.append_assoc]
    rfl
  · rw [Dialogue.cancel_eq, Dialogue.prompted_eq rfl]

/-- A line of full length comes back longer by what was printed behind it: the mark of Ctrl+C,
or a line of the loop. -/
theorem cancelled_line_exceeds : ∃ s s' t, Session.init blankFont smallDisplay [] = .ok s ∧
    Trace (ShellMove blankFont) (typing (List.replicate 512 'a') ++
      [.key .ctrlC idleSystem, .key .arrowUp idleSystem]) s s' ∧
    s'.line.length = MAX_INPUT_CHARS + 2 ∧
    Trace (ShellMove blankFont) (typing (List.replicate 512 'a') ++
      [.output (Notice.keyboardDropped 5).text, .key .arrowUp idleSystem]) s t ∧
    t.line.length = MAX_INPUT_CHARS + 25 := by
  obtain ⟨s, hinit, hdialogue⟩ := Session.init_ok blankFont smallDisplay []
  have hplain : ∀ c ∈ List.replicate 512 'a', c ≠ '\n' ∧ c ≠ '\x08' := fun c hmem =>
    (List.eq_of_mem_replicate hmem) ▸ (by decide)
  have hle : (List.replicate 512 'a').length ≤ MAX_INPUT_CHARS := List.length_replicate.le
  have hprompt (mark : Text) : ¬ PROMPT <+: List.replicate 512 'a' ++ mark := by
    rw [List.replicate_succ]
    intro h
    exact absurd (List.cons_prefix_cons.mp h).1 (by decide)
  obtain ⟨s', hcancelled, hmarked⟩ := recalled_with_cancel hdialogue hplain hle (hprompt _)
  obtain ⟨t, hprinted, hnotice⟩ := recalled_with_output hdialogue hplain hle
    (hprompt (Notice.keyboardDropped 5).text) (by decide)
  refine ⟨s, s', t, hinit, hcancelled, ?_, hprinted, ?_⟩
  · rw [hmarked, List.length_append, List.length_replicate]
    rfl
  · rw [hnotice, List.length_append, List.length_replicate]
    rfl

end AgnostOS.Shell
