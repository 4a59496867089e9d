import AgnostOS.CommandHistory

/-! A session with lines printed between the keys, beside the same keys without them. -/
namespace AgnostOS.Console

def Both {α β : Type} (R : α → β → Prop) : Kernel α → Kernel β → Prop
  | .ok a, .ok b => R a b
  | .error stop, .error stop' => stop = stop'
  | _, _ => False

namespace Both
variable {α β γ δ : Type} {R : α → β → Prop} {S : γ → δ → Prop} {x : Kernel α} {y : Kernel β}

theorem bind {f : α → Kernel γ} {g : β → Kernel δ} (h : Both R x y)
    (hfg : ∀ a b, R a b → Both S (f a) (g b)) : Both S (x >>= f) (y >>= g) := by
  cases x with
  | error stop =>
    cases y with
    | error stop' => exact h
    | ok b => exact h.elim
  | ok a =>
    cases y with
    | error stop' => exact h.elim
    | ok b => exact hfg a b h

theorem of_map {f : α → γ} {g : β → δ} (h : Both S (x.map f) (y.map g)) :
    Both (fun a b => S (f a) (g b)) x y := by
  cases x <;> cases y <;> exact h

theorem mono {R' : α → β → Prop} (h : Both R x y) (hR : ∀ a b, R a b → R' a b) :
    Both R' x y := by
  cases x with
  | error stop =>
    cases y with
    | error stop' => exact h
    | ok b => exact h
  | ok a =>
    cases y with
    | error stop' => exact h
    | ok b => exact hR a b h

theorem with_eq (h : Both R x y) : Both (fun a b => R a b ∧ x = .ok a ∧ y = .ok b) x y := by
  cases x with
  | error stop =>
    cases y with
    | error stop' => exact h
    | ok b => exact h
  | ok a =>
    cases y with
    | error stop' => exact h
    | ok b => exact ⟨h, rfl, rfl⟩

end Both

end AgnostOS.Console

namespace AgnostOS.Console.Transcript
open Commands

theorem runCommand_both (t t' : Transcript) (info : SystemInfo) (command : Text)
    (ht : t.currentLine = []) (ht' : t'.currentLine = [])
    (hindex : t'.historyIndex = t.historyIndex) :
    Both (fun a b => b.currentLine = [] ∧ b.historyIndex = a.historyIndex ∧
      t.history <+: a.history ∧ t'.history <+: b.history)
      (t.runCommand info command) (t'.runCommand info command) := by
  have hprint : Both (fun a b => b.currentLine = [] ∧ b.historyIndex = a.historyIndex ∧
      t.history <+: a.history ∧ t'.history <+: b.history)
      (pure (t.printLines (responses info (parse command))))
      (pure (t'.printLines (responses info (parse command)))) := by
    rw [printLines_of_empty _ ht, printLines_of_empty _ ht']
    exact ⟨ht', hindex, List.prefix_append .., List.prefix_append ..⟩
  rw [runCommand, runCommand]
  cases (parse command).command with
  | clear => exact ⟨rfl, rfl, List.prefix_rfl, List.prefix_rfl⟩
  | shutdown => rfl
  | _ => exact hprint

end AgnostOS.Console.Transcript

namespace AgnostOS.Shell
open Globals Graphics Commands Console Keyboard

def ShellEvent.isKey : ShellEvent → Bool
  | .key .. => true
  | .output _ => false

namespace Dialogue
variable {info : SystemInfo} {u v u' v' : Dialogue} {n : Nat}

/-- `v` is `u` with lines printed in between, the first of them when there were `n` commands. -/
structure Disturbed (n : Nat) (u v : Dialogue) : Prop where
  prompted : u.Prompted
  line : v.line = u.line
  inputCursor : v.inputCursor = u.inputCursor
  historyIndex : v.historyIndex = u.historyIndex
  submitted : v.submitted = u.submitted
  shown : v.currentLine = PROMPT ++ v.line ∨ v.currentLine = [] ∨ v.currentLine = PROMPT
  older : ∃ commands : List Text, commands.length = n ∧
    commands <+: commandHistory u.history ∧ commands <+: commandHistory v.history
  recorded : commandHistory v.history ≠ []

theorem Disturbed.step (h : Disturbed n u v) (hprompted : u'.Prompted)
    (hline : v'.line = u'.line) (hcursor : v'.inputCursor = u'.inputCursor)
    (hindex : v'.historyIndex = u'.historyIndex) (hsubmitted : v'.submitted = u'.submitted)
    (hshown : v'.currentLine = PROMPT ++ v'.line ∨ v'.currentLine = [] ∨ v'.currentLine = PROMPT)
    (hu : u.history <+: u'.history) (hv : v.history <+: v'.history) : Disturbed n u' v' := by
  obtain ⟨commands, hlength, hcommands, hcommands'⟩ := h.older
  have hnew := Transcript.commandHistory_mono hv
  refine ⟨hprompted, hline, hcursor, hindex, hsubmitted, hshown, ⟨commands, hlength,
    hcommands.trans (Transcript.commandHistory_mono hu), hcommands'.trans hnew⟩, ?_⟩
  exact fun hnil => h.recorded (List.prefix_nil.mp (hnil ▸ hnew))

theorem Disturbed.output (h : Disturbed n u v) (text : Text) : Disturbed n u (v.output text) := by
  rw [Dialogue.output, Transcript.println_eq]
  exact h.step h.prompted h.line h.inputCursor h.historyIndex h.submitted (.inr (.inl rfl))
    List.prefix_rfl (List.prefix_append ..)

/-- The first line is printed: it ends what the screen shows of the input. -/
theorem disturbed_output (h : u.Prompted) (text : Text) :
    Disturbed (commandHistory u.history).length u (u.output text) := by
  have hgrown : commandHistory u.history <+: commandHistory (u.output text).history := by
    rw [Dialogue.output, Transcript.println_eq]
    exact Transcript.commandHistory_mono (List.prefix_append ..)
  refine ⟨h, rfl, ?_, ?_, rfl, ?_, ⟨_, rfl, List.prefix_rfl, hgrown⟩, ?_⟩
  · rw [Dialogue.output, Transcript.println_eq]
    rfl
  · rw [Dialogue.output, Transcript.println_eq]
    rfl
  · rw [Dialogue.output, Transcript.println_eq]
    exact .inr (.inl rfl)
  · have hshown : PROMPT <+: u.currentLine := h.shown ▸ starts_with_prompt u.line
    exact List.length_pos_iff.mp (Nat.zero_lt_of_lt (output_commands hshown text))

/-! ### Keys after the first line -/

theorem insertChar_disturbed (h : Disturbed n u v) {ch : Char} (hch : ch ≠ '\n') :
    Disturbed n (u.withText (u.insertChar u.line ch)) (v.withText (v.insertChar v.line ch)) := by
  have hprompted := (insertChar_prompted h.prompted hch).1
  simp only [Transcript.insertChar, h.line, h.inputCursor] at hprompted ⊢
  split at hprompted
  · next hfull =>
    simp only [if_pos hfull]
    exact h.step h.prompted rfl h.inputCursor h.historyIndex h.submitted (h.line ▸ h.shown)
      List.prefix_rfl List.prefix_rfl
  · next hroom =>
    simp only [if_neg hroom]
    exact h.step hprompted rfl rfl h.historyIndex h.submitted (.inl rfl) List.prefix_rfl
      List.prefix_rfl

theorem insertChars_disturbed (h : Disturbed n u v) {text : Text} (htext : '\n' ∉ text) :
    Disturbed n (u.withText (u.insertChars u.line text)) (v.withText (v.insertChars v.line text)) := by
  induction text generalizing u v with
  | nil => exact h
  | cons ch text ih =>
    apply ih (insertChar_disturbed h fun heq : ch = '\n' => htext (heq ▸ List.mem_cons_self))
    exact fun hmem => htext (List.mem_cons_of_mem ch hmem)

theorem backspace_disturbed (h : Disturbed n u v) :
    Disturbed n (u.withText (u.backspace u.line)) (v.withText (v.backspace v.line)) := by
  have hprompted := (backspace_prompted h.prompted).1
  simp only [Transcript.backspace, h.line, h.inputCursor] at hprompted ⊢
  split at hprompted
  · next hzero =>
    simp only [if_pos hzero]
    exact h.step hprompted rfl rfl h.historyIndex h.submitted (h.line ▸ h.shown)
      List.prefix_rfl List.prefix_rfl
  · next hpos =>
    simp only [if_neg hpos]
    exact h.step hprompted rfl rfl h.historyIndex h.submitted (.inl rfl) List.prefix_rfl
      List.prefix_rfl

theorem autoComplete_disturbed (h : Disturbed n u v) :
    Disturbed n (u.withText (u.autoComplete u.line)) (v.withText (v.autoComplete v.line)) := by
  rw [Transcript.autoComplete, Transcript.autoComplete, h.line]
  cases hcommand : completeCommand u.line with
  | none =>
    exact h.step h.prompted rfl h.inputCursor h.historyIndex h.submitted (h.line ▸ h.shown)
      List.prefix_rfl List.prefix_rfl
  | some command =>
    have hinsert := insertChars_disturbed h (completion_flat hcommand)
    rw [h.line] at hinsert
    exact hinsert

/-- The arrows show what is left of the input on the screen. -/
theorem redrawn_disturbed (h : Disturbed n u v) {cursor : Nat} (hcursor : cursor ≤ u.line.length) :
    Disturbed n (u.withText (u.toTranscript.redrawn u.toTranscript.shown cursor, u.line))
      (v.withText (v.toTranscript.redrawn v.toTranscript.shown cursor, v.line)) := by
  have hshown : PROMPT ++ v.toTranscript.shown = PROMPT ++ v.line ∨
      PROMPT ++ v.toTranscript.shown = PROMPT := by
    rw [Transcript.shown]
    cases h.shown with
    | inl hline => simp [hline]
    | inr hstale => cases hstale with
      | inl hnil => simp [hnil]
      | inr hprompt => simp [hprompt]
  refine h.step (arrow_prompted h.prompted hcursor).1 h.line rfl h.historyIndex h.submitted ?_
    List.prefix_rfl List.prefix_rfl
  cases hshown with
  | inl hline => exact .inl hline
  | inr hprompt => exact .inr (.inr hprompt)

theorem arrowRight_disturbed (h : Disturbed n u v)
    (hshown : v.line = [] ∨ v.currentLine = PROMPT ++ v.line) :
    Disturbed n (u.withText (u.arrowRight, u.line)) (v.withText (v.arrowRight, v.line)) := by
  have hlength : moveCursorRight v.inputCursor (v.currentLine.length - PROMPT.length) =
      moveCursorRight u.inputCursor u.line.length := by
    have hle := h.prompted.cursor_le
    cases hshown with
    | inl hempty =>
      have hnone : u.line.length = 0 := by rw [← h.line, hempty, List.length_nil]
      have hstale : v.currentLine.length - PROMPT.length = 0 := by
        cases h.shown with
        | inl hline => simp [hline, hempty]
        | inr hstale => cases hstale with
          | inl hnil => simp [hnil]
          | inr hprompt => simp [hprompt]
      rw [moveCursorRight, moveCursorRight, hstale, hnone, Nat.min_zero, Nat.min_zero]
    | inr hline =>
      rw [hline, List.length_append, Nat.add_sub_cancel_left, h.inputCursor, h.line]
  have hu : moveCursorRight u.inputCursor (u.currentLine.length - PROMPT.length) =
      moveCursorRight u.inputCursor u.line.length := by
    rw [h.prompted.shown, List.length_append, Nat.add_sub_cancel_left]
  rw [Transcript.arrowRight, Transcript.arrowRight, hlength, hu]
  exact redrawn_disturbed h (Nat.min_le_right ..)

theorem recall_disturbed (h : Disturbed n u v) (historyIndex : Option Nat) {text : Text}
    (htext : '\n' ∉ text)
    (hindex : ∀ index ∈ historyIndex, index < (commandHistory u.history).length) :
    Disturbed n (u.withText (u.toTranscript.retrieve historyIndex text))
      (v.withText (v.toTranscript.retrieve historyIndex text)) :=
  h.step (recall_prompted h.prompted historyIndex htext hindex).1 rfl rfl rfl h.submitted (.inl rfl)
    List.prefix_rfl List.prefix_rfl

/-- An entry older than the first line is the same in both. -/
theorem Disturbed.older_entry (h : Disturbed n u v) {index : Nat} (hlt : index < n) :
    ∃ command, (commandHistory u.history)[index]? = some command ∧
      (commandHistory v.history)[index]? = some command := by
  obtain ⟨commands, rfl, hu, hv⟩ := h.older
  have hentry {history : List Text} (hhead : commands <+: history) :
      history[index]? = some commands[index] := by
    rw [List.getElem?_eq_getElem (hlt.trans_le hhead.length_le), ← hhead.getElem hlt]
  exact ⟨commands[index], hentry hu, hentry hv⟩

theorem arrowUp_disturbed (h : Disturbed n u v) {index : Nat} (hindex : v.historyIndex = some index)
    (hle : index ≤ n) (hpos : 0 < n) :
    Both (Disturbed n) (u.handleKey info .arrowUp) (v.handleKey info .arrowUp) := by
  have hlt : index - 1 < n := by omega
  obtain ⟨command, hu, hv⟩ := h.older_entry hlt
  have hne : commandHistory u.history ≠ [] := List.ne_nil_of_mem (List.mem_of_getElem? hu)
  have hrecall := recall_disturbed h (some (index - 1)) (trimPrompts_flat h.prompted hu)
    fun _ hmem => (Option.some.inj hmem) ▸ (List.getElem?_eq_some_iff.mp hu).1
  rw [handleKey, handleKey, Transcript.arrowUp, Transcript.arrowUp]
  simp only [if_neg hne, if_neg h.recorded, ← h.historyIndex, hindex, Transcript.olderIndex, hu, hv]
  exact hrecall

theorem arrowDown_disturbed (h : Disturbed n u v)
    (hindex : ∀ index ∈ v.historyIndex, index + 1 < n) :
    Disturbed n (u.withText (u.arrowDown u.line)) (v.withText (v.arrowDown v.line)) := by
  simp only [Transcript.arrowDown, ← h.historyIndex]
  cases hcurrent : v.historyIndex with
  | none => exact h
  | some index =>
    obtain ⟨command, hu, hv⟩ := h.older_entry (hindex index hcurrent)
    have hne : commandHistory u.history ≠ [] := List.ne_nil_of_mem (List.mem_of_getElem? hu)
    have hrecall := recall_disturbed h (some (index + 1)) (trimPrompts_flat h.prompted hu)
      fun _ hmem => (Option.some.inj hmem) ▸ (List.getElem?_eq_some_iff.mp hu).1
    simp only [if_neg hne, if_neg h.recorded, hu, hv]
    exact hrecall

theorem zoom_disturbed (h : Disturbed n u v) :
    Disturbed n (u.withText (u.zoom u.line, u.line)) (v.withText (v.zoom v.line, v.line)) := by
  have hflat := h.prompted.shown_flat
  rw [h.prompted.shown, ← h.line] at hflat
  rw [zoom_prompted h.prompted, Transcript.zoom, Transcript.print_of_flat _ hflat]
  exact h.step h.prompted h.line h.inputCursor h.historyIndex h.submitted (.inl rfl)
    List.prefix_rfl List.prefix_rfl

theorem prompted_disturbed {t t' : Transcript} {submitted submitted' : List Text}
    (h : Disturbed n u v) (hprompted : (prompted t submitted).Prompted)
    (hline : t'.currentLine = []) (hindex : t'.historyIndex = t.historyIndex)
    (hsubmitted : submitted' = submitted) (hu : u.history <+: t.history)
    (hv : v.history <+: t'.history) :
    Disturbed n (prompted t submitted) (prompted t' submitted') := by
  have hprint (t : Transcript) : t.print PROMPT = { t with currentLine := t.currentLine ++ PROMPT } :=
    Transcript.print_of_flat t (by decide)
  refine h.step hprompted rfl rfl ?_ hsubmitted (.inr (.inr ?_)) ?_ ?_
  · rw [prompted, prompted, hprint, hprint]
    exact hindex
  · rw [prompted, hprint, hline]
    rfl
  · rw [prompted, hprint]
    exact hu
  · rw [prompted, hprint]
    exact hv

theorem enter_disturbed (h : Disturbed n u v) :
    Both (Disturbed n) (u.enter info) (v.enter info) := by
  have hboth := Transcript.runCommand_both u.newline v.newline info u.line rfl rfl h.historyIndex
  rw [enter, enter, h.line]
  apply hboth.with_eq.bind
  intro a b hab
  have hanswer := (Transcript.runCommand_safe info u.line rfl).of_ok hab.2.1
  have hprompted := answered_prompted h.prompted hanswer.1 hanswer.2.1 hanswer.2.2
    (u.submitted ++ [u.line])
  exact prompted_disturbed h hprompted.1 hab.1.1 hab.1.2.1 (by rw [h.submitted])
    ((List.prefix_append ..).trans hab.1.2.2.1) ((List.prefix_append ..).trans hab.1.2.2.2)

theorem cancel_disturbed (h : Disturbed n u v) :
    Disturbed n (prompted (u.println "^C".toList) u.submitted)
      (prompted (v.println "^C".toList) v.submitted) := by
  have hprompted := (cancel_prompted h.prompted).1
  rw [Transcript.println_eq] at hprompted ⊢
  rw [Transcript.println_eq]
  exact prompted_disturbed h hprompted rfl h.historyIndex h.submitted (List.prefix_append ..)
    (List.prefix_append ..)

/-- The condition under which a key does the same after background output: ArrowRight reads the
line back from the screen, and recall must go to an entry older than the first of the output. -/
def Tolerated (mark : Option Nat) (d : Dialogue) : ShellEvent → Prop
  | .key .arrowRight _ => d.line = [] ∨ d.currentLine = PROMPT ++ d.line
  | .key .arrowUp _ => ∀ n ∈ mark, ∃ index ∈ d.historyIndex, index ≤ n ∧ 0 < n
  | .key .arrowDown _ => ∀ n ∈ mark, ∀ index ∈ d.historyIndex, index + 1 < n
  | _ => True

theorem handleKey_disturbed (h : Disturbed n u v) {key : KeyboardEvent}
    (htolerated : v.Tolerated (some n) (.key key info)) :
    Both (Disturbed n) (u.handleKey info key) (v.handleKey info key) := by
  cases key with
  | char c =>
    rw [handleKey, handleKey]
    by_cases hnewline : c = '\n'
    · rw [if_pos hnewline, if_pos hnewline]
      exact enter_disturbed h
    by_cases herase : c = '\x08'
    · rw [if_neg hnewline, if_neg hnewline, if_pos herase, if_pos herase]
      exact backspace_disturbed h
    · rw [if_neg hnewline, if_neg hnewline, if_neg herase, if_neg herase]
      exact insertChar_disturbed h hnewline
  | ctrlC => exact cancel_disturbed h
  | zoomIn => exact zoom_disturbed h
  | zoomOut => exact zoom_disturbed h
  | arrowLeft =>
    have hcursor : v.toTranscript.arrowLeft =
        v.toTranscript.redrawn v.toTranscript.shown (moveCursorLeft u.inputCursor) := by
      rw [Transcript.arrowLeft, h.inputCursor]
    rw [handleKey, handleKey, hcursor]
    exact redrawn_disturbed h ((Nat.sub_le ..).trans h.prompted.cursor_le)
  | arrowRight => exact arrowRight_disturbed h htolerated
  | arrowUp =>
    obtain ⟨index, hindex, hle, hpos⟩ := htolerated n rfl
    exact arrowUp_disturbed h hindex hle hpos
  | arrowDown => exact arrowDown_disturbed h (htolerated n rfl)
  | ctrlL =>
    have hcleared : Disturbed n (prompted u.cleared u.submitted) (prompted v.cleared v.submitted) :=
      prompted_disturbed h (clear_prompted h.prompted).1 rfl rfl h.submitted List.prefix_rfl
        List.prefix_rfl
    exact hcleared
  | tab => exact autoComplete_disturbed h

/-! ### Runs -/

def marked (mark : Option Nat) (d : Dialogue) : ShellEvent → Option Nat
  | .key .. => mark
  | .output _ => some (mark.getD (commandHistory d.history).length)

def Tolerates (mark : Option Nat) (d : Dialogue) : List ShellEvent → Prop
  | [] => True
  | event :: events => d.Tolerated mark event ∧
      ∀ d', d.step event = .ok d' → Tolerates (marked mark d event) d' events

def Beside : Option Nat → Dialogue → Dialogue → Prop
  | none, u, v => u.Prompted ∧ v = u
  | some n, u, v => Disturbed n u v

theorem key_beside {mark : Option Nat} {key : KeyboardEvent} (h : Beside mark u v)
    (htolerated : v.Tolerated mark (.key key info)) :
    Both (Beside mark) (u.handleKey info key) (v.handleKey info key) := by
  cases mark with
  | some n => exact handleKey_disturbed h htolerated
  | none =>
    rw [h.2]
    have hsafe := handleKey_prompted info h.1 key
    cases hstep : u.handleKey info key with
    | error stop => rfl
    | ok d' => exact ⟨(hsafe.of_ok hstep).1, rfl⟩

theorem output_beside {mark : Option Nat} (h : Beside mark u v) (text : Text) :
    Beside (marked mark v (.output text)) u (v.output text) := by
  cases mark with
  | some n => exact Disturbed.output h text
  | none =>
    rw [h.2]
    exact disturbed_output h.1 text

theorem run_beside {mark : Option Nat} {events : List ShellEvent} (h : Beside mark u v)
    (htolerates : Tolerates mark v events) :
    Both (fun a b => ∃ mark, Beside mark a b) (u.run (events.filter ShellEvent.isKey))
      (v.run events) := by
  induction events generalizing mark u v with
  | nil => exact ⟨mark, h⟩
  | cons event events ih =>
    cases event with
    | key key info =>
      rw [List.filter_cons_of_pos rfl, run, run, List.foldlM_cons, List.foldlM_cons]
      apply (key_beside h htolerates.1).with_eq.bind
      intro a b hab
      exact ih hab.1 (htolerates.2 b hab.2.2)
    | output text =>
      rw [List.filter_cons_of_neg (by simp [ShellEvent.isKey])]
      exact ih (output_beside h text) (htolerates.2 _ rfl)

end Dialogue

def Session.Agrees (s s' : Session) : Prop :=
  s'.line = s.line ∧ s'.writer.inputCursor = s.writer.inputCursor ∧ s'.submitted = s.submitted

/-- As long as its events are tolerated, a session with printed lines goes as one without. -/
theorem background_output_tolerated (font : Font) {s : Session} {events : List ShellEvent}
    (h : s.dialogue.FreshPrompt) (htolerates : s.dialogue.Tolerates none events) :
    Both Session.Agrees (s.run font (events.filter ShellEvent.isKey)) (s.run font events) := by
  have hstart : Dialogue.Beside none s.dialogue s.dialogue := ⟨h.prompted, rfl⟩
  have hboth := Dialogue.run_beside hstart htolerates
  rw [← Session.run_dialogue font, ← Session.run_dialogue font] at hboth
  apply hboth.of_map.mono
  intro a b hab
  obtain ⟨mark, hbeside⟩ := hab
  cases mark with
  | none =>
    have heq : b.dialogue = a.dialogue := hbeside.2
    exact ⟨congrArg Dialogue.line heq, congrArg (fun d => d.inputCursor) heq,
      congrArg Dialogue.submitted heq⟩
  | some n => exact ⟨hbeside.line, hbeside.inputCursor, hbeside.submitted⟩

theorem Dialogue.tolerates_cons {mark : Option Nat} {d d' : Dialogue} {event : ShellEvent}
    {events : List ShellEvent} (hstep : d.step event = .ok d') (htolerated : d.Tolerated mark event)
    (hrest : d'.Tolerates (d.marked mark event) events) :
    d.Tolerates mark (event :: events) := by
  refine ⟨htolerated, fun next hnext => ?_⟩
  rw [hstep] at hnext
  cases hnext
  exact hrest

/-- The loop prints while "ab" is typed. -/
theorem background_output_tolerated_typing :
    ∃ s, Session.init blankFont smallDisplay [] = .ok s ∧
      Both Session.Agrees
        (s.run blankFont ([.key (.char 'a') idleSystem, .output (Notice.keyboardDropped 1).text,
          .key (.char 'b') idleSystem, .key .arrowRight idleSystem].filter ShellEvent.isKey))
        (s.run blankFont [.key (.char 'a') idleSystem, .output (Notice.keyboardDropped 1).text,
          .key (.char 'b') idleSystem, .key .arrowRight idleSystem]) := by
  obtain ⟨s, hinit, hdialogue⟩ := Session.init_ok blankFont smallDisplay []
  have htolerates : (Dialogue.init []).Tolerates none [.key (.char 'a') idleSystem,
      .output (Notice.keyboardDropped 1).text, .key (.char 'b') idleSystem,
      .key .arrowRight idleSystem] :=
    Dialogue.tolerates_cons rfl trivial (Dialogue.tolerates_cons rfl trivial
      (Dialogue.tolerates_cons rfl trivial (Dialogue.tolerates_cons rfl (.inr rfl) trivial)))
  rw [← hdialogue] at htolerates
  exact ⟨s, hinit, background_output_tolerated blankFont (hdialogue ▸ Dialogue.init_fresh [])
    htolerates⟩

/-- The loop reports lost keys after "a" was typed: ArrowRight then puts the cursor in front of
it. -/
theorem background_output_moves_cursor :
    ∃ s, Session.init blankFont smallDisplay [] = .ok s ∧
      ¬ Both Session.Agrees
        (s.run blankFont ([.key (.char 'a') idleSystem, .output (Notice.keyboardDropped 1).text,
          .key .arrowRight idleSystem].filter ShellEvent.isKey))
        (s.run blankFont [.key (.char 'a') idleSystem, .output (Notice.keyboardDropped 1).text,
          .key .arrowRight idleSystem]) := by
  obtain ⟨s, hinit, hdialogue⟩ := Session.init_ok blankFont smallDisplay []
  refine ⟨s, hinit, ?_⟩
  obtain ⟨u, hu, hquiet⟩ : ∃ u, s.run blankFont ([.key (.char 'a') idleSystem,
      .output (Notice.keyboardDropped 1).text, .key .arrowRight idleSystem].filter ShellEvent.isKey) =
        .ok u ∧ u.dialogue = ⟨⟨[], PROMPT ++ ['a'], 1, none⟩, ['a'], []⟩ := by
    apply Session.exists_run
    rw [hdialogue]
    rfl
  obtain ⟨v, hv, hprinted⟩ : ∃ v, s.run blankFont [.key (.char 'a') idleSystem,
      .output (Notice.keyboardDropped 1).text, .key .arrowRight idleSystem] = .ok v ∧
        v.dialogue = ⟨⟨[PROMPT ++ ['a'] ++ (Notice.keyboardDropped 1).text], PROMPT, 0, none⟩, ['a'], []⟩ := by
    apply Session.exists_run
    rw [hdialogue]
    rfl
  rw [hu, hv]
  intro hagrees
  have hcursor : v.dialogue.inputCursor = u.dialogue.inputCursor := hagrees.2.1
  rw [hquiet, hprinted] at hcursor
  cases hcursor

end AgnostOS.Shell
