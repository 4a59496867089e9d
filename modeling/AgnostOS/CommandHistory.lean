import AgnostOS.CommandOutput
import AgnostOS.Library.Simulation
import AgnostOS.LineEditor

/-! The command list recovered from the screen lines, against the lines that were entered. -/
namespace AgnostOS.Shell
open Globals Graphics Commands Console Keyboard

/-! ### What a key records -/

namespace Dialogue
variable {info : SystemInfo} {d d' : Dialogue}

def recorded (info : SystemInfo) (d : Dialogue) : KeyboardEvent → List Text
  | .char c =>
    if c = '\n' then d.currentLine :: Transcript.screenLines info d.line else []
  | .ctrlC => [d.currentLine ++ "^C".toList]
  | _ => []

def entered (d : Dialogue) : KeyboardEvent → List Text
  | .char c => if c = '\n' then [d.line] else []
  | _ => []

theorem recorded_char (c : Char) : recorded info d (.char c) =
    if c = '\n' then d.currentLine :: Transcript.screenLines info d.line else [] := rfl

theorem recorded_ctrlC : recorded info d .ctrlC = [d.currentLine ++ "^C".toList] := rfl

theorem entered_char (c : Char) : entered d (.char c) = if c = '\n' then [d.line] else [] := rfl

theorem insertChar_history (t : Transcript) (line : Text) (ch : Char) :
    (t.insertChar line ch).1.history = t.history := by
  simp only [Transcript.insertChar]
  split <;> rfl

theorem insertChars_history (t : Transcript) (line text : Text) :
    (t.insertChars line text).1.history = t.history := by
  induction text generalizing t line with
  | nil => rfl
  | cons ch text ih => exact (ih _ _).trans (insertChar_history t line ch)

theorem cancel_eq (d : Dialogue) : d.println "^C".toList = { d.toTranscript with
    history := d.history ++ [d.currentLine ++ "^C".toList], currentLine := [] } :=
  d.println_of_flat (by decide)

theorem cancel_history (d : Dialogue) : (d.println "^C".toList).history =
    d.history ++ [d.currentLine ++ "^C".toList] := by
  rw [cancel_eq]

theorem arrowUp_cases {t : Transcript} {line : Text} {p : Transcript × Text}
    (h : t.arrowUp line = .ok p) : p = (t, line) ∨ ∃ index, ∃ command ∈ commandHistory t.history,
      p = t.retrieve (some index) (trimPrompts command) := by
  simp only [Transcript.arrowUp] at h
  split at h
  · cases h
    exact .inl rfl
  · cases hcommand : (commandHistory t.history)[Transcript.olderIndex
        (commandHistory t.history).length t.historyIndex]? with
    | none =>
      rw [hcommand] at h
      cases h
    | some command =>
      rw [hcommand] at h
      cases h
      exact .inr ⟨_, command, List.mem_of_getElem? hcommand, rfl⟩

/-- ArrowDown does nothing, or recalls an entry or the empty text. -/
theorem arrowDown_cases (t : Transcript) (line : Text) : t.arrowDown line = (t, line) ∨
    (∃ index, ∃ command ∈ commandHistory t.history,
      t.arrowDown line = t.retrieve (some index) (trimPrompts command)) ∨
    t.arrowDown line = t.retrieve none [] := by
  simp only [Transcript.arrowDown]
  cases t.historyIndex with
  | none => exact .inl rfl
  | some index =>
    simp only
    split
    · exact .inl rfl
    · cases hcommand : (commandHistory t.history)[index + 1]? with
      | none => exact .inr (.inr rfl)
      | some command => exact .inr (.inl ⟨_, command, List.mem_of_getElem? hcommand, rfl⟩)

theorem arrowUp_history {t : Transcript} {line : Text} {p : Transcript × Text}
    (h : t.arrowUp line = .ok p) : p.1.history = t.history := by
  cases arrowUp_cases h with
  | inl hsame => rw [hsame]
  | inr hrecall =>
    obtain ⟨index, command, -, rfl⟩ := hrecall
    rfl

theorem arrowDown_history (t : Transcript) (line : Text) :
    (t.arrowDown line).1.history = t.history := by
  obtain hsame | ⟨index, command, -, hrecall⟩ | hempty := arrowDown_cases t line
  · rw [hsame]
  · rw [hrecall]
    rfl
  · rw [hempty]
    rfl

theorem autoComplete_history (t : Transcript) (line : Text) :
    (t.autoComplete line).1.history = t.history := by
  rw [Transcript.autoComplete]
  split
  · rfl
  · exact insertChars_history ..

/-- Only Enter and Ctrl+C complete lines, and only Enter enters one. -/
theorem handleKey_history (h : d.Prompted) {key : KeyboardEvent}
    (hstep : d.handleKey info key = .ok d') : d'.history = d.history ++ recorded info d key ∧
      d'.submitted = d.submitted ++ entered d key := by
  have hprint (t : Transcript) : (t.print PROMPT).history = t.history := by
    rw [Transcript.print_of_flat t (by decide)]
  have hsame (p : Transcript × Text) (hhistory : p.1.history = d.history) :
      (d.withText p).history = d.history ++ [] ∧
        (d.withText p).submitted = d.submitted ++ [] :=
    ⟨hhistory.trans (List.append_nil _).symm, (List.append_nil _).symm⟩
  cases key with
  | char c =>
    rw [handleKey] at hstep
    rw [recorded_char, entered_char]
    by_cases hnewline : c = '\n'
    · rw [if_pos hnewline] at hstep
      rw [if_pos hnewline, if_pos hnewline]
      have henter : Safe (fun d' => d'.history = d.history ++ d.currentLine ::
          Transcript.screenLines info d.line ∧ d'.submitted = d.submitted ++ [d.line])
          (d.enter info) := by
        apply (Transcript.runCommand_safe info d.line rfl).bind
        intro t ht
        refine ⟨?_, rfl⟩
        rw [prompted, hprint, ht.2.1, Transcript.newline, List.append_assoc,
          List.singleton_append]
      exact henter.of_ok hstep
    rw [if_neg hnewline] at hstep
    rw [if_neg hnewline, if_neg hnewline]
    by_cases herase : c = '\x08'
    · rw [if_pos herase] at hstep
      cases hstep
      apply hsame
      simp only [Transcript.backspace]
      split <;> rfl
    · rw [if_neg herase] at hstep
      cases hstep
      exact hsame _ (insertChar_history ..)
  | ctrlC =>
    cases hstep
    refine ⟨?_, (List.append_nil _).symm⟩
    rw [prompted, hprint]
    exact cancel_history d
  | zoomIn =>
    rw [handleKey, zoom_prompted h] at hstep
    cases hstep
    exact hsame _ rfl
  | zoomOut =>
    rw [handleKey, zoom_prompted h] at hstep
    cases hstep
    exact hsame _ rfl
  | arrowLeft =>
    cases hstep
    exact hsame _ rfl
  | arrowRight =>
    cases hstep
    exact hsame _ rfl
  | arrowUp =>
    rw [handleKey] at hstep
    cases hup : d.arrowUp d.line with
    | error stop =>
      rw [hup] at hstep
      cases hstep
    | ok p =>
      rw [hup] at hstep
      cases hstep
      exact hsame p (arrowUp_history hup)
  | arrowDown =>
    cases hstep
    exact hsame _ (arrowDown_history ..)
  | ctrlL =>
    cases hstep
    exact hsame _ (hprint d.cleared)
  | tab =>
    cases hstep
    exact hsame _ (autoComplete_history ..)

/-! ### The list of commands -/

theorem starts_with_prompt (text : Text) : PROMPT <+: PROMPT ++ text := List.prefix_append ..

theorem trimPrompts_prompt (text : Text) : trimPrompts (PROMPT ++ text) = trimPrompts text := rfl

theorem trimPrompts_of_not_prefix {line : Text} (h : ¬ PROMPT <+: line) :
    trimPrompts line = line := by
  fun_cases trimPrompts line with
  | case1 rest => exact absurd (starts_with_prompt rest) h
  | case2 line => rfl

theorem trimPrompts_length_le (line : Text) : (trimPrompts line).length ≤ line.length := by
  fun_induction trimPrompts line with
  | case1 rest ih =>
    simp only [List.length_cons]
    omega
  | case2 line => exact Nat.le_refl _

/-- A line that begins with the prompt is not given back as it was. -/
theorem trimPrompts_ne {line : Text} (h : PROMPT <+: line) : trimPrompts line ≠ line := by
  obtain ⟨rest, rfl⟩ := h
  intro heq
  have hle := trimPrompts_length_le rest
  have hlength := congrArg List.length heq
  rw [trimPrompts_prompt, List.length_append] at hlength
  have hprompt : 0 < PROMPT.length := by decide
  omega

theorem commandHistory_prompted {text : Text} {lines : List Text} :
    commandHistory ((PROMPT ++ text) :: lines) = (PROMPT ++ text) :: commandHistory lines := by
  simp [commandHistory]

/-- The non-empty lines passed to `run_command`. -/
def entries (d : Dialogue) : List Text := d.submitted.filter (· ≠ [])

def Faithful (d : Dialogue) : Prop :=
  commandHistory d.history = d.entries.map (PROMPT ++ ·) ∧
    (commandHistory d.history).map trimPrompts = d.entries

/-- Nothing is printed, no line is cancelled, and none is entered that is empty or that the
prefix filter takes for something else. -/
def Plain (d : Dialogue) : ShellEvent → Prop
  | .key (.char c) _ => c = '\n' → d.line ≠ [] ∧ ¬ PROMPT <+: d.line ∧ ¬ EchoesPrompt d.line
  | .key .ctrlC _ => False
  | .key _ _ => True
  | .output _ => False

theorem plain_newline : d.Plain (.key (.char '\n') info) ↔
    d.line ≠ [] ∧ ¬ PROMPT <+: d.line ∧ ¬ EchoesPrompt d.line := forall_prop_of_true rfl

theorem faithful_of_same (hhistory : commandHistory d'.history = commandHistory d.history)
    (hentries : d'.entries = d.entries) : d'.Faithful ↔ d.Faithful := by
  rw [Faithful, Faithful, hhistory, hentries]

/-- Both lists are as long as each other, so no key may record a command that it does not
enter. -/
theorem Faithful.length_eq (h : d.Faithful) :
    (commandHistory d.history).length = d.entries.length := by
  rw [h.1, List.length_map]

theorem enter_faithful (hf : d.Faithful) {more : List Text}
    (hcommands : commandHistory d'.history =
      commandHistory d.history ++ (PROMPT ++ d.line) :: more)
    (hentries : d'.entries = d.entries ++ [d.line].filter (· ≠ [])) :
    d'.Faithful ↔ d.line ≠ [] ∧ ¬ PROMPT <+: d.line ∧ more = [] := by
  constructor
  · intro h
    have hlength := h.length_eq
    have htexts := h.2
    rw [hcommands, hentries, List.length_append, List.length_append, hf.length_eq] at hlength
    by_cases hempty : d.line = []
    · simp [hempty] at hlength
    · rw [List.filter_cons_of_pos (by simpa using hempty), List.filter_nil] at hlength hentries
      have hmore : more = [] := by
        apply List.eq_nil_of_length_eq_zero
        simp only [List.length_cons, List.length_nil] at hlength
        omega
      rw [hcommands, hentries, hmore, List.map_append, hf.2] at htexts
      have hline : trimPrompts d.line = d.line :=
        (List.cons.inj (List.append_cancel_left htexts)).1
      exact ⟨hempty, fun hprompt => trimPrompts_ne hprompt hline, hmore⟩
  · intro h
    rw [h.2.2] at hcommands
    rw [List.filter_cons_of_pos (by simpa using h.1), List.filter_nil] at hentries
    constructor
    · rw [hcommands, hentries, List.map_append, hf.1]
      rfl
    · rw [hcommands, hentries, List.map_append, hf.2, List.map_cons, List.map_nil,
        trimPrompts_prompt, trimPrompts_of_not_prefix h.2.1]

theorem handleKey_faithful (h : d.Prompted) (hf : d.Faithful) {key : KeyboardEvent}
    (hstep : d.handleKey info key = .ok d') : d'.Faithful ↔ d.Plain (.key key info) := by
  have hkey := handleKey_history h hstep
  have hcommands := congrArg commandHistory hkey.1
  rw [Transcript.commandHistory_append] at hcommands
  have hentries : d'.entries = d.entries ++ (entered d key).filter (· ≠ []) := by
    rw [entries, hkey.2, List.filter_append, entries]
  have hplain (hrecorded : recorded info d key = []) (hentered : entered d key = []) :
      d'.Faithful := by
    rw [hrecorded] at hcommands
    rw [hentered] at hentries
    have hsame := faithful_of_same (hcommands.trans (List.append_nil _))
      (hentries.trans (List.append_nil _))
    exact hsame.mpr hf
  cases key with
  | ctrlC =>
    refine ⟨fun h' => ?_, False.elim⟩
    have hlength := h'.length_eq
    have hnone : entered d .ctrlC = [] := rfl
    rw [hcommands, hentries, hnone, recorded_ctrlC, h.shown, List.append_assoc,
      commandHistory_prompted, List.filter_nil, List.append_nil, List.length_append,
      hf.length_eq, List.length_cons] at hlength
    omega
  | char c =>
    by_cases hnewline : c = '\n'
    · simp only [recorded_char, entered_char, if_pos hnewline] at hcommands hentries
      rw [h.shown, commandHistory_prompted, commandHistory_screenLines] at hcommands
      rw [enter_faithful hf hcommands hentries]
      rw [hnewline, plain_newline]
      by_cases hecho : EchoesPrompt d.line
      · simp [hecho]
      · simp [hecho]
    · have htrivial : d.Plain (.key (.char c) info) := fun heq => absurd heq hnewline
      exact iff_of_true (hplain (if_neg hnewline) (if_neg hnewline)) htrivial
  | _ => exact iff_of_true (hplain rfl rfl) trivial

/-- What is printed behind the prompt counts as a command. -/
theorem completes_command {t : Transcript} (h : PROMPT <+: t.currentLine) (text : Text) :
    commandHistory (t.completes text) ≠ [] := by
  obtain ⟨shown, hshown⟩ := h
  rw [Transcript.completes, ← hshown]
  cases hparts : text.splitOn '\n' with
  | nil => exact absurd hparts (List.splitOn_ne_nil '\n' text)
  | cons first rest =>
    rw [List.modifyHead_cons, List.append_assoc, commandHistory_prompted]
    exact List.cons_ne_nil _ _

theorem output_commands (h : PROMPT <+: d.currentLine) (text : Text) :
    (commandHistory d.history).length < (commandHistory (d.output text).history).length := by
  have hhistory : (d.output text).history = d.history ++ d.completes text :=
    d.println_history text
  rw [hhistory, Transcript.commandHistory_append, List.length_append]
  exact Nat.lt_add_of_pos_right (List.length_pos_iff.mpr (completes_command h text))

theorem output_faithful (h : d.Prompted) (hf : d.Faithful) (text : Text) :
    ¬ (d.output text).Faithful := by
  intro h'
  have hshown : PROMPT <+: d.currentLine := h.shown ▸ starts_with_prompt d.line
  have hmore := output_commands hshown text
  have hentries : (d.output text).entries = d.entries := rfl
  rw [h'.length_eq, hf.length_eq, hentries] at hmore
  exact Nat.lt_irrefl _ hmore

theorem step_faithful (h : d.Prompted) (hf : d.Faithful) {event : ShellEvent}
    (hstep : d.step event = .ok d') : d'.Faithful ↔ d.Plain event := by
  cases event with
  | key key info => exact handleKey_faithful h hf hstep
  | output text =>
    cases hstep
    exact iff_of_false (output_faithful h hf text) id

theorem step_prompted (h : d.Prompted) {event : ShellEvent} (hplain : d.Plain event)
    (hstep : d.step event = .ok d') : d'.Prompted := by
  cases event with
  | key key info => exact ((handleKey_prompted info h key).of_ok hstep).1
  | output text => exact hplain.elim

end Dialogue

/-! ### Sessions -/

theorem Session.dialogue_of_init {font : Font} {fb : Framebuffer} {greetings : List Notice}
    {s : Session} (hinit : Session.init font fb greetings = .ok s) :
    s.dialogue = .init greetings := by
  have hstart := Session.init_dialogue font fb greetings
  rw [hinit] at hstart
  exact Except.ok.inj hstart

def ShellMove (font : Font) (event : ShellEvent) (s s' : Session) : Prop :=
  s.step font event = .ok s'

theorem ShellMove.dialogue {font : Font} {event : ShellEvent} {s s' : Session}
    (h : ShellMove font event s s') : s.dialogue.step event = .ok s'.dialogue := by
  rw [← Session.step_dialogue font, h]
  rfl

/-- A move of the texts is one of a session that shows them. -/
theorem ShellMove.exists (font : Font) {event : ShellEvent} {s : Session} {d' : Dialogue}
    (h : s.dialogue.step event = .ok d') : ∃ s', ShellMove font event s s' ∧ s'.dialogue = d' := by
  rw [← Session.step_dialogue font] at h
  cases hs : s.step font event with
  | error stop =>
    rw [hs] at h
    cases h
  | ok s' =>
    rw [hs] at h
    exact ⟨s', hs, Except.ok.inj h⟩

theorem ShellMove.exists_trace (font : Font) {G : Dialogue → ShellEvent → Prop} {s : Session}
    {events : List ShellEvent} {d' : Dialogue}
    (h : Trace (fun event d d' => d.step event = .ok d' ∧ G d event) events s.dialogue d') :
    ∃ s', Trace (fun event s s' => ShellMove font event s s' ∧ G s.dialogue event) events s s' ∧
      s'.dialogue = d' := by
  have hsimulates : Simulates (fun event d d' => d.step event = .ok d' ∧ G d event)
      (fun event s s' => ShellMove font event s s' ∧ G s.dialogue event)
      fun d s => s.dialogue = d := by
    rintro event d d' s rfl ⟨hstep, hgood⟩
    obtain ⟨s', hmove, hs'⟩ := ShellMove.exists font hstep
    exact ⟨s', ⟨hmove, hgood⟩, hs'⟩
  exact hsimulates.trace rfl h

def KeyMove (font : Font) (input : KeyboardEvent × SystemInfo) (s s' : Session) : Prop :=
  s.handleKey font input.2 input.1 = .ok s'

theorem KeyMove.shellMove {font : Font} {key : KeyboardEvent} {info : SystemInfo}
    {s s' : Session} : KeyMove font (key, info) s s' ↔ ShellMove font (.key key info) s s' :=
  Iff.rfl

theorem KeyMove.dialogue {font : Font} {input : KeyboardEvent × SystemInfo} {s s' : Session}
    (h : KeyMove font input s s') : s.dialogue.handleKey input.2 input.1 = .ok s'.dialogue :=
  (shellMove.mp h).dialogue

theorem KeyMove.exists_of_key (font : Font) {key : KeyboardEvent} {info : SystemInfo} {s : Session}
    {d' : Dialogue} (h : s.dialogue.handleKey info key = .ok d') :
    ∃ s', KeyMove font (key, info) s s' ∧ s'.dialogue = d' := by
  have hstep : s.dialogue.step (.key key info) = .ok d' := h
  exact ShellMove.exists font hstep

theorem Dialogue.init_faithful (greetings : List Notice) : (Dialogue.init greetings).Faithful := by
  have hnone : commandHistory (Dialogue.init greetings).history = [] := by
    rw [Dialogue.init_eq]
    apply List.eq_nil_iff_forall_not_mem.mpr
    intro line hmem
    rw [mem_commandHistory] at hmem
    obtain ⟨text, htext, hline⟩ := List.mem_flatMap.mp hmem.1
    obtain ⟨notice, _, rfl⟩ := List.mem_map.mp htext
    exact notice_unprompted notice line hline hmem.2
  rw [Dialogue.Faithful, hnone, Dialogue.init_eq]
  exact ⟨rfl, rfl⟩

/-- The command list follows the entered lines in every state of a session, exactly when every
event of it is plain. -/
theorem history_faithful_iff {font : Font} {fb : Framebuffer} {greetings : List Notice}
    {s s' : Session} {events : List ShellEvent}
    (hinit : Session.init font fb greetings = .ok s) :
    Trace (fun event s s' => ShellMove font event s s' ∧ s'.dialogue.Faithful) events s s' ↔
      Trace (fun event s s' => ShellMove font event s s' ∧ s.dialogue.Plain event) events s s' := by
  have hdialogue := Session.dialogue_of_init hinit
  apply Trace.congr_of_invariant (I := fun s => s.dialogue.Prompted ∧ s.dialogue.Faithful)
  · intro event s s' hs
    apply and_congr_right
    intro hmove
    exact Dialogue.step_faithful hs.1 hs.2 hmove.dialogue
  · intro event s s' hs hmove
    have hplain := (Dialogue.step_faithful hs.1 hs.2 hmove.1.dialogue).mp hmove.2
    exact ⟨Dialogue.step_prompted hs.1 hplain hmove.1.dialogue, hmove.2⟩
  · rw [hdialogue]
    exact ⟨(Dialogue.init_fresh greetings).prompted, Dialogue.init_faithful greetings⟩

instance (d : Dialogue) : Decidable d.Faithful := inferInstanceAs (Decidable (_ ∧ _))

/-- The text "ok" is entered and recalled. -/
theorem history_faithful_recall : ∃ s s', Session.init blankFont smallDisplay [] = .ok s ∧
    Trace (fun event s s' => ShellMove blankFont event s s' ∧ s'.dialogue.Faithful)
      [.key (.char 'o') idleSystem, .key (.char 'k') idleSystem, .key (.char '\n') idleSystem,
        .key .arrowUp idleSystem] s s' := by
  obtain ⟨s, hinit, hdialogue⟩ := Session.init_ok blankFont smallDisplay []
  have htexts : ∃ d', Trace (fun event d d' => d.step event = .ok d' ∧ d.Plain event)
      [.key (.char 'o') idleSystem, .key (.char 'k') idleSystem, .key (.char '\n') idleSystem,
        .key .arrowUp idleSystem] (Dialogue.init []) d' :=
    ⟨_, .cons ⟨rfl, fun h => absurd h (by decide)⟩ (.cons ⟨rfl, fun h => absurd h (by decide)⟩
      (.cons ⟨rfl, fun _ => ⟨by decide, by decide, by decide⟩⟩ (.cons ⟨rfl, trivial⟩ .nil)))⟩
  obtain ⟨d', htexts⟩ := htexts
  rw [← hdialogue] at htexts
  obtain ⟨s', htrace, _⟩ := ShellMove.exists_trace blankFont htexts
  exact ⟨s, s', hinit, (history_faithful_iff hinit).mpr htrace⟩

/-- A blank line is entered as the command of no text, and what a task prints behind the prompt
is a command of its own. -/
theorem blank_line_recorded : ∃ s s' t, Session.init blankFont smallDisplay [] = .ok s ∧
    ShellMove blankFont (.key (.char '\n') idleSystem) s s' ∧
    commandHistory s'.writer.history = ["> ".toList] ∧ ¬ s'.dialogue.Faithful ∧
    ShellMove blankFont (.output (Notice.taskOne 6).text) s t ∧
    commandHistory t.writer.history = ["> Task 1 ran: #6".toList] ∧ ¬ t.dialogue.Faithful := by
  obtain ⟨s, hinit, hdialogue⟩ := Session.init_ok blankFont smallDisplay []
  have hkey : s.dialogue.step (.key (.char '\n') idleSystem) =
      .ok ⟨⟨[PROMPT], PROMPT, 0, none⟩, [], [[]]⟩ := by
    rw [hdialogue]
    rfl
  have houtput : s.dialogue.step (.output (Notice.taskOne 6).text) =
      .ok ⟨⟨["> Task 1 ran: #6".toList], [], 0, none⟩, [], []⟩ := by
    rw [hdialogue]
    rfl
  obtain ⟨s', hmove, hs'⟩ := ShellMove.exists blankFont hkey
  obtain ⟨t, hprinted, ht⟩ := ShellMove.exists blankFont houtput
  have hblank : s'.writer.history = [PROMPT] := congrArg (fun d => d.history) hs'
  have htask : t.writer.history = ["> Task 1 ran: #6".toList] := congrArg (fun d => d.history) ht
  refine ⟨s, s', t, hinit, hmove, ?_, ?_, hprinted, ?_, ?_⟩
  · rw [hblank]
    rfl
  · rw [hs']
    decide
  · rw [htask]
    rfl
  · rw [ht]
    decide

end AgnostOS.Shell
