import AgnostOS.Library.Attempt
import AgnostOS.LineLength

/-! Browsing the command list: how far back the arrows have gone, counted from the newest
entry, and what a new prompt inherits of it. -/
namespace AgnostOS.Console

theorem Safe.of_forall_ok {α : Type} {P Q : α → Prop} {x : Kernel α} (h : Safe Q x)
    (hok : ∀ a, x = .ok a → P a) : Safe P x := by
  cases x with
  | error stop => exact h
  | ok a => exact hok a rfl

end AgnostOS.Console

namespace AgnostOS.Console.Transcript
open Globals Commands Shell

/-- Printing adds to the history and leaves the browsing alone. -/
theorem print_history (t : Transcript) (text : Text) : t.history <+: (t.print text).history ∧
    (t.print text).historyIndex = t.historyIndex := by
  induction text generalizing t with
  | nil => exact ⟨List.prefix_rfl, rfl⟩
  | cons ch text ih =>
    have hput : t.history <+: (t.put ch).history ∧ (t.put ch).historyIndex = t.historyIndex := by
      rw [put]
      split
      · exact ⟨List.prefix_append .., rfl⟩
      · exact ⟨List.prefix_rfl, rfl⟩
    obtain ⟨hhistory, hindex⟩ := ih (t.put ch)
    exact ⟨hput.1.trans hhistory, hindex.trans hput.2⟩

/-- A completed line that begins with the prompt counts as a command. -/
theorem newline_commands {t : Transcript} (h : PROMPT <+: t.currentLine) :
    (commandHistory t.history).length < (commandHistory t.newline.history).length := by
  obtain ⟨text, htext⟩ := h
  rw [newline, commandHistory_append, ← htext, Dialogue.commandHistory_prompted]
  simp [commandHistory]

/-- A line that begins with the prompt goes on, or is completed. -/
theorem print_prompted {t : Transcript} (h : PROMPT <+: t.currentLine) (text : Text) :
    PROMPT <+: (t.print text).currentLine ∨
      (commandHistory t.history).length < (commandHistory (t.print text).history).length := by
  induction text generalizing t with
  | nil => exact .inl h
  | cons ch text ih =>
    have hprint : t.print (ch :: text) = (t.put ch).print text := rfl
    rw [hprint]
    by_cases hnewline : ch = '\n'
    · have hput : t.put ch = t.newline := if_pos hnewline
      have hgrown := commandHistory_mono (t.newline.print_history text).1
      rw [hput]
      exact .inr ((newline_commands h).trans_le hgrown.length_le)
    · have hput : t.put ch = { t with currentLine := t.currentLine ++ [ch] } := if_neg hnewline
      rw [hput]
      exact ih (h.trans (List.prefix_append ..))

theorem insertChars_prompted {t : Transcript} (h : PROMPT <+: t.currentLine) (line text : Text) :
    PROMPT <+: (t.insertChars line text).1.currentLine := by
  induction text generalizing t line with
  | nil => exact h
  | cons ch text ih =>
    refine ih (t := (t.insertChar line ch).1) ?_ _
    rw [insertChar]
    split
    · exact h
    · exact List.prefix_append ..

/-- Only `clear` makes a command forget the shown entry. -/
theorem runCommand_historyIndex {info : SystemInfo} {t t' : Transcript} {command : Text}
    (h : t.currentLine = []) (hrun : t.runCommand info command = .ok t') :
    t'.historyIndex = if (parse command).command = .clear then none else t.historyIndex := by
  rw [runCommand] at hrun
  cases hcommand : (parse command).command with
  | clear =>
    rw [hcommand] at hrun
    cases hrun
    rfl
  | shutdown =>
    rw [hcommand] at hrun
    cases hrun
  | _ =>
    rw [hcommand] at hrun
    cases hrun
    rw [printLines_of_empty _ h]
    rfl

end AgnostOS.Console.Transcript

namespace AgnostOS.Shell
open Globals Graphics Commands Console Keyboard

def IsEdit : KeyboardEvent → Prop
  | .char c => c ≠ '\n'
  | .tab | .arrowLeft | .arrowRight => True
  | _ => False

def IsSubmission : KeyboardEvent → Prop
  | .char c => c = '\n'
  | .ctrlC | .ctrlL => True
  | _ => False

def presses (key : KeyboardEvent) (inputs : List (KeyboardEvent × SystemInfo)) : Nat :=
  inputs.countP fun input => input.1 = key

namespace Dialogue
variable {info : SystemInfo} {d d' : Dialogue}

def commands (d : Dialogue) : List Text := commandHistory d.history

/-- Which entry is shown, counted from the newest; 0 when none is. -/
def position (d : Dialogue) : Nat := d.historyIndex.elim 0 fun index => d.commands.length - index

def At (d : Dialogue) (k : Nat) : Prop :=
  if k = 0 then d.historyIndex = none ∧ d.line = []
  else d.historyIndex = some (d.commands.length - k) ∧
    d.commands[d.commands.length - k]?.map trimPrompts = some d.line

theorem At.position {k : Nat} (h : d.At k) (hk : k ≤ d.commands.length) : d.position = k := by
  rw [At] at h
  split at h
  · next hzero => rw [Dialogue.position, h.1, hzero, Option.elim_none]
  · rw [Dialogue.position, h.1, Option.elim_some]
    omega

theorem At.browsing {k : Nat} (h : d.At k) : d.Browsing := by
  intro index hindex
  rw [At] at h
  split at h
  · rw [h.1] at hindex
    cases hindex
  · rw [h.1] at hindex
    cases hindex
    obtain ⟨command, hcommand, -⟩ := Option.map_eq_some_iff.mp h.2
    exact (List.getElem?_eq_some_iff.mp hcommand).1

theorem position_le (d : Dialogue) : d.position ≤ d.commands.length := by
  rw [position]
  cases d.historyIndex with
  | none => exact Nat.zero_le _
  | some index => exact Nat.sub_le ..

theorem position_eq_zero_iff (h : d.Browsing) : d.position = 0 ↔ d.historyIndex = none := by
  rw [position]
  cases hindex : d.historyIndex with
  | none => exact iff_of_true rfl rfl
  | some index =>
    have hlt : index < d.commands.length := h index hindex
    rw [Option.elim_some]
    exact iff_of_false (by omega) (by simp)

/-! ### Keys -/

theorem edit_keeps {key : KeyboardEvent} (hkey : IsEdit key)
    (hstep : d.handleKey info key = .ok d') :
    d'.history = d.history ∧ d'.historyIndex = d.historyIndex := by
  cases key with
  | char c =>
    rw [handleKey, if_neg hkey] at hstep
    split at hstep
    · cases hstep
      simp only [withText, Transcript.backspace]
      split <;> exact ⟨rfl, rfl⟩
    · cases hstep
      simp only [withText, Transcript.insertChar]
      split <;> exact ⟨rfl, rfl⟩
  | tab =>
    cases hstep
    refine ⟨autoComplete_history .., ?_⟩
    simp only [withText, Transcript.autoComplete]
    split
    · rfl
    · exact insertChars_historyIndex ..
  | arrowLeft =>
    cases hstep
    exact ⟨rfl, rfl⟩
  | arrowRight =>
    cases hstep
    exact ⟨rfl, rfl⟩
  | ctrlC => exact hkey.elim
  | zoomIn => exact hkey.elim
  | zoomOut => exact hkey.elim
  | arrowUp => exact hkey.elim
  | arrowDown => exact hkey.elim
  | ctrlL => exact hkey.elim

theorem olderIndex_eq (h : d.Browsing) (hsome : d.commands ≠ []) :
    Transcript.olderIndex d.commands.length d.historyIndex =
      d.commands.length - min (d.position + 1) d.commands.length := by
  have hpos : 0 < d.commands.length := List.length_pos_iff.mpr hsome
  rw [position]
  cases hindex : d.historyIndex with
  | none =>
    simp only [Transcript.olderIndex, Option.elim_none]
    omega
  | some index =>
    have hlt : index < d.commands.length := h index hindex
    simp only [Transcript.olderIndex, Option.elim_some]
    omega

theorem arrowUp_step (info : SystemInfo) (h : d.Browsing) : ∃ d', d.handleKey info .arrowUp = .ok d' ∧
    d'.history = d.history ∧ (d.commands = [] → d' = d) ∧
    (d.commands ≠ [] → d'.At (min (d.position + 1) d.commands.length) ∧
      PROMPT <+: d'.currentLine) := by
  rw [handleKey, Transcript.arrowUp]
  by_cases hempty : d.commands = []
  · have hnone : commandHistory d.history = [] := hempty
    simp only [if_pos hnone]
    exact ⟨d, rfl, rfl, fun _ => rfl, fun hsome => absurd hempty hsome⟩
  · have hsome : commandHistory d.history ≠ [] := hempty
    have hpos : 0 < d.commands.length := List.length_pos_iff.mpr hempty
    have hindex : Transcript.olderIndex (commandHistory d.history).length d.historyIndex =
        d.commands.length - min (d.position + 1) d.commands.length := olderIndex_eq h hempty
    have hcommand : (commandHistory d.history)[d.commands.length -
        min (d.position + 1) d.commands.length]? = some _ :=
      List.getElem?_eq_getElem (show _ < d.commands.length by omega)
    simp only [if_neg hsome, hindex, hcommand]
    refine ⟨_, rfl, rfl, fun hnone => absurd hnone hempty, fun _ => ?_⟩
    rw [At, if_neg (by omega)]
    exact ⟨⟨rfl, congrArg (Option.map trimPrompts) hcommand⟩, List.prefix_append ..⟩

/-- ArrowDown goes one entry towards the newest, and behind it to an empty line. -/
theorem arrowDown_step (info : SystemInfo) (h : d.Browsing) :
    ∃ d', d.handleKey info .arrowDown = .ok d' ∧ d'.history = d.history ∧
      (d.position = 0 → d' = d) ∧
      (0 < d.position → d'.At (d.position - 1) ∧ PROMPT <+: d'.currentLine) := by
  rw [handleKey, Transcript.arrowDown]
  cases hindex : d.historyIndex with
  | none =>
    have hzero : d.position = 0 := (position_eq_zero_iff h).mpr hindex
    exact ⟨d, rfl, rfl, fun _ => rfl, fun hpos => absurd hzero (Nat.ne_of_gt hpos)⟩
  | some index =>
    have hlt : index < d.commands.length := h index hindex
    have hposition : d.position = d.commands.length - index := by
      rw [position, hindex, Option.elim_some]
    have hsome : commandHistory d.history ≠ [] := List.length_pos_iff.mp (Nat.zero_lt_of_lt hlt)
    simp only [if_neg hsome]
    refine ⟨_, rfl, ?_, fun hzero => by omega, fun _ => ?_⟩
    · split <;> rfl
    · rw [hposition]
      by_cases hnewer : index + 1 < d.commands.length
      · have hcommand : (commandHistory d.history)[index + 1]? = some _ :=
          List.getElem?_eq_getElem hnewer
        have hback : d.commands.length - (d.commands.length - index - 1) = index + 1 := by omega
        simp only [hcommand]
        rw [At, if_neg (by omega)]
        have hentry : d.commands[d.commands.length - (d.commands.length - index - 1)]?.map
            trimPrompts = some (trimPrompts d.commands[index + 1]) := by
          rw [hback]
          exact congrArg (Option.map trimPrompts) hcommand
        exact ⟨⟨congrArg some hback.symm, hentry⟩, List.prefix_append ..⟩
      · have hnone : (commandHistory d.history)[index + 1]? = none :=
          List.getElem?_eq_none (Nat.not_lt.mp hnewer)
        simp only [hnone]
        rw [At, if_pos (by omega)]
        exact ⟨⟨rfl, rfl⟩, List.prefix_append ..⟩

/-! ### Sequences of keys -/

def Keyed (input : KeyboardEvent × SystemInfo) (d d' : Dialogue) : Prop :=
  d.handleKey input.2 input.1 = .ok d'

theorem exists_keys (font : Font) {inputs : List (KeyboardEvent × SystemInfo)} {s : Session}
    (h : Trace Keyed inputs s.dialogue d') :
    ∃ s', Trace (KeyMove font) inputs s s' ∧ s'.dialogue = d' := by
  have hsimulates : Simulates Keyed (KeyMove font) fun d s => s.dialogue = d := by
    rintro input d d' s rfl hstep
    exact KeyMove.exists_of_key font hstep
  exact hsimulates.trace rfl h

theorem commands_congr (h : d'.history = d.history) : d'.commands = d.commands :=
  congrArg commandHistory h

theorem edit_position {input : KeyboardEvent × SystemInfo} (hkey : IsEdit input.1)
    (hstep : Keyed input d d') (h : d.Browsing) :
    d'.Browsing ∧ d'.history = d.history ∧ d'.position = d.position := by
  obtain ⟨hhistory, hindex⟩ := edit_keeps hkey hstep
  refine ⟨?_, hhistory, ?_⟩
  · rw [Transcript.Browsing, hhistory, hindex]
    exact h
  · rw [position, position, hindex, commands_congr hhistory]

theorem presses_cons (key : KeyboardEvent) (input : KeyboardEvent × SystemInfo)
    (inputs : List (KeyboardEvent × SystemInfo)) : presses key (input :: inputs) =
      presses key inputs + if input.1 = key then 1 else 0 := by
  simp [presses, List.countP_cons]

theorem isEdit_ne {key key' : KeyboardEvent} (h : IsEdit key) (h' : ¬ IsEdit key') : key ≠ key' :=
  fun heq => h' (heq ▸ h)

/-- Each ArrowUp counts until the oldest entry is shown. -/
theorem ups_position {inputs : List (KeyboardEvent × SystemInfo)}
    (hinputs : ∀ input ∈ inputs, IsEdit input.1 ∨ input.1 = .arrowUp)
    (htrace : Trace Keyed inputs d d') (h : d.Browsing) : d'.Browsing ∧ d'.history = d.history ∧
      d'.position = min (d.position + presses .arrowUp inputs) d.commands.length := by
  induction inputs generalizing d with
  | nil =>
    cases htrace
    exact ⟨h, rfl, (Nat.min_eq_left (position_le _)).symm⟩
  | cons input inputs ih =>
    obtain ⟨d₁, hstep, hrest⟩ := htrace
    rw [List.forall_mem_cons] at hinputs
    rw [presses_cons]
    cases hinputs.1 with
    | inl hedit =>
      obtain ⟨hbrowsing, hhistory, hposition⟩ := edit_position hedit hstep h
      obtain ⟨hbrowsing', hhistory', hposition'⟩ := ih hinputs.2 hrest hbrowsing
      rw [commands_congr hhistory, hposition] at hposition'
      rw [if_neg (isEdit_ne hedit id)]
      exact ⟨hbrowsing', hhistory'.trans hhistory, hposition'⟩
    | inr hup =>
      obtain ⟨d₂, hup', hhistory, hnone, hsome⟩ := arrowUp_step input.2 h
      rw [Keyed, hup, hup'] at hstep
      cases hstep
      rw [if_pos hup]
      by_cases hempty : d.commands = []
      · rw [hnone hempty] at hrest
        obtain ⟨hbrowsing', hhistory', hposition'⟩ := ih hinputs.2 hrest h
        refine ⟨hbrowsing', hhistory', hposition'.trans ?_⟩
        rw [hempty, List.length_nil, Nat.min_zero, Nat.min_zero]
      · obtain ⟨hat, -⟩ := hsome hempty
        obtain ⟨hbrowsing', hhistory', hposition'⟩ := ih hinputs.2 hrest hat.browsing
        have hcommands := commands_congr hhistory
        have hposition := hat.position (by rw [hcommands]; exact Nat.min_le_right ..)
        refine ⟨hbrowsing', hhistory'.trans hhistory, ?_⟩
        rw [hposition', hposition, hcommands]
        omega

theorem downs_position {inputs : List (KeyboardEvent × SystemInfo)}
    (hinputs : ∀ input ∈ inputs, IsEdit input.1 ∨ input.1 = .arrowDown)
    (htrace : Trace Keyed inputs d d') (h : d.Browsing) : d'.Browsing ∧ d'.history = d.history ∧
      d'.position = d.position - presses .arrowDown inputs := by
  induction inputs generalizing d with
  | nil =>
    cases htrace
    exact ⟨h, rfl, rfl⟩
  | cons input inputs ih =>
    obtain ⟨d₁, hstep, hrest⟩ := htrace
    rw [List.forall_mem_cons] at hinputs
    rw [presses_cons]
    cases hinputs.1 with
    | inl hedit =>
      obtain ⟨hbrowsing, hhistory, hposition⟩ := edit_position hedit hstep h
      obtain ⟨hbrowsing', hhistory', hposition'⟩ := ih hinputs.2 hrest hbrowsing
      rw [hposition] at hposition'
      rw [if_neg (isEdit_ne hedit id)]
      exact ⟨hbrowsing', hhistory'.trans hhistory, hposition'⟩
    | inr hdown =>
      obtain ⟨d₂, hdown', hhistory, hnone, hsome⟩ := arrowDown_step input.2 h
      rw [Keyed, hdown, hdown'] at hstep
      cases hstep
      rw [if_pos hdown]
      cases Nat.eq_zero_or_pos d.position with
      | inl hzero =>
        rw [hnone hzero] at hrest
        obtain ⟨hbrowsing', hhistory', hposition'⟩ := ih hinputs.2 hrest h
        refine ⟨hbrowsing', hhistory', ?_⟩
        omega
      | inr hpos =>
        obtain ⟨hat, -⟩ := hsome hpos
        obtain ⟨hbrowsing', hhistory', hposition'⟩ := ih hinputs.2 hrest hat.browsing
        have hposition := hat.position (by
          have hle := position_le d
          rw [commands_congr hhistory]
          omega)
        refine ⟨hbrowsing', hhistory'.trans hhistory, ?_⟩
        omega

end Dialogue

/-! ### The law of browsing -/

/-- From here on, the arrows go back from the newest entry, towards the oldest and no further,
and forth to the newest and an empty line; no press panics. -/
def BrowsesFromNewest (font : Font) (s : Session) : Prop :=
  let count := (commandHistory s.writer.history).length
  ∀ ups downs s₁ s₂ info,
    (∀ input ∈ ups, IsEdit input.1 ∨ input.1 = .arrowUp) →
    (∀ input ∈ downs, IsEdit input.1 ∨ input.1 = .arrowDown) →
    Trace (KeyMove font) ups s s₁ → Trace (KeyMove font) downs s₁ s₂ →
    let u := presses .arrowUp ups
    let n := presses .arrowDown downs
    (∃ t, KeyMove font (.arrowUp, info) s₁ t ∧ (0 < count → t.dialogue.At (min (u + 1) count))) ∧
    (∃ t, KeyMove font (.arrowDown, info) s₂ t ∧
      (n < min u count → t.dialogue.At (min u count - (n + 1))))

/-- Browsing starts from the newest entry where none is shown, or there is only one. -/
theorem browsesFromNewest_iff (font : Font) {s : Session} (h : s.dialogue.Browsing) :
    BrowsesFromNewest font s ↔
      s.writer.historyIndex = none ∨ (commandHistory s.writer.history).length ≤ 1 := by
  have hposition : s.dialogue.position = 0 ↔ s.writer.historyIndex = none :=
    Dialogue.position_eq_zero_iff h
  have hle : s.dialogue.position ≤ (commandHistory s.writer.history).length := s.dialogue.position_le
  constructor
  · intro hlaw
    obtain ⟨⟨t, hmove, hat⟩, -⟩ := hlaw [] [] s s idleSystem (by simp) (by simp) .nil .nil
    obtain ⟨d', hup, hhistory, -, hsome⟩ := Dialogue.arrowUp_step idleSystem h
    have hsame : t.dialogue = d' := Except.ok.inj (hmove.dialogue.symm.trans hup)
    rw [← hposition]
    by_contra hneither
    have hmany : s.dialogue.commands ≠ [] := List.length_pos_iff.mp
      (show 0 < (commandHistory s.writer.history).length by omega)
    have hcount : d'.commands.length = (commandHistory s.writer.history).length :=
      congrArg List.length (Dialogue.commands_congr hhistory)
    have hactual := (hsome hmany).1.position (by rw [hcount]; exact Nat.min_le_right ..)
    have hclaimed := (hat (by omega)).position (by rw [hsame, hcount]; exact Nat.min_le_right ..)
    have hlength : s.dialogue.commands.length = (commandHistory s.writer.history).length := rfl
    rw [hsame, hactual, hlength] at hclaimed
    simp only [presses, List.countP_nil] at hclaimed
    omega
  · intro hcase ups downs s₁ s₂ info hups hdowns hfirst hsecond u n
    let count := (commandHistory s.writer.history).length
    have hstart : ∀ u, 0 < u → min (s.dialogue.position + u) count = min u count := by
      intro u hu
      cases hcase with
      | inl hnone => rw [hposition.mpr hnone, Nat.zero_add]
      | inr hone =>
        have hcount : count ≤ 1 := hone
        omega
    have hup := Dialogue.ups_position hups
      (hfirst.project Session.dialogue fun _ _ _ => KeyMove.dialogue) h
    have hdown := Dialogue.downs_position hdowns
      (hsecond.project Session.dialogue fun _ _ _ => KeyMove.dialogue) hup.1
    have hcommands : s₁.dialogue.commands = s.dialogue.commands := Dialogue.commands_congr hup.2.1
    have hposition₁ : s₁.dialogue.position = min (s.dialogue.position + u) count := hup.2.2
    constructor
    · obtain ⟨d', hmove, -, -, hsome⟩ := Dialogue.arrowUp_step info hup.1
      obtain ⟨t, ht, rfl⟩ := KeyMove.exists_of_key font hmove
      refine ⟨t, ht, fun hpos => ?_⟩
      have hat := (hsome (hcommands ▸ List.length_pos_iff.mp hpos)).1
      have hgoal : min (s₁.dialogue.position + 1) s₁.dialogue.commands.length =
          min (u + 1) count := by
        rw [hcommands, hposition₁, ← hstart (u + 1) (Nat.succ_pos u)]
        change min (_ + 1) count = _
        omega
      rwa [hgoal] at hat
    · obtain ⟨d', hmove, -, -, hpos⟩ := Dialogue.arrowDown_step info hdown.1
      obtain ⟨t, ht, rfl⟩ := KeyMove.exists_of_key font hmove
      refine ⟨t, ht, fun hn => ?_⟩
      have hposition₂ : s₂.dialogue.position = min u count - n := by
        rw [hdown.2.2, hposition₁, hstart u (by omega)]
      have hat := (hpos (by omega)).1
      rwa [hposition₂, Nat.sub_sub] at hat

/-! ### Sessions -/

namespace Dialogue
variable {info : SystemInfo} {d d' : Dialogue}

def Recalling (d : Dialogue) : Prop :=
  ∀ index ∈ d.historyIndex, index < d.commands.length ∧
    (PROMPT <+: d.currentLine ∨ 1 < d.commands.length)

theorem Recalling.grow (h : d.Recalling) (hhistory : d.history <+: d'.history)
    (hindex : d'.historyIndex = d.historyIndex ∨ d'.historyIndex = none)
    (hshown : PROMPT <+: d.currentLine →
      PROMPT <+: d'.currentLine ∨ d.commands.length < d'.commands.length) : d'.Recalling := by
  intro index hmem
  have hle : d.commands.length ≤ d'.commands.length :=
    (Transcript.commandHistory_mono hhistory).length_le
  cases hindex with
  | inr hnone =>
    rw [hnone] at hmem
    cases hmem
  | inl hsame =>
    obtain ⟨hlt, hline⟩ := h index (hsame ▸ hmem)
    refine ⟨hlt.trans_le hle, ?_⟩
    cases hline with
    | inr hmany => exact .inr (hmany.trans_le hle)
    | inl hprompt =>
      cases hshown hprompt with
      | inl hstill => exact .inl hstill
      | inr hmore => exact .inr (by omega)

theorem edit_shown {key : KeyboardEvent} (hkey : IsEdit key)
    (hstep : d.handleKey info key = .ok d') (h : PROMPT <+: d.currentLine) :
    PROMPT <+: d'.currentLine := by
  cases key with
  | char c =>
    rw [handleKey, if_neg hkey] at hstep
    split at hstep
    · cases hstep
      simp only [withText, Transcript.backspace]
      split
      · exact h
      · exact List.prefix_append ..
    · cases hstep
      exact Transcript.insertChars_prompted h d.line [c]
  | tab =>
    cases hstep
    simp only [withText, Transcript.autoComplete]
    split
    · exact h
    · exact Transcript.insertChars_prompted h ..
  | arrowLeft =>
    cases hstep
    exact List.prefix_append ..
  | arrowRight =>
    cases hstep
    exact List.prefix_append ..
  | ctrlC => exact hkey.elim
  | zoomIn => exact hkey.elim
  | zoomOut => exact hkey.elim
  | arrowUp => exact hkey.elim
  | arrowDown => exact hkey.elim
  | ctrlL => exact hkey.elim

theorem Recalling.browsing (h : d.Recalling) : d.Browsing := fun index hindex => (h index hindex).1

theorem Recalling.edit (h : d.Recalling) {key : KeyboardEvent} (hkey : IsEdit key)
    (hstep : d.handleKey info key = .ok d') : d'.Recalling := by
  obtain ⟨hhistory, hindex⟩ := edit_keeps hkey hstep
  exact h.grow (hhistory ▸ List.prefix_rfl) (.inl hindex) fun hshown =>
    .inl (edit_shown hkey hstep hshown)

theorem recalling_of_shown (h : d.Browsing) (hshown : PROMPT <+: d.currentLine) : d.Recalling :=
  fun index hindex => ⟨h index hindex, .inl hshown⟩

def Resets (d : Dialogue) (key : KeyboardEvent) : Prop :=
  key = .ctrlL ∨ key = .char '\n' ∧ (parse d.line).command = .clear

/-- A submission leaves a fresh prompt; it resets, or records the line. -/
theorem submission_step {key : KeyboardEvent} (hkey : IsSubmission key)
    (hstep : d.handleKey info key = .ok d') : d'.currentLine = PROMPT ∧ d.history <+: d'.history ∧
      (d.Resets key → d'.historyIndex = none) ∧
      (¬ d.Resets key → d'.historyIndex = d.historyIndex ∧
        (PROMPT <+: d.currentLine → d.commands.length < d'.commands.length)) := by
  cases key with
  | char c =>
    have hnewline : c = '\n' := hkey
    subst hnewline
    obtain ⟨t, hrun, hprompt⟩ := Attempt.exists_of_bind_eq_ok hstep
    cases hprompt
    obtain ⟨hline, hhistory, -⟩ := (Transcript.runCommand_safe info d.line rfl).of_ok hrun
    have hindex := Transcript.runCommand_historyIndex rfl hrun
    have hrecorded : d.newline.history <+: t.history := hhistory ▸ List.prefix_append ..
    rw [prompted_eq hline]
    refine ⟨rfl, (List.prefix_append ..).trans hrecorded, fun hreset => ?_, fun hreset => ?_⟩
    · cases hreset with
      | inl h => cases h
      | inr h => exact hindex.trans (if_pos h.2)
    · have hkept : (parse d.line).command ≠ .clear := fun h => hreset (.inr ⟨rfl, h⟩)
      exact ⟨hindex.trans (if_neg hkept), fun hshown => (Transcript.newline_commands hshown).trans_le
        (Transcript.commandHistory_mono hrecorded).length_le⟩
  | ctrlC =>
    cases hstep
    rw [cancel_eq, prompted_eq rfl]
    refine ⟨rfl, List.prefix_append .., fun hreset => ?_, fun _ => ⟨rfl, fun hshown => ?_⟩⟩
    · simp [Resets] at hreset
    · have hmarked : PROMPT <+: d.currentLine ++ "^C".toList :=
        hshown.trans (List.prefix_append ..)
      exact Transcript.newline_commands (t := { d.toTranscript with
        currentLine := d.currentLine ++ "^C".toList }) hmarked
  | ctrlL =>
    cases hstep
    have hprint := Transcript.print_of_flat d.cleared (by decide : '\n' ∉ PROMPT)
    simp only [withText, hprint]
    exact ⟨rfl, List.prefix_rfl, fun _ => rfl, fun hreset => absurd (.inl rfl) hreset⟩
  | zoomIn => exact hkey.elim
  | zoomOut => exact hkey.elim
  | arrowUp => exact hkey.elim
  | arrowDown => exact hkey.elim
  | arrowLeft => exact hkey.elim
  | arrowRight => exact hkey.elim
  | tab => exact hkey.elim

theorem Recalling.submission (h : d.Recalling) {key : KeyboardEvent} (hkey : IsSubmission key)
    (hstep : d.handleKey info key = .ok d') : d'.Recalling := by
  obtain ⟨hline, hhistory, hreset, hkept⟩ := submission_step hkey hstep
  refine h.grow hhistory ?_ fun _ => .inl (hline ▸ List.prefix_rfl)
  by_cases hresets : d.Resets key
  · exact .inr (hreset hresets)
  · exact .inl (hkept hresets).1

theorem Recalling.zoom (h : d.Recalling) : Recalling (d.withText (d.zoom d.line, d.line)) := by
  let blank : Transcript := { d.toTranscript with currentLine := PROMPT }
  have hzoom : d.zoom d.line = blank.print d.line := rfl
  obtain ⟨hhistory, hindex⟩ := blank.print_history d.line
  have hshown := Transcript.print_prompted (t := blank) List.prefix_rfl d.line
  refine h.grow ?_ (.inl hindex) fun _ => hshown
  exact hhistory

theorem handleKey_recalling (h : d.Recalling) (info : SystemInfo) (key : KeyboardEvent) :
    Safe Recalling (d.handleKey info key) := by
  cases key with
  | char c =>
    by_cases hnewline : c = '\n'
    · have hsafe : Safe (fun _ => True) (d.handleKey info (.char c)) := by
        rw [handleKey, if_pos hnewline]
        exact (Transcript.runCommand_safe info d.line rfl).bind fun _ _ => trivial
      exact hsafe.of_forall_ok fun d' hstep => h.submission (show IsSubmission (.char c) from hnewline) hstep
    · have hsafe : Safe (fun _ => True) (d.handleKey info (.char c)) := by
        rw [handleKey, if_neg hnewline]
        split <;> trivial
      exact hsafe.of_forall_ok fun d' hstep => h.edit (show IsEdit (.char c) from hnewline) hstep
  | ctrlC => exact h.submission (show IsSubmission .ctrlC from trivial) (show d.handleKey info .ctrlC = _ from rfl)
  | ctrlL => exact h.submission (show IsSubmission .ctrlL from trivial) (show d.handleKey info .ctrlL = _ from rfl)
  | zoomIn => exact h.zoom
  | zoomOut => exact h.zoom
  | arrowLeft => exact h.edit (show IsEdit .arrowLeft from trivial) (show d.handleKey info .arrowLeft = _ from rfl)
  | arrowRight => exact h.edit (show IsEdit .arrowRight from trivial) (show d.handleKey info .arrowRight = _ from rfl)
  | tab => exact h.edit (show IsEdit .tab from trivial) (show d.handleKey info .tab = _ from rfl)
  | arrowUp =>
    obtain ⟨d', hstep, -, hnone, hsome⟩ := arrowUp_step info h.browsing
    rw [hstep]
    by_cases hempty : d.commands = []
    · exact hnone hempty ▸ h
    · exact recalling_of_shown (hsome hempty).1.browsing (hsome hempty).2
  | arrowDown =>
    obtain ⟨d', hstep, -, hnone, hsome⟩ := arrowDown_step info h.browsing
    rw [hstep]
    cases Nat.eq_zero_or_pos d.position with
    | inl hzero => exact hnone hzero ▸ h
    | inr hpos => exact recalling_of_shown (hsome hpos).1.browsing (hsome hpos).2

theorem output_recalling (h : d.Recalling) (text : Text) : (d.output text).Recalling := by
  obtain ⟨hhistory, hindex⟩ := d.print_history text
  have hnewline : (d.print text).history <+: (d.output text).history := List.prefix_append ..
  exact h.grow (hhistory.trans hnewline) (.inl hindex) fun hshown =>
    .inr (output_commands hshown text)

theorem step_recalling (h : d.Recalling) (event : ShellEvent) : Safe Recalling (d.step event) := by
  cases event with
  | key key info => exact handleKey_recalling h info key
  | output text => exact output_recalling h text

theorem init_recalling (greetings : List Notice) : (Dialogue.init greetings).Recalling := by
  rw [Dialogue.init_eq]
  intro index hindex
  cases hindex

end Dialogue

theorem Session.run_recalling {font : Font} {fb : Framebuffer} {greetings : List Notice}
    {s : Session} (hinit : Session.init font fb greetings = .ok s) (events : List ShellEvent) :
    Safe (fun s => s.dialogue.Recalling) (s.run font events) := by
  have hrun : Safe Dialogue.Recalling (s.dialogue.run events) :=
    Safe.foldlM (fun d event hd => Dialogue.step_recalling hd event)
      (Session.dialogue_of_init hinit ▸ Dialogue.init_recalling greetings) events
  rw [← Session.run_dialogue font] at hrun
  exact hrun.of_map

/-- The index of the shown entry is in bounds throughout a session, which does not panic; after
a submission the arrows start from the newest entry exactly if none was shown before it, or it
was Ctrl+L or ran `clear`. -/
theorem browsing_starts_newest_iff {font : Font} {fb : Framebuffer} {greetings : List Notice}
    {s : Session} (hinit : Session.init font fb greetings = .ok s) (events : List ShellEvent) :
    Safe (fun s =>
      (∀ index ∈ s.writer.historyIndex, index < (commandHistory s.writer.history).length) ∧
      ∀ key info s', IsSubmission key → KeyMove font (key, info) s s' →
        (BrowsesFromNewest font s' ↔
          s.writer.historyIndex = none ∨ s.dialogue.Resets key)) (s.run font events) := by
  refine (Session.run_recalling hinit events).mono fun s hs => ⟨hs.browsing, ?_⟩
  intro key info s' hkey hmove
  have hstep := hmove.dialogue
  obtain ⟨-, hhistory, hreset, hkept⟩ := Dialogue.submission_step hkey hstep
  have hbrowsing := (hs.submission hkey hstep).browsing
  rw [browsesFromNewest_iff font hbrowsing]
  by_cases hresets : s.dialogue.Resets key
  · exact iff_of_true (.inl (hreset hresets)) (.inr hresets)
  · obtain ⟨hindex, hrecorded⟩ := hkept hresets
    have hsame : s'.writer.historyIndex = s.writer.historyIndex := hindex
    rw [or_iff_left hresets, hsame]
    refine ⟨fun hcase => ?_, .inl⟩
    by_contra hsome
    obtain ⟨index, hsome⟩ := Option.ne_none_iff_exists'.mp hsome
    obtain ⟨hlt, hshown⟩ := hs index hsome
    have hle : s.dialogue.commands.length ≤ s'.dialogue.commands.length :=
      (Transcript.commandHistory_mono hhistory).length_le
    have hcount : s'.dialogue.commands.length ≤ 1 := hcase.resolve_left (by simp [hsome])
    cases hshown with
    | inl hprompt =>
      have hmore := hrecorded hprompt
      omega
    | inr hmany => omega

def recalledOnce : List ShellEvent :=
  [.char 'a', .char '\n', .char 'b', .char '\n', .arrowUp].map fun key => .key key idleSystem

/-- "a" and "b" are entered and "b" is recalled: whether a submission starts anew turns on the
key. -/
theorem browsing_starts_newest_recalled : ∃ s t, Session.init blankFont smallDisplay [] = .ok s ∧
    s.run blankFont recalledOnce = .ok t ∧ t.writer.historyIndex = some 1 ∧
    Safe (fun s =>
      (∀ index ∈ s.writer.historyIndex, index < (commandHistory s.writer.history).length) ∧
      ∀ key info s', IsSubmission key → KeyMove blankFont (key, info) s s' →
        (BrowsesFromNewest blankFont s' ↔
          s.writer.historyIndex = none ∨ s.dialogue.Resets key)) (s.run blankFont recalledOnce) := by
  obtain ⟨s, hinit, hdialogue⟩ := Session.init_ok blankFont smallDisplay []
  obtain ⟨d, hd, hindex⟩ : ∃ d, s.dialogue.run recalledOnce = .ok d ∧ d.historyIndex = some 1 := by
    rw [hdialogue]
    exact ⟨_, rfl, rfl⟩
  obtain ⟨t, hrun, rfl⟩ := Session.exists_run blankFont hd
  exact ⟨s, t, hinit, hrun, hindex, browsing_starts_newest_iff hinit recalledOnce⟩

/-- "a" and "b" are entered, "b" is recalled and entered again: the next ArrowUp recalls "a". -/
theorem browsing_goes_on : ∃ s s' t, Session.init blankFont smallDisplay [] = .ok s ∧
    Trace (KeyMove blankFont) ([.char 'a', .char '\n', .char 'b', .char '\n', .arrowUp,
      .char '\n'].map fun key => (key, idleSystem)) s s' ∧
    KeyMove blankFont (.arrowUp, idleSystem) s' t ∧ t.line = ['a'] ∧
    (commandHistory s'.writer.history).getLast? = some "> b".toList ∧
    ¬ BrowsesFromNewest blankFont s' := by
  obtain ⟨s, hinit, hdialogue⟩ := Session.init_ok blankFont smallDisplay []
  have htexts : ∃ d', Trace Dialogue.Keyed ([.char 'a', .char '\n', .char 'b', .char '\n',
        .arrowUp, .char '\n'].map fun key => (key, idleSystem)) (Dialogue.init []) d' ∧
      d'.historyIndex = some 1 ∧
      commandHistory d'.history = ["> a".toList, "> b".toList, "> b".toList] ∧
      ∃ d'', d'.handleKey idleSystem .arrowUp = .ok d'' ∧ d''.line = ['a'] := by
    refine ⟨_, ⟨_, rfl, _, rfl, _, rfl, _, rfl, _, rfl, _, rfl, rfl⟩, rfl, ?_, _, rfl, rfl⟩
    decide +kernel
  obtain ⟨d', htrace, hindex, hcommands, d'', hup, hline⟩ := htexts
  rw [← hdialogue] at htrace
  obtain ⟨s', hkeys, rfl⟩ := Dialogue.exists_keys blankFont htrace
  obtain ⟨t, hmove, rfl⟩ := KeyMove.exists_of_key blankFont hup
  have hlist : commandHistory s'.writer.history = ["> a".toList, "> b".toList, "> b".toList] :=
    hcommands
  have hshown : s'.writer.historyIndex = some 1 := hindex
  have hbrowsing : s'.dialogue.Browsing := by
    intro index hmem
    have hone : index = 1 := Option.some.inj (hmem.symm.trans hindex)
    rw [hcommands, hone]
    decide
  refine ⟨s, s', t, hinit, hkeys, hmove, hline, by rw [hlist]; rfl, ?_⟩
  rw [browsesFromNewest_iff blankFont hbrowsing, hshown, hlist]
  decide

end AgnostOS.Shell
