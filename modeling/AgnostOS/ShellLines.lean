import AgnostOS.Library.Split
import AgnostOS.ShellText

/-! The lines that printing completes, and what every prompt finds in the transcript. -/
namespace AgnostOS.Console
open Globals Graphics Commands

/-! ### No panic -/

/-- The kernel goes on with `P`, or shuts down; it does not panic. -/
def Safe {α : Type} (P : α → Prop) : Kernel α → Prop
  | .ok a => P a
  | .error stop => stop = .shutdown

namespace Safe
variable {α β : Type} {P : α → Prop} {Q : β → Prop} {x : Kernel α}

theorem mono {P' : α → Prop} (h : Safe P x) (hP : ∀ a, P a → P' a) : Safe P' x := by
  cases x with
  | error stop => exact h
  | ok a => exact hP a h

theorem bind {f : α → Kernel β} (h : Safe P x) (hf : ∀ a, P a → Safe Q (f a)) :
    Safe Q (x >>= f) := by
  cases x with
  | error stop => exact h
  | ok a => exact hf a h

theorem of_ok {a : α} (h : Safe P x) (hx : x = .ok a) : P a := by
  subst hx
  exact h

theorem of_map {f : α → β} (h : Safe Q (x.map f)) : Safe (fun a => Q (f a)) x := by
  cases x with
  | error stop => exact h
  | ok a => exact h

theorem foldlM {f : α → β → Kernel α} (hf : ∀ a b, P a → Safe P (f a b)) {a : α} (ha : P a)
    (events : List β) : Safe P (events.foldlM f a) := by
  induction events generalizing a with
  | nil => exact ha
  | cons b events ih =>
    rw [List.foldlM_cons]
    exact (hf a b ha).bind fun a' ha' => ih ha'

end Safe

namespace Transcript
variable {t : Transcript}

/-! ### Completed lines -/

theorem println_eq (t : Transcript) (text : Text) : t.println text =
    { t with
      history := t.history ++ (text.splitOn '\n').modifyHead (t.currentLine ++ ·)
      currentLine := [] } := by
  induction text generalizing t with
  | nil => simp [println, print, newline]
  | cons ch text ih =>
    have hrest : t.println (ch :: text) = _ := ih (t.put ch)
    rw [hrest, put, List.splitOn_cons_eq_if_modifyHead]
    cases hparts : text.splitOn '\n' with
    | nil => exact absurd hparts (List.splitOn_ne_nil '\n' text)
    | cons first rest => by_cases hch : ch = '\n' <;> simp [hch, newline]

def completes (t : Transcript) (text : Text) : List Text :=
  (text.splitOn '\n').modifyHead (t.currentLine ++ ·)

theorem println_history (t : Transcript) (text : Text) :
    (t.println text).history = t.history ++ t.completes text := by
  rw [println_eq, completes]

theorem println_of_flat (t : Transcript) {text : Text} (h : '\n' ∉ text) : t.println text =
    { t with history := t.history ++ [t.currentLine ++ text], currentLine := [] } := by
  rw [println_eq, List.splitOn_eq_singleton h]
  rfl

theorem println_of_empty (text : Text) (h : t.currentLine = []) :
    t.println text = { t with history := t.history ++ text.splitOn '\n' } := by
  cases hparts : text.splitOn '\n' with
  | nil => exact absurd hparts (List.splitOn_ne_nil '\n' text)
  | cons first rest =>
    rw [println_eq, hparts, h]
    simp [← h]

theorem printLines_of_empty (lines : List Text) (h : t.currentLine = []) :
    t.printLines lines = { t with history := t.history ++ lines.flatMap (·.splitOn '\n') } := by
  induction lines generalizing t with
  | nil => simp [printLines]
  | cons text lines ih =>
    have hrest := ih (t := t.println text) (by rw [println_of_empty text h]; exact h)
    rw [printLines, List.foldl_cons]
    rw [printLines] at hrest
    rw [hrest, println_of_empty text h]
    simp

def screenLines (info : SystemInfo) (command : Text) : List Text :=
  (responses info (parse command)).flatMap (·.splitOn '\n')

theorem screenLines_flat {info : SystemInfo} {command line : Text}
    (h : line ∈ screenLines info command) : '\n' ∉ line := by
  intro hmem
  obtain ⟨text, _, hline⟩ := List.mem_flatMap.mp h
  rw [List.splitOn_eq_splitOnP] at hline
  exact absurd (Split.not_separator hline _ hmem) (by simp)

/-- A command adds its output to the history; only `clear` stops the browsing. -/
theorem runCommand_safe (info : SystemInfo) (command : Text) (h : t.currentLine = []) :
    Safe (fun t' => t'.currentLine = [] ∧ t'.history = t.history ++ screenLines info command ∧
      (t'.historyIndex = t.historyIndex ∨ t'.historyIndex = none))
      (t.runCommand info command) := by
  have hprint : Safe (fun t' => t'.currentLine = [] ∧
      t'.history = t.history ++ screenLines info command ∧
      (t'.historyIndex = t.historyIndex ∨ t'.historyIndex = none))
      (pure (t.printLines (responses info (parse command)))) := by
    rw [printLines_of_empty _ h]
    exact ⟨h, rfl, .inl rfl⟩
  rw [runCommand]
  cases hcommand : (parse command).command with
  | clear => exact ⟨rfl, by simp [screenLines, responses, hcommand, cleared], .inr rfl⟩
  | shutdown => rfl
  | _ => exact hprint

/-! ### Browsing -/

def Browsing (t : Transcript) : Prop :=
  ∀ index ∈ t.historyIndex, index < (commandHistory t.history).length

theorem commandHistory_append (history more : List Text) : commandHistory (history ++ more) =
    commandHistory history ++ commandHistory more := List.filter_append ..

theorem commandHistory_mono {history history' : List Text} (h : history <+: history') :
    commandHistory history <+: commandHistory history' := h.filter _

theorem Browsing.mono {t' : Transcript} {more : List Text} (h : t.Browsing)
    (hhistory : t'.history = t.history ++ more)
    (hindex : t'.historyIndex = t.historyIndex ∨ t'.historyIndex = none) : t'.Browsing := by
  intro index hmem
  cases hindex with
  | inl hsame =>
    have hlt := h index (hsame ▸ hmem)
    rw [hhistory, commandHistory_append, List.length_append]
    exact Nat.lt_add_right _ hlt
  | inr hnone =>
    rw [hnone] at hmem
    cases hmem

theorem mem_of_mem_commandHistory {history : List Text} {line : Text}
    (h : line ∈ commandHistory history) : line ∈ history := (List.mem_filter.mp h).1

theorem mem_of_mem_trimPrompts {line : Text} {ch : Char} (h : ch ∈ trimPrompts line) :
    ch ∈ line := by
  fun_induction trimPrompts line with
  | case1 rest ih => exact List.mem_cons_of_mem _ (List.mem_cons_of_mem _ (ih h))
  | case2 line => exact h

end Transcript

end AgnostOS.Console
