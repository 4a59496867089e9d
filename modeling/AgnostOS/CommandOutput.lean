import AgnostOS.ShellLines

/-! What commands print: only `echo` can print a line that looks like a prompt. -/
namespace AgnostOS.Console
open Globals Commands

def Unprompted (text : Text) : Prop := ∀ line ∈ text.splitOn '\n', ¬ PROMPT <+: line

instance (text : Text) : Decidable (Unprompted text) :=
  inferInstanceAs (Decidable (∀ line ∈ text.splitOn '\n', ¬ PROMPT <+: line))

/-! ### Numbers -/

theorem digitChar_ne {c : Char} (hc : c = '\n' ∨ c = '>') (n : Nat) : Nat.digitChar n ≠ c := by
  have hdigits : ∀ k < 16, Nat.digitChar k ≠ '\n' ∧ Nat.digitChar k ≠ '>' := by decide
  by_cases hlt : n < 16
  · cases hc with
    | inl h => exact h ▸ (hdigits n hlt).1
    | inr h => exact h ▸ (hdigits n hlt).2
  · have hstar : Nat.digitChar n = '*' := by
      rw [Nat.digitChar]
      iterate 16 rw [if_neg (by omega)]
    rw [hstar]
    cases hc with
    | inl h => exact h ▸ (by decide)
    | inr h => exact h ▸ (by decide)

theorem not_mem_toDigits {c : Char} (hc : c = '\n' ∨ c = '>') (base n : Nat) :
    c ∉ Nat.toDigits base n := by
  have hcore (fuel : Nat) : ∀ n digits, c ∉ digits → c ∉ Nat.toDigitsCore base fuel n digits := by
    induction fuel with
    | zero => exact fun _ _ h => h
    | succ fuel ih =>
      intro n digits h
      have hdigit : c ∉ Nat.digitChar (n % base) :: digits := by
        intro hmem
        cases hmem with
        | head => exact digitChar_ne hc (n % base) rfl
        | tail _ hmem => exact h hmem
      rw [Nat.toDigitsCore]
      split
      · exact hdigit
      · exact ih _ _ hdigit
  exact hcore (n + 1) n [] List.not_mem_nil

theorem decimal_flat (n : Nat) : '\n' ∉ decimal n := not_mem_toDigits (.inl rfl) 10 n

/-! ### Unprompted texts -/

theorem unprompted_of_head {text : Text} (hflat : '\n' ∉ text) (hhead : text.head? ≠ some '>') :
    Unprompted text := by
  intro line hline hprompt
  rw [List.splitOn_eq_singleton hflat, List.mem_singleton] at hline
  obtain ⟨rest, hrest⟩ := hprompt
  rw [hline] at hrest
  rw [← hrest] at hhead
  exact hhead rfl

theorem unprompted_of_heads {texts : List Text}
    (h : ∀ text ∈ texts, '\n' ∉ text ∧ text.head? ≠ some '>') : ∀ text ∈ texts, Unprompted text :=
  fun text hmem => unprompted_of_head (h text hmem).1 (h text hmem).2

theorem unprompted_label {label value : Text} (hlabel : label.head?.any (· ≠ '>'))
    (hflat : '\n' ∉ label) (hvalue : '\n' ∉ value) : Unprompted (label ++ value) := by
  apply unprompted_of_head
  · intro hmem
    cases List.mem_append.mp hmem with
    | inl hmem => exact hflat hmem
    | inr hmem => exact hvalue hmem
  · cases label with
    | nil => exact absurd hlabel (by decide)
    | cons c rest => simpa using hlabel

theorem megabytes_flat (n : Nat) : '\n' ∉ megabytes n := by
  intro hmem
  cases List.mem_append.mp hmem with
  | inl hmem => exact decimal_flat _ hmem
  | inr hmem => exact absurd hmem (by decide)

theorem hexadecimal_flat (n : Nat) : '\n' ∉ hexadecimal n := by
  intro hmem
  cases List.mem_append.mp hmem with
  | inl hmem => exact absurd hmem (by decide)
  | inr hmem => exact not_mem_toDigits (.inl rfl) 16 n hmem

theorem meminfo_unprompted (info : SystemInfo) : ∀ text ∈ meminfo info, Unprompted text := by
  have hmegabytes {label : Text} (hlabel : label.head?.any (· ≠ '>')) (hflat : '\n' ∉ label)
      (n : Nat) : Unprompted (label ++ megabytes n) :=
    unprompted_label hlabel hflat (megabytes_flat n)
  have hdecimal {label : Text} (hlabel : label.head?.any (· ≠ '>')) (hflat : '\n' ∉ label)
      (n : Nat) : Unprompted (label ++ decimal n) :=
    unprompted_label hlabel hflat (decimal_flat n)
  have hstart : Unprompted ("heap start: ".toList ++ hexadecimal info.heapStart) :=
    unprompted_label (by decide) (by decide) (hexadecimal_flat _)
  simp only [meminfo, List.forall_mem_append, List.forall_mem_cons]
  refine ⟨⟨hstart, hmegabytes (by decide) (by decide) _, List.forall_mem_nil _⟩, ?_⟩
  cases info.memory with
  | none => exact List.forall_mem_nil _
  | some figures =>
    simp only [List.forall_mem_append, List.forall_mem_cons]
    constructor
    · and_intros
      any_goals exact hmegabytes (by decide) (by decide) _
      · exact hdecimal (by decide) (by decide) _
      · exact List.forall_mem_nil _
    · cases figures.2 with
      | none => exact List.forall_mem_nil _
      | some frames =>
        simp only [List.forall_mem_cons]
        and_intros
        any_goals exact hdecimal (by decide) (by decide) _
        exact List.forall_mem_nil _

theorem taskinfo_unprompted (info : SystemInfo) : ∀ text ∈ taskinfo info, Unprompted text := by
  have hdecimal {label : Text} (hlabel : label.head?.any (· ≠ '>')) (hflat : '\n' ∉ label)
      (n : Nat) : Unprompted (label ++ decimal n) :=
    unprompted_label hlabel hflat (decimal_flat n)
  have hslots : '\n' ∉ decimal info.tasks.taskCount ++ (" / ".toList ++ decimal MAX_TASKS) := by
    simp [decimal_flat]
  simp only [taskinfo, List.forall_mem_cons, List.append_assoc]
  and_intros
  · exact unprompted_label (by decide) (by decide) hslots
  any_goals exact hdecimal (by decide) (by decide) _
  exact List.forall_mem_nil _

theorem uptime_unprompted (info : SystemInfo) : Unprompted (uptime info) := by
  have hhead : (decimal (info.uptimeMs / 1000 / 3600)).head?.any (· ≠ '>') := by
    have hno : '>' ∉ decimal (info.uptimeMs / 1000 / 3600) := not_mem_toDigits (.inr rfl) 10 _
    cases hdigits : decimal (info.uptimeMs / 1000 / 3600) with
    | nil => exact absurd hdigits Nat.toDigits_ne_nil
    | cons c rest =>
      rw [hdigits] at hno
      have hne : c ≠ '>' := fun heq => hno (heq ▸ List.mem_cons_self)
      simp [hne]
  simp only [uptime, List.append_assoc]
  exact unprompted_label hhead (decimal_flat _) (by simp [decimal_flat])

/-! ### Arguments -/

theorem args_sublist (input : Text) :
    (parse input).args.Sublist (input.splitOnP isWhitespace) :=
  List.filter_sublist.trans ((List.tail_sublist _).trans List.filter_sublist)

theorem arg_flat {input arg : Text} (h : arg ∈ (parse input).args) : '\n' ∉ arg := by
  intro hmem
  have hpart := (args_sublist input).subset h
  exact absurd (Split.not_separator hpart _ hmem) (by decide)

theorem intercalate_flat {parts : List Text} (h : ∀ part ∈ parts, '\n' ∉ part) :
    '\n' ∉ List.intercalate [' '] parts := by
  induction parts with
  | nil => exact List.not_mem_nil
  | cons part parts ih =>
    have hpart := h part List.mem_cons_self
    have hrest := ih fun part' hmem => h part' (List.mem_cons_of_mem part hmem)
    cases parts with
    | nil => rwa [List.intercalate_singleton]
    | cons next parts =>
      rw [List.intercalate_cons_cons]
      simp only [List.mem_append, not_or]
      exact ⟨⟨hpart, by decide⟩, hrest⟩

def echoed (command : Text) : Text := List.intercalate [' '] (parse command).args

theorem echoed_flat (command : Text) : '\n' ∉ echoed command :=
  intercalate_flat fun _ hmem => arg_flat hmem

theorem echoed_length_le (command : Text) : (echoed command).length ≤ command.length :=
  Split.length_intercalate_le (args_sublist command)

/-! ### Commands -/

theorem help_unprompted {args : List Text} (hargs : ∀ arg ∈ args, '\n' ∉ arg) :
    ∀ text ∈ help args, Unprompted text := by
  cases args with
  | nil => exact unprompted_of_heads (by decide +kernel)
  | cons cmd args =>
    have hunknown : Unprompted ("unknown command: ".toList ++ cmd) :=
      unprompted_label (by decide) (by decide) (hargs cmd List.mem_cons_self)
    simp only [help]
    cases (parse cmd).command with
    | unknown => exact List.forall_mem_singleton.mpr hunknown
    | _ =>
      apply unprompted_of_heads
      simp only
      decide +kernel

theorem responses_unprompted {info : SystemInfo} {command : Text}
    (h : (parse command).command ≠ .echo) :
    ∀ text ∈ Transcript.responses info (parse command), Unprompted text := by
  rw [Transcript.responses]
  cases hcommand : (parse command).command with
  | echo => exact absurd hcommand h
  | help => exact help_unprompted fun _ hmem => arg_flat hmem
  | meminfo => exact meminfo_unprompted info
  | taskinfo => exact taskinfo_unprompted info
  | uptime => exact List.forall_mem_singleton.mpr (uptime_unprompted info)
  | font =>
    simp only
    split <;> exact unprompted_of_heads (by decide +kernel)
  | about =>
    simp only
    decide +kernel
  | _ =>
    apply unprompted_of_heads
    simp only
    decide +kernel

def EchoesPrompt (command : Text) : Prop :=
  (parse command).command = .echo ∧ PROMPT <+: echoed command

instance (command : Text) : Decidable (EchoesPrompt command) :=
  inferInstanceAs (Decidable (_ ∧ _))

theorem mem_commandHistory {history : List Text} {line : Text} :
    line ∈ commandHistory history ↔ line ∈ history ∧ PROMPT <+: line := by
  rw [commandHistory, List.mem_filter]
  apply and_congr_right
  intro _
  constructor
  · intro h
    simp only [decide_eq_true_eq] at h
    exact List.isPrefixOf_iff_prefix.mp h.1
  · intro h
    cases h with
    | intro rest hrest => simp [← hrest]

theorem commandHistory_screenLines (info : SystemInfo) (command : Text) :
    commandHistory (Transcript.screenLines info command) =
      if EchoesPrompt command then [echoed command] else [] := by
  by_cases hecho : (parse command).command = .echo
  · have hlines : Transcript.screenLines info command = [echoed command] := by
      rw [Transcript.screenLines, Transcript.responses, hecho]
      simp only [List.flatMap_cons, List.flatMap_nil, List.append_nil]
      exact List.splitOn_eq_singleton (echoed_flat command)
    rw [hlines]
    by_cases hprompt : PROMPT <+: echoed command
    · obtain ⟨rest, hrest⟩ := hprompt
      rw [if_pos ⟨hecho, rest, hrest⟩, ← hrest]
      simp [commandHistory]
    · rw [if_neg fun h => hprompt h.2]
      apply List.eq_nil_iff_forall_not_mem.mpr
      intro line hmem
      rw [mem_commandHistory, List.mem_singleton] at hmem
      exact hprompt (hmem.1 ▸ hmem.2)
  · rw [if_neg fun h => hecho h.1]
    apply List.eq_nil_iff_forall_not_mem.mpr
    intro line hmem
    rw [mem_commandHistory] at hmem
    obtain ⟨text, htext, hline⟩ := List.mem_flatMap.mp hmem.1
    exact responses_unprompted hecho text htext line hline hmem.2

theorem notice_unprompted (notice : Shell.Notice) : Unprompted notice.text := by
  cases notice with
  | taskOne run => exact unprompted_label (by decide) (by decide) (decimal_flat run)
  | taskTwo run => exact unprompted_label (by decide) (by decide) (decimal_flat run)
  | schedulerError error => cases error <;> exact unprompted_of_head (by decide) (by decide)
  | keyboardDropped count =>
    have hrest : '\n' ∉ decimal count ++ " keyboard inputs".toList := by simp [decimal_flat]
    exact unprompted_label (by decide) (by decide) hrest
  | mouseDropped count =>
    have hrest : '\n' ∉ decimal count ++ " mouse inputs".toList := by simp [decimal_flat]
    exact unprompted_label (by decide) (by decide) hrest

end AgnostOS.Console
