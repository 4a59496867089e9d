import Mathlib.Data.List.Basic
import Mathlib.Tactic.Common

/-! Texts as words with gaps between them: what splitting at separators gives back. -/
namespace Words
variable {α : Type*} {p : α → Bool}

def IsWord (p : α → Bool) (word : List α) : Prop := word ≠ [] ∧ ∀ c ∈ word, p c = false

/-- The text is these words in this order, with separators around and at least one separator
between two of them. -/
inductive Spells (p : α → Bool) : List α → List (List α) → Prop
  | gap {text : List α} (hgap : ∀ c ∈ text, p c = true) : Spells p text []
  | last {lead word : List α} (hlead : ∀ c ∈ lead, p c = true) (hword : IsWord p word) :
      Spells p (lead ++ word) [word]
  | word {lead word rest : List α} {words : List (List α)} {sep : α} (hlead : ∀ c ∈ lead, p c = true)
      (hword : IsWord p word) (hsep : p sep = true) (hrest : Spells p rest words) :
      Spells p (lead ++ (word ++ sep :: rest)) (word :: words)

/-- What `split` leaves when the empty pieces are dropped. -/
def split (p : α → Bool) (text : List α) : List (List α) :=
  (text.splitOnP p).filter fun piece => !piece.isEmpty

theorem split_cons_sep {sep : α} (hsep : p sep = true) (text : List α) :
    split p (sep :: text) = split p text := by
  rw [split, List.splitOnP_cons_eq_if_modifyHead, if_pos hsep]
  rfl

theorem split_lead {lead : List α} (hlead : ∀ c ∈ lead, p c = true) (text : List α) :
    split p (lead ++ text) = split p text := by
  induction lead with
  | nil => rfl
  | cons c lead ih =>
    obtain ⟨hc, hrest⟩ := List.forall_mem_cons.mp hlead
    rw [List.cons_append, split_cons_sep hc, ih hrest]

theorem split_word {word : List α} (hword : IsWord p word) : split p word = [word] := by
  have hne : word.isEmpty = false := List.isEmpty_eq_false_iff.mpr hword.1
  rw [split, List.splitOnP_eq_singleton hword.2, List.filter_singleton, hne]
  rfl

theorem split_word_sep {word : List α} (hword : IsWord p word) {sep : α} (hsep : p sep = true)
    (rest : List α) : split p (word ++ sep :: rest) = word :: split p rest := by
  have hne : word.isEmpty = false := List.isEmpty_eq_false_iff.mpr hword.1
  rw [split, List.splitOnP_append_cons_of_forall_mem hword.2 sep hsep, List.filter_cons_of_pos]
  · rfl
  · rw [hne]
    rfl

theorem Spells.split_eq {text : List α} {words : List (List α)} (h : Spells p text words) :
    split p text = words := by
  induction h with
  | @gap text hgap =>
    have hlead := split_lead hgap []
    rw [List.append_nil] at hlead
    rw [hlead]
    rfl
  | last hlead hword => rw [split_lead hlead, split_word hword]
  | word hlead hword hsep _ ih => rw [split_lead hlead, split_word_sep hword hsep, ih]

theorem Spells.cons_sep {text : List α} {words : List (List α)} (h : Spells p text words) {sep : α}
    (hsep : p sep = true) : Spells p (sep :: text) words := by
  cases h with
  | gap hgap => exact .gap (List.forall_mem_cons.mpr ⟨hsep, hgap⟩)
  | last hlead hword =>
    rw [← List.cons_append]
    exact .last (List.forall_mem_cons.mpr ⟨hsep, hlead⟩) hword
  | word hlead hword hsep' hrest =>
    rw [← List.cons_append]
    exact .word (List.forall_mem_cons.mpr ⟨hsep, hlead⟩) hword hsep' hrest

theorem exists_spells (p : α → Bool) (text : List α) : ∃ words, Spells p text words := by
  induction h : text.length using Nat.strongRecOn generalizing text with
  | _ n ih =>
    subst h
    cases text with
    | nil => exact ⟨[], .gap (List.forall_mem_nil _)⟩
    | cons c text =>
      cases hc : p c with
      | true =>
        obtain ⟨words, hwords⟩ := ih text.length (Nat.lt_succ_self _) text rfl
        exact ⟨words, hwords.cons_sep hc⟩
      | false =>
        -- the word goes up to the first separator, if there is one
        have hfront : ∀ d ∈ text.takeWhile (fun d => !p d), p d = false := fun d hd => by
          simpa using List.all_eq_true.mp List.all_takeWhile d hd
        have hword : IsWord p (c :: text.takeWhile fun d => !p d) :=
          ⟨List.cons_ne_nil _ _, List.forall_mem_cons.mpr ⟨hc, hfront⟩⟩
        have hsplit := List.takeWhile_append_dropWhile (p := fun d => !p d) (l := text)
        cases hrest : text.dropWhile fun d => !p d with
        | nil =>
          rw [hrest, List.append_nil] at hsplit
          rw [hsplit] at hword
          exact ⟨_, .last (List.forall_mem_nil _) hword⟩
        | cons sep rest =>
          have hsep : p sep = true := by
            have hhead := List.head?_dropWhile_not (fun d => !p d) text
            rw [hrest] at hhead
            simpa using hhead
          rw [hrest] at hsplit
          have hlength : rest.length < (c :: text).length := by
            rw [← hsplit]
            simp
            omega
          obtain ⟨words, hwords⟩ := ih rest.length hlength rest rfl
          have hspells := @Spells.word _ _ [] _ _ _ _ (List.forall_mem_nil _) hword hsep hwords
          rw [List.nil_append, List.cons_append, hsplit] at hspells
          exact ⟨_, hspells⟩

/-- A text spells exactly the words that splitting gives. -/
theorem spells_iff {text : List α} {words : List (List α)} :
    Spells p text words ↔ split p text = words := by
  constructor
  · exact Spells.split_eq
  · rintro rfl
    obtain ⟨words, hwords⟩ := exists_spells p text
    exact hwords.split_eq ▸ hwords

theorem isWord_of_mem_split {text word : List α} (h : word ∈ split p text) : IsWord p word := by
  have hspells : Spells p text (split p text) := spells_iff.mpr rfl
  generalize split p text = words at h hspells
  induction hspells with
  | gap => cases h
  | last _ hword =>
    rw [List.mem_singleton.mp h]
    exact hword
  | word _ hword _ _ ih =>
    cases h with
    | head => exact hword
    | tail _ htail => exact ih htail

theorem spells_intercalate {sep : α} (hsep : p sep = true) {words : List (List α)}
    (hwords : ∀ word ∈ words, IsWord p word) : Spells p (List.intercalate [sep] words) words := by
  induction words with
  | nil => exact .gap (List.forall_mem_nil _)
  | cons word words ih =>
    obtain ⟨hword, hrest⟩ := List.forall_mem_cons.mp hwords
    cases words with
    | nil =>
      rw [List.intercalate_singleton]
      exact .last (List.forall_mem_nil _) hword
    | cons next words =>
      rw [List.intercalate_cons_cons, List.append_assoc, List.singleton_append]
      exact .word (List.forall_mem_nil _) hword hsep (ih hrest)

end Words
