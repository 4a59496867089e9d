import AgnostOS.CommandOutput
import AgnostOS.Library.Words

/-! What commands/parser.rs reads: the words of a line, whatever blanks are around them. -/
namespace AgnostOS.Commands
open Words Console

theorem splitWhitespace_eq (line : Text) : splitWhitespace line = split isWhitespace line := by
  rw [splitWhitespace, split]
  refine List.filter_congr fun piece _ => ?_
  cases piece <;> rfl

abbrev IsFlag (word : Text) : Bool := ['-'].isPrefixOf word

def commandOf (words : List Text) : ParsedCommand where
  command := classify (words.headD [])
  args := words.tail.filter fun word => ¬ IsFlag word
  flags := words.tail.filter fun word => IsFlag word

theorem parse_eq_commandOf {line : Text} {words : List Text} (h : Spells isWhitespace line words) :
    parse line = commandOf words := by
  rw [parse, splitWhitespace_eq, h.split_eq]
  rfl

theorem isWord_arg {line word : Text} (h : word ∈ (parse line).args) : IsWord isWhitespace word := by
  obtain ⟨hmem, -⟩ := List.mem_filter.mp h
  have htail := List.mem_of_mem_tail hmem
  rw [splitWhitespace_eq] at htail
  exact isWord_of_mem_split htail

/-- `echo` in front of the words that another `echo` printed. -/
theorem parse_echo (line : Text) :
    parse ("echo ".toList ++ echoed line) = ⟨.echo, (parse line).args, []⟩ := by
  have hecho : IsWord isWhitespace "echo".toList := by
    refine ⟨by decide, fun c hc => ?_⟩
    have hall : ("echo".toList.all fun c => !isWhitespace c) = true := by decide
    simpa using List.all_eq_true.mp hall c hc
  have hprinted : Spells isWhitespace (echoed line) (parse line).args :=
    spells_intercalate (by decide) fun word hword => isWord_arg hword
  have hblank : isWhitespace ' ' = true := by decide
  have hspells : Spells isWhitespace ("echo ".toList ++ echoed line)
      ("echo".toList :: (parse line).args) :=
    @Spells.word _ _ [] _ _ _ _ (List.forall_mem_nil _) hecho hblank hprinted
  have hplain : ∀ word ∈ (parse line).args, ¬ IsFlag word = true := fun word hword =>
    of_decide_eq_true (List.mem_filter.mp hword).2
  have hargs : (parse line).args.filter (fun word => ¬ IsFlag word) = (parse line).args :=
    List.filter_eq_self.mpr fun word hword => decide_eq_true (hplain word hword)
  have hflags : (parse line).args.filter (fun word => IsFlag word) = [] :=
    List.filter_eq_nil_iff.mpr hplain
  rw [parse_eq_commandOf hspells, commandOf]
  simp only [List.headD_cons, List.tail_cons, hargs, hflags]
  rfl

/-- Every line spells exactly one list of words, and the command depends on these only: the
first word names it, the words with a dash are its flags, the others its arguments, in their
order; and `echo` of what `echo` printed prints it again. -/
theorem line_read_by_words (line : Text) :
    ∃ words, (∀ other, Spells isWhitespace line other ↔ other = words) ∧
      (∀ line', Spells isWhitespace line' words → parse line' = commandOf words) ∧
      parse line = commandOf words ∧
      echoed ("echo ".toList ++ echoed line) = echoed line := by
  refine ⟨split isWhitespace line, fun other => ?_, fun line' => parse_eq_commandOf,
    parse_eq_commandOf (spells_iff.mpr rfl), ?_⟩
  · rw [spells_iff, eq_comm]
  · rw [echoed, parse_echo]
    rfl

end AgnostOS.Commands
