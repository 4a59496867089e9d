import Mathlib.Data.Nat.Notation

/-! The tunables of globals.rs that the modelled subsystems share. -/
namespace AgnostOS.Globals

abbrev PROMPT : List Char := ['>', ' ']
abbrev MAX_INPUT_CHARS : Nat := 512

abbrev MAX_MEMORY_RANGES : Nat := 256
abbrev PAGE_SIZE : Nat := 4096

abbrev LOW_CANONICAL_MAX : Nat := 0x00007fffffffffff
abbrev HIGH_CANONICAL_MIN : Nat := 0xffff800000000000
abbrev MAX_PAGE_TABLE_FRAMES : Nat := 512
abbrev RECURSIVE_INDEX : Nat := 510

abbrev TASK_STACK_SIZE : Nat := 4 * 1024
abbrev STACK_FRAME_WORDS : Nat := 7
abbrev MAX_TASKS : Nat := 64

end AgnostOS.Globals
