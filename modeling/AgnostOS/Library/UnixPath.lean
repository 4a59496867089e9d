import Mathlib.Data.List.Basic
import Mathlib.Tactic.Common

/-! Paths of a Unix file system as texts: joining, and the names a path goes through. -/
namespace UnixPath

abbrev Path := List Char

def isAbsolute : Path → Bool
  | '/' :: _ => true
  | _ => false

/-- `Path::join`: an absolute path takes the place of the base, any other is put behind it
and one separator. -/
def join (base path : Path) : Path :=
  if isAbsolute path then path
  else if base = [] ∨ base.getLast? = some '/' then base ++ path
  else base ++ '/' :: path

/-- The names along the path; empty names and single dots lead nowhere. -/
def components (path : Path) : List (List Char) :=
  (path.splitOn '/').filter fun name => name ≠ [] ∧ name ≠ ['.']

def Same (path path' : Path) : Prop :=
  isAbsolute path = isAbsolute path' ∧ components path = components path'

theorem Same.refl (path : Path) : Same path path := ⟨rfl, rfl⟩

theorem isAbsolute_append {base : Path} (h : isAbsolute base = true) (path : Path) :
    isAbsolute (base ++ path) = true := by
  cases base with
  | nil => cases h
  | cons c base =>
    rw [isAbsolute.eq_def] at h
    split at h
    · next heq =>
      cases heq
      rfl
    · cases h

theorem join_of_absolute {path : Path} (h : isAbsolute path = true) (base : Path) :
    join base path = path :=
  if_pos h

theorem isAbsolute_join {base : Path} (h : isAbsolute base = true) (path : Path) :
    isAbsolute (join base path) = true := by
  rw [join]
  split_ifs with habsolute
  · exact habsolute
  · exact isAbsolute_append h path
  · exact isAbsolute_append h ('/' :: path)

@[simp] theorem components_nil : components [] = [] := rfl

theorem components_append (base path : Path) :
    components (base ++ '/' :: path) = components base ++ components path := by
  rw [components, List.splitOn_append_cons_self, List.filter_append]
  rfl

theorem components_join {path : Path} (h : isAbsolute path = false) (base : Path) :
    components (join base path) = components base ++ components path := by
  rw [join, h, if_neg Bool.false_ne_true]
  split_ifs with hend
  · cases hend with
    | inl hnil =>
      rw [hnil]
      rfl
    | inr hslash =>
      obtain ⟨start, rfl⟩ := List.getLast?_eq_some_iff.mp hslash
      rw [List.append_assoc, List.singleton_append, components_append, components_append,
        components_nil, List.append_nil]
  · exact components_append base path

/-- With a separator between them always, a base and a relative path go the same way. -/
theorem same_join {base path : Path} (hbase : isAbsolute base = true)
    (h : isAbsolute path = false) : Same (base ++ '/' :: path) (join base path) := by
  refine ⟨?_, ?_⟩
  · rw [isAbsolute_append hbase, isAbsolute_join hbase]
  · rw [components_append, components_join h]

end UnixPath
