import Mathlib.Algebra.GroupWithZero.Nat
import Mathlib.Tactic.Common

/-! Strings as lists of characters, addressed by UTF-8 byte index. An edit at an index
that is no character boundary fails. -/
namespace Utf8

def byteLen (s : List Char) : Nat := (s.map Char.utf8Size).sum

def charIndices (start : Nat) : List Char → List (Nat × Char)
  | [] => []
  | c :: rest => (start, c) :: charIndices (start + c.utf8Size) rest

def splitAt : List Char → Nat → Option (List Char × List Char)
  | s, 0 => some ([], s)
  | [], _ + 1 => none
  | c :: rest, index + 1 =>
    if c.utf8Size ≤ index + 1 then
      (splitAt rest (index + 1 - c.utf8Size)).map fun parts => (c :: parts.1, parts.2)
    else none

def insert (s : List Char) (index : Nat) (c : Char) : Option (List Char) :=
  (splitAt s index).map fun parts => parts.1 ++ c :: parts.2

def replaceRange (s : List Char) (start stop : Nat) (replacement : List Char) :
    Option (List Char) :=
  (splitAt s stop).bind fun outer =>
    (splitAt outer.1 start).map fun inner => inner.1 ++ replacement ++ outer.2

@[simp] theorem byteLen_nil : byteLen [] = 0 := rfl

@[simp] theorem byteLen_cons (c : Char) (s : List Char) :
    byteLen (c :: s) = c.utf8Size + byteLen s := rfl

theorem nth_charIndices {s : List Char} {k : Nat} (start : Nat) (hk : k < s.length) :
    (charIndices start s)[k]?.map Prod.fst = some (start + byteLen (s.take k)) := by
  induction s generalizing start k with
  | nil => simp at hk
  | cons c s ih =>
    cases k with
    | zero => simp [charIndices]
    | succ k =>
      have hrest := ih (start + c.utf8Size) (Nat.lt_of_succ_lt_succ hk)
      simpa [charIndices, Nat.add_assoc] using hrest

/-- The index of the k-th character is the length of those before it; past the end it is
the length of the string. -/
theorem index_of_nth (s : List Char) (start k : Nat) :
    ((charIndices start s)[k]?.map Prod.fst).getD (start + byteLen s) =
      start + byteLen (s.take k) := by
  induction s generalizing start k with
  | nil => simp [charIndices]
  | cons c s ih =>
    cases k with
    | zero => simp [charIndices]
    | succ k =>
      have hrest := ih (start + c.utf8Size) k
      simpa [charIndices, Nat.add_assoc] using hrest

theorem splitAt_boundary (s t : List Char) : splitAt (s ++ t) (byteLen s) = some (s, t) := by
  induction s with
  | nil => rw [List.nil_append, byteLen_nil, splitAt]
  | cons c s ih =>
    have hpos := c.utf8Size_pos
    obtain ⟨index, hindex⟩ : ∃ index, byteLen (c :: s) = index + 1 :=
      Nat.exists_eq_succ_of_ne_zero (by rw [byteLen_cons]; omega)
    have hrest : index + 1 - c.utf8Size = byteLen s := by
      rw [← hindex, byteLen_cons, Nat.add_sub_cancel_left]
    have hle : c.utf8Size ≤ index + 1 := by rw [← hindex, byteLen_cons]; omega
    rw [hindex, List.cons_append, splitAt, if_pos hle, hrest, ih]
    rfl

theorem insert_boundary (s t : List Char) (c : Char) :
    insert (s ++ t) (byteLen s) c = some (s ++ c :: t) := by
  rw [insert, splitAt_boundary]
  rfl

theorem replaceRange_boundary (s t u replacement : List Char) :
    replaceRange (s ++ t ++ u) (byteLen s) (byteLen (s ++ t)) replacement =
      some (s ++ replacement ++ u) := by
  rw [replaceRange, splitAt_boundary, Option.bind_some, splitAt_boundary]
  rfl

end Utf8
