import Mathlib.Algebra.Group.Nat.Defs
import Mathlib.Data.List.Induction
import Mathlib.Tactic.Common

/-! String literals of Rust: what they are made of, how they are written and what they
stand for, and the literal that the Debug form of a string is. -/
namespace StringLiteral

/-! ### The grammar -/

/-- `char::to_digit(16)`: the ranges 0-9, a-f and A-F. -/
def hexValue (c : Char) : Option Nat :=
  let n := c.toNat
  if 48 ≤ n ∧ n ≤ 57 then some (n - 48)
  else if 97 ≤ n ∧ n ≤ 102 then some (n - 87)
  else if 65 ≤ n ∧ n ≤ 70 then some (n - 55)
  else none

structure HexDigit where
  char : Char
  value : Nat
  reads : hexValue char = some value

theorem HexDigit.char_ne (d : HexDigit) {c : Char} (h : hexValue c = none) : d.char ≠ c := by
  intro heq
  have hreads := d.reads
  rw [heq, h] at hreads
  cases hreads

theorem HexDigit.value_lt (d : HexDigit) : d.value < 16 := by
  have hreads := d.reads
  simp only [hexValue] at hreads
  split_ifs at hreads with hnumeral hlower hupper
  · have hvalue := Option.some.inj hreads
    omega
  · have hvalue := Option.some.inj hreads
    omega
  · have hvalue := Option.some.inj hreads
    omega

inductive SimpleEscape where
  | newline | carriageReturn | tab | backslash | nul | apostrophe | quote
  deriving DecidableEq

namespace SimpleEscape

def letter : SimpleEscape → Char
  | newline => 'n'
  | carriageReturn => 'r'
  | tab => 't'
  | backslash => '\\'
  | nul => '0'
  | apostrophe => '\''
  | quote => '"'

def value : SimpleEscape → Char
  | newline => '\n'
  | carriageReturn => '\r'
  | tab => '\t'
  | backslash => '\\'
  | nul => '\x00'
  | apostrophe => '\''
  | quote => '"'

end SimpleEscape

def number (digits : List HexDigit) : Nat := digits.foldl (fun n d => n * 16 + d.value) 0

structure UnicodeEscape where
  digits : List (HexDigit × Nat)
  nonempty : digits ≠ []
  short : digits.length ≤ 6
  scalar : (number (digits.map Prod.fst)).isValidChar

def isBlank (c : Char) : Bool := c = '\t' ∨ c = '\n' ∨ c = '\r' ∨ c = ' '

inductive Part where
  | plain (c : Char) (h : c ≠ '"' ∧ c ≠ '\\' ∧ c ≠ '\r')
  | simple (escape : SimpleEscape)
  | ascii (high low : HexDigit) (h : high.value < 8)
  | unicode (escape : UnicodeEscape)
  | continuation (blanks : List Char) (h : ∀ c ∈ blanks, isBlank c)

namespace Part

def body : Part → List Char
  | plain _ _ => []
  | simple escape => [escape.letter]
  | ascii high low _ => ['x', high.char, low.char]
  | unicode escape =>
    'u' :: '{' :: (escape.digits.flatMap fun d => d.1.char :: List.replicate d.2 '_') ++ ['}']
  | continuation blanks _ => '\n' :: blanks

def text : Part → List Char
  | plain c _ => [c]
  | part => '\\' :: part.body

def value : Part → List Char
  | plain c _ => [c]
  | simple escape => [escape.value]
  | ascii high low _ => [Char.ofNat (high.value * 16 + low.value)]
  | unicode escape => [Char.ofNat (number (escape.digits.map Prod.fst))]
  | continuation _ _ => []

end Part

def textOf (parts : List Part) : List Char := parts.flatMap Part.text

def valueOf (parts : List Part) : List Char := parts.flatMap Part.value

@[simp] theorem textOf_nil : textOf [] = [] := rfl

@[simp] theorem textOf_cons (part : Part) (rest : List Part) :
    textOf (part :: rest) = part.text ++ textOf rest := rfl

@[simp] theorem valueOf_nil : valueOf [] = [] := rfl

@[simp] theorem valueOf_cons (part : Part) (rest : List Part) :
    valueOf (part :: rest) = part.value ++ valueOf rest := rfl

def startsWith (kind : Char → Bool) : List Part → Bool
  | .plain c _ :: _ => kind c
  | _ => false

/-- Every continuation takes all the blanks there are. -/
def Munched : List Part → Prop
  | [] => True
  | .continuation _ _ :: rest => startsWith isBlank rest = false ∧ Munched rest
  | _ :: rest => Munched rest

inductive Literal where
  | plain (parts : List Part) (munched : Munched parts)
  | raw (hashes : Nat) (content : List Char)
      (closed : ¬ '"' :: List.replicate hashes '#' <:+: content) (noReturn : '\r' ∉ content)

namespace Literal

def text : Literal → List Char
  | plain parts _ => '"' :: textOf parts ++ ['"']
  | raw hashes content _ _ =>
    'r' :: List.replicate hashes '#' ++ '"' :: content ++ '"' :: List.replicate hashes '#'

def value : Literal → List Char
  | plain parts _ => valueOf parts
  | raw _ content _ _ => content

end Literal

/-! ### Characters at the front -/

def dropPlain (kind : Char → Bool) : List Part → List Part
  | .plain c h :: rest => if kind c then dropPlain kind rest else .plain c h :: rest
  | parts => parts

section Drop
variable {kind : Char → Bool}

theorem textOf_dropPlain (hkind : kind '\\' = false) (parts : List Part) :
    (textOf parts).dropWhile kind = textOf (dropPlain kind parts) := by
  induction parts with
  | nil => rfl
  | cons part rest ih =>
    cases part with
    | plain c h =>
      cases hc : kind c with
      | true => simpa [dropPlain, Part.text, hc] using ih
      | false => simp [dropPlain, Part.text, hc]
    | simple escape => simp [dropPlain, Part.text, hkind]
    | ascii high low h => simp [dropPlain, Part.text, hkind]
    | unicode escape => simp [dropPlain, Part.text, hkind]
    | continuation blanks h => simp [dropPlain, Part.text, hkind]

theorem dropPlain_eq_self {parts : List Part} (h : startsWith kind parts = false) :
    dropPlain kind parts = parts := by
  cases parts with
  | nil => rfl
  | cons part rest =>
    cases part with
    | plain c hc =>
      have hkind : kind c = false := h
      simp [dropPlain, hkind]
    | simple escape => rfl
    | ascii high low hhigh => rfl
    | unicode escape => rfl
    | continuation blanks hblanks => rfl

theorem dropPlain_length (parts : List Part) : (dropPlain kind parts).length ≤ parts.length ∧
    (valueOf (dropPlain kind parts)).length ≤ (valueOf parts).length := by
  induction parts with
  | nil => exact ⟨Nat.le_refl _, Nat.le_refl _⟩
  | cons part rest ih =>
    cases part with
    | plain c h =>
      rw [dropPlain]
      split
      · simp only [List.length_cons, valueOf_cons, Part.value, List.length_append, List.length_nil]
        omega
      · exact ⟨Nat.le_refl _, Nat.le_refl _⟩
    | simple escape => exact ⟨Nat.le_refl _, Nat.le_refl _⟩
    | ascii high low h => exact ⟨Nat.le_refl _, Nat.le_refl _⟩
    | unicode escape => exact ⟨Nat.le_refl _, Nat.le_refl _⟩
    | continuation blanks h => exact ⟨Nat.le_refl _, Nat.le_refl _⟩

theorem valueOf_dropPlain_lt {parts : List Part} (h : startsWith kind parts = true) :
    (valueOf (dropPlain kind parts)).length < (valueOf parts).length := by
  cases parts with
  | nil => cases h
  | cons part rest =>
    cases part with
    | plain c hc =>
      have hkind : kind c = true := h
      have hle := (@dropPlain_length kind rest).2
      simp only [dropPlain, hkind, if_true, valueOf_cons, Part.value, List.length_append,
        List.length_cons, List.length_nil]
      omega
    | simple escape => cases h
    | ascii high low hhigh => cases h
    | unicode escape => cases h
    | continuation blanks hblanks => cases h

end Drop

/-! ### The Debug form -/

/-- One character of the Debug form. Which characters are written as code points is a
table of the standard library. -/
def debugChar (escaped : Char → Bool) (c : Char) : List Char :=
  if c = '\x00' then ['\\', '0']
  else if c = '\t' then ['\\', 't']
  else if c = '\r' then ['\\', 'r']
  else if c = '\n' then ['\\', 'n']
  else if c = '\\' then ['\\', '\\']
  else if c = '"' then ['\\', '"']
  else if escaped c then '\\' :: 'u' :: '{' :: Nat.toDigits 16 c.toNat ++ ['}']
  else [c]

def debugText (escaped : Char → Bool) (s : List Char) : List Char :=
  '"' :: s.flatMap (debugChar escaped) ++ ['"']

theorem hexValue_digitChar : ∀ n : Fin 16, hexValue (Nat.digitChar n) = some n.val := by
  decide

def hexDigit (n : Fin 16) : HexDigit := ⟨Nat.digitChar n, n, hexValue_digitChar n⟩

theorem number_append (digits : List HexDigit) (d : HexDigit) :
    number (digits ++ [d]) = number digits * 16 + d.value := by
  simp [number]

/-- The digits of a number, with a bound on how many they are. -/
theorem exists_hexDigits (k n : Nat) (hn : n < 16 ^ (k + 1)) :
    ∃ digits : List HexDigit, digits.map HexDigit.char = Nat.toDigits 16 n ∧ digits ≠ [] ∧
      digits.length ≤ k + 1 ∧ number digits = n := by
  induction k generalizing n with
  | zero =>
    have hlt : n < 16 := by simpa using hn
    exact ⟨[hexDigit ⟨n, hlt⟩], (Nat.toDigits_of_lt_base hlt).symm, by simp, Nat.le_refl _,
      by simp [number, hexDigit]⟩
  | succ k ih =>
    by_cases hlt : n < 16
    · exact ⟨[hexDigit ⟨n, hlt⟩], (Nat.toDigits_of_lt_base hlt).symm, by simp, by simp,
        by simp [number, hexDigit]⟩
    · have hdiv : n / 16 < 16 ^ (k + 1) := by
        rw [Nat.pow_succ] at hn
        exact Nat.div_lt_of_lt_mul (by rwa [Nat.mul_comm])
      have hmod : n % 16 < 16 := Nat.mod_lt _ (by decide)
      cases ih (n / 16) hdiv with
      | intro digits h =>
        refine ⟨digits ++ [hexDigit ⟨n % 16, hmod⟩], ?_, by simp, ?_, ?_⟩
        · rw [Nat.toDigits_of_base_le (by decide) (Nat.not_lt.mp hlt), List.map_append, h.1]
          rfl
        · simpa using h.2.2.1
        · rw [number_append, h.2.2.2]
          simp only [hexDigit]
          omega

/-- A character of the Debug form is one part of a literal. -/
theorem exists_debugPart (escaped : Char → Bool) (c : Char) :
    ∃ part : Part, part.text = debugChar escaped c ∧ part.value = [c] ∧
      part ≠ .simple .apostrophe ∧ ∀ blanks h, part ≠ .continuation blanks h := by
  rw [debugChar]
  split_ifs with hnul htab hreturn hnewline hbackslash hquote hescaped
  · exact ⟨.simple .nul, rfl, by rw [hnul]; rfl, by simp, by simp⟩
  · exact ⟨.simple .tab, rfl, by rw [htab]; rfl, by simp, by simp⟩
  · exact ⟨.simple .carriageReturn, rfl, by rw [hreturn]; rfl, by simp, by simp⟩
  · exact ⟨.simple .newline, rfl, by rw [hnewline]; rfl, by simp, by simp⟩
  · exact ⟨.simple .backslash, rfl, by rw [hbackslash]; rfl, by simp, by simp⟩
  · exact ⟨.simple .quote, rfl, by rw [hquote]; rfl, by simp, by simp⟩
  · have hbound : c.toNat < 16 ^ (5 + 1) := by
      have hvalid : c.toNat.isValidChar := c.valid
      simp only [Nat.isValidChar] at hvalid
      omega
    cases exists_hexDigits 5 c.toNat hbound with
    | intro digits h =>
      have hfst : (digits.map fun d => (d, 0)).map Prod.fst = digits := by
        rw [List.map_map]
        exact List.map_id _
      have hscalar : (number ((digits.map fun d => (d, 0)).map Prod.fst)).isValidChar := by
        rw [hfst, h.2.2.2]
        exact c.valid
      refine ⟨.unicode ⟨digits.map fun d => (d, 0), by simpa using h.2.1, by simpa using h.2.2.1,
        hscalar⟩, ?_, ?_, by simp, by simp⟩
      · have htext : ((digits.map fun d => (d, 0)).flatMap
            fun d => d.1.char :: List.replicate d.2 '_') = Nat.toDigits 16 c.toNat := by
          rw [← h.1, List.flatMap_map, List.map_eq_flatMap]
          rfl
        simp only [Part.text, Part.body, htext, List.cons_append]
      · simp only [Part.value, hfst, h.2.2.2, Char.ofNat_toNat]
  · exact ⟨.plain c ⟨hquote, hbackslash, hreturn⟩, rfl, rfl, by simp, by simp⟩

theorem exists_debugLiteral (escaped : Char → Bool) (s : List Char) :
    ∃ literal : Literal, literal.text = debugText escaped s ∧ literal.value = s := by
  have hparts : ∃ parts, textOf parts = s.flatMap (debugChar escaped) ∧ valueOf parts = s ∧
      Munched parts := by
    induction s with
    | nil => exact ⟨[], rfl, rfl, trivial⟩
    | cons c s ih =>
      obtain ⟨parts, htext, hvalue, hmunched⟩ := ih
      obtain ⟨part, hpart, hc, -, hcontinued⟩ := exists_debugPart escaped c
      refine ⟨part :: parts, ?_, ?_, ?_⟩
      · rw [textOf_cons, hpart, htext, List.flatMap_cons]
      · rw [valueOf_cons, hc, hvalue, List.singleton_append]
      · cases part with
        | continuation blanks h => exact absurd rfl (hcontinued blanks h)
        | _ => exact hmunched
  obtain ⟨parts, htext, hvalue, hmunched⟩ := hparts
  exact ⟨.plain parts hmunched, by rw [Literal.text, htext, debugText], hvalue⟩

end StringLiteral
