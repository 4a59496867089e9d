import AgnostOS.Commands
import AgnostOS.Library.StringLiteral
import AgnostOS.Library.Word
import Mathlib.Tactic.NormNum

/-! `decode_string_literal` of the profile macro against the literals of the language. -/
namespace AgnostOS.ProfileMacro
open StringLiteral Word
open Commands (isWhitespace)

/-! ### The decoder -/

def fromU32 (n : Nat) : Option Char := if n.isValidChar then some (Char.ofNat n) else none

def pushDigit (n : Nat) (c : Char) : Option Nat := do
  let digit ← hexValue c
  let scaled ← checkedMul 32 n 16
  checkedAdd 32 scaled digit

/-- `u32::from_str_radix(digits, 16)`: an optional sign and at least one digit. -/
def fromStrRadix (digits : List Char) : Option Nat :=
  match digits with
  | [] => none
  | '+' :: c :: rest => (c :: rest).foldlM pushDigit 0
  | digits => digits.foldlM pushDigit 0

def unicodeDigits : (chars digits : List Char) → Option (List Char × List Char)
  | [], _ => none
  | '}' :: rest, digits => some (digits, rest)
  | '_' :: rest, digits => unicodeDigits rest digits
  | digit :: rest, digits => unicodeDigits rest (digits ++ [digit])

def hexEscape : List Char → Option (List Char × List Char)
  | high :: low :: rest => do
    let high ← hexValue high
    let low ← hexValue low
    let c ← fromU32 (high * 16 + low)
    some ([c], rest)
  | _ => none

def unicodeEscape : List Char → Option (List Char × List Char)
  | '{' :: rest => do
    let (digits, rest) ← unicodeDigits rest []
    let n ← fromStrRadix digits
    let c ← fromU32 n
    some ([c], rest)
  | _ => none

def decodeEscape : List Char → Option (List Char × List Char)
  | '\\' :: rest => some (['\\'], rest)
  | '"' :: rest => some (['"'], rest)
  | 'n' :: rest => some (['\n'], rest)
  | 'r' :: rest => some (['\r'], rest)
  | 't' :: rest => some (['\t'], rest)
  | '0' :: rest => some (['\x00'], rest)
  | 'x' :: rest => hexEscape rest
  | 'u' :: rest => unicodeEscape rest
  | '\n' :: rest => some ([], rest.dropWhile isWhitespace)
  | _ => none

theorem unicodeDigits_length {chars digits : List Char} {found : List Char × List Char}
    (h : unicodeDigits chars digits = some found) : found.2.length < chars.length := by
  fun_induction unicodeDigits chars digits with
  | case1 => cases h
  | case2 rest digits =>
    cases h
    exact Nat.lt_succ_self _
  | case3 digits rest ih => exact Nat.lt_succ_of_lt (ih h)
  | case4 digits digit rest hbrace hunderscore ih => exact Nat.lt_succ_of_lt (ih h)

theorem hexEscape_length {chars : List Char} {found : List Char × List Char}
    (h : hexEscape chars = some found) : found.2.length ≤ chars.length := by
  cases chars with
  | nil => cases h
  | cons high chars =>
    cases chars with
    | nil => cases h
    | cons low rest =>
      simp only [hexEscape, Option.bind_eq_bind, Option.bind_eq_some_iff, Option.some.injEq] at h
      obtain ⟨_, -, _, -, c, -, rfl⟩ := h
      simp only [List.length_cons]
      omega

theorem unicodeEscape_length {chars : List Char} {found : List Char × List Char}
    (h : unicodeEscape chars = some found) : found.2.length ≤ chars.length := by
  rw [unicodeEscape.eq_def] at h
  split at h
  · next rest =>
    simp only [Option.bind_eq_bind, Option.bind_eq_some_iff, Option.some.injEq] at h
    obtain ⟨digits, hdigits, _, -, c, -, rfl⟩ := h
    have hlt := unicodeDigits_length hdigits
    simp only [List.length_cons]
    omega
  · cases h

theorem decodeEscape_length {chars : List Char} {found : List Char × List Char}
    (h : decodeEscape chars = some found) : found.2.length < chars.length := by
  rw [decodeEscape.eq_def] at h
  split at h
  case h_7 => exact Nat.lt_succ_of_le (hexEscape_length h)
  case h_8 => exact Nat.lt_succ_of_le (unicodeEscape_length h)
  case h_9 rest =>
    cases h
    have hle := (List.dropWhile_sublist isWhitespace (l := rest)).length_le
    exact Nat.lt_succ_of_le hle
  case h_10 => cases h
  all_goals
    cases h
    exact Nat.lt_succ_self _

def decodeChars (chars decoded : List Char) : Option (List Char) :=
  match chars with
  | [] => some decoded
  | character :: rest =>
    if character ≠ '\\' then decodeChars rest (decoded ++ [character])
    else
      match h : decodeEscape rest with
      | none => none
      | some (pushed, rest') =>
        have : rest'.length < rest.length := decodeEscape_length h
        decodeChars rest' (decoded ++ pushed)
  termination_by chars.length

def stripSuffix (text suffix : List Char) : Option (List Char) :=
  if suffix <:+ text then some (text.take (text.length - suffix.length)) else none

def decodeStringLiteral (text : List Char) : Option (List Char) :=
  match text with
  | 'r' :: rest =>
    let hashes := rest.takeWhile (· ≠ '"')
    match rest.dropWhile (· ≠ '"') with
    | [] => none
    | _ :: content => stripSuffix content ('"' :: hashes)
  | '"' :: rest => do
    let inner ← stripSuffix rest ['"']
    decodeChars inner []
  | _ => none

/-! ### Each part of a literal -/

theorem isWhitespace_of_isBlank {c : Char} (h : isBlank c) : isWhitespace c := by
  have hcases : c = '\t' ∨ c = '\n' ∨ c = '\r' ∨ c = ' ' := of_decide_eq_true h
  rcases hcases with rfl | rfl | rfl | rfl <;> decide

theorem fromU32_scalar {n : Nat} (h : n.isValidChar) : fromU32 n = some (Char.ofNat n) := if_pos h

theorem foldlM_pushDigit (digits : List HexDigit) {n k : Nat} (hn : n < 16 ^ k)
    (hk : k + digits.length ≤ 8) :
    (digits.map HexDigit.char).foldlM pushDigit n =
      some (digits.foldl (fun n d => n * 16 + d.value) n) := by
  induction digits generalizing n k with
  | nil => rfl
  | cons d digits ih =>
    have hvalue := d.value_lt
    have hnext : n * 16 + d.value < 16 ^ (k + 1) := by
      rw [pow_succ]
      omega
    have hword : 16 ^ (k + 1) ≤ 2 ^ 32 := by
      have hpow : (2 : Nat) ^ 32 = 16 ^ 8 := by norm_num
      rw [hpow]
      apply Nat.pow_le_pow_right (by decide)
      simp only [List.length_cons] at hk
      omega
    have hmul : checkedMul 32 n 16 = some (n * 16) :=
      checkedMul_eq_some.mpr ⟨by omega, rfl⟩
    have hadd : checkedAdd 32 (n * 16) d.value = some (n * 16 + d.value) :=
      checkedAdd_eq_some.mpr ⟨by omega, rfl⟩
    have hpush : pushDigit n d.char = some (n * 16 + d.value) := by
      simp only [pushDigit, d.reads, Option.bind_eq_bind, Option.bind_some, hmul, hadd]
    rw [List.map_cons, List.foldlM_cons, hpush]
    apply ih hnext
    simp only [List.length_cons] at hk
    omega

theorem fromStrRadix_digits {digits : List HexDigit} (hne : digits ≠ [])
    (hlen : digits.length ≤ 6) :
    fromStrRadix (digits.map HexDigit.char) = some (number digits) := by
  cases digits with
  | nil => exact absurd rfl hne
  | cons d rest =>
    have hsign : d.char ≠ '+' := d.char_ne (by decide)
    have hfold := @foldlM_pushDigit (d :: rest) 0 0 (by decide) (by omega)
    rw [fromStrRadix.eq_def]
    split
    · next hnil => cases hnil
    · next c tail heq => exact absurd (List.cons.inj heq).1 hsign
    · exact hfold

theorem unicodeDigits_digits (digits : List (HexDigit × Nat)) (rest decoded : List Char) :
    unicodeDigits ((digits.flatMap fun d => d.1.char :: List.replicate d.2 '_') ++ '}' :: rest)
        decoded = some (decoded ++ (digits.map Prod.fst).map HexDigit.char, rest) := by
  have hskip : ∀ (k : Nat) (chars decoded : List Char),
      unicodeDigits (List.replicate k '_' ++ chars) decoded = unicodeDigits chars decoded := by
    intro k chars decoded
    induction k with
    | zero => rfl
    | succ k ih => exact ih
  induction digits generalizing decoded with
  | nil => simp [unicodeDigits]
  | cons d digits ih =>
    have hbrace : d.1.char ≠ '}' := d.1.char_ne (by decide)
    have hunderscore : d.1.char ≠ '_' := d.1.char_ne (by decide)
    simp only [List.flatMap_cons, List.cons_append, List.append_assoc]
    rw [unicodeDigits, hskip, ih]
    · simp
    · exact fun h => hbrace h
    · exact fun h => hunderscore h

/-- The escapes that the decoder knows give their value. -/
theorem decodeEscape_body {part : Part} (hplain : ∀ c h, part ≠ .plain c h)
    (hquote : part ≠ .simple .apostrophe) (hcontinued : ∀ blanks h, part ≠ .continuation blanks h)
    (rest : List Char) : decodeEscape (part.body ++ rest) = some (part.value, rest) := by
  cases part with
  | plain c h => exact absurd rfl (hplain c h)
  | simple escape =>
    cases escape with
    | apostrophe => exact absurd rfl hquote
    | newline => rfl
    | carriageReturn => rfl
    | tab => rfl
    | backslash => rfl
    | nul => rfl
    | quote => rfl
  | ascii high low h =>
    have hscalar : (high.value * 16 + low.value).isValidChar := by
      have hlow := low.value_lt
      exact .inl (by omega)
    simp only [Part.body, Part.value, List.cons_append, List.nil_append, decodeEscape, hexEscape,
      high.reads, low.reads, Option.bind_eq_bind, Option.bind_some, fromU32_scalar hscalar]
  | unicode escape =>
    have hdigits := unicodeDigits_digits escape.digits rest []
    have hne : escape.digits.map Prod.fst ≠ [] := by simpa using escape.nonempty
    have hnumber := fromStrRadix_digits hne (by simpa using escape.short)
    simp only [Part.body, Part.value, List.cons_append, List.nil_append, List.append_assoc,
      decodeEscape, unicodeEscape, hdigits, Option.bind_eq_bind, Option.bind_some, hnumber,
      fromU32_scalar escape.scalar]
  | continuation blanks h => exact absurd rfl (hcontinued blanks h)

theorem decodeEscape_continuation {blanks : List Char} (h : ∀ c ∈ blanks, isBlank c)
    (rest : List Char) :
    decodeEscape ((Part.continuation blanks h).body ++ rest) =
      some ([], rest.dropWhile isWhitespace) := by
  have hdrop : (blanks ++ rest).dropWhile isWhitespace = rest.dropWhile isWhitespace :=
    List.dropWhile_append_of_pos fun c hc => isWhitespace_of_isBlank (h c hc)
  simp only [Part.body, List.cons_append, decodeEscape, hdrop]

/-! ### The loop -/

theorem decodeChars_nil (decoded : List Char) : decodeChars [] decoded = some decoded := by
  rw [decodeChars]

theorem decodeChars_plain {c : Char} (h : c ≠ '\\') (rest decoded : List Char) :
    decodeChars (c :: rest) decoded = decodeChars rest (decoded ++ [c]) := by
  rw [decodeChars, if_pos h]

theorem decodeChars_escape {rest pushed rest' : List Char}
    (h : decodeEscape rest = some (pushed, rest')) (decoded : List Char) :
    decodeChars ('\\' :: rest) decoded = decodeChars rest' (decoded ++ pushed) := by
  rw [decodeChars, if_neg (not_not.mpr rfl)]
  split
  · next hnone =>
    rw [h] at hnone
    cases hnone
  · next pushed' rest'' hsome =>
    rw [h] at hsome
    cases hsome
    rfl

theorem decodeChars_unknown {rest : List Char} (h : decodeEscape rest = none)
    (decoded : List Char) : decodeChars ('\\' :: rest) decoded = none := by
  rw [decodeChars, if_neg (not_not.mpr rfl)]
  split
  · rfl
  · next pushed rest' hsome =>
    rw [h] at hsome
    cases hsome

/-! ### Whole literals -/

def Known (part : Part) : Prop :=
  part ≠ .simple .apostrophe ∧ ∀ blanks h, part ≠ .continuation blanks h

/-- No escaped apostrophe, and no continuation in front of whitespace that the language
keeps. -/
def Decodes : List Part → Prop
  | [] => True
  | .simple .apostrophe :: _ => False
  | .continuation _ _ :: rest => startsWith isWhitespace rest = false ∧ Decodes rest
  | _ :: rest => Decodes rest

theorem decodes_known {part : Part} (h : Known part) (rest : List Part) :
    Decodes (part :: rest) ↔ Decodes rest := by
  cases part with
  | plain c hc => rfl
  | simple escape =>
    cases escape with
    | apostrophe => exact absurd rfl h.1
    | newline => rfl
    | carriageReturn => rfl
    | tab => rfl
    | backslash => rfl
    | nul => rfl
    | quote => rfl
  | ascii high low hhigh => rfl
  | unicode escape => rfl
  | continuation blanks hblanks => exact absurd rfl (h.2 blanks hblanks)

theorem part_cases (part : Part) :
    Known part ∨ part = .simple .apostrophe ∨ ∃ blanks h, part = .continuation blanks h := by
  by_cases happ : part = .simple .apostrophe
  · exact .inr (.inl happ)
  · by_cases hcont : ∃ blanks h, part = .continuation blanks h
    · exact .inr (.inr hcont)
    · exact .inl ⟨happ, fun blanks h heq => hcont ⟨blanks, h, heq⟩⟩

theorem decodeChars_known {part : Part} (h : Known part) (rest decoded : List Char) :
    decodeChars (part.text ++ rest) decoded = decodeChars rest (decoded ++ part.value) := by
  by_cases hplain : ∃ c hc, part = .plain c hc
  · obtain ⟨c, hc, rfl⟩ := hplain
    exact decodeChars_plain hc.2.1 rest decoded
  · have htext : part.text = '\\' :: part.body := by
      cases part with
      | plain c hc => exact absurd ⟨c, hc, rfl⟩ hplain
      | simple escape => rfl
      | ascii high low hhigh => rfl
      | unicode escape => rfl
      | continuation blanks hblanks => rfl
    have hbody := decodeEscape_body (fun c hc heq => hplain ⟨c, hc, heq⟩) h.1 h.2 rest
    rw [htext, List.cons_append, decodeChars_escape hbody]

theorem decodeChars_continuation {blanks : List Char} (h : ∀ c ∈ blanks, isBlank c)
    (rest : List Part) (decoded : List Char) :
    decodeChars ((Part.continuation blanks h).text ++ textOf rest) decoded =
      decodeChars (textOf (dropPlain isWhitespace rest)) decoded := by
  have hescape := decodeEscape_continuation h (textOf rest)
  rw [textOf_dropPlain (by decide)] at hescape
  rw [Part.text, List.cons_append, decodeChars_escape hescape, List.append_nil]
  intro c hc heq
  cases heq

theorem decodeChars_apostrophe (rest decoded : List Char) :
    decodeChars ((Part.simple .apostrophe).text ++ rest) decoded = none :=
  decodeChars_unknown rfl decoded

theorem decodeChars_of_decodes {parts : List Part} (h : Decodes parts) (decoded : List Char) :
    decodeChars (textOf parts) decoded = some (decoded ++ valueOf parts) := by
  induction parts generalizing decoded with
  | nil => rw [textOf_nil, decodeChars_nil, valueOf_nil, List.append_nil]
  | cons part rest ih =>
    rw [textOf_cons, valueOf_cons]
    rcases part_cases part with hknown | rfl | ⟨blanks, hblanks, rfl⟩
    · have hrest := (decodes_known hknown rest).mp h
      rw [decodeChars_known hknown, ih hrest, List.append_assoc]
    · exact h.elim
    · rw [decodeChars_continuation, dropPlain_eq_self h.1, ih h.2]
      rfl

/-- Nothing comes out longer than the value, and it comes out shorter where the decoder
swallows whitespace of the value. -/
theorem decodeChars_length {n : Nat} {parts : List Part} (hn : parts.length ≤ n)
    {decoded value : List Char} (h : decodeChars (textOf parts) decoded = some value) :
    value.length ≤ decoded.length + (valueOf parts).length ∧
      (¬ Decodes parts → value.length < decoded.length + (valueOf parts).length) := by
  induction n generalizing parts decoded with
  | zero =>
    cases parts with
    | nil =>
      rw [textOf_nil, decodeChars_nil] at h
      cases h
      exact ⟨by simp, fun hnot => absurd trivial hnot⟩
    | cons part rest => cases hn
  | succ n ih =>
    cases parts with
    | nil =>
      rw [textOf_nil, decodeChars_nil] at h
      cases h
      exact ⟨by simp, fun hnot => absurd trivial hnot⟩
    | cons part rest =>
      have hrest : rest.length ≤ n := Nat.le_of_succ_le_succ hn
      rw [textOf_cons] at h
      rcases part_cases part with hknown | rfl | ⟨blanks, hblanks, rfl⟩
      · rw [decodeChars_known hknown] at h
        have hih := ih hrest h
        rw [decodes_known hknown, valueOf_cons, List.length_append]
        rw [List.length_append] at hih
        refine ⟨by omega, fun hnot => ?_⟩
        have hlt := hih.2 hnot
        omega
      · rw [decodeChars_apostrophe] at h
        cases h
      · rw [decodeChars_continuation] at h
        have hdrop := @dropPlain_length isWhitespace rest
        have hih := ih (hdrop.1.trans hrest) h
        rw [valueOf_cons, Part.value, List.nil_append]
        refine ⟨hih.1.trans (Nat.add_le_add_left hdrop.2 _), fun hnot => ?_⟩
        cases hstarts : startsWith isWhitespace rest with
        | true =>
          have hlt := valueOf_dropPlain_lt hstarts
          omega
        | false =>
          rw [dropPlain_eq_self hstarts] at hih
          exact hih.2 fun hdecodes => hnot ⟨hstarts, hdecodes⟩

theorem stripSuffix_append (text suffix : List Char) :
    stripSuffix (text ++ suffix) suffix = some text := by
  rw [stripSuffix, if_pos (List.suffix_append text suffix)]
  simp

theorem decodeStringLiteral_plain (parts : List Part) (munched : Munched parts) :
    decodeStringLiteral (Literal.plain parts munched).text = decodeChars (textOf parts) [] := by
  simp only [Literal.text, List.cons_append, decodeStringLiteral, stripSuffix_append,
    Option.bind_eq_bind, Option.bind_some]

theorem decodeStringLiteral_raw (hashes : Nat) (content : List Char) :
    decodeStringLiteral ('r' :: List.replicate hashes '#' ++ '"' :: content ++
      '"' :: List.replicate hashes '#') = some content := by
  have hhash : ∀ c ∈ List.replicate hashes '#', decide (c ≠ '"') = true := by
    intro c hc
    rw [List.eq_of_mem_replicate hc]
    decide
  simp only [List.cons_append, List.append_assoc, decodeStringLiteral]
  rw [List.takeWhile_append_of_pos hhash, List.dropWhile_append_of_pos hhash]
  simp only [List.takeWhile_cons, List.dropWhile_cons, ne_eq, not_true_eq_false, decide_false,
    Bool.false_eq_true, if_false, List.append_nil]
  exact stripSuffix_append content _

def Decoded : Literal → Prop
  | .plain parts _ => Decodes parts
  | .raw _ _ _ _ => True

theorem decodeStringLiteral_iff (literal : Literal) :
    decodeStringLiteral literal.text = some literal.value ↔ Decoded literal := by
  cases literal with
  | plain parts munched =>
    rw [decodeStringLiteral_plain]
    constructor
    · intro h
      by_contra hnot
      have hlt := (decodeChars_length (Nat.le_refl _) h).2 hnot
      rw [Literal.value, List.length_nil, Nat.zero_add] at hlt
      exact Nat.lt_irrefl _ hlt
    · exact fun h => decodeChars_of_decodes h []
  | raw hashes content closed noReturn =>
    exact iff_of_true (decodeStringLiteral_raw hashes content) trivial

/-- The decoder inverts the Debug form of every string, whichever characters that writes as
code points. -/
theorem decodeStringLiteral_debugText (escaped : Char → Bool) (s : List Char) :
    decodeStringLiteral (debugText escaped s) = some s := by
  have hparts : ∃ parts, textOf parts = s.flatMap (debugChar escaped) ∧ valueOf parts = s ∧
      Munched parts ∧ Decodes parts := by
    induction s with
    | nil => exact ⟨[], rfl, rfl, trivial, trivial⟩
    | cons c s ih =>
      obtain ⟨parts, htext, hvalue, hmunched, hdecodes⟩ := ih
      obtain ⟨part, hpart, hc, hknown⟩ := exists_debugPart escaped c
      refine ⟨part :: parts, ?_, ?_, ?_, (decodes_known hknown parts).mpr hdecodes⟩
      · rw [textOf_cons, hpart, htext, List.flatMap_cons]
      · rw [valueOf_cons, hc, hvalue, List.singleton_append]
      · cases part with
        | continuation blanks h => exact absurd rfl (hknown.2 blanks h)
        | plain c h => exact hmunched
        | simple escape => exact hmunched
        | ascii high low h => exact hmunched
        | unicode escape => exact hmunched
  obtain ⟨parts, htext, hvalue, hmunched, hdecodes⟩ := hparts
  have hliteral := (decodeStringLiteral_iff (.plain parts hmunched)).mpr hdecodes
  rw [Literal.text, Literal.value, htext, hvalue] at hliteral
  exact hliteral

/-- A literal is decoded to its value exactly when it has no escaped apostrophe and no line
continuation in front of whitespace that the language keeps; every path written by `{:?}` is. -/
theorem decodes_literals_iff (literal : Literal) (escaped : Char → Bool) (s : List Char) :
    (decodeStringLiteral literal.text = some literal.value ↔ Decoded literal) ∧
      decodeStringLiteral (debugText escaped s) = some s :=
  ⟨decodeStringLiteral_iff literal, decodeStringLiteral_debugText escaped s⟩

/-- An apostrophe needs no escape in a string, but may have one. -/
theorem escaped_apostrophe_not_decoded :
    ∃ literal : Literal, literal.text = ['"', '\\', '\'', '"'] ∧ literal.value = ['\''] ∧
      decodeStringLiteral literal.text = none := by
  have hmunched : Munched [.simple .apostrophe] := trivial
  refine ⟨.plain [.simple .apostrophe] hmunched, rfl, rfl, ?_⟩
  rw [decodeStringLiteral_plain]
  exact decodeChars_apostrophe [] []

end AgnostOS.ProfileMacro
