import AgnostOS.Instrumentation
import AgnostOS.Library.MacroCalls
import AgnostOS.Library.UnixPath
import AgnostOS.StringLiterals
import Mathlib.Data.List.Forall2

/-! `resolve_relative_include_paths` of the profile macro: a module that is compiled from
another directory includes the same files. -/
namespace AgnostOS.ProfileMacro
open MacroCalls StringLiteral UnixPath

/-! ### The rewrite -/

def isIncludeName (name : String) : Bool :=
  name = "include_str" ∨ name = "include_bytes" ∨ name = "include"

def isInclude : TokenTree → TokenTree → Bool
  | .ident name, .punct char _ => isIncludeName name ∧ char = '!'
  | _, _ => false

def concatPath (printer : Printer) (moduleDir : Path) (literal : String) : List TokenTree :=
  [.ident "concat", .punct '!' false, .group .parenthesis
    [.literal (String.ofList (debugText printer.escaped moduleDir)), .punct ',' false,
      .literal "\"/\"", .punct ',' false, .literal literal]]

def resolveArguments (printer : Printer) (moduleDir : Path) : List TokenTree → List TokenTree
  | .literal literal :: args =>
    match decodeStringLiteral literal.toList with
    | none => .literal literal :: args
    | some value =>
      if isAbsolute value then .literal literal :: args
      else concatPath printer moduleDir literal ++ args
  | args => args

section Resolve
variable (printer : Printer) (moduleDir : Path)

def resolveIncludes : List TokenTree → List TokenTree
  | name :: bang :: arguments :: rest =>
    if isInclude name bang then
      match arguments with
      | .group delimiter args =>
        name :: bang :: .group delimiter (resolveArguments printer moduleDir args) ::
          resolveIncludes rest
      | arguments => name :: bang :: arguments :: resolveIncludes rest
    else name :: resolveIncludes (bang :: arguments :: rest)
  | tokens => tokens

mutual

def resolveGroup : TokenTree → TokenTree
  | .group delimiter stream =>
    .group delimiter (resolveIncludes printer moduleDir (resolveGroups stream))
  | other => other

def resolveGroups : List TokenTree → List TokenTree
  | [] => []
  | token :: rest => resolveGroup token :: resolveGroups rest

end

/-- Relative include paths made source-relative: groups first, then the includes of the
stream itself. -/
def resolveRelativeIncludePaths (stream : List TokenTree) : List TokenTree :=
  resolveIncludes printer moduleDir (resolveGroups printer moduleDir stream)

end Resolve

/-! ### The loop edits the arguments of the includes -/

section Loop
variable {printer : Printer} {moduleDir : Path}

theorem next_outside (token : TokenTree) : Spot.outside.next isIncludeName token ≠ .called := by
  cases token with
  | ident name =>
    rw [Spot.next]
    split <;> simp
  | punct char joint => simp [Spot.next]
  | literal text => simp [Spot.next]
  | group delimiter stream => simp [Spot.next]

theorem spots_of_include {name bang : TokenTree} (h : isInclude name bang = true) :
    Spot.outside.next isIncludeName name = .named ∧
      Spot.named.next isIncludeName bang = .called := by
  cases name with
  | ident name =>
    cases bang with
    | punct char joint =>
      have hboth : isIncludeName name = true ∧ char = '!' := of_decide_eq_true h
      exact ⟨if_pos hboth.1, if_pos ⟨rfl, hboth.2⟩⟩
    | _ => cases h
  | _ => cases h

/-- Behind a name that is no include of its own, nothing is being called. -/
theorem next_behind {name bang : TokenTree} (h : isInclude name bang = false) :
    (Spot.outside.next isIncludeName name).next isIncludeName bang =
      Spot.outside.next isIncludeName bang := by
  cases name with
  | ident name =>
    rw [Spot.next]
    split
    · next hname =>
      refine next_ne_called fun joint heq => ?_
      rw [heq] at h
      simp [isInclude, hname] at h
    · rfl
  | _ => rfl

theorem editAll_behind {edit : List TokenTree → List TokenTree} {name bang : TokenTree}
    (h : isInclude name bang = false) (rest : List TokenTree) :
    editAll isIncludeName edit (Spot.outside.next isIncludeName name) (bang :: rest) =
      editAll isIncludeName edit .outside (bang :: rest) := by
  rw [editAll, editAll, next_behind h, editArguments_outside (next_outside name),
    editArguments_outside (by simp)]

theorem isInclude_groups (name bang : TokenTree) :
    isInclude (resolveGroup printer moduleDir name) (resolveGroup printer moduleDir bang) =
      isInclude name bang := by
  cases name <;> cases bang <;> rfl

theorem editAll_first {edit : List TokenTree → List TokenTree} (token : TokenTree)
    (rest : List TokenTree) : editAll isIncludeName edit .outside (token :: rest) =
      editIn isIncludeName edit token ::
        editAll isIncludeName edit (Spot.outside.next isIncludeName token) rest := by
  rw [editAll, editArguments_outside (by simp)]

theorem delimited_behind {name bang : TokenTree} {rest : List TokenTree}
    (h : isInclude name bang = false)
    (hdelimited : Delimited isIncludeName (Spot.outside.next isIncludeName name) (bang :: rest)) :
    Delimited isIncludeName .outside (bang :: rest) := by
  have hnext := next_behind h
  rw [Delimited, hnext] at hdelimited
  rw [Delimited]
  exact ⟨fun hcalled => absurd hcalled (by simp), hdelimited.2⟩

theorem editIn_include {name bang : TokenTree} (h : isInclude name bang = true)
    (edit : List TokenTree → List TokenTree) :
    editIn isIncludeName edit name = name ∧ editIn isIncludeName edit bang = bang := by
  cases name with
  | ident text =>
    cases bang with
    | punct char joint => exact ⟨rfl, rfl⟩
    | _ => cases h
  | _ => cases h

theorem editAll_include {edit : List TokenTree → List TokenTree} {name bang arguments : TokenTree}
    (h : isInclude name bang = true) (hparts : Parts isIncludeName .called arguments)
    (rest : List TokenTree) :
    editAll isIncludeName edit .outside (name :: bang :: arguments :: rest) =
      name :: bang :: editArguments edit .called (editIn isIncludeName edit arguments) ::
        editAll isIncludeName edit .outside rest := by
  obtain ⟨hname, hbang⟩ := spots_of_include h
  have hnext := hparts rfl
  obtain ⟨hname', hbang'⟩ := editIn_include h edit
  rw [editAll_first, editAll, hname, hbang, editAll, hnext, editArguments_outside (by simp), hname',
    hbang']

mutual

theorem resolveGroup_eq : (token : TokenTree) → DelimitedIn isIncludeName token →
    resolveGroup printer moduleDir token =
      editIn isIncludeName (resolveArguments printer moduleDir) token
  | .group delimiter stream, h => by
    rw [DelimitedIn] at h
    rw [resolveGroup, editIn, resolveIncludes_groups stream h]
  | .ident name, _ => rfl
  | .punct char joint, _ => rfl
  | .literal text, _ => rfl

theorem resolveIncludes_groups : (stream : List TokenTree) →
    Delimited isIncludeName .outside stream →
    resolveIncludes printer moduleDir (resolveGroups printer moduleDir stream) =
      editAll isIncludeName (resolveArguments printer moduleDir) .outside stream
  | [], _ => rfl
  | [token], h => by
    rw [Delimited] at h
    rw [editAll_first, ← resolveGroup_eq token h.2.1]
    rfl
  | [first, second], h => by
    rw [Delimited, Delimited] at h
    rw [editAll_first, editAll, editArguments_outside (next_outside first),
      ← resolveGroup_eq first h.2.1, ← resolveGroup_eq second h.2.2.2.1]
    rfl
  | name :: bang :: arguments :: rest, h => by
    have hfirst := h
    rw [Delimited] at hfirst
    have hname := resolveGroup_eq name hfirst.2.1
    simp only [resolveGroups, resolveIncludes, isInclude_groups]
    cases hinclude : isInclude name bang with
    | false =>
      have hlater := resolveIncludes_groups (bang :: arguments :: rest)
        (delimited_behind hinclude hfirst.2.2)
      rw [if_neg Bool.false_ne_true, editAll_first, editAll_behind hinclude, ← hlater, hname]
      rfl
    | true =>
      obtain ⟨hnamed, hcalled⟩ := spots_of_include hinclude
      have hlast := hfirst.2.2
      rw [hnamed, Delimited, hcalled, Delimited] at hlast
      obtain ⟨-, hbang, hparts, harguments, hrest⟩ := hlast
      rw [hparts rfl] at hrest
      have hinner := resolveGroup_eq arguments harguments
      obtain ⟨hname', hbang'⟩ := editIn_include hinclude (resolveArguments printer moduleDir)
      have hlater := resolveIncludes_groups rest hrest
      rw [if_pos rfl, editAll_include hinclude hparts, ← hlater, hname,
        resolveGroup_eq bang hbang, hinner, hname', hbang']
      cases arguments <;> rfl

end

end Loop

/-! ### What an include names -/

mutual

inductive Denotes : List TokenTree → List Char → Prop where
  | literal (l : Literal) (text : String) (h : text.toList = l.text) :
      Denotes [.literal text] l.value
  | concat {joint : Bool} {delimiter : Delimiter} {args : List TokenTree} {value : List Char}
      (h : Concatenates args value) :
      Denotes [.ident "concat", .punct '!' joint, .group delimiter args] value

inductive Concatenates : List TokenTree → List Char → Prop where
  | nil : Concatenates [] []
  | last {expr : List TokenTree} {value : List Char} (h : Denotes expr value) :
      Concatenates expr value
  | cons {expr rest : List TokenTree} {joint : Bool} {value more : List Char}
      (h : Denotes expr value) (hrest : Concatenates rest more) :
      Concatenates (expr ++ .punct ',' joint :: rest) (value ++ more)

end

def Reads (args : List TokenTree) (value : Path) : Prop :=
  ∃ expr tail, args = expr ++ tail ∧ Denotes expr value ∧
    (tail = [] ∨ ∃ joint, tail = [.punct ',' joint])

def Resolvable (args : List TokenTree) (value : Path) : Prop :=
  match args with
  | .literal text :: _ => ∃ l : Literal, text.toList = l.text ∧ l.value = value ∧ Decoded l
  | _ => isAbsolute value = true

def isComma : TokenTree → Bool
  | .punct char _ => char = ','
  | _ => false

def withoutPath (args : List TokenTree) : List TokenTree :=
  args.dropWhile fun token => !isComma token

section Files
variable {printer : Printer} {moduleDir : Path} {edit : List TokenTree → List TokenTree}

mutual

theorem Denotes.editAll (edit : List TokenTree → List TokenTree) :
    {expr : List TokenTree} → {value : List Char} → Denotes expr value → (rest : List TokenTree) →
    editAll isIncludeName edit .outside (expr ++ rest) =
      expr ++ editAll isIncludeName edit .outside rest
  | _, _, .literal l text h, rest => rfl
  | _, _, .concat h, rest => by
    have hinner := Concatenates.editAll edit h
    simp [MacroCalls.editAll, editIn, editArguments, Spot.next, isIncludeName, hinner]

theorem Concatenates.editAll (edit : List TokenTree → List TokenTree) :
    {args : List TokenTree} → {value : List Char} → Concatenates args value →
    editAll isIncludeName edit .outside args = args
  | _, _, .nil => rfl
  | _, _, .last h => by
    have hexpr := Denotes.editAll edit h []
    rw [List.append_nil] at hexpr
    rw [hexpr, MacroCalls.editAll, List.append_nil]
  | _, _, .cons h hrest => by
    have hrest' := Concatenates.editAll edit hrest
    rw [Denotes.editAll edit h, MacroCalls.editAll, Spot.next, if_neg (by simp), hrest']
    rfl

end

theorem Reads.editAll {args : List TokenTree} {value : Path} (h : Reads args value)
    (edit : List TokenTree → List TokenTree) :
    MacroCalls.editAll isIncludeName edit .outside args = args := by
  obtain ⟨expr, tail, rfl, hexpr, htail⟩ := h
  rw [Denotes.editAll edit hexpr]
  cases htail with
  | inl hnil =>
    rw [hnil]
    rfl
  | inr hcomma =>
    obtain ⟨joint, rfl⟩ := hcomma
    rfl

/-! ### The edit of one include -/

/-- The arguments stay as they are, or begin with a literal that is put behind the directory. -/
theorem resolveArguments_cases (printer : Printer) (moduleDir : Path) (args : List TokenTree) :
    resolveArguments printer moduleDir args = args ∨ ∃ literal rest,
      args = .literal literal :: rest ∧
        resolveArguments printer moduleDir args = concatPath printer moduleDir literal ++ rest := by
  rw [resolveArguments.eq_def]
  split
  · next literal rest =>
    split
    · exact .inl rfl
    · split
      · exact .inl rfl
      · exact .inr ⟨literal, rest, rfl, rfl⟩
  · exact .inl rfl

theorem resolveArguments_literal {literal : String} {value : Path}
    (h : decodeStringLiteral literal.toList = some value) (rest : List TokenTree) :
    resolveArguments printer moduleDir (.literal literal :: rest) =
      if isAbsolute value then .literal literal :: rest
      else concatPath printer moduleDir literal ++ rest := by
  rw [resolveArguments, h]

theorem editAll_concatPath (edit : List TokenTree → List TokenTree) (literal : String)
    (rest : List TokenTree) :
    MacroCalls.editAll isIncludeName edit .outside (concatPath printer moduleDir literal ++ rest) =
      concatPath printer moduleDir literal ++
        MacroCalls.editAll isIncludeName edit .outside rest := by
  simp [concatPath, MacroCalls.editAll, editIn, editArguments, Spot.next, isIncludeName]

theorem calls_resolveArguments (args : List TokenTree) :
    calls isIncludeName .outside (resolveArguments printer moduleDir args) =
      calls isIncludeName .outside args := by
  cases resolveArguments_cases printer moduleDir args with
  | inl heq => rw [heq]
  | inr hresolved =>
    obtain ⟨literal, rest, rfl, heq⟩ := hresolved
    rw [heq]
    simp [concatPath, calls, callsIn, arguments, Spot.next, isIncludeName]

theorem delimited_resolveArguments {args : List TokenTree}
    (h : Delimited isIncludeName .outside args) :
    Delimited isIncludeName .outside (resolveArguments printer moduleDir args) := by
  cases resolveArguments_cases printer moduleDir args with
  | inl heq => rwa [heq]
  | inr hresolved =>
    obtain ⟨literal, rest, rfl, heq⟩ := hresolved
    rw [Delimited] at h
    have hrest : Delimited isIncludeName .outside rest := h.2.2
    rw [heq]
    simp [concatPath, Delimited, DelimitedIn, Parts, Spot.next, isIncludeName, hrest]

theorem withoutPath_resolveArguments (args : List TokenTree) :
    withoutPath (MacroCalls.editAll isIncludeName withoutPath .outside
        (resolveArguments printer moduleDir args)) =
      withoutPath (MacroCalls.editAll isIncludeName withoutPath .outside args) := by
  cases resolveArguments_cases printer moduleDir args with
  | inl heq => rw [heq]
  | inr hresolved =>
    obtain ⟨literal, rest, rfl, heq⟩ := hresolved
    rw [heq, editAll_concatPath, editAll_first]
    simp [withoutPath, concatPath, isComma, Spot.next, editIn]

/-- Whether an include is resolved does not depend on the directory. -/
theorem resolveArguments_kept {printer' : Printer} {moduleDir' : Path} {args : List TokenTree}
    (h : resolveArguments printer moduleDir args = args) :
    resolveArguments printer' moduleDir' args = args := by
  rw [resolveArguments.eq_def] at h ⊢
  split at h
  · next literal rest =>
    split at h
    · rfl
    · split at h
      · next habsolute => exact if_pos habsolute
      · simp [concatPath] at h
  · rfl

theorem resolveArguments_settled {printer' : Printer} {moduleDir' : Path} {args : List TokenTree}
    (h : MacroCalls.editAll isIncludeName (resolveArguments printer' moduleDir') .outside args =
      args) :
    resolveArguments printer' moduleDir'
        (MacroCalls.editAll isIncludeName (resolveArguments printer' moduleDir') .outside
          (resolveArguments printer moduleDir args)) =
      resolveArguments printer moduleDir args := by
  cases resolveArguments_cases printer moduleDir args with
  | inl heq =>
    rw [heq, h]
    exact resolveArguments_kept heq
  | inr hresolved =>
    obtain ⟨literal, rest, rfl, heq⟩ := hresolved
    have hrest : MacroCalls.editAll isIncludeName (resolveArguments printer' moduleDir')
        .outside rest = rest := by
      rw [editAll_first] at h
      exact (List.cons.inj h).2
    rw [heq, editAll_concatPath, hrest]
    rfl

/-- A path that the macro resolves names its file from everywhere. -/
theorem Reads.resolve (hdir : isAbsolute moduleDir = true) {args : List TokenTree} {value : Path}
    (h : Reads args value) (hresolvable : Resolvable args value) :
    ∃ value', Reads (resolveArguments printer moduleDir args) value' ∧
      ∀ base, Same (join base value') (join moduleDir value) := by
  have hkept {args : List TokenTree} (h : Reads args value) (habsolute : isAbsolute value = true) :
      ∃ value', Reads args value' ∧ ∀ base, Same (join base value') (join moduleDir value) := by
    refine ⟨value, h, fun base => ?_⟩
    rw [join_of_absolute habsolute, join_of_absolute habsolute]
    exact .refl value
  obtain ⟨expr, tail, rfl, hexpr, htail⟩ := h
  cases hexpr with
  | literal l text htext =>
    obtain ⟨l', htext', hvalue, hdecoded⟩ := hresolvable
    have hdecode : decodeStringLiteral text.toList = some l.value := by
      rw [htext', ← hvalue]
      exact (decodeStringLiteral_iff l').mpr hdecoded
    have hliteral : Denotes [.literal text] l.value := .literal l text htext
    rw [List.singleton_append, resolveArguments_literal hdecode]
    split
    · next habsolute => exact hkept ⟨_, tail, rfl, hliteral, htail⟩ habsolute
    · next hrelative =>
      obtain ⟨dirLiteral, hdirText, hdirValue⟩ := exists_debugLiteral printer.escaped moduleDir
      have hdirectory : Denotes
          [.literal (String.ofList (debugText printer.escaped moduleDir))] moduleDir := by
        have hdenotes := Denotes.literal dirLiteral
          (String.ofList (debugText printer.escaped moduleDir)) (by simp [hdirText])
        rwa [hdirValue] at hdenotes
      have hseparator : Denotes [.literal "\"/\""] ['/'] :=
        .literal (.plain [.plain '/' (by decide)] trivial) _ rfl
      have hrelative' : isAbsolute l.value = false := by simpa using hrelative
      refine ⟨moduleDir ++ '/' :: l.value, ⟨concatPath printer moduleDir text, tail, rfl,
        .concat (.cons hdirectory (.cons hseparator (.last hliteral))), htail⟩, fun base => ?_⟩
      rw [join_of_absolute (isAbsolute_append hdir _)]
      exact same_join hdir hrelative'
  | concat hargs => exact hkept ⟨_, tail, rfl, .concat hargs, htail⟩ hresolvable

/-- In a module that is compiled from elsewhere every include whose path is a literal that the
decoder gets right, or is put together and absolute, names the file that it names from the
directory of the source, and one that is put together is left as it is. Nothing but first
arguments of includes changes, and a second pass changes nothing. -/
theorem included_files_kept (printer : Printer) (hdir : isAbsolute moduleDir = true)
    {stream : List TokenTree} (hstream : Delimited isIncludeName .outside stream) :
    List.Forall₂ (fun args args' => ∀ value, Reads args value →
        (Resolvable args value →
          ∃ value', Reads args' value' ∧ ∀ base, Same (join base value') (join moduleDir value)) ∧
        ((∀ text rest, args ≠ .literal text :: rest) → args' = args))
      (calls isIncludeName .outside stream)
      (calls isIncludeName .outside (resolveRelativeIncludePaths printer moduleDir stream)) ∧
    MacroCalls.editAll isIncludeName withoutPath .outside
        (resolveRelativeIncludePaths printer moduleDir stream) =
      MacroCalls.editAll isIncludeName withoutPath .outside stream ∧
    ∀ printer' moduleDir', resolveRelativeIncludePaths printer' moduleDir'
        (resolveRelativeIncludePaths printer moduleDir stream) =
      resolveRelativeIncludePaths printer moduleDir stream := by
  have hresolved : resolveRelativeIncludePaths printer moduleDir stream =
      MacroCalls.editAll isIncludeName (resolveArguments printer moduleDir) .outside stream :=
    resolveIncludes_groups stream hstream
  have hdelimited : Delimited isIncludeName .outside (MacroCalls.editAll isIncludeName
      (resolveArguments printer moduleDir) .outside stream) :=
    delimited_editAll (fun _ h => delimited_resolveArguments h) .outside stream hstream
  rw [hresolved]
  refine ⟨?_, editAll_editAll withoutPath_resolveArguments .outside stream, fun printer' dir' => ?_⟩
  · rw [calls_editAll calls_resolveArguments, List.forall₂_map_right_iff, List.forall₂_same]
    intro args _ value hreads
    rw [hreads.editAll]
    refine ⟨hreads.resolve hdir, fun hbuilt => ?_⟩
    cases resolveArguments_cases printer moduleDir args with
    | inl heq => exact heq
    | inr hliteral =>
      obtain ⟨literal, rest, heq, -⟩ := hliteral
      exact absurd heq (hbuilt literal rest)
  · have hagain : resolveRelativeIncludePaths printer' dir' (MacroCalls.editAll isIncludeName
        (resolveArguments printer moduleDir) .outside stream) = _ :=
      resolveIncludes_groups _ hdelimited
    rw [hagain]
    exact editAll_settled (fun _ => resolveArguments_settled) .outside stream

/-- `include_str!("a.txt");` of a module in `/src`. -/
theorem included_files_kept_text : ∃ args value,
    calls isIncludeName .outside (resolveRelativeIncludePaths ⟨fun _ => "", fun _ => false⟩
      "/src".toList [.ident "include_str", .punct '!' false,
        .group .parenthesis [.literal "\"a.txt\""], .punct ';' false]) = [args] ∧
    Reads args value ∧ ∀ base, Same (join base value) "/src/a.txt".toList := by
  let stream : List TokenTree := [.ident "include_str", .punct '!' false,
    .group .parenthesis [.literal "\"a.txt\""], .punct ';' false]
  have hstream : Delimited isIncludeName .outside stream := by
    simp [stream, Delimited, DelimitedIn, Parts, Spot.next, isIncludeName]
  have hkept := (@included_files_kept "/src".toList ⟨fun _ => "", fun _ => false⟩ rfl stream
    hstream).1
  have hcalls : calls isIncludeName .outside stream = [[.literal "\"a.txt\""]] := rfl
  rw [hcalls, List.forall₂_cons_left_iff] at hkept
  obtain ⟨args, rest, hargs, hrest, hresolved⟩ := hkept
  rw [List.forall₂_nil_left_iff] at hrest
  subst hrest
  let path : Literal := .plain [.plain 'a' (by decide), .plain '.' (by decide),
    .plain 't' (by decide), .plain 'x' (by decide), .plain 't' (by decide)] trivial
  have hreads : Reads [.literal "\"a.txt\""] path.value :=
    ⟨_, [], rfl, .literal path _ rfl, .inl rfl⟩
  obtain ⟨value, hvalue, hsame⟩ := (hargs path.value hreads).1 ⟨path, rfl, rfl, trivial⟩
  exact ⟨args, value, hresolved, hvalue, hsame⟩

end Files

end AgnostOS.ProfileMacro
