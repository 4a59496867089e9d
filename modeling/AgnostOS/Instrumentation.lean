import AgnostOS.Library.StringLiteral
import AgnostOS.Library.TokenTree
import Mathlib.Data.List.DropRight
import Mathlib.Data.List.Infix

/-! The rewrite of the profile macro: which functions of a scope it takes, where their
bodies are, and the hooks it puts there. -/
namespace AgnostOS.ProfileMacro

/-- What the macro leaves to the compiler and the standard library: the text of a stream,
and the characters that Debug writes as code points. -/
structure Printer where
  display : List TokenTree → String
  escaped : Char → Bool

def functionName (tokens : List TokenTree) (index : Nat) : Option String :=
  match tokens[index]?, tokens[index + 1]? with
  | some (.ident keyword), some (.ident name) => if keyword = "fn" then some name else none
  | _, _ => none

/-- A `;` or a brace group: where the search for the start of an item stops. -/
def endsItem : TokenTree → Bool
  | .punct char _ => char = ';'
  | .group delimiter _ => delimiter = .brace
  | _ => false

def itemWindow (tokens : List TokenTree) (index : Nat) : List TokenTree :=
  (tokens.take index).rtakeWhile fun token => !endsItem token

/-- A bracket group whose text has the marker in it, anywhere. -/
def isMarked (printer : Printer) (marker : String) : TokenTree → Bool
  | .group .bracket stream => marker.toList <:+: (printer.display stream).toList
  | _ => false

def hasMarkerBefore (printer : Printer) (tokens : List TokenTree) (index : Nat)
    (marker : String) : Bool :=
  (itemWindow tokens index).any (isMarked printer marker)

def bodyFrom (angleDepth : Nat) (previousWasMinus : Bool) :
    (tokens : List TokenTree) → (position : Nat) → Option Nat
  | [], _ => none
  | token :: rest, position =>
    match token with
    | .punct ';' _ => none
    | .punct '<' _ => bodyFrom (angleDepth + 1) false rest (position + 1)
    | .punct '>' _ =>
      bodyFrom (if previousWasMinus then angleDepth else angleDepth - 1) false rest (position + 1)
    | .punct char _ => bodyFrom angleDepth (char = '-') rest (position + 1)
    | .group .brace _ =>
      if angleDepth = 0 then some position else bodyFrom angleDepth false rest (position + 1)
    | _ => bodyFrom angleDepth false rest (position + 1)

/-- The function body, not the braces of a const generic. -/
def functionBodyIndex (tokens : List TokenTree) (index : Nat) : Option Nat :=
  bodyFrom 0 false (tokens.drop (index + 2)) (index + 2)

def isIdent (name : String) : TokenTree → Bool
  | .ident text => text = name
  | _ => false

def isConstFunction (tokens : List TokenTree) (index : Nat) : Bool :=
  (itemWindow tokens index).any (isIdent "const")

def scopeContext (printer : Printer) (tokens : List TokenTree) (groupIndex : Nat) :
    Option String :=
  let window := itemWindow tokens groupIndex
  if window.any (isIdent "fn") then none
  else
    match window.findIdx? fun token => isIdent "impl" token || isIdent "trait" token with
    | none => none
    | some offset => some (printer.display (window.drop offset))

/-- `#[cfg(feature = "profiling")] let _profile_guard =
crate::profiling::enter(concat!(module_path!(), "::", identity));` -/
def hook (printer : Printer) (identity : String) : List TokenTree :=
  [.punct '#' false,
    .group .bracket [.ident "cfg", .group .parenthesis
      [.ident "feature", .punct '=' false, .literal "\"profiling\""]],
    .ident "let", .ident "_profile_guard", .punct '=' false,
    .ident "crate", .punct ':' true, .punct ':' false, .ident "profiling", .punct ':' true,
    .punct ':' false, .ident "enter", .group .parenthesis
      [.ident "concat", .punct '!' false, .group .parenthesis
        [.ident "module_path", .punct '!' false, .group .parenthesis [], .punct ',' false,
          .literal "\"::\"", .punct ',' false,
          .literal (String.ofList (StringLiteral.debugText printer.escaped identity.toList))]],
    .punct ';' false]

def hookIdentity (context : Option String) (name : String) : String :=
  match context with
  | none => name
  | some context => context ++ "::" ++ name

def isSkipped (printer : Printer) (tokens : List TokenTree) (index : Nat) : Bool :=
  hasMarkerBefore printer tokens index "not_profiled" ||
    hasMarkerBefore printer tokens index "naked" || isConstFunction tokens index

def insertHook (printer : Printer) (context : Option String) (tokens : List TokenTree)
    (index : Nat) : List TokenTree :=
  if isSkipped printer tokens index then tokens
  else
    match functionName tokens index with
    | none => tokens
    | some name =>
      match functionBodyIndex tokens index with
      | none => tokens
      | some bodyIndex =>
        match tokens[bodyIndex]? with
        | some (.group _ original) =>
          tokens.set bodyIndex
            (.group .brace (hook printer (hookIdentity context name) ++ original))
        | _ => tokens

def functionIndices (tokens : List TokenTree) : List Nat :=
  (List.range tokens.length).filter fun index => (functionName tokens index).isSome

/-- The hooks of one scope, from its last function to its first. -/
def insertHooks (printer : Printer) (context : Option String) (tokens : List TokenTree) :
    List TokenTree :=
  (functionIndices tokens).reverse.foldl (insertHook printer context) tokens

section Transform
variable (printer : Printer)

mutual

def transformToken (context : Option String) (original : List TokenTree) (index : Nat) :
    TokenTree → TokenTree
  | .group .brace stream =>
    let inherited := (scopeContext printer original index).or context
    .group .brace (insertHooks printer inherited (transformTokens inherited stream 0 stream))
  | token => token

def transformTokens (context : Option String) (original : List TokenTree) (index : Nat) :
    List TokenTree → List TokenTree
  | [] => []
  | token :: rest =>
    transformToken context original index token ::
      transformTokens context original (index + 1) rest

end

/-- Function bodies of a scope instrumented, the method context kept. -/
def transformScope (stream : List TokenTree) (context : Option String) : List TokenTree :=
  insertHooks printer context (transformTokens printer context stream 0 stream)

end Transform

end AgnostOS.ProfileMacro
