import AgnostOS.Library.TokenTree

/-! Calls of macros in token streams: the streams of their arguments, and edits of these. -/
namespace MacroCalls

inductive Spot where
  | outside | named | called
  deriving DecidableEq

section Streams
variable (isName : String → Bool)

def Spot.next (spot : Spot) : TokenTree → Spot
  | .ident name => if isName name then .named else .outside
  | .punct char _ => if spot = .named ∧ char = '!' then .called else .outside
  | _ => .outside

def arguments : Spot → TokenTree → List (List TokenTree)
  | .called, .group _ stream => [stream]
  | _, _ => []

mutual

def callsIn : TokenTree → List (List TokenTree)
  | .group _ stream => calls .outside stream
  | _ => []

/-- The arguments of all calls of the macros, at every depth, in the order in which the
calls begin. -/
def calls (spot : Spot) : List TokenTree → List (List TokenTree)
  | [] => []
  | token :: rest => arguments spot token ++ callsIn token ++ calls (spot.next isName token) rest

end

def Parts (spot : Spot) (token : TokenTree) : Prop :=
  spot = .called → spot.next isName token = .outside

mutual

def DelimitedIn : TokenTree → Prop
  | .group _ stream => Delimited .outside stream
  | _ => True

def Delimited (spot : Spot) : List TokenTree → Prop
  | [] => True
  | token :: rest =>
    Parts isName spot token ∧ DelimitedIn token ∧ Delimited (spot.next isName token) rest

end

def editArguments (edit : List TokenTree → List TokenTree) : Spot → TokenTree → TokenTree
  | .called, .group delimiter stream => .group delimiter (edit stream)
  | _, token => token

mutual

def editIn (edit : List TokenTree → List TokenTree) : TokenTree → TokenTree
  | .group delimiter stream => .group delimiter (editAll edit .outside stream)
  | token => token

/-- The arguments of all calls edited, inner calls first. -/
def editAll (edit : List TokenTree → List TokenTree) (spot : Spot) : List TokenTree → List TokenTree
  | [] => []
  | token :: rest =>
    editArguments edit spot (editIn edit token) :: editAll edit (spot.next isName token) rest

end

end Streams

section Laws
variable {isName : String → Bool} {edit edit' : List TokenTree → List TokenTree} {spot : Spot}

theorem editArguments_outside (h : spot ≠ .called) (token : TokenTree) :
    editArguments edit spot token = token := by
  cases spot with
  | called => exact absurd rfl h
  | outside => rfl
  | named => rfl

theorem next_ne_called {token : TokenTree} (h : ∀ joint, token ≠ .punct '!' joint) :
    spot.next isName token = Spot.outside.next isName token := by
  cases token with
  | punct char joint =>
    have hchar : char ≠ '!' := fun heq => h joint (heq ▸ rfl)
    simp [Spot.next, hchar]
  | _ => rfl

theorem next_edited (token : TokenTree) :
    spot.next isName (editArguments edit spot (editIn isName edit token)) =
      spot.next isName token := by
  cases token with
  | group delimiter stream => cases spot <;> rfl
  | _ => cases spot <;> rfl

theorem editArguments_edited (token : TokenTree) :
    arguments spot (editArguments edit spot (editIn isName edit token)) =
      (arguments spot token).map fun stream => edit (editAll isName edit .outside stream) := by
  cases spot with
  | called => cases token <;> rfl
  | outside => rfl
  | named => rfl

mutual

theorem callsIn_edited (h : ∀ stream, calls isName .outside (edit stream) =
    calls isName .outside stream) (spot : Spot) :
    (token : TokenTree) → callsIn isName (editArguments edit spot (editIn isName edit token)) =
      (callsIn isName token).map fun stream => edit (editAll isName edit .outside stream)
  | .group delimiter stream => by
    have hinner := calls_editAll h .outside stream
    cases spot with
    | called => exact (h _).trans hinner
    | outside => exact hinner
    | named => exact hinner
  | .ident name => by cases spot <;> rfl
  | .punct char joint => by cases spot <;> rfl
  | .literal text => by cases spot <;> rfl

/-- An edit that neither makes nor removes calls edits the arguments of each. -/
theorem calls_editAll (h : ∀ stream, calls isName .outside (edit stream) =
    calls isName .outside stream) (spot : Spot) :
    (stream : List TokenTree) → calls isName spot (editAll isName edit spot stream) =
      (calls isName spot stream).map fun stream => edit (editAll isName edit .outside stream)
  | [] => rfl
  | token :: rest => by
    have htoken := callsIn_edited h spot token
    have hrest := calls_editAll h (spot.next isName token) rest
    rw [editAll, calls, calls, next_edited, editArguments_edited, htoken, hrest, List.map_append,
      List.map_append]

end

mutual

theorem editIn_editIn (h : ∀ stream, edit' (editAll isName edit' .outside (edit stream)) =
    edit' (editAll isName edit' .outside stream)) (spot : Spot) :
    (token : TokenTree) → editArguments edit' spot
        (editIn isName edit' (editArguments edit spot (editIn isName edit token))) =
      editArguments edit' spot (editIn isName edit' token)
  | .group delimiter stream => by
    have hinner := editAll_editAll h .outside stream
    cases spot with
    | called =>
      have hedit := h (editAll isName edit .outside stream)
      simp only [editIn, editArguments, hedit, hinner]
    | outside => simp only [editIn, editArguments, hinner]
    | named => simp only [editIn, editArguments, hinner]
  | .ident name => by cases spot <;> rfl
  | .punct char joint => by cases spot <;> rfl
  | .literal text => by cases spot <;> rfl

theorem editAll_editAll (h : ∀ stream, edit' (editAll isName edit' .outside (edit stream)) =
    edit' (editAll isName edit' .outside stream)) (spot : Spot) :
    (stream : List TokenTree) → editAll isName edit' spot (editAll isName edit spot stream) =
      editAll isName edit' spot stream
  | [] => rfl
  | token :: rest => by
    have htoken := editIn_editIn h spot token
    have hrest := editAll_editAll h (spot.next isName token) rest
    rw [editAll, editAll, editAll, next_edited, htoken, hrest]

end

mutual

theorem editIn_settled (h : ∀ stream, editAll isName edit' .outside stream = stream →
    edit' (editAll isName edit' .outside (edit stream)) = edit stream)
    (spot : Spot) : (token : TokenTree) → editArguments edit' spot
        (editIn isName edit' (editArguments edit spot (editIn isName edit token))) =
      editArguments edit spot (editIn isName edit token)
  | .group delimiter stream => by
    have hinner := editAll_settled h .outside stream
    cases spot with
    | called =>
      have hedit := h _ hinner
      simp only [editIn, editArguments, hedit]
    | outside => simp only [editIn, editArguments, hinner]
    | named => simp only [editIn, editArguments, hinner]
  | .ident name => by cases spot <;> rfl
  | .punct char joint => by cases spot <;> rfl
  | .literal text => by cases spot <;> rfl

/-- An edit that finds nothing left to do behind the edit before it. -/
theorem editAll_settled (h : ∀ stream, editAll isName edit' .outside stream = stream →
    edit' (editAll isName edit' .outside (edit stream)) = edit stream)
    (spot : Spot) : (stream : List TokenTree) →
      editAll isName edit' spot (editAll isName edit spot stream) = editAll isName edit spot stream
  | [] => rfl
  | token :: rest => by
    have htoken := editIn_settled h spot token
    have hrest := editAll_settled h (spot.next isName token) rest
    rw [editAll, editAll, next_edited, htoken, hrest]

end

mutual

theorem delimitedIn_edited (h : ∀ stream, Delimited isName .outside stream →
    Delimited isName .outside (edit stream)) (spot : Spot) :
    (token : TokenTree) → DelimitedIn isName token →
      DelimitedIn isName (editArguments edit spot (editIn isName edit token))
  | .group delimiter stream, hstream => by
    have hinner := delimited_editAll h .outside stream hstream
    cases spot with
    | called => exact h _ hinner
    | outside => exact hinner
    | named => exact hinner
  | .ident name, _ => by cases spot <;> trivial
  | .punct char joint, _ => by cases spot <;> trivial
  | .literal text, _ => by cases spot <;> trivial

theorem delimited_editAll (h : ∀ stream, Delimited isName .outside stream →
    Delimited isName .outside (edit stream)) (spot : Spot) :
    (stream : List TokenTree) → Delimited isName spot stream →
      Delimited isName spot (editAll isName edit spot stream)
  | [], _ => trivial
  | token :: rest, hstream => by
    rw [Delimited] at hstream
    have htoken := delimitedIn_edited h spot token hstream.2.1
    have hrest := delimited_editAll h (spot.next isName token) rest hstream.2.2
    rw [editAll, Delimited, Parts, next_edited]
    exact ⟨hstream.1, htoken, hrest⟩

end

end Laws

end MacroCalls
