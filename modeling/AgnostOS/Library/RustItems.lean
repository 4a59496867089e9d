import AgnostOS.Library.TokenTree

/-! Function items in the token streams of Rust sources: scopes with their attributes,
signatures and nested scopes, and a statement put at the head of chosen bodies. -/
namespace RustItems

/-! ### The grammar -/

/-- The attribute names the marker: by its own path, or inside `unsafe(..)` or behind the
condition of a `cfg_attr`. -/
inductive Marks (marker : String) : List TokenTree → Prop where
  | path {rest : List TokenTree} (h : ∀ joint after, rest ≠ .punct ':' joint :: after) :
      Marks marker (.ident marker :: rest)
  | segment {name : String} {first second : Bool} {rest : List TokenTree}
      (h : Marks marker rest) :
      Marks marker (.ident name :: .punct ':' first :: .punct ':' second :: rest)
  | wrapped {inner rest : List TokenTree} (h : Marks marker inner) :
      Marks marker (.ident "unsafe" :: .group .parenthesis inner :: rest)
  | conditional {condition named rest : List TokenTree} {joint : Bool} (h : Marks marker named) :
      Marks marker (.ident "cfg_attr" ::
        .group .parenthesis (condition ++ .punct ',' joint :: named) :: rest)

structure Attribute where
  joint : Bool
  stream : List TokenTree

def Attribute.tokens (a : Attribute) : List TokenTree :=
  [.punct '#' a.joint, .group .bracket a.stream]

/-- What can stand between the attributes and `fn`: visibility, `const`, `async`, `unsafe`
and `extern` with its ABI. -/
def isQualifier : TokenTree → Bool
  | .ident name => name ≠ "fn"
  | .literal _ => true
  | .group delimiter _ => delimiter = .parenthesis
  | .punct _ _ => false

structure Head where
  attributes : List Attribute
  qualifiers : List TokenTree
  name : String
  qualified : ∀ token ∈ qualifiers, isQualifier token
  named : name ≠ "fn"

namespace Head

def lead (head : Head) : List TokenTree :=
  head.attributes.flatMap Attribute.tokens ++ head.qualifiers

def tokens (head : Head) : List TokenTree := head.lead ++ [.ident "fn", .ident head.name]

def IsConst (head : Head) : Prop := TokenTree.ident "const" ∈ head.qualifiers

def Eligible (markers : List String) (head : Head) : Prop :=
  ¬ head.IsConst ∧ ∀ marker ∈ markers, ∀ a ∈ head.attributes, ¬ Marks marker a.stream

/-- The tokens of attributes and the qualifiers are all there is before `fn`. -/
theorem forall_mem_lead {p : TokenTree → Prop} (hpunct : ∀ joint, p (.punct '#' joint))
    (hgroup : ∀ stream, p (.group .bracket stream))
    (hqualifier : ∀ token, isQualifier token → p token) (head : Head) :
    ∀ token ∈ head.lead, p token := by
  intro token htoken
  cases List.mem_append.mp htoken with
  | inl hattribute =>
    obtain ⟨a, -, ha⟩ := List.mem_flatMap.mp hattribute
    simp only [Attribute.tokens, List.mem_cons, List.not_mem_nil, or_false] at ha
    cases ha with
    | inl heq => exact heq ▸ hpunct a.joint
    | inr heq => exact heq ▸ hgroup a.stream
  | inr htoken => exact hqualifier token (head.qualified token htoken)

end Head

inductive Leaf where
  | token (token : TokenTree)
  | innerAttribute (joint : Bool) (a : Attribute)
  | arrow (first second : Bool)
  | negative (joint : Bool) (number : String)
  | opening (joint : Bool)
  | closing (joint : Bool)

def Leaf.tokens : Leaf → List TokenTree
  | token t => [t]
  | innerAttribute joint a => [.punct '#' joint, .punct '!' a.joint, .group .bracket a.stream]
  | arrow first second => [.punct '-' first, .punct '>' second]
  | negative joint number => [.punct '-' joint, .literal number]
  | opening joint => [.punct '<' joint]
  | closing joint => [.punct '>' joint]

/-- A stream cut into the function items at its top and all that is between them. Whatever
is in a group is a stream of its own. -/
inductive Piece where
  | leaf (leaf : Leaf)
  | group (delimiter : Delimiter) (content : List Piece)
  | function (head : Head) (signature body : List Piece)
  | declaration (head : Head) (signature : List Piece) (joint : Bool)

namespace Piece

mutual

def render : Piece → List TokenTree
  | leaf l => l.tokens
  | group delimiter content => [.group delimiter (renderAll content)]
  | function head signature body =>
    head.tokens ++ renderAll signature ++ [.group .brace (renderAll body)]
  | declaration head signature joint => head.tokens ++ renderAll signature ++ [.punct ';' joint]

def renderAll : List Piece → List TokenTree
  | [] => []
  | piece :: rest => render piece ++ renderAll rest

end

def isItem : Piece → Bool
  | function _ _ _ => true
  | declaration _ _ _ => true
  | _ => false

def ends : Piece → Bool
  | leaf (.token (.punct char _)) => char = ';'
  | leaf _ => false
  | group delimiter _ => delimiter = .brace
  | function _ _ _ => true
  | declaration _ _ _ => true

def opens (fresh : Bool) : Piece → Bool
  | leaf (.innerAttribute _ _) => fresh
  | piece => piece.ends

def startsIdent : List Piece → Bool
  | leaf (.token (.ident _)) :: _ => true
  | _ => false

/-- The keyword of a function pointer type is not followed by a name. -/
def isKeyword : Piece → Bool
  | leaf (.token (.ident name)) => name = "fn"
  | _ => false

/-- Tokens between the items of a scope; items and inner attributes only where an item
may begin. -/
def allowed (fresh : Bool) : Piece → Bool
  | leaf (.token (.group _ _)) => false
  | leaf (.token _) => true
  | leaf (.innerAttribute _ _) => fresh
  | leaf _ => false
  | group _ _ => true
  | function _ _ _ => fresh
  | declaration _ _ _ => fresh

def shift (depth : Nat) : Piece → Option Nat
  | leaf (.token (.group _ _)) => none
  | leaf (.token (.punct char _)) => if char ∈ [';', '<', '>', '-'] then none else some depth
  | leaf (.token _) => some depth
  | leaf (.innerAttribute _ _) => none
  | leaf (.arrow _ _) => some depth
  | leaf (.negative _ _) => some depth
  | leaf (.opening _) => some (depth + 1)
  | leaf (.closing _) => if depth = 0 then none else some (depth - 1)
  | group _ _ => some depth
  | function _ _ _ => none
  | declaration _ _ _ => none

mutual

def Sound : Piece → Prop
  | leaf _ => True
  | group _ content => Scope true content
  | function _ signature body => Signature 0 signature ∧ Scope true body
  | declaration _ signature _ => Signature 0 signature

def Scope (fresh : Bool) : List Piece → Prop
  | [] => True
  | piece :: rest =>
    Sound piece ∧ piece.allowed fresh ∧ (piece.isKeyword → startsIdent rest = false) ∧
      Scope (piece.opens fresh) rest

def Signature (depth : Nat) : List Piece → Prop
  | [] => depth = 0
  | piece :: rest =>
    Sound piece ∧ (piece.isKeyword → startsIdent rest = false) ∧
      match piece.shift depth with
      | none => False
      | some next => Signature next rest

end

theorem item_of_shift {depth next : Nat} {piece : Piece} (h : piece.shift depth = some next) :
    piece.isItem = false := by
  cases piece with
  | function head signature body => cases h
  | declaration head signature joint => cases h
  | _ => rfl

theorem signature_cons {depth : Nat} {piece : Piece} {rest : List Piece}
    (h : Signature depth (piece :: rest)) : ∃ next, piece.shift depth = some next ∧
      piece.Sound ∧ (piece.isKeyword → startsIdent rest = false) ∧ Signature next rest := by
  rw [Signature] at h
  cases hshift : piece.shift depth with
  | none =>
    rw [hshift] at h
    exact h.2.2.elim
  | some next =>
    rw [hshift] at h
    exact ⟨next, rfl, h.1, h.2.1, h.2.2⟩

/-- What holds of every sound piece with a depth behind it holds all over a signature. -/
theorem forall_mem_signature {p : Piece → Prop}
    (hpiece : ∀ depth next piece, shift depth piece = some next → piece.Sound → p piece)
    {depth : Nat} {pieces : List Piece} (h : Signature depth pieces) :
    ∀ piece ∈ pieces, p piece := by
  induction pieces generalizing depth with
  | nil =>
    intro piece hmem
    cases hmem
  | cons first rest ih =>
    obtain ⟨next, hshift, hsound, -, hrest⟩ := signature_cons h
    rw [List.forall_mem_cons]
    exact ⟨hpiece depth next first hshift hsound, ih hrest⟩

theorem not_item_of_signature {depth : Nat} {pieces : List Piece} (h : Signature depth pieces) :
    ∀ piece ∈ pieces, piece.isItem = false :=
  forall_mem_signature (fun _ _ _ hshift _ => item_of_shift hshift) h

def isBraces : Piece → Bool
  | group delimiter _ => delimiter = .brace
  | _ => false

/-- A brace group outside of angle brackets: a macro in the place of a type. -/
def bareBrace (depth : Nat) : List Piece → Bool
  | [] => false
  | piece :: rest =>
    piece.isBraces && depth = 0 ||
      match piece.shift depth with
      | none => false
      | some next => bareBrace next rest

/-! ### Statements at the head of bodies -/

section Insertion
variable (eligible : Head → Prop) (statement : List TokenTree → Prop)

mutual

/-- The tokens of the piece with one statement at the head of each eligible body, at every
depth, and none elsewhere. -/
def Instrumented : Piece → List TokenTree → Prop
  | leaf l, out => out = l.tokens
  | group delimiter content, out =>
    ∃ inner, InstrumentedAll content inner ∧ out = [.group delimiter inner]
  | function head signature body, out =>
    ∃ lead types inner, (eligible head ∧ statement lead ∨ ¬ eligible head ∧ lead = []) ∧
      InstrumentedAll signature types ∧ InstrumentedAll body inner ∧
        out = head.tokens ++ types ++ [.group .brace (lead ++ inner)]
  | declaration head signature joint, out =>
    ∃ types, InstrumentedAll signature types ∧ out = head.tokens ++ types ++ [.punct ';' joint]

def InstrumentedAll : List Piece → List TokenTree → Prop
  | [], out => out = []
  | piece :: rest, out =>
    ∃ first second, Instrumented piece first ∧ InstrumentedAll rest second ∧ out = first ++ second

end

mutual

def Idle : Piece → Prop
  | leaf _ => True
  | group _ content => IdleAll content
  | function head signature body => ¬ eligible head ∧ IdleAll signature ∧ IdleAll body
  | declaration _ signature _ => IdleAll signature

def IdleAll : List Piece → Prop
  | [] => True
  | piece :: rest => Idle piece ∧ IdleAll rest

end

variable {eligible statement}

mutual

theorem Instrumented.length : {piece : Piece} → {out : List TokenTree} →
    Instrumented eligible statement piece out → out.length = piece.render.length
  | leaf l, out, h => by
    rw [Instrumented] at h
    rw [h, render]
  | group delimiter content, out, h => by
    rw [Instrumented] at h
    obtain ⟨inner, -, rfl⟩ := h
    rfl
  | function head signature body, out, h => by
    rw [Instrumented] at h
    obtain ⟨lead, types, inner, -, htypes, -, rfl⟩ := h
    simp only [render, List.length_append, htypes.length, List.length_cons, List.length_nil]
  | declaration head signature joint, out, h => by
    rw [Instrumented] at h
    obtain ⟨types, htypes, rfl⟩ := h
    simp only [render, List.length_append, htypes.length, List.length_cons, List.length_nil]

theorem InstrumentedAll.length : {pieces : List Piece} → {out : List TokenTree} →
    InstrumentedAll eligible statement pieces out → out.length = (renderAll pieces).length
  | [], out, h => by
    rw [InstrumentedAll] at h
    rw [h, renderAll]
  | piece :: rest, out, h => by
    rw [InstrumentedAll] at h
    obtain ⟨first, second, hfirst, hsecond, rfl⟩ := h
    rw [renderAll, List.length_append, List.length_append, hfirst.length, hsecond.length]

end

theorem instrumentedAll_cons {piece : Piece} {rest : List Piece} {first second : List TokenTree}
    (h : first.length = piece.render.length) :
    InstrumentedAll eligible statement (piece :: rest) (first ++ second) ↔
      Instrumented eligible statement piece first ∧
        InstrumentedAll eligible statement rest second := by
  rw [InstrumentedAll]
  constructor
  · rintro ⟨first', second', hfirst, hsecond, heq⟩
    have hlength : first.length = first'.length := h.trans hfirst.length.symm
    obtain ⟨rfl, rfl⟩ := List.append_inj heq hlength
    exact ⟨hfirst, hsecond⟩
  · intro hboth
    exact ⟨first, second, hboth.1, hboth.2, rfl⟩

theorem instrumented_group {delimiter : Delimiter} {content : List Piece} {inner : List TokenTree} :
    Instrumented eligible statement (group delimiter content) [.group delimiter inner] ↔
      InstrumentedAll eligible statement content inner := by
  rw [Instrumented]
  constructor
  · rintro ⟨inner', hinner, heq⟩
    cases heq
    exact hinner
  · intro h
    exact ⟨inner, h, rfl⟩

theorem instrumented_declaration {head : Head} {signature : List Piece} {joint : Bool}
    {types : List TokenTree} :
    Instrumented eligible statement (declaration head signature joint)
        (head.tokens ++ types ++ [.punct ';' joint]) ↔
      InstrumentedAll eligible statement signature types := by
  rw [Instrumented]
  constructor
  · rintro ⟨types', htypes, heq⟩
    rw [List.append_left_inj, List.append_right_inj] at heq
    rw [heq]
    exact htypes
  · intro h
    exact ⟨types, h, rfl⟩

/-- What a body must be for its function to be done: the lengths tell whether there is a
statement in front. -/
theorem instrumented_function (hstatement : ∀ lead, statement lead → lead ≠ []) {head : Head}
    {signature body : List Piece} {types lead inner : List TokenTree}
    (hlead : lead = [] ∨ statement lead) (hinner : inner.length = (renderAll body).length) :
    Instrumented eligible statement (function head signature body)
        (head.tokens ++ types ++ [.group .brace (lead ++ inner)]) ↔
      (eligible head ↔ lead ≠ []) ∧ InstrumentedAll eligible statement signature types ∧
        InstrumentedAll eligible statement body inner := by
  rw [Instrumented]
  constructor
  · rintro ⟨lead', types', inner', hhead, htypes, hbody, heq⟩
    rw [List.append_assoc, List.append_assoc, List.append_right_inj] at heq
    obtain ⟨rfl, hgroup⟩ := List.append_inj' heq rfl
    have hstreams : lead ++ inner = lead' ++ inner' := by simpa using hgroup
    have hlength : inner.length = inner'.length := hinner.trans hbody.length.symm
    obtain ⟨rfl, rfl⟩ := List.append_inj' hstreams hlength
    refine ⟨?_, htypes, hbody⟩
    cases hhead with
    | inl h => exact iff_of_true h.1 (hstatement lead h.2)
    | inr h => exact iff_of_false h.1 (not_not.mpr h.2)
  · rintro ⟨hhead, htypes, hbody⟩
    refine ⟨lead, types, inner, ?_, htypes, hbody, rfl⟩
    cases hlead with
    | inl hnil => exact .inr ⟨fun h => hhead.mp h hnil, hnil⟩
    | inr h => exact .inl ⟨hhead.mpr (hstatement lead h), h⟩

mutual

theorem instrumented_render (hstatement : ∀ lead, statement lead → lead ≠ []) :
    (piece : Piece) → (Instrumented eligible statement piece piece.render ↔ Idle eligible piece)
  | leaf l => by
    rw [Instrumented, render, Idle]
    exact iff_of_true rfl trivial
  | group delimiter content => by
    rw [render, instrumented_group, instrumentedAll_render hstatement content, Idle]
  | function head signature body => by
    have hiff := @instrumented_function eligible statement hstatement head signature body
      (renderAll signature) [] (renderAll body) (.inl rfl) rfl
    rw [List.nil_append, instrumentedAll_render hstatement signature,
      instrumentedAll_render hstatement body] at hiff
    rw [render, hiff, Idle]
    simp
  | declaration head signature joint => by
    rw [render, instrumented_declaration, instrumentedAll_render hstatement signature, Idle]

/-- A stream is its own instrumented form when nothing in it is eligible. -/
theorem instrumentedAll_render (hstatement : ∀ lead, statement lead → lead ≠ []) :
    (pieces : List Piece) → (InstrumentedAll eligible statement pieces (renderAll pieces) ↔
      IdleAll eligible pieces)
  | [] => by
    rw [InstrumentedAll, renderAll, IdleAll]
    exact iff_of_true rfl trivial
  | piece :: rest => by
    rw [renderAll, instrumentedAll_cons rfl, instrumented_render hstatement piece,
      instrumentedAll_render hstatement rest, IdleAll]

end

end Insertion

/-! ### Induction -/

def Within (motive : List Piece → Prop) : Piece → Prop
  | leaf _ => True
  | group _ content => motive content
  | function _ signature body => motive signature ∧ motive body
  | declaration _ signature _ => motive signature

mutual

theorem within_of_step {motive : List Piece → Prop}
    (step : ∀ pieces, (∀ piece ∈ pieces, Within motive piece) → motive pieces) :
    (piece : Piece) → Within motive piece
  | leaf _ => trivial
  | group _ content => step content (forall_within_of_step step content)
  | function _ signature body =>
    ⟨step signature (forall_within_of_step step signature),
      step body (forall_within_of_step step body)⟩
  | declaration _ signature _ => step signature (forall_within_of_step step signature)

theorem forall_within_of_step {motive : List Piece → Prop}
    (step : ∀ pieces, (∀ piece ∈ pieces, Within motive piece) → motive pieces) :
    (pieces : List Piece) → ∀ piece ∈ pieces, Within motive piece
  | [] => by simp
  | piece :: rest => by
    have hpiece := within_of_step step piece
    have hrest := forall_within_of_step step rest
    simpa using ⟨hpiece, hrest⟩

end

/-- Induction over streams: what holds of a stream whenever it holds of the streams inside. -/
theorem stream_induction {motive : List Piece → Prop}
    (step : ∀ pieces, (∀ piece ∈ pieces, Within motive piece) → motive pieces)
    (pieces : List Piece) : motive pieces :=
  step pieces (forall_within_of_step step pieces)

end Piece

end RustItems
