import AgnostOS.ScopeRewrite

/-! Which functions of a well-formed source the profile macro takes: every eligible one,
but for texts of attributes, groups that are no braces, and macros in the place of types. -/
namespace AgnostOS.ProfileMacro
open TokenTree RustItems RustItems.Piece

/-! ### What the hooks should be -/

/-- Not const, and without an attribute whose path is one of the macro's markers. -/
def Profiled (head : Head) : Prop := head.Eligible ["not_profiled", "naked"]

def IsHook (printer : Printer) (tokens : List TokenTree) : Prop :=
  ∃ identity, tokens = hook printer identity

theorem isHook_ne_nil {printer : Printer} : ∀ lead, IsHook printer lead → lead ≠ [] := by
  intro lead h
  cases h with
  | intro identity heq =>
    rw [heq]
    exact List.cons_ne_nil _ _

inductive Mentions (name : String) : List TokenTree → Prop where
  | here {rest : List TokenTree} : Mentions name (.ident name :: rest)
  | inside {delimiter : Delimiter} {stream rest : List TokenTree} (h : Mentions name stream) :
      Mentions name (.group delimiter stream :: rest)
  | later {token : TokenTree} {rest : List TokenTree} (h : Mentions name rest) :
      Mentions name (token :: rest)

def Printer.Prints (printer : Printer) : Prop :=
  ∀ name stream, Mentions name stream → name.toList <:+: (printer.display stream).toList

theorem Mentions.append {name : String} {second : List TokenTree} (h : Mentions name second)
    (first : List TokenTree) : Mentions name (first ++ second) := by
  induction first with
  | nil => exact h
  | cons token first ih => exact .later ih

theorem mentions_of_marks {marker : String} {stream : List TokenTree} (h : Marks marker stream) :
    Mentions marker stream := by
  induction h with
  | path h => exact .here
  | segment h ih => exact .later (.later (.later ih))
  | wrapped h ih => exact .later (.inside ih)
  | conditional h ih => exact .later (.inside (.append (.later ih) _))

/-! ### When they are -/

def markerText (printer : Printer) (a : Attribute) : Bool :=
  isMarked printer "not_profiled" (.group .bracket a.stream) ||
    isMarked printer "naked" (.group .bracket a.stream)

section Covered
variable (printer : Printer)

mutual

def Covered (pending : List (Bool × Attribute)) : Piece → Prop
  | .leaf _ => True
  | .group delimiter content =>
    if delimiter = .brace then CoveredAll [] content else IdleAll Profiled content
  | .function head signature body =>
    (Profiled head →
      (∀ a ∈ pending.map Prod.snd ++ head.attributes, markerText printer a = false) ∧
        bareBrace 0 signature = false) ∧
      CoveredAll [] signature ∧ CoveredAll [] body
  | .declaration head signature _ =>
    (bareBrace 0 signature = true →
      (∃ a ∈ pending.map Prod.snd ++ head.attributes, markerText printer a = true) ∨
        head.IsConst) ∧
      CoveredAll [] signature

def CoveredAll (pending : List (Bool × Attribute)) : List Piece → Prop
  | [] => True
  | piece :: rest => Covered pending piece ∧ CoveredAll (nextPending pending piece) rest

end

end Covered

section Iff
variable {printer : Printer}

theorem any_attributes {p : TokenTree → Bool} (hpunct : ∀ char joint, p (.punct char joint) = false)
    (attributes : List Attribute) : (attributes.flatMap Attribute.tokens).any p =
      attributes.any fun a => p (.group .bracket a.stream) := by
  induction attributes with
  | nil => rfl
  | cons a attributes ih =>
    rw [List.flatMap_cons, List.any_append, ih]
    simp [Attribute.tokens, hpunct]

theorem any_pending {p : TokenTree → Bool} (hpunct : ∀ char joint, p (.punct char joint) = false)
    (pending : List (Bool × Attribute)) : (pendingTokens pending).any p =
      (pending.map Prod.snd).any fun a => p (.group .bracket a.stream) := by
  induction pending with
  | nil => rfl
  | cons a pending ih =>
    rw [pendingTokens, List.flatMap_cons, List.any_append, ← pendingTokens, ih]
    simp [Leaf.tokens, hpunct]

theorem any_qualifiers_marked (printer : Printer) (marker : String) (head : Head) :
    head.qualifiers.any (isMarked printer marker) = false := by
  rw [List.any_eq_false]
  intro token htoken
  have hqualifier := head.qualified token htoken
  cases token with
  | group delimiter stream =>
    cases delimiter with
    | bracket => cases hqualifier
    | parenthesis => simp [isMarked]
    | brace => cases hqualifier
    | none => cases hqualifier
  | _ => simp [isMarked]

theorem any_qualifiers_const (head : Head) :
    head.qualifiers.any (isIdent "const") = true ↔ head.IsConst := by
  rw [List.any_eq_true, Head.IsConst]
  constructor
  · rintro ⟨token, htoken, hconst⟩
    cases token with
    | ident name =>
      have hname : name = "const" := of_decide_eq_true hconst
      exact hname ▸ htoken
    | _ => cases hconst
  · intro h
    exact ⟨_, h, by simp [isIdent]⟩

/-- The tests of the loop see the texts of the attributes and the qualifiers. -/
theorem skips_iff (printer : Printer) (pending : List (Bool × Attribute)) (head : Head) :
    Skips printer (pendingTokens pending ++ head.lead) = true ↔
      (∃ a ∈ pending.map Prod.snd ++ head.attributes, markerText printer a = true) ∨
        head.IsConst := by
  have hmarked : ∀ marker, (pendingTokens pending ++ head.lead).any (isMarked printer marker) =
      (pending.map Prod.snd ++ head.attributes).any
        fun a => isMarked printer marker (.group .bracket a.stream) := by
    intro marker
    rw [Head.lead, List.any_append, List.any_append, any_pending fun _ _ => rfl,
      any_attributes fun _ _ => rfl, any_qualifiers_marked, Bool.or_false, List.any_append]
  have hconst : (pendingTokens pending ++ head.lead).any (isIdent "const") =
      head.qualifiers.any (isIdent "const") := by
    have hnone : ∀ attributes : List Attribute, (attributes.any
        fun a => isIdent "const" (.group .bracket a.stream)) = false := by
      intro attributes
      rw [List.any_eq_false]
      exact fun a _ => Bool.false_ne_true
    rw [Head.lead, List.any_append, List.any_append, any_pending fun _ _ => rfl,
      any_attributes fun _ _ => rfl, hnone, hnone, Bool.false_or, Bool.false_or]
  rw [Skips, hmarked, hmarked, hconst, Bool.or_eq_true, any_qualifiers_const, Bool.or_eq_true,
    List.any_eq_true, List.any_eq_true, ← exists_or]
  simp only [← and_or_left, markerText, Bool.or_eq_true]

theorem profiled_of_not_skipped (hprinter : printer.Prints) {pending : List (Bool × Attribute)}
    {head : Head} (h : Skips printer (pendingTokens pending ++ head.lead) = false) :
    Profiled head := by
  have hnone : ¬ ((∃ a ∈ pending.map Prod.snd ++ head.attributes, markerText printer a = true) ∨
      head.IsConst) := by
    rw [← skips_iff, h]
    exact Bool.false_ne_true
  rw [not_or] at hnone
  refine ⟨hnone.2, fun marker hmarker a ha hmarks => hnone.1 ⟨a, List.mem_append_right _ ha, ?_⟩⟩
  have hprints := hprinter marker a.stream (mentions_of_marks hmarks)
  simp only [List.mem_cons, List.not_mem_nil, or_false] at hmarker
  rw [markerText, Bool.or_eq_true]
  cases hmarker with
  | inl heq =>
    rw [heq] at hprints
    exact .inl (decide_eq_true hprints)
  | inr heq =>
    rw [heq] at hprints
    exact .inr (decide_eq_true hprints)

/-! ### Widths: hooks go into groups -/

def width : TokenTree → Nat
  | .group _ stream => stream.length
  | _ => 0

theorem width_rewritten {piece : Piece} {tokens : List TokenTree} (hitem : piece.isItem = false)
    (h : Rewritten printer piece tokens) : tokens.map width = piece.render.map width := by
  cases piece with
  | leaf l =>
    rw [Rewritten] at h
    rw [h, render]
  | group delimiter content =>
    rw [Rewritten] at h
    cases h with
    | intro context h =>
      rw [h, render]
      cases delimiter with
      | brace =>
        simp only [rewriteGroup, if_true, List.map_cons, List.map_nil, width,
          length_transformScope]
      | parenthesis => rfl
      | bracket => rfl
      | none => rfl
  | function head signature body => cases hitem
  | declaration head signature joint => cases hitem

theorem width_instrumented {eligible : Head → Prop} {statement : List TokenTree → Prop}
    {piece : Piece} {tokens : List TokenTree} (hitem : piece.isItem = false)
    (h : Instrumented eligible statement piece tokens) :
    tokens.map width = piece.render.map width := by
  cases piece with
  | leaf l =>
    rw [Instrumented] at h
    rw [h, render]
  | group delimiter content =>
    rw [Instrumented] at h
    obtain ⟨inner, hinner, rfl⟩ := h
    simp only [render, List.map_cons, List.map_nil, width, hinner.length]
  | function head signature body => cases hitem
  | declaration head signature joint => cases hitem

/-- The widths of a stream without items, from those of its pieces. -/
theorem width_all {one : Piece → List TokenTree → Prop} {all : List Piece → List TokenTree → Prop}
    (hone : ∀ piece tokens, piece.isItem = false → one piece tokens →
      tokens.map width = piece.render.map width)
    (hnil : ∀ tokens, all [] tokens → tokens = [])
    (hcons : ∀ piece rest tokens, all (piece :: rest) tokens →
      ∃ first second, one piece first ∧ all rest second ∧ tokens = first ++ second)
    {pieces : List Piece} {tokens : List TokenTree}
    (hitems : ∀ piece ∈ pieces, piece.isItem = false) (h : all pieces tokens) :
    tokens.map width = (renderAll pieces).map width := by
  induction pieces generalizing tokens with
  | nil => rw [hnil tokens h, renderAll]
  | cons piece rest ih =>
    obtain ⟨first, second, hfirst, hsecond, rfl⟩ := hcons piece rest tokens h
    rw [List.forall_mem_cons] at hitems
    have hpiece := hone piece first hitems.1 hfirst
    have hrest := ih hitems.2 hsecond
    rw [renderAll, List.map_append, List.map_append, hpiece, hrest]

theorem width_rewrittenAll {pieces : List Piece} {tokens : List TokenTree}
    (hitems : ∀ piece ∈ pieces, piece.isItem = false) (h : RewrittenAll printer pieces tokens) :
    tokens.map width = (renderAll pieces).map width := by
  refine @width_all (Rewritten printer) (RewrittenAll printer)
    (fun _ _ hitem => width_rewritten hitem) ?_ ?_ pieces tokens hitems h
  · intro tokens hnil
    rwa [RewrittenAll] at hnil
  · intro piece rest tokens hcons
    rwa [RewrittenAll] at hcons

theorem width_instrumentedAll {pieces : List Piece} {tokens : List TokenTree}
    (hitems : ∀ piece ∈ pieces, piece.isItem = false)
    {eligible : Head → Prop} {statement : List TokenTree → Prop}
    (h : InstrumentedAll eligible statement pieces tokens) :
    tokens.map width = (renderAll pieces).map width := by
  refine @width_all (Instrumented eligible statement) (InstrumentedAll eligible statement)
    (fun _ _ hitem => width_instrumented hitem) ?_ ?_ pieces tokens hitems h
  · intro tokens hnil
    rwa [InstrumentedAll] at hnil
  · intro piece rest tokens hcons
    rwa [InstrumentedAll] at hcons

theorem not_instrumented_addHook {signature : List Piece} {types : List TokenTree}
    (hsignature : Piece.Signature 0 signature) (htypes : RewrittenAll printer signature types)
    {k : Nat} {stream : List TokenTree} (hk : types[k]? = some (.group .brace stream))
    (identity : String) {eligible : Head → Prop} {statement : List TokenTree → Prop} :
    ¬ InstrumentedAll eligible statement signature (types.modify k (addHook printer identity)) := by
  intro h
  have hitems := not_item_of_signature hsignature
  have hwidths : (types.modify k (addHook printer identity)).map width = types.map width :=
    (width_instrumentedAll hitems h).trans (width_rewrittenAll hitems htypes).symm
  have hplace := congrArg (fun widths => widths[k]?) hwidths
  simp only [List.getElem?_map, List.getElem?_modify_eq, hk, Option.map_eq_map, Option.map_some,
    addHook, width, Option.some.injEq, List.length_append] at hplace
  have hhook : (hook printer identity).length = 14 := rfl
  omega

theorem length_of_width {first second : List TokenTree}
    (h : first.map width = second.map width) : first.length = second.length := by
  have hlength := congrArg List.length h
  rwa [List.length_map, List.length_map] at hlength

theorem length_turned {pending : List (Bool × Attribute)} {head : Head} {signature : List Piece}
    {types out : List TokenTree} {last : TokenTree}
    (h : Turned printer pending head signature types last out) :
    out.length = head.tokens.length + types.length + 1 := by
  cases h with
  | skipped hskips => simp only [List.length_append, List.length_singleton]
  | bare hskips hbare hk identity =>
    simp only [List.length_append, List.length_modify, List.length_singleton]
  | hooked hskips hbare identity => simp only [List.length_append, List.length_singleton]

theorem length_hooked {pending : List (Bool × Attribute)} {piece : Piece} {out : List TokenTree}
    (hsound : piece.Sound) (h : Hooked printer pending piece out) :
    out.length = piece.render.length := by
  cases h with
  | other hitem h => exact length_of_width (width_rewritten hitem h)
  | function context htypes hturn =>
    rw [Sound] at hsound
    have htypes' := length_of_width (width_rewrittenAll (not_item_of_signature hsound.1) htypes)
    simp only [length_turned hturn, render, List.length_append, htypes', List.length_singleton]
  | declaration htypes hturn =>
    rw [Sound] at hsound
    have htypes' := length_of_width (width_rewrittenAll (not_item_of_signature hsound) htypes)
    simp only [length_turned hturn, render, List.length_append, htypes', List.length_singleton]

/-! ### Piece by piece -/

/-- The rewrite does to the stream what it should exactly when the stream is covered: as a
scope, and as the signature of a function. -/
def Settled (printer : Printer) (pieces : List Piece) : Prop :=
  (∀ context, Scope true pieces →
    (InstrumentedAll Profiled (IsHook printer) pieces
      (transformScope printer (renderAll pieces) context) ↔ CoveredAll printer [] pieces)) ∧
  ∀ depth types, Piece.Signature depth pieces → RewrittenAll printer pieces types →
    (InstrumentedAll Profiled (IsHook printer) pieces types ↔ CoveredAll printer [] pieces)

/-- A piece that is no item: braces are scopes, other groups stay as they are. -/
theorem instrumented_other {piece : Piece} {tokens : List TokenTree}
    (hitem : piece.isItem = false) (hsound : piece.Sound)
    (hwithin : Within (Settled printer) piece) (h : Rewritten printer piece tokens)
    (pending : List (Bool × Attribute)) :
    Instrumented Profiled (IsHook printer) piece tokens ↔ Covered printer pending piece := by
  cases piece with
  | leaf l =>
    rw [Rewritten] at h
    rw [Instrumented, Covered]
    exact iff_of_true h trivial
  | group delimiter content =>
    rw [Rewritten] at h
    rw [Sound] at hsound
    cases h with
    | intro context h =>
      rw [h, rewriteGroup, instrumented_group, Covered]
      by_cases hbrace : delimiter = .brace
      · rw [if_pos hbrace, if_pos hbrace]
        exact hwithin.1 context hsound
      · rw [if_neg hbrace, if_neg hbrace]
        exact instrumentedAll_render isHook_ne_nil content
  | function head signature body => cases hitem
  | declaration head signature joint => cases hitem

/-- One turn of the loop puts the hook of a function right unless the texts of its attributes
hold a marker, or its signature holds a macro. -/
theorem instrumented_turned_function (hprinter : printer.Prints)
    {pending : List (Bool × Attribute)} {head : Head} {signature body : List Piece}
    {types out : List TokenTree} {context : Option String}
    (hsound : Sound (.function head signature body))
    (hwithin : Within (Settled printer) (.function head signature body))
    (htypes : RewrittenAll printer signature types)
    (hturn : Turned printer pending head signature types
      (rewriteGroup printer context .brace (renderAll body)) out) :
    Instrumented Profiled (IsHook printer) (.function head signature body) out ↔
      Covered printer pending (.function head signature body) := by
  rw [Sound] at hsound
  have hsignature := hwithin.1.2 0 types hsound.1 htypes
  have hbody := hwithin.2.1 context hsound.2
  have hinner := length_transformScope printer (renderAll body) context
  have hskips := skips_iff printer pending head
  rw [Covered]
  cases hturn with
  | skipped hskip =>
    -- a function that is passed over is right when it is not to be profiled
    have hfunction := @instrumented_function Profiled (IsHook printer) isHook_ne_nil head
      signature body types [] _ (.inl rfl) hinner
    rw [List.nil_append, hsignature, hbody] at hfunction
    rw [rewriteGroup, if_pos rfl, hfunction]
    refine and_congr_left fun _ => ?_
    constructor
    · intro hnone hprofiled
      exact absurd rfl (hnone.mp hprofiled)
    · intro hclear
      refine iff_of_false (fun hprofiled => ?_) (not_not.mpr rfl)
      cases hskips.mp hskip with
      | inl hmarker =>
        obtain ⟨a, ha, htext⟩ := hmarker
        exact Bool.false_ne_true (((hclear hprofiled).1 a ha).symm.trans htext)
      | inr hconst => exact hprofiled.1 hconst
  | bare hskip hbare hk identity =>
    have hprofiled := profiled_of_not_skipped hprinter hskip
    refine iff_of_false ?_ fun h => Bool.false_ne_true ((h.1 hprofiled).2.symm.trans hbare)
    intro h
    rw [Instrumented] at h
    obtain ⟨lead, types', inner, -, htypes', -, heq⟩ := h
    rw [List.append_assoc, List.append_assoc, List.append_right_inj] at heq
    obtain ⟨rfl, -⟩ := List.append_inj' heq rfl
    exact not_instrumented_addHook hsound.1 htypes hk identity htypes'
  | hooked hskip hbare identity =>
    have hprofiled := profiled_of_not_skipped hprinter hskip
    have hfunction := @instrumented_function Profiled (IsHook printer) isHook_ne_nil head
      signature body types (hook printer identity) _ (.inr ⟨identity, rfl⟩) hinner
    rw [hsignature, hbody] at hfunction
    rw [rewriteGroup, if_pos rfl, addHook, hfunction]
    refine and_congr_left fun _ => iff_of_true ?_ ?_
    · exact iff_of_true hprofiled (isHook_ne_nil _ ⟨identity, rfl⟩)
    · refine fun _ => ⟨fun a ha => ?_, hbare⟩
      rw [← Bool.not_eq_true]
      intro htext
      exact Bool.false_ne_true (hskip.symm.trans (hskips.mpr (.inl ⟨a, ha, htext⟩)))

/-- A function without a body stays as it is unless its signature holds a macro. -/
theorem instrumented_turned_declaration {pending : List (Bool × Attribute)} {head : Head}
    {signature : List Piece} {joint : Bool} {types out : List TokenTree}
    (hsound : Sound (.declaration head signature joint))
    (hwithin : Within (Settled printer) (.declaration head signature joint))
    (htypes : RewrittenAll printer signature types)
    (hturn : Turned printer pending head signature types (.punct ';' joint) out) :
    Instrumented Profiled (IsHook printer) (.declaration head signature joint) out ↔
      Covered printer pending (.declaration head signature joint) := by
  rw [Sound] at hsound
  have hsignature := hwithin.2 0 types hsound htypes
  rw [Covered, ← skips_iff printer]
  cases hturn with
  | skipped hskip =>
    rw [instrumented_declaration, hsignature]
    exact (and_iff_right fun _ => hskip).symm
  | bare hskip hbare hk identity =>
    rw [instrumented_declaration]
    exact iff_of_false (not_instrumented_addHook hsound htypes hk identity)
      fun h => Bool.false_ne_true (hskip.symm.trans (h.1 hbare))
  | hooked hskip hbare identity =>
    have hkept : addHook printer identity (.punct ';' joint) = .punct ';' joint := rfl
    rw [hkept, instrumented_declaration, hsignature]
    exact (and_iff_right fun h => absurd (hbare.symm.trans h) Bool.false_ne_true).symm

theorem instrumented_hooked (hprinter : printer.Prints) {pending : List (Bool × Attribute)}
    {piece : Piece} {out : List TokenTree} (hsound : piece.Sound)
    (hwithin : Within (Settled printer) piece) (h : Hooked printer pending piece out) :
    Instrumented Profiled (IsHook printer) piece out ↔ Covered printer pending piece := by
  cases h with
  | other hitem h => exact instrumented_other hitem hsound hwithin h pending
  | function context htypes hturn =>
    exact instrumented_turned_function hprinter hsound hwithin htypes hturn
  | declaration htypes hturn => exact instrumented_turned_declaration hsound hwithin htypes hturn

theorem instrumentedAll_hooked (hprinter : printer.Prints) {pending : List (Bool × Attribute)}
    {pieces : List Piece} {out : List TokenTree} (hsound : ∀ piece ∈ pieces, piece.Sound)
    (hwithin : ∀ piece ∈ pieces, Within (Settled printer) piece)
    (h : HookedAll printer pending pieces out) :
    InstrumentedAll Profiled (IsHook printer) pieces out ↔ CoveredAll printer pending pieces := by
  induction h with
  | nil =>
    rw [InstrumentedAll, CoveredAll]
    exact iff_of_true rfl trivial
  | cons hfirst hrest ih =>
    rw [List.forall_mem_cons] at hsound hwithin
    have hpiece := instrumented_hooked hprinter hsound.1 hwithin.1 hfirst
    have hlater := ih hsound.2 hwithin.2
    rw [instrumentedAll_cons (length_hooked hsound.1 hfirst), CoveredAll, hpiece, hlater]

theorem nextPending_of_shift {depth next : Nat} {piece : Piece}
    (h : piece.shift depth = some next) (pending : List (Bool × Attribute)) :
    nextPending pending piece = [] := by
  cases piece with
  | leaf l =>
    cases l with
    | innerAttribute joint a => cases h
    | _ => rfl
  | _ => rfl

/-- A signature, of which only the braces are rewritten. -/
theorem instrumentedAll_rewritten {depth : Nat} {pieces : List Piece} {types : List TokenTree}
    (hsignature : Piece.Signature depth pieces)
    (hwithin : ∀ piece ∈ pieces, Within (Settled printer) piece)
    (h : RewrittenAll printer pieces types) :
    InstrumentedAll Profiled (IsHook printer) pieces types ↔ CoveredAll printer [] pieces := by
  induction pieces generalizing depth types with
  | nil =>
    rw [RewrittenAll] at h
    rw [InstrumentedAll, CoveredAll]
    exact iff_of_true h trivial
  | cons piece rest ih =>
    rw [RewrittenAll] at h
    rw [List.forall_mem_cons] at hwithin
    obtain ⟨first, second, hfirst, hsecond, rfl⟩ := h
    obtain ⟨next, hshift, hsound, -, hlater⟩ := signature_cons hsignature
    have hitem := item_of_shift hshift
    have hlength := length_of_width (width_rewritten hitem hfirst)
    have hpiece := instrumented_other hitem hsound hwithin.1 hfirst []
    have hrest := ih hlater hwithin.2 hsecond
    rw [instrumentedAll_cons hlength, CoveredAll, nextPending_of_shift hshift, hpiece, hrest]

theorem settled (hprinter : printer.Prints) (pieces : List Piece) : Settled printer pieces := by
  induction pieces using stream_induction with
  | step pieces hwithin =>
    refine ⟨fun context hscope => ?_, fun depth types hsignature htypes => ?_⟩
    · have htidy := tidy_of_scope hscope
      exact instrumentedAll_hooked hprinter (fun piece hpiece => (htidy piece hpiece).1) hwithin
        (transformScope_pieces printer context hscope)
    · exact instrumentedAll_rewritten hsignature hwithin htypes

/-- Every eligible function of a source gets its one hook, at the head of its body, and nothing
else changes, exactly when the source is covered. -/
theorem every_function_hooked_iff (printer : Printer) (hprinter : printer.Prints)
    {pieces : List Piece} (hscope : Scope true pieces) (context : Option String) :
    InstrumentedAll Profiled (IsHook printer) pieces
        (transformScope printer (renderAll pieces) context) ↔ CoveredAll printer [] pieces :=
  (settled hprinter pieces).1 context hscope

end Iff

/-! ### Plain text -/

mutual

def spell : TokenTree → List Char
  | .ident name => name.toList
  | .punct char _ => [char]
  | .literal text => text.toList
  | .group .parenthesis stream => '(' :: spellAll stream ++ [')']
  | .group .brace stream => '{' :: spellAll stream ++ ['}']
  | .group .bracket stream => '[' :: spellAll stream ++ [']']
  | .group .none stream => spellAll stream

def spellAll : List TokenTree → List Char
  | [] => []
  | token :: rest => spell token ++ (if rest.isEmpty then [] else [' ']) ++ spellAll rest

end

def spaced : Printer where
  display stream := String.ofList (spellAll stream)
  escaped _ := false

theorem spaced_prints : spaced.Prints := by
  intro name stream h
  rw [spaced, String.toList_ofList]
  induction h with
  | here =>
    rw [spellAll, spell, List.append_assoc]
    exact (List.prefix_append _ _).isInfix
  | @inside delimiter stream rest h ih =>
    have hgroup : spellAll stream <:+: spell (.group delimiter stream) := by
      cases delimiter with
      | none => exact List.infix_refl _
      | parenthesis => exact List.infix_append ['('] _ [')']
      | brace => exact List.infix_append ['\x7b'] _ ['\x7d']
      | bracket => exact List.infix_append ['['] _ [']']
    rw [spellAll, List.append_assoc]
    exact ih.trans (hgroup.trans (List.prefix_append _ _).isInfix)
  | later h ih =>
    rw [spellAll]
    exact ih.trans (List.suffix_append _ _).isInfix

/-- `impl S { #[inline] fn f<const N: usize>() -> i32 {} }` -/
theorem method_hooked :
    let pieces := [.leaf (.token (.ident "impl")), .leaf (.token (.ident "S")), .group .brace
      [.function ⟨[⟨false, [.ident "inline"]⟩], [], "f", by simp, by decide⟩
        [.leaf (.opening false), .leaf (.token (.ident "const")), .leaf (.token (.ident "N")),
          .leaf (.token (.punct ':' false)), .leaf (.token (.ident "usize")),
          .leaf (.closing false), .group .parenthesis [], .leaf (.arrow true false),
          .leaf (.token (.ident "i32"))] []]]
    InstrumentedAll Profiled (IsHook spaced) pieces
      (transformScope spaced (renderAll pieces) none) := by
  intro pieces
  have hscope : Scope true pieces := by
    simp [pieces, Scope, Sound, Piece.Signature, allowed, isKeyword, shift]
  have htext : markerText spaced ⟨false, [.ident "inline"]⟩ = false := by
    simp only [markerText, isMarked, spaced, spellAll, spell, String.toList_ofList,
      Bool.or_eq_false_iff, decide_eq_false_iff_not]
    refine ⟨fun h => ?_, fun h => ?_⟩
    · have hlength := h.length_le
      simp at hlength
    · have hletter := h.subset (show 'k' ∈ _ by simp)
      simp at hletter
  rw [every_function_hooked_iff spaced spaced_prints hscope none]
  simp [pieces, CoveredAll, Covered, bareBrace, isBraces, shift, htext, IdleAll]

def nakedPointers : Attribute :=
  ⟨false, [.ident "doc", .punct '=' false, .literal "\" naked pointers\""]⟩

theorem eq_of_marks_value {marker name : String} {joint : Bool} {rest : List TokenTree}
    (h : Marks marker (.ident name :: .punct '=' joint :: rest)) : name = marker := by
  generalize hstream : TokenTree.ident name :: .punct '=' joint :: rest = stream at h
  cases h with
  | path h => injection (List.cons.inj hstream).1
  | segment h => simp at hstream
  | wrapped h => simp at hstream
  | conditional h => simp at hstream

/-- A function the documentation of which speaks of naked pointers is not profiled. -/
theorem naked_pointers_unhooked :
    let head : Head := ⟨[nakedPointers], [], "f", by simp, by decide⟩
    let pieces := [.function head [.group .parenthesis []] []]
    Scope true pieces ∧ Profiled head ∧
      ¬ InstrumentedAll Profiled (IsHook spaced) pieces
        (transformScope spaced (renderAll pieces) none) := by
  intro head pieces
  have hscope : Scope true pieces := by
    simp [pieces, Scope, Sound, Piece.Signature, allowed, isKeyword, shift]
  have hprofiled : Profiled head := by
    refine ⟨by simp [Head.IsConst, head], fun marker hmarker a ha hmarks => ?_⟩
    rw [List.mem_singleton.mp ha, nakedPointers] at hmarks
    simp only [List.mem_cons, List.not_mem_nil, or_false] at hmarker
    rw [← eq_of_marks_value hmarks] at hmarker
    simp at hmarker
  have htext : markerText spaced nakedPointers = true := by
    simp only [markerText, isMarked, spaced, nakedPointers, spellAll, spell,
      String.toList_ofList, Bool.or_eq_true, decide_eq_true_eq]
    exact .inr ⟨"doc = \" ".toList, " pointers\"".toList, by simp⟩
  refine ⟨hscope, hprofiled, fun h => ?_⟩
  rw [(settled spaced_prints pieces).1 none hscope, CoveredAll, Covered] at h
  have hclear := (h.1.1 hprofiled).1 nakedPointers (by simp [head])
  exact Bool.false_ne_true (hclear.symm.trans htext)

end AgnostOS.ProfileMacro
