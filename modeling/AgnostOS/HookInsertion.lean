import AgnostOS.Instrumentation

/-! What `transform_scope` does to any token stream: it puts hooks at the head of function
bodies and leaves everything else as it is, at every depth. -/
namespace AgnostOS.ProfileMacro
open TokenTree MarkedTree

/-! ### What is inside the braces of a scope does not matter -/

section Outline

theorem endsItem_outline (token : TokenTree) : endsItem token.outline = endsItem token := by
  cases token with
  | group delimiter stream => cases delimiter <;> rfl
  | _ => rfl

theorem isIdent_outline (name : String) (token : TokenTree) :
    isIdent name token.outline = isIdent name token := by
  cases token with
  | group delimiter stream => cases delimiter <;> rfl
  | _ => rfl

theorem isMarked_outline (printer : Printer) (marker : String) (token : TokenTree) :
    isMarked printer marker token.outline = isMarked printer marker token := by
  cases token with
  | group delimiter stream => cases delimiter <;> rfl
  | _ => rfl

theorem functionName_outline (tokens : List TokenTree) (index : Nat) :
    functionName (tokens.map outline) index = functionName tokens index := by
  simp only [functionName, List.getElem?_map]
  cases tokens[index]? with
  | none => rfl
  | some first =>
    cases tokens[index + 1]? with
    | none => cases first with
      | group delimiter stream => cases delimiter <;> rfl
      | _ => rfl
    | some second =>
      cases first with
      | ident keyword => cases second with
        | group delimiter stream => cases delimiter <;> rfl
        | _ => rfl
      | group delimiter stream => cases delimiter <;> rfl
      | _ => rfl

theorem bodyFrom_outline (angleDepth : Nat) (previousWasMinus : Bool) (tokens : List TokenTree)
    (position : Nat) :
    bodyFrom angleDepth previousWasMinus (tokens.map outline) position =
      bodyFrom angleDepth previousWasMinus tokens position := by
  induction tokens generalizing angleDepth previousWasMinus position with
  | nil => rfl
  | cons token rest ih =>
    cases token with
    | ident name => exact ih ..
    | literal text => exact ih ..
    | punct char joint =>
      rw [List.map_cons, outline_of_not_brace rfl]
      unfold bodyFrom
      simp only [ih]
    | group delimiter stream =>
      cases delimiter with
      | brace =>
        rw [List.map_cons, outline_brace, bodyFrom, bodyFrom, ih]
      | parenthesis => exact ih ..
      | bracket => exact ih ..
      | none => exact ih ..

theorem functionBodyIndex_outline (tokens : List TokenTree) (index : Nat) :
    functionBodyIndex (tokens.map outline) index = functionBodyIndex tokens index := by
  rw [functionBodyIndex, functionBodyIndex, ← List.map_drop, bodyFrom_outline]

theorem itemWindow_outline (tokens : List TokenTree) (index : Nat) :
    itemWindow (tokens.map outline) index = (itemWindow tokens index).map outline := by
  have hends : (fun token => !endsItem token) ∘ outline = fun token => !endsItem token := by
    funext token
    rw [Function.comp_apply, endsItem_outline]
  rw [itemWindow, itemWindow, List.rtakeWhile, List.rtakeWhile, ← List.map_take,
    ← List.map_reverse, List.takeWhile_map, hends, ← List.map_reverse]

theorem any_itemWindow_outline {p : TokenTree → Bool} (hp : ∀ token, p token.outline = p token)
    (tokens : List TokenTree) (index : Nat) :
    (itemWindow (tokens.map outline) index).any p = (itemWindow tokens index).any p := by
  rw [itemWindow_outline, List.any_map]
  congr 1
  funext token
  exact hp token

theorem isSkipped_outline (printer : Printer) (tokens : List TokenTree) (index : Nat) :
    isSkipped printer (tokens.map outline) index = isSkipped printer tokens index := by
  simp only [isSkipped, hasMarkerBefore, isConstFunction]
  rw [any_itemWindow_outline (isMarked_outline printer "not_profiled"),
    any_itemWindow_outline (isMarked_outline printer "naked"),
    any_itemWindow_outline (isIdent_outline "const")]

end Outline

/-- Where the hook of the function at `index` goes, and whose it is. -/
def hookPlace (printer : Printer) (tokens : List TokenTree) (index : Nat) :
    Option (Nat × String) :=
  if isSkipped printer tokens index then none
  else
    match functionName tokens index, functionBodyIndex tokens index with
    | some name, some bodyIndex => some (bodyIndex, name)
    | _, _ => none

theorem hookPlace_outline (printer : Printer) (tokens : List TokenTree) (index : Nat) :
    hookPlace printer (tokens.map outline) index = hookPlace printer tokens index := by
  rw [hookPlace, isSkipped_outline, functionName_outline, functionBodyIndex_outline, hookPlace]

theorem hookPlace_congr {tokens other : List TokenTree}
    (h : tokens.map outline = other.map outline) (printer : Printer) (index : Nat) :
    hookPlace printer tokens index = hookPlace printer other index := by
  rw [← hookPlace_outline, h, hookPlace_outline]

theorem hookPlace_eq_some {printer : Printer} {tokens : List TokenTree} {index bodyIndex : Nat}
    {name : String} : hookPlace printer tokens index = some (bodyIndex, name) ↔
      isSkipped printer tokens index = false ∧ functionName tokens index = some name ∧
        functionBodyIndex tokens index = some bodyIndex := by
  rw [hookPlace]
  cases isSkipped printer tokens index with
  | true => simp
  | false =>
    cases functionName tokens index with
    | none => simp
    | some found =>
      cases functionBodyIndex tokens index with
      | none => simp
      | some place => simp [and_comm]

/-- The body that the scan finds is a brace group at or behind its start. -/
theorem bodyFrom_spec {angleDepth position bodyIndex : Nat} {previousWasMinus : Bool}
    {tokens : List TokenTree}
    (h : bodyFrom angleDepth previousWasMinus tokens position = some bodyIndex) :
    ∃ k stream, bodyIndex = position + k ∧ tokens[k]? = some (.group .brace stream) := by
  induction tokens generalizing angleDepth previousWasMinus position with
  | nil => cases h
  | cons token rest ih =>
    have hlater : ∀ {depth minus}, bodyFrom depth minus rest (position + 1) = some bodyIndex →
        ∃ k stream, bodyIndex = position + k ∧
          (token :: rest)[k]? = some (.group .brace stream) := by
      intro depth minus hrest
      cases ih hrest with
      | intro k hk =>
        cases hk with
        | intro stream hstream =>
          exact ⟨k + 1, stream, by omega, hstream.2⟩
    rw [bodyFrom.eq_def] at h
    dsimp only at h
    split at h
    · cases h
    · exact hlater h
    · exact hlater h
    · exact hlater h
    · next stream =>
      split at h
      · cases h
        exact ⟨0, stream, rfl, rfl⟩
      · exact hlater h
    · exact hlater h

theorem functionBodyIndex_spec {tokens : List TokenTree} {index bodyIndex : Nat}
    (h : functionBodyIndex tokens index = some bodyIndex) :
    index + 2 ≤ bodyIndex ∧ ∃ stream, tokens[bodyIndex]? = some (.group .brace stream) := by
  cases bodyFrom_spec h with
  | intro k hk =>
    cases hk with
    | intro stream hstream =>
      have hget := hstream.2
      rw [List.getElem?_drop, ← hstream.1] at hget
      exact ⟨by omega, stream, hget⟩

def addHook (printer : Printer) (identity : String) : TokenTree → TokenTree
  | .group _ original => .group .brace (hook printer identity ++ original)
  | token => token

theorem insertHook_eq (printer : Printer) (context : Option String) (tokens : List TokenTree)
    (index : Nat) :
    insertHook printer context tokens index =
      match hookPlace printer tokens index with
      | none => tokens
      | some (bodyIndex, name) =>
        tokens.modify bodyIndex (addHook printer (hookIdentity context name)) := by
  rw [insertHook, hookPlace]
  cases isSkipped printer tokens index with
  | true => rfl
  | false =>
    rw [if_neg Bool.false_ne_true, if_neg Bool.false_ne_true]
    cases functionName tokens index with
    | none => rfl
    | some name =>
      cases hbody : functionBodyIndex tokens index with
      | none => rfl
      | some bodyIndex =>
        cases (functionBodyIndex_spec hbody).2 with
        | intro stream hstream =>
          simp only [hstream]
          rw [List.modify_eq_set_getElem?, hstream]
          rfl

/-! ### Marked scopes -/

inductive HooksPlaced : List (MarkedTree String) → Prop where
  | intro {trees : List (MarkedTree String)}
      (selected : ∀ (i : Nat) (identities : List String) (content : List (MarkedTree String)),
        trees[i]? = some (.brace identities content) → identities ≠ [] →
          ∃ index, (functionName (stripAll trees) index).isSome ∧
            functionBodyIndex (stripAll trees) index = some i)
      (inner : ∀ (i : Nat) (identities : List String) (content : List (MarkedTree String)),
        trees[i]? = some (.brace identities content) → HooksPlaced content) :
      HooksPlaced trees

structure Opened (trees : List (MarkedTree String)) : Prop where
  braces : ∀ (i : Nat) (token : TokenTree), trees[i]? = some (.plain token) →
    token.isBrace = false
  placed : HooksPlaced trees

theorem outline_emitAll (printer : Printer) (trees : List (MarkedTree String)) :
    (emitAll (hook printer) trees).map outline = (stripAll trees).map outline := by
  rw [emitAll_eq_map, stripAll_eq_map, List.map_map, List.map_map]
  apply List.map_congr_left
  intro tree _
  exact outline_emit (hook printer) tree

theorem stripAll_modify (trees : List (MarkedTree String)) (i : Nat) (identity : String) :
    stripAll (trees.modify i (addMark identity)) = stripAll trees := by
  rw [stripAll_eq_map, stripAll_eq_map]
  apply List.ext_getElem?
  intro j
  rw [List.getElem?_map, List.getElem?_map, List.getElem?_modify]
  cases trees[j]? with
  | none => rfl
  | some tree =>
    by_cases hi : i = j
    · simp [hi]
    · simp [hi]

theorem Opened.brace_of_body {trees : List (MarkedTree String)} (h : Opened trees) {i index : Nat}
    (hbody : functionBodyIndex (stripAll trees) index = some i) :
    ∃ identities content, trees[i]? = some (.brace identities content) := by
  obtain ⟨-, stream, hstream⟩ := functionBodyIndex_spec hbody
  rw [stripAll_eq_map, List.getElem?_map] at hstream
  cases htree : trees[i]? with
  | none =>
    rw [htree] at hstream
    cases hstream
  | some tree =>
    cases tree with
    | plain token =>
      have hbrace := h.braces i token htree
      rw [htree] at hstream
      have htoken : token = .group .brace stream := Option.some.inj hstream
      rw [htoken] at hbrace
      cases hbrace
    | brace identities content => exact ⟨identities, content, rfl⟩

theorem emitAll_modify (printer : Printer) {trees : List (MarkedTree String)} {i : Nat}
    {identities : List String} {content : List (MarkedTree String)}
    (h : trees[i]? = some (.brace identities content)) (identity : String) :
    emitAll (hook printer) (trees.modify i (addMark identity)) =
      (emitAll (hook printer) trees).modify i (addHook printer identity) := by
  rw [emitAll_eq_map, emitAll_eq_map]
  apply List.ext_getElem?
  intro j
  rw [List.getElem?_map, List.getElem?_modify, List.getElem?_modify, List.getElem?_map]
  by_cases hi : i = j
  · rw [← hi, h]
    simp [MarkedTree.addMark, emit, addHook]
  · simp [hi]

theorem Opened.addMark {trees : List (MarkedTree String)} (h : Opened trees) {i index : Nat}
    (hname : (functionName (stripAll trees) index).isSome)
    (hbody : functionBodyIndex (stripAll trees) index = some i) (identity : String) :
    Opened (trees.modify i (MarkedTree.addMark identity)) := by
  -- what stands at a place afterwards stood there before, but for the marks at i
  have hbefore : ∀ j tree, (trees.modify i (MarkedTree.addMark identity))[j]? = some tree →
      trees[j]? = some tree ∨ j = i ∧ ∃ before, trees[j]? = some before ∧
        tree = before.addMark identity := by
    intro j tree hget
    rw [List.getElem?_modify] at hget
    by_cases hi : i = j
    · cases hj : trees[j]? with
      | none =>
        rw [hj] at hget
        cases hget
      | some before =>
        rw [hj] at hget
        refine .inr ⟨hi.symm, before, rfl, ?_⟩
        simpa [hi] using hget.symm
    · left
      simpa [hi] using hget
  cases h.placed with
  | intro selected inner =>
    constructor
    · intro j token hget
      cases hbefore j _ hget with
      | inl hsame => exact h.braces j token hsame
      | inr hmarked =>
        obtain ⟨-, before, hj, htree⟩ := hmarked
        cases before with
        | plain old =>
          cases htree
          exact h.braces j _ hj
        | brace identities content => cases htree
    · constructor
      · intro j identities content hget hne
        rw [stripAll_modify]
        cases hbefore j _ hget with
        | inl hsame => exact selected j identities content hsame hne
        | inr hmarked => exact ⟨index, hname, hmarked.1 ▸ hbody⟩
      · intro j identities content hget
        cases hbefore j _ hget with
        | inl hsame => exact inner j identities content hsame
        | inr hmarked =>
          obtain ⟨-, before, hj, htree⟩ := hmarked
          cases before with
          | plain old => cases htree
          | brace old oldContent =>
            cases htree
            exact inner j old content hj

theorem insertHook_marked (printer : Printer) (context : Option String)
    {trees : List (MarkedTree String)} (h : Opened trees) (index : Nat) :
    ∃ trees', emitAll (hook printer) trees' =
        insertHook printer context (emitAll (hook printer) trees) index ∧
      stripAll trees' = stripAll trees ∧ Opened trees' := by
  rw [insertHook_eq]
  cases hplace : hookPlace printer (emitAll (hook printer) trees) index with
  | none => exact ⟨trees, rfl, rfl, h⟩
  | some place =>
    cases place with
    | mk bodyIndex name =>
      rw [hookPlace_congr (outline_emitAll printer trees), hookPlace_eq_some] at hplace
      obtain ⟨identities, content, hbrace⟩ := h.brace_of_body hplace.2.2
      refine ⟨trees.modify bodyIndex (addMark (hookIdentity context name)), ?_, ?_, ?_⟩
      · exact emitAll_modify printer hbrace _
      · exact stripAll_modify trees bodyIndex _
      · exact h.addMark (hplace.2.1 ▸ rfl) hplace.2.2 _

theorem insertHooks_marked (printer : Printer) (context : Option String) (indices : List Nat)
    {trees : List (MarkedTree String)} (h : Opened trees) :
    ∃ trees', emitAll (hook printer) trees' =
        indices.foldl (insertHook printer context) (emitAll (hook printer) trees) ∧
      stripAll trees' = stripAll trees ∧ Opened trees' := by
  induction indices generalizing trees with
  | nil => exact ⟨trees, rfl, rfl, h⟩
  | cons index indices ih =>
    obtain ⟨next, hemit, hstrip, hopened⟩ := insertHook_marked printer context h index
    obtain ⟨trees', hemit', hstrip', hopened'⟩ := ih hopened
    refine ⟨trees', ?_, hstrip'.trans hstrip, hopened'⟩
    rw [hemit', hemit, List.foldl_cons]

/-! ### All depths -/

inductive Fresh : MarkedTree String → Prop where
  | plain {token : TokenTree} (h : token.isBrace = false) : Fresh (.plain token)
  | brace {content : List (MarkedTree String)} (h : HooksPlaced content) :
      Fresh (.brace [] content)

theorem opened_of_fresh {trees : List (MarkedTree String)} (h : ∀ tree ∈ trees, Fresh tree) :
    Opened trees := by
  have hat : ∀ {i tree}, trees[i]? = some tree → Fresh tree := fun hget =>
    h _ (List.mem_of_getElem? hget)
  constructor
  · intro i token hget
    cases hat hget with
    | plain hbrace => exact hbrace
  · constructor
    · intro i identities content hget hne
      cases hat hget with
      | brace hplaced => exact absurd rfl hne
    · intro i identities content hget
      cases hat hget with
      | brace hplaced => exact hplaced

section Depth
variable (printer : Printer)

theorem insertHooks_fresh (context : Option String) {trees : List (MarkedTree String)}
    {stream tokens : List TokenTree} (hemit : emitAll (hook printer) trees = tokens)
    (hstrip : stripAll trees = stream) (hfresh : ∀ tree ∈ trees, Fresh tree) :
    ∃ trees', emitAll (hook printer) trees' = insertHooks printer context tokens ∧
      stripAll trees' = stream ∧ HooksPlaced trees' := by
  obtain ⟨trees', hemit', hstrip', hopened⟩ := insertHooks_marked printer context
    (functionIndices tokens).reverse (opened_of_fresh hfresh)
  rw [hemit] at hemit'
  exact ⟨trees', hemit', hstrip'.trans hstrip, hopened.placed⟩

mutual

theorem transformToken_marked (context : Option String) (original : List TokenTree) (index : Nat) :
    (token : TokenTree) → ∃ tree, tree.emit (hook printer) =
      transformToken printer context original index token ∧ tree.strip = token ∧ Fresh tree
  | .ident name => ⟨.plain (.ident name), rfl, rfl, .plain rfl⟩
  | .punct char joint => ⟨.plain (.punct char joint), rfl, rfl, .plain rfl⟩
  | .literal text => ⟨.plain (.literal text), rfl, rfl, .plain rfl⟩
  | .group .parenthesis stream => ⟨.plain (.group .parenthesis stream), rfl, rfl, .plain rfl⟩
  | .group .bracket stream => ⟨.plain (.group .bracket stream), rfl, rfl, .plain rfl⟩
  | .group .none stream => ⟨.plain (.group .none stream), rfl, rfl, .plain rfl⟩
  | .group .brace stream => by
    obtain ⟨trees, hemit, hstrip, hfresh⟩ := transformTokens_marked
      ((scopeContext printer original index).or context) stream 0 stream
    obtain ⟨trees', hemit', hstrip', hplaced⟩ := insertHooks_fresh printer
      ((scopeContext printer original index).or context) hemit hstrip hfresh
    refine ⟨.brace [] trees', ?_, ?_, .brace hplaced⟩
    · rw [emit, hemit', transformToken]
      rfl
    · rw [strip, hstrip']

theorem transformTokens_marked (context : Option String) (original : List TokenTree)
    (index : Nat) : (tokens : List TokenTree) → ∃ trees, emitAll (hook printer) trees =
      transformTokens printer context original index tokens ∧ stripAll trees = tokens ∧
        ∀ tree ∈ trees, Fresh tree
  | [] => ⟨[], rfl, rfl, by simp⟩
  | token :: rest => by
    obtain ⟨tree, hemit, hstrip, hfresh⟩ := transformToken_marked context original index token
    obtain ⟨trees, hemits, hstrips, hfreshes⟩ :=
      transformTokens_marked context original (index + 1) rest
    refine ⟨tree :: trees, ?_, ?_, ?_⟩
    · rw [emitAll, hemit, hemits, transformTokens]
    · rw [stripAll, hstrip, hstrips]
    · simpa using ⟨hfresh, hfreshes⟩

end

end Depth

/-- For every stream and context the output is the input with hooks, at the head of brace
groups that are the body of some function of their scope, and nowhere else. -/
theorem transformScope_inserts (printer : Printer) (stream : List TokenTree)
    (context : Option String) :
    ∃ trees : List (MarkedTree String),
      emitAll (hook printer) trees = transformScope printer stream context ∧
        stripAll trees = stream ∧ HooksPlaced trees := by
  obtain ⟨trees, hemit, hstrip, hfresh⟩ := transformTokens_marked printer context stream 0 stream
  exact insertHooks_fresh printer context hemit hstrip hfresh

end AgnostOS.ProfileMacro
