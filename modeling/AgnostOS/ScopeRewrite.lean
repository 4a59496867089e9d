import AgnostOS.HookInsertion
import AgnostOS.Library.RustItems

/-! `transform_scope` on well-formed sources, piece by piece: the inner scopes, then one
turn of the loop for each function item. -/
namespace AgnostOS.ProfileMacro
open TokenTree RustItems RustItems.Piece

/-! ### Inner scopes -/

section Inner
variable (printer : Printer)

theorem transformToken_of_not_brace {token : TokenTree} (h : token.isBrace = false)
    (context : Option String) (original : List TokenTree) (index : Nat) :
    transformToken printer context original index token = token := by
  cases token with
  | group delimiter stream =>
    cases delimiter with
    | brace => cases h
    | parenthesis => rfl
    | bracket => rfl
    | none => rfl
  | _ => rfl

theorem transformTokens_append (context : Option String) (original first second : List TokenTree)
    (index : Nat) :
    transformTokens printer context original index (first ++ second) =
      transformTokens printer context original index first ++
        transformTokens printer context original (index + first.length) second := by
  induction first generalizing index with
  | nil => rfl
  | cons token rest ih =>
    rw [List.cons_append, transformTokens, ih, transformTokens, List.cons_append, List.length_cons,
      Nat.add_right_comm, Nat.add_assoc]

theorem transformTokens_of_not_brace {tokens : List TokenTree}
    (h : ∀ token ∈ tokens, token.isBrace = false) (context : Option String)
    (original : List TokenTree) (index : Nat) :
    transformTokens printer context original index tokens = tokens := by
  induction tokens generalizing index with
  | nil => rfl
  | cons token rest ih =>
    have hrest := ih (fun t ht => h t (List.mem_cons_of_mem _ ht)) (index + 1)
    rw [transformTokens, transformToken_of_not_brace printer (h token List.mem_cons_self), hrest]

theorem length_transformTokens (context : Option String) (original tokens : List TokenTree)
    (index : Nat) : (transformTokens printer context original index tokens).length =
      tokens.length := by
  induction tokens generalizing index with
  | nil => rfl
  | cons token rest ih => rw [transformTokens, List.length_cons, List.length_cons, ih]

theorem length_insertHook (context : Option String) (tokens : List TokenTree) (index : Nat) :
    (insertHook printer context tokens index).length = tokens.length := by
  rw [insertHook_eq]
  cases hookPlace printer tokens index with
  | none => rfl
  | some place => exact List.length_modify ..

theorem length_transformScope (stream : List TokenTree) (context : Option String) :
    (transformScope printer stream context).length = stream.length := by
  have hfold : ∀ (indices : List Nat) (tokens : List TokenTree),
      (indices.foldl (insertHook printer context) tokens).length = tokens.length := by
    intro indices
    induction indices with
    | nil => exact fun tokens => rfl
    | cons index indices ih =>
      intro tokens
      rw [List.foldl_cons, ih, length_insertHook]
  rw [transformScope, insertHooks, hfold, length_transformTokens]

def rewriteGroup (context : Option String) (delimiter : Delimiter) (stream : List TokenTree) :
    TokenTree :=
  .group delimiter (if delimiter = .brace then transformScope printer stream context else stream)

mutual

def Rewritten : Piece → List TokenTree → Prop
  | .leaf l, out => out = l.tokens
  | .group delimiter content, out =>
    ∃ context, out = [rewriteGroup printer context delimiter (renderAll content)]
  | .function head signature body, out =>
    ∃ types context, RewrittenAll signature types ∧
      out = head.tokens ++ types ++ [rewriteGroup printer context .brace (renderAll body)]
  | .declaration head signature joint, out =>
    ∃ types, RewrittenAll signature types ∧ out = head.tokens ++ types ++ [.punct ';' joint]

def RewrittenAll : List Piece → List TokenTree → Prop
  | [], out => out = []
  | piece :: rest, out =>
    ∃ first second, Rewritten piece first ∧ RewrittenAll rest second ∧ out = first ++ second

end

def isBare : Piece → Bool
  | .leaf (.token (.group _ _)) => false
  | _ => true

theorem isBare_of_allowed {fresh : Bool} {piece : Piece} (h : piece.allowed fresh) :
    isBare piece := by
  cases piece with
  | leaf l =>
    cases l with
    | token t =>
      cases t with
      | group delimiter stream => cases h
      | _ => rfl
    | _ => rfl
  | _ => rfl

theorem isBare_of_shift {depth next : Nat} {piece : Piece} (h : piece.shift depth = some next) :
    isBare piece := by
  cases piece with
  | leaf l =>
    cases l with
    | token t =>
      cases t with
      | group delimiter stream => cases h
      | _ => rfl
    | _ => rfl
  | _ => rfl

def Tidy (pieces : List Piece) : Prop := ∀ piece ∈ pieces, piece.Sound ∧ isBare piece

theorem tidy_of_scope {fresh : Bool} {pieces : List Piece} (h : Scope fresh pieces) :
    Tidy pieces := by
  induction pieces generalizing fresh with
  | nil =>
    intro piece hpiece
    cases hpiece
  | cons piece rest ih =>
    rw [Scope] at h
    rw [Tidy, List.forall_mem_cons]
    exact ⟨⟨h.1, isBare_of_allowed h.2.1⟩, ih h.2.2.2⟩

theorem tidy_of_signature {depth : Nat} {pieces : List Piece} (h : Signature depth pieces) :
    Tidy pieces :=
  forall_mem_signature (fun _ _ _ hshift hsound => ⟨hsound, isBare_of_shift hshift⟩) h

/-- The tokens before `fn` are not the end of an item. -/
theorem lead_open (head : Head) : ∀ token ∈ head.lead, endsItem token = false := by
  apply Head.forall_mem_lead
  · exact fun joint => rfl
  · exact fun stream => rfl
  · intro token hqualifier
    cases token with
    | group delimiter stream => cases delimiter <;> first | rfl | cases hqualifier
    | punct char joint => cases hqualifier
    | _ => rfl

theorem not_brace_of_open {token : TokenTree} (h : endsItem token = false) :
    token.isBrace = false := by
  cases token with
  | group delimiter stream => cases delimiter <;> first | rfl | cases h
  | _ => rfl

theorem head_not_brace (head : Head) : ∀ token ∈ head.tokens, token.isBrace = false := by
  intro token htoken
  cases List.mem_append.mp htoken with
  | inl hlead => exact not_brace_of_open (lead_open head token hlead)
  | inr hname =>
    simp only [List.mem_cons, List.not_mem_nil, or_false] at hname
    cases hname with
    | inl h => exact h ▸ rfl
    | inr h => exact h ▸ rfl

theorem leaf_not_brace {l : Leaf} (h : isBare (.leaf l)) :
    ∀ token ∈ l.tokens, token.isBrace = false := by
  intro token htoken
  cases l with
  | token t =>
    rw [List.mem_singleton.mp htoken]
    cases t with
    | group delimiter stream => cases h
    | _ => rfl
  | innerAttribute joint a =>
    simp only [Leaf.tokens, List.mem_cons, List.not_mem_nil, or_false] at htoken
    rcases htoken with rfl | rfl | rfl <;> rfl
  | arrow first second =>
    simp only [Leaf.tokens, List.mem_cons, List.not_mem_nil, or_false] at htoken
    rcases htoken with rfl | rfl <;> rfl
  | negative joint number =>
    simp only [Leaf.tokens, List.mem_cons, List.not_mem_nil, or_false] at htoken
    rcases htoken with rfl | rfl <;> rfl
  | opening joint => rw [List.mem_singleton.mp htoken]; rfl
  | closing joint => rw [List.mem_singleton.mp htoken]; rfl

theorem transformToken_group (context : Option String) (original : List TokenTree) (index : Nat)
    (delimiter : Delimiter) (stream : List TokenTree) :
    ∃ inherited, transformToken printer context original index (.group delimiter stream) =
      rewriteGroup printer inherited delimiter stream := by
  cases delimiter with
  | brace => exact ⟨_, rfl⟩
  | parenthesis => exact ⟨none, rfl⟩
  | bracket => exact ⟨none, rfl⟩
  | none => exact ⟨none, rfl⟩

mutual

theorem rewritten_transform (context : Option String) (original : List TokenTree) (index : Nat) :
    (piece : Piece) → piece.Sound → isBare piece →
      Rewritten printer piece (transformTokens printer context original index piece.render)
  | .leaf l, _, hbare => by
    rw [Rewritten, render]
    exact transformTokens_of_not_brace printer (leaf_not_brace hbare) context original index
  | .group delimiter content, _, _ => by
    obtain ⟨inherited, hgroup⟩ :=
      transformToken_group printer context original index delimiter (renderAll content)
    rw [Rewritten, render]
    refine ⟨inherited, ?_⟩
    rw [transformTokens, transformTokens, hgroup]
  | .function head signature body, hsound, _ => by
    rw [Sound] at hsound
    rw [Rewritten, render, transformTokens_append, transformTokens_append,
      transformTokens_of_not_brace printer (head_not_brace head)]
    obtain ⟨inherited, hgroup⟩ := transformToken_group printer context original
      (index + (head.tokens ++ renderAll signature).length) .brace (renderAll body)
    have hsignature := rewrittenAll_transform context original (index + head.tokens.length)
      signature (tidy_of_signature hsound.1)
    refine ⟨_, inherited, hsignature, ?_⟩
    rw [transformTokens, transformTokens, hgroup]
  | .declaration head signature joint, hsound, _ => by
    rw [Sound] at hsound
    rw [Rewritten, render, transformTokens_append, transformTokens_append,
      transformTokens_of_not_brace printer (head_not_brace head)]
    have hsignature := rewrittenAll_transform context original (index + head.tokens.length)
      signature (tidy_of_signature hsound)
    exact ⟨_, hsignature, rfl⟩

theorem rewrittenAll_transform (context : Option String) (original : List TokenTree)
    (index : Nat) : (pieces : List Piece) → Tidy pieces →
      RewrittenAll printer pieces
        (transformTokens printer context original index (renderAll pieces))
  | [], _ => by
    rw [RewrittenAll]
    rfl
  | piece :: rest, htidy => by
    have hpiece := htidy piece List.mem_cons_self
    have hfirst := rewritten_transform context original index piece hpiece.1 hpiece.2
    have hrest := rewrittenAll_transform context original (index + piece.render.length) rest
      fun other hother => htidy other (List.mem_cons_of_mem _ hother)
    rw [RewrittenAll, renderAll, transformTokens_append]
    exact ⟨_, _, hfirst, hrest, rfl⟩

end

end Inner

/-! ### Signatures -/

section Signature
variable {printer : Printer}

theorem bodyFrom_punct {char : Char} (h : char ∉ [';', '<', '>', '-']) (depth : Nat)
    (previousWasMinus joint : Bool) (rest : List TokenTree) (position : Nat) :
    bodyFrom depth previousWasMinus (.punct char joint :: rest) position =
      bodyFrom depth false rest (position + 1) := by
  simp only [List.mem_cons, List.not_mem_nil, or_false, not_or] at h
  rw [bodyFrom.eq_def]
  simp [h]

/-- The scan passes every piece of a signature but a bare brace group. -/
theorem bodyFrom_piece {depth next : Nat} {piece : Piece} {tokens : List TokenTree}
    (hshift : piece.shift depth = some next) (htokens : Rewritten printer piece tokens)
    (hbare : (piece.isBraces && depth = 0) = false) (rest : List TokenTree) (position : Nat) :
    bodyFrom depth false (tokens ++ rest) position =
      bodyFrom next false rest (position + tokens.length) := by
  cases piece with
  | leaf l =>
    rw [Rewritten] at htokens
    rw [htokens]
    cases l with
    | token t =>
      cases t with
      | ident name =>
        cases hshift
        rfl
      | literal text =>
        cases hshift
        rfl
      | punct char joint =>
        rw [shift] at hshift
        split at hshift
        · cases hshift
        · next hplain =>
          cases hshift
          exact bodyFrom_punct hplain depth false joint rest position
      | group delimiter stream => cases hshift
    | innerAttribute joint a => cases hshift
    | arrow first second =>
      cases hshift
      rfl
    | negative joint number =>
      cases hshift
      rfl
    | opening joint =>
      cases hshift
      rfl
    | closing joint =>
      rw [shift] at hshift
      split at hshift
      · cases hshift
      · cases hshift
        rfl
  | group delimiter content =>
    rw [Rewritten] at htokens
    cases htokens with
    | intro context htokens =>
      rw [htokens]
      cases hshift
      cases delimiter with
      | brace =>
        have hdepth : depth ≠ 0 := by simpa [isBraces] using hbare
        rw [rewriteGroup, if_pos rfl, List.singleton_append, bodyFrom, if_neg hdepth]
        rfl
      | parenthesis => rfl
      | bracket => rfl
      | none => rfl
  | function head signature body => cases hshift
  | declaration head signature joint => cases hshift

theorem rewritten_braces {piece : Piece} {tokens : List TokenTree} (h : piece.isBraces)
    (htokens : Rewritten printer piece tokens) : ∃ stream, tokens = [.group .brace stream] := by
  cases piece with
  | group delimiter content =>
    have hbrace : delimiter = .brace := by simpa [isBraces] using h
    rw [Rewritten] at htokens
    cases htokens with
    | intro context htokens => exact ⟨_, hbrace ▸ htokens⟩
  | leaf l => cases h
  | function head signature body => cases h
  | declaration head signature joint => cases h

/-- Behind the name of a function the scan passes the signature, or it stops at a bare brace
group in it. -/
theorem bodyFrom_signature {depth : Nat} {signature : List Piece} {types : List TokenTree}
    (hsignature : Piece.Signature depth signature)
    (htypes : RewrittenAll printer signature types) (rest : List TokenTree) (position : Nat) :
    if bareBrace depth signature then
      ∃ k stream, types[k]? = some (.group .brace stream) ∧
        bodyFrom depth false (types ++ rest) position = some (position + k)
    else bodyFrom depth false (types ++ rest) position =
      bodyFrom 0 false rest (position + types.length) := by
  induction signature generalizing depth types position with
  | nil =>
    rw [RewrittenAll] at htypes
    rw [Piece.Signature] at hsignature
    rw [htypes, hsignature]
    rfl
  | cons piece signature ih =>
    rw [RewrittenAll] at htypes
    obtain ⟨first, second, hfirst, hsecond, rfl⟩ := htypes
    obtain ⟨next, hshift, -, -, hlater⟩ := signature_cons hsignature
    rw [bareBrace, hshift, List.append_assoc]
    cases hbare : piece.isBraces && depth = 0 with
    | true =>
      rw [Bool.true_or, if_pos rfl]
      have hboth : piece.isBraces = true ∧ depth = 0 := by simpa using hbare
      obtain ⟨stream, rfl⟩ := rewritten_braces hboth.1 hfirst
      rw [hboth.2]
      exact ⟨0, stream, rfl, rfl⟩
    | false =>
      have hpass := bodyFrom_piece hshift hfirst hbare (second ++ rest) position
      have hrest := ih hlater hsecond (position + first.length)
      rw [Bool.false_or, hpass]
      simp only
      split
      · next hfurther =>
        rw [if_pos hfurther] at hrest
        obtain ⟨k, stream, hstream, hbody⟩ := hrest
        refine ⟨first.length + k, stream, ?_, ?_⟩
        · rw [List.getElem?_append_right (Nat.le_add_right _ _), Nat.add_sub_cancel_left, hstream]
        · rw [hbody, Nat.add_assoc]
      · next hfurther =>
        rw [if_neg hfurther] at hrest
        rw [hrest, List.length_append, Nat.add_assoc]

end Signature

/-! ### Where functions begin -/

section Starts

def startsIn (first second : List TokenTree) : List Nat :=
  (List.range first.length).filter fun index => (functionName (first ++ second) index).isSome

def startsName : List TokenTree → Bool
  | .ident _ :: _ => true
  | _ => false

theorem functionName_append (first second : List TokenTree) (index : Nat) :
    functionName (first ++ second) (first.length + index) = functionName second index := by
  have hshift : ∀ i, (first ++ second)[first.length + i]? = second[i]? := by
    intro i
    rw [List.getElem?_append_right (Nat.le_add_right _ _), Nat.add_sub_cancel_left]
  simp only [functionName, Nat.add_assoc, hshift]

theorem functionIndices_append (first second : List TokenTree) :
    functionIndices (first ++ second) =
      startsIn first second ++ (functionIndices second).map (first.length + ·) := by
  rw [functionIndices, List.length_append, List.range_add, List.filter_append, List.filter_map]
  congr 2
  apply List.filter_congr
  intro index _
  rw [Function.comp_apply, functionName_append]

theorem startsIn_append (first second rest : List TokenTree) :
    startsIn (first ++ second) rest =
      startsIn first (second ++ rest) ++ (startsIn second rest).map (first.length + ·) := by
  rw [startsIn, List.length_append, List.range_add, List.filter_append, List.filter_map,
    List.append_assoc]
  congr 2
  apply List.filter_congr
  intro index _
  rw [Function.comp_apply, functionName_append]

theorem startsIn_of_ne {first : List TokenTree} (h : ∀ token ∈ first, token ≠ .ident "fn")
    (second : List TokenTree) : startsIn first second = [] := by
  rw [startsIn, List.filter_eq_nil_iff]
  intro index hindex hname
  have hlt := List.mem_range.mp hindex
  have hne := h _ (List.getElem_mem hlt)
  rw [functionName, List.getElem?_append_left hlt, List.getElem?_eq_getElem hlt] at hname
  split at hname
  · next keyword name hkeyword hnext =>
    split at hname
    · next heq =>
      rw [heq] at hkeyword
      exact hne (Option.some.inj hkeyword)
    · cases hname
  · cases hname

theorem startsIn_keyword {second : List TokenTree} (h : startsName second = false) :
    startsIn [.ident "fn"] second = [] := by
  cases second with
  | nil => rfl
  | cons token rest =>
    cases token with
    | ident name => cases h
    | _ => rfl

theorem startsIn_name {name : String} (h : name ≠ "fn") (second : List TokenTree) :
    startsIn [.ident "fn", .ident name] second = [0] := by
  have hsecond : functionName ([.ident "fn", .ident name] ++ second) 1 = none := by
    cases second with
    | nil => rfl
    | cons token rest => cases token <;> simp [functionName, h]
  have hrange : List.range [TokenTree.ident "fn", .ident name].length = [0, 1] := rfl
  rw [startsIn, hrange, List.filter_cons, List.filter_cons, hsecond]
  rfl

variable {printer : Printer}

/-- A stream begins with a name only if its first piece is one. -/
theorem startsName_rewritten {pieces : List Piece} {tokens : List TokenTree}
    (htokens : RewrittenAll printer pieces tokens)
    (hitem : ∀ piece ∈ pieces.head?, piece.isItem = false) (hident : startsIdent pieces = false)
    {rest : List TokenTree} (hrest : startsName rest = false) : startsName (tokens ++ rest) = false := by
  cases pieces with
  | nil =>
    rw [RewrittenAll] at htokens
    rw [htokens]
    exact hrest
  | cons piece pieces =>
    rw [RewrittenAll] at htokens
    obtain ⟨first, second, hfirst, hsecond, rfl⟩ := htokens
    cases piece with
    | leaf l =>
      rw [Rewritten] at hfirst
      rw [hfirst]
      cases l with
      | token t =>
        cases t with
        | ident name => cases hident
        | _ => rfl
      | _ => rfl
    | group delimiter content =>
      rw [Rewritten] at hfirst
      cases hfirst with
      | intro context h =>
        rw [h]
        rfl
    | function head signature body => exact absurd (hitem _ rfl) (by simp [isItem])
    | declaration head signature joint => exact absurd (hitem _ rfl) (by simp [isItem])

theorem startsIn_piece {piece : Piece} {tokens : List TokenTree}
    (htokens : Rewritten printer piece tokens) (hitem : piece.isItem = false) {rest : List TokenTree}
    (hkeyword : piece.isKeyword → startsName rest = false) : startsIn tokens rest = [] := by
  cases piece with
  | leaf l =>
    rw [Rewritten] at htokens
    rw [htokens]
    cases l with
    | token t =>
      cases t with
      | ident name =>
        by_cases hname : name = "fn"
        · have hrest := hkeyword (by simp [isKeyword, hname])
          rw [hname]
          exact startsIn_keyword hrest
        · exact startsIn_of_ne (by simpa [Leaf.tokens] using hname) rest
      | _ => exact startsIn_of_ne (by simp [Leaf.tokens]) rest
    | _ => exact startsIn_of_ne (by simp [Leaf.tokens]) rest
  | group delimiter content =>
    rw [Rewritten] at htokens
    cases htokens with
    | intro context htokens =>
      rw [htokens]
      exact startsIn_of_ne (by simp [rewriteGroup]) rest
  | function head signature body => cases hitem
  | declaration head signature joint => cases hitem

theorem startsIn_signature {depth : Nat} {signature : List Piece} {types rest : List TokenTree}
    (hsignature : Piece.Signature depth signature)
    (htypes : RewrittenAll printer signature types) (hrest : startsName rest = false) :
    startsIn types rest = [] := by
  induction signature generalizing depth types with
  | nil =>
    rw [RewrittenAll] at htypes
    rw [htypes]
    rfl
  | cons piece signature ih =>
    rw [RewrittenAll] at htypes
    obtain ⟨first, second, hfirst, hsecond, rfl⟩ := htypes
    obtain ⟨next, hshift, -, hident, hlater⟩ := signature_cons hsignature
    have hitems : ∀ piece ∈ signature.head?, piece.isItem = false :=
      fun piece hpiece => not_item_of_signature hlater piece (List.mem_of_mem_head? hpiece)
    have hpiece := startsIn_piece hfirst (item_of_shift hshift)
      fun hkeyword => startsName_rewritten hsecond hitems (hident hkeyword) hrest
    rw [startsIn_append, hpiece, ih hlater hsecond]
    rfl

theorem startsIn_item (head : Head) {types rest : List TokenTree} {last : TokenTree}
    (htypes : startsIn types (last :: rest) = []) (hlast : ∀ name, last ≠ .ident name) :
    startsIn (head.tokens ++ types ++ [last]) rest = [head.lead.length] := by
  have hlead : ∀ second, startsIn head.lead second = [] := by
    intro second
    apply startsIn_of_ne
    apply Head.forall_mem_lead
    · exact fun joint => by simp
    · exact fun stream => by simp
    · intro token hqualifier heq
      rw [heq] at hqualifier
      simp [isQualifier] at hqualifier
  have hend : startsIn [last] rest = [] := startsIn_of_ne (by simpa using hlast "fn") rest
  rw [startsIn_append, startsIn_append, Head.tokens, startsIn_append, hlead, hend,
    startsIn_name head.named]
  simp only [List.singleton_append, htypes]
  simp

end Starts

/-! ### One turn of the loop -/

section Turn
variable {printer : Printer}

def pendingTokens (pending : List (Bool × Attribute)) : List TokenTree :=
  pending.flatMap fun a => (Leaf.innerAttribute a.1 a.2).tokens

def openItem (tokens : List TokenTree) : List TokenTree :=
  tokens.rtakeWhile fun token => !endsItem token

theorem openItem_append_of_open {second : List TokenTree}
    (h : ∀ token ∈ second, endsItem token = false) (first : List TokenTree) :
    openItem (first ++ second) = openItem first ++ second := by
  have hsecond : ∀ token ∈ second.reverse, (fun token => !endsItem token) token = true := by
    intro token htoken
    simp only [h token (List.mem_reverse.mp htoken), Bool.not_false]
  rw [openItem, openItem, List.rtakeWhile, List.rtakeWhile, List.reverse_append,
    List.takeWhile_append_of_pos hsecond, List.reverse_append, List.reverse_reverse]

theorem openItem_concat_of_end {last : TokenTree} (h : endsItem last) (first : List TokenTree) :
    openItem (first ++ [last]) = [] :=
  List.rtakeWhile_concat_neg _ _ _ (by simp [h])

def Skips (printer : Printer) (window : List TokenTree) : Bool :=
  window.any (isMarked printer "not_profiled") || window.any (isMarked printer "naked") ||
    window.any (isIdent "const")

theorem modify_append_right {α : Type} (f : α → α) (first second : List α) (i : Nat) :
    (first ++ second).modify (first.length + i) f = first ++ second.modify i f := by
  induction first with
  | nil => rw [List.nil_append, List.nil_append, List.length_nil, Nat.zero_add]
  | cons a first ih =>
    rw [List.cons_append, List.length_cons, Nat.succ_add, List.modify_succ_cons, ih,
      List.cons_append]

theorem modify_append_left {α : Type} (f : α → α) {first : List α} {i : Nat}
    (hi : i < first.length) (second : List α) :
    (first ++ second).modify i f = first.modify i f ++ second := by
  induction first generalizing i with
  | nil => cases hi
  | cons a first ih =>
    cases i with
    | zero => rfl
    | succ i =>
      rw [List.cons_append, List.modify_succ_cons, List.modify_succ_cons,
        ih (Nat.lt_of_succ_lt_succ hi), List.cons_append]

inductive Turned (printer : Printer) (pending : List (Bool × Attribute)) (head : Head)
    (signature : List Piece) (types : List TokenTree) (last : TokenTree) :
    List TokenTree → Prop where
  | skipped (hskips : Skips printer (pendingTokens pending ++ head.lead) = true) :
      Turned printer pending head signature types last (head.tokens ++ types ++ [last])
  | bare (hskips : Skips printer (pendingTokens pending ++ head.lead) = false)
      (hbare : bareBrace 0 signature = true) {k : Nat} {stream : List TokenTree}
      (hk : types[k]? = some (.group .brace stream)) (identity : String) :
      Turned printer pending head signature types last
        (head.tokens ++ types.modify k (addHook printer identity) ++ [last])
  | hooked (hskips : Skips printer (pendingTokens pending ++ head.lead) = false)
      (hbare : bareBrace 0 signature = false) (identity : String) :
      Turned printer pending head signature types last
        (head.tokens ++ types ++ [addHook printer identity last])

/-- At an item the loop tests what stands before `fn` and scans what stands behind the name. -/
theorem hookPlace_item {before : List TokenTree} {pending : List (Bool × Attribute)}
    (hbefore : openItem before = pendingTokens pending) (head : Head) (behind : List TokenTree) :
    hookPlace printer (before ++ (head.tokens ++ behind)) (before.length + head.lead.length) =
      if Skips printer (pendingTokens pending ++ head.lead) then none
      else (bodyFrom 0 false behind (before.length + head.tokens.length)).map
        fun place => (place, head.name) := by
  have hsplit : before ++ (head.tokens ++ behind) =
      (before ++ head.lead) ++ (.ident "fn" :: .ident head.name :: behind) := by
    simp [Head.tokens]
  have hlength : before.length + head.lead.length = (before ++ head.lead).length :=
    List.length_append.symm
  have htokens : before.length + head.tokens.length = (before ++ head.lead).length + 2 := by
    rw [← hlength, Head.tokens, List.length_append]
    rfl
  rw [hsplit, hlength, htokens]
  have hwindow : itemWindow
      ((before ++ head.lead) ++ (.ident "fn" :: .ident head.name :: behind))
        (before ++ head.lead).length = pendingTokens pending ++ head.lead := by
    rw [itemWindow, List.take_left, ← hbefore]
    exact openItem_append_of_open (lead_open head) before
  have hname : functionName
      ((before ++ head.lead) ++ (.ident "fn" :: .ident head.name :: behind))
        (before ++ head.lead).length = some head.name := functionName_append _ _ 0
  have hbody : functionBodyIndex
      ((before ++ head.lead) ++ (.ident "fn" :: .ident head.name :: behind))
        (before ++ head.lead).length =
          bodyFrom 0 false behind ((before ++ head.lead).length + 2) := by
    rw [functionBodyIndex, ← List.drop_drop, List.drop_left]
    rfl
  simp only [hookPlace, isSkipped, hasMarkerBefore, isConstFunction, hwindow, hname, hbody, Skips]
  congr 1
  cases bodyFrom 0 false behind ((before ++ head.lead).length + 2) with
  | none => rfl
  | some place => rfl

/-- The turn of the loop for one item, whatever stands before and behind it. -/
theorem insertHook_item (context : Option String) {before : List TokenTree}
    (after : List TokenTree) {pending : List (Bool × Attribute)}
    (hbefore : openItem before = pendingTokens pending)
    (head : Head) {signature : List Piece} {types : List TokenTree} {last : TokenTree}
    (hsignature : Piece.Signature 0 signature) (htypes : RewrittenAll printer signature types)
    (hlast : (∃ stream, last = .group .brace stream) ∨ ∃ joint, last = .punct ';' joint) :
    ∃ out, Turned printer pending head signature types last out ∧
      insertHook printer context (before ++ (head.tokens ++ types ++ [last] ++ after))
        (before.length + head.lead.length) = before ++ (out ++ after) := by
  have hplace := @hookPlace_item printer before pending hbefore head (types ++ last :: after)
  have hscan := bodyFrom_signature hsignature htypes (last :: after)
    (before.length + head.tokens.length)
  have htokens : head.tokens ++ types ++ [last] ++ after =
      head.tokens ++ (types ++ last :: after) := by simp
  rw [insertHook_eq, htokens, hplace]
  cases hskip : Skips printer (pendingTokens pending ++ head.lead) with
  | true => exact ⟨_, .skipped hskip, by rw [if_pos rfl, htokens]⟩
  | false =>
    rw [if_neg Bool.false_ne_true]
    cases hbare : bareBrace 0 signature with
    | true =>
      rw [if_pos hbare] at hscan
      obtain ⟨k, stream, hstream, hbody⟩ := hscan
      have hk : k < types.length := (List.getElem?_eq_some_iff.mp hstream).1
      refine ⟨_, .bare hskip hbare hstream (hookIdentity context head.name), ?_⟩
      rw [hbody, Option.map_some, Nat.add_assoc]
      simp only
      rw [modify_append_right, modify_append_right, modify_append_left _ hk]
      simp
    | false =>
      rw [if_neg (by rw [hbare]; exact Bool.false_ne_true)] at hscan
      refine ⟨_, .hooked hskip hbare (hookIdentity context head.name), ?_⟩
      rw [hscan]
      cases hlast with
      | inl hgroup =>
        obtain ⟨stream, rfl⟩ := hgroup
        rw [bodyFrom, if_pos rfl, Option.map_some, Nat.add_assoc]
        simp only
        rw [modify_append_right, modify_append_right, ← Nat.add_zero types.length,
          modify_append_right]
        simp
      | inr hpunct =>
        obtain ⟨joint, rfl⟩ := hpunct
        rw [bodyFrom, Option.map_none, ← htokens]
        rfl

end Turn

/-! ### The whole loop -/

section Loop
variable {printer : Printer}

inductive Hooked (printer : Printer) (pending : List (Bool × Attribute)) :
    Piece → List TokenTree → Prop where
  | other {piece : Piece} {tokens : List TokenTree} (hitem : piece.isItem = false)
      (h : Rewritten printer piece tokens) : Hooked printer pending piece tokens
  | function {head : Head} {signature body : List Piece} {types out : List TokenTree}
      (context : Option String) (htypes : RewrittenAll printer signature types)
      (hturn : Turned printer pending head signature types
        (rewriteGroup printer context .brace (renderAll body)) out) :
      Hooked printer pending (.function head signature body) out
  | declaration {head : Head} {signature : List Piece} {joint : Bool} {types out : List TokenTree}
      (htypes : RewrittenAll printer signature types)
      (hturn : Turned printer pending head signature types (.punct ';' joint) out) :
      Hooked printer pending (.declaration head signature joint) out

def nextPending (pending : List (Bool × Attribute)) : Piece → List (Bool × Attribute)
  | .leaf (.innerAttribute joint a) => pending ++ [(joint, a)]
  | _ => []

inductive HookedAll (printer : Printer) :
    List (Bool × Attribute) → List Piece → List TokenTree → Prop where
  | nil {pending : List (Bool × Attribute)} : HookedAll printer pending [] []
  | cons {pending : List (Bool × Attribute)} {piece : Piece} {rest : List Piece}
      {first second : List TokenTree} (hfirst : Hooked printer pending piece first)
      (hrest : HookedAll printer (nextPending pending piece) rest second) :
      HookedAll printer pending (piece :: rest) (first ++ second)

/-- Where an item may begin, the loop sees the inner attributes before it and nothing else. -/
theorem openItem_piece {fresh : Bool} {before tokens : List TokenTree}
    {pending : List (Bool × Attribute)} {piece : Piece}
    (hbefore : fresh → openItem before = pendingTokens pending)
    (htokens : Rewritten printer piece tokens) (hopens : piece.opens fresh) :
    openItem (before ++ tokens) = pendingTokens (nextPending pending piece) := by
  cases piece with
  | leaf l =>
    rw [Rewritten] at htokens
    rw [htokens]
    cases l with
    | token t =>
      cases t with
      | punct char joint =>
        have hend : endsItem (.punct char joint) := hopens
        exact openItem_concat_of_end hend before
      | _ => cases hopens
    | innerAttribute joint a =>
      have hopen : ∀ token ∈ (Leaf.innerAttribute joint a).tokens, endsItem token = false := by
        simp [Leaf.tokens, endsItem]
      rw [openItem_append_of_open hopen, hbefore hopens, nextPending, pendingTokens, pendingTokens,
        List.flatMap_append, List.flatMap_singleton]
    | _ => cases hopens
  | group delimiter content =>
    rw [Rewritten] at htokens
    cases htokens with
    | intro context htokens =>
      have hend : endsItem (rewriteGroup printer context delimiter (renderAll content)) := hopens
      rw [htokens]
      exact openItem_concat_of_end hend before
  | function head signature body =>
    rw [Rewritten] at htokens
    obtain ⟨types, context, -, rfl⟩ := htokens
    rw [← List.append_assoc]
    exact openItem_concat_of_end rfl _
  | declaration head signature joint =>
    rw [Rewritten] at htokens
    obtain ⟨types, -, rfl⟩ := htokens
    rw [← List.append_assoc]
    exact openItem_concat_of_end rfl _

/-- Behind the keyword of a function pointer comes no name. -/
theorem startsName_of_keyword {fresh : Bool} {piece : Piece} {rest : List Piece}
    {second : List TokenTree} (hkey : piece.isKeyword) (hident : startsIdent rest = false)
    (hrest : Scope (piece.opens fresh) rest) (hsecond : RewrittenAll printer rest second) :
    startsName second = false := by
  have hopens : piece.opens fresh = false := by
    cases piece with
    | leaf l =>
      cases l with
      | token t =>
        cases t with
        | ident name => rfl
        | _ => cases hkey
      | _ => cases hkey
    | _ => cases hkey
  have hitem : ∀ next ∈ rest.head?, next.isItem = false := by
    rw [hopens] at hrest
    cases rest with
    | nil => simp
    | cons next rest =>
      rw [Scope] at hrest
      have hallowed := hrest.2.1
      cases next with
      | function head signature body => cases hallowed
      | declaration head signature joint => cases hallowed
      | _ => simp [isItem]
  have hnil : startsName [] = false := rfl
  have hname := startsName_rewritten hsecond hitem hident hnil
  rwa [List.append_nil] at hname

/-- The loop over a scope, its items from the last to the first. -/
theorem insertHooks_pieces (context : Option String) {pieces : List Piece} {fresh : Bool}
    {before tokens : List TokenTree} {pending : List (Bool × Attribute)}
    (hscope : Scope fresh pieces) (htokens : RewrittenAll printer pieces tokens)
    (hbefore : fresh → openItem before = pendingTokens pending) :
    ∃ out, HookedAll printer pending pieces out ∧
      ((functionIndices tokens).map (before.length + ·)).reverse.foldl (insertHook printer context)
        (before ++ tokens) = before ++ out := by
  induction pieces generalizing fresh before tokens pending with
  | nil =>
    rw [RewrittenAll] at htokens
    rw [htokens]
    exact ⟨[], .nil, rfl⟩
  | cons piece rest ih =>
    rw [RewrittenAll] at htokens
    rw [Scope] at hscope
    obtain ⟨first, second, hfirst, hsecond, rfl⟩ := htokens
    obtain ⟨hsound, hallowed, hident, hrest⟩ := hscope
    obtain ⟨out, hout, hfold⟩ := ih hrest hsecond (openItem_piece hbefore hfirst)
    have hmap : ((functionIndices second).map (first.length + ·)).map (before.length + ·) =
        (functionIndices second).map ((before ++ first).length + ·) := by
      rw [List.map_map]
      apply List.map_congr_left
      intro index _
      simp only [Function.comp_apply, List.length_append, Nat.add_assoc]
    rw [functionIndices_append, List.map_append, List.reverse_append, List.foldl_append, hmap,
      ← List.append_assoc, hfold, List.append_assoc]
    cases hitem : piece.isItem with
    | false =>
      have hstarts := startsIn_piece hfirst hitem
        fun hkey => startsName_of_keyword hkey (hident hkey) hrest hsecond
      rw [hstarts]
      exact ⟨first ++ out, .cons (.other hitem hfirst) hout, rfl⟩
    | true =>
      cases piece with
      | function head signature body =>
        rw [Rewritten] at hfirst
        rw [Sound] at hsound
        obtain ⟨types, inherited, htypes, rfl⟩ := hfirst
        have hstarts : startsIn (head.tokens ++ types ++
            [rewriteGroup printer inherited .brace (renderAll body)]) second =
              [head.lead.length] :=
          startsIn_item head (startsIn_signature hsound.1 htypes rfl) (by simp [rewriteGroup])
        obtain ⟨turned, hturned, hturn⟩ := insertHook_item context out
          (hbefore hallowed) head hsound.1 htypes (.inl ⟨_, rfl⟩)
        refine ⟨turned ++ out, .cons (.function inherited htypes hturned) hout, ?_⟩
        rw [hstarts]
        exact hturn
      | declaration head signature joint =>
        rw [Rewritten] at hfirst
        rw [Sound] at hsound
        obtain ⟨types, htypes, rfl⟩ := hfirst
        have hstarts : startsIn (head.tokens ++ types ++ [.punct ';' joint]) second =
            [head.lead.length] :=
          startsIn_item head (startsIn_signature hsound htypes rfl) (by simp)
        obtain ⟨turned, hturned, hturn⟩ := insertHook_item context out
          (hbefore hallowed) head hsound htypes (.inr ⟨joint, rfl⟩)
        refine ⟨turned ++ out, .cons (.declaration htypes hturned) hout, ?_⟩
        rw [hstarts]
        exact hturn
      | leaf l => cases hitem
      | group delimiter content => cases hitem

/-- `transform_scope` on a scope is the loop over its rewritten pieces. -/
theorem transformScope_pieces (printer : Printer) (context : Option String) {pieces : List Piece}
    (hscope : Scope true pieces) :
    HookedAll printer [] pieces (transformScope printer (renderAll pieces) context) := by
  have htokens := rewrittenAll_transform printer context (renderAll pieces) 0 pieces
    (tidy_of_scope hscope)
  have hstart : true → openItem [] = pendingTokens [] := fun _ => rfl
  obtain ⟨out, hout, hfold⟩ := insertHooks_pieces context hscope htokens hstart
  simp only [List.length_nil, Nat.zero_add, List.map_id', List.nil_append] at hfold
  rw [transformScope, insertHooks, hfold]
  exact hout

end Loop

end AgnostOS.ProfileMacro
