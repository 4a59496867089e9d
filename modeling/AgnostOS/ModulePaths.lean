import AgnostOS.Instrumentation
import AgnostOS.Library.RustModules
import AgnostOS.ItemHooks
import AgnostOS.StringLiterals
import Mathlib.Data.List.Forall2

/-! `resolve_external_module_paths` of the profile macro: the modules of a source that is
compiled from another directory are found in the same files. -/
namespace AgnostOS.ProfileMacro
open StringLiteral UnixPath RustModules
open RustItems (Attribute)

/-! ### The rewrite -/

def startsWithPath (printer : Printer) : TokenTree → Bool
  | .group .bracket stream => "path".toList <+: (printer.display stream).toList
  | _ => false

def innerAttributes : List TokenTree → Nat
  | .punct '#' _ :: .punct '!' _ :: .group .bracket _ :: rest => innerAttributes rest + 3
  | _ => 0

def itemStart (before : List TokenTree) : Nat :=
  let window := openItem before
  before.length - window.length + innerAttributes window

def isLiteral : TokenTree → Bool
  | .literal _ => true
  | _ => false

section Resolve
variable (isFile : Path → Bool) (printer : Printer)

def pathLiteral (path : Path) : TokenTree :=
  .literal (String.ofList (debugText printer.escaped path))

def resolveParts (moduleDir : Path) (parts : List TokenTree) : List TokenTree :=
  match parts.head? with
  | some (.ident name) =>
    if name ≠ "path" then parts
    else
      match parts.findIdx? isLiteral with
      | none => parts
      | some literalIndex =>
        match parts[literalIndex]? with
        | some (.literal literal) =>
          match decodeStringLiteral literal.toList with
          | none => parts
          | some value =>
            if isAbsolute value then parts
            else parts.set literalIndex (pathLiteral printer (join moduleDir value))
        | _ => parts
  | _ => parts

def resolveAttribute (moduleDir : Path) : TokenTree → TokenTree
  | .group .bracket parts => .group .bracket (resolveParts printer moduleDir parts)
  | token => token

def resolveRelativeModulePath (moduleDir : Path) (tokens : List TokenTree) : List TokenTree :=
  tokens.map (resolveAttribute printer moduleDir)

/-- `name.rs` or `name/mod.rs`, whichever is a file, the first if both are. -/
def childPath (moduleDir : Path) (name : String) : Option Path :=
  let direct := join moduleDir (name.toList ++ ".rs".toList)
  let nested := join (join moduleDir name.toList) "mod.rs".toList
  let child := if isFile direct then direct else nested
  if isFile child then some child else none

def pathAttribute (path : Path) : Attribute :=
  ⟨false, [.ident "path", .punct '=' false, pathLiteral printer path]⟩

def withPath (moduleDir : Path) (name : String) (before : List TokenTree) : List TokenTree :=
  let start := itemStart before
  let item := before.drop start
  if item.any (startsWithPath printer) then
    before.take start ++ resolveRelativeModulePath printer moduleDir item
  else
    match childPath isFile moduleDir name with
    | some child => before.take start ++ (pathAttribute printer child).tokens ++ item
    | none => before

def resolveModules (moduleDir : Path) (before : List TokenTree) : List TokenTree → List TokenTree
  | .ident keyword :: .ident name :: next :: rest =>
    if keyword = "mod" then
      match next with
      | .group .brace stream =>
        let nested := resolveModules (join moduleDir name.toList) [] stream
        resolveModules moduleDir
          (before ++ [.ident keyword, .ident name, .group .brace nested]) rest
      | .group delimiter stream =>
        resolveModules moduleDir
          (before ++ [.ident keyword, .ident name, .group delimiter stream]) rest
      | .punct ';' joint =>
        resolveModules moduleDir (withPath isFile printer moduleDir name before ++
          [.ident keyword, .ident name, .punct ';' joint]) rest
      | next => resolveModules moduleDir (before ++ [.ident keyword]) (.ident name :: next :: rest)
    else resolveModules moduleDir (before ++ [.ident keyword]) (.ident name :: next :: rest)
  | token :: rest => resolveModules moduleDir (before ++ [token]) rest
  | [] => before

def resolveExternalModulePaths (stream : List TokenTree) (moduleDir : Path) : List TokenTree :=
  resolveModules isFile printer moduleDir [] stream

end Resolve

/-! ### One declaration -/

def resolvedAttribute (printer : Printer) (moduleDir : Path) (a : Attribute) : Attribute :=
  ⟨a.joint, resolveParts printer moduleDir a.stream⟩

def locate (isFile : Path → Bool) (printer : Printer) (moduleDir : Path) (head : Head) : Head :=
  if head.attributes.any fun a => startsWithPath printer (.group .bracket a.stream) then
    { head with attributes := head.attributes.map (resolvedAttribute printer moduleDir) }
  else
    match childPath isFile moduleDir head.name with
    | some child => { head with attributes := pathAttribute printer child :: head.attributes }
    | none => head

def Boundary (before : List TokenTree) : Prop :=
  ∃ pending, openItem before = pendingTokens pending

section Heads
variable {isFile : Path → Bool} {printer : Printer} {moduleDir : Path} {before : List TokenTree}

theorem forall_mem_lead {p : TokenTree → Prop} (hpunct : ∀ joint, p (.punct '#' joint))
    (hgroup : ∀ stream, p (.group .bracket stream))
    (hvisible : ∀ token, isVisibility token = true → p token) (head : Head) :
    ∀ token ∈ head.lead, p token := by
  intro token htoken
  cases List.mem_append.mp htoken with
  | inl hattribute =>
    obtain ⟨a, -, ha⟩ := List.mem_flatMap.mp hattribute
    simp only [Attribute.tokens, List.mem_cons, List.not_mem_nil, or_false] at ha
    cases ha with
    | inl heq => exact heq ▸ hpunct a.joint
    | inr heq => exact heq ▸ hgroup a.stream
  | inr htoken => exact hvisible token (head.visible token htoken)

theorem open_lead (head : Head) : ∀ token ∈ head.lead, endsItem token = false := by
  refine forall_mem_lead (fun _ => rfl) (fun _ => rfl) (fun token h => ?_) head
  cases token with
  | group delimiter stream =>
    have hparenthesis : delimiter = .parenthesis := of_decide_eq_true h
    rw [hparenthesis]
    rfl
  | punct char joint => cases h
  | _ => rfl

theorem innerAttributes_lead (head : Head) : innerAttributes head.lead = 0 := by
  rw [Head.lead]
  cases head.attributes with
  | cons a attributes => rfl
  | nil =>
    have hvisible := head.visible
    rw [List.flatMap_nil, List.nil_append]
    cases hvisibility : head.visibility with
    | nil => rfl
    | cons token visibility =>
      have htoken := hvisible token (by simp [hvisibility])
      cases token with
      | punct char joint => cases htoken
      | _ => rfl

theorem innerAttributes_pending (pending : List (Bool × Attribute)) (rest : List TokenTree) :
    innerAttributes (pendingTokens pending ++ rest) =
      (pendingTokens pending).length + innerAttributes rest := by
  induction pending with
  | nil => simp [pendingTokens]
  | cons a pending ih =>
    have hstep : innerAttributes (pendingTokens (a :: pending) ++ rest) =
        innerAttributes (pendingTokens pending ++ rest) + 3 := rfl
    have hlength : (pendingTokens (a :: pending)).length = (pendingTokens pending).length + 3 := rfl
    omega

/-- The item of a declaration begins with its own attributes. -/
theorem itemStart_lead (h : Boundary before) (head : Head) :
    itemStart (before ++ head.lead) = before.length := by
  obtain ⟨pending, hpending⟩ := h
  have hopen : openItem (before ++ head.lead) = pendingTokens pending ++ head.lead := by
    rw [openItem_append_of_open (open_lead head), hpending]
  have hsuffix : (pendingTokens pending).length ≤ before.length := by
    rw [← hpending]
    exact (List.rtakeWhile_suffix _ _).length_le
  simp only [itemStart, hopen, innerAttributes_pending, innerAttributes_lead, List.length_append]
  omega

theorem resolveAttribute_visible {token : TokenTree} (h : isVisibility token = true) :
    resolveAttribute printer moduleDir token = token := by
  cases token with
  | group delimiter stream =>
    have hparenthesis : delimiter = .parenthesis := of_decide_eq_true h
    rw [hparenthesis]
    rfl
  | _ => rfl

theorem startsWithPath_visible {token : TokenTree} (h : isVisibility token = true) :
    startsWithPath printer token = false := by
  cases token with
  | group delimiter stream =>
    have hparenthesis : delimiter = .parenthesis := of_decide_eq_true h
    rw [hparenthesis]
    rfl
  | _ => rfl

theorem resolve_lead (head : Head) :
    resolveRelativeModulePath printer moduleDir head.lead =
      (head.attributes.map (resolvedAttribute printer moduleDir)).flatMap Attribute.tokens ++
        head.visibility := by
  have hvisible : head.visibility.map (resolveAttribute printer moduleDir) = head.visibility :=
    (List.map_congr_left fun token h => resolveAttribute_visible (head.visible token h)).trans
      (List.map_id _)
  rw [resolveRelativeModulePath, Head.lead, List.map_append, hvisible, List.map_flatMap,
    List.flatMap_map]
  rfl

theorem any_lead (head : Head) : head.lead.any (startsWithPath printer) =
    head.attributes.any fun a => startsWithPath printer (.group .bracket a.stream) := by
  have hvisible : head.visibility.any (startsWithPath printer) = false := by
    rw [List.any_eq_false]
    intro token htoken
    rw [startsWithPath_visible (head.visible token htoken)]
    exact Bool.false_ne_true
  rw [Head.lead, List.any_append, hvisible, Bool.or_false]
  exact any_attributes (fun _ _ => rfl) head.attributes

theorem withPath_lead (h : Boundary before) (head : Head) :
    withPath isFile printer moduleDir head.name (before ++ head.lead) =
      before ++ (locate isFile printer moduleDir head).lead := by
  simp only [withPath, itemStart_lead h, List.take_left, List.drop_left, any_lead]
  rw [locate]
  split
  · rw [resolve_lead]
    rfl
  · split
    · rw [Head.lead, Head.lead, List.flatMap_cons]
      simp only [List.append_assoc]
    · rfl

theorem locate_name (head : Head) : (locate isFile printer moduleDir head).name = head.name := by
  rw [locate]
  split
  · rfl
  · split <;> rfl

end Heads

/-! ### The loop -/

section Loop
variable {isFile : Path → Bool} {printer : Printer} {moduleDir : Path}

theorem resolveModules_pass {token : TokenTree} (h : token ≠ .ident "mod")
    (before rest : List TokenTree) :
    resolveModules isFile printer moduleDir before (token :: rest) =
      resolveModules isFile printer moduleDir (before ++ [token]) rest := by
  rw [resolveModules.eq_def]
  split
  · next keyword name next rest' heq =>
    cases heq
    have hkeyword : keyword ≠ "mod" := fun heq => h (congrArg TokenTree.ident heq)
    rw [if_neg hkeyword]
  · next heq =>
    cases heq
    rfl
  · next heq => cases heq

theorem resolveModules_passAll {tokens : List TokenTree}
    (h : ∀ token ∈ tokens, token ≠ .ident "mod") (before rest : List TokenTree) :
    resolveModules isFile printer moduleDir before (tokens ++ rest) =
      resolveModules isFile printer moduleDir (before ++ tokens) rest := by
  induction tokens generalizing before with
  | nil => rw [List.nil_append, List.append_nil]
  | cons token tokens ih =>
    rw [List.forall_mem_cons] at h
    rw [List.cons_append, resolveModules_pass h.1, ih h.2, List.append_assoc,
      List.singleton_append]

theorem resolveModules_file (name : String) (joint : Bool) (before rest : List TokenTree) :
    resolveModules isFile printer moduleDir before
        (.ident "mod" :: .ident name :: .punct ';' joint :: rest) =
      resolveModules isFile printer moduleDir (withPath isFile printer moduleDir name before ++
        [.ident "mod", .ident name, .punct ';' joint]) rest := by
  rw [resolveModules.eq_def]
  exact if_pos rfl

theorem resolveModules_inline (name : String) (stream before rest : List TokenTree) :
    resolveModules isFile printer moduleDir before
        (.ident "mod" :: .ident name :: .group .brace stream :: rest) =
      resolveModules isFile printer moduleDir (before ++ [.ident "mod", .ident name, .group .brace
        (resolveExternalModulePaths isFile printer stream (join moduleDir name.toList))]) rest := by
  rw [resolveModules.eq_def]
  exact if_pos rfl

theorem lead_ne_mod (head : Head) : ∀ token ∈ head.lead, token ≠ .ident "mod" := by
  refine forall_mem_lead (by simp) (by simp) (fun token h heq => ?_) head
  rw [heq] at h
  simp [isVisibility] at h

theorem openItem_end {last : TokenTree} (h : endsItem last = true) (first : List TokenTree) :
    Boundary (first ++ [last]) :=
  ⟨[], openItem_concat_of_end h first⟩

theorem boundary_behind {before : List TokenTree} {fresh : Bool}
    (h : fresh = true → Boundary before) {item : Item} (hopens : item.opens fresh = true) :
    Boundary (before ++ item.render) := by
  cases item with
  | token token =>
    refine openItem_end ?_ before
    cases token with
    | punct char joint => exact hopens
    | group delimiter stream => exact hopens
    | ident name => cases hopens
    | literal text => cases hopens
  | innerAttribute joint a =>
    obtain ⟨pending, hpending⟩ := h hopens
    refine ⟨pending ++ [(joint, a)], ?_⟩
    have hinner : ∀ token ∈ (RustItems.Leaf.innerAttribute joint a).tokens,
        endsItem token = false := by
      simp [RustItems.Leaf.tokens, endsItem]
    rw [Item.render, openItem_append_of_open hinner, hpending]
    simp [pendingTokens]
  | file head joint =>
    rw [Item.render, ← List.append_assoc]
    exact openItem_end rfl _
  | inline head content =>
    rw [Item.render, ← List.append_assoc]
    exact openItem_end rfl _

mutual

theorem resolveModules_item : (item : Item) → item.Sound → (moduleDir : Path) → {fresh : Bool} →
    item.allowed fresh = true → (before rest : List TokenTree) →
    (fresh = true → Boundary before) →
    resolveModules isFile printer moduleDir before (item.render ++ rest) =
      resolveModules isFile printer moduleDir
        (before ++ (item.editHeads (locate isFile printer) moduleDir).render) rest
  | .token token, _, moduleDir, fresh, hallowed, before, rest, _ => by
    refine resolveModules_pass (fun heq => ?_) before rest
    rw [heq] at hallowed
    simp [Item.allowed] at hallowed
  | .innerAttribute joint a, _, moduleDir, fresh, _, before, rest, _ =>
    resolveModules_passAll (by simp [Item.render, RustItems.Leaf.tokens]) before rest
  | .file head joint, _, moduleDir, fresh, hallowed, before, rest, hboundary => by
    have hlead : withPath isFile printer moduleDir head.name (before ++ head.lead) = _ :=
      withPath_lead (hboundary hallowed) head
    have hturn : resolveModules isFile printer moduleDir (before ++ head.lead) _ = _ :=
      resolveModules_file head.name joint (before ++ head.lead) rest
    rw [hlead] at hturn
    rw [Item.editHeads, Item.render, Item.render, Head.tokens, Head.tokens, locate_name,
      List.append_assoc, List.append_assoc, resolveModules_passAll (lead_ne_mod head)]
    simpa only [List.append_assoc, List.cons_append, List.nil_append] using hturn
  | .inline head content, hsound, moduleDir, fresh, _, before, rest, _ => by
    rw [Item.Sound] at hsound
    have hcontent := resolveModules_items content (join moduleDir head.name.toList) hsound []
      fun _ => ⟨[], rfl⟩
    have hturn : resolveModules isFile printer moduleDir (before ++ head.lead) _ = _ :=
      resolveModules_inline head.name (Item.renderAll content) (before ++ head.lead) rest
    rw [resolveExternalModulePaths, hcontent, List.nil_append] at hturn
    rw [Item.editHeads, Item.render, Item.render, Head.tokens, List.append_assoc,
      List.append_assoc, resolveModules_passAll (lead_ne_mod head)]
    simpa only [List.append_assoc, List.cons_append, List.nil_append] using hturn

theorem resolveModules_items : (items : List Item) → (moduleDir : Path) → {fresh : Bool} →
    Item.Scope fresh items → (before : List TokenTree) → (fresh = true → Boundary before) →
    resolveModules isFile printer moduleDir before (Item.renderAll items) =
      before ++ Item.renderAll (editHeadsAll (locate isFile printer) moduleDir items)
  | [], moduleDir, fresh, _, before, _ => by
    rw [editHeadsAll, Item.renderAll, resolveModules, List.append_nil]
  | item :: rest, moduleDir, fresh, hscope, before, hboundary => by
    rw [Item.Scope] at hscope
    have hitem := resolveModules_item item hscope.1 moduleDir hscope.2.1 before
      (Item.renderAll rest) hboundary
    have hrest := resolveModules_items rest moduleDir hscope.2.2
      (before ++ (item.editHeads (locate isFile printer) moduleDir).render) fun hopens =>
        boundary_behind hboundary ((opens_edit moduleDir fresh item).trans hopens)
    rw [Item.renderAll, hitem, hrest, editHeadsAll, Item.renderAll, List.append_assoc]

end

end Loop

/-! ### Files -/

def Printer.PrintsFirst (printer : Printer) : Prop :=
  ∀ name rest, name.toList <+: (printer.display (.ident name :: rest)).toList

/-- What the macro needs to read a declaration: no raw identifiers, no attribute that only
looks like a path, and path literals that the decoder gets right. -/
structure Readable (printer : Printer) (d : Declaration) : Prop where
  plain : ∀ head ∈ d.head :: d.enclosing, stem head.name = head.name.toList
  texts : ∀ a ∈ d.head.attributes,
    startsWithPath printer (.group .bracket a.stream) = true → isPath a = true
  decoded : ∀ a ∈ d.head.attributes, ∀ joint text (l : Literal),
    a.stream = [.ident "path", .punct '=' joint, .literal text] → text.toList = l.text → Decoded l

section Files
variable {isFile : Path → Bool} {printer : Printer} {moduleDir : Path}

theorem startsWithPath_of_isPath (hprinter : printer.PrintsFirst) {a : Attribute}
    (h : isPath a = true) : startsWithPath printer (.group .bracket a.stream) = true := by
  rw [isPath] at h
  split at h
  · next name rest hstream =>
    have hname : name = "path" := of_decide_eq_true h
    rw [hstream, hname]
    exact decide_eq_true (hprinter "path" rest)
  · cases h

theorem resolveParts_other {a : Attribute} (h : isPath a = false) :
    resolveParts printer moduleDir a.stream = a.stream := by
  rw [isPath] at h
  rw [resolveParts.eq_def]
  split at h
  · next name rest hstream =>
    rw [hstream]
    exact if_pos (of_decide_eq_false h)
  · next hother =>
    split
    · next name hhead =>
      obtain ⟨rest, hstream⟩ := List.head?_eq_some_iff.mp hhead
      exact absurd hstream (hother name rest)
    · rfl

theorem isPath_iff {a : Attribute} :
    isPath a = true ↔ a.stream.head? = some (.ident "path") := by
  rw [isPath]
  split
  · next name rest hstream => simp [hstream]
  · next hother =>
    refine iff_of_false Bool.false_ne_true fun hhead => ?_
    obtain ⟨rest, hstream⟩ := List.head?_eq_some_iff.mp hhead
    exact hother "path" rest hstream

theorem head_resolveParts (parts : List TokenTree) :
    (resolveParts printer moduleDir parts).head? = parts.head? := by
  cases parts with
  | nil => rfl
  | cons first rest =>
    rw [resolveParts.eq_def]
    split
    · next name hhead =>
      have hfirst : first = .ident name := Option.some.inj hhead
      subst hfirst
      have hindex : (TokenTree.ident name :: rest).findIdx? isLiteral =
          (rest.findIdx? isLiteral).map (· + 1) := by
        simp [List.findIdx?_cons, isLiteral]
      rw [hindex]
      cases rest.findIdx? isLiteral with
      | none => split <;> rfl
      | some k =>
        simp only [Option.map_some]
        split_ifs
        · rfl
        · split
          · split
            · rfl
            · split <;> rfl
          · rfl
    · rfl

theorem isPath_resolved (a : Attribute) :
    isPath (resolvedAttribute printer moduleDir a) = isPath a := by
  rw [Bool.eq_iff_iff, isPath_iff, isPath_iff, resolvedAttribute, head_resolveParts]

theorem resolveParts_path {joint : Bool} {text : String} {value : Path}
    (h : decodeStringLiteral text.toList = some value) :
    resolveParts printer moduleDir [.ident "path", .punct '=' joint, .literal text] =
      [.ident "path", .punct '=' joint,
        if isAbsolute value then .literal text else pathLiteral printer (join moduleDir value)] := by
  have hindex : [TokenTree.ident "path", .punct '=' joint, .literal text].findIdx? isLiteral =
      some 2 := rfl
  simp only [resolveParts, List.head?_cons, hindex, List.getElem?_cons_succ,
    List.getElem?_cons_zero, h, ne_eq, not_true_eq_false, if_false]
  split <;> rfl

theorem exists_pathLiteral (printer : Printer) (path : Path) : ∃ (l : Literal) (text : String),
    pathLiteral printer path = .literal text ∧ text.toList = l.text ∧ l.value = path := by
  obtain ⟨l, htext, hvalue⟩ := exists_debugLiteral printer.escaped path
  exact ⟨l, _, rfl, by rw [String.toList_ofList, htext], hvalue⟩

/-- The path attribute that is put in front is the first one. -/
theorem pathValue_pathAttribute (path : Path) (attributes : List Attribute) :
    PathValue (pathAttribute printer path :: attributes) path := by
  obtain ⟨l, text, hliteral, htext, hvalue⟩ := exists_pathLiteral printer path
  have hstream : (pathAttribute printer path).stream =
      [.ident "path", .punct '=' false, .literal text] := by rw [pathAttribute, hliteral]
  have hhere : PathValue (pathAttribute printer path :: attributes) l.value :=
    .here l hstream htext
  rwa [hvalue] at hhere

/-- A path attribute is put behind the directory, where an absolute one stays the same. -/
theorem pathValue_resolved {attributes : List Attribute} {value : Path}
    (h : PathValue attributes value) (hdecoded : ∀ a ∈ attributes, ∀ joint text (l : Literal),
      a.stream = [.ident "path", .punct '=' joint, .literal text] → text.toList = l.text →
        Decoded l) :
    PathValue (attributes.map (resolvedAttribute printer moduleDir)) (join moduleDir value) := by
  induction h with
  | @here a rest joint text l hstream htext =>
    have hdecode : decodeStringLiteral text.toList = some l.value := by
      rw [htext]
      exact (decodeStringLiteral_iff l).mpr
        (hdecoded a List.mem_cons_self joint text l hstream htext)
    have hparts : (resolvedAttribute printer moduleDir a).stream = _ :=
      (congrArg (resolveParts printer moduleDir) hstream).trans (resolveParts_path hdecode)
    rw [List.map_cons]
    cases habsolute : isAbsolute l.value with
    | true =>
      rw [habsolute, if_pos rfl] at hparts
      rw [join_of_absolute habsolute]
      exact .here l hparts htext
    | false =>
      obtain ⟨l', text', hliteral, htext', hvalue⟩ :=
        exists_pathLiteral printer (join moduleDir l.value)
      rw [habsolute, if_neg Bool.false_ne_true, hliteral] at hparts
      rw [← hvalue]
      exact .here l' hparts htext'
  | later hother hrest ih =>
    rw [List.forall_mem_cons] at hdecoded
    exact .later ((isPath_resolved _).trans hother) (ih hdecoded.2)

def withoutPaths (head : Head) : Head :=
  { head with attributes := head.attributes.filter fun a => !isPath a }

theorem filter_resolved (attributes : List Attribute) :
    (attributes.map (resolvedAttribute printer moduleDir)).filter (fun a => !isPath a) =
      attributes.filter fun a => !isPath a := by
  induction attributes with
  | nil => rfl
  | cons a attributes ih =>
    rw [List.map_cons, List.filter_cons, List.filter_cons, isPath_resolved, ih]
    cases hpath : isPath a with
    | true => rfl
    | false =>
      have hkept : resolvedAttribute printer moduleDir a = a := by
        rw [resolvedAttribute, resolveParts_other hpath]
      rw [hkept]

theorem withoutPaths_locate (head : Head) :
    withoutPaths (locate isFile printer moduleDir head) = withoutPaths head := by
  rw [locate]
  split
  · rw [withoutPaths, withoutPaths, filter_resolved]
  · split
    · rfl
    · rfl

/-! ### The files of the declarations -/

theorem childPath_direct {name : String}
    (h : isFile (directFile moduleDir name.toList) = true) :
    childPath isFile moduleDir name = some (directFile moduleDir name.toList) := by
  rw [directFile] at h
  simp only [childPath, directFile, h, if_true]

theorem childPath_nested {name : String}
    (h : isFile (nestedFile moduleDir name.toList) = true)
    (hother : isFile (directFile moduleDir name.toList) = false) :
    childPath isFile moduleDir name = some (nestedFile moduleDir name.toList) := by
  rw [directFile] at hother
  rw [nestedFile] at h
  simp only [childPath, nestedFile, h, hother, Bool.false_eq_true, if_false, if_true]

variable {loc : Location} {d : Declaration}

theorem pathValue_child (hreadable : Readable printer d)
    (hnone : ∀ a ∈ d.head.attributes, isPath a = false) {child : Path}
    (h : childPath isFile moduleDir d.head.name = some child) :
    PathValue (locate isFile printer moduleDir d.head).attributes child := by
  have htexts : (d.head.attributes.any fun a =>
      startsWithPath printer (.group .bracket a.stream)) = false := by
    rw [List.any_eq_false]
    intro a ha htext
    exact Bool.false_ne_true ((hnone a ha).symm.trans (hreadable.texts a ha htext))
  rw [locate, htexts, if_neg Bool.false_ne_true, h]
  exact pathValue_pathAttribute child d.head.attributes

/-- A declaration with a path attribute has it put behind the directory. -/
theorem pathValue_locate (hprinter : printer.PrintsFirst) (hreadable : Readable printer d)
    {value : Path} (h : PathValue d.head.attributes value) :
    PathValue (locate isFile printer moduleDir d.head).attributes (join moduleDir value) := by
  obtain ⟨a, ha, hpath⟩ := h.exists_isPath
  have htexts : (d.head.attributes.any fun a =>
      startsWithPath printer (.group .bracket a.stream)) = true :=
    List.any_eq_true.mpr ⟨a, ha, startsWithPath_of_isPath hprinter hpath⟩
  rw [locate, htexts, if_pos rfl]
  exact pathValue_resolved h hreadable.decoded

/-- From elsewhere a declaration names the file that its new path attribute says. -/
theorem names_of_absolute {path : Path} (habsolute : isAbsolute path = true)
    (henclosing : ∀ head ∈ d.enclosing, ∀ a ∈ head.attributes, isPath a = false)
    (h : PathValue (locate isFile printer (d.directory loc.base) d.head).attributes path)
    (elsewhere : Location) :
    Names isFile elsewhere (d.edit (locate isFile printer) loc.base) path := by
  have hnames : Names isFile elsewhere (d.edit (locate isFile printer) loc.base) _ :=
    .path henclosing h
  rwa [join_of_absolute habsolute] at hnames

/-- From elsewhere a path attribute is read from the directory in which modules without one
are looked for, and a declaration names the file that it named, if there the two are one
directory. -/
theorem names_located (hprinter : printer.PrintsFirst) (hdir : isAbsolute loc.dir = true)
    (hreadable : Readable printer d) (elsewhere : Location) :
    (∀ file, Names isFile loc d file →
      (∀ value, PathValue d.head.attributes value →
        isAbsolute value = true ∨ (d.location loc).relative = none) →
      Names isFile elsewhere (d.edit (locate isFile printer) loc.base) file) ∧
    ∀ value, (∀ head ∈ d.enclosing, ∀ a ∈ head.attributes, isPath a = false) →
      PathValue d.head.attributes value →
      Names isFile elsewhere (d.edit (locate isFile printer) loc.base)
        (join (d.location loc).base value) := by
  have hplain := hreadable.plain
  rw [List.forall_mem_cons] at hplain
  have hbase := base_location hplain.2 loc
  have habsolute : isAbsolute (d.location loc).base = true :=
    Location.absolute_base (absolute_location hdir d)
  rw [hbase] at habsolute
  have hpath : ∀ value, (∀ head ∈ d.enclosing, ∀ a ∈ head.attributes, isPath a = false) →
      PathValue d.head.attributes value →
      Names isFile elsewhere (d.edit (locate isFile printer) loc.base)
        (join (d.location loc).base value) := by
    intro value henclosing hvalue
    rw [hbase]
    exact names_of_absolute (isAbsolute_join habsolute value) henclosing
      (pathValue_locate hprinter hreadable hvalue) elsewhere
  refine ⟨fun file hnames hbased => ?_, hpath⟩
  cases hnames with
  | @path value henclosing hvalue =>
    have hlocated := hpath value henclosing hvalue
    cases hbased value hvalue with
    | inl habsolute =>
      rw [join_of_absolute habsolute] at hlocated ⊢
      exact hlocated
    | inr hrelative =>
      rwa [Location.base_of_none hrelative] at hlocated
  | direct henclosing hnone hfile hother =>
    rw [hplain.1, hbase] at hfile ⊢
    exact names_of_absolute (isAbsolute_join habsolute _) henclosing
      (pathValue_child hreadable hnone (childPath_direct hfile)) elsewhere
  | nested henclosing hnone hfile hother =>
    rw [hplain.1, hbase] at hfile hother ⊢
    exact names_of_absolute (isAbsolute_join (isAbsolute_join habsolute _) _) henclosing
      (pathValue_child hreadable hnone (childPath_nested hfile hother)) elsewhere

end Files

/-- A well-formed source comes out well formed, with nothing changed but path attributes of
declarations. Compiled from anywhere, each of them that the macro can read names the file that
it named, but for a relative path attribute at the top of a source that keeps its modules in a
directory of its own name: that is read from there. -/
theorem declared_modules_kept (isFile : Path → Bool) {printer : Printer}
    (hprinter : printer.PrintsFirst) {loc : Location} (hdir : isAbsolute loc.dir = true)
    {items : List Item} (hscope : Item.Scope true items) :
    ∃ items', resolveExternalModulePaths isFile printer (Item.renderAll items) loc.base =
        Item.renderAll items' ∧ Item.Scope true items' ∧
      editHeadsAll (fun _ => withoutPaths) [] items' =
        editHeadsAll (fun _ => withoutPaths) [] items ∧
      ∀ elsewhere, List.Forall₂ (fun d d' => Readable printer d →
          (∀ file, Names isFile loc d file →
            (∀ value, PathValue d.head.attributes value →
              isAbsolute value = true ∨ (d.location loc).relative = none) →
            Names isFile elsewhere d' file) ∧
          ∀ value, (∀ head ∈ d.enclosing, ∀ a ∈ head.attributes, isPath a = false) →
            PathValue d.head.attributes value →
            Names isFile elsewhere d' (join (d.location loc).base value))
        (declarations items) (declarations items') := by
  refine ⟨editHeadsAll (locate isFile printer) loc.base items, ?_,
    scope_edit loc.base true items hscope,
    editHeadsAll_forget (fun _ => withoutPaths_locate) loc.base items [], fun elsewhere => ?_⟩
  · rw [resolveExternalModulePaths, resolveModules_items items loc.base hscope []
      fun _ => ⟨[], rfl⟩, List.nil_append]
  · rw [declarations_edit, List.forall₂_map_right_iff, List.forall₂_same]
    intro d _ hreadable
    exact names_located hprinter hdir hreadable elsewhere

theorem spaced_printsFirst : spaced.PrintsFirst := by
  intro name rest
  rw [spaced, String.toList_ofList, spellAll, spell, List.append_assoc]
  exact List.prefix_append _ _

/-- `mod writer;` in `/src/console/mod.rs`. -/
theorem declared_modules_kept_writer :
    let head : Head := ⟨[], [], "writer", by simp⟩
    let isFile : Path → Bool := fun path => path = "/src/console/writer.rs".toList
    ∃ items', resolveExternalModulePaths isFile spaced (Item.renderAll [.file head false])
        "/src/console".toList = Item.renderAll items' ∧
      ∀ elsewhere, ∃ d', declarations items' = [d'] ∧
        Names isFile elsewhere d' "/src/console/writer.rs".toList := by
  intro head isFile
  have hscope : Item.Scope true [.file head false] := by
    simp [Item.Scope, Item.Sound, Item.allowed]
  obtain ⟨items', hout, -, -, hfiles⟩ := declared_modules_kept isFile spaced_printsFirst
    (show isAbsolute (Location.mk "/src/console".toList none).dir = true from rfl) hscope
  refine ⟨items', hout, fun elsewhere => ?_⟩
  have hkept := hfiles elsewhere
  have hdeclared : declarations [.file head false] = [⟨[], head⟩] := rfl
  rw [hdeclared, List.forall₂_cons_left_iff] at hkept
  obtain ⟨d', rest, hd, hrest, hitems⟩ := hkept
  rw [List.forall₂_nil_left_iff] at hrest
  subst hrest
  have hreadable : Readable spaced ⟨[], head⟩ :=
    ⟨by simp [head, stem], by simp [head], by simp [head]⟩
  have hfile : "/src/console/writer.rs".toList =
      directFile "/src/console".toList (stem head.name) := by decide
  have hnames : Names isFile ⟨"/src/console".toList, none⟩ ⟨[], head⟩
      (directFile "/src/console".toList (stem head.name)) :=
    .direct (List.forall_mem_nil _) (List.forall_mem_nil _) (by decide) (by decide)
  rw [hfile]
  refine ⟨d', hitems, (hd hreadable).1 _ hnames fun value hvalue => ?_⟩
  cases hvalue

end AgnostOS.ProfileMacro
