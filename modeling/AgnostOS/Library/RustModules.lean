import AgnostOS.Library.RustItems
import AgnostOS.Library.StringLiteral
import AgnostOS.Library.UnixPath

/-! Modules in the token streams of Rust sources: their declarations, and the files in which
the compiler looks for those that have no body. -/
namespace RustModules
open UnixPath RustItems

/-! ### The grammar -/

def isVisibility : TokenTree → Bool
  | .ident name => name ≠ "mod"
  | .group delimiter _ => delimiter = .parenthesis
  | _ => false

structure Head where
  attributes : List Attribute
  visibility : List TokenTree
  name : String
  visible : ∀ token ∈ visibility, isVisibility token = true

namespace Head

def lead (head : Head) : List TokenTree :=
  head.attributes.flatMap Attribute.tokens ++ head.visibility

def tokens (head : Head) : List TokenTree := head.lead ++ [.ident "mod", .ident head.name]

end Head

inductive Item where
  | token (token : TokenTree)
  | innerAttribute (joint : Bool) (a : Attribute)
  | file (head : Head) (joint : Bool)
  | inline (head : Head) (content : List Item)

namespace Item

mutual

def render : Item → List TokenTree
  | token t => [t]
  | innerAttribute joint a => (Leaf.innerAttribute joint a).tokens
  | file head joint => head.tokens ++ [.punct ';' joint]
  | inline head content => head.tokens ++ [.group .brace (renderAll content)]

def renderAll : List Item → List TokenTree
  | [] => []
  | item :: rest => render item ++ renderAll rest

end

def closes : Item → Bool
  | token (.punct char _) => char = ';'
  | token (.group delimiter _) => delimiter = .brace
  | token _ => false
  | innerAttribute _ _ => false
  | file _ _ => true
  | inline _ _ => true

def opens (fresh : Bool) : Item → Bool
  | innerAttribute _ _ => fresh
  | item => item.closes

/-- The keyword stands in modules only; these and inner attributes only where an item may
begin. -/
def allowed (fresh : Bool) : Item → Bool
  | token (.ident name) => name ≠ "mod"
  | token _ => true
  | _ => fresh

mutual

def Sound : Item → Prop
  | inline _ content => Scope true content
  | _ => True

def Scope (fresh : Bool) : List Item → Prop
  | [] => True
  | item :: rest => Sound item ∧ item.allowed fresh = true ∧ Scope (item.opens fresh) rest

end

end Item

/-! ### Declarations -/

/-- A module without a body, and the modules around it from the outermost. -/
structure Declaration where
  enclosing : List Head
  head : Head

def Declaration.within (head : Head) (d : Declaration) : Declaration :=
  ⟨head :: d.enclosing, d.head⟩

mutual

def declarationsIn : Item → List Declaration
  | .file head _ => [⟨[], head⟩]
  | .inline head content => (declarations content).map (Declaration.within head)
  | _ => []

def declarations : List Item → List Declaration
  | [] => []
  | item :: rest => declarationsIn item ++ declarations rest

end

/-! ### Files -/

def stem (name : String) : Path :=
  match name.toList with
  | 'r' :: '#' :: rest => rest
  | chars => chars

/-- Where a source file stands: its directory, and its own name if its modules are looked
for in a directory of that name. -/
structure Location where
  dir : Path
  relative : Option Path

namespace Location

def base (loc : Location) : Path :=
  match loc.relative with
  | none => loc.dir
  | some name => join loc.dir name

theorem base_of_none {loc : Location} (h : loc.relative = none) : loc.base = loc.dir := by
  rw [base, h]

def enter (loc : Location) (head : Head) : Location := ⟨join loc.base (stem head.name), none⟩

theorem base_enter (loc : Location) (head : Head) :
    (loc.enter head).base = join loc.base (stem head.name) :=
  rfl

theorem absolute_base {loc : Location} (h : isAbsolute loc.dir = true) :
    isAbsolute loc.base = true := by
  rw [base]
  split
  · exact h
  · exact isAbsolute_join h _

end Location

def Declaration.location (loc : Location) (d : Declaration) : Location :=
  d.enclosing.foldl Location.enter loc

def isPath (a : Attribute) : Bool :=
  match a.stream with
  | .ident name :: _ => name = "path"
  | _ => false

inductive PathValue : List Attribute → Path → Prop where
  | here {a : Attribute} {rest : List Attribute} {joint : Bool} {text : String}
      (l : StringLiteral.Literal)
      (hstream : a.stream = [.ident "path", .punct '=' joint, .literal text])
      (htext : text.toList = l.text) : PathValue (a :: rest) l.value
  | later {a : Attribute} {rest : List Attribute} {value : Path} (h : isPath a = false)
      (hrest : PathValue rest value) : PathValue (a :: rest) value

theorem PathValue.exists_isPath {attributes : List Attribute} {value : Path}
    (h : PathValue attributes value) : ∃ a ∈ attributes, isPath a = true := by
  induction h with
  | @here a rest joint text l hstream htext =>
    have hpath : isPath a = true := by rw [isPath, hstream, decide_eq_true_eq]
    exact ⟨a, List.mem_cons_self, hpath⟩
  | later hother hrest ih =>
    obtain ⟨a, ha, hpath⟩ := ih
    exact ⟨a, List.mem_cons_of_mem _ ha, hpath⟩

def directFile (base : Path) (name : Path) : Path := join base (name ++ ".rs".toList)

def nestedFile (base : Path) (name : Path) : Path := join (join base name) "mod.rs".toList

/-- The file of a declaration: what its path attribute says, or the one of two files that
exists. Modules around it have no path attribute. -/
inductive Names (isFile : Path → Bool) (loc : Location) (d : Declaration) : Path → Prop where
  | path {value : Path}
      (henclosing : ∀ head ∈ d.enclosing, ∀ a ∈ head.attributes, isPath a = false)
      (h : PathValue d.head.attributes value) : Names isFile loc d (join (d.location loc).dir value)
  | direct (henclosing : ∀ head ∈ d.enclosing, ∀ a ∈ head.attributes, isPath a = false)
      (hnone : ∀ a ∈ d.head.attributes, isPath a = false)
      (hfile : isFile (directFile (d.location loc).base (stem d.head.name)) = true)
      (hother : isFile (nestedFile (d.location loc).base (stem d.head.name)) = false) :
      Names isFile loc d (directFile (d.location loc).base (stem d.head.name))
  | nested (henclosing : ∀ head ∈ d.enclosing, ∀ a ∈ head.attributes, isPath a = false)
      (hnone : ∀ a ∈ d.head.attributes, isPath a = false)
      (hfile : isFile (nestedFile (d.location loc).base (stem d.head.name)) = true)
      (hother : isFile (directFile (d.location loc).base (stem d.head.name)) = false) :
      Names isFile loc d (nestedFile (d.location loc).base (stem d.head.name))

/-! ### Heads edited, module by module -/

section Edit
variable (edit : Path → Head → Head)

mutual

def Item.editHeads (dir : Path) : Item → Item
  | .file head joint => .file (edit dir head) joint
  | .inline head content => .inline head (editHeadsAll (join dir head.name.toList) content)
  | item => item

/-- The heads of the declarations edited, each with the directory its enclosing modules lead
to. -/
def editHeadsAll (dir : Path) : List Item → List Item
  | [] => []
  | item :: rest => item.editHeads dir :: editHeadsAll dir rest

end

end Edit

def Declaration.directory (dir : Path) (d : Declaration) : Path :=
  d.enclosing.foldl (fun dir head => join dir head.name.toList) dir

def Declaration.edit (edit : Path → Head → Head) (dir : Path) (d : Declaration) : Declaration :=
  ⟨d.enclosing, edit (d.directory dir) d.head⟩

section Laws
variable {edit : Path → Head → Head}

mutual

theorem declarationsIn_edit (dir : Path) : (item : Item) →
    declarationsIn (item.editHeads edit dir) =
      (declarationsIn item).map (Declaration.edit edit dir)
  | .token _ => rfl
  | .innerAttribute _ _ => rfl
  | .file _ _ => rfl
  | .inline head content => by
    have hcontent := declarations_edit (join dir head.name.toList) content
    rw [Item.editHeads, declarationsIn, declarationsIn, hcontent, List.map_map, List.map_map]
    rfl

theorem declarations_edit (dir : Path) : (items : List Item) →
    declarations (editHeadsAll edit dir items) =
      (declarations items).map (Declaration.edit edit dir)
  | [] => rfl
  | item :: rest => by
    have hitem := declarationsIn_edit dir item
    have hrest := declarations_edit dir rest
    rw [editHeadsAll, declarations, declarations, hitem, hrest, List.map_append]

end

/-- What a directory and the names of modules lead to, the compiler finds as well. -/
theorem base_location {d : Declaration} (h : ∀ head ∈ d.enclosing, stem head.name =
    head.name.toList) (loc : Location) : (d.location loc).base = d.directory loc.base := by
  rw [Declaration.location, Declaration.directory]
  generalize d.enclosing = enclosing at h
  induction enclosing generalizing loc with
  | nil => rfl
  | cons head enclosing ih =>
    rw [List.forall_mem_cons] at h
    rw [List.foldl_cons, List.foldl_cons, ih (loc.enter head) h.2, Location.base_enter, h.1]

theorem absolute_location {loc : Location} (h : isAbsolute loc.dir = true) (d : Declaration) :
    isAbsolute (d.location loc).dir = true := by
  rw [Declaration.location]
  induction d.enclosing generalizing loc with
  | nil => exact h
  | cons head enclosing ih => exact ih (isAbsolute_join (Location.absolute_base h) _)

mutual

theorem editHeads_forget {forget : Head → Head}
    (h : ∀ dir head, forget (edit dir head) = forget head) (dir : Path) : (item : Item) → (dir' : Path) →
    (item.editHeads edit dir).editHeads (fun _ => forget) dir' =
      item.editHeads (fun _ => forget) dir'
  | .token _, _ => rfl
  | .innerAttribute _ _, _ => rfl
  | .file head joint, dir' => by rw [Item.editHeads, Item.editHeads, Item.editHeads, h]
  | .inline head content, dir' => by
    rw [Item.editHeads, Item.editHeads, Item.editHeads,
      editHeadsAll_forget h (join dir head.name.toList) content]

/-- What is forgotten about a head need not be known before. -/
theorem editHeadsAll_forget {forget : Head → Head}
    (h : ∀ dir head, forget (edit dir head) = forget head) (dir : Path) : (items : List Item) →
    (dir' : Path) → editHeadsAll (fun _ => forget) dir' (editHeadsAll edit dir items) =
      editHeadsAll (fun _ => forget) dir' items
  | [], _ => rfl
  | item :: rest, dir' => by
    rw [editHeadsAll, editHeadsAll, editHeadsAll, editHeads_forget h dir item,
      editHeadsAll_forget h dir rest]

end

theorem opens_edit (dir : Path) (fresh : Bool) (item : Item) :
    (item.editHeads edit dir).opens fresh = item.opens fresh := by
  cases item <;> rfl

theorem allowed_edit (dir : Path) (fresh : Bool) (item : Item) :
    (item.editHeads edit dir).allowed fresh = item.allowed fresh := by
  cases item <;> rfl

mutual

theorem sound_edit (dir : Path) : (item : Item) → item.Sound → (item.editHeads edit dir).Sound
  | .token _, _ => trivial
  | .innerAttribute _ _, _ => trivial
  | .file _ _, _ => trivial
  | .inline head content, h => by
    rw [Item.Sound] at h
    rw [Item.editHeads, Item.Sound]
    exact scope_edit (join dir head.name.toList) true content h

theorem scope_edit (dir : Path) (fresh : Bool) : (items : List Item) → Item.Scope fresh items →
    Item.Scope fresh (editHeadsAll edit dir items)
  | [], _ => trivial
  | item :: rest, h => by
    rw [Item.Scope] at h
    have hsound := sound_edit dir item h.1
    have hrest := scope_edit dir (item.opens fresh) rest h.2.2
    rw [editHeadsAll, Item.Scope, opens_edit, allowed_edit]
    exact ⟨hsound, h.2.1, hrest⟩

end

end Laws

end RustModules
