import AgnostOS.Library.LabelTree
import AgnostOS.Library.Table
import AgnostOS.Library.Word

/-! The call-tree profiler of profiling.rs: entering and leaving functions, suspended
recording, and the dump over the debug console. Each update runs with interrupts off, so
an interrupt handler's updates fall between those of what it interrupts. -/
namespace AgnostOS.Profiling
open Word

abbrev NODE_CAPACITY : Nat := 16384
abbrev ROOT : Nat := 0
abbrev NO_NODE : Nat := 2 ^ 32 - 1

/-- A `&'static str`. -/
abbrev Name := List Char

structure Node where
  name : Name
  parent : Nat
  firstChild : Nat
  nextSibling : Nat
  calls : Nat
  deriving DecidableEq, Repr

def Node.EMPTY : Node := ⟨[], NO_NODE, NO_NODE, NO_NODE, 0⟩

structure ProfileGuard where
  previous : Nat
  active : Bool
  deriving DecidableEq, Repr

structure Profiler where
  nodes : Nat → Node
  nodeCount : Nat
  currentNode : Nat
  droppedPaths : Nat
  recording : Bool

namespace Profiler

def initial : Profiler := ⟨fun _ => .EMPTY, 1, ROOT, 0, true⟩

/-- The walk along the children of a node; no chain is longer than the table. -/
def findChild (self : Profiler) (parent : Nat) (name : Name) : Option Nat :=
  Loop.iterate
    (LabelTree.seek (fun child => (self.nodes child).name = name)
      (fun child => (self.nodes child).nextSibling) NO_NODE)
    (NODE_CAPACITY + 1) (self.nodes parent).firstChild

def descend (self : Profiler) (parent : Nat) (name : Name) : Option (Nat × Profiler) :=
  if parent = NO_NODE then some (NO_NODE, self)
  else
    match self.findChild parent name with
    | none => none
    | some child =>
      if child ≠ NO_NODE then
        let node := self.nodes child
        let node := { node with calls := saturatingAdd 64 node.calls 1 }
        some (child, { self with nodes := Table.store self.nodes child node })
      else
        let index := self.nodeCount
        if index ≥ NODE_CAPACITY then
          some (NO_NODE, { self with droppedPaths := wrappingAdd 64 self.droppedPaths 1 })
        else
          let nodes := Table.store self.nodes index
            ⟨name, parent, NO_NODE, (self.nodes parent).firstChild, 1⟩
          let nodes := Table.store nodes parent
            { nodes parent with firstChild := index % 2 ^ 32 }
          some (index % 2 ^ 32, { self with nodes := nodes, nodeCount := index + 1 })

def enter (self : Profiler) (name : Name) : Option (ProfileGuard × Profiler) :=
  if ¬ self.recording then some (⟨ROOT, false⟩, self)
  else
    let parent := self.currentNode
    match self.descend parent name with
    | none => none
    | some (current, self) => some (⟨parent, true⟩, { self with currentNode := current })

def suspendRecording (self : Profiler) : ProfileGuard × Profiler :=
  if ¬ self.recording then (⟨ROOT, false⟩, self)
  else (⟨self.currentNode, true⟩, { self with currentNode := NO_NODE })

def dropGuard (self : Profiler) (guard : ProfileGuard) : Profiler :=
  if guard.active then { self with currentNode := guard.previous } else self

end Profiler

/-! ### The dump -/

/-- `loop { cursor -= 1; digits[cursor] = b'0' + value % 10; value /= 10; .. }`, with the
digits from `cursor` on. -/
def decimalDigits : Nat → Nat → List Char → Option (List Char)
  | 0, _, _ => none
  | cursor + 1, value, digits =>
    let digits := Char.ofNat ('0'.toNat + value % 10) :: digits
    let value := value / 10
    if value = 0 then some digits else decimalDigits cursor value digits

def writeDecimal (value : Nat) : Option (List Char) := decimalDigits 20 value []

def record (index : Nat) (node : Node) : Option (List Char) := do
  let index ← writeDecimal index
  let parent ← writeDecimal node.parent
  let calls ← writeDecimal node.calls
  return "N:".toList ++ index ++ [' '] ++ parent ++ [' '] ++ calls ++ [' '] ++ node.name ++ ['\n']

def droppedLine (dropped : Nat) : Option (List Char) :=
  if dropped > 0 then do
    let dropped ← writeDecimal dropped
    return "AGNOSTOS_PROFILE_DROPPED_PATHS=".toList ++ dropped ++ ['\n']
  else some []

namespace Profiler

def dumpText (self : Profiler) : Option (List Char) := do
  let count := min self.nodeCount NODE_CAPACITY
  let records ← (List.range' 1 (count - 1)).mapM fun index => record index (self.nodes index)
  let dropped ← droppedLine self.droppedPaths
  return "AGNOSTOS_PROFILE_V2\n".toList ++ records.flatten ++ dropped ++
    "AGNOSTOS_PROFILE_END\n".toList

def dump (self : Profiler) : Option (ByteArray × Profiler) :=
  self.dumpText.map fun text => ((String.ofList text).toUTF8, { self with recording := false })

/-! ### The call tree -/

def tree (self : Profiler) : LabelTree Name where
  parent i := (self.nodes i).parent
  label i := (self.nodes i).name
  count := self.nodeCount

@[simp] theorem tree_parent (self : Profiler) (i : Nat) :
    self.tree.parent i = (self.nodes i).parent := rfl

@[simp] theorem tree_label (self : Profiler) (i : Nat) :
    self.tree.label i = (self.nodes i).name := rfl

@[simp] theorem tree_count (self : Profiler) : self.tree.count = self.nodeCount := rfl

end Profiler

structure CallTree (p : Profiler) : Prop where
  count_le : p.nodeCount ≤ NODE_CAPACITY
  rooted : p.tree.Rooted
  linked : p.tree.Linked (fun i => (p.nodes i).firstChild) (fun i => (p.nodes i).nextSibling) NO_NODE

theorem initial_callTree : CallTree .initial where
  count_le := by decide
  rooted := by
    refine ⟨Nat.one_pos, fun i hpos hi => ?_, fun k i j hi => ?_⟩
    · exact absurd hi (by simpa [Profiler.tree, Profiler.initial] using hpos.ne')
    · have hlt : i < 1 := hi.2.1
      exact absurd hi.1 (by omega)
  linked := by
    intro k _
    refine ⟨[], rfl, List.nodup_nil, fun i => iff_of_false (by simp) fun hi => ?_⟩
    have hlt : i < 1 := hi.2.1
    exact absurd hi.1 (by omega)

section Enter
variable {p : Profiler} {parent : Nat} {name : Name}

/-- The search ends, at the child of that name if there is one. -/
theorem CallTree.findChild_cases (h : CallTree p) (hparent : parent < p.nodeCount) (name : Name) :
    (∃ i, p.tree.Child parent i ∧ (p.nodes i).name = name ∧ p.findChild parent name = some i) ∨
    ((∀ i, p.tree.Child parent i → (p.nodes i).name ≠ name) ∧
      p.findChild parent name = some NO_NODE) := by
  obtain ⟨l, hchain, hnodup, hmem⟩ := h.linked parent hparent
  have hlen : l.length < NODE_CAPACITY + 1 := by
    have hle := LabelTree.length_le_of_children hnodup fun i hi => (hmem i).mp hi
    exact Nat.lt_succ_of_le (hle.trans h.count_le)
  have hseek := hchain.seek_eq (fun child => (p.nodes child).name = name) hlen
  cases hfind : l.find? fun child => (p.nodes child).name = name with
  | some i =>
    rw [hfind] at hseek
    have hname : (p.nodes i).name = name := by simpa using List.find?_some hfind
    exact .inl ⟨i, (hmem i).mp (List.mem_of_find?_eq_some hfind), hname, hseek⟩
  | none =>
    rw [hfind] at hseek
    refine .inr ⟨fun i hi => ?_, hseek⟩
    simpa using List.find?_eq_none.mp hfind i ((hmem i).mpr hi)

def Profiler.counted (p : Profiler) (i : Nat) : Profiler :=
  let node := { p.nodes i with calls := saturatingAdd 64 (p.nodes i).calls 1 }
  { p with nodes := Table.store p.nodes i node }

def Profiler.added (p : Profiler) (parent : Nat) (name : Name) : Profiler :=
  let node : Node := ⟨name, parent, NO_NODE, (p.nodes parent).firstChild, 1⟩
  let above := { p.nodes parent with firstChild := p.nodeCount }
  { p with
    nodes := Table.store (Table.store p.nodes p.nodeCount node) parent above
    nodeCount := p.nodeCount + 1 }

theorem CallTree.descend_cases (h : CallTree p) (hparent : parent < p.nodeCount) (name : Name) :
    (∃ i, p.tree.Child parent i ∧ (p.nodes i).name = name ∧
      p.descend parent name = some (i, p.counted i)) ∨
    ((∀ i, p.tree.Child parent i → (p.nodes i).name ≠ name) ∧ p.nodeCount < NODE_CAPACITY ∧
      p.descend parent name = some (p.nodeCount, p.added parent name)) ∨
    ((∀ i, p.tree.Child parent i → (p.nodes i).name ≠ name) ∧ p.nodeCount = NODE_CAPACITY ∧
      p.descend parent name =
        some (NO_NODE, { p with droppedPaths := wrappingAdd 64 p.droppedPaths 1 })) := by
  have hle := h.count_le
  have hne : parent ≠ NO_NODE := by
    simp only [NODE_CAPACITY, NO_NODE] at *
    omega
  rcases h.findChild_cases hparent name with ⟨i, hchild, hname, hfind⟩ | ⟨hnone, hfind⟩
  · refine .inl ⟨i, hchild, hname, ?_⟩
    have hi : i ≠ NO_NODE := by
      have hlt : i < p.nodeCount := hchild.2.1
      simp only [NODE_CAPACITY, NO_NODE] at *
      omega
    simp only [Profiler.descend, if_neg hne, hfind, if_pos hi, Profiler.counted]
  · right
    cases Nat.lt_or_ge p.nodeCount NODE_CAPACITY with
    | inl hlt =>
      refine .inl ⟨hnone, hlt, ?_⟩
      have hmod : p.nodeCount % 2 ^ 32 = p.nodeCount :=
        Nat.mod_eq_of_lt (by simp only [NODE_CAPACITY] at hlt; omega)
      have hkeep : Table.store p.nodes p.nodeCount
          ⟨name, parent, NO_NODE, (p.nodes parent).firstChild, 1⟩ parent = p.nodes parent := by
        rw [Table.store, if_neg hparent.ne]
      simp only [Profiler.descend, if_neg hne, hfind, ne_eq, not_true, if_false,
        if_neg (Nat.not_le.mpr hlt), hmod, hkeep, Profiler.added]
    | inr hge =>
      refine .inr ⟨hnone, le_antisymm hle hge, ?_⟩
      simp only [Profiler.descend, if_neg hne, hfind, ne_eq, not_true, if_false, if_pos hge]

end Enter

section Counted
variable {p : Profiler} {i : Nat}

theorem counted_fields (j : Nat) : ((p.counted i).nodes j).parent = (p.nodes j).parent ∧
    ((p.counted i).nodes j).name = (p.nodes j).name ∧
    ((p.counted i).nodes j).firstChild = (p.nodes j).firstChild ∧
    ((p.counted i).nodes j).nextSibling = (p.nodes j).nextSibling := by
  simp only [Profiler.counted, Table.store]
  split
  · next heq =>
    subst heq
    exact ⟨rfl, rfl, rfl, rfl⟩
  · exact ⟨rfl, rfl, rfl, rfl⟩

theorem counted_calls (j : Nat) : ((p.counted i).nodes j).calls =
    if j = i then saturatingAdd 64 (p.nodes j).calls 1 else (p.nodes j).calls := by
  simp only [Profiler.counted, Table.store]
  split
  · next heq => rw [heq]
  · rfl

theorem counted_tree : (p.counted i).tree = p.tree := by
  simp only [Profiler.tree, counted_fields]
  rfl

theorem CallTree.counted (h : CallTree p) (i : Nat) : CallTree (p.counted i) where
  count_le := h.count_le
  rooted := by
    rw [counted_tree]
    exact h.rooted
  linked := by
    rw [counted_tree]
    simp only [counted_fields]
    exact h.linked

end Counted

section Added
variable {p : Profiler} {parent : Nat} {name : Name}

theorem added_fields (hparent : parent < p.nodeCount) (j : Nat) :
    ((p.added parent name).nodes j).firstChild = (if j = parent then p.nodeCount
      else if j = p.nodeCount then NO_NODE else (p.nodes j).firstChild) ∧
    ((p.added parent name).nodes j).nextSibling =
      (if j = p.nodeCount then (p.nodes parent).firstChild else (p.nodes j).nextSibling) ∧
    ((p.added parent name).nodes j).parent =
      (if j = p.nodeCount then parent else (p.nodes j).parent) ∧
    ((p.added parent name).nodes j).name =
      (if j = p.nodeCount then name else (p.nodes j).name) ∧
    ((p.added parent name).nodes j).calls =
      (if j = p.nodeCount then 1 else (p.nodes j).calls) := by
  simp only [Profiler.added, Table.store]
  by_cases hj : j = parent
  · subst hj
    simp [hparent.ne]
  · by_cases hnew : j = p.nodeCount
    · subst hnew
      simp [hj]
    · simp [hj, hnew]

theorem added_leaf (hparent : parent < p.nodeCount) :
    p.tree.Leaf parent name (p.added parent name).tree where
  count := rfl
  parent := fun j hj => (added_fields hparent j).2.2.1.trans (if_neg (Nat.ne_of_lt hj))
  label := fun j hj => (added_fields hparent j).2.2.2.1.trans (if_neg (Nat.ne_of_lt hj))
  newParent := (added_fields hparent _).2.2.1.trans (if_pos rfl)
  newLabel := (added_fields hparent _).2.2.2.1.trans (if_pos rfl)

theorem CallTree.added (h : CallTree p) (hparent : parent < p.nodeCount)
    (hroom : p.nodeCount < NODE_CAPACITY)
    (hfresh : ∀ i, p.tree.Child parent i → (p.nodes i).name ≠ name) :
    CallTree (p.added parent name) where
  count_le := hroom
  rooted := (added_leaf hparent).rooted h.rooted hparent hfresh
  linked := by
    refine h.linked.leaf (added_leaf hparent) h.rooted ?_ (fun i _ => (added_fields hparent i).1)
      (fun i _ => (added_fields hparent i).2.1) hparent
    simp only [Profiler.tree_count, NODE_CAPACITY, NO_NODE] at *
    omega

end Added

/-! ### Guards dropped in any order -/

inductive Reached : Profiler → List ProfileGuard → Prop
  | initial : Reached .initial []
  | enter {p p' : Profiler} {guards : List ProfileGuard} {name : Name} {guard : ProfileGuard}
      (h : Reached p guards) (henter : p.enter name = some (guard, p')) :
      Reached p' (guard :: guards)
  | suspend {p : Profiler} {guards : List ProfileGuard} (h : Reached p guards) :
      Reached p.suspendRecording.2 (p.suspendRecording.1 :: guards)
  | drop {p : Profiler} {guards : List ProfileGuard} {guard : ProfileGuard} (h : Reached p guards)
      (hguard : guard ∈ guards) : Reached (p.dropGuard guard) (guards.erase guard)

def Profiler.Within (p : Profiler) (i : Nat) : Prop := i = NO_NODE ∨ i < p.nodeCount

theorem Profiler.Within.mono {p p' : Profiler} {i : Nat} (h : p.Within i)
    (hle : p.nodeCount ≤ p'.nodeCount) : p'.Within i :=
  h.imp id fun hlt => hlt.trans_le hle

/-- What a call does to the tree, whatever node is current. -/
theorem CallTree.descend_keeps {p p' : Profiler} (h : CallTree p) {parent current : Nat}
    (hparent : p.Within parent) {name : Name}
    (hdescend : p.descend parent name = some (current, p')) :
    CallTree p' ∧ p.nodeCount ≤ p'.nodeCount ∧ p'.Within current := by
  cases hparent with
  | inl hnone =>
    rw [Profiler.descend, if_pos hnone, Option.some.injEq, Prod.mk.injEq] at hdescend
    obtain ⟨rfl, rfl⟩ := hdescend
    exact ⟨h, le_rfl, .inl rfl⟩
  | inr hlt =>
    rcases h.descend_cases hlt name with ⟨i, hchild, -, heq⟩ | ⟨hfresh, hroom, heq⟩ | ⟨-, -, heq⟩
    · rw [heq, Option.some.injEq, Prod.mk.injEq] at hdescend
      obtain ⟨rfl, rfl⟩ := hdescend
      exact ⟨h.counted i, le_rfl, .inr hchild.2.1⟩
    · rw [heq, Option.some.injEq, Prod.mk.injEq] at hdescend
      obtain ⟨rfl, rfl⟩ := hdescend
      exact ⟨h.added hlt hroom hfresh, Nat.le_succ _, .inr (Nat.lt_succ_self _)⟩
    · rw [heq, Option.some.injEq, Prod.mk.injEq] at hdescend
      obtain ⟨rfl, rfl⟩ := hdescend
      exact ⟨⟨h.count_le, h.rooted, h.linked⟩, le_rfl, .inl rfl⟩

structure Sound (p : Profiler) (guards : List ProfileGuard) : Prop where
  tree : CallTree p
  current : p.Within p.currentNode
  previous : ∀ guard ∈ guards, p.Within guard.previous

theorem Sound.root {p : Profiler} {guards : List ProfileGuard} (h : Sound p guards) :
    p.Within ROOT := .inr h.tree.rooted.count_pos

theorem Reached.sound {p : Profiler} {guards : List ProfileGuard} (h : Reached p guards) :
    Sound p guards := by
  induction h with
  | initial => exact ⟨initial_callTree, .inr Nat.one_pos, by simp⟩
  | @enter p p' guards name guard _ henter ih =>
    rw [Profiler.enter] at henter
    split at henter
    · rw [Option.some.injEq, Prod.mk.injEq] at henter
      obtain ⟨rfl, rfl⟩ := henter
      exact ⟨ih.tree, ih.current, List.forall_mem_cons.mpr ⟨ih.root, ih.previous⟩⟩
    · cases hdescend : p.descend p.currentNode name with
      | none => simp only [hdescend, reduceCtorEq] at henter
      | some next =>
        obtain ⟨htree, hle, hcurrent⟩ := ih.tree.descend_keeps ih.current hdescend
        simp only [hdescend, Option.some.injEq, Prod.mk.injEq] at henter
        obtain ⟨rfl, rfl⟩ := henter
        refine ⟨⟨htree.count_le, htree.rooted, htree.linked⟩, hcurrent, ?_⟩
        exact List.forall_mem_cons.mpr
          ⟨ih.current.mono hle, fun guard hguard => (ih.previous guard hguard).mono hle⟩
  | @suspend p guards _ ih =>
    rw [Profiler.suspendRecording]
    split
    · exact ⟨ih.tree, ih.current, List.forall_mem_cons.mpr ⟨ih.root, ih.previous⟩⟩
    · exact ⟨⟨ih.tree.count_le, ih.tree.rooted, ih.tree.linked⟩, .inl rfl,
        List.forall_mem_cons.mpr ⟨ih.current, ih.previous⟩⟩
  | @drop p guards guard _ hguard ih =>
    have hprevious : ∀ other ∈ guards.erase guard, p.Within other.previous :=
      fun other hother => ih.previous other (List.mem_of_mem_erase hother)
    rw [Profiler.dropGuard]
    split
    · exact ⟨⟨ih.tree.count_le, ih.tree.rooted, ih.tree.linked⟩, ih.previous guard hguard,
        hprevious⟩
    · exact ⟨ih.tree, ih.current, hprevious⟩

end AgnostOS.Profiling
