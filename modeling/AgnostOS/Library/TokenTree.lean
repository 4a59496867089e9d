import Mathlib.Data.List.Basic
import Mathlib.Tactic.Common

/-! Token streams as a procedural macro sees them, and streams in which groups carry
marks that can be written out or left out. -/

inductive Delimiter where
  | parenthesis | brace | bracket | none
  deriving DecidableEq, Repr

inductive TokenTree where
  | ident (name : String)
  | punct (char : Char) (joint : Bool)
  | literal (text : String)
  | group (delimiter : Delimiter) (stream : List TokenTree)

namespace TokenTree

def outline : TokenTree → TokenTree
  | group .brace _ => group .brace []
  | token => token

def isBrace : TokenTree → Bool
  | group .brace _ => true
  | _ => false

@[simp] theorem outline_brace (stream : List TokenTree) :
    (group .brace stream).outline = group .brace [] := rfl

theorem outline_of_not_brace {token : TokenTree} (h : token.isBrace = false) :
    token.outline = token := by
  cases token with
  | ident name => rfl
  | punct char joint => rfl
  | literal text => rfl
  | group delimiter stream =>
    cases delimiter with
    | brace => cases h
    | parenthesis => rfl
    | bracket => rfl
    | none => rfl

end TokenTree

inductive MarkedTree (μ : Type) where
  | plain (token : TokenTree)
  | brace (marks : List μ) (content : List (MarkedTree μ))

namespace MarkedTree
variable {μ : Type}

section Write
variable (render : μ → List TokenTree)

mutual

def emit : MarkedTree μ → TokenTree
  | plain token => token
  | brace marks content => .group .brace (marks.flatMap render ++ emitAll content)

def emitAll : List (MarkedTree μ) → List TokenTree
  | [] => []
  | tree :: rest => emit tree :: emitAll rest

end

end Write

mutual

def strip : MarkedTree μ → TokenTree
  | plain token => token
  | brace _ content => .group .brace (stripAll content)

def stripAll : List (MarkedTree μ) → List TokenTree
  | [] => []
  | tree :: rest => strip tree :: stripAll rest

end

theorem emitAll_eq_map (render : μ → List TokenTree) (trees : List (MarkedTree μ)) :
    emitAll render trees = trees.map (emit render) := by
  induction trees with
  | nil => rfl
  | cons tree rest ih => rw [emitAll, ih, List.map_cons]

theorem stripAll_eq_map (trees : List (MarkedTree μ)) : stripAll trees = trees.map strip := by
  induction trees with
  | nil => rfl
  | cons tree rest ih => rw [stripAll, ih, List.map_cons]

theorem outline_emit (render : μ → List TokenTree) (tree : MarkedTree μ) :
    (tree.emit render).outline = tree.strip.outline := by
  cases tree with
  | plain token => rfl
  | brace marks content => rfl

def addMark (mark : μ) : MarkedTree μ → MarkedTree μ
  | plain token => .plain token
  | brace marks content => .brace (mark :: marks) content

@[simp] theorem strip_addMark (mark : μ) (tree : MarkedTree μ) :
    (tree.addMark mark).strip = tree.strip := by
  cases tree with
  | plain token => rfl
  | brace marks content => rfl

end MarkedTree
