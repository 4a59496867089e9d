import AgnostOS.Library.Dict
import AgnostOS.Library.Loop
import AgnostOS.Commands
import Mathlib.Algebra.Ring.Int.Defs

/-! The flame-graph reader of scripts/render-flamegraph.py: from the bytes of a trace to the
weighted call tree, with the Python operations it uses on strings. -/
namespace AgnostOS.FlameGraph
open Commands

/-! ### Strings of Python -/

def isLineBreak (c : Char) : Bool :=
  c ∈ ['\n', '\r', '\x0b', '\x0c', '\x1c', '\x1d', '\x1e', '\u0085', '\u2028', '\u2029']

def isSpace (c : Char) : Bool :=
  (9 ≤ c.toNat ∧ c.toNat ≤ 13) ∨ c.toNat = 0x20 ∨ c.toNat = 0x85 ∨
    c.toNat = 0xa0 ∨ c.toNat = 0x1680 ∨ (0x2000 ≤ c.toNat ∧ c.toNat ≤ 0x200a) ∨
    c.toNat = 0x2028 ∨ c.toNat = 0x2029 ∨ c.toNat = 0x202f ∨ c.toNat = 0x205f ∨ c.toNat = 0x3000

/-- Reading in text mode turns every line ending into a newline. -/
def universalNewlines : Text → Text
  | [] => []
  | '\r' :: '\n' :: rest => '\n' :: universalNewlines rest
  | c :: rest => (if c = '\r' then '\n' else c) :: universalNewlines rest

def splitlinesFrom (line : Text) : Text → List Text
  | [] => if line = [] then [] else [line]
  | '\r' :: '\n' :: rest => line :: splitlinesFrom [] rest
  | c :: rest =>
    if isLineBreak c then line :: splitlinesFrom [] rest else splitlinesFrom (line ++ [c]) rest

def splitlines (text : Text) : List Text := splitlinesFrom [] text

def split (separator : Char) : Nat → Text → List Text
  | 0, text => [text]
  | maxsplit + 1, text =>
    match text.dropWhile (· ≠ separator) with
    | [] => [text]
    | _ :: rest => text.takeWhile (· ≠ separator) :: split separator maxsplit rest

def digit (c : Char) : Option Nat :=
  if 48 ≤ c.toNat ∧ c.toNat ≤ 57 then some (c.toNat - 48) else none

/-- Digits after a first one, with single underscores between them. -/
def number (value : Nat) : Text → Option Nat
  | [] => some value
  | '_' :: c :: rest =>
    match digit c with
    | none => none
    | some d => number (10 * value + d) rest
  | c :: rest =>
    match digit c with
    | none => none
    | some d => number (10 * value + d) rest

def natural : Text → Option Nat
  | [] => none
  | c :: rest =>
    match digit c with
    | none => none
    | some d => number d rest

def strip (text : Text) : Text :=
  ((text.dropWhile isSpace).reverse.dropWhile isSpace).reverse

/-- `int(text)`; `none` is a `ValueError`. -/
def int (text : Text) : Option Int :=
  match strip text with
  | '-' :: rest => (natural rest).map fun n => -(n : Int)
  | '+' :: rest => (natural rest).map Int.ofNat
  | rest => (natural rest).map Int.ofNat

/-! ### The reader -/

structure FlameNode where
  id : Int
  parent : Option Int
  name : Text
  calls : Int
  weight : Int
  children : List Int
  deriving DecidableEq, Repr

abbrev Nodes := Dict Int FlameNode

/-- The ways out of the reader; `keyError` is an exception that it does not catch, and
`unfinished` a loop that is cut off. -/
inductive Failure where
  | incomplete
  | invalidRecord (line : Text)
  | invalidDropped
  | missingParent (id : Int) (parent : Option Int)
  | cycle (id : Int)
  | keyError
  | unfinished
  deriving DecidableEq, Repr

def rootNode : FlameNode := ⟨0, none, "[root]".toList, 0, 0, []⟩

def parseRecord (line : Text) : Option FlameNode :=
  match split ' ' 3 (line.drop 2) with
  | [idText, parentText, callsText, name] =>
    match int idText, int parentText, int callsText with
    | some id, some parent, some calls => some ⟨id, some parent, name, calls, calls, []⟩
    | _, _, _ => none
  | _ => none

def readLine (state : Nodes × Int) (line : Text) : Except Failure (Nodes × Int) :=
  if "N:".toList.isPrefixOf line then
    match parseRecord line with
    | none => .error (.invalidRecord line)
    | some node => .ok (state.1.set node.id node, state.2)
  else if "AGNOSTOS_PROFILE_DROPPED_PATHS=".toList.isPrefixOf line then
    match (split '=' 1 line)[1]?.bind int with
    | none => .error .invalidDropped
    | some dropped => .ok (state.1, dropped)
  else .ok state

def link (nodes : Nodes) (node : FlameNode) : Except Failure Nodes :=
  match node.parent with
  | none => .error (.missingParent node.id none)
  | some key =>
    match nodes.get key with
    | none => .error (.missingParent node.id (some key))
    | some parent => .ok (nodes.set key { parent with children := parent.children ++ [node.id] })

def climb (nodes : Nodes) (validated : List Int) :
    List Int × Int → Except Failure (List Int) ⊕ (List Int × Int)
  | (chain, current) =>
    if current ∈ validated then .inl (.ok chain)
    else if current ∈ chain then .inl (.error (.cycle current))
    else
      match (nodes.get current).bind FlameNode.parent with
      | none => .inl (.error .keyError)
      | some parent => .inr (chain ++ [current], parent)

def validate (nodes : Nodes) (validated : List Int) (id : Int) : Except Failure (List Int) :=
  if id = 0 ∨ id ∈ validated then .ok validated
  else
    match Loop.iterate (climb nodes validated) (nodes.length + 1) ([], id) with
    | none => .error .unfinished
    | some (.error failure) => .error failure
    | some (.ok chain) => .ok (validated ++ chain)

def visit (nodes : Nodes) : List Int × List Int → Except Failure (List Int) ⊕ (List Int × List Int)
  | (order, pending) =>
    match pending.getLast? with
    | none => .inl (.ok order)
    | some id =>
      match nodes.get id with
      | none => .inl (.error .keyError)
      | some node => .inr (order ++ [id], pending.dropLast ++ node.children)

def traverse (nodes : Nodes) : Except Failure (List Int) :=
  match Loop.iterate (visit nodes) (nodes.length + 1) ([], [0]) with
  | none => .error .unfinished
  | some result => result

def weigh (nodes : Nodes) (id : Int) : Except Failure Nodes :=
  match nodes.get id with
  | none => .error .keyError
  | some node =>
    match node.children.mapM fun child => (nodes.get child).map FlameNode.weight with
    | none => .error .keyError
    | some weights => .ok (nodes.set id { node with weight := node.calls + weights.sum })

def render (lines : List Text) : Except Failure (Nodes × Int) := do
  if "AGNOSTOS_PROFILE_V2".toList ∉ lines ∨ "AGNOSTOS_PROFILE_END".toList ∉ lines then
    .error .incomplete
  else
    let (nodes, dropped) ← lines.foldlM readLine ([(0, rootNode)], 0)
    let nodes ← (nodes.values.drop 1).foldlM link nodes
    let _ ← nodes.keys.foldlM (validate nodes) [0]
    let order ← traverse nodes
    let nodes ← order.reverse.foldlM weigh nodes
    return (nodes, dropped)

/-- The lines of a trace file. The bytes that the guest writes are valid UTF-8, so nothing
is replaced in them. -/
def readTrace (bytes : ByteArray) : Option (List Text) :=
  (String.fromUTF8? bytes).map fun text => splitlines (universalNewlines text.toList)

end AgnostOS.FlameGraph
