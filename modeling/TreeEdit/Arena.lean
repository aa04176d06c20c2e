import TreeEdit.Text.Bytes
import TreeEdit.Error
import TreeEdit.Tree.Basic

/-!
# The nodes of a run

Before a run starts, every node of its tree is given a number, each node before its children. The
arena keeps for each number the node, its parent, its children and how far the run has come with it.
A tree whose spans are not all ranges of the text is not registered.
-/

namespace TreeEdit

/-- How far a run has come with a node. -/
inductive NodeState where
  /-- The walk has not reached the node. -/
  | registered
  /-- The walk is among the node's children. -/
  | traversingChildren
  /-- It is the node's turn. -/
  | running
  /-- The node's turn is over. -/
  | handled
  deriving DecidableEq, Repr, Inhabited

namespace NodeState

/-- The place of a state in the life of a node. -/
def rank : NodeState → Nat
  | .registered => 0
  | .traversingChildren => 1
  | .running => 2
  | .handled => 3

def later (s t : NodeState) : NodeState :=
  if s.rank < t.rank then t else s

def name : NodeState → String
  | .registered => "Registered"
  | .traversingChildren => "TraversingChildren"
  | .running => "Running"
  | .handled => "Handled"

end NodeState

/-- What is known of a node. -/
structure NodeEntry where
  tree : Tree
  parent : Option Nat
  children : List Nat
  state : NodeState := .registered

/-- The nodes of a tree by their numbers. -/
structure Arena where
  entries : Array NodeEntry

namespace Tree

/-- The numbers of consecutive trees, the first of them given. -/
def numbers : Nat → List Tree → List Nat
  | _, [] => []
  | id, t :: ts => id :: numbers (id + t.size) ts

mutual

/-- The entries of a tree whose root has the number `id`, in front of `rest`. -/
def entriesThen (parent : Option Nat) (id : Nat) : Tree → List NodeEntry → List NodeEntry
  | ⟨kind, span, value, data, children⟩, rest =>
    { tree := ⟨kind, span, value, data, children⟩, parent,
      children := numbers (id + 1) children } :: entriesListThen id (id + 1) children rest

/-- The entries of consecutive trees below `parent`, the first with the number `id`. -/
def entriesListThen (parent id : Nat) : List Tree → List NodeEntry → List NodeEntry
  | [], rest => rest
  | t :: ts, rest =>
    t.entriesThen (some parent) id (entriesListThen parent (id + t.size) ts rest)

end

end Tree

namespace Arena

/-- Is the span a range of the text, with both ends between characters? -/
def validSpan (text : List Char) (s : Span) : Bool :=
  s.start ≤ s.stop && s.stop ≤ Text.size text &&
    Text.isBoundary text s.start && Text.isBoundary text s.stop

def ofTree (t : Tree) : Arena :=
  ⟨(t.entriesThen none 0 []).toArray⟩

/-- Registers a tree over a text, or names the first node whose span is no range of it. -/
def register (text : List Char) (t : Tree) : Except TransformError Arena :=
  match t.preorder.find? fun u => !validSpan text u.span with
  | some u => .error (.invalidSpan u.span (Text.size text))
  | none => .ok (ofTree t)

def get? (a : Arena) (id : Nat) : Option NodeEntry :=
  a.entries[id]?

def parent? (a : Arena) (id : Nat) : Option Nat :=
  (a.get? id).bind (·.parent)

/-- The node that is some steps up. -/
def climb (a : Arena) (id : Nat) : Nat → Option Nat
  | 0 => some id
  | n + 1 =>
    match a.parent? id with
    | none => none
    | some p => a.climb p n

/-- The ancestor of a node some generations up, where no generation counts as one. -/
def ancestor (a : Arena) (id levels : Nat) : Option Nat :=
  a.climb id (max levels 1)

/-- Moves a node on to a state, never back. -/
def advance (a : Arena) (id : Nat) (state : NodeState) : Arena :=
  ⟨a.entries.modify id fun e => { e with state := e.state.later state }⟩

end Arena

end TreeEdit
