import TreeEdit.Arena
import TreeEdit.Text.Quoted

/-!
# References to nodes

A node of a run is known by the run and its number in it. Two references are equal when these are,
whatever the nodes look like. Runs may be started on one and the same tree; `TreeKey` tells which
tree a node belongs to.
-/

namespace TreeEdit

/-- Runs are numbered in the order in which they start. -/
abbrev RunId := Nat

/-- Bindings are numbered in the order in which they are made. -/
abbrev BindingId := Nat

/-- Which tree a run works on: one of its own, or one that a binding keeps. -/
inductive TreeKey where
  | ofRun (run : RunId)
  | ofBinding (binding : BindingId)
  deriving DecidableEq, Repr

structure Node where
  run : RunId
  id : Nat
  tree : Tree
  key : TreeKey

namespace Node

def span (n : Node) : Span :=
  n.tree.span

/-- Are the two the same node of the same run? -/
def same (n m : Node) : Bool :=
  n.run == m.run && n.id == m.id

/-- Are the two the same node of the same tree, if perhaps in different runs? -/
def sameInTree (n m : Node) : Bool :=
  n.key == m.key && n.id == m.id

/-- The kind of a node and where it is. -/
def display (n : Node) : String :=
  n.tree.kind ++ " " ++ n.span.display

/-- A reference with its fields named; the number of the run is not shown. -/
def debug (n : Node) : String :=
  "NodeRef \x7b run: RunId(N), id: NodeId(" ++ toString n.id ++ "), span: " ++ n.span.debug
    ++ ", .. \x7d"

/-- The helpers bound to a node, with their fields named. -/
def debugHelpers (n : Node) : String :=
  "NodeHelpers \x7b run: RunId(N), node: NodeId(" ++ toString n.id ++ ") \x7d"

/-- The run of a node; its number is not shown. -/
def displayRun (_n : Node) : String :=
  "run#N"

end Node

/-- Who asks for something: the helpers bound to a node, or a binding. -/
inductive Actor where
  | helpers (bound : Node)
  | binding (id : BindingId)

end TreeEdit
