import TreeEdit.Span

/-!
# Syntax trees

A node has a kind, the span of text it stands for, perhaps a literal value, data that depend on its
kind, and its children in order. Trees are plain values: two nodes that agree in all fields are
equal. Nodes with an identity are in `TreeEdit.Handle`.
-/

namespace TreeEdit

/-- What a node carries besides its value. -/
inductive NodeData where
  | none
  | heading (depth : Nat)
  | list (ordered : Bool)
  | code (lang : Option String)
  | link (url : String) (title : Option String)
  | integer (value : Nat)
  deriving DecidableEq, Repr, Inhabited

/-- The number carried, if it is one. -/
def NodeData.integer? : NodeData → Option Nat
  | .integer n => some n
  | _ => Option.none

/-- A node of a syntax tree with everything below it. -/
structure Tree where
  kind : String
  span : Span
  value : Option String := none
  data : NodeData := .none
  children : List Tree := []
  deriving Inhabited

namespace Tree

mutual

def size : Tree → Nat
  | ⟨_, _, _, _, children⟩ => sizeList children + 1

def sizeList : List Tree → Nat
  | [] => 0
  | t :: ts => t.size + sizeList ts

end

mutual

/-- The nodes in front of `rest`, each before its children. -/
def preorderThen : Tree → List Tree → List Tree
  | ⟨kind, span, value, data, children⟩, rest =>
    ⟨kind, span, value, data, children⟩ :: preorderListThen children rest

/-- The nodes of some trees in front of `rest`. -/
def preorderListThen : List Tree → List Tree → List Tree
  | [], rest => rest
  | t :: ts, rest => t.preorderThen (preorderListThen ts rest)

end

/-- The nodes, each before its children. -/
def preorder (t : Tree) : List Tree :=
  t.preorderThen []

end Tree

end TreeEdit
