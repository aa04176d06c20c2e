import TreeEdit.Tree.Printer

/-!
# Nodes with an identity

A handle is a node that can be told apart from any other, however alike they are: building a node
marks it with a number that was never used before. `withValue` and `withData` build a node in this
sense, over the same children.

A `Bench` keeps handles under names and knows the next unused mark.
-/

namespace TreeEdit

/-- A node with its mark, over children with theirs. -/
structure Handle where
  mark : Nat
  kind : String
  span : Span
  value : Option String := none
  data : NodeData := .none
  children : List Handle := []
  deriving Inhabited

namespace Handle

mutual

/-- The tree below a handle, marks left out. -/
def tree : Handle → Tree
  | ⟨_, kind, span, value, data, children⟩ => ⟨kind, span, value, data, treeList children⟩

def treeList : List Handle → List Tree
  | [] => []
  | h :: hs => h.tree :: treeList hs

end

mutual

/-- A tree whose nodes are marked in order from `next` on, with the next unused mark. -/
def ofTree : Tree → Nat → Handle × Nat
  | ⟨kind, span, value, data, children⟩, next =>
    let marked := ofTreeList children (next + 1)
    (⟨next, kind, span, value, data, marked.1⟩, marked.2)

def ofTreeList : List Tree → Nat → List Handle × Nat
  | [], next => ([], next)
  | t :: ts, next =>
    let first := ofTree t next
    let others := ofTreeList ts first.2
    (first.1 :: others.1, others.2)

end

/-- Are the two handles the same node? -/
def same (h k : Handle) : Bool :=
  h.mark == k.mark

def withValue (h : Handle) (mark : Nat) (value : String) : Handle :=
  { h with mark, value := some value }

def withData (h : Handle) (mark : Nat) (data : NodeData) : Handle :=
  { h with mark, data }

end Handle

/-! ## Handles under names -/

/-- Handles under names; marks from `next` on are unused. -/
structure Bench where
  next : Nat := 0
  handles : List (String × Handle) := []

namespace Bench

/-- What can be done with the handles of a bench. -/
inductive Step where
  | build (name : String) (tree : Tree)
  | leaf (name kind : String) (span : Span)
  | parent (name kind : String) (span : Span) (children : List String)
  | clone (source name : String)
  | child (source : String) (index : Nat) (name : String)
  | withValue (source name value : String) (keep : Bool)
  | withData (source name : String) (data : NodeData) (keep : Bool)
  | same (first second : String)
  | describe (source : String)

inductive Reply where
  | nothing
  | same (b : Bool)
  | tree (t : Tree)

def get? (b : Bench) (name : String) : Option Handle :=
  b.handles.lookup name

def erase (b : Bench) (name : String) : Bench :=
  { b with handles := b.handles.filter (·.1 != name) }

/-- The bench with a handle under a name, in place of any other. -/
def put (b : Bench) (name : String) (h : Handle) : Bench :=
  { b with handles := (name, h) :: b.handles.filter (·.1 != name) }

/-- The bench with a newly built node under a name. -/
def putNew (b : Bench) (name : String) (h : Nat → Handle) : Bench :=
  { b.put name (h b.next) with next := b.next + 1 }

/-- Does the step; one that names a missing handle does nothing. -/
def step (b : Bench) : Step → Reply × Bench
  | .build name t =>
    let marked := Handle.ofTree t b.next
    (.nothing, { b.put name marked.1 with next := marked.2 })
  | .leaf name kind span => (.nothing, b.putNew name fun mark => { mark, kind, span })
  | .parent name kind span children =>
    (.nothing, b.putNew name fun mark => { mark, kind, span, children := children.filterMap b.get? })
  | .clone source name =>
    match b.get? source with
    | none => (.nothing, b)
    | some h => (.nothing, b.put name h)
  | .child source index name =>
    match (b.get? source).bind (·.children[index]?) with
    | none => (.nothing, b)
    | some h => (.nothing, b.put name h)
  | .withValue source name value keep =>
    match b.get? source with
    | none => (.nothing, b)
    | some h =>
      (.nothing, (if keep then b else b.erase source).putNew name (h.withValue · value))
  | .withData source name data keep =>
    match b.get? source with
    | none => (.nothing, b)
    | some h =>
      (.nothing, (if keep then b else b.erase source).putNew name (h.withData · data))
  | .same first second =>
    match b.get? first, b.get? second with
    | some h, some k => (.same (h.same k), b)
    | _, _ => (.nothing, b)
  | .describe source =>
    match b.get? source with
    | none => (.nothing, b)
    | some h => (.tree h.tree, b)

def steps (b : Bench) : List Step → List Reply × Bench
  | [] => ([], b)
  | s :: rest =>
    let now := b.step s
    let later := now.2.steps rest
    (now.1 :: later.1, later.2)

end Bench

end TreeEdit
