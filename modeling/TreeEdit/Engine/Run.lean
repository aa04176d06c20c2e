import TreeEdit.Engine.Turn

/-!
# Runs

A run owns the nodes of a tree and a buffer over the text. It is in flight until its walk ends; from
then on it accepts no override. A node whose turn is over accepts none either, and that is the
error reported when both hold.
-/

namespace TreeEdit

/-- How a run has come out. -/
inductive Phase where
  | inFlight
  | completed
  | failed
  deriving DecidableEq, Repr, Inhabited

/-- One transformation at work, or finished. -/
structure Run where
  id : RunId
  binding : BindingId
  key : TreeKey
  arena : Arena
  buffer : Buffer
  map : MapOptions
  phase : Phase := .inFlight
  /-- Is the run at work, or its result still awaited? -/
  held : Bool := true
  transcript : Transcript := []

namespace Run

def ref? (r : Run) (id : Nat) : Option Node :=
  (r.arena.get? id).map fun e => ⟨r.id, id, e.tree, r.key⟩

/-- The current text of a node. A missing node has none. -/
def source (r : Run) (id : Nat) : Except TransformError String :=
  match r.arena.get? id with
  | none => .error .runFinished
  | some e => (r.buffer.slice e.tree.span).map String.ofList

def ancestor (r : Run) (id levels : Nat) : Option Node :=
  (r.arena.ancestor id levels).bind r.ref?

def children (r : Run) (id : Nat) : List Node :=
  match r.arena.get? id with
  | none => []
  | some e => e.children.filterMap r.ref?

def state? (r : Run) (id : Nat) : Option NodeState :=
  (r.arena.get? id).map (·.state)

/-- Replaces the range of a span, or inserts in front of it when it is empty. -/
def edit (r : Run) (span : Span) (text : String) : Except TransformError Buffer :=
  if h : span.start < span.stop then r.buffer.overwrite span h text.toList
  else r.buffer.insert span.start text.toList

def override (r : Run) (id : Nat) (text : String) : Except TransformError Run :=
  match r.arena.get? id with
  | none => .error .runFinished
  | some e =>
    if e.state = .handled then .error (.nodeAlreadyHandled e.tree.span)
    else if r.phase ≠ .inFlight then .error .runFinished
    else (r.edit e.tree.span text).map fun buffer => { r with buffer }

def advance (r : Run) (id : Nat) (state : NodeState) : Run :=
  { r with arena := r.arena.advance id state }

/-- Adds to what the run has seen. -/
def record (r : Run) (e : Event) : Run :=
  { r with transcript := e :: r.transcript }

/-- What the run gives, if its walk came to a good end. -/
def report (r : Run) (lookups : List Position) : Report :=
  let map := SourceMap.ofBuffer r.map r.buffer
  { code := String.ofList r.buffer.code, map, lookups := lookups.map map.lookup }

end Run

end TreeEdit
