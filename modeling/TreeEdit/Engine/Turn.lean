import TreeEdit.Engine.Log

/-!
# What a manipulator does

In the turn of a node its manipulator makes requests and goes on with the answers. It may put off
the rest of its turn (`defer`), which then goes on only when the run is polled, and there let some
polls go by (`wait`). A turn may also start another run, with a manipulator of its own.

A turn is a tree: each request has a continuation for every answer. What came before in the run is
given to the manipulator as a transcript, so a turn may depend on everything the run has seen.
-/

namespace TreeEdit

/-- What can be asked of a session. -/
inductive Request where
  /-- The current text of a node. -/
  | source (actor : Actor) (target : Node)
  /-- Replaces the text of a node, or inserts text where the node is empty. -/
  | override (actor : Actor) (target : Node) (text : String)
  | ancestor (actor : Actor) (target : Node) (levels : Nat)
  | children (actor : Actor) (target : Node)
  /-- How far its run has come with a node, asked of a binding. -/
  | state (binding : BindingId) (target : Node)
  /-- How many runs each binding has in flight. -/
  | inFlight
  /-- The name of a binding's adapter. -/
  | adapterName (binding : BindingId)
  | savedNode (name : String)
  | savedHelpers (name : String)
  | saveNode (name : String) (node : Node)
  /-- Keeps the helpers bound to a node, and with them the run. -/
  | saveHelpers (name : String) (bound : Node)
  /-- Gives up the node and the helpers under a name. -/
  | forget (name : String)
  /-- Writes an entry of the log. -/
  | note (entry : Entry)

/-- What a request is answered with. -/
def Request.Answer : Request → Type
  | .source .. => Except TransformError String
  | .override .. => Except TransformError Unit
  | .ancestor .. => Option Node
  | .children .. => List Node
  | .state .. => Option NodeState
  | .inFlight => List Nat
  | .adapterName _ => Option String
  | .savedNode _ => Option Node
  | .savedHelpers _ => Option Node
  | .saveNode .. => Unit
  | .saveHelpers .. => Unit
  | .forget _ => Unit
  | .note _ => Unit

/-- Something that a run has seen. -/
inductive Event where
  /-- The turn of a node began. -/
  | visited (node : Node)
  /-- A request was answered. -/
  | answered (request : Request) (answer : request.Answer)

/-- What a run has seen so far, last first. -/
abbrev Transcript := List Event

/-- A transformation to be carried out. -/
structure Job where
  /-- The name under which it is kept while it is not finished. -/
  name : String
  binding : BindingId
  code : String
  /-- How many polls the parse stays pending, if it is not there at once. -/
  parsePolls : Option Nat
  parsed : Except ParseError Tree
  /-- Does the tree belong to the binding, so that its other runs work on the same one? -/
  sharedTree : Bool
  map : MapOptions
  /-- Positions of the edited text to be traced back. -/
  lookups : List Position

/-- The rest of a node's turn. -/
inductive Turn where
  /-- The turn is over. -/
  | done (result : Except TransformError Unit)
  | call (request : Request) (next : request.Answer → Turn)
  /-- Starts another run. -/
  | start (job : Job) (manipulator : Transcript → Node → Turn) (next : Started → Turn)
  /-- Puts off the rest: it goes on when polled. -/
  | defer (next : Turn)
  /-- Stays pending for some polls. -/
  | wait (polls : Nat) (next : Turn)
  /-- Stays pending for ever. -/
  | never

/-- What is done in the turn of each node, given what the run has seen before. -/
abbrev Manipulator := Transcript → Node → Turn

end TreeEdit
