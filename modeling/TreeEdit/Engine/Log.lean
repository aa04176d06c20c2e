import TreeEdit.Engine.Node
import TreeEdit.SourceMap.Basic

/-!
# What a session reports

A finished run gives a `Report` or an error. While runs are at work the session keeps a log: which
node's turn it is, when a turn is put off and resumed, and what each action came to.
-/

namespace TreeEdit

/-- What a finished run gives: the edited text, its map, and where the positions asked for come
from. -/
structure Report where
  code : String
  map : SourceMap
  lookups : List (Option Position)
  deriving DecidableEq, Repr

/-- What starting a run comes to. -/
inductive Started where
  | deferred
  | finished (result : Except TransformError Report)

/-- What an action comes to. -/
inductive Reply where
  | nothing
  | ok
  | text (s : String)
  | node (n : Option Node)
  | nodes (ns : List Node)
  | state (s : Option NodeState)
  /-- Whether two references are the same, the order of their runs, and whether they are the same
  node of one tree. -/
  | comparison (same : Bool) (runs : Ordering) (sameInTree : Bool)
  /-- The node, the helpers if there are any, and the run, each in words. -/
  | debug (node : String) (helpers : Option String) (run : String)
  /-- A number for each binding. -/
  | counts (ns : List Nat)
  /-- The name of a binding's adapter, and the binding in words. -/
  | description (name binding : String)
  | started (s : Started)
  /-- The options of a run could not be read. -/
  | badOptions (e : TransformError)
  /-- The action has nothing to act on. -/
  | noTarget
  | failed (e : TransformError)

inductive Entry where
  | visit (node : Node)
  | defer (polls : Option Nat)
  | resume
  | action (name : String) (reply : Reply)

end TreeEdit
