import TreeEdit.Script.Grammar

/-!
# Scripts

A script says what is to be done with the nodes of a run without being a program: rules that match
some of the nodes, each with a list of actions. An action names the node that it is about, and who
is to act on it.
-/

namespace TreeEdit.Script

/-- The node from which a target is found. -/
inductive Anchor where
  /-- The node that the actor is bound to. -/
  | self
  /-- The node whose turn it is. -/
  | here
  | saved (name : String)

/-- A step from a node to another. -/
inductive Step where
  | parent
  | up (levels : Nat)
  | child (index : Nat)

/-- The node that an action is about. -/
structure Target where
  anchor : Anchor := .self
  path : List Step := []

/-- Who is to act. -/
inductive Via where
  /-- The helpers of the node whose turn it is. -/
  | own
  | helpers (name : String)
  | binding (id : BindingId)

/-- New text for a node. -/
inductive Edit where
  | text (s : String)
  /-- The current text between two others. -/
  | wrap (before after : String)

/-- What is to be done with a node. -/
inductive Verb where
  | source
  | override (edit : Edit)
  | parent
  | ancestor (levels : Nat)
  | children
  | node
  | debug
  /-- Asks a binding for the state of the node; the one of the run unless another is named. -/
  | state (binding : Option BindingId)
  | eq (other : Target)
  | save (name : String)
  | saveHelpers (name : String)

def Verb.name : Verb → String
  | .source => "source"
  | .override _ => "override"
  | .parent => "parent"
  | .ancestor _ => "ancestor"
  | .children => "children"
  | .node => "node"
  | .debug => "debug"
  | .state _ => "state"
  | .eq _ => "eq"
  | .save _ => "save"
  | .saveHelpers _ => "save_helpers"

/-- Which nodes a rule is for: those that agree with all that is given. -/
structure Condition where
  kind : Option String := none
  integer : Option Nat := none
  value : Option String := none
  span : Option Span := none
  /-- The number of turns in the run before the node's. -/
  visit : Option Nat := none

/-- Does the node, with so many turns before its own, agree with the condition? -/
def Condition.holds (c : Condition) (n : Node) (visits : Nat) : Bool :=
  c.kind.all (· == n.tree.kind) && c.integer.all (fun i => n.tree.data.integer? == some i) &&
    c.value.all (fun v => n.tree.value == some v) && c.span.all (· == n.span) &&
    c.visit.all (· == visits)

/-- Which errors of an action end the run. -/
inductive Severity where
  | none
  | all
  | parseOnly

/-- What a manipulator may do, and which of its errors count. -/
structure Policy where
  mayDefer : Bool := true
  severity : Severity := .all

/-- The result of a turn that an error ended. -/
def Policy.result (p : Policy) (e : TransformError) : Except TransformError Unit :=
  match p.severity, e with
  | .none, _ => .ok ()
  | .all, e => .error e
  | .parseOnly, .parse e => .error (.parse e)
  | .parseOnly, _ => .ok ()

/-- A run to be started, its rules apart. -/
structure RunSpec where
  name : String := "main"
  binding : BindingId := 0
  code : String
  options : OptionSource := .defaults
  policy : Policy := {}
  lookups : List Position := []

mutual

/-- Something to be done in the turn of a node. -/
inductive Action where
  /-- Acts on a node. An attempt may fail without ending the turn. -/
  | act (verb : Verb) (target : Target) (via : Via) (attempt : Bool)
  | fail (error : TransformError) (attempt : Bool)
  | start (spec : RunSpec) (rules : List Rule)
  | forget (name : String)
  | inFlight
  | describe (binding : Option BindingId)
  /-- Puts off the rest of the turn for some polls, or for ever. -/
  | defer (polls : Option Nat)

/-- Actions for some of the nodes. -/
inductive Rule where
  | mk (condition : Condition) (actions : List Action)

end

end TreeEdit.Script
