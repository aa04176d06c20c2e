import TreeEdit.Engine.Run

/-!
# Sessions

A session holds bindings, each an adapter with a store of the runs it has in flight; every run that
was ever started; the transformations that wait to be polled; and the nodes and helpers that were
saved under names.

A run is *alive* while it is at work or its result is awaited, and as long as helpers of it are
saved. Requests reach a node through the helpers of its own run, through those of another, or
through a binding: `resolve` finds out where the request ends up.
-/

namespace TreeEdit

/-- What a grammar has to say about its trees. -/
structure Adapter where
  name : String
  /-- Is the value one of the grammar's nodes? -/
  isNode : Tree → Bool

/-- An adapter with the runs that it has in flight. -/
structure Binding where
  adapter : Adapter
  store : List RunId := []

inductive WalkStep where
  /-- Goes down to the children of a node. -/
  | enter (node : Node)
  /-- Gives a node its turn. -/
  | visit (node : Node)

/-- A transformation that is not finished. -/
inductive Task where
  /-- The parse stays pending for some polls. -/
  | parsing (polls : Nat) (job : Job) (manipulator : Manipulator)
  /-- The turn of a node is put off; the rest of the walk comes after it. -/
  | walking (run : RunId) (node : Node) (turn : Turn) (rest : List WalkStep) (job : Job)
      (manipulator : Manipulator)

/-- The run of a task, if it has started. -/
def Task.run? : Task → Option RunId
  | .parsing .. => none
  | .walking run .. => some run

/-- Everything that is going on. -/
structure Session where
  bindings : Array Binding
  runs : Array Run := #[]
  tasks : List (String × Task) := []
  nodes : List (String × Node) := []
  helpers : List (String × Node) := []
  /-- The log, last entry first. -/
  log : List Entry := []

/-- A table with a value under a name, in place of any other. -/
def putNamed {α : Type} (name : String) (a : α) (table : List (String × α)) : List (String × α) :=
  (name, a) :: table.filter (·.1 != name)

def eraseNamed {α : Type} (name : String) (table : List (String × α)) : List (String × α) :=
  table.filter (·.1 != name)

/-- Where a request for a node ends up. -/
inductive Place where
  /-- At a node of a run that can be asked. -/
  | node (run : RunId) (id : Nat)
  /-- At a run that came to a good end. -/
  | completed
  /-- At a run that failed, or that nothing keeps alive. -/
  | gone
  deriving DecidableEq, Repr

namespace Session

/-- Is the run at work or awaited, or are helpers of it saved? -/
def alive (s : Session) (run : RunId) : Bool :=
  (s.runs[run]?.any (·.held)) || s.helpers.any fun h => h.2.run == run

/-- How many runs a binding has in flight. -/
def inFlightOf (s : Session) (b : Binding) : Nat :=
  b.store.countP s.alive

/-- How many runs each binding has in flight. -/
def inFlight (s : Session) : List Nat :=
  s.bindings.toList.map s.inFlightOf

/-! ## Finding a node -/

/-- Where the reference itself leads. -/
def origin (s : Session) (n : Node) : Place :=
  match s.runs[n.run]? with
  | none => .gone
  | some r =>
    match r.phase with
    | .inFlight => if s.alive n.run then .node n.run n.id else .gone
    | .completed => .completed
    | .failed => .gone

/-- Where a binding finds a node: in its own store, or else where the reference leads. -/
def locate (s : Session) (b : BindingId) (n : Node) : Place :=
  if s.bindings[b]?.any (·.store.contains n.run) && s.alive n.run then .node n.run n.id
  else s.origin n

/-- Does the adapter of the run take the value for one of its nodes? -/
def recognises (s : Session) (run : RunId) (t : Tree) : Bool :=
  ((s.runs[run]?).bind fun r => s.bindings[r.binding]?).any (·.adapter.isNode t)

/-- Where a request ends up. Helpers fall back on the node that they are bound to when their adapter
does not recognise the target, and reach the nodes of their own run as long as they keep it alive. -/
def resolve (s : Session) (actor : Actor) (n : Node) : Place :=
  match actor with
  | .binding b => s.locate b n
  | .helpers bound =>
    if !s.alive bound.run then .gone
    else if !s.recognises bound.run n.tree then .node bound.run bound.id
    else if n.run = bound.run then .node n.run n.id
    else s.origin n

/-! ## Requests -/

def source (s : Session) (actor : Actor) (n : Node) : Except TransformError String :=
  match s.resolve actor n with
  | .node run id =>
    match s.runs[run]? with
    | none => .error .runFinished
    | some r => r.source id
  | .completed | .gone => .error .runFinished

def ancestor (s : Session) (actor : Actor) (n : Node) (levels : Nat) : Option Node :=
  match s.resolve actor n with
  | .node run id => (s.runs[run]?).bind (·.ancestor id levels)
  | .completed | .gone => none

def children (s : Session) (actor : Actor) (n : Node) : List Node :=
  match s.resolve actor n with
  | .node run id =>
    match s.runs[run]? with
    | none => []
    | some r => r.children id
  | .completed | .gone => []

def state? (s : Session) (b : BindingId) (n : Node) : Option NodeState :=
  match s.locate b n with
  | .node run id => (s.runs[run]?).bind (·.state? id)
  | .completed => some .handled
  | .gone => none

def override (s : Session) (actor : Actor) (n : Node) (text : String) :
    Except TransformError Session :=
  match s.resolve actor n with
  | .node run id =>
    match s.runs[run]? with
    | none => .error .runFinished
    | some r => (r.override id text).map fun r => { s with runs := s.runs.modify run fun _ => r }
  | .completed => .error (.nodeAlreadyHandled n.span)
  | .gone => .error .runFinished

def perform (s : Session) : (q : Request) → q.Answer × Session
  | .source actor n => (s.source actor n, s)
  | .override actor n text =>
    match s.override actor n text with
    | .ok s' => (.ok (), s')
    | .error e => (.error e, s)
  | .ancestor actor n levels => (s.ancestor actor n levels, s)
  | .children actor n => (s.children actor n, s)
  | .state b n => (s.state? b n, s)
  | .inFlight => (s.inFlight, s)
  | .adapterName b => ((s.bindings[b]?).map (·.adapter.name), s)
  | .savedNode name => (s.nodes.lookup name, s)
  | .savedHelpers name => (s.helpers.lookup name, s)
  | .saveNode name n => ((), { s with nodes := putNamed name n s.nodes })
  | .saveHelpers name n => ((), { s with helpers := putNamed name n s.helpers })
  | .forget name =>
    ((), { s with nodes := eraseNamed name s.nodes, helpers := eraseNamed name s.helpers })
  | .note e => ((), { s with log := e :: s.log })

/-! ## Runs and tasks -/

def modifyRun (s : Session) (run : RunId) (f : Run → Run) : Session :=
  { s with runs := s.runs.modify run f }

def modifyStore (s : Session) (b : BindingId) (f : List RunId → List RunId) : Session :=
  { s with bindings := s.bindings.modify b fun b => { b with store := f b.store } }

def transcript (s : Session) (run : RunId) : Transcript :=
  match s.runs[run]? with
  | none => []
  | some r => r.transcript

/-- Starts a run over a registered tree; its binding drops the dead runs from its store. -/
def addRun (s : Session) (job : Job) (arena : Arena) : RunId × Session :=
  let id := s.runs.size
  let run : Run := {
    id
    binding := job.binding
    key := if job.sharedTree then .ofBinding job.binding else .ofRun id
    arena
    buffer := { base := job.code.toList }
    map := job.map }
  let s := { s with runs := s.runs.push run }
  (id, s.modifyStore job.binding fun store => store.filter s.alive ++ [id])

/-- Ends a run: it leaves the store of its binding, and gives a report if the walk came to a good
end. -/
def finish (s : Session) (run : RunId) (job : Job) (walked : Except TransformError Unit) :
    Except TransformError Report × Session :=
  let s := s.modifyStore job.binding fun store => store.filter (· != run)
  match walked, s.runs[run]? with
  | .ok (), some r =>
    (.ok (r.report job.lookups), s.modifyRun run fun r => { r with phase := .completed })
  | .ok (), none => (.error .runFinished, s)
  | .error e, _ => (.error e, s.modifyRun run fun r => { r with phase := .failed })

/-- Gives up a task: nobody awaits the result of its run any more. -/
def release (s : Session) (t : Task) : Session :=
  match t.run? with
  | none => s
  | some run => s.modifyRun run fun r => { r with held := false }

/-- Keeps a task under a name; one that was there is given up. -/
def putTask (s : Session) (name : String) (t : Task) : Session :=
  let kept := { s with tasks := putNamed name t s.tasks }
  match s.tasks.lookup name with
  | none => kept
  | some old => kept.release old

/-- Takes the task under a name out of the table. -/
def takeTask (s : Session) (name : String) : Option (Task × Session) :=
  (s.tasks.lookup name).map fun t => (t, { s with tasks := eraseNamed name s.tasks })

end Session

end TreeEdit
