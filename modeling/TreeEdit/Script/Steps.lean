import TreeEdit.Engine.Walk
import TreeEdit.Script.Turns

/-!
# Playing a script

A session is played step by step: runs are started, polled and dropped, and single actions are done
outside of any turn. Each step has a result, the log entries that it caused, and the number of runs
that each binding then has in flight.
-/

namespace TreeEdit.Script

inductive SessionStep where
  | start (spec : RunSpec) (rules : List Rule)
  | poll (name : String) (times : Nat)
  | drop (name : String)
  /-- Does an action for a binding. -/
  | act (binding : BindingId) (action : Action)

inductive StepResult where
  | reply (r : Reply)
  | polled (p : Session.Polled)
  | dropped (found : Bool)

structure StepReport where
  result : StepResult
  log : List Entry
  inFlight : List Nat

/-- A session with a binding for each source. -/
def newSession (sources : Array Source) : Session :=
  { bindings := sources.map fun s => { adapter := s.grammar.adapter } }

def step (sources : Array Source) (s : Session) : SessionStep → StepResult × Session
  | .start spec rules =>
    match spec.job sources with
    | .error r => (.reply r, s)
    | .ok job =>
      let setting : Setting := { sources, binding := spec.binding, policy := spec.policy }
      let (started, s) := s.start job (manipulator setting rules)
      (.reply (.started started), s)
  | .poll name times =>
    let (polled, s) := s.poll name times
    (.polled polled, s)
  | .drop name =>
    let (found, s) := s.drop name
    (.dropped found, s)
  | .act binding action =>
    let turn := actionsThen { sources, binding } false (fun _ => .done (.ok ())) [action]
    (.reply .nothing, (turn.exec false none s).2)

def play (sources : Array Source) (s : Session) : List SessionStep → List StepReport
  | [] => []
  | t :: ts =>
    let (result, s) := step sources { s with log := [] } t
    { result, log := s.log.reverse, inFlight := s.inFlight } :: play sources s ts

end TreeEdit.Script
