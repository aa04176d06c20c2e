import TreeEdit.Script.Action

/-!
# The turns of a script

`manipulator` turns the rules of a script into a manipulator: in the turn of a node, the actions of
all rules that match it, in order, each with an entry in the log.
-/

namespace TreeEdit.Script

/-- A grammar that a binding is made for, and how long its parses stay pending. -/
structure Source where
  grammar : Grammar
  parsePolls : Option Nat := none

/-- What the actions of a turn depend on. -/
structure Setting where
  sources : Array Source
  /-- The binding of the run. -/
  binding : BindingId := 0
  policy : Policy := {}
  /-- The node whose turn it is, if it is one's. -/
  here : Option Node := none

/-! ## Requests -/

def note (e : Entry) (next : Turn) : Turn :=
  .call (.note e) fun () => next

def withActor (setting : Setting) (via : Via) (next : Option Actor → Turn) : Turn :=
  match via with
  | .own => next (setting.here.map .helpers)
  | .helpers name => .call (.savedHelpers name) fun h => next (h.map Actor.helpers)
  | .binding id => next (if id < setting.sources.size then some (.binding id) else none)

def withAnchor (setting : Setting) (actor : Actor) (anchor : Anchor) (next : Option Node → Turn) :
    Turn :=
  match anchor, actor with
  | .self, .helpers bound => next (some bound)
  | .self, .binding _ => next setting.here
  | .here, _ => next setting.here
  | .saved name, _ => .call (.savedNode name) next

def withPath (actor : Actor) (next : Option Node → Turn) : List Step → Node → Turn
  | [], n => next (some n)
  | s :: path, n =>
    let go : Option Node → Turn
      | none => next none
      | some n => withPath actor next path n
    match s with
    | .parent => .call (.ancestor actor n 1) go
    | .up levels => .call (.ancestor actor n levels) go
    | .child index => .call (.children actor n) fun (ns : List Node) => go ns[index]?

def withTarget (setting : Setting) (actor : Actor) (t : Target) (next : Option Node → Turn) :
    Turn :=
  withAnchor setting actor t.anchor fun
    | none => next none
    | some n => withPath actor next t.path n

/-- The reply to a request that may fail. -/
def replyOf {α : Type} (f : α → Reply) : Except TransformError α → Reply
  | .ok a => f a
  | .error e => .failed e

def act (setting : Setting) (actor : Actor) (n : Node) (next : Reply → Turn) : Verb → Turn
  | .source => .call (.source actor n) fun r => next (replyOf .text r)
  | .override (.text s) => .call (.override actor n s) fun r => next (replyOf (fun _ => .ok) r)
  | .override (.wrap before after) =>
    .call (.source actor n) fun
      | .error e => next (.failed e)
      | .ok s =>
        .call (.override actor n (before ++ s ++ after)) fun r => next (replyOf (fun _ => .ok) r)
  | .parent => .call (.ancestor actor n 1) fun r => next (.node r)
  | .ancestor levels => .call (.ancestor actor n levels) fun r => next (.node r)
  | .children => .call (.children actor n) fun r => next (.nodes r)
  | .node => next (.node (some n))
  | .debug =>
    let helpers := match actor with
      | .helpers bound => some bound.debugHelpers
      | .binding _ => none
    next (.debug n.debug helpers n.displayRun)
  | .state binding =>
    .call (.state (binding.getD setting.binding) n) fun r => next (.state r)
  | .eq other =>
    withTarget setting actor other fun
      | none => next .noTarget
      | some m => next (.comparison (n.same m) (compare n.run m.run) (n.sameInTree m))
  | .save name => .call (.saveNode name n) fun () => next (.node (some n))
  | .saveHelpers name =>
    match actor with
    | .helpers bound => .call (.saveHelpers name bound) fun () => next .nothing
    | .binding _ => next .noTarget

/-- A binding in words. -/
def describe (binding : BindingId) (next : Reply → Turn) : Turn :=
  .call (.adapterName binding) fun
    | none => next .noTarget
    | some (name : String) => .call .inFlight fun (counts : List Nat) =>
      next (.description name
        ("Modifier \x7b parser: " ++ Text.quoted name ++ ", in_flight: "
          ++ toString (counts[binding]?.getD 0) ++ " \x7d"))

/-- The job of a run, or what is wrong with it. -/
def RunSpec.job (sources : Array Source) (spec : RunSpec) : Except Reply Job :=
  match sources[spec.binding]? with
  | none => .error .noTarget
  | some source =>
    match source.grammar.prepare spec.options spec.code with
    | .error e => .error (.badOptions e)
    | .ok (parsed, map) => .ok {
        name := spec.name
        binding := spec.binding
        code := spec.code
        parsePolls := source.parsePolls
        parsed
        sharedTree := source.grammar.sharesTree
        map
        lookups := spec.lookups }

/-- The rest of a turn that stays pending for some polls, or for ever. -/
def waitFor (polls : Option Nat) (next : Turn) : Turn :=
  match polls with
  | none => .never
  | some n => .wait n next

/-- The number of turns that a run has seen. -/
def visits (t : Transcript) : Nat :=
  t.countP fun
    | .visited _ => true
    | .answered .. => false

/-! ## Actions and rules -/

mutual

/-- Does an action and goes on. `deferred` says whether the turn has been put off before; whether it
has by now is passed on. -/
def actionThen (setting : Setting) (deferred : Bool) (next : Bool → Turn) : Action → Turn
  | .act verb target via attempt =>
    let reply (r : Reply) : Turn :=
      note (.action verb.name r) <|
        match r, attempt with
        | .failed e, false => .done (setting.policy.result e)
        | _, _ => next deferred
    withActor setting via fun
      | none => reply .noTarget
      | some actor => withTarget setting actor target fun
        | none => reply .noTarget
        | some n => act setting actor n reply verb
  | .fail e attempt =>
    note (.action "fail" (.failed e)) <|
      if attempt then next deferred else .done (setting.policy.result e)
  | .start spec rules =>
    let reply (r : Reply) : Turn := note (.action "start" r) (next deferred)
    match spec.job setting.sources with
    | .error r => reply r
    | .ok job =>
      let inner : Setting := { sources := setting.sources, binding := spec.binding,
                               policy := spec.policy }
      .start job
        (fun transcript node => note (.visit node) <|
          rulesThen { inner with here := some node } node (visits transcript) false rules)
        fun s => reply (.started s)
  | .forget name => .call (.forget name) fun () => note (.action "forget" .nothing) (next deferred)
  | .inFlight =>
    .call .inFlight fun counts => note (.action "in_flight" (.counts counts)) (next deferred)
  | .describe binding =>
    describe (binding.getD setting.binding) fun r => note (.action "describe" r) (next deferred)
  | .defer polls =>
    if setting.policy.mayDefer then
      let later := waitFor polls (note .resume (next true))
      note (.defer polls) (if deferred then later else .defer later)
    else next deferred

def actionsThen (setting : Setting) (deferred : Bool) (next : Bool → Turn) : List Action → Turn
  | [] => next deferred
  | action :: rest =>
    actionThen setting deferred (fun deferred => actionsThen setting deferred next rest) action

/-- Does the actions of the rules that match a node, and ends the turn. -/
def rulesThen (setting : Setting) (node : Node) (before : Nat) (deferred : Bool) :
    List Rule → Turn
  | [] => .done (.ok ())
  | .mk condition actions :: rest =>
    if condition.holds node before then
      actionsThen setting deferred (fun deferred => rulesThen setting node before deferred rest)
        actions
    else rulesThen setting node before deferred rest

end

def manipulator (setting : Setting) (rules : List Rule) : Manipulator :=
  fun transcript node => note (.visit node) <|
    rulesThen { setting with here := some node } node (visits transcript) false rules

end TreeEdit.Script
