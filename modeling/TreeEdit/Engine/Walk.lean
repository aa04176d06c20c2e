import TreeEdit.Engine.Session

/-!
# The walk

A run goes down to the children of a node before the node has its turn, and lets one turn end before
the next begins. The walk over a tree is laid out beforehand as a list of steps (`plan`), so a walk
that is interrupted is simply the steps that are left.

A turn runs until it is over or has to wait. As long as nothing in a run was put off, all of it
happens when it is started; once something was, the rest happens when it is polled, and one poll
goes as far as it can.
-/

namespace TreeEdit

/-! ## The steps of a walk -/

namespace Tree

mutual

/-- The steps over a tree whose root has the number `id`, in front of `rest`. -/
def planThen (run : RunId) (key : TreeKey) (id : Nat) : Tree → List WalkStep → List WalkStep
  | ⟨kind, span, value, data, children⟩, rest =>
    let node : Node := ⟨run, id, ⟨kind, span, value, data, children⟩, key⟩
    .enter node :: planListThen run key (id + 1) children (.visit node :: rest)

/-- The steps over consecutive trees, the first with the number `id`. -/
def planListThen (run : RunId) (key : TreeKey) (id : Nat) :
    List Tree → List WalkStep → List WalkStep
  | [], rest => rest
  | t :: ts, rest => t.planThen run key id (planListThen run key (id + t.size) ts rest)

end

def plan (run : RunId) (key : TreeKey) (t : Tree) : List WalkStep :=
  t.planThen run key 0 []

end Tree

/-! ## Turns -/

/-- How far a turn got. -/
inductive TurnEnd where
  | finished (result : Except TransformError Unit)
  | suspended (rest : Turn)

/-- How far a walk got. -/
inductive WalkEnd where
  | finished (result : Except TransformError Unit)
  | suspended (node : Node) (turn : Turn) (rest : List WalkStep)

/-- How far a transformation got. -/
inductive Progression where
  | finished (result : Except TransformError Report)
  | pending (task : Task)


namespace Session

/-- After a turn: its node is handled, whether or not the turn failed. -/
def endTurn (s : Session) (node : Node) : Session :=
  s.modifyRun node.run (·.advance node.id .handled)

/-- Takes the steps of a walk until one fails or has to wait. -/
def walk (turnOf : Transcript → Node → Session → TurnEnd × Session) :
    List WalkStep → Session → WalkEnd × Session
  | [], s => (.finished (.ok ()), s)
  | .enter node :: rest, s =>
    walk turnOf rest (s.modifyRun node.run (·.advance node.id .traversingChildren))
  | .visit node :: rest, s =>
    let before := s.transcript node.run
    let s := s.modifyRun node.run fun r => (r.advance node.id .running).record (.visited node)
    match turnOf before node s with
    | (.suspended turn, s) => (.suspended node turn rest, s)
    | (.finished (.error e), s) => (.finished (.error e), s.endTurn node)
    | (.finished (.ok ()), s) => walk turnOf rest (s.endTurn node)

/-- Goes on with the walk of a run, and ends the run if the walk is over. -/
def walkOn (turnOf : Transcript → Node → Session → TurnEnd × Session) (run : RunId) (job : Job)
    (manipulator : Manipulator) (steps : List WalkStep) (s : Session) : Progression × Session :=
  match walk turnOf steps s with
  | (.suspended node turn rest, s) => (.pending (.walking run node turn rest job manipulator), s)
  | (.finished walked, s) =>
    let (result, s) := s.finish run job walked
    (.finished result, s)

/-- Starts the run of a job whose parse is there. -/
def begin (turnOf : RunId → Transcript → Node → Session → TurnEnd × Session) (job : Job)
    (manipulator : Manipulator) (s : Session) : Progression × Session :=
  match job.parsed with
  | .error e => (.finished (.error (.parse e)), s)
  | .ok tree =>
    match Arena.register job.code.toList tree with
    | .error e => (.finished (.error e), s)
    | .ok arena =>
      let (run, s) := s.addRun job arena
      let key := if job.sharedTree then .ofBinding job.binding else .ofRun run
      walkOn (turnOf run) run job manipulator (tree.plan run key) s

/-- Starts a job; what cannot be finished at once is kept under the job's name. -/
def launch (turnOf : RunId → Transcript → Node → Session → TurnEnd × Session) (job : Job)
    (manipulator : Manipulator) (s : Session) : Started × Session :=
  match job.parsePolls with
  | some polls => (.deferred, s.putTask job.name (.parsing polls job manipulator))
  | none =>
    match begin turnOf job manipulator s with
    | (.finished result, s) => (.finished result, s)
    | (.pending task, s) => (.deferred, s.putTask job.name task)

/-- Answers a request and writes it into the transcript of the run that made it. -/
def respond (run : Option RunId) (q : Request) (s : Session) : q.Answer × Session :=
  let (a, s) := s.perform q
  match run with
  | none => (a, s)
  | some run => (a, s.modifyRun run (·.record (.answered q a)))

end Session

namespace Turn

/-- Carries out a turn until it is over or has to wait. A turn that is put off goes on at once when
it is being polled. -/
def exec (polled : Bool) (run : Option RunId) : Turn → Session → TurnEnd × Session
  | .done result, s => (.finished result, s)
  | .call q next, s =>
    let (a, s) := s.respond run q
    (next a).exec polled run s
  | .start job manipulator next, s =>
    let (started, s) := s.launch
      (fun r transcript node => (manipulator transcript node).exec false (some r)) job manipulator
    (next started).exec polled run s
  | .defer next, s => if polled then next.exec polled run s else (.suspended next, s)
  | .wait 0 next, s => next.exec polled run s
  | .wait (n + 1) next, s => (.suspended (.wait n next), s)
  | .never, s => (.suspended .never, s)

end Turn

namespace Session

def start (s : Session) (job : Job) (manipulator : Manipulator) : Started × Session :=
  s.launch (fun r transcript node => (manipulator transcript node).exec false (some r)) job
    manipulator

def pollTask (s : Session) : Task → Progression × Session
  | .parsing (n + 1) job manipulator => (.pending (.parsing n job manipulator), s)
  | .parsing 0 job manipulator =>
    begin (fun r transcript node => (manipulator transcript node).exec true (some r)) job
      manipulator s
  | .walking run node turn rest job manipulator =>
    match turn.exec true (some run) s with
    | (.suspended turn, s) => (.pending (.walking run node turn rest job manipulator), s)
    | (.finished (.error e), s) =>
      let (result, s) := (s.endTurn node).finish run job (.error e)
      (.finished result, s)
    | (.finished (.ok ()), s) =>
      walkOn (fun transcript node => (manipulator transcript node).exec true (some run)) run job
        manipulator rest (s.endTurn node)

/-- Polls a task up to a number of times, and tells how many polls it took to finish. -/
def pollTimes (s : Session) (t : Task) : Nat → Progression × Nat × Session
  | 0 => (.pending t, 0, s)
  | n + 1 =>
    match s.pollTask t with
    | (.finished result, s) => (.finished result, 1, s)
    | (.pending t, s) =>
      let (p, k, s) := s.pollTimes t n
      (p, k + 1, s)

inductive Polled where
  | noRun
  | pending
  | finished (result : Except TransformError Report) (polls : Nat)

def poll (s : Session) (name : String) (times : Nat) : Polled × Session :=
  match s.takeTask name with
  | none => (.noRun, s)
  | some (t, s) =>
    match s.pollTimes t times with
    | (.finished result, polls, s) => (.finished result polls, s)
    | (.pending t, _, s) => (.pending, s.putTask name t)

/-- Gives up the task under a name; false if there is none. -/
def drop (s : Session) (name : String) : Bool × Session :=
  match s.takeTask name with
  | none => (false, s)
  | some (t, s) => (true, s.release t)

end Session

end TreeEdit
