import Mathlib.Logic.Relation
import TreeEdit.Proofs.Engine.Polling

/-!
# A session, moment by moment

`Session.start` and `Session.poll` say what a call comes to in the end. Here a session is taken apart into
moments: what is being done, who waits for it to be done, how the session stands, and what has become of
turns so far. `Moment.Step` leads from one moment to the next. Jobs may be started in the middle of a turn,
so there is a list of callers, the innermost first.

The two views agree (`Moment.agrees`): the moments of a turn lead to where `Turn.exec` ends
(`Turn.exec_leads`), those of a walk to where `Session.walkOn` ends (`walkOn_leads`), and so for calls of `start`
and `poll` (`start_leads`, `poll_leads`).
-/

namespace TreeEdit

/-- A job that has a run, and whose walk is going on. -/
structure Work where
  job : Job
  manipulator : Manipulator
  run : RunId

/-- The turn of a node, and the steps of the walk that come after it. -/
structure Visit where
  work : Work
  node : Node
  rest : List WalkStep

def Visit.task (v : Visit) (turn : Turn) : Task :=
  .walking v.work.run v.node turn v.rest v.work.job v.work.manipulator

def Task.job : Task → Job
  | .parsing _ job _ => job
  | .walking _ _ _ _ job _ => job

def Task.manipulator : Task → Manipulator
  | .parsing _ _ m => m
  | .walking _ _ _ _ _ m => m

/-- Who waits for a job to be finished or put off. -/
inductive Caller where
  /-- Someone outside of any turn, who has started the job or is polling it. -/
  | outside (polling : Bool) (name : String)
  /-- The turn in which the job was started. -/
  | turn (name : String) (visit : Visit) (next : Started → Turn)

/-- What is being done. -/
inductive Focus where
  | idle
  /-- A walk is between turns. -/
  | walk (work : Work) (steps : List WalkStep)
  /-- A turn is being carried out. -/
  | turn (visit : Visit) (turn : Turn)
  /-- A job comes back to its caller; it has a run, unless the run could not be started. -/
  | back (job : Job) (manipulator : Manipulator) (run : Option RunId) (p : Progression)

/-- Something that happens to the turn of a node. -/
inductive Mark where
  /-- The manipulator is called. -/
  | started (node : Node)
  /-- The turn is put off. -/
  | deferred (node : Node)
  | completed (node : Node) (result : Except TransformError Unit)

def Mark.node : Mark → Node
  | .started node => node
  | .deferred node => node
  | .completed node _ => node

/-- How things stand at a moment. Callers are listed from the innermost, marks from the last. -/
structure Moment where
  focus : Focus
  callers : List Caller
  session : Session
  marks : List Mark

def Progression.started : Progression → Started
  | .finished result => .finished result
  | .pending _ => .deferred

/-- Keeps a job that is put off under a name. -/
def Session.keep (s : Session) (name : String) : Progression → Session
  | .finished _ => s
  | .pending t => s.putTask name t

def Session.launched (turnOf : RunId → Transcript → Node → Session → TurnEnd × Session) (job : Job)
    (m : Manipulator) (s : Session) : Progression × Session :=
  match job.parsePolls with
  | some polls => (.pending (.parsing polls job m), s)
  | none => s.begin turnOf job m

theorem Session.launch_eq (turnOf : RunId → Transcript → Node → Session → TurnEnd × Session) (job : Job)
    (m : Manipulator) (s : Session) :
    s.launch turnOf job m =
      ((s.launched turnOf job m).1.started,
        (s.launched turnOf job m).2.keep job.name (s.launched turnOf job m).1) := by
  rw [launch, launched]
  cases job.parsePolls with
  | some polls => rfl
  | none =>
    simp only
    generalize s.begin turnOf job m = begun
    obtain ⟨p, s'⟩ := begun
    cases p <;> rfl

def Session.startUp (s : Session) (job : Job) (m : Manipulator) : Progression × Session :=
  s.launched (fun run seen node => (m seen node).exec false (some run)) job m

theorem Session.start_eq (s : Session) (job : Job) (m : Manipulator) :
    s.start job m =
      ((s.startUp job m).1.started, (s.startUp job m).2.keep job.name (s.startUp job m).1) :=
  s.launch_eq _ job m

/-- A session with bindings of some adapters, in which nothing has happened yet. -/
def Session.ofAdapters (adapters : Array Adapter) : Session :=
  { bindings := adapters.map fun a => { adapter := a } }

/-- What is left of a turn that cannot go on now. -/
def Turn.putOff? (polled : Bool) : Turn → Option Turn
  | .defer next => if polled then none else some next
  | .wait (n + 1) next => some (.wait n next)
  | .never => some .never
  | _ => none

namespace Moment

def rest (s : Session) (ms : List Mark) : Moment :=
  ⟨.idle, [], s, ms⟩

/-- Is the job at hand being polled? If not, it was just started. -/
def polled : List Caller → Bool
  | .outside polling _ :: _ => polling
  | _ => false

def settle (w : Work) (walked : Except TransformError Unit) (cs : List Caller) (s : Session)
    (ms : List Mark) : Moment :=
  let ended := s.finish w.run w.job walked
  ⟨.back w.job w.manipulator (some w.run) (.finished ended.1), cs, ended.2, ms⟩

def begin (job : Job) (m : Manipulator) (cs : List Caller) (s : Session) (ms : List Mark) : Moment :=
  match job.parsed with
  | .error e => ⟨.back job m none (.finished (.error (.parse e))), cs, s, ms⟩
  | .ok root =>
    match Arena.register job.code.toList root with
    | .error e => ⟨.back job m none (.finished (.error e)), cs, s, ms⟩
    | .ok arena =>
      let run := s.runs.size
      let key := if job.sharedTree then .ofBinding job.binding else .ofRun run
      ⟨.walk ⟨job, m, run⟩ (root.plan run key), cs, (s.addRun job arena).2, ms⟩

def launch (job : Job) (m : Manipulator) (cs : List Caller) (s : Session) (ms : List Mark) : Moment :=
  match job.parsePolls with
  | some polls => ⟨.back job m none (.pending (.parsing polls job m)), cs, s, ms⟩
  | none => begin job m cs s ms

def resume (cs : List Caller) (s : Session) (ms : List Mark) : Task → Moment
  | .parsing (n + 1) job m => ⟨.back job m none (.pending (.parsing n job m)), cs, s, ms⟩
  | .parsing 0 job m => begin job m cs s ms
  | .walking run node turn rest job m => ⟨.turn ⟨⟨job, m, run⟩, node, rest⟩ turn, cs, s, ms⟩

inductive Step : Moment → Moment → Prop
  | enter {w n rest cs s ms} :
    Step ⟨.walk w (.enter n :: rest), cs, s, ms⟩
      ⟨.walk w rest, cs, s.modifyRun n.run (·.advance n.id .traversingChildren), ms⟩
  | visit {w n rest cs s ms} :
    Step ⟨.walk w (.visit n :: rest), cs, s, ms⟩
      ⟨.turn ⟨w, n, rest⟩ (w.manipulator (s.transcript n.run) n), cs,
        s.modifyRun n.run fun r => (r.advance n.id .running).record (.visited n), .started n :: ms⟩
  | finish {w cs s ms} : Step ⟨.walk w [], cs, s, ms⟩ (settle w (.ok ()) cs s ms)
  | call {v q next cs s ms} :
    Step ⟨.turn v (.call q next), cs, s, ms⟩
      ⟨.turn v (next (s.respond (some v.work.run) q).1), cs, (s.respond (some v.work.run) q).2, ms⟩
  | start {v job m next cs s ms} :
    Step ⟨.turn v (.start job m next), cs, s, ms⟩ (launch job m (.turn job.name v next :: cs) s ms)
  | goOn {v next cs s ms} (h : polled cs = true) :
    Step ⟨.turn v (.defer next), cs, s, ms⟩ ⟨.turn v next, cs, s, .deferred v.node :: ms⟩
  | ready {v next cs s ms} : Step ⟨.turn v (.wait 0 next), cs, s, ms⟩ ⟨.turn v next, cs, s, ms⟩
  | suspend {v turn left cs s ms} (h : turn.putOff? (polled cs) = some left) :
    Step ⟨.turn v turn, cs, s, ms⟩
      ⟨.back v.work.job v.work.manipulator (some v.work.run) (.pending (v.task left)), cs, s,
        .deferred v.node :: ms⟩
  | succeed {v cs s ms} :
    Step ⟨.turn v (.done (.ok ())), cs, s, ms⟩
      ⟨.walk v.work v.rest, cs, s.endTurn v.node, .completed v.node (.ok ()) :: ms⟩
  | fail {v e cs s ms} :
    Step ⟨.turn v (.done (.error e)), cs, s, ms⟩
      (settle v.work (.error e) cs (s.endTurn v.node) (.completed v.node (.error e) :: ms))
  | answer {job m run p name v next cs s ms} :
    Step ⟨.back job m run p, .turn name v next :: cs, s, ms⟩
      ⟨.turn v (next p.started), cs, s.keep name p, ms⟩
  | leave {job m run p polling name s ms} :
    Step ⟨.back job m run p, [.outside polling name], s, ms⟩ (.rest (s.keep name p) ms)
  | again {job m run t name s ms} :
    Step ⟨.back job m run (.pending t), [.outside true name], s, ms⟩
      (resume [.outside true name] s ms t)
  | launch {job m s ms} : Step (.rest s ms) (launch job m [.outside false job.name] s ms)
  | poll {name t s s' ms} (h : s.takeTask name = some (t, s')) :
    Step (.rest s ms) ⟨.back t.job t.manipulator t.run? (.pending t), [.outside true name], s', ms⟩
  | drop {name s ms} : Step (.rest s ms) (.rest (s.drop name).2 ms)
  | act {q s ms} : Step (.rest s ms) (.rest (s.perform q).2 ms)

/-- From a moment to a later one, or to itself. -/
abbrev Leads : Moment → Moment → Prop :=
  Relation.ReflTransGen Step

/-- The moments of all histories of a session that begins with some adapters. -/
def Reachable (adapters : Array Adapter) : Moment → Prop :=
  Leads (.rest (.ofAdapters adapters) [])

end Moment

/-! ## Calls, moment by moment -/

def Visit.after (v : Visit) : TurnEnd → Focus
  | .finished result => .turn v (.done result)
  | .suspended left =>
    .back v.work.job v.work.manipulator (some v.work.run) (.pending (v.task left))

open Moment

/-- The moments of the turn lead to its end, whichever turn it is and whoever waits for it. -/
def Turn.Leads (turn : Turn) : Prop :=
  ∀ (v : Visit) cs s ms, ∃ ms', Moment.Leads ⟨.turn v turn, cs, s, ms⟩
    ⟨v.after (turn.exec (polled cs) (some v.work.run) s).1, cs,
      (turn.exec (polled cs) (some v.work.run) s).2, ms'⟩

section

variable (job : Job) {m : Manipulator}

theorem walkOn_leads (hm : ∀ seen node, (m seen node).Leads) (run : RunId) (steps : List WalkStep)
    (cs : List Caller) (s : Session) (ms : List Mark) :
    ∃ ms', Moment.Leads ⟨.walk ⟨job, m, run⟩ steps, cs, s, ms⟩
      ⟨.back job m (some run)
        (s.walkOn (fun seen node => (m seen node).exec (polled cs) (some run)) run job m steps).1, cs,
        (s.walkOn (fun seen node => (m seen node).exec (polled cs) (some run)) run job m steps).2, ms'⟩ := by
  induction steps generalizing s ms with
  | nil => exact ⟨ms, .single .finish⟩
  | cons step rest ih =>
    cases step with
    | enter n =>
      obtain ⟨ms', h⟩ := ih (s.modifyRun n.run (·.advance n.id .traversingChildren)) ms
      exact ⟨ms', .head .enter h⟩
    | visit n =>
      obtain ⟨ms₁, h₁⟩ := hm (s.transcript n.run) n ⟨⟨job, m, run⟩, n, rest⟩ cs
        (s.modifyRun n.run fun r => (r.advance n.id .running).record (.visited n)) (.started n :: ms)
      simp only [Session.walkOn, Session.walk]
      generalize (m (s.transcript n.run) n).exec (polled cs) (some run) _ = ended at h₁ ⊢
      obtain ⟨ended, s₁⟩ := ended
      cases ended with
      | suspended left => exact ⟨ms₁, .head .visit h₁⟩
      | finished result =>
        cases result with
        | error e => exact ⟨.completed n (.error e) :: ms₁, .head .visit (.tail h₁ .fail)⟩
        | ok u =>
          obtain ⟨ms', h⟩ := ih (s₁.endTurn n) (.completed n (.ok ()) :: ms₁)
          exact ⟨ms', .head .visit (h₁.trans (.head .succeed h))⟩

theorem begin_leads (hm : ∀ seen node, (m seen node).Leads) (cs : List Caller) (s : Session)
    (ms : List Mark) :
    ∃ run ms', Moment.Leads (begin job m cs s ms)
      ⟨.back job m run
        (s.begin (fun r seen node => (m seen node).exec (polled cs) (some r)) job m).1, cs,
        (s.begin (fun r seen node => (m seen node).exec (polled cs) (some r)) job m).2, ms'⟩ := by
  cases hparsed : job.parsed with
  | error e =>
    simp only [Moment.begin, Session.begin, hparsed]
    exact ⟨none, ms, .refl⟩
  | ok root =>
    cases hreg : Arena.register job.code.toList root with
    | error e =>
      simp only [Moment.begin, Session.begin, hparsed, hreg]
      exact ⟨none, ms, .refl⟩
    | ok arena =>
      simp only [Moment.begin, Session.begin, hparsed, hreg]
      obtain ⟨ms', h⟩ := walkOn_leads job hm s.runs.size _ cs (s.addRun job arena).2 ms
      exact ⟨some s.runs.size, ms', h⟩

theorem launch_leads (hm : ∀ seen node, (m seen node).Leads) (cs : List Caller)
    (hcs : polled cs = false) (s : Session) (ms : List Mark) :
    ∃ run ms', Moment.Leads (launch job m cs s ms)
      ⟨.back job m run
        (s.launched (fun r seen node => (m seen node).exec false (some r)) job m).1, cs,
        (s.launched (fun r seen node => (m seen node).exec false (some r)) job m).2, ms'⟩ := by
  rw [Moment.launch, Session.launched]
  cases job.parsePolls with
  | some polls => exact ⟨none, ms, .refl⟩
  | none =>
    obtain ⟨run, ms', h⟩ := begin_leads job hm cs s ms
    rw [hcs] at h
    exact ⟨run, ms', h⟩

end

/-- **The moments of a turn** lead to where the turn ends or has to wait. -/
theorem Turn.exec_leads (turn : Turn) : turn.Leads := by
  induction turn with
  | done result => exact fun v cs s ms => ⟨ms, .refl⟩
  | call q next ih =>
    intro v cs s ms
    obtain ⟨ms', h⟩ := ih (s.respond (some v.work.run) q).1 v cs (s.respond (some v.work.run) q).2 ms
    exact ⟨ms', .head .call h⟩
  | start job m next ihm ih =>
    intro v cs s ms
    obtain ⟨run, ms₁, h₁⟩ := launch_leads job ihm (.turn job.name v next :: cs) rfl s ms
    rw [Turn.exec, Session.launch_eq]
    generalize s.launched (fun r seen node => (m seen node).exec false (some r)) job m = launched at h₁ ⊢
    obtain ⟨p, s₁⟩ := launched
    obtain ⟨ms', h⟩ := ih p.started v cs (s₁.keep job.name p) ms₁
    exact ⟨ms', .head .start (h₁.trans (.head .answer h))⟩
  | defer next ih =>
    intro v cs s ms
    rw [Turn.exec]
    cases hp : polled cs with
    | true =>
      obtain ⟨ms', h⟩ := ih v cs s (.deferred v.node :: ms)
      rw [hp] at h
      exact ⟨ms', .head (.goOn hp) h⟩
    | false => exact ⟨_, .single (.suspend (by rw [hp]; rfl))⟩
  | wait polls next ih =>
    intro v cs s ms
    cases polls with
    | zero =>
      obtain ⟨ms', h⟩ := ih v cs s ms
      exact ⟨ms', .head .ready h⟩
    | succ n => exact ⟨_, .single (.suspend rfl)⟩
  | never => exact fun v cs s ms => ⟨_, .single (.suspend rfl)⟩

theorem start_leads (job : Job) (m : Manipulator) (s : Session) (ms : List Mark) :
    ∃ run ms', Moment.Leads (.rest s ms)
      ⟨.back job m run (s.startUp job m).1, [.outside false job.name], (s.startUp job m).2, ms'⟩ := by
  obtain ⟨run, ms', h⟩ := launch_leads job (fun seen node => (m seen node).exec_leads)
    [.outside false job.name] rfl s ms
  exact ⟨run, ms', .head .launch h⟩

theorem resume_leads (name : String) (t : Task) (s : Session) (ms : List Mark) :
    ∃ run ms', Moment.Leads (resume [.outside true name] s ms t)
      ⟨.back t.job t.manipulator run (s.pollTask t).1, [.outside true name], (s.pollTask t).2, ms'⟩ := by
  cases t with
  | parsing polls job m =>
    cases polls with
    | zero => exact begin_leads job (fun seen node => (m seen node).exec_leads) [.outside true name] s ms
    | succ n => exact ⟨none, ms, .refl⟩
  | walking run node turn rest job m =>
    obtain ⟨ms₁, h₁⟩ := turn.exec_leads ⟨⟨job, m, run⟩, node, rest⟩ [.outside true name] s ms
    rw [Session.pollTask]
    change Moment.Leads _ ⟨Visit.after _ (turn.exec true (some run) s).1, _,
      (turn.exec true (some run) s).2, _⟩ at h₁
    generalize turn.exec true (some run) s = ended at h₁ ⊢
    obtain ⟨ended, s₁⟩ := ended
    cases ended with
    | suspended left => exact ⟨some run, ms₁, h₁⟩
    | finished result =>
      cases result with
      | error e => exact ⟨some run, .completed node (.error e) :: ms₁, .tail h₁ .fail⟩
      | ok u =>
        obtain ⟨ms', h⟩ := walkOn_leads job (fun seen node => (m seen node).exec_leads) run rest
          [.outside true name] (s₁.endTurn node) (.completed node (.ok ()) :: ms₁)
        exact ⟨some run, ms', h₁.trans (.head .succeed h)⟩

namespace Session

theorem pending_of_walkOn {turnOf : Transcript → Node → Session → TurnEnd × Session} {run : RunId}
    {job : Job} {m : Manipulator} {steps : List WalkStep} {s : Session} {t : Task}
    (h : (s.walkOn turnOf run job m steps).1 = .pending t) :
    ∃ node turn rest, t = .walking run node turn rest job m := by
  rw [walkOn] at h
  split at h
  · cases h
    exact ⟨_, _, _, rfl⟩
  · cases h

theorem pending_of_begin {turnOf : RunId → Transcript → Node → Session → TurnEnd × Session} {job : Job}
    {m : Manipulator} {s : Session} {t : Task} (h : (s.begin turnOf job m).1 = .pending t) :
    ∃ node turn rest, t = .walking s.runs.size node turn rest job m := by
  rw [Session.begin] at h
  split at h
  · cases h
  · split at h
    · cases h
    · exact pending_of_walkOn h

theorem pending_of_pollTask {s : Session} {t t' : Task} (h : (s.pollTask t).1 = .pending t') :
    t'.job = t.job ∧ t'.manipulator = t.manipulator ∧
      (t'.run? = none → t.run? = none ∧ (s.pollTask t).2 = s) := by
  cases t with
  | parsing polls job m =>
    cases polls with
    | succ n =>
      cases h
      exact ⟨rfl, rfl, fun _ => ⟨rfl, rfl⟩⟩
    | zero =>
      obtain ⟨node, turn, rest, rfl⟩ := pending_of_begin h
      exact ⟨rfl, rfl, fun hnone => (nomatch hnone)⟩
  | walking run node turn rest job m =>
    have hwalking : ∃ node turn rest, t' = .walking run node turn rest job m := by
      rw [pollTask] at h
      split at h
      · cases h
        exact ⟨_, _, _, rfl⟩
      · cases h
      · exact pending_of_walkOn h
    obtain ⟨node, turn, rest, rfl⟩ := hwalking
    exact ⟨rfl, rfl, fun hnone => (nomatch hnone)⟩

theorem transform_cases {s s' : Session} {job : Job} {m : Manipulator} {polls : Nat}
    {result : Except TransformError Report} (h : s.transform job m polls = (some result, s')) :
    s.startUp job m = (.finished result, s') ∨
      ∃ t s₁ s₂ k, s.startUp job m = (.pending t, s₁) ∧
        (s₁.putTask job.name t).takeTask job.name = some (t, s₂) ∧
        s₂.runs = (s₁.putTask job.name t).runs ∧ s₂.pollTimes t polls = (.finished result, k, s') := by
  have hstart := s.start_eq job m
  rcases hup : s.startUp job m with ⟨p, s₁⟩
  rw [hup] at hstart
  cases p with
  | finished r =>
    simp only [transform, hstart, Progression.started] at h
    cases h
    exact .inl rfl
  | pending t =>
    obtain ⟨s₂, htake, hruns⟩ := s₁.takeTask_putTask job.name t
    simp only [transform, hstart, Progression.started, keep, poll, htake] at h
    rcases hpolls : s₂.pollTimes t polls with ⟨p, k, s₃⟩
    simp only [hpolls] at h
    cases p with
    | pending t' => cases h
    | finished r =>
      cases h
      exact .inr ⟨t, s₁, s₂, k, rfl, htake, hruns, hpolls⟩

end Session

theorem pollTimes_leads (name : String) (times : Nat) (t : Task) (run : Option RunId) (s : Session)
    (ms : List Mark) :
    ∃ run' ms',
      Moment.Leads ⟨.back t.job t.manipulator run (.pending t), [.outside true name], s, ms⟩
        ⟨.back t.job t.manipulator run' (s.pollTimes t times).1, [.outside true name],
          (s.pollTimes t times).2.2, ms'⟩ := by
  induction times generalizing t run s ms with
  | zero => exact ⟨run, ms, .refl⟩
  | succ n ih =>
    obtain ⟨run₁, ms₁, h₁⟩ := resume_leads name t s ms
    have hjob := fun t' => @Session.pending_of_pollTask s t t'
    rw [Session.pollTimes]
    generalize s.pollTask t = polled at h₁ hjob ⊢
    obtain ⟨p, s₁⟩ := polled
    cases p with
    | finished result => exact ⟨run₁, ms₁, .head .again h₁⟩
    | pending t' =>
      obtain ⟨hjob, hm, -⟩ := hjob t' rfl
      obtain ⟨run', ms', h⟩ := ih t' run₁ s₁ ms₁
      rw [hjob, hm] at h
      exact ⟨run', ms', .head .again (h₁.trans h)⟩

theorem poll_leads {s s' : Session} {name : String} {t : Task} (h : s.takeTask name = some (t, s'))
    (times : Nat) (ms : List Mark) :
    ∃ run ms',
      Moment.Leads (.rest s ms) ⟨.back t.job t.manipulator run (s'.pollTimes t times).1, [.outside true name],
        (s'.pollTimes t times).2.2, ms'⟩ ∧
      (s.poll name times).2 = (s'.pollTimes t times).2.2.keep name (s'.pollTimes t times).1 := by
  obtain ⟨run, ms', hpolls⟩ := pollTimes_leads name times t t.run? s' ms
  refine ⟨run, ms', .head (.poll h) hpolls, ?_⟩
  rw [Session.poll, h]
  simp only
  generalize s'.pollTimes t times = polled
  obtain ⟨p, k, s₁⟩ := polled
  cases p <;> rfl

/-! ## Agreement -/

/-- What a session, a walk or a turn comes to is come to moment by moment. -/
structure Moment.Agrees (c : Moment) : Prop where
  start : ∀ s ms, c = .rest s ms → ∀ job m, ∃ ms', Leads c (.rest (s.start job m).2 ms')
  poll : ∀ s ms, c = .rest s ms → ∀ name times, ∃ ms', Leads c (.rest (s.poll name times).2 ms')
  walk : ∀ w steps cs s ms, c = ⟨.walk w steps, cs, s, ms⟩ →
    let turnOf seen node := (w.manipulator seen node).exec (polled cs) (some w.run)
    ∃ ms', Leads c ⟨.back w.job w.manipulator (some w.run)
        (s.walkOn turnOf w.run w.job w.manipulator steps).1, cs,
      (s.walkOn turnOf w.run w.job w.manipulator steps).2, ms'⟩
  turn : ∀ v turn cs s ms, c = ⟨.turn v turn, cs, s, ms⟩ →
    ∃ ms', Leads c ⟨v.after (turn.exec (polled cs) (some v.work.run) s).1, cs,
      (turn.exec (polled cs) (some v.work.run) s).2, ms'⟩

theorem Moment.agrees (c : Moment) : c.Agrees where
  start s ms hc job m := by
    obtain ⟨run, ms', h⟩ := start_leads job m s ms
    rw [hc, s.start_eq]
    exact ⟨ms', h.tail .leave⟩
  poll s ms hc name times := by
    rw [hc]
    cases htake : s.takeTask name with
    | none =>
      rw [Session.poll, htake]
      exact ⟨ms, .refl⟩
    | some taken =>
      obtain ⟨t, s'⟩ := taken
      obtain ⟨run, ms', h, hpoll⟩ := poll_leads htake times ms
      rw [hpoll]
      exact ⟨ms', h.tail .leave⟩
  walk w steps cs s ms hc := by
    rw [hc]
    exact walkOn_leads w.job (fun seen node => (w.manipulator seen node).exec_leads) w.run steps cs s ms
  turn v turn cs s ms hc := by
    rw [hc]
    exact turn.exec_leads v cs s ms

end TreeEdit
