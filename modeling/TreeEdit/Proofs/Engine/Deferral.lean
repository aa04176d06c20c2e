import TreeEdit.Proofs.Engine.Posts

/-!
# Jobs that are put off and jobs that are not

It makes no difference to a job whether its parse and its turns are there at once or are put off, as long as
its turns keep to the run and nothing else acts on the run meanwhile: the run sees the same, and comes to the same
result, as when nothing is put off (`deferred_eq_immediate`).

The job at hand is compared with the one in which nothing is put off, whose session may be another. The runs of
the two are equal at all times (`Alike`), so what is asked of them is answered alike (`Alike.respond`). What the
other job comes to is fixed when it starts; at each point where the job at hand has to wait, the rest of it, done
at once, comes to the same (`Follows`).
-/

namespace TreeEdit

/-! ## Turns that keep to their run -/

def Actor.KeepsTo (run : RunId) : Actor → Prop
  | .helpers bound => bound.run = run
  | .binding _ => True

/-- The request is about the text, an ancestor or the children of a node of the run. -/
def Request.KeepsTo (run : RunId) : Request → Prop
  | .source actor n => actor.KeepsTo run ∧ n.run = run
  | .override actor n _ => actor.KeepsTo run ∧ n.run = run
  | .ancestor actor n _ => actor.KeepsTo run ∧ n.run = run
  | .children actor n => actor.KeepsTo run ∧ n.run = run
  | _ => False

def Request.given : (q : Request) → q.Answer → List Node
  | .ancestor .., (answer : Option Node) => answer.toList
  | .children .., (answer : List Node) => answer
  | _, _ => []

def Event.Of (run : RunId) : Event → Prop
  | .visited n => n.run = run
  | .answered q a => q.KeepsTo run ∧ ∀ n ∈ q.given a, n.run = run

/-- The turn makes no requests but about nodes of the run. -/
def Turn.KeepsTo (run : RunId) : Turn → Prop
  | .done _ => True
  | .call q next => q.KeepsTo run ∧ ∀ a, (∀ n ∈ q.given a, n.run = run) → (next a).KeepsTo run
  | .start .. => False
  | .defer next => next.KeepsTo run
  | .wait _ next => next.KeepsTo run
  | .never => True

/-- In a run that has seen nothing but itself, turns keep to the run. -/
def Manipulator.KeepsToRun (m : Manipulator) : Prop :=
  ∀ (seen : Transcript) node, (∀ e ∈ seen, e.Of node.run) → (m seen node).KeepsTo node.run

/-- The turn with nothing put off. -/
def Turn.atOnce : Turn → Turn
  | .done result => .done result
  | .call q next => .call q fun a => (next a).atOnce
  | .start job m next => .start job m fun started => (next started).atOnce
  | .defer next => next.atOnce
  | .wait _ next => next.atOnce
  | .never => .never

def Manipulator.atOnce (m : Manipulator) : Manipulator :=
  fun seen node => (m seen node).atOnce

def Job.atOnce (job : Job) : Job :=
  { job with parsePolls := none }

/-! ## Sessions with the same run -/

def Session.adapter? (s : Session) (b : BindingId) : Option Adapter :=
  (s.bindings[b]?).map (·.adapter)

theorem Session.adapter?_modifyStore (s : Session) (b : BindingId) (f : List RunId → List RunId)
    (b' : BindingId) : (s.modifyStore b f).adapter? b' = s.adapter? b' := by
  rw [adapter?, bindings_modifyStore]
  split
  · rw [Option.map_map]
    rfl
  · rfl

theorem Session.adapter?_ofAdapters (adapters : Array Adapter) (b : BindingId) :
    (ofAdapters adapters).adapter? b = adapters[b]? := by
  rw [adapter?, ofAdapters, Array.getElem?_map, Option.map_map]
  exact Option.map_id'

namespace Run

variable {r : Run} {m : Node}

theorem run_of_ref? {id : Nat} (h : r.ref? id = some m) : m.run = r.id ∧ r.ref? m.id = some m := by
  obtain ⟨e, he, rfl⟩ := Option.map_eq_some_iff.mp h
  exact ⟨rfl, h⟩

theorem ref?_of_ancestor {id levels : Nat} (h : r.ancestor id levels = some m) :
    m.run = r.id ∧ r.ref? m.id = some m := by
  obtain ⟨i, -, hi⟩ := Option.bind_eq_some_iff.mp h
  exact run_of_ref? hi

theorem ref?_of_mem_children {id : Nat} (h : m ∈ r.children id) : m.run = r.id ∧ r.ref? m.id = some m := by
  rw [children] at h
  split at h
  · cases h
  · obtain ⟨i, -, hi⟩ := List.mem_filterMap.mp h
    exact run_of_ref? hi

end Run

/-- A run at work. -/
structure Run.Live (run : RunId) (b : BindingId) (r : Run) : Prop where
  id : r.id = run
  binding : r.binding = b
  phase : r.phase = .inFlight
  held : r.held = true

/-- Two sessions have the same run, which has seen nothing but what is expected, and the adapter of its binding is the
same. -/
structure Alike (Expected : Event → Prop) (run : RunId) (b : BindingId) (r : Run) (s s₀ : Session) : Prop where
  live : r.Live run b
  left : s.runs[run]? = some r
  right : s₀.runs[run]? = some r
  adapter : s.adapter? b = s₀.adapter? b
  seen : ∀ e ∈ r.transcript, Expected e

/-- The node that a request of a run ends up at. -/
def placeOf (adapter : Option Adapter) : Actor → Node → Nat
  | .helpers bound, n => if adapter.any (·.isNode n.tree) then n.id else bound.id
  | .binding _, n => n.id

theorem Session.resolve_of_live {s : Session} {run : RunId} {b : BindingId} {r : Run}
    (hr : s.runs[run]? = some r) (h : r.Live run b) {actor : Actor} (hactor : actor.KeepsTo run) {n : Node}
    (hn : n.run = run) : s.resolve actor n = .node run (placeOf (s.adapter? b) actor n) := by
  have halive : s.alive run = true := by simp [alive, hr, h.held]
  cases actor with
  | binding b' =>
    rw [resolve, locate, placeOf, hn, origin, hn]
    split
    · rfl
    · simp only [hr, h.phase]
  | helpers bound =>
    have hbound : bound.run = run := hactor
    have hknows : s.recognises run n.tree = (s.adapter? b).any (·.isNode n.tree) := by
      rw [recognises, hr, Option.bind_some, h.binding, adapter?, Option.any_map]
    simp only [resolve, placeOf, hbound, hn, halive, hknows, Bool.not_true, Bool.false_eq_true, if_false, if_true]
    cases (s.adapter? b).any (·.isNode n.tree) <;> rfl

namespace Alike

variable {Expected : Event → Prop} {run : RunId} {b : BindingId} {r : Run} {s s₀ : Session}

theorem modifyRun (h : Alike Expected run b r s s₀) {f : Run → Run} (hf : (f r).Live run b)
    (hseen : ∀ e ∈ (f r).transcript, Expected e) :
    Alike Expected run b (f r) (s.modifyRun run f) (s₀.modifyRun run f) where
  live := hf
  left := by rw [Session.runs_modifyRun, h.left]; rfl
  right := by rw [Session.runs_modifyRun, h.right]; rfl
  adapter := h.adapter
  seen := hseen

theorem place (h : Alike Expected run b r s s₀) {actor : Actor} (hactor : actor.KeepsTo run) {n : Node}
    (hn : n.run = run) : ∃ id, s.resolve actor n = .node run id ∧ s₀.resolve actor n = .node run id := by
  refine ⟨_, Session.resolve_of_live h.left h.live hactor hn, ?_⟩
  rw [h.adapter]
  exact Session.resolve_of_live h.right h.live hactor hn

theorem override (h : Alike Expected run b r s s₀) {actor : Actor} (hactor : actor.KeepsTo run) {n : Node}
    (hn : n.run = run) (text : String) :
    (∃ e, s.override actor n text = .error e ∧ s₀.override actor n text = .error e) ∨
    ∃ r', r'.Live run b ∧ r'.transcript = r.transcript ∧
      s.override actor n text = .ok (s.modifyRun run fun _ => r') ∧
      s₀.override actor n text = .ok (s₀.modifyRun run fun _ => r') := by
  obtain ⟨id, hp, hp₀⟩ := h.place hactor hn
  simp only [Session.override, hp, hp₀, h.left, h.right]
  cases hover : r.override id text with
  | error e => exact .inl ⟨e, rfl, rfl⟩
  | ok r' =>
    refine .inr ⟨r', ?_, ?_, rfl, rfl⟩
    all_goals obtain ⟨-, -, -, -, rfl⟩ := Run.override_eq_ok hover
    · exact ⟨h.live.id, h.live.binding, h.live.phase, h.live.held⟩
    · rfl

theorem perform (h : Alike Expected run b r s s₀) {q : Request} (hq : q.KeepsTo run) :
    (s.perform q).1 = (s₀.perform q).1 ∧ (∀ n ∈ q.given (s.perform q).1, n.run = run) ∧
      ∃ r', Alike Expected run b r' (s.perform q).2 (s₀.perform q).2 := by
  cases q with
  | source actor n =>
    obtain ⟨id, hp, hp₀⟩ := h.place hq.1 hq.2
    have heq : s.source actor n = s₀.source actor n := by
      simp only [Session.source, hp, hp₀, h.left, h.right]
    exact ⟨heq, List.forall_mem_nil _, r, h⟩
  | ancestor actor n levels =>
    obtain ⟨id, hp, hp₀⟩ := h.place hq.1 hq.2
    have heq : s.ancestor actor n levels = s₀.ancestor actor n levels := by
      simp only [Session.ancestor, hp, hp₀, h.left, h.right]
    refine ⟨heq, fun m hm => ?_, r, h⟩
    have hancestor : s.ancestor actor n levels = some m := Option.mem_toList.mp hm
    simp only [Session.ancestor, hp, h.left, Option.bind_some] at hancestor
    rw [(Run.ref?_of_ancestor hancestor).1, h.live.id]
  | children actor n =>
    obtain ⟨id, hp, hp₀⟩ := h.place hq.1 hq.2
    have heq : s.children actor n = s₀.children actor n := by
      simp only [Session.children, hp, hp₀, h.left, h.right]
    refine ⟨heq, fun m hm => ?_, r, h⟩
    have hchild : m ∈ s.children actor n := hm
    simp only [Session.children, hp, h.left] at hchild
    rw [(Run.ref?_of_mem_children hchild).1, h.live.id]
  | override actor n text =>
    rcases h.override hq.1 hq.2 text with ⟨e, hs, hs₀⟩ | ⟨r', hlive, hseen, hs, hs₀⟩
    · simp only [Session.perform, hs, hs₀]
      exact ⟨rfl, List.forall_mem_nil _, r, h⟩
    · simp only [Session.perform, hs, hs₀]
      exact ⟨rfl, List.forall_mem_nil _, r', h.modifyRun (f := fun _ => r') hlive (hseen ▸ h.seen)⟩
  | _ => exact absurd hq id

theorem record (h : Alike Expected run b r s s₀) {e : Event} (he : Expected e) :
    Alike Expected run b (r.record e) (s.modifyRun run (·.record e)) (s₀.modifyRun run (·.record e)) :=
  h.modifyRun (f := (·.record e)) ⟨h.live.id, h.live.binding, h.live.phase, h.live.held⟩
    (List.forall_mem_cons.mpr ⟨he, h.seen⟩)

theorem answered {q : Request} (h : Alike Expected run b r (s.perform q).2 (s₀.perform q).2)
    (hanswer : (s.perform q).1 = (s₀.perform q).1) (he : Expected (.answered q (s.perform q).1)) :
    ∃ r', Alike Expected run b r' (s.respond (some run) q).2 (s₀.respond (some run) q).2 := by
  simp only [Session.respond, ← hanswer]
  exact ⟨_, h.record he⟩

theorem respond (h : Alike (Event.Of run) run b r s s₀) {q : Request} (hq : q.KeepsTo run) :
    (s.respond (some run) q).1 = (s₀.respond (some run) q).1 ∧
      (∀ n ∈ q.given (s.respond (some run) q).1, n.run = run) ∧
      ∃ r', Alike (Event.Of run) run b r' (s.respond (some run) q).2 (s₀.respond (some run) q).2 := by
  obtain ⟨hanswer, hgiven, r', h'⟩ := h.perform hq
  exact ⟨hanswer, hgiven, h'.answered hanswer ⟨hq, hgiven⟩⟩

theorem advance (h : Alike Expected run b r s s₀) (id : Nat) (state : NodeState) :
    Alike Expected run b (r.advance id state) (s.modifyRun run (·.advance id state))
      (s₀.modifyRun run (·.advance id state)) :=
  h.modifyRun (f := (·.advance id state)) ⟨h.live.id, h.live.binding, h.live.phase, h.live.held⟩ h.seen

theorem visit (h : Alike Expected run b r s s₀) {n : Node} (hn : Expected (.visited n)) :
    Alike Expected run b ((r.advance n.id .running).record (.visited n))
      (s.modifyRun run fun r => (r.advance n.id .running).record (.visited n))
      (s₀.modifyRun run fun r => (r.advance n.id .running).record (.visited n)) :=
  h.modifyRun (f := fun r => (r.advance n.id .running).record (.visited n))
    ⟨h.live.id, h.live.binding, h.live.phase, h.live.held⟩ (List.forall_mem_cons.mpr ⟨hn, h.seen⟩)

end Alike

/-! ## Turns and walks -/

/-- What a turn leaves for later, done at once, comes to what the whole turn comes to when done at once. -/
theorem Turn.exec_atOnce {run : RunId} {b : BindingId} {turn : Turn} (hturn : turn.KeepsTo run)
    (polled : Bool) {r : Run} {s s₀ : Session} (h : Alike (Event.Of run) run b r s s₀) :
    ∃ r' s₀', Alike (Event.Of run) run b r' (turn.exec polled (some run) s).2 s₀' ∧
      (turn.exec polled (some run) s).1.rest.KeepsTo run ∧
      turn.atOnce.exec false (some run) s₀ =
        (turn.exec polled (some run) s).1.rest.atOnce.exec false (some run) s₀' := by
  -- the one turn stops where it has to wait, and the other goes on from there
  induction turn generalizing r s s₀ with
  | done result => exact ⟨r, s₀, h, trivial, rfl⟩
  | call q next ih =>
    obtain ⟨hanswer, hgiven, r', h'⟩ := h.respond hturn.1
    rw [Turn.atOnce, Turn.exec, Turn.exec]
    generalize s.respond (some run) q = answered at hanswer hgiven h' ⊢
    generalize s₀.respond (some run) q = answered₀ at hanswer h' ⊢
    obtain ⟨a, s'⟩ := answered
    obtain ⟨a₀, s₀'⟩ := answered₀
    obtain rfl : a = a₀ := hanswer
    exact ih a (hturn.2 a hgiven) h'
  | start job m next ihm ih => exact absurd hturn id
  | defer next ih =>
    rw [Turn.exec]
    split
    · exact ih hturn h
    · exact ⟨r, s₀, h, hturn, rfl⟩
  | wait polls next ih =>
    cases polls with
    | zero => exact ih hturn h
    | succ n => exact ⟨r, s₀, h, hturn, rfl⟩
  | never => exact ⟨r, s₀, h, trivial, rfl⟩

namespace Session

/-- What is done in turns with nothing put off. -/
def immediate (m : Manipulator) (run : RunId) (seen : Transcript) (node : Node) :
    Session → TurnEnd × Session :=
  (Manipulator.atOnce m seen node).exec false (some run)

/-- The walk after a turn, as far as it went. -/
def afterTurn (turnOf : Transcript → Node → Session → TurnEnd × Session) (node : Node)
    (rest : List WalkStep) : TurnEnd × Session → WalkEnd × Session
  | (.suspended turn, s) => (.suspended node turn rest, s)
  | (.finished (.error e), s) => (.finished (.error e), s.endTurn node)
  | (.finished (.ok ()), s) => walk turnOf rest (s.endTurn node)

def afterWalk (run : RunId) (job : Job) (m : Manipulator) : WalkEnd × Session → Progression × Session
  | (.suspended node turn rest, s) => (.pending (.walking run node turn rest job m), s)
  | (.finished walked, s) => (.finished (s.finish run job walked).1, (s.finish run job walked).2)

section

variable (turnOf : Transcript → Node → Session → TurnEnd × Session) (run : RunId) (job : Job)
  (m : Manipulator) (node : Node) (rest : List WalkStep) (s : Session)

theorem walk_visit :
    walk turnOf (.visit node :: rest) s = afterTurn turnOf node rest (turnOf (s.transcript node.run) node
      (s.modifyRun node.run fun r => (r.advance node.id .running).record (.visited node))) := by
  rw [walk]
  generalize turnOf _ _ _ = ended
  obtain ⟨ended, s'⟩ := ended
  cases ended with
  | suspended turn => rfl
  | finished result => cases result <;> rfl

theorem walkOn_eq (steps : List WalkStep) :
    walkOn turnOf run job m steps s = afterWalk run job m (walk turnOf steps s) := by
  rw [walkOn]
  generalize walk turnOf steps s = walked
  obtain ⟨walked, s'⟩ := walked
  cases walked <;> rfl

theorem pollTask_walking (turn : Turn) :
    s.pollTask (.walking run node turn rest job m) =
      afterWalk run job m (afterTurn (fun seen node => (m seen node).exec true (some run)) node rest
        (turn.exec true (some run) s)) := by
  rw [pollTask]
  generalize turn.exec true (some run) s = ended
  obtain ⟨ended, s'⟩ := ended
  cases ended with
  | suspended turn => rfl
  | finished result =>
    cases result with
    | error e => rfl
    | ok u => exact walkOn_eq _ _ _ _ _ _

end

/-! ## Jobs -/

section

variable {m : Manipulator} {run : RunId} {b : BindingId}

/-- How the walk at hand stands to one in which nothing is put off, and which comes to `whole`. -/
def WalkFollows (m : Manipulator) (run : RunId) (b : BindingId) (whole : WalkEnd × Session) :
    WalkEnd → Session → Prop
  | .finished walked, s => ∃ r s₀, Alike (Event.Of run) run b r s s₀ ∧ whole = (.finished walked, s₀)
  | .suspended node turn rest, s =>
    node.run = run ∧ (∀ step ∈ rest, step.node.run = run) ∧ turn.KeepsTo run ∧
      ∃ r s₀, Alike (Event.Of run) run b r s s₀ ∧
        whole = afterTurn (immediate m run) node rest (turn.atOnce.exec false (some run) s₀)

theorem afterTurn_follows {polled : Bool} {rest : List WalkStep} {node : Node} (hnode : node.run = run)
    (hrest : ∀ step ∈ rest, step.node.run = run)
    (ih : ∀ {r s s₀}, Alike (Event.Of run) run b r s s₀ →
      WalkFollows m run b (walk (immediate m run) rest s₀)
        (walk (fun seen node => (m seen node).exec polled (some run)) rest s).1
        (walk (fun seen node => (m seen node).exec polled (some run)) rest s).2)
    {turn : Turn} (hturn : turn.KeepsTo run) {r : Run} {s s₀ : Session} (h : Alike (Event.Of run) run b r s s₀) :
    WalkFollows m run b (afterTurn (immediate m run) node rest (turn.atOnce.exec false (some run) s₀))
      (afterTurn (fun seen node => (m seen node).exec polled (some run)) node rest
        (turn.exec polled (some run) s)).1
      (afterTurn (fun seen node => (m seen node).exec polled (some run)) node rest
        (turn.exec polled (some run) s)).2 := by
  obtain ⟨r', s₀', h', hleft, heq⟩ := Turn.exec_atOnce hturn polled h
  rw [heq]
  generalize turn.exec polled (some run) s = ended at h' hleft
  obtain ⟨ended, s'⟩ := ended
  cases ended with
  | suspended left => exact ⟨hnode, hrest, hleft, r', s₀', h', rfl⟩
  | finished result =>
    have hend : Alike (Event.Of run) run b (r'.advance node.id .handled) (s'.endTurn node) (s₀'.endTurn node) := by
      rw [endTurn, endTurn, hnode]
      exact h'.advance node.id .handled
    cases result with
    | error e => exact ⟨_, _, hend, rfl⟩
    | ok u => exact ih hend

theorem walk_follows (hm : Manipulator.KeepsToRun m) (polled : Bool) {steps : List WalkStep}
    (hsteps : ∀ step ∈ steps, step.node.run = run) {r : Run} {s s₀ : Session} (h : Alike (Event.Of run) run b r s s₀) :
    WalkFollows m run b (walk (immediate m run) steps s₀)
      (walk (fun seen node => (m seen node).exec polled (some run)) steps s).1
      (walk (fun seen node => (m seen node).exec polled (some run)) steps s).2 := by
  -- after each step the runs are equal again, so the manipulator gives the same turn to the next node
  induction steps generalizing r s s₀ with
  | nil => exact ⟨r, s₀, h, rfl⟩
  | cons step rest ih =>
    have hrest : ∀ step ∈ rest, step.node.run = run := fun d hd => hsteps d (List.mem_cons_of_mem _ hd)
    cases step with
    | enter node =>
      obtain rfl : node.run = run := hsteps (.enter node) List.mem_cons_self
      exact ih hrest (h.advance node.id .traversingChildren)
    | visit node =>
      obtain rfl : node.run = run := hsteps (.visit node) List.mem_cons_self
      rw [walk_visit, walk_visit, transcript_of_runs h.left, transcript_of_runs h.right]
      exact afterTurn_follows rfl hrest (ih hrest) (hm r.transcript node h.seen) (h.visit rfl)

end

/-- How a job at hand stands to one in which nothing is put off, and which comes to `whole`. -/
def Follows (job : Job) (m : Manipulator) (run : RunId) (whole : Progression × Session) :
    Progression → Session → Prop
  | .finished result, s => ∃ s₀, whole = (.finished result, s₀) ∧ s₀.transcript run = s.transcript run
  | .pending (.parsing _ job' m'), s =>
    job' = job ∧ m' = m ∧ ∃ s₀ : Session, s₀.runs.size = run ∧
      s.adapter? job.binding = s₀.adapter? job.binding ∧
      whole = s₀.begin (fun run => immediate m run) job.atOnce (Manipulator.atOnce m)
  | .pending (.walking run' node turn rest job' m'), s =>
    run' = run ∧ job' = job ∧ m' = m ∧ ∃ walked, WalkFollows m run job.binding walked
      (.suspended node turn rest) s ∧ whole = afterWalk run job.atOnce (Manipulator.atOnce m) walked

section

variable {job : Job} {m : Manipulator} {run : RunId} {whole : Progression × Session}

theorem afterWalk_follows {walked : WalkEnd × Session} {ended : WalkEnd × Session}
    (h : WalkFollows m run job.binding walked ended.1 ended.2) :
    Follows job m run (afterWalk run job.atOnce (Manipulator.atOnce m) walked) (afterWalk run job m ended).1
      (afterWalk run job m ended).2 := by
  obtain ⟨ended, s⟩ := ended
  cases ended with
  | suspended node turn rest => exact ⟨rfl, rfl, rfl, walked, h, rfl⟩
  | finished result =>
    obtain ⟨r, s₀, halike, rfl⟩ := h
    obtain ⟨hresult, hr⟩ := finish_of_run halike.left job result
    obtain ⟨hresult₀, hr₀⟩ := finish_of_run halike.right job.atOnce result
    have hsame : (s₀.finish run job.atOnce result).1 = (s.finish run job result).1 :=
      hresult₀.trans hresult.symm
    refine ⟨(s₀.finish run job.atOnce result).2, ?_, ?_⟩
    · rw [← hsame]
      rfl
    · exact (transcript_of_runs hr₀).trans (transcript_of_runs hr).symm

theorem addRun_alike {Expected : Event → Prop} {s s₀ : Session} (hsize : s.runs.size = run)
    (hsize₀ : s₀.runs.size = run) (hadapter : s.adapter? job.binding = s₀.adapter? job.binding) (arena : Arena) :
    ∃ r, Alike Expected run job.binding r (s.addRun job arena).2 (s₀.addRun job.atOnce arena).2 := by
  subst hsize
  refine ⟨_, ?live, Array.getElem?_push_size, ?right, ?adapter, List.forall_mem_nil _⟩
  case live => exact ⟨rfl, rfl, rfl, rfl⟩
  case right =>
    rw [← hsize₀]
    exact Array.getElem?_push_size
  case adapter =>
    rw [addRun, addRun, adapter?_modifyStore, adapter?_modifyStore]
    exact hadapter

theorem begin_follows (hm : Manipulator.KeepsToRun m) (polled : Bool) {s s₀ : Session}
    (hsize : s.runs.size = run) (hsize₀ : s₀.runs.size = run)
    (hadapter : s.adapter? job.binding = s₀.adapter? job.binding) :
    Follows job m run (s₀.begin (fun run => immediate m run) job.atOnce (Manipulator.atOnce m))
      (s.begin (fun run seen node => (m seen node).exec polled (some run)) job m).1
      (s.begin (fun run seen node => (m seen node).exec polled (some run)) job m).2 := by
  -- as long as there is no run, there is nothing it has seen
  have hnone : s₀.transcript run = s.transcript run := by
    simp [transcript, ← hsize₀, hsize]
  cases hparsed : job.parsed with
  | error e =>
    have hparsed₀ : job.atOnce.parsed = .error e := hparsed
    simp only [begin, hparsed, hparsed₀]
    exact ⟨s₀, rfl, hnone⟩
  | ok root =>
    have hparsed₀ : job.atOnce.parsed = .ok root := hparsed
    cases hreg : Arena.register job.code.toList root with
    | error e =>
      have hreg₀ : Arena.register job.atOnce.code.toList root = .error e := hreg
      simp only [begin, hparsed, hparsed₀, hreg, hreg₀]
      exact ⟨s₀, rfl, hnone⟩
    | ok arena =>
      have hreg₀ : Arena.register job.atOnce.code.toList root = .ok arena := hreg
      obtain ⟨r, halike⟩ := addRun_alike hsize hsize₀ hadapter arena
      have hrun : (s.addRun job arena).1 = run := hsize
      have hrun₀ : (s₀.addRun job.atOnce arena).1 = run := hsize₀
      simp only [begin, hparsed, hparsed₀, hreg, hreg₀, walkOn_eq, hrun, hrun₀]
      exact afterWalk_follows (walk_follows hm polled (fun step => Tree.run_of_mem_plan) halike)

/-! ## Polls -/

/-- Between two polls of a job anything may happen in its session, as long as nothing acts on its run. When its
parse is there, its run gets the number `run`. -/
def Meanwhile (run : RunId) (t : Task) (s s' : Session) : Prop :=
  s'.adapter? t.job.binding = s.adapter? t.job.binding ∧
  match t with
  | .parsing 0 .. => s'.runs.size = run
  | .parsing (_ + 1) .. => True
  | .walking run' .. => s'.runs[run']? = s.runs[run']?

/-- A job that came so far is polled until it is finished. -/
inductive Resolves (run : RunId) :
    Progression → Session → Except TransformError Report → Session → Prop
  | finished {result s} : Resolves run (.finished result) s result s
  | poll {t s s' result s''} (h : Meanwhile run t s s')
    (hnext : Resolves run (s'.pollTask t).1 (s'.pollTask t).2 result s'') :
    Resolves run (.pending t) s result s''

theorem pollTask_follows (hm : Manipulator.KeepsToRun m) {t : Task} {s s' : Session}
    (h : Follows job m run whole (.pending t) s) (hmeanwhile : Meanwhile run t s s') :
    Follows job m run whole (s'.pollTask t).1 (s'.pollTask t).2 := by
  obtain ⟨hadapter, hrun⟩ := hmeanwhile
  cases t with
  | parsing polls job' m' =>
    obtain ⟨rfl, rfl, s₀, hsize₀, hadapter₀, rfl⟩ := h
    cases polls with
    | zero => exact begin_follows hm true hrun hsize₀ (hadapter.trans hadapter₀)
    | succ n => exact ⟨rfl, rfl, s₀, hsize₀, hadapter.trans hadapter₀, rfl⟩
  | walking run' node turn rest job' m' =>
    obtain ⟨rfl, rfl, rfl, walked, ⟨hnode, hrest, hturn, r, s₀, halike, rfl⟩, rfl⟩ := h
    have halike' : Alike (Event.Of run') run' job'.binding r s' s₀ :=
      ⟨halike.live, hrun.trans halike.left, halike.right, hadapter.trans halike.adapter, halike.seen⟩
    rw [pollTask_walking]
    exact afterWalk_follows (afterTurn_follows hnode hrest (walk_follows hm true hrest) hturn halike')

theorem resolves_follows (hm : Manipulator.KeepsToRun m) {p : Progression} {s s' : Session}
    {result : Except TransformError Report} (hresolves : Resolves run p s result s')
    (h : Follows job m run whole p s) :
    ∃ s₀, whole = (.finished result, s₀) ∧ s₀.transcript run = s'.transcript run := by
  induction hresolves with
  | finished => exact h
  | poll hmeanwhile _ ih => exact ih (pollTask_follows hm h hmeanwhile)

end

/-- The job is started, and polled until it is finished; its run gets the number `run`. -/
def Completes (s : Session) (job : Job) (m : Manipulator) (run : RunId)
    (result : Except TransformError Report) (s' : Session) : Prop :=
  (job.parsePolls = none → s.runs.size = run) ∧
    Resolves run (s.startUp job m).1 (s.startUp job m).2 result s'

theorem completes_follows {job : Job} {m : Manipulator} (hm : Manipulator.KeepsToRun m) {run : RunId}
    {s s' s₀ : Session} {result : Except TransformError Report} (h : s.Completes job m run result s')
    (hsize₀ : s₀.runs.size = run) (hadapter : s.adapter? job.binding = s₀.adapter? job.binding) :
    ∃ s₁, s₀.begin (fun run => immediate m run) job.atOnce (Manipulator.atOnce m) = (.finished result, s₁) ∧
      s₁.transcript run = s'.transcript run := by
  have hfollows : Follows job m run
      (s₀.begin (fun run => immediate m run) job.atOnce (Manipulator.atOnce m)) (s.startUp job m).1
      (s.startUp job m).2 := by
    rw [startUp, launched]
    cases hpolls : job.parsePolls with
    | some polls => exact ⟨rfl, rfl, s₀, hsize₀, hadapter, rfl⟩
    | none => exact begin_follows hm false (h.1 hpolls) hsize₀ hadapter
  exact resolves_follows hm h.2 hfollows

/-! ## Nothing else happens -/

theorem Meanwhile.refl {run : RunId} {t : Task} {s : Session} (h : t.run? = none → s.runs.size = run) :
    Meanwhile run t s s := by
  refine ⟨rfl, ?_⟩
  cases t with
  | walking run node turn rest job m => rfl
  | parsing polls job m =>
    cases polls with
    | zero => exact h rfl
    | succ n => trivial

theorem pollTimes_resolves {run : RunId} {polls k : Nat} {t : Task} {s₀ s s' : Session}
    {result : Except TransformError Report} (h : s.pollTimes t polls = (.finished result, k, s'))
    (hmeanwhile : Meanwhile run t s₀ s) (hsize : t.run? = none → s.runs.size = run) :
    Resolves run (.pending t) s₀ result s' := by
  induction polls generalizing t s₀ s k with
  | zero => cases h
  | succ n ih =>
    refine .poll hmeanwhile ?_
    have hpending := fun t' => @pending_of_pollTask s t t'
    rw [pollTimes] at h
    generalize s.pollTask t = polled at h hpending ⊢
    obtain ⟨p, s₁⟩ := polled
    cases p with
    | finished r =>
      cases h
      exact .finished
    | pending t' =>
      -- a job that still has no run has done nothing
      have hsize' : t'.run? = none → s₁.runs.size = run := by
        intro hnone
        obtain ⟨hnone', rfl⟩ := (hpending t' rfl).2.2 hnone
        exact hsize hnone'
      rcases hrest : s₁.pollTimes t' n with ⟨p', k', s₂⟩
      simp only [hrest] at h
      cases h
      exact ih hrest (.refl hsize') hsize'

theorem meanwhile_putTask {run : RunId} {name : String} {t : Task} {s s' : Session}
    (htake : (s.putTask name t).takeTask name = some (t, s')) (hruns : s'.runs = (s.putTask name t).runs)
    (hsize : t.run? = none → s.runs.size = run)
    (hapart : ∀ k, t.run? = some k → ∀ p ∈ s.tasks, p.2.run? ≠ some k) :
    Meanwhile run t s s' ∧ (t.run? = none → s'.runs.size = run) := by
  have hsize' : t.run? = none → s'.runs.size = run := by
    intro hnone
    rw [hruns, (runs_putTask s name t run).1, hsize hnone]
  have hbindings : s'.bindings = s.bindings :=
    (quiet_takeTask htake).1.bindings.trans (s.quiet_putTask name t).1.bindings
  refine ⟨⟨by rw [adapter?, adapter?, hbindings], ?_⟩, hsize'⟩
  cases t with
  | walking run' node turn rest job m =>
    rw [hruns]
    exact (runs_putTask s name _ run').2.2 (hapart run' rfl)
  | parsing polls job m =>
    cases polls with
    | zero => exact hsize' rfl
    | succ n => trivial

theorem eq_of_startUp {s s₁ : Session} {job : Job} {m : Manipulator} {t : Task}
    (h : s.startUp job m = (.pending t, s₁)) (hnone : t.run? = none) : s₁ = s := by
  rw [startUp, launched] at h
  split at h
  · cases h
    rfl
  · obtain ⟨node, turn, rest, rfl⟩ := pending_of_begin (congrArg Prod.fst h)
    cases hnone

end Session

open Moment

theorem Moment.Inv.run_not_kept {job : Job} {m : Manipulator} {run : Option RunId} {t : Task}
    {name : String} {s : Session} {ms : List Mark}
    (h : Moment.Inv ⟨.back job m run (.pending t), [.outside false name], s, ms⟩) {k : RunId}
    (hk : t.run? = some k) : ∀ p ∈ s.tasks, p.2.run? ≠ some k := by
  intro p hp hpk
  have hnodup : (k :: s.posts.filterMap Post.run?).Nodup := by
    have happart : ((t.post :: s.posts).filterMap Post.run?).Nodup := h.apart
    rwa [List.filterMap_cons_some (by rw [t.run?_post, hk])] at happart
  refine (List.nodup_cons.mp hnodup).1 (List.mem_filterMap.mpr ⟨p.2.post, List.mem_map_of_mem hp, ?_⟩)
  rw [p.2.run?_post, hpk]

theorem Moment.Reachable.completes {adapters : Array Adapter} {s s' : Session} {ms : List Mark}
    (h : Reachable adapters (.rest s ms)) {job : Job} {m : Manipulator} {polls : Nat}
    {result : Except TransformError Report} (htransform : s.transform job m polls = (some result, s')) :
    s.Completes job m s.runs.size result s' := by
  refine ⟨fun _ => rfl, ?_⟩
  rcases Session.transform_cases htransform with hup | ⟨t, s₁, s₂, k, hup, htake, hruns, hpolls⟩
  · rw [hup]
    exact .finished
  · obtain ⟨run, ms₁, hleads⟩ := start_leads job m s ms
    have hinv := Reachable.inv (Relation.ReflTransGen.trans h hleads)
    rw [hup] at hinv ⊢
    have hsize : t.run? = none → s₁.runs.size = s.runs.size := by
      intro hnone
      rw [Session.eq_of_startUp hup hnone]
    obtain ⟨hmeanwhile, hsize'⟩ := Session.meanwhile_putTask htake hruns hsize fun k => hinv.run_not_kept
    exact Session.pollTimes_resolves hpolls hmeanwhile hsize'

/-- **What is put off comes to the same.** Let the turns of a manipulator keep to their run. When a job comes to
its end, whatever happened between the polls, the run has seen the same and the result is the same as when parse
and turns are there at once, in any session in which the run has the same number and the same adapter. So it is
with every job that is started and polled, and each has an end if no turn waits for ever. -/
theorem deferred_eq_immediate {m : Manipulator} (hm : Manipulator.KeepsToRun m) (job : Job) :
    (∀ (s s' : Session) run result, s.Completes job m run result s' →
      ∀ s₀ : Session, s₀.runs.size = run → s.adapter? job.binding = s₀.adapter? job.binding →
        ∃ s₁, s₀.start job.atOnce (Manipulator.atOnce m) = (.finished result, s₁) ∧
          s₁.transcript run = s'.transcript run) ∧
    ∀ adapters s ms, Reachable adapters (.rest s ms) →
      (∀ polls result s', s.transform job m polls = (some result, s') →
        s.Completes job m s.runs.size result s' ∧
        ∃ s₁, s.start job.atOnce (Manipulator.atOnce m) = (.finished result, s₁) ∧
          s₁.transcript s.runs.size = s'.transcript s.runs.size) ∧
      ((∀ seen node, (m seen node).Terminates) →
        ∃ polls result, (s.transform job m polls).1 = some result) := by
  have hcompletes : ∀ (s s' : Session) run result, s.Completes job m run result s' →
      ∀ s₀ : Session, s₀.runs.size = run → s.adapter? job.binding = s₀.adapter? job.binding →
        ∃ s₁, s₀.start job.atOnce (Manipulator.atOnce m) = (.finished result, s₁) ∧
          s₁.transcript run = s'.transcript run := by
    intro s s' run result h s₀ hsize₀ hadapter
    obtain ⟨s₁, hbegin, hseen⟩ := Session.completes_follows hm h hsize₀ hadapter
    refine ⟨s₁, ?_, hseen⟩
    have hup : s₀.startUp job.atOnce (Manipulator.atOnce m) = (.finished result, s₁) := hbegin
    rw [s₀.start_eq, hup]
    rfl
  refine ⟨hcompletes, fun adapters s ms h => ⟨fun polls result s' htransform => ?_, fun hends => ?_⟩⟩
  · have hcomplete := h.completes htransform
    exact ⟨hcomplete, hcompletes _ _ _ _ hcomplete s rfl rfl⟩
  · exact Session.exists_polls_finished hends s

/-- Two nodes are put in parentheses; the parse is late, and so is the turn of the second node once it has read
its text. -/
theorem deferred_eq_immediate_parentheses :
    let adapter : Adapter := { name := "any", isNode := fun _ => true }
    let root : Tree :=
      { kind := "pair", span := ⟨0, 3⟩, children := [{ kind := "first", span := ⟨0, 2⟩ }] }
    let job : Job :=
      { name := "job", binding := 0, code := "éx", parsePolls := some 1, parsed := .ok root,
        sharedTree := false, map := {}, lookups := [] }
    let put : Node → String → Turn := fun node text =>
      .call (.override (.helpers node) node ("(" ++ text ++ ")")) fun _ => .done (.ok ())
    let m : Manipulator := fun seen node =>
      .call (.source (.helpers node) node) fun
        | .ok text => if seen = [] then put node text else .defer (.wait 1 (put node text))
        | .error e => .done (.error e)
    let s : Session := .ofAdapters #[adapter]
    Manipulator.KeepsToRun m ∧ ∃ polls result s' s₁, s.transform job m polls = (some result, s') ∧
      s.start job.atOnce (Manipulator.atOnce m) = (.finished result, s₁) ∧
      s₁.transcript 0 = s'.transcript 0 := by
  intro adapter root job put m s
  have hput : ∀ node text, (put node text).KeepsTo node.run :=
    fun node text => ⟨⟨rfl, rfl⟩, fun _ _ => trivial⟩
  have hm : Manipulator.KeepsToRun m := by
    intro seen node _
    refine ⟨⟨rfl, rfl⟩, fun answer _ => ?_⟩
    cases answer with
    | error e => trivial
    | ok text =>
      dsimp only
      split
      · exact hput node text
      · exact hput node text
  have hends : ∀ seen node, (m seen node).Terminates := by
    intro seen node answer
    cases answer with
    | error e => trivial
    | ok text =>
      dsimp only
      split
      · exact fun _ => trivial
      · exact fun _ => trivial
  obtain ⟨hsame, hfinished⟩ := (deferred_eq_immediate hm job).2 #[adapter] s [] .refl
  obtain ⟨polls, result, hresult⟩ := hfinished hends
  obtain ⟨-, s₁, hstart, hseen⟩ := hsame polls result _ (Prod.ext hresult rfl)
  exact ⟨hm, polls, result, _, s₁, Prod.ext hresult rfl, hstart, hseen⟩

end TreeEdit
