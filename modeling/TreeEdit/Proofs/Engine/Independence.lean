import TreeEdit.Proofs.Engine.Beside

/-!
# Jobs that do not interfere

Jobs are started and polled in any order, be they of one binding or of several. When the turns of each keep to its
run, a job comes out as it does alone, with all commands for other jobs left out (`jobs_independent`). What others do
passes it by (`Session.Beside`). What it does itself it does to its own run only, and that run is the same in the
session where all is going on and in the one where it is alone (`Session.Twin`), so it is answered alike in both.
-/

namespace TreeEdit

/-! ## The same turn in two sessions -/

namespace Alike

variable {Expected : Event → Prop} {run : RunId} {b : BindingId} {r : Run} {s s₀ : Session}

theorem symm (h : Alike Expected run b r s s₀) : Alike Expected run b r s₀ s :=
  ⟨h.live, h.right, h.left, h.adapter.symm, h.seen⟩

theorem perform_within (h : Alike Expected run b r s s₀) {q : Request} (hq : q.Within run) :
    (s.perform q).1 = (s₀.perform q).1 ∧ (∀ n ∈ q.given (s.perform q).1, n.run = run) ∧
      ∃ r', Alike Expected run b r' (s.perform q).2 (s₀.perform q).2 := by
  cases q with
  | source | override | ancestor | children => exact h.perform hq
  | state b' n =>
    obtain ⟨id, hp, hp₀⟩ := h.place (show Actor.KeepsTo run (.binding b') from trivial) hq
    have hp : s.locate b' n = .node run id := hp
    have hp₀ : s₀.locate b' n = .node run id := hp₀
    have heq : s.state? b' n = s₀.state? b' n := by
      simp only [Session.state?, hp, hp₀, h.left, h.right]
    exact ⟨heq, List.forall_mem_nil _, r, h⟩
  | saveNode | saveHelpers | forget | note =>
    exact ⟨rfl, List.forall_mem_nil _, r, h.live, h.left, h.right, h.adapter, h.seen⟩
  | _ => exact absurd hq id

theorem respond_within (h : Alike (Event.Within run) run b r s s₀) {q : Request} (hq : q.Within run) :
    (s.respond (some run) q).1 = (s₀.respond (some run) q).1 ∧
      (∀ n ∈ q.given (s.respond (some run) q).1, n.run = run) ∧
      ∃ r', Alike (Event.Within run) run b r' (s.respond (some run) q).2 (s₀.respond (some run) q).2 := by
  obtain ⟨hanswer, hgiven, r', h'⟩ := h.perform_within hq
  exact ⟨hanswer, hgiven, h'.answered hanswer ⟨hq, hgiven⟩⟩

end Alike

/-- Done in two sessions with the same run, it comes to the same, the runs stay the same, and no task is touched. -/
def Mirrored (run : RunId) (b : BindingId) {α : Type} (Good : α → Prop) (f : Session → α × Session) : Prop :=
  ∀ ⦃r s s₀⦄, Alike (Event.Within run) run b r s s₀ → (f s).1 = (f s₀).1 ∧ Good (f s).1 ∧ (f s).2.tasks = s.tasks ∧
    ∃ r', Alike (Event.Within run) run b r' (f s).2 (f s₀).2

theorem Turn.Within.mirrored {run : RunId} {turn : Turn} (hturn : turn.Within noJob run) (b : BindingId)
    (polled : Bool) :
    Mirrored run b (fun ended => ended.rest.Within noJob run) (turn.exec polled (some run)) := by
  induction turn with
  | done result => exact fun r s s₀ h => ⟨rfl, trivial, rfl, r, h⟩
  | call q next ih =>
    intro r s s₀ h
    obtain ⟨hanswer, hgiven, r', h'⟩ := h.respond_within hturn.1
    have htasks := (s.quiet_respond run q).2
    rw [Turn.exec, Turn.exec]
    generalize s.respond (some run) q = answered at hanswer hgiven h' htasks ⊢
    generalize s₀.respond (some run) q = answered₀ at hanswer h' ⊢
    obtain ⟨a, s'⟩ := answered
    obtain ⟨a₀, s₀'⟩ := answered₀
    obtain rfl : a = a₀ := hanswer
    obtain ⟨hsame, hleft, hkept, hrun⟩ := ih a (hturn.2 a hgiven) h'
    exact ⟨hsame, hleft, hkept.trans htasks, hrun⟩
  | start job m next => exact absurd hturn.1 id
  | defer next ih =>
    intro r s s₀ h
    rw [Turn.exec, Turn.exec]
    split
    · exact ih hturn h
    · exact ⟨rfl, hturn, rfl, r, h⟩
  | wait polls next ih =>
    cases polls with
    | zero => exact ih hturn
    | succ n => exact fun r s s₀ h => ⟨rfl, hturn, rfl, r, h⟩
  | never => exact fun r s s₀ h => ⟨rfl, trivial, rfl, r, h⟩

def Progression.task? : Progression → Option Task
  | .finished _ => none
  | .pending t => some t

namespace Session

section

variable {run : RunId} {b : BindingId} {m : Manipulator}

theorem afterTurn_mirrored {polled : Bool} {rest : List WalkStep} {node : Node} (hnode : node.run = run)
    (hrest : ∀ step ∈ rest, step.node.run = run)
    (ih : Mirrored run b (·.Within noJob run) (walk (fun seen node => (m seen node).exec polled (some run)) rest))
    {turn : Turn} (hturn : turn.Within noJob run) :
    Mirrored run b (·.Within noJob run) fun s =>
      afterTurn (fun seen node => (m seen node).exec polled (some run)) node rest (turn.exec polled (some run) s) := by
  intro r s s₀ h
  obtain ⟨hsame, hleft, htasks, r', h'⟩ := hturn.mirrored b polled h
  simp only
  generalize turn.exec polled (some run) s = ended at hsame hleft htasks h'
  generalize turn.exec polled (some run) s₀ = ended₀ at hsame h'
  obtain ⟨ended, s'⟩ := ended
  obtain ⟨ended₀, s₀'⟩ := ended₀
  obtain rfl : ended = ended₀ := hsame
  cases ended with
  | suspended left => exact ⟨rfl, ⟨hnode, hrest, hleft⟩, htasks, r', h'⟩
  | finished result =>
    have hend : Alike (Event.Within run) run b (r'.advance node.id .handled) (s'.endTurn node) (s₀'.endTurn node) := by
      rw [endTurn, endTurn, hnode]
      exact h'.advance node.id .handled
    cases result with
    | error e => exact ⟨rfl, trivial, htasks, _, hend⟩
    | ok u =>
      obtain ⟨hwalked, hclear, hkept, hrun⟩ := ih hend
      exact ⟨hwalked, hclear, hkept.trans htasks, hrun⟩

theorem walk_mirrored (hm : Manipulator.Within noJob m) (polled : Bool) {steps : List WalkStep}
    (hsteps : ∀ step ∈ steps, step.node.run = run) :
    Mirrored run b (·.Within noJob run) (walk (fun seen node => (m seen node).exec polled (some run)) steps) := by
  induction steps with
  | nil => exact fun r s s₀ h => ⟨rfl, trivial, rfl, r, h⟩
  | cons step rest ih =>
    have hrest : ∀ step ∈ rest, step.node.run = run := fun d hd => hsteps d (List.mem_cons_of_mem _ hd)
    intro r s s₀ h
    cases step with
    | enter node =>
      obtain rfl : node.run = run := hsteps (.enter node) List.mem_cons_self
      exact ih hrest (h.advance node.id .traversingChildren)
    | visit node =>
      obtain rfl : node.run = run := hsteps (.visit node) List.mem_cons_self
      rw [walk_visit, walk_visit, transcript_of_runs h.left, transcript_of_runs h.right]
      exact afterTurn_mirrored rfl hrest (ih hrest) (hm r.transcript node h.seen) (h.visit rfl)

end

/-! ## How the job stands in the two sessions -/

/-- How it stands with the job at hand: as long as its parse is awaited it has no run, and from then on its run is the
one that is watched. -/
def Own (watch : Option RunId) (s : Session) : Progression → Prop
  | .finished _ => True
  | .pending (.parsing _ _ m) => watch = none ∧ Manipulator.Within noJob m
  | .pending (.walking run node turn rest job m) =>
    watch = some run ∧ (WalkEnd.suspended node turn rest).Within noJob run ∧ Manipulator.Within noJob m ∧
      ∃ r, s.runs[run]? = some r ∧ r.Live run job.binding

/-- The job at hand gets the number `k` in both sessions, or has got it and has the same run in both. -/
inductive Twin (s s₀ : Session) : Option RunId → RunId → Prop
  | ahead {k} (size : s₀.runs.size = k) (adapter : ∀ b, s.adapter? b = s₀.adapter? b) : Twin s s₀ none k
  | begun {k r} (left : s.runs[k]? = some r) (right : s₀.runs[k]? = some r)
    (adapter : s.adapter? r.binding = s₀.adapter? r.binding) : Twin s s₀ (some k) k

/-- The job at hand makes progress, alike in both sessions. -/
structure Advances (name : String) (watch watch' : Option RunId) (s : Session) (p : Session → Progression)
    (after : Session → Session) : Prop where
  grows : ∀ k, watch = some k → watch' = some k
  orderly : (after s).Orderly (Job.Other name) name watch'
  own : (after s).Own watch' (p s)
  tasks : (after s).tasks = s.tasks
  twin : ∀ {k s₀}, Twin s s₀ watch k → (∀ k', watch' = some k' → k' = k) →
    p s = p s₀ ∧ (after s₀).tasks = s₀.tasks ∧ Twin (after s) (after s₀) watch' k

theorem Twin.alike {s s₀ : Session} {run k : RunId} {b : BindingId} {r : Run} (h : Twin s s₀ (some run) k)
    (hr : s.runs[run]? = some r) (hlive : r.Live run b) (hseen : ∀ e ∈ r.transcript, e.Within run) :
    Alike (Event.Within run) run b r s s₀ := by
  cases h with
  | begun left right adapter =>
    obtain rfl := Option.some.inj (left.symm.trans hr)
    rw [hlive.binding] at adapter
    exact ⟨hlive, left, right, adapter, hseen⟩

end Session

namespace Alike

open Session

variable {run : RunId} {b : BindingId} {r : Run} {s s₀ : Session}

theorem twin (h : Alike (Event.Within run) run b r s s₀) : Twin s s₀ (some run) run := by
  refine .begun h.left h.right ?_
  rw [h.live.binding]
  exact h.adapter

theorem finish (h : Alike (Event.Within run) run b r s s₀) (job : Job) (walked : Except TransformError Unit) :
    (s.finish run job walked).1 = (s₀.finish run job walked).1 ∧
      Twin (s.finish run job walked).2 (s₀.finish run job walked).2 (some run) run := by
  obtain ⟨hresult, hr⟩ := finish_of_run h.left job walked
  obtain ⟨hresult₀, hr₀⟩ := finish_of_run h.right job walked
  refine ⟨hresult.trans hresult₀.symm, .begun hr hr₀ ?_⟩
  have hadapter : ∀ (s : Session) b, (s.finish run job walked).2.adapter? b = s.adapter? b := by
    intro s b
    rw [finish_session]
    exact adapter?_modifyStore s _ _ b
  show (s.finish run job walked).2.adapter? r.binding = (s₀.finish run job walked).2.adapter? r.binding
  rw [hadapter, hadapter, h.live.binding]
  exact h.adapter

end Alike

namespace Session

variable {name : String} {watch : Option RunId} {run k : RunId} {s s' s₀ s₀' : Session} {job : Job}
  {m : Manipulator}

theorem afterWalk_alike (hm : Manipulator.Within noJob m) {f : Session → WalkEnd × Session}
    (hf : Mirrored run job.binding (·.Within noJob run) f) {r : Run}
    (h : Alike (Event.Within run) run job.binding r s s₀) :
    (afterWalk run job m (f s)).1 = (afterWalk run job m (f s₀)).1 ∧
      (afterWalk run job m (f s)).2.Own (some run) (afterWalk run job m (f s)).1 ∧
      (afterWalk run job m (f s)).2.tasks = s.tasks ∧ (afterWalk run job m (f s₀)).2.tasks = s₀.tasks ∧
      Twin (afterWalk run job m (f s)).2 (afterWalk run job m (f s₀)).2 (some run) run := by
  obtain ⟨hsame, hgood, htasks, r', h'⟩ := hf h
  obtain ⟨-, -, htasks₀, -⟩ := hf h.symm
  generalize f s = ended at hsame hgood htasks h'
  generalize f s₀ = ended₀ at hsame htasks₀ h'
  obtain ⟨ended, s'⟩ := ended
  obtain ⟨ended₀, s₀'⟩ := ended₀
  obtain rfl : ended = ended₀ := hsame
  cases ended with
  | suspended node turn rest =>
    exact ⟨rfl, ⟨rfl, hgood, hm, r', h'.left, h'.live⟩, htasks, htasks₀, h'.twin⟩
  | finished walked =>
    obtain ⟨hresult, htwin⟩ := h'.finish job walked
    exact ⟨congrArg Progression.finished hresult, trivial, (s'.tasks_finish run job walked).trans htasks,
      (s₀'.tasks_finish run job walked).trans htasks₀, htwin⟩

theorem Advances.same (h : s.Orderly (Job.Other name) name watch) {p : Progression} (hp : s.Own watch p) :
    Advances name watch watch s (fun _ => p) id :=
  ⟨fun _ => id, h, hp, rfl, fun htwin _ => ⟨rfl, rfl, htwin⟩⟩

theorem begin_advances (hm : Manipulator.Within noJob m) (polled : Bool) (h : s.Orderly (Job.Other name) name none) :
    ∃ watch', Advances name none watch' s
      (fun s => (begin (fun run seen node => (m seen node).exec polled (some run)) job m s).1)
      fun s => (begin (fun run seen node => (m seen node).exec polled (some run)) job m s).2 := by
  rcases begin_cases (fun run seen node => (m seen node).exec polled (some run)) job m with ⟨e, he⟩ | ⟨root, arena, heq⟩
  · simp only [he]
    exact ⟨none, .same h trivial⟩
  · have hmirrored : Mirrored s.runs.size job.binding (·.Within noJob s.runs.size) (walk
        (fun seen node => (m seen node).exec polled (some s.runs.size)) (job.steps root s.runs.size)) :=
      walk_mirrored hm polled fun step => Tree.run_of_mem_plan
    have halike : ∀ {s₀ : Session}, s₀.runs.size = s.runs.size → s.adapter? job.binding = s₀.adapter? job.binding →
        ∃ r, Alike (Event.Within s.runs.size) s.runs.size job.binding r (s.addRun job arena).2
          (s₀.addRun job arena).2 :=
      fun hsize hadapter => addRun_alike rfl hsize hadapter arena
    obtain ⟨r, hself⟩ := halike rfl rfl
    obtain ⟨-, hown, htasks, -⟩ := afterWalk_alike hm hmirrored hself
    refine ⟨some s.runs.size, ⟨fun k hk => (by cases hk), ?orderly, ?own, ?tasks, fun htwin hk => ?twin⟩⟩
    all_goals simp only [heq]
    case orderly =>
      have hadded : (s.addRun job arena).2.Orderly (Job.Other name) name (some s.runs.size) :=
        h.addRun job arena fun k hk => .inr (Option.some.inj hk).symm
      obtain ⟨hwalk, hclear⟩ := walk_beside (hm.mono noJob.elim) (fun seen node => (m seen node).aside fun _ => id)
        polled (fun step => Tree.run_of_mem_plan) hadded (s.size_lt_addRun job arena)
      exact (afterWalk_beside job (hm.mono noJob.elim) hwalk hclear).1.orderly
    case own => exact hown
    case tasks => exact htasks
    case twin =>
      cases htwin with
      | ahead size adapter =>
        obtain rfl := hk _ rfl
        obtain ⟨r, hboth⟩ := halike size (adapter job.binding)
        obtain ⟨hsame, -, -, htasks₀, htwin⟩ := afterWalk_alike hm hmirrored hboth
        rw [size]
        exact ⟨hsame, htasks₀, htwin⟩

theorem startUp_advances (job : Job) (hm : Manipulator.Within noJob m) (h : s.Orderly (Job.Other name) name none) :
    ∃ watch', Advances name none watch' s (fun s => (s.startUp job m).1) fun s => (s.startUp job m).2 := by
  cases hpolls : job.parsePolls with
  | some polls =>
    simp only [startUp, launched, hpolls]
    exact ⟨none, .same h ⟨rfl, hm⟩⟩
  | none =>
    simp only [startUp, launched, hpolls]
    exact begin_advances hm false h

theorem pollTask_advances {t : Task} (h : s.Orderly (Job.Other name) name watch) (ht : s.Own watch (.pending t)) :
    ∃ watch', Advances name watch watch' s (fun s => (s.pollTask t).1) fun s => (s.pollTask t).2 := by
  cases t with
  | parsing polls job m =>
    obtain ⟨rfl, hm⟩ := ht
    cases polls with
    | zero => exact begin_advances hm true h
    | succ n => exact ⟨none, .same h ⟨rfl, hm⟩⟩
  | walking run node turn rest job m =>
    obtain ⟨rfl, hkeeps, hm, r, hr, hlive⟩ := ht
    have hmirrored := afterTurn_mirrored (b := job.binding) hkeeps.1 hkeeps.2.1 (walk_mirrored hm true hkeeps.2.1)
      hkeeps.2.2
    have hpoll := fun s : Session => pollTask_walking run job m node rest s turn
    have hclear : (Task.walking run node turn rest job m).Within (Job.Other name) :=
      ⟨hkeeps.mono noJob.elim, hm.mono noJob.elim⟩
    obtain ⟨hbeside, -⟩ := pollTask_walking_beside (fun _ => id) hclear h (h.watched run rfl)
    have hseen := (h.runs run r hr).2
    have hself : Alike (Event.Within run) run job.binding r s s := ⟨hlive, hr, hr, rfl, hseen⟩
    obtain ⟨-, hown, htasks, -⟩ := afterWalk_alike hm hmirrored hself
    refine ⟨some run, ⟨fun _ => id, hbeside.orderly, ?own, ?tasks, fun {k s₀} htwin hk => ?twin⟩⟩
    all_goals simp only [hpoll]
    case own => exact hown
    case tasks => exact htasks
    case twin =>
      obtain rfl := hk _ rfl
      have hboth := htwin.alike hr hlive hseen
      obtain ⟨hsame, -, -, htasks₀, htwin'⟩ := afterWalk_alike hm hmirrored hboth
      exact ⟨hsame, htasks₀, htwin'⟩

theorem pollTimes_of_finished {t : Task} {result : Except TransformError Report}
    (h : (s.pollTask t).1 = .finished result) (n : Nat) :
    s.pollTimes t (n + 1) = (.finished result, 1, (s.pollTask t).2) := by
  rw [pollTimes, show s.pollTask t = (.finished result, (s.pollTask t).2) from Prod.ext h rfl]

theorem pollTimes_of_pending {t t' : Task} (h : (s.pollTask t).1 = .pending t') (n : Nat) :
    s.pollTimes t (n + 1) =
      let rest := (s.pollTask t).2.pollTimes t' n
      (rest.1, rest.2.1 + 1, rest.2.2) := by
  rw [pollTimes, show s.pollTask t = (.pending t', (s.pollTask t).2) from Prod.ext h rfl]

theorem pollTimes_advances {t : Task} (h : s.Orderly (Job.Other name) name watch) (ht : s.Own watch (.pending t))
    (times : Nat) :
    ∃ watch', Advances name watch watch' s (fun s => (s.pollTimes t times).1) (fun s => (s.pollTimes t times).2.2) ∧
      ∀ {k s₀}, Twin s s₀ watch k → (∀ k', watch' = some k' → k' = k) →
        (s.pollTimes t times).2.1 = (s₀.pollTimes t times).2.1 := by
  induction times generalizing t watch s with
  | zero => exact ⟨watch, .same h ht, fun _ _ => rfl⟩
  | succ n ih =>
    obtain ⟨watch₁, hfirst⟩ := pollTask_advances h ht
    cases hp : (s.pollTask t).1 with
    | finished result =>
      have hpolls := pollTimes_of_finished hp n
      refine ⟨watch₁, ⟨hfirst.grows, ?orderly, ?own, ?tasks, fun htwin hk => ?twin⟩, fun htwin hk => ?count⟩
      case orderly => rw [hpolls]; exact hfirst.orderly
      case own => rw [hpolls]; trivial
      case tasks => rw [hpolls]; exact hfirst.tasks
      case twin =>
        obtain ⟨hsame, htasks₀, htwin'⟩ := hfirst.twin htwin hk
        rw [hpolls, pollTimes_of_finished (hsame.symm.trans hp)]
        exact ⟨rfl, htasks₀, htwin'⟩
      case count => rw [hpolls, pollTimes_of_finished ((hfirst.twin htwin hk).1.symm.trans hp)]
    | pending t' =>
      have hpolls := pollTimes_of_pending hp n
      have hown : (s.pollTask t).2.Own watch₁ (.pending t') := hp ▸ hfirst.own
      obtain ⟨watch₂, hrest, hcount⟩ := ih hfirst.orderly hown
      refine ⟨watch₂, ⟨fun k hk => hrest.grows k (hfirst.grows k hk), ?orderly, ?own, ?tasks, fun htwin hk => ?twin⟩,
        fun htwin hk => ?count⟩
      case orderly => rw [hpolls]; exact hrest.orderly
      case own => rw [hpolls]; exact hrest.own
      case tasks => rw [hpolls]; exact hrest.tasks.trans hfirst.tasks
      case twin =>
        obtain ⟨hsame, htasks₀, htwin₁⟩ := hfirst.twin htwin fun k' hk' => hk k' (hrest.grows k' hk')
        obtain ⟨hsame', htasks₀', htwin₂⟩ := hrest.twin htwin₁ hk
        rw [hpolls, pollTimes_of_pending (hsame.symm.trans hp)]
        exact ⟨hsame', htasks₀'.trans htasks₀, htwin₂⟩
      case count =>
        obtain ⟨hsame, -, htwin₁⟩ := hfirst.twin htwin fun k' hk' => hk k' (hrest.grows k' hk')
        rw [hpolls, pollTimes_of_pending (hsame.symm.trans hp)]
        exact congrArg (· + 1) (hcount htwin₁ hk)

/-! ## Between commands -/

/-- The session is orderly, and so it stands with the job at hand if it is put off. -/
structure Standing (may : Job → Prop) (name : String) (watch : Option RunId) (s : Session) : Prop where
  orderly : s.Orderly may name watch
  own : ∀ t, s.tasks.lookup name = some t → s.Own watch (.pending t)

theorem Own.congr {p : Progression} (h : s.Own watch p) (hruns : s'.runs = s.runs) : s'.Own watch p := by
  cases p with
  | finished result => trivial
  | pending t =>
    cases t with
    | parsing polls job m => exact h
    | walking run node turn rest job m =>
      rw [Own, hruns]
      exact h

theorem Twin.congr (h : Twin s s₀ watch k) (hruns : s'.runs = s.runs) (hbindings : s'.bindings = s.bindings)
    (hruns₀ : s₀'.runs = s₀.runs) (hbindings₀ : s₀'.bindings = s₀.bindings) : Twin s' s₀' watch k := by
  cases h with
  | ahead size adapter =>
    refine .ahead (by rw [hruns₀, size]) fun b => ?_
    rw [adapter?, hbindings, ← adapter?, adapter b, adapter?, adapter?, hbindings₀]
  | begun left right adapter =>
    refine .begun (by rw [hruns, left]) (by rw [hruns₀, right]) ?_
    rw [adapter?, hbindings, ← adapter?, adapter, adapter?, adapter?, hbindings₀]

theorem keep_of_free (h : s.tasks.lookup name = none) (p : Progression) :
    (s.keep name p).runs = s.runs ∧ (s.keep name p).bindings = s.bindings ∧
      (s.keep name p).tasks.lookup name = p.task? ∧ ∀ q ∈ (s.keep name p).tasks, q.1 ≠ name → q ∈ s.tasks := by
  cases p with
  | finished result => exact ⟨rfl, rfl, h, fun q hq _ => hq⟩
  | pending t =>
    rw [keep, putTask, h]
    refine ⟨rfl, rfl, List.lookup_cons_self, fun q hq hne => ?_⟩
    rcases List.mem_cons.mp hq with rfl | hq
    · exact absurd rfl hne
    · exact (List.mem_filter.mp hq).1

theorem Own.keep {may : Job → Prop} {p : Progression} (h : s.Own watch p) (horderly : s.Orderly may name watch)
    (hfree : s.tasks.lookup name = none) : (s.keep name p).Standing may name watch := by
  obtain ⟨hruns, -, hlookup, hothers⟩ := keep_of_free hfree p
  refine ⟨horderly.congr hruns hothers, fun t ht => ?_⟩
  rw [hlookup] at ht
  cases p with
  | finished result => cases ht
  | pending t' =>
    cases ht
    exact h.congr hruns

theorem Twin.keep (h : Twin s s₀ watch k) (hfree : s.tasks.lookup name = none) (hfree₀ : s₀.tasks.lookup name = none)
    (p : Progression) :
    Twin (s.keep name p) (s₀.keep name p) watch k ∧
      (s₀.keep name p).tasks.lookup name = (s.keep name p).tasks.lookup name := by
  obtain ⟨hruns, hbindings, hlookup, -⟩ := keep_of_free hfree p
  obtain ⟨hruns₀, hbindings₀, hlookup₀, -⟩ := keep_of_free hfree₀ p
  exact ⟨h.congr hruns hbindings hruns₀ hbindings₀, hlookup₀.trans hlookup.symm⟩

theorem Advances.keep {watch' : Option RunId} {p : Session → Progression} {after : Session → Session}
    (h : Advances name watch watch' s p after) (hfree : s.tasks.lookup name = none) :
    ((after s).keep name (p s)).Standing (Job.Other name) name watch' ∧
      ∀ {k s₀}, Twin s s₀ watch k → (∀ k', watch' = some k' → k' = k) → s₀.tasks.lookup name = none →
        p s = p s₀ ∧ Twin ((after s).keep name (p s)) ((after s₀).keep name (p s₀)) watch' k ∧
          ((after s₀).keep name (p s₀)).tasks.lookup name = ((after s).keep name (p s)).tasks.lookup name := by
  have hfree' : (after s).tasks.lookup name = none := by rw [h.tasks, hfree]
  refine ⟨h.own.keep h.orderly hfree', fun {k s₀} htwin hk hfree₀ => ?_⟩
  obtain ⟨hsame, htasks₀, htwin'⟩ := h.twin htwin hk
  rw [← hsame]
  exact ⟨rfl, htwin'.keep hfree' (by rw [htasks₀, hfree₀]) (p s)⟩

theorem start_own (hm : Manipulator.Within noJob m) (h : s.Orderly (Job.Other job.name) job.name none)
    (hfree : s.tasks.lookup job.name = none) :
    ∃ watch', (s.start job m).2.Standing (Job.Other job.name) job.name watch' ∧
      ∀ {k s₀}, Twin s s₀ none k → (∀ k', watch' = some k' → k' = k) → s₀.tasks.lookup job.name = none →
        (s.start job m).1 = (s₀.start job m).1 ∧ Twin (s.start job m).2 (s₀.start job m).2 watch' k ∧
          (s₀.start job m).2.tasks.lookup job.name = (s.start job m).2.tasks.lookup job.name := by
  obtain ⟨watch', hadvances⟩ := startUp_advances job hm h
  obtain ⟨hstanding, htwins⟩ := hadvances.keep hfree
  simp only [start_eq]
  refine ⟨watch', hstanding, fun htwin hk hfree₀ => ?_⟩
  obtain ⟨hsame, htwin', hlookup⟩ := htwins htwin hk hfree₀
  exact ⟨congrArg Progression.started hsame, htwin', hlookup⟩

theorem poll_own {t : Task} (h : s.Standing (Job.Other name) name watch) (hlookup : s.tasks.lookup name = some t)
    (times : Nat) :
    ∃ watch', (∀ k, watch = some k → watch' = some k) ∧ (s.poll name times).2.Standing (Job.Other name) name watch' ∧
      ∀ {k s₀}, Twin s s₀ watch k → (∀ k', watch' = some k' → k' = k) → s₀.tasks.lookup name = some t →
        (s.poll name times).1 = (s₀.poll name times).1 ∧ Twin (s.poll name times).2 (s₀.poll name times).2 watch' k ∧
          (s₀.poll name times).2.tasks.lookup name = (s.poll name times).2.tasks.lookup name := by
  have horderly : Orderly (Job.Other name) name watch { s with tasks := eraseNamed name s.tasks } :=
    h.orderly.congr rfl fun p hp _ => (List.mem_filter.mp hp).1
  obtain ⟨watch', hadvances, hcount⟩ := pollTimes_advances horderly ((h.own t hlookup).congr rfl) times
  obtain ⟨hstanding, htwins⟩ := hadvances.keep (lookup_eraseNamed_self name s.tasks)
  rw [poll_eq hlookup]
  refine ⟨watch', hadvances.grows, hstanding, fun {k s₀} htwin hk hlookup₀ => ?_⟩
  have htaken : Twin { s with tasks := eraseNamed name s.tasks } { s₀ with tasks := eraseNamed name s₀.tasks }
      watch k := htwin.congr rfl rfl rfl rfl
  obtain ⟨hsame, htwin', hkept⟩ := htwins htaken hk (lookup_eraseNamed_self name s₀.tasks)
  rw [poll_eq hlookup₀]
  refine ⟨?_, htwin', hkept⟩
  simp only [hsame, hcount htaken hk]

theorem Twin.same_run {r : Run} (h : Twin s s₀ watch k) (hr : s₀.runs[k]? = some r) : s.runs[k]? = some r := by
  cases h with
  | ahead size adapter =>
    rw [Array.getElem?_eq_none (Nat.le_of_eq size)] at hr
    cases hr
  | begun left right adapter => rw [left, ← right, hr]

theorem Standing.beside {may : Job → Prop} (h : s.Standing may name watch)
    (hbeside : ∀ run, s.Beside may name watch run s') : s'.Standing may name watch := by
  refine ⟨(hbeside 0).orderly, fun t ht => ?_⟩
  rw [(hbeside 0).lookup] at ht
  cases t with
  | parsing polls job m => exact h.own _ ht
  | walking run node turn rest job m =>
    obtain ⟨hwatch, hkeeps, hm, r, hr, hlive⟩ := h.own _ ht
    refine ⟨hwatch, hkeeps, hm, r, ?_, hlive⟩
    rw [(hbeside (run + 1)).watched run hwatch (Nat.ne_of_lt (Nat.lt_succ_self run)), hr]

theorem Twin.beside {may : Job → Prop} (h : Twin s s₀ watch k) (hbeside : ∀ run, s.Beside may name watch run s') :
    Twin s' s₀ watch k := by
  cases h with
  | ahead size adapter => exact .ahead size fun b => ((hbeside 0).adapter b).trans (adapter b)
  | begun left right adapter =>
    refine .begun ?_ right (((hbeside 0).adapter _).trans adapter)
    rw [(hbeside (k + 1)).watched k rfl (Nat.ne_of_lt (Nat.lt_succ_self k)), left]

end Session

/-! ## Commands -/

inductive Command where
  | start (job : Job) (m : Manipulator)
  | poll (name : String) (times : Nat)

inductive Heard where
  | started (answer : Started)
  | polled (answer : Session.Polled)

namespace Command

def name : Command → String
  | .start job _ => job.name
  | .poll name _ => name

def starts? : Command → Option String
  | .start job _ => some job.name
  | .poll .. => none

/-- The turns of the job under the name keep to its run, and those of other jobs keep to theirs. -/
def Fair (name : String) : Command → Prop
  | .start job m =>
    (job.name = name → Manipulator.Within noJob m) ∧ (job.name ≠ name → Manipulator.Within (Job.Other name) m)
  | .poll .. => True

end Command

namespace Session

def obey (s : Session) : Command → Heard × Session
  | .start job m => (.started (s.start job m).1, (s.start job m).2)
  | .poll name times => (.polled (s.poll name times).1, (s.poll name times).2)

/-- Carries out commands: what is heard of each job, in order. -/
def follow (s : Session) : List Command → List (String × Heard) × Session
  | [] => ([], s)
  | c :: cs =>
    ((c.name, (s.obey c).1) :: ((s.obey c).2.follow cs).1, ((s.obey c).2.follow cs).2)

theorem obey_beside {name : String} {watch : Option RunId} {s : Session}
    (h : s.Orderly (Job.Other name) name watch) {c : Command} (hc : c.Fair name) (hname : c.name ≠ name)
    (run : RunId) : s.Beside (Job.Other name) name watch run (s.obey c).2 := by
  cases c with
  | start job m => exact start_beside (fun _ => id) hname (hc.2 hname) h run
  | poll name' times => exact poll_beside (fun _ => id) hname times h run

end Session

/-- The job under the name comes out the same in the whole as it does alone: the same is heard of it, what is left of
it for later is the same, and so is its run, which has the number `k`, with the text and all that it has seen. -/
structure Undisturbed (name : String) (k : RunId) (whole alone : List (String × Heard) × Session) : Prop where
  heard : whole.1.filter (·.1 == name) = alone.1
  task : alone.2.tasks.lookup name = whole.2.tasks.lookup name
  run : ∀ r, alone.2.runs[k]? = some r → whole.2.runs[k]? = some r

namespace Undisturbed

variable {name : String} {k : RunId} {s s₀ : Session} {c : Command} {cs : List Command}

theorem other (hname : c.name ≠ name)
    (h : Undisturbed name k ((s.obey c).2.follow cs) (s₀.follow (cs.filter (·.name == name)))) :
    Undisturbed name k (s.follow (c :: cs)) (s₀.follow ((c :: cs).filter (·.name == name))) := by
  rw [List.filter_cons_of_neg (by simpa using hname)]
  refine ⟨?_, h.task, h.run⟩
  rw [Session.follow, List.filter_cons_of_neg (by simpa using hname)]
  exact h.heard

theorem own (hname : c.name = name) (hheard : (s.obey c).1 = (s₀.obey c).1)
    (h : Undisturbed name k ((s.obey c).2.follow cs) ((s₀.obey c).2.follow (cs.filter (·.name == name)))) :
    Undisturbed name k (s.follow (c :: cs)) (s₀.follow ((c :: cs).filter (·.name == name))) := by
  rw [List.filter_cons_of_pos (by simpa using hname)]
  refine ⟨?_, h.task, h.run⟩
  rw [Session.follow, List.filter_cons_of_pos (by simpa using hname), h.heard, hheard]
  rfl

end Undisturbed

namespace Session

/-- The job at hand may still be started, as it has neither task nor run; or it is not started any more. -/
def Startable (name : String) (watch : Option RunId) (cmds : List Command) (s : Session) : Prop :=
  watch = none ∧ s.tasks.lookup name = none ∨ name ∉ cmds.filterMap Command.starts?

variable {name : String} {watch : Option RunId} {s : Session} {c : Command} {cs : List Command}

theorem obey_own (hc : c.Fair name) (hname : c.name = name)
    (honce : ((c :: cs).filterMap Command.starts?).count name ≤ 1) (h : s.Standing (Job.Other name) name watch)
    (hstart : s.Startable name watch (c :: cs)) :
    ∃ watch', (∀ k, watch = some k → watch' = some k) ∧ (s.obey c).2.Standing (Job.Other name) name watch' ∧
      (s.obey c).2.Startable name watch' cs ∧
      ∀ {k s₀}, Twin s s₀ watch k → (∀ k', watch' = some k' → k' = k) →
        s₀.tasks.lookup name = s.tasks.lookup name →
        (s.obey c).1 = (s₀.obey c).1 ∧ Twin (s.obey c).2 (s₀.obey c).2 watch' k ∧
          (s₀.obey c).2.tasks.lookup name = (s.obey c).2.tasks.lookup name := by
  cases c with
  | start job m =>
    obtain rfl : job.name = name := hname
    rw [List.filterMap_cons_some (show (Command.start job m).starts? = some job.name from rfl)] at honce
    rcases hstart with ⟨rfl, hfree⟩ | hnever
    · obtain ⟨watch', hstanding, htwins⟩ := start_own (hc.1 rfl) h.orderly hfree
      have hnever : job.name ∉ cs.filterMap Command.starts? := by
        rw [List.count_cons_self] at honce
        exact List.count_eq_zero.mp (Nat.le_zero.mp (Nat.le_of_succ_le_succ honce))
      refine ⟨watch', fun k hk => (by cases hk), hstanding, .inr hnever, fun htwin hk hlookup => ?_⟩
      obtain ⟨hheard, htwin', hlookup'⟩ := htwins htwin hk (hlookup.trans hfree)
      exact ⟨congrArg Heard.started hheard, htwin', hlookup'⟩
    · exact absurd List.mem_cons_self hnever
  | poll name' times =>
    obtain rfl : name' = name := hname
    cases hlookup : s.tasks.lookup name' with
    | none =>
      have hnothing : ∀ {s₀ : Session}, s₀.tasks.lookup name' = none →
          s₀.obey (.poll name' times) = (.polled .noRun, s₀) := by
        intro s₀ hnone
        simp only [obey, poll, takeTask, hnone, Option.map_none]
      rw [hnothing hlookup]
      refine ⟨watch, fun _ => id, h, hstart, fun htwin hk hlookup₀ => ?_⟩
      rw [hnothing hlookup₀]
      exact ⟨rfl, htwin, hlookup₀.trans hlookup.symm⟩
    | some t =>
      have hnever : name' ∉ cs.filterMap Command.starts? := by
        rcases hstart with ⟨-, hnone⟩ | hnever
        · rw [hlookup] at hnone
          cases hnone
        · exact hnever
      obtain ⟨watch', hgrows, hstanding, htwins⟩ := poll_own h hlookup times
      refine ⟨watch', hgrows, hstanding, .inr hnever, fun htwin hk hlookup₀ => ?_⟩
      obtain ⟨hheard, htwin', hlookup'⟩ := htwins htwin hk hlookup₀
      exact ⟨congrArg Heard.polled hheard, htwin', hlookup'⟩

/-- **Any number of commands.** The number of the job's run is fixed once the run is there. -/
theorem follow_undisturbed {cmds : List Command} (hfair : ∀ c ∈ cmds, c.Fair name)
    (honce : (cmds.filterMap Command.starts?).count name ≤ 1) (h : s.Standing (Job.Other name) name watch)
    (hstart : s.Startable name watch cmds) :
    ∃ k, (∀ k', watch = some k' → k' = k) ∧ ∀ s₀, Twin s s₀ watch k →
      s₀.tasks.lookup name = s.tasks.lookup name →
      Undisturbed name k (s.follow cmds) (s₀.follow (cmds.filter (·.name == name))) := by
  induction cmds generalizing watch s with
  | nil =>
    refine ⟨watch.getD 0, fun k' hk => ?_, fun s₀ htwin hlookup => ⟨rfl, hlookup, fun r => htwin.same_run⟩⟩
    rw [hk]
    rfl
  | cons c cs ih =>
    have hsub := (List.sublist_cons_self c cs).filterMap Command.starts?
    have hfair' : ∀ c ∈ cs, c.Fair name := fun d hd => hfair d (List.mem_cons_of_mem _ hd)
    have honce' : (cs.filterMap Command.starts?).count name ≤ 1 := Nat.le_trans (hsub.count_le name) honce
    by_cases hname : c.name = name
    · obtain ⟨watch', hgrows, hstanding, hstart', htwins⟩ :=
        obey_own (hfair c List.mem_cons_self) hname honce h hstart
      obtain ⟨k, hk, hrest⟩ := ih hfair' honce' hstanding hstart'
      refine ⟨k, fun k' hk' => hk k' (hgrows k' hk'), fun s₀ htwin hlookup => ?_⟩
      obtain ⟨hheard, htwin', hlookup'⟩ := htwins htwin hk hlookup
      exact .own hname hheard (hrest _ htwin' hlookup')
    · have hbeside := obey_beside h.orderly (hfair c List.mem_cons_self) hname
      have hstart' : (s.obey c).2.Startable name watch cs := by
        rcases hstart with ⟨hwatch, hnone⟩ | hnever
        · exact .inl ⟨hwatch, (hbeside 0).lookup.trans hnone⟩
        · exact .inr fun hmem => hnever (hsub.subset hmem)
      obtain ⟨k, hk, hrest⟩ := ih hfair' honce' (h.beside hbeside) hstart'
      refine ⟨k, hk, fun s₀ htwin hlookup => .other hname (hrest s₀ (htwin.beside hbeside) ?_)⟩
      exact hlookup.trans (hbeside 0).lookup.symm

end Session

/-- **Jobs do not interfere.** Let jobs be started and polled in any order, and let the turns of each keep to its run;
jobs may be started in turns of others too. Take one that is started once, and starts none itself. It comes out as it
does alone, with the commands for the others left out, be it finished or put off: the same is heard of it, and its run
has seen the same nodes and been given the same answers, and has the same text. Runs are numbered as they start, and
nodes bear the number of their run, so alone it is to be in a session where the next run gets the same number `k`. -/
theorem jobs_independent (adapters : Array Adapter) (cmds : List Command) (name : String)
    (hfair : ∀ c ∈ cmds, c.Fair name) (honce : (cmds.filterMap Command.starts?).count name ≤ 1) :
    ∃ k, ∀ s₀ : Session, s₀.runs.size = k → (∀ b, s₀.adapter? b = adapters[b]?) → s₀.tasks.lookup name = none →
      Undisturbed name k ((Session.ofAdapters adapters).follow cmds) (s₀.follow (cmds.filter (·.name == name))) := by
  have hstanding : (Session.ofAdapters adapters).Standing (Job.Other name) name none := by
    refine ⟨Session.orderly_ofAdapters adapters _ name, fun t ht => ?_⟩
    cases ht
  obtain ⟨k, -, hall⟩ := Session.follow_undisturbed hfair honce hstanding (.inl ⟨rfl, rfl⟩)
  refine ⟨k, fun s₀ hsize hadapter hfree => hall s₀ (.ahead hsize fun b => ?_) hfree⟩
  rw [hadapter, Session.adapter?_ofAdapters]

/-- The first of two jobs starts a third in its turn and waits, and the second puts off an override. Polls of the two
alternate. -/
theorem jobs_independent_second :
    let adapter : Adapter := { name := "any", isNode := fun _ => true }
    let leaf : Tree := { kind := "leaf", span := ⟨0, 1⟩ }
    let job (name : String) : Job :=
      { name, binding := 0, code := "x", parsePolls := none, parsed := .ok leaf, sharedTree := true, map := {},
        lookups := [] }
    let double : Manipulator := fun _ node =>
      .call (.note (.visit node)) fun _ => .call (.source (.helpers node) node) fun
        | .ok text => .defer (.call (.override (.helpers node) node (text ++ text)) fun _ => .done (.ok ()))
        | .error e => .done (.error e)
    let busy : Manipulator := fun _ _ => .start (job "third") double fun _ => .wait 1 (.done (.ok ()))
    let cmds : List Command :=
      [.start (job "first") busy, .start (job "second") double, .poll "first" 1, .poll "second" 1, .poll "first" 1]
    (∀ c ∈ cmds, c.Fair "second") ∧ (cmds.filterMap Command.starts?).count "second" ≤ 1 ∧
    ∃ (k : RunId) (s₀ : Session), s₀.runs.size = k ∧ (∀ b, s₀.adapter? b = #[adapter][b]?) ∧ s₀.tasks = [] ∧
      Undisturbed "second" k ((Session.ofAdapters #[adapter]).follow cmds)
        (s₀.follow (cmds.filter (·.name == "second"))) := by
  intro adapter leaf job double busy cmds
  have hdouble : ∀ may, Manipulator.Within may double := by
    intro may seen node _
    refine ⟨trivial, fun _ _ => ⟨⟨rfl, rfl⟩, fun answer _ => ?_⟩⟩
    cases answer with
    | ok text => exact ⟨⟨rfl, rfl⟩, fun _ _ => trivial⟩
    | error e => trivial
  have hbusy : Manipulator.Within (Job.Other "second") busy := by
    intro seen node _
    have hthird : (job "third").Other "second" := by
      rw [Job.Other]
      decide
    exact ⟨hthird, hdouble _, fun _ => trivial⟩
  have hfair : ∀ c ∈ cmds, c.Fair "second" := by
    intro c hc
    simp only [cmds, List.mem_cons, List.not_mem_nil, or_false] at hc
    rcases hc with rfl | rfl | rfl | rfl | rfl
    · refine ⟨fun heq => ?_, fun _ => hbusy⟩
      have : "first" ≠ "second" := by decide
      exact absurd heq this
    · exact ⟨fun _ => hdouble _, fun _ => hdouble _⟩
    · trivial
    · trivial
    · trivial
  have honce : (cmds.filterMap Command.starts?).count "second" ≤ 1 := by decide
  obtain ⟨k, hk⟩ := jobs_independent #[adapter] cmds "second" hfair honce
  -- a session in which `k` runs have failed
  let past : Run :=
    { id := 0, binding := 0, key := .ofRun 0, arena := .ofTree leaf, buffer := { base := [] }, map := {},
      phase := .failed, held := false }
  let s₀ : Session := { Session.ofAdapters #[adapter] with runs := .replicate k past }
  have hsize : s₀.runs.size = k := Array.size_replicate
  have hadapter : ∀ b, s₀.adapter? b = #[adapter][b]? := Session.adapter?_ofAdapters #[adapter]
  exact ⟨hfair, honce, k, s₀, hsize, hadapter, rfl, hk s₀ hsize hadapter rfl⟩

end TreeEdit
