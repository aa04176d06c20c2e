import TreeEdit.Engine.Walk

/-!
# Polling to the end

A job may have to be polled before it is finished: its parse may stay pending for some polls, and so may
turns that put off what they do. When no turn waits for ever (`Turn.Terminates`), each poll gets something
out of the way, and some number of polls finishes the job (`exists_polls_finished`).
-/

namespace TreeEdit

/-- However it is answered, the turn does not wait for ever. -/
def Turn.Terminates : Turn → Prop
  | .done _ => True
  | .call _ next => ∀ a, (next a).Terminates
  | .start _ _ next => ∀ started, (next started).Terminates
  | .defer next => next.Terminates
  | .wait _ next => next.Terminates
  | .never => False

theorem Turn.terminates_exec {polled : Bool} {run : Option RunId} {turn rest : Turn}
    (h : turn.Terminates) {s s' : Session} (hexec : turn.exec polled run s = (.suspended rest, s')) :
    rest.Terminates := by
  induction turn generalizing s with
  | done result => cases hexec
  | call q next ih => exact ih _ (h _) hexec
  | start job manipulator next _ ih => exact ih _ (h _) hexec
  | defer next ih =>
    rw [Turn.exec] at hexec
    split at hexec
    · exact ih h hexec
    · cases hexec
      exact h
  | wait polls next ih =>
    cases polls with
    | zero => exact ih h hexec
    | succ n =>
      cases hexec
      exact h
  | never => exact absurd h id

/-- In whatever session, some number of polls finishes the task. -/
def Task.Ends (t : Task) : Prop :=
  ∀ s : Session, ∃ polls result, (s.pollTimes t polls).1 = .finished result

/-- The transformation is finished, or some number of polls will finish it. -/
def Progression.Ends : Progression → Prop
  | .finished _ => True
  | .pending t => t.Ends

theorem Task.ends_of_pollTask {t : Task} (h : ∀ s : Session, (s.pollTask t).1.Ends) : t.Ends := by
  intro s
  have hends := h s
  obtain ⟨progression, s', hpoll⟩ : ∃ p s', s.pollTask t = (p, s') := ⟨_, _, rfl⟩
  rw [hpoll] at hends
  cases progression with
  | finished result =>
    refine ⟨1, result, ?_⟩
    rw [Session.pollTimes, hpoll]
  | pending t' =>
    obtain ⟨polls, result, hresult⟩ := hends s'
    refine ⟨polls + 1, result, ?_⟩
    rw [Session.pollTimes, hpoll]
    exact hresult

namespace Session

variable {job : Job} {m : Manipulator} {run : RunId}

theorem pollTask_walking_ends {rest : List WalkStep} {node : Node}
    (hrest : ∀ s, (walkOn (fun seen node => (m seen node).exec true (some run)) run job m rest s).1.Ends)
    {turn : Turn} (h : turn.Terminates) (s : Session) :
    (s.pollTask (.walking run node turn rest job m)).1.Ends := by
  induction turn generalizing s with
  | done result =>
    cases result with
    | error e => exact trivial
    | ok u => exact hrest _
  | call q next ih => exact ih _ (h _) _
  | start job' manipulator next _ ih => exact ih _ (h _) _
  | defer next ih => exact ih h s
  | wait polls next ih =>
    induction polls generalizing s with
    | zero => exact ih h s
    | succ n ihn => exact Task.ends_of_pollTask (ihn h)
  | never => exact absurd h id

theorem walkOn_ends (hm : ∀ seen node, (m seen node).Terminates) (polled : Bool)
    (steps : List WalkStep) (s : Session) :
    (walkOn (fun seen node => (m seen node).exec polled (some run)) run job m steps s).1.Ends := by
  induction steps generalizing polled s with
  | nil => exact trivial
  | cons step rest ih =>
    cases step with
    | enter node => exact ih polled _
    | visit node =>
      simp only [walkOn, walk]
      cases hexec : (m (s.transcript node.run) node).exec polled (some run)
          (s.modifyRun node.run fun r => (r.advance node.id .running).record (.visited node)) with
      | mk ended s' =>
        cases ended with
        | suspended turn =>
          have hturn := Turn.terminates_exec (hm _ node) hexec
          exact Task.ends_of_pollTask (pollTask_walking_ends (ih true) hturn)
        | finished result =>
          cases result with
          | error e => exact trivial
          | ok u => exact ih polled _

theorem begin_ends (hm : ∀ seen node, (m seen node).Terminates) (polled : Bool) (s : Session) :
    (begin (fun run seen node => (m seen node).exec polled (some run)) job m s).1.Ends := by
  rw [begin]
  split
  · exact trivial
  · split
    · exact trivial
    · exact walkOn_ends hm polled _ _

theorem parsing_ends (hm : ∀ seen node, (m seen node).Terminates) (polls : Nat) :
    (Task.parsing polls job m).Ends := by
  induction polls with
  | zero => exact Task.ends_of_pollTask (begin_ends hm true)
  | succ n ih => exact Task.ends_of_pollTask fun s => ih

/-! ## Jobs -/

/-- What polling a job came to, if it is finished; else it is kept for later. -/
def outcomeOf (name : String) : Progression × Nat × Session →
    Option (Except TransformError Report) × Session
  | (.finished result, _, s) => (some result, s)
  | (.pending t, _, s) => (none, s.putTask name t)

/-- Starts a job and polls it a number of times: what it came to, if it is finished. -/
def transform (s : Session) (job : Job) (m : Manipulator) (polls : Nat) :
    Option (Except TransformError Report) × Session :=
  match s.start job m with
  | (.finished result, s) => (some result, s)
  | (.deferred, s) =>
    match s.poll job.name polls with
    | (.finished result _, s) => (some result, s)
    | (_, s) => (none, s)

theorem takeTask_putTask (s : Session) (name : String) (t : Task) :
    ∃ s', (s.putTask name t).takeTask name = some (t, s') ∧ s'.runs = (s.putTask name t).runs := by
  have htasks : (s.putTask name t).tasks = putNamed name t s.tasks := by
    rw [putTask]
    split
    · rfl
    · rw [release]
      split <;> rfl
  have hlookup : (s.putTask name t).tasks.lookup name = some t := by
    rw [htasks, putNamed, List.lookup_cons_self]
  rw [takeTask, hlookup]
  exact ⟨_, rfl, rfl⟩

theorem transform_of_deferred {s s' : Session} {t : Task}
    (h : s.start job m = (.deferred, s'.putTask job.name t)) :
    ∃ s₁ : Session, s₁.runs = (s'.putTask job.name t).runs ∧
      ∀ polls, s.transform job m polls = outcomeOf job.name (s₁.pollTimes t polls) := by
  obtain ⟨s₁, htake, hruns⟩ := takeTask_putTask s' job.name t
  refine ⟨s₁, hruns, fun polls => ?_⟩
  simp only [transform, h, poll, htake]
  obtain ⟨progression, k, s₂⟩ := s₁.pollTimes t polls
  cases progression with
  | finished result => rfl
  | pending t' => rfl

theorem start_cases (s : Session) (job : Job) (m : Manipulator) :
    (∃ n, job.parsePolls = some n ∧
      s.start job m = (.deferred, s.putTask job.name (.parsing n job m))) ∨
    job.parsePolls = none ∧
      ((∃ result s', begin (fun run seen node => (m seen node).exec false (some run)) job m s =
          (.finished result, s') ∧ s.start job m = (.finished result, s')) ∨
        ∃ t s', begin (fun run seen node => (m seen node).exec false (some run)) job m s =
          (.pending t, s') ∧ s.start job m = (.deferred, s'.putTask job.name t)) := by
  rw [start, launch]
  cases job.parsePolls with
  | some n => exact .inl ⟨n, rfl, rfl⟩
  | none =>
    refine .inr ⟨rfl, ?_⟩
    simp only
    obtain ⟨progression, s'⟩ :=
      begin (fun run seen node => (m seen node).exec false (some run)) job m s
    cases progression with
    | finished result => exact .inl ⟨result, s', rfl, rfl⟩
    | pending t => exact .inr ⟨t, s', rfl, rfl⟩

/-- **Every job is finished in the end**, if no turn of its manipulator waits for ever. -/
theorem exists_polls_finished (hm : ∀ seen node, (m seen node).Terminates) (s : Session) :
    ∃ polls result, (s.transform job m polls).1 = some result := by
  have hdeferred : ∀ {t s'}, t.Ends → s.start job m = (.deferred, putTask s' job.name t) →
      ∃ polls result, (s.transform job m polls).1 = some result := by
    intro t s' hends hstart
    obtain ⟨s₁, -, hpolls⟩ := transform_of_deferred hstart
    obtain ⟨polls, result, hresult⟩ := hends s₁
    refine ⟨polls, result, ?_⟩
    rw [hpolls]
    generalize s₁.pollTimes t polls = polled at hresult ⊢
    obtain ⟨progression, k, s₂⟩ := polled
    obtain rfl : progression = .finished result := hresult
    rfl
  rcases start_cases s job m with
    ⟨n, -, hstart⟩ | ⟨-, ⟨result, s', -, hstart⟩ | ⟨t, s', hbegin, hstart⟩⟩
  · exact hdeferred (parsing_ends hm n) hstart
  · refine ⟨0, result, ?_⟩
    rw [transform, hstart]
  · have hends : (begin (fun run seen node => (m seen node).exec false (some run)) job m s).1.Ends :=
      begin_ends hm false s
    rw [hbegin] at hends
    exact hdeferred hends hstart

end Session

end TreeEdit
