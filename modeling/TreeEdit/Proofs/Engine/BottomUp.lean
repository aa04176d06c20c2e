import TreeEdit.Proofs.Engine.Polling
import TreeEdit.Proofs.Engine.Turnwise

/-!
# Bottom-up rewriting

A manipulator that keeps to the node at hand rewrites a tree from the bottom up: by the time a node has its
turn, its text shows the children as they were rewritten, and in the end the root stands in the text as it
was rewritten (`transform_rewritesBottomUp`).

What is known of a run between and within turns (`Run.AfterTurns`, `Run.InTurn`) is carried through a session
here: through a turn (`Turn.exec_inTurn`), a walk (`walk_walked`), the start of a job and each poll of it
(`begin_underway`, `pollTask_underway`), and so through any number of polls (`pollTimes_underway`).
-/

namespace TreeEdit

def TurnEnd.rest : TurnEnd → Turn
  | .finished result => .done result
  | .suspended turn => turn

namespace Session

theorem runs_modifyRun (s : Session) (run : RunId) (f : Run → Run) :
    (s.modifyRun run f).runs[run]? = (s.runs[run]?).map f := by
  rw [modifyRun, Array.getElem?_modify, if_pos rfl]

theorem runs_modifyRun_of_some {s : Session} {j k : RunId} {r : Run} (h : j = k) (hr : s.runs[k]? = some r)
    (f : Run → Run) : (s.modifyRun j f).runs[k]? = some (f r) := by
  rw [h, runs_modifyRun, hr, Option.map_some]

theorem transcript_of_runs {s : Session} {run : RunId} {r : Run} (hr : s.runs[run]? = some r) :
    s.transcript run = r.transcript := by
  rw [transcript, hr]

section

variable {s : Session} {v : Node} {r : Run}

theorem resolve_own (hr : s.runs[v.run]? = some r) (hheld : r.held = true) :
    s.resolve (.helpers v) v = .node v.run v.id := by
  have halive : s.alive v.run = true := by simp [alive, hr, hheld]
  simp only [resolve, halive, Bool.not_true, Bool.false_eq_true, if_false]
  split
  · rfl
  · rfl

theorem respond_source (hr : s.runs[v.run]? = some r) (hheld : r.held = true) :
    s.respond (some v.run) (.source (.helpers v) v) =
      (r.source v.id,
        s.modifyRun v.run (·.record (.answered (.source (.helpers v) v) (r.source v.id)))) := by
  have hsource : s.source (.helpers v) v = r.source v.id := by
    rw [source, resolve_own hr hheld]
    simp only [hr]
  simp only [respond, perform, hsource]
  rfl

theorem respond_override (hr : s.runs[v.run]? = some r) (hheld : r.held = true) {new : String} {r' : Run}
    (hok : r.override v.id new = .ok r') :
    s.respond (some v.run) (.override (.helpers v) v new) =
      (.ok (), { s with runs := s.runs.modify v.run fun _ => r' }.modifyRun v.run
        (·.record (.answered (.override (.helpers v) v new) (.ok ())))) := by
  have hover : s.override (.helpers v) v new =
      .ok { s with runs := s.runs.modify v.run fun _ => r' } := by
    rw [override, resolve_own hr hheld]
    simp only [hr, hok]
    rfl
  simp only [respond, perform, hover]

end

end Session

section

variable {text : List Char} {root : Tree} {key : TreeKey} {m : Manipulator} {done todo : List Node}
  {v : Node}

/-- **A turn, as far as it goes**, keeps to its node, and no task is touched. -/
theorem Turn.exec_inTurn (hroot : root.Fits text) (hall : root.postorder v.run key 0 = done ++ v :: todo)
    (polled : Bool) (turn : Turn) {s : Session} {r : Run} (hr : s.runs[v.run]? = some r)
    (h : r.InTurn text m done v todo turn) :
    ∃ r', (turn.exec polled (some v.run) s).2.runs[v.run]? = some r' ∧
      r'.InTurn text m done v todo (turn.exec polled (some v.run) s).1.rest ∧
      (turn.exec polled (some v.run) s).2.tasks = s.tasks := by
  induction turn generalizing s r with
  | done result => exact ⟨r, hr, h, rfl⟩
  | call q next ih =>
    obtain ⟨hq, -⟩ := h.own
    rcases hq with rfl | ⟨new, rfl⟩
    · rw [Turn.exec, Session.respond_source hr h.after.held]
      exact ih _ (by rw [Session.runs_modifyRun, hr]; rfl) (h.source hroot hall)
    · obtain ⟨r', hok, hnext⟩ := h.override hroot hall
      rw [Turn.exec, Session.respond_override hr h.after.held hok]
      refine ih _ ?_ hnext
      rw [Session.runs_modifyRun, Array.getElem?_modify, if_pos rfl, hr]
      rfl
  | start job manipulator next ihm ih => exact absurd h.own id
  | defer next ih =>
    have hnext : r.InTurn text m done v todo next := h.wait h.own fun _ _ => .defer
    rw [Turn.exec]
    split
    · exact ih hr hnext
    · exact ⟨r, hr, hnext, rfl⟩
  | wait polls next ih =>
    cases polls with
    | zero => exact ih hr (h.wait h.own fun _ _ => .wait)
    | succ n =>
      refine ⟨r, hr, h.wait h.own fun _ _ hgives => ?_, rfl⟩
      cases hgives with
      | wait hgives => exact .wait hgives
  | never => exact ⟨r, hr, h, rfl⟩

end

/-! ## Walks -/

/-- A job over a tree that fits its text, done by a manipulator that keeps to the node at hand. -/
structure OwnNodeJob (job : Job) (m : Manipulator) (root : Tree) : Prop where
  parsed : job.parsed = .ok root
  fits : root.Fits job.code.toList
  own : ∀ seen node, (m seen node).OwnNodeOnly node

def Job.nodes (job : Job) (root : Tree) (run : RunId) : List Node :=
  root.postorder run (if job.sharedTree then .ofBinding job.binding else .ofRun run) 0

/-- The last turn that was begun came to the error. -/
def Failed (m : Manipulator) (seen : Transcript) (e : TransformError) : Prop :=
  ∃ before v answers, seen = answers.reverse ++ .visited v :: before ∧
    (m before v).Gives answers (.error e)

theorem Run.InTurn.failed {text : List Char} {m : Manipulator} {done todo : List Node} {v : Node}
    {e : TransformError} {r : Run} (h : r.InTurn text m done v todo (.done (.error e))) :
    Failed m r.transcript e := by
  obtain ⟨before, answers, htranscript, hsince⟩ := h.since
  have hgives := hsince [] (.error e) (.done _)
  rw [List.append_nil] at hgives
  exact ⟨before, v, answers, htranscript, hgives⟩

namespace Session

variable {job : Job} {m : Manipulator} {root : Tree} {run : RunId}

/-- How things stand with a run whose walk has come so far. -/
def Walked (job : Job) (m : Manipulator) (root : Tree) (run : RunId) : WalkEnd → Session → Prop
  | .suspended node turn rest, s =>
    ∃ done r, job.nodes root run = done ++ node :: visits rest ∧ node.run = run ∧
      (∀ step ∈ rest, step.node.run = run) ∧ s.runs[run]? = some r ∧
      r.InTurn job.code.toList m done node (visits rest) turn
  | .finished (.ok ()), s =>
    ∃ r, s.runs[run]? = some r ∧ r.AfterTurns job.code.toList (job.nodes root run) []
  | .finished (.error e), s =>
    ∃ r, s.runs[run]? = some r ∧ Faithful job.code.toList (job.nodes root run) r.transcript ∧
      Failed m r.transcript e

theorem walked_error {done todo : List Node} {v : Node} {e : TransformError} {s : Session} {r : Run}
    (hall : job.nodes root v.run = done ++ v :: todo) (hr : s.runs[v.run]? = some r)
    (h : r.InTurn job.code.toList m done v todo (.done (.error e))) :
    Walked job m root v.run (.finished (.error e)) (s.endTurn v) := by
  refine ⟨r.advance v.id .handled, ?_, h.faithful hall, h.failed⟩
  rw [endTurn, runs_modifyRun, hr]
  rfl

theorem afterTurns_endTurn {done todo : List Node} {v : Node} {turn : Turn} {s : Session} {r : Run}
    (hall : job.nodes root v.run = done ++ v :: todo) (hr : s.runs[v.run]? = some r)
    (h : r.InTurn job.code.toList m done v todo turn) :
    (s.endTurn v).runs[v.run]? = some (r.advance v.id .handled) ∧
      (r.advance v.id .handled).AfterTurns job.code.toList (done ++ [v]) todo := by
  refine ⟨?_, h.endTurn (Tree.id_of_split hall).2.2⟩
  rw [endTurn, runs_modifyRun, hr]
  rfl

theorem walk_walked (hjob : OwnNodeJob job m root) (polled : Bool) {steps : List WalkStep}
    (hrun : ∀ step ∈ steps, step.node.run = run) {done : List Node}
    (hall : job.nodes root run = done ++ visits steps) {s : Session} {r : Run}
    (hr : s.runs[run]? = some r) (h : r.AfterTurns job.code.toList done (visits steps)) :
    Walked job m root run
      (walk (fun seen node => (m seen node).exec polled (some run)) steps s).1
      (walk (fun seen node => (m seen node).exec polled (some run)) steps s).2 ∧
    (walk (fun seen node => (m seen node).exec polled (some run)) steps s).2.tasks = s.tasks := by
  induction steps generalizing done s r with
  | nil =>
    refine ⟨⟨r, hr, ?_⟩, rfl⟩
    rw [hall]
    simpa [visits] using h
  | cons step rest ih =>
    have hrest : ∀ step ∈ rest, step.node.run = run := fun d hd => hrun d (by simp [hd])
    cases step with
    | enter node =>
      obtain rfl : node.run = run := hrun (.enter node) (by simp)
      rw [walk]
      refine ih hrest hall (r := r.advance node.id .traversingChildren) ?_ (h.advance (.inl (by decide)))
      rw [runs_modifyRun, hr]
      rfl
    | visit node =>
      obtain rfl : node.run = run := hrun (.visit node) (by simp)
      have hin := h.visit (hjob.own r.transcript node)
      have hr₁ : (s.modifyRun node.run fun r =>
          (r.advance node.id .running).record (.visited node)).runs[node.run]? =
          some ((r.advance node.id .running).record (.visited node)) := by
        rw [runs_modifyRun, hr]
        rfl
      obtain ⟨r', hr', hin', htasks⟩ := Turn.exec_inTurn hjob.fits hall polled _ hr₁ hin
      simp only [walk, transcript_of_runs hr]
      generalize (m r.transcript node).exec polled (some node.run) _ = ended at hr' hin' htasks ⊢
      obtain ⟨ended, s₂⟩ := ended
      cases ended with
      | suspended turn => exact ⟨⟨done, r', hall, rfl, hrest, hr', hin'⟩, htasks⟩
      | finished result =>
        cases result with
        | error e => exact ⟨walked_error hall hr' hin', htasks⟩
        | ok u =>
          obtain ⟨hr₂, hend⟩ := afterTurns_endTurn hall hr' hin'
          obtain ⟨hwalked, htasks'⟩ := ih hrest (by rw [hall, visits_visit, List.append_cons]) hr₂ hend
          exact ⟨hwalked, htasks'.trans htasks⟩

/-! ## Jobs -/

/-- What a job came to, by what its run has seen: the original text with the rewritten root in its place, or
the error of the last turn. -/
def Outcome (job : Job) (m : Manipulator) (root : Tree) (seen : Transcript) :
    Except TransformError Report → Prop
  | .ok report =>
    report.code = String.ofList (Text.splice job.code.toList (Text.size job.code.toList) 0
      [(root.span, root.rewritten job.code.toList (lastOverride seen) 0)])
  | .error e => Failed m seen e

/-- How things stand with a job that has come so far, and is to have the given run. -/
def Underway (job : Job) (m : Manipulator) (root : Tree) (run : RunId) : Progression → Session → Prop
  | .finished result, s =>
    Faithful job.code.toList (job.nodes root run) (s.transcript run) ∧
      Outcome job m root (s.transcript run) result
  | .pending (.walking run' node turn rest job' m'), s =>
    run' = run ∧ job' = job ∧ m' = m ∧ Walked job m root run (.suspended node turn rest) s
  | .pending (.parsing _ job' m'), s => job' = job ∧ m' = m ∧ s.runs.size = run

theorem Outcome.of_afterTurns (hjob : OwnNodeJob job m root) {r : Run}
    (h : r.AfterTurns job.code.toList (job.nodes root run) []) (lookups : List Position) :
    Outcome job m root r.transcript (.ok (r.report lookups)) := by
  have hreplaced := h.replaced.trans (standing_postorder hjob.fits.nested 0)
  have hvalid : ∀ n ∈ job.nodes root run, Arena.validSpan r.buffer.base n.span = true := by
    intro n hn
    rw [h.sound.base]
    exact hjob.fits.validSpan hn
  have hcode := h.sound.buffer.code_eq_rewritten h.bare hjob.fits.nested hvalid hreplaced
  rw [Buffer.size, h.sound.base] at hcode
  exact congrArg String.ofList hcode

theorem finish_outcome (hjob : OwnNodeJob job m root) {walked : Except TransformError Unit} {s : Session}
    (h : Walked job m root run (.finished walked) s) :
    Underway job m root run (.finished (s.finish run job walked).1) (s.finish run job walked).2 ∧
      (s.finish run job walked).2.tasks = s.tasks := by
  cases walked with
  | ok u =>
    obtain ⟨r, hr, hafter⟩ := h
    have hfinish : s.finish run job (.ok u) = (.ok (r.report job.lookups),
        (s.modifyStore job.binding fun store => store.filter (· != run)).modifyRun run
          fun r => { r with phase := .completed }) := by
      have hr' : (s.modifyStore job.binding fun store => store.filter (· != run)).runs[run]? = some r := hr
      simp only [finish, hr']
    have hr' : (s.finish run job (.ok u)).2.runs[run]? = some { r with phase := .completed } := by
      rw [hfinish, runs_modifyRun, modifyStore, hr]
      rfl
    refine ⟨?_, by rw [hfinish]; rfl⟩
    rw [Underway, transcript_of_runs hr', hfinish]
    exact ⟨hafter.faithful, .of_afterTurns hjob hafter job.lookups⟩
  | error e =>
    obtain ⟨r, hr, hfaithful, hfailed⟩ := h
    have hr' : (s.finish run job (.error e)).2.runs[run]? = some { r with phase := .failed } := by
      rw [finish, runs_modifyRun, modifyStore, hr]
      rfl
    refine ⟨?_, rfl⟩
    rw [Underway, transcript_of_runs hr']
    exact ⟨hfaithful, hfailed⟩

theorem walkOn_underway (hjob : OwnNodeJob job m root) (polled : Bool) {steps : List WalkStep}
    (hrun : ∀ step ∈ steps, step.node.run = run) {done : List Node}
    (hall : job.nodes root run = done ++ visits steps) {s : Session} {r : Run}
    (hr : s.runs[run]? = some r) (h : r.AfterTurns job.code.toList done (visits steps)) :
    Underway job m root run
      (walkOn (fun seen node => (m seen node).exec polled (some run)) run job m steps s).1
      (walkOn (fun seen node => (m seen node).exec polled (some run)) run job m steps s).2 ∧
    (walkOn (fun seen node => (m seen node).exec polled (some run)) run job m steps s).2.tasks =
      s.tasks := by
  obtain ⟨hwalked, htasks⟩ := walk_walked hjob polled hrun hall hr h
  rw [walkOn]
  generalize walk (fun seen node => (m seen node).exec polled (some run)) steps s = ended
    at hwalked htasks ⊢
  obtain ⟨ended, s'⟩ := ended
  cases ended with
  | suspended node turn rest => exact ⟨⟨rfl, rfl, rfl, hwalked⟩, htasks⟩
  | finished walked =>
    obtain ⟨hunder, htasks'⟩ := finish_outcome hjob hwalked
    exact ⟨hunder, htasks'.trans htasks⟩

theorem addRun_afterTurns (hvalid : ∀ u ∈ root.preorder, Arena.validSpan job.code.toList u.span = true)
    (s : Session) :
    ∃ r, (s.addRun job (Arena.ofTree root)).2.runs[s.runs.size]? = some r ∧
      r.AfterTurns job.code.toList [] (job.nodes root s.runs.size) := by
  have hreg : Arena.register job.code.toList root = .ok (Arena.ofTree root) :=
    Arena.register_eq_ok_iff.mpr ⟨rfl, hvalid⟩
  refine ⟨_, by rw [addRun, modifyStore, Array.getElem?_push_size], ?_⟩
  refine ⟨Run.sound_of_register hreg rfl, rfl, rfl, rfl, rfl, fun n hn => ⟨?_, rfl⟩, .nil⟩
  obtain ⟨e, he, htree⟩ := Arena.exists_of_preorder (Tree.getElem?_preorder hn)
  refine ⟨e, he, htree, ?_⟩
  rw [Arena.state_of_ofTree he]
  decide

theorem begin_underway (hjob : OwnNodeJob job m root) (polled : Bool) (s : Session) :
    Underway job m root s.runs.size
      (begin (fun run seen node => (m seen node).exec polled (some run)) job m s).1
      (begin (fun run seen node => (m seen node).exec polled (some run)) job m s).2 ∧
    (begin (fun run seen node => (m seen node).exec polled (some run)) job m s).2.tasks = s.tasks := by
  have hreg : Arena.register job.code.toList root = .ok (Arena.ofTree root) :=
    Arena.register_eq_ok_iff.mpr ⟨rfl, hjob.fits.valid⟩
  obtain ⟨r, hr, hafter⟩ := addRun_afterTurns hjob.fits.valid s
  rw [Job.nodes, ← Tree.visits_plan] at hafter
  simp only [begin, hjob.parsed, hreg]
  have hall : job.nodes root s.runs.size = [] ++ visits (root.plan s.runs.size
      (if job.sharedTree then .ofBinding job.binding else .ofRun s.runs.size)) := by
    rw [Tree.visits_plan]
    rfl
  exact walkOn_underway hjob polled (fun step => Tree.run_of_mem_plan) hall hr hafter

theorem pollTask_underway (hjob : OwnNodeJob job m root) {s : Session} {t : Task}
    (h : Underway job m root run (.pending t) s) :
    Underway job m root run (s.pollTask t).1 (s.pollTask t).2 := by
  cases t with
  | parsing polls job' m' =>
    obtain ⟨rfl, rfl, rfl⟩ := h
    cases polls with
    | zero => exact (begin_underway hjob true s).1
    | succ n => exact ⟨rfl, rfl, rfl⟩
  | walking run' node turn rest job' m' =>
    obtain ⟨rfl, rfl, rfl, done, r, hall, rfl, hrest, hr, hin⟩ := h
    obtain ⟨r', hr', hin', -⟩ := Turn.exec_inTurn hjob.fits hall true turn hr hin
    rw [pollTask]
    generalize turn.exec true (some node.run) s = ended at hr' hin' ⊢
    obtain ⟨ended, s'⟩ := ended
    cases ended with
    | suspended turn' => exact ⟨rfl, rfl, rfl, done, r', hall, rfl, hrest, hr', hin'⟩
    | finished result =>
      cases result with
      | error e => exact (finish_outcome hjob (walked_error hall hr' hin')).1
      | ok u =>
        obtain ⟨hr₂, hend⟩ := afterTurns_endTurn hall hr' hin'
        exact (walkOn_underway hjob true hrest (by rw [hall, List.append_cons]) hr₂ hend).1

theorem pollTimes_underway (hjob : OwnNodeJob job m root) (polls : Nat) {s : Session} {t : Task}
    (h : Underway job m root run (.pending t) s) :
    Underway job m root run (s.pollTimes t polls).1 (s.pollTimes t polls).2.2 := by
  induction polls generalizing s t with
  | zero => exact h
  | succ n ih =>
    have hpoll := pollTask_underway hjob h
    rw [pollTimes]
    generalize s.pollTask t = polled at hpoll ⊢
    obtain ⟨progression, s'⟩ := polled
    cases progression with
    | finished result => exact hpoll
    | pending t' => exact ih hpoll

/-! ## Jobs in a session -/

theorem runs_release (s : Session) (t : Task) (run : RunId) :
    (s.release t).runs.size = s.runs.size ∧ (s.release t).transcript run = s.transcript run ∧
      (t.run? ≠ some run → (s.release t).runs[run]? = s.runs[run]?) := by
  rw [release]
  cases t.run? with
  | none => exact ⟨rfl, rfl, fun _ => rfl⟩
  | some old =>
    refine ⟨Array.size_modify, ?_, fun hne => ?_⟩
    · simp only [modifyRun, transcript, Array.getElem?_modify]
      by_cases heq : old = run
      · rw [if_pos heq]
        cases s.runs[run]? <;> rfl
      · rw [if_neg heq]
    · simp only [modifyRun, Array.getElem?_modify]
      exact if_neg fun heq => hne (congrArg some heq)

theorem runs_putTask (s : Session) (name : String) (t : Task) (run : RunId) :
    (s.putTask name t).runs.size = s.runs.size ∧
      (s.putTask name t).transcript run = s.transcript run ∧
      ((∀ p ∈ s.tasks, p.2.run? ≠ some run) → (s.putTask name t).runs[run]? = s.runs[run]?) := by
  rw [putTask]
  split
  · exact ⟨rfl, rfl, fun _ => rfl⟩
  · rename_i old hold
    obtain ⟨hsize, hseen, hrun⟩ := runs_release { s with tasks := putNamed name t s.tasks } old run
    refine ⟨hsize, hseen, fun hne => hrun ?_⟩
    obtain ⟨front, back, htasks, -⟩ := List.lookup_eq_some_iff.mp hold
    exact hne (name, old) (by rw [htasks]; simp)

theorem Underway.frame {p : Progression} {s s' : Session} (h : Underway job m root run p s)
    (hsize : s'.runs.size = s.runs.size) (hrun : s'.runs[run]? = s.runs[run]?) :
    Underway job m root run p s' := by
  have hseen : s'.transcript run = s.transcript run := by rw [transcript, transcript, hrun]
  cases p with
  | finished result =>
    rw [Underway, hseen]
    exact h
  | pending t =>
    cases t with
    | walking run' node turn rest job' m' =>
      obtain ⟨hrun', hjob', hm', done, r, hall, hnode, hrest, hr, hin⟩ := h
      exact ⟨hrun', hjob', hm', done, r, hall, hnode, hrest, hrun.trans hr, hin⟩
    | parsing n job' m' => exact ⟨h.1, h.2.1, hsize.trans h.2.2⟩

theorem Underway.faithful {p : Progression} {s : Session} (h : Underway job m root run p s) :
    Faithful job.code.toList (job.nodes root run) (s.transcript run) := by
  cases p with
  | finished result => exact h.1
  | pending t =>
    cases t with
    | walking run' node turn rest job' m' =>
      obtain ⟨-, -, -, done, r, hall, -, -, hr, hin⟩ := h
      rw [transcript_of_runs hr]
      exact hin.faithful hall
    | parsing n job' m' =>
      have hnone : s.runs[run]? = none := by
        rw [← h.2.2]
        exact Array.getElem?_eq_none (Nat.le_refl _)
      rw [transcript, hnone]
      exact .nil

end Session

/-- What is expected of a job, by what its run has seen so far. -/
structure RewritesBottomUp (job : Job) (m : Manipulator) (root : Tree)
    (outcome : Option (Except TransformError Report)) (seen : Transcript) : Prop where
  /-- A node that is read is a node of the tree, and its text is given. As long as the node was not
  overridden, that is its original text with its children in the form they are rewritten to. -/
  source : ∀ later earlier actor n (answer : Except TransformError String),
    seen = later ++ .answered (.source actor n) answer :: earlier →
    root.preorder[n.id]? = some n.tree ∧ (∃ given, answer = .ok given) ∧
      (lastOverride earlier n.id = none → answer =
        .ok (String.ofList (n.tree.rewrittenBelow job.code.toList (lastOverride seen) n.id)))
  /-- A node that is overridden is a node of the tree, and that is not refused. -/
  override : ∀ actor n new (answer : Except TransformError Unit),
    .answered (.override actor n new) answer ∈ seen →
    root.preorder[n.id]? = some n.tree ∧ answer = .ok ()
  /-- A report has the original text with the root in the form it is rewritten to. -/
  code : ∀ report, outcome = some (.ok report) →
    report.code = String.ofList (Text.splice job.code.toList (Text.size job.code.toList) 0
      [(root.span, root.rewritten job.code.toList (lastOverride seen) 0)])
  /-- There is an error only if the last turn came to it. -/
  failed : ∀ e, outcome = some (.error e) → Failed m seen e

namespace Session

variable {job : Job} {m : Manipulator} {root : Tree} {run : RunId}

theorem Underway.rewritesBottomUp {p : Progression} {s : Session} (h : Underway job m root run p s)
    {outcome : Option (Except TransformError Report)}
    (houtcome : ∀ result, outcome = some result → p = .finished result) :
    RewritesBottomUp job m root outcome (s.transcript run) where
  source later earlier actor n answer heq := by
    obtain ⟨hn, rfl, hbelow⟩ := h.faithful.source later earlier actor n answer heq
    refine ⟨Tree.getElem?_preorder hn, ⟨_, rfl⟩, fun hnone => ?_⟩
    rw [Tree.rewritten_of_none _ hnone, Tree.rewrittenBelow_congr hbelow]
  override actor n new answer hmem := by
    obtain ⟨hn, hok⟩ := h.faithful.override actor n new answer hmem
    exact ⟨Tree.getElem?_preorder hn, hok⟩
  code report hreport := by
    rw [houtcome _ hreport] at h
    exact h.2
  failed e he := by
    rw [houtcome _ he] at h
    exact h.2

theorem rewritesBottomUp_of_deferred (hjob : OwnNodeJob job m root) {s s' : Session} {t : Task}
    (hstart : s.start job m = (.deferred, s'.putTask job.name t))
    (h : Underway job m root run (.pending t) (s'.putTask job.name t)) (polls : Nat) :
    RewritesBottomUp job m root (s.transform job m polls).1
      ((s.transform job m polls).2.transcript run) := by
  obtain ⟨s₁, hruns, htransform⟩ := transform_of_deferred hstart
  have hpolled := pollTimes_underway hjob polls (h.frame (congrArg _ hruns) (by rw [hruns]))
  rw [htransform]
  generalize s₁.pollTimes t polls = polled at hpolled ⊢
  obtain ⟨progression, k, s₂⟩ := polled
  cases progression with
  | finished result => exact hpolled.rewritesBottomUp fun result' h => by cases h; rfl
  | pending t' =>
    have hseen : (s₂.putTask job.name t').transcript run = s₂.transcript run :=
      (runs_putTask s₂ job.name t' run).2.1
    rw [outcomeOf, hseen]
    exact hpolled.rewritesBottomUp fun result' h => (nomatch h)

/-- **Bottom-up rewriting.** Let a job have a registered tree with nested spans, and a manipulator that in
the turn of a node does no more than read and override that node. However often it is polled, each such
request is granted, each text that is read before the first override of a node is the original text of its
span with the rewritten children in their places, and a job that does not fail gives the original text with
the rewritten root in its place. If no turn waits for ever, some number of polls finishes the job. -/
theorem transform_rewritesBottomUp (s : Session) (job : Job) (m : Manipulator) (root : Tree)
    (arena : Arena) (hparsed : job.parsed = .ok root)
    (hreg : Arena.register job.code.toList root = .ok arena) (hnested : root.Nested)
    (hown : ∀ seen node, (m seen node).OwnNodeOnly node)
    (htasks : ∀ p ∈ s.tasks, ∀ run, p.2.run? = some run → run < s.runs.size) :
    (∀ polls, RewritesBottomUp job m root (s.transform job m polls).1
      ((s.transform job m polls).2.transcript s.runs.size)) ∧
    ((∀ seen node, (m seen node).Terminates) →
      ∃ polls result, (s.transform job m polls).1 = some result) := by
  have hjob : OwnNodeJob job m root := ⟨hparsed, ⟨hnested, (Arena.register_eq_ok_iff.mp hreg).2⟩, hown⟩
  refine ⟨fun polls => ?_, fun hm => exists_polls_finished hm s⟩
  obtain ⟨hbegin, hkept⟩ := begin_underway hjob false s
  rcases start_cases s job m with
    ⟨n, -, hstart⟩ | ⟨-, ⟨result, s', heq, hstart⟩ | ⟨t, s', heq, hstart⟩⟩
  · refine rewritesBottomUp_of_deferred hjob hstart ⟨rfl, rfl, ?_⟩ polls
    exact (runs_putTask s job.name (.parsing n job m) s.runs.size).1
  · rw [heq] at hbegin
    rw [transform, hstart]
    exact hbegin.rewritesBottomUp fun result' h => by cases h; rfl
  · rw [heq] at hbegin hkept
    obtain ⟨hsize, -, hrun⟩ := runs_putTask s' job.name t s.runs.size
    -- the tasks that were there are of runs that had started before
    have hother : ∀ p ∈ s'.tasks, p.2.run? ≠ some s.runs.size := by
      intro p hp hpr
      rw [hkept] at hp
      exact Nat.lt_irrefl _ (htasks p hp _ hpr)
    exact rewritesBottomUp_of_deferred hjob hstart (hbegin.frame hsize (hrun hother)) polls

/-- Two nodes, one of them with a character of two bytes, and a root over the same range as both: each is
put in parentheses, after a poll in which nothing happens. -/
theorem transform_rewritesBottomUp_parentheses :
    let adapter : Adapter := { name := "any", isNode := fun _ => true }
    let root : Tree :=
      { kind := "pair", span := ⟨0, 3⟩, children := [
        { kind := "first", span := ⟨0, 2⟩ }, { kind := "second", span := ⟨2, 3⟩ }] }
    let job : Job :=
      { name := "job", binding := 0, code := "éx", parsePolls := some 1, parsed := .ok root,
        sharedTree := false, map := {}, lookups := [] }
    let m : Manipulator := fun _ node =>
      .call (.source (.helpers node) node) fun
        | .ok text =>
          .defer (.wait 1 (.call (.override (.helpers node) node ("(" ++ text ++ ")")) fun _ =>
            .done (.ok ())))
        | .error e => .done (.error e)
    let s : Session := { bindings := #[{ adapter }] }
    root.Nested ∧ (∀ seen node, (m seen node).OwnNodeOnly node) ∧
      (∀ polls, RewritesBottomUp job m root (s.transform job m polls).1
        ((s.transform job m polls).2.transcript 0)) ∧
      ∃ polls result, (s.transform job m polls).1 = some result := by
  intro adapter root job m s
  have hnested : root.Nested := by decide
  have hreg : Arena.register job.code.toList root = .ok (Arena.ofTree root) :=
    Arena.register_eq_ok_iff.mpr ⟨rfl, by decide⟩
  have hown : ∀ seen node, (m seen node).OwnNodeOnly node := by
    intro seen node
    refine ⟨.inl rfl, fun answer => ?_⟩
    cases answer with
    | ok text => exact ⟨.inr ⟨_, rfl⟩, fun _ => trivial⟩
    | error e => trivial
  have hends : ∀ seen node, (m seen node).Terminates := by
    intro seen node answer
    cases answer with
    | ok text => exact fun _ => trivial
    | error e => trivial
  obtain ⟨hpolls, hfinished⟩ := transform_rewritesBottomUp s job m root (Arena.ofTree root) rfl hreg hnested
    hown fun p hp => (nomatch hp)
  exact ⟨hnested, hown, hpolls, hfinished hends⟩

end Session

end TreeEdit
