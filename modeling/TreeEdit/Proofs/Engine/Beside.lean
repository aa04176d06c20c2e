import TreeEdit.Proofs.Engine.Routes

/-!
# What a job leaves alone

A job whose turns keep to its run may start others in its turns, and those may start others in turn. As long as all
of them keep to their runs, what they do stays clear of a job that is kept under another name: its task stays as it
is, and so does its run (`Session.Beside`). To see that this is so after any number of starts and polls, it takes an
invariant of the session (`Session.Orderly`): all runs have seen nothing but themselves, and the tasks under other
names will go on keeping to runs of their own. Which jobs they may start is a parameter. A turn that is carried out as a
whole leaves the job alone only if none under its name may be started in it (`Turn.aside`).
-/

namespace TreeEdit

/-! ## Turns that keep within their run -/

/-- The request is about the text, an ancestor, the children or the state of a node of the run, or it saves something
or makes a note. No other run has a part in the answer. -/
def Request.Within (run : RunId) : Request → Prop
  | .state _ n => n.run = run
  | .saveNode .. | .saveHelpers .. | .forget _ | .note _ => True
  | q => q.KeepsTo run

def Event.Within (run : RunId) : Event → Prop
  | .visited n => n.run = run
  | .answered q a => q.Within run ∧ ∀ n ∈ q.given a, n.run = run

/-- The turn makes no requests but within the run. It may start some jobs, of which the same holds. -/
def Turn.Within (may : Job → Prop) (run : RunId) : Turn → Prop
  | .done _ => True
  | .call q next => q.Within run ∧ ∀ a, (∀ n ∈ q.given a, n.run = run) → (next a).Within may run
  | .start job m next => may job ∧
      (∀ (seen : Transcript) node, (∀ e ∈ seen, e.Within node.run) → (m seen node).Within may node.run) ∧
      ∀ started, (next started).Within may run
  | .defer next => next.Within may run
  | .wait _ next => next.Within may run
  | .never => True

def Manipulator.Within (may : Job → Prop) (m : Manipulator) : Prop :=
  ∀ (seen : Transcript) node, (∀ e ∈ seen, e.Within node.run) → (m seen node).Within may node.run

def WalkEnd.Within (may : Job → Prop) (run : RunId) : WalkEnd → Prop
  | .finished _ => True
  | .suspended node turn rest =>
    node.run = run ∧ (∀ step ∈ rest, step.node.run = run) ∧ turn.Within may run

def Task.Within (may : Job → Prop) : Task → Prop
  | .parsing _ _ m => Manipulator.Within may m
  | .walking run node turn rest _ m =>
    (WalkEnd.suspended node turn rest).Within may run ∧ Manipulator.Within may m

section

variable {may may' : Job → Prop} {run : RunId}

theorem Turn.Within.mono {turn : Turn} (h : turn.Within may run) (hmay : ∀ job, may job → may' job) :
    turn.Within may' run := by
  induction turn generalizing run with
  | done result => trivial
  | call q next ih => exact ⟨h.1, fun a ha => ih a (h.2 a ha)⟩
  | start job m next ihm ih =>
    exact ⟨hmay job h.1, fun seen node hseen => ihm seen node (h.2.1 seen node hseen), fun started => ih _ (h.2.2 _)⟩
  | defer next ih => exact ih h
  | wait polls next ih => exact ih h
  | never => trivial

theorem Manipulator.Within.mono {m : Manipulator} (h : Manipulator.Within may m)
    (hmay : ∀ job, may job → may' job) : Manipulator.Within may' m :=
  fun seen node hseen => (h seen node hseen).mono hmay

theorem WalkEnd.Within.mono {ended : WalkEnd} (h : ended.Within may run) (hmay : ∀ job, may job → may' job) :
    ended.Within may' run := by
  cases ended with
  | finished result => trivial
  | suspended node turn rest => exact ⟨h.1, h.2.1, h.2.2.mono hmay⟩

end

/-- The jobs that do not go by the name. -/
def Job.Other (name : String) (job : Job) : Prop :=
  job.name ≠ name

def noJob (_job : Job) : Prop :=
  False

theorem noJob.elim {may : Job → Prop} : ∀ job, noJob job → may job :=
  fun _ => False.elim

/-- The task starts no jobs but those that it may, and its run, if it has one, is not the one that is watched. -/
structure Task.Clear (may : Job → Prop) (watch : Option RunId) (s : Session) (t : Task) : Prop where
  keeps : t.Within may
  run : ∀ j, t.run? = some j → j < s.runs.size ∧ watch ≠ some j

theorem Task.Clear.mono {may : Job → Prop} {watch : Option RunId} {s s' : Session} {t : Task}
    (h : t.Clear may watch s) (hsize : s.runs.size ≤ s'.runs.size) : t.Clear may watch s' :=
  ⟨h.keeps, fun j hj => ⟨Nat.lt_of_lt_of_le (h.run j hj).1 hsize, (h.run j hj).2⟩⟩

/-! ## The invariant, and what stays as it is -/

namespace Session

variable {may : Job → Prop} {name : String} {watch : Option RunId} {run : RunId} {s s' s'' : Session}

/-- All runs have seen nothing but themselves, and the tasks under other names than the one given keep clear of the
job under it and of the run that is watched. -/
structure Orderly (may : Job → Prop) (name : String) (watch : Option RunId) (s : Session) : Prop where
  runs : ∀ (j : RunId) r, s.runs[j]? = some r → r.id = j ∧ ∀ e ∈ r.transcript, e.Within j
  tasks : ∀ p ∈ s.tasks, p.1 ≠ name → p.2.Clear may watch s
  watched : ∀ k, watch = some k → k < s.runs.size

/-- The session stays orderly, the job under the name stays where it is, and no run that is watched changes, unless
it is the one at work. -/
structure Beside (may : Job → Prop) (name : String) (watch : Option RunId) (run : RunId) (s s' : Session) : Prop where
  orderly : s'.Orderly may name watch
  size : s.runs.size ≤ s'.runs.size
  watched : ∀ k, watch = some k → k ≠ run → s'.runs[k]? = s.runs[k]?
  adapter : ∀ b, s'.adapter? b = s.adapter? b
  lookup : s'.tasks.lookup name = s.tasks.lookup name

namespace Beside

theorem refl (h : s.Orderly may name watch) (run : RunId) : Beside may name watch run s s :=
  ⟨h, Nat.le_refl _, fun _ _ _ => rfl, fun _ => rfl, rfl⟩

theorem trans (h : Beside may name watch run s s') (h' : Beside may name watch run s' s'') :
    Beside may name watch run s s'' where
  orderly := h'.orderly
  size := Nat.le_trans h.size h'.size
  watched k hk hne := (h'.watched k hk hne).trans (h.watched k hk hne)
  adapter b := (h'.adapter b).trans (h.adapter b)
  lookup := h'.lookup.trans h.lookup

/-- A run at work that is not watched might be any. -/
theorem elsewhere {j : RunId} (h : Beside may name watch j s s') (hne : watch ≠ some j) (run : RunId) :
    Beside may name watch run s s' :=
  { h with watched := fun k hk _ => h.watched k hk fun heq => hne (hk.trans (congrArg some heq)) }

end Beside

theorem size_lt_addRun (s : Session) (job : Job) (arena : Arena) :
    s.runs.size < (s.addRun job arena).2.runs.size :=
  Nat.lt_of_lt_of_eq (Nat.lt_succ_self _) (Array.size_push _).symm

theorem orderly_ofAdapters (adapters : Array Adapter) (may : Job → Prop) (name : String) :
    (ofAdapters adapters).Orderly may name none := by
  refine ⟨fun j r hr => ?_, List.forall_mem_nil _, fun k hk => ?_⟩
  · cases hr
  · cases hk

namespace Orderly

theorem congr (h : s.Orderly may name watch) (hruns : s'.runs = s.runs)
    (htasks : ∀ p ∈ s'.tasks, p.1 ≠ name → p ∈ s.tasks) : s'.Orderly may name watch where
  runs := by
    rw [hruns]
    exact h.runs
  tasks p hp hne := (h.tasks p (htasks p hp hne) hne).mono (Nat.le_of_eq (congrArg Array.size hruns.symm))
  watched := by
    rw [hruns]
    exact h.watched

theorem modifyRun (h : s.Orderly may name watch) (run : RunId) {f : Run → Run}
    (hf : ∀ r, s.runs[run]? = some r → (f r).id = run ∧ ∀ e ∈ (f r).transcript, e.Within run) :
    s.Beside may name watch run (s.modifyRun run f) := by
  have hsize : (s.modifyRun run f).runs.size = s.runs.size := Array.size_modify
  have hother : ∀ k, k ≠ run → (s.modifyRun run f).runs[k]? = s.runs[k]? := by
    intro k hk
    rw [Session.modifyRun, Array.getElem?_modify, if_neg hk.symm]
  refine ⟨⟨fun j r hr => ?_, fun p hp hname => ?_, fun k hk => ?_⟩, Nat.le_of_eq hsize.symm, fun k _ => hother k,
    fun _ => rfl, rfl⟩
  · by_cases hj : j = run
    · subst hj
      rw [runs_modifyRun] at hr
      obtain ⟨r₀, hr₀, rfl⟩ := Option.map_eq_some_iff.mp hr
      exact hf r₀ hr₀
    · rw [hother j hj] at hr
      exact h.runs j r hr
  · exact (h.tasks p hp hname).mono (Nat.le_of_eq hsize.symm)
  · rw [hsize]
    exact h.watched k hk

theorem modifyStore (h : s.Orderly may name watch) (b : BindingId) (f : List RunId → List RunId) (run : RunId) :
    s.Beside may name watch run (s.modifyStore b f) :=
  ⟨h.congr rfl fun _ hp _ => hp, Nat.le_refl _, fun _ _ _ => rfl, adapter?_modifyStore s b f, rfl⟩

theorem advance (h : s.Orderly may name watch) (run : RunId) (id : Nat) (state : NodeState) :
    s.Beside may name watch run (s.modifyRun run (·.advance id state)) :=
  h.modifyRun run fun r hr => h.runs run r hr

theorem record (h : s.Orderly may name watch) {e : Event} (he : e.Within run) :
    s.Beside may name watch run (s.modifyRun run (·.record e)) :=
  h.modifyRun run fun r hr => ⟨(h.runs run r hr).1, List.forall_mem_cons.mpr ⟨he, (h.runs run r hr).2⟩⟩

theorem visit (h : s.Orderly may name watch) (n : Node) :
    s.Beside may name watch n.run (s.modifyRun n.run fun r => (r.advance n.id .running).record (.visited n)) :=
  h.modifyRun n.run fun r hr => ⟨(h.runs _ r hr).1, List.forall_mem_cons.mpr ⟨rfl, (h.runs _ r hr).2⟩⟩

theorem transcript (h : s.Orderly may name watch) (run : RunId) : ∀ e ∈ s.transcript run, e.Within run := by
  rw [Session.transcript]
  split
  · exact List.forall_mem_nil _
  · rename_i r hr
    exact (h.runs _ r hr).2

theorem addRun (h : s.Orderly may name watch) (job : Job) (arena : Arena) {watch' : Option RunId}
    (hwatch : ∀ k, watch' = some k → watch = some k ∨ k = s.runs.size) :
    (s.addRun job arena).2.Orderly may name watch' := by
  have hsize : s.runs.size < (s.addRun job arena).2.runs.size := s.size_lt_addRun job arena
  refine ⟨fun j r hr => ?_, fun p hp hname => ⟨(h.tasks p hp hname).keeps, fun j hj => ?_⟩, fun k hk => ?_⟩
  · simp only [Session.addRun, Session.modifyStore, Array.getElem?_push] at hr
    split at hr
    · rename_i heq
      cases hr
      exact ⟨heq.symm, List.forall_mem_nil _⟩
    · exact h.runs j r hr
  · obtain ⟨hlt, hne⟩ := (h.tasks p hp hname).run j hj
    refine ⟨Nat.lt_trans hlt hsize, fun hj' => ?_⟩
    rcases hwatch j hj' with hj' | rfl
    · exact hne hj'
    · exact absurd hlt (Nat.lt_irrefl _)
  · rcases hwatch k hk with hk | rfl
    · exact Nat.lt_trans (h.watched k hk) hsize
    · exact hsize

theorem beside_addRun (h : s.Orderly may name watch) (job : Job) (arena : Arena) (run : RunId) :
    s.Beside may name watch run (s.addRun job arena).2 := by
  refine ⟨h.addRun job arena fun k hk => .inl hk, ?size, fun k hk _ => ?watched, fun b => ?adapter, rfl⟩
  case size => exact Nat.le_of_lt (s.size_lt_addRun job arena)
  case watched =>
    simp only [Session.addRun, Session.modifyStore, Array.getElem?_push]
    rw [if_neg (Nat.ne_of_lt (h.watched k hk))]
  case adapter =>
    rw [Session.addRun, adapter?_modifyStore]
    rfl

theorem finish (h : s.Orderly may name watch) (run : RunId) (job : Job) (walked : Except TransformError Unit) :
    s.Beside may name watch run (s.finish run job walked).2 := by
  rw [finish_session]
  have hstore := h.modifyStore job.binding (fun store => store.filter (· != run)) run
  exact hstore.trans (hstore.orderly.modifyRun run fun r hr => hstore.orderly.runs run r hr)

theorem keep (h : s.Orderly may name watch) {name' : String} (hname : name' ≠ name) {p : Progression}
    (hp : ∀ t, p = .pending t → t.Clear may watch s) (run : RunId) :
    s.Beside may name watch run (s.keep name' p) := by
  cases p with
  | finished result => exact .refl h run
  | pending t =>
    have hkept : s.Beside may name watch run { s with tasks := putNamed name' t s.tasks } := by
      refine ⟨⟨h.runs, fun p hmem hne => ?_, h.watched⟩, Nat.le_refl _, fun _ _ _ => rfl, fun _ => rfl,
        lookup_putNamed_of_ne hname t⟩
      rcases List.mem_cons.mp hmem with rfl | hmem
      · exact (hp t rfl).mono (Nat.le_refl _)
      · exact (h.tasks p (List.mem_filter.mp hmem).1 hne).mono (Nat.le_refl _)
    rw [Session.keep, putTask]
    split
    · exact hkept
    · -- the task that was there before lets go of its run
      rename_i old hold
      have hold' := (h.tasks _ (mem_of_lookup hold) hname).run
      rw [release]
      split
      · exact hkept
      · rename_i j hj
        have hrelease := hkept.orderly.modifyRun j (f := fun r => { r with held := false })
          fun r hr => hkept.orderly.runs j r hr
        exact hkept.trans (hrelease.elsewhere (hold' j hj).2 run)

theorem take (h : s.Orderly may name watch) {name' : String} (hname : name' ≠ name) (run : RunId) :
    s.Beside may name watch run { s with tasks := eraseNamed name' s.tasks } :=
  ⟨h.congr rfl fun _ hp _ => (List.mem_filter.mp hp).1, Nat.le_refl _, fun _ _ _ => rfl, fun _ => rfl,
    lookup_eraseNamed_of_ne hname⟩

end Orderly

/-! ## Requests -/

theorem run_of_resolve {actor : Actor} (hactor : actor.KeepsTo run) {n : Node} (hn : n.run = run) {j : RunId}
    {id : Nat} (h : s.resolve actor n = .node j id) : j = run := by
  cases actor with
  | binding b =>
    rw [resolve, locate] at h
    split at h
    · cases h
      exact hn
    · rw [(origin_eq_node h).1, hn]
  | helpers bound =>
    rw [resolve] at h
    split at h
    · cases h
    · split at h
      · cases h
        exact hactor
      · split at h
        · cases h
          exact hn
        · rw [(origin_eq_node h).1, hn]

theorem Orderly.perform (h : s.Orderly may name watch) {q : Request} (hq : q.Within run) :
    (∀ n ∈ q.given (s.perform q).1, n.run = run) ∧ s.Beside may name watch run (s.perform q).2 := by
  cases q with
  | source | state => exact ⟨List.forall_mem_nil _, .refl h run⟩
  | saveNode | saveHelpers | forget | note =>
    exact ⟨List.forall_mem_nil _, h.congr rfl fun _ hp _ => hp, Nat.le_refl _, fun _ _ _ => rfl, fun _ => rfl, rfl⟩
  | ancestor actor n levels =>
    refine ⟨fun m hm => ?_, .refl h run⟩
    have hancestor : s.ancestor actor n levels = some m := Option.mem_toList.mp hm
    rw [ancestor] at hancestor
    split at hancestor
    · rename_i j id hplace
      obtain rfl := run_of_resolve hq.1 hq.2 hplace
      obtain ⟨r, hr, hm⟩ := Option.bind_eq_some_iff.mp hancestor
      rw [(Run.ref?_of_ancestor hm).1, (h.runs _ r hr).1]
    · cases hancestor
    · cases hancestor
  | children actor n =>
    refine ⟨fun m hm => ?_, .refl h run⟩
    have hchild : m ∈ s.children actor n := hm
    rw [children] at hchild
    split at hchild
    · rename_i j id hplace
      obtain rfl := run_of_resolve hq.1 hq.2 hplace
      split at hchild
      · cases hchild
      · rename_i r hr
        rw [(Run.ref?_of_mem_children hchild).1, (h.runs _ r hr).1]
    · cases hchild
    · cases hchild
  | override actor n text =>
    refine ⟨List.forall_mem_nil _, ?_⟩
    rw [Session.perform]
    split
    · rename_i s' hover
      obtain ⟨j, id, r, r', hplace, hr, hgranted, rfl⟩ := override_eq_ok hover
      obtain rfl := run_of_resolve hq.1 hq.2 hplace
      obtain ⟨-, -, -, -, rfl⟩ := Run.override_eq_ok hgranted
      exact h.modifyRun _ fun _ _ => h.runs _ r hr
    · exact .refl h run
  | _ => exact absurd hq id

theorem Orderly.respond (h : s.Orderly may name watch) {q : Request} (hq : q.Within run) :
    (∀ n ∈ q.given (s.respond (some run) q).1, n.run = run) ∧
      s.Beside may name watch run (s.respond (some run) q).2 := by
  obtain ⟨hgiven, hbeside⟩ := h.perform hq
  exact ⟨hgiven, hbeside.trans (hbeside.orderly.record ⟨hq, hgiven⟩)⟩

end Session

/-! ## Turns, walks and jobs -/

/-- Carrying out the turn leaves others alone, and so will what is left of it. -/
def Turn.Aside (may : Job → Prop) (name : String) (turn : Turn) : Prop :=
  ∀ polled watch run s, turn.Within may run → s.Orderly may name watch → run < s.runs.size →
    s.Beside may name watch run (turn.exec polled (some run) s).2 ∧
      (turn.exec polled (some run) s).1.rest.Within may run

namespace Session

section

variable {may : Job → Prop} {name : String} {watch : Option RunId} {run : RunId} {s : Session} {job : Job}
  {m : Manipulator}

theorem afterTurn_beside {polled : Bool} {rest : List WalkStep} {node : Node} (hnode : node.run = run)
    (hrest : ∀ step ∈ rest, step.node.run = run)
    (ih : ∀ s : Session, s.Orderly may name watch → run < s.runs.size →
      s.Beside may name watch run (walk (fun seen node => (m seen node).exec polled (some run)) rest s).2 ∧
        (walk (fun seen node => (m seen node).exec polled (some run)) rest s).1.Within may run)
    {turn : Turn} (hturn : turn.Within may run) (hexec : turn.Aside may name) (h : s.Orderly may name watch)
    (hrun : run < s.runs.size) :
    s.Beside may name watch run (afterTurn (fun seen node => (m seen node).exec polled (some run)) node rest
        (turn.exec polled (some run) s)).2 ∧
      (afterTurn (fun seen node => (m seen node).exec polled (some run)) node rest
        (turn.exec polled (some run) s)).1.Within may run := by
  obtain ⟨hbeside, hleft⟩ := hexec polled watch run s hturn h hrun
  generalize turn.exec polled (some run) s = ended at hbeside hleft
  obtain ⟨ended, s'⟩ := ended
  cases ended with
  | suspended left => exact ⟨hbeside, hnode, hrest, hleft⟩
  | finished result =>
    have hend : s.Beside may name watch run (s'.endTurn node) := by
      rw [endTurn, hnode]
      exact hbeside.trans (hbeside.orderly.advance run node.id .handled)
    cases result with
    | error e => exact ⟨hend, trivial⟩
    | ok u =>
      obtain ⟨hwalk, hclear⟩ := ih _ hend.orderly (Nat.lt_of_lt_of_le hrun hend.size)
      exact ⟨hend.trans hwalk, hclear⟩

theorem walk_beside (hm : Manipulator.Within may m) (hexec : ∀ seen node, (m seen node).Aside may name)
    (polled : Bool) {steps : List WalkStep} (hsteps : ∀ step ∈ steps, step.node.run = run)
    (h : s.Orderly may name watch) (hrun : run < s.runs.size) :
    s.Beside may name watch run (walk (fun seen node => (m seen node).exec polled (some run)) steps s).2 ∧
      (walk (fun seen node => (m seen node).exec polled (some run)) steps s).1.Within may run := by
  induction steps generalizing s with
  | nil => exact ⟨.refl h run, trivial⟩
  | cons step rest ih =>
    have hrest : ∀ step ∈ rest, step.node.run = run := fun d hd => hsteps d (List.mem_cons_of_mem _ hd)
    cases step with
    | enter node =>
      obtain rfl : node.run = run := hsteps (.enter node) List.mem_cons_self
      have hbeside := h.advance node.run node.id .traversingChildren
      obtain ⟨hwalk, hclear⟩ := ih hrest hbeside.orderly (Nat.lt_of_lt_of_le hrun hbeside.size)
      exact ⟨hbeside.trans hwalk, hclear⟩
    | visit node =>
      obtain rfl : node.run = run := hsteps (.visit node) List.mem_cons_self
      have hvisit := h.visit node
      rw [walk_visit]
      obtain ⟨hwalk, hclear⟩ := afterTurn_beside rfl hrest (fun s => ih (s := s) hrest)
        (hm _ node (h.transcript node.run)) (hexec _ node) hvisit.orderly (Nat.lt_of_lt_of_le hrun hvisit.size)
      exact ⟨hvisit.trans hwalk, hclear⟩

theorem afterWalk_beside (job : Job) (hm : Manipulator.Within may m) {ended : WalkEnd × Session}
    (hbeside : s.Beside may name watch run ended.2) (hclear : ended.1.Within may run) :
    s.Beside may name watch run (afterWalk run job m ended).2 ∧
      ∀ t, (afterWalk run job m ended).1 = .pending t → t.Within may ∧ t.run? = some run := by
  obtain ⟨ended, s'⟩ := ended
  cases ended with
  | suspended node turn rest =>
    refine ⟨hbeside, fun t ht => ?_⟩
    cases ht
    exact ⟨⟨hclear, hm⟩, rfl⟩
  | finished walked =>
    refine ⟨hbeside.trans (hbeside.orderly.finish run job walked), fun t ht => ?_⟩
    cases ht

theorem begin_cases (turnOf : RunId → Transcript → Node → Session → TurnEnd × Session) (job : Job) (m : Manipulator) :
    (∃ e, ∀ s, begin turnOf job m s = (.finished (.error e), s)) ∨
    ∃ root arena, ∀ s, begin turnOf job m s = afterWalk s.runs.size job m
      (walk (turnOf s.runs.size) (job.steps root s.runs.size) (s.addRun job arena).2) := by
  cases hparsed : job.parsed with
  | error e => exact .inl ⟨.parse e, fun s => by simp only [begin, hparsed]⟩
  | ok root =>
    cases hreg : Arena.register job.code.toList root with
    | error e => exact .inl ⟨e, fun s => by simp only [begin, hparsed, hreg]⟩
    | ok arena =>
      refine .inr ⟨root, arena, fun s => ?_⟩
      simp only [begin, hparsed, hreg, walkOn_eq]
      rfl

theorem begin_beside (hm : Manipulator.Within may m) (hexec : ∀ seen node, (m seen node).Aside may name)
    (polled : Bool) (h : s.Orderly may name watch) (run : RunId) :
    s.Beside may name watch run (begin (fun run seen node => (m seen node).exec polled (some run)) job m s).2 ∧
      ∀ t, (begin (fun run seen node => (m seen node).exec polled (some run)) job m s).1 = .pending t →
        t.Clear may watch (begin (fun run seen node => (m seen node).exec polled (some run)) job m s).2 := by
  rcases begin_cases (fun run seen node => (m seen node).exec polled (some run)) job m with ⟨e, he⟩ | ⟨root, arena, heq⟩
  · rw [he]
    exact ⟨.refl h run, fun t ht => by cases ht⟩
  · have hfresh : watch ≠ some s.runs.size := fun hw => Nat.lt_irrefl _ (h.watched _ hw)
    have hadded := h.beside_addRun job arena s.runs.size
    have hlt := s.size_lt_addRun job arena
    have hsteps : ∀ step ∈ job.steps root s.runs.size, step.node.run = s.runs.size := fun _ => Tree.run_of_mem_plan
    obtain ⟨hwalk, hclear⟩ := walk_beside hm hexec polled hsteps hadded.orderly hlt
    rw [heq]
    obtain ⟨hbeside, hpending⟩ := afterWalk_beside job hm hwalk hclear
    refine ⟨(hadded.trans hbeside).elsewhere hfresh run, fun t ht => ⟨(hpending t ht).1, fun j hj => ?_⟩⟩
    rw [(hpending t ht).2] at hj
    cases hj
    exact ⟨Nat.lt_of_lt_of_le hlt hbeside.size, hfresh⟩

theorem startUp_beside (job : Job) (hm : Manipulator.Within may m) (hexec : ∀ seen node, (m seen node).Aside may name)
    (h : s.Orderly may name watch) (run : RunId) :
    s.Beside may name watch run (s.startUp job m).2 ∧
      ∀ t, (s.startUp job m).1 = .pending t → t.Clear may watch (s.startUp job m).2 := by
  rw [startUp, launched]
  split
  · refine ⟨.refl h run, fun t ht => ?_⟩
    cases ht
    exact ⟨hm, fun j hj => by cases hj⟩
  · exact begin_beside hm hexec false h run

end

end Session

/-- **A turn leaves others alone**, and so do the jobs that are started in it. -/
theorem Turn.aside {may : Job → Prop} {name : String} (hmay : ∀ job, may job → job.Other name) (turn : Turn) :
    turn.Aside may name := by
  induction turn with
  | done result => exact fun polled watch run s _ h _ => ⟨.refl h run, trivial⟩
  | call q next ih =>
    intro polled watch run s hturn h hrun
    obtain ⟨hgiven, hbeside⟩ := h.respond hturn.1
    obtain ⟨hrest, hleft⟩ := ih _ polled watch run _ (hturn.2 _ hgiven) hbeside.orderly
      (Nat.lt_of_lt_of_le hrun hbeside.size)
    exact ⟨hbeside.trans hrest, hleft⟩
  | start job m next ihm ih =>
    intro polled watch run s hturn h hrun
    obtain ⟨hname, hm, hnext⟩ := hturn
    obtain ⟨hstart, hpending⟩ := Session.startUp_beside job hm ihm h run
    have hbeside := hstart.trans (hstart.orderly.keep (hmay job hname) hpending run)
    rw [Turn.exec, Session.launch_eq]
    obtain ⟨hrest, hleft⟩ := ih _ polled watch run _ (hnext _) hbeside.orderly
      (Nat.lt_of_lt_of_le hrun hbeside.size)
    exact ⟨hbeside.trans hrest, hleft⟩
  | defer next ih =>
    intro polled watch run s hturn h hrun
    rw [Turn.exec]
    split
    · exact ih polled watch run s hturn h hrun
    · exact ⟨.refl h run, hturn⟩
  | wait polls next ih =>
    intro polled watch run s hturn h hrun
    cases polls with
    | zero => exact ih polled watch run s hturn h hrun
    | succ n => exact ⟨.refl h run, hturn⟩
  | never => exact fun polled watch run s _ h _ => ⟨.refl h run, trivial⟩

namespace Session

variable {may : Job → Prop} {name : String} (hmay : ∀ job, may job → job.Other name) {watch : Option RunId}
  {s : Session} {job : Job} {m : Manipulator}

include hmay

theorem pollTask_walking_beside {run : RunId} {node : Node} {turn : Turn} {rest : List WalkStep}
    (ht : (Task.walking run node turn rest job m).Within may) (h : s.Orderly may name watch)
    (hrun : run < s.runs.size) :
    s.Beside may name watch run (s.pollTask (.walking run node turn rest job m)).2 ∧
      ∀ t, (s.pollTask (.walking run node turn rest job m)).1 = .pending t →
        t.Within may ∧ t.run? = some run := by
  obtain ⟨⟨hnode, hrest, hturn⟩, hm⟩ := ht
  rw [pollTask_walking]
  obtain ⟨hbeside, hclear⟩ := afterTurn_beside hnode hrest
    (fun s => walk_beside (s := s) hm (fun seen node => (m seen node).aside hmay) true hrest) hturn (turn.aside hmay) h
    hrun
  exact afterWalk_beside job hm hbeside hclear

theorem pollTask_beside {t : Task} (ht : t.Clear may watch s) (h : s.Orderly may name watch) (run : RunId) :
    s.Beside may name watch run (s.pollTask t).2 ∧
      ∀ t', (s.pollTask t).1 = .pending t' → t'.Clear may watch (s.pollTask t).2 := by
  cases t with
  | parsing polls job m =>
    cases polls with
    | zero => exact begin_beside ht.keeps (fun seen node => (m seen node).aside hmay) true h run
    | succ n =>
      refine ⟨.refl h run, fun t' ht' => ?_⟩
      cases ht'
      exact ⟨ht.keeps, fun j hj => by cases hj⟩
  | walking j node turn rest job m =>
    obtain ⟨hrun, hne⟩ := ht.run j rfl
    obtain ⟨hbeside, hpending⟩ := pollTask_walking_beside hmay ht.keeps h hrun
    refine ⟨hbeside.elsewhere hne run, fun t' ht' => ⟨(hpending t' ht').1, fun i hi => ?_⟩⟩
    rw [(hpending t' ht').2] at hi
    cases hi
    exact ⟨Nat.lt_of_lt_of_le hrun hbeside.size, hne⟩

theorem pollTimes_beside {t : Task} (ht : t.Clear may watch s) (h : s.Orderly may name watch) (run : RunId)
    (times : Nat) :
    s.Beside may name watch run (s.pollTimes t times).2.2 ∧
      ∀ t', (s.pollTimes t times).1 = .pending t' → t'.Clear may watch (s.pollTimes t times).2.2 := by
  induction times generalizing t s with
  | zero =>
    refine ⟨.refl h run, fun t' ht' => ?_⟩
    cases ht'
    exact ht
  | succ n ih =>
    obtain ⟨hbeside, hpending⟩ := pollTask_beside hmay ht h run
    rw [pollTimes]
    generalize s.pollTask t = polled at hbeside hpending
    obtain ⟨p, s'⟩ := polled
    cases p with
    | finished result => exact ⟨hbeside, fun t' ht' => by cases ht'⟩
    | pending t' =>
      obtain ⟨hrest, hclear⟩ := ih (hpending t' rfl) hbeside.orderly
      exact ⟨hbeside.trans hrest, hclear⟩

/-! ## Commands -/

/-- What a poll tells of a job. -/
def Polled.of : Progression → Nat → Polled
  | .finished result, polls => .finished result polls
  | .pending _, _ => .pending

omit hmay in
theorem poll_eq {t : Task} (h : s.tasks.lookup name = some t) (times : Nat) :
    s.poll name times =
      let polled := pollTimes { s with tasks := eraseNamed name s.tasks } t times
      (.of polled.1 polled.2.1, polled.2.2.keep name polled.1) := by
  simp only [poll, takeTask, h, Option.map_some]
  generalize pollTimes _ t times = polled
  obtain ⟨p, k, s'⟩ := polled
  cases p <;> rfl

theorem start_beside (hname : job.name ≠ name) (hm : Manipulator.Within may m) (h : s.Orderly may name watch)
    (run : RunId) : s.Beside may name watch run (s.start job m).2 := by
  rw [start_eq]
  obtain ⟨hstart, hpending⟩ := startUp_beside job hm (fun seen node => (m seen node).aside hmay) h run
  exact hstart.trans (hstart.orderly.keep hname hpending run)

theorem poll_beside {name' : String} (hname : name' ≠ name) (times : Nat) (h : s.Orderly may name watch)
    (run : RunId) : s.Beside may name watch run (s.poll name' times).2 := by
  cases hlookup : s.tasks.lookup name' with
  | none =>
    rw [poll, takeTask, hlookup]
    exact .refl h run
  | some t =>
    have htaken := h.take hname run
    have ht := (h.tasks _ (mem_of_lookup hlookup) hname).mono htaken.size
    rw [poll_eq hlookup]
    obtain ⟨hpolls, hpending⟩ := pollTimes_beside hmay ht htaken.orderly run times
    exact htaken.trans (hpolls.trans (hpolls.orderly.keep hname hpending run))

end Session

end TreeEdit
