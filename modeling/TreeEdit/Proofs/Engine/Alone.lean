import TreeEdit.Proofs.Engine.Independence

/-!
# A job that is started in the turn of another

`jobs_independent` is about a job that a command starts. A job that is started in the turn of another is at work while
that turn waits for it, so here sessions are taken moment by moment, and the turns of all keep to their runs
(`Moment.Proceeds`). What others do passes the job by (`Moment.Aside`). What it does itself it does alike in a history
in which it is alone (`Moment.Active`), and that history stands still while others are at work (`Moment.Mirrors`). So at
every moment it stands as it does alone (`Moment.started_in_turn_independent`).
-/

namespace TreeEdit

def anyJob (_job : Job) : Prop :=
  True

def Caller.name : Caller → String
  | .outside _ name => name
  | .turn name _ _ => name

/-! ## Who is clear of the job -/

/-- The walk keeps to its run, and that is not the one that is watched. -/
structure Work.Clear (watch : Option RunId) (s : Session) (w : Work) : Prop where
  keeps : Manipulator.Within anyJob w.manipulator
  run : w.run < s.runs.size
  unwatched : watch ≠ some w.run

structure Visit.Clear (watch : Option RunId) (s : Session) (v : Visit) : Prop where
  work : v.work.Clear watch s
  node : v.node.run = v.work.run
  rest : ∀ step ∈ v.rest, step.node.run = v.work.run

def Caller.Clear (watch : Option RunId) (s : Session) : Caller → Prop
  | .outside .. => True
  | .turn _ v next => v.Clear watch s ∧ ∀ started, (next started).Within anyJob v.work.run

/-- The callers do not wait for the job under the name, and keep clear of it. -/
def CallersClear (name : String) (watch : Option RunId) (s : Session) (cs : List Caller) : Prop :=
  ∀ caller ∈ cs, caller.name ≠ name ∧ caller.Clear watch s

def Focus.Clear (watch : Option RunId) (s : Session) : Focus → Prop
  | .idle => True
  | .walk w steps => w.Clear watch s ∧ ∀ step ∈ steps, step.node.run = w.run
  | .turn v left => v.Clear watch s ∧ left.Within anyJob v.work.run
  | .back _ _ _ p => ∀ t, p = .pending t → t.Clear anyJob watch s

section

variable {watch watch' : Option RunId} {s s' : Session}

theorem Work.Clear.mono {w : Work} (h : w.Clear watch s) (hsize : s.runs.size ≤ s'.runs.size)
    (hwatch : ∀ k, watch' = some k → watch = some k ∨ k = s.runs.size) : w.Clear watch' s' := by
  refine ⟨h.keeps, Nat.lt_of_lt_of_le h.run hsize, fun hw => ?_⟩
  rcases hwatch _ hw with hw | hw
  · exact h.unwatched hw
  · exact Nat.ne_of_lt h.run hw

theorem Visit.Clear.mono {v : Visit} (h : v.Clear watch s) (hsize : s.runs.size ≤ s'.runs.size)
    (hwatch : ∀ k, watch' = some k → watch = some k ∨ k = s.runs.size) : v.Clear watch' s' :=
  ⟨h.work.mono hsize hwatch, h.node, h.rest⟩

theorem Caller.Clear.mono {caller : Caller} (h : caller.Clear watch s) (hsize : s.runs.size ≤ s'.runs.size)
    (hwatch : ∀ k, watch' = some k → watch = some k ∨ k = s.runs.size) : caller.Clear watch' s' := by
  cases caller with
  | outside polling name => trivial
  | turn name v next => exact ⟨h.1.mono hsize hwatch, h.2⟩

theorem CallersClear.mono {name : String} {cs : List Caller} (h : CallersClear name watch s cs)
    (hsize : s.runs.size ≤ s'.runs.size) (hwatch : ∀ k, watch' = some k → watch = some k ∨ k = s.runs.size) :
    CallersClear name watch' s' cs :=
  fun caller hmem => ⟨(h caller hmem).1, (h caller hmem).2.mono hsize hwatch⟩

theorem Focus.Clear.mono {focus : Focus} (h : focus.Clear watch s) (hsize : s.runs.size ≤ s'.runs.size) :
    focus.Clear watch s' := by
  cases focus with
  | idle => trivial
  | walk w steps => exact ⟨h.1.mono hsize fun _ => .inl, h.2⟩
  | turn v left => exact ⟨h.1.mono hsize fun _ => .inl, h.2⟩
  | back job m run p => exact fun t ht => (h t ht).mono hsize

theorem Turn.Within.putOff {may : Job → Prop} {run : RunId} {turn left : Turn} {polled : Bool}
    (h : turn.Within may run) (hleft : turn.putOff? polled = some left) : left.Within may run := by
  cases turn with
  | done result => cases hleft
  | call q next => cases hleft
  | start job m next => cases hleft
  | defer next =>
    rw [Turn.putOff?] at hleft
    split at hleft
    · cases hleft
    · cases hleft
      exact h
  | wait polls next =>
    cases polls with
    | zero => cases hleft
    | succ n =>
      cases hleft
      exact h
  | never =>
    cases hleft
    trivial

end

namespace Moment

/-- Nobody but others is at work or waits: the session is orderly, and what is being done and what is still to be done
keeps clear of the job under the name. -/
structure Aside (name : String) (watch : Option RunId) (c : Moment) : Prop where
  orderly : c.session.Orderly anyJob name watch
  focus : c.focus.Clear watch c.session
  callers : CallersClear name watch c.session c.callers

/-- What goes on when jobs are started only as they may be, in turns or from outside, with turns that keep to their
runs, and only some are polled. -/
inductive Proceeds (may : Job → Prop) (polls : String → Prop) : Moment → Moment → Prop
  | inside {c c'} (step : Step c c') (busy : c.focus ≠ .idle)
    (starts : ∀ v job m next, c.focus = .turn v (.start job m next) → may job) : Proceeds may polls c c'
  | start {job m s ms} (hjob : may job) (hm : Manipulator.Within anyJob m) :
    Proceeds may polls (.rest s ms) (launch job m [.outside false job.name] s ms)
  | poll {name t s s' ms} (hname : polls name) (h : s.takeTask name = some (t, s')) :
    Proceeds may polls (.rest s ms) ⟨.back t.job t.manipulator t.run? (.pending t), [.outside true name], s', ms⟩

/-! ## Others at work -/

section

variable {name : String} {watch : Option RunId} {job : Job} {m : Manipulator} {cs : List Caller} {s s' : Session}
  {ms : List Mark} {c c' : Moment}

theorem begin_cases (job : Job) (m : Manipulator) :
    (∃ e, ∀ cs s ms, begin job m cs s ms = ⟨.back job m none (.finished (.error e)), cs, s, ms⟩) ∨
    ∃ root arena, ∀ cs s ms, begin job m cs s ms = ⟨.walk ⟨job, m, s.runs.size⟩ (job.steps root s.runs.size), cs,
      (s.addRun job arena).2, ms⟩ := by
  cases hparsed : job.parsed with
  | error e => exact .inl ⟨.parse e, fun cs s ms => by simp only [begin, hparsed]⟩
  | ok root =>
    cases hreg : Arena.register job.code.toList root with
    | error e => exact .inl ⟨e, fun cs s ms => by simp only [begin, hparsed, hreg]⟩
    | ok arena =>
      refine .inr ⟨root, arena, fun cs s ms => ?_⟩
      simp only [begin, hparsed, hreg]
      rfl

namespace Aside

theorem move (hbeside : ∀ run, s.Beside anyJob name watch run c'.session) (hfocus : c'.focus.Clear watch s)
    (hcallers : CallersClear name watch s c'.callers) :
    c'.Aside name watch ∧ ∀ run, s.Beside anyJob name watch run c'.session :=
  have hsize := (hbeside 0).size
  ⟨⟨(hbeside 0).orderly, hfocus.mono hsize, hcallers.mono hsize fun _ => .inl⟩, hbeside⟩

theorem begin (hm : Manipulator.Within anyJob m) (h : s.Orderly anyJob name watch)
    (hcallers : CallersClear name watch s cs) (job : Job) (ms : List Mark) :
    (begin job m cs s ms).Aside name watch ∧
      ∀ run, s.Beside anyJob name watch run (begin job m cs s ms).session := by
  rcases begin_cases job m with ⟨e, he⟩ | ⟨root, arena, heq⟩
  · rw [he]
    exact move (.refl h) (fun t ht => by cases ht) hcallers
  · have hadded := h.beside_addRun job arena
    have hfresh : watch ≠ some s.runs.size := fun hw => Nat.lt_irrefl _ (h.watched _ hw)
    rw [heq]
    have hlt := s.size_lt_addRun job arena
    exact ⟨⟨(hadded 0).orderly, ⟨⟨hm, hlt, hfresh⟩, fun step => Tree.run_of_mem_plan⟩,
      hcallers.mono (Nat.le_of_lt hlt) fun _ => .inl⟩, hadded⟩

theorem launch (hm : Manipulator.Within anyJob m) (h : s.Orderly anyJob name watch)
    (hcallers : CallersClear name watch s cs) (job : Job) (ms : List Mark) :
    (launch job m cs s ms).Aside name watch ∧
      ∀ run, s.Beside anyJob name watch run (launch job m cs s ms).session := by
  rw [Moment.launch]
  split
  · refine move (.refl h) (fun t ht => ?_) hcallers
    cases ht
    exact ⟨hm, fun j hj => by cases hj⟩
  · exact begin hm h hcallers job ms

theorem resume (h : s.Orderly anyJob name watch) {t : Task} (ht : t.Clear anyJob watch s)
    (hcallers : CallersClear name watch s cs) (ms : List Mark) :
    (resume cs s ms t).Aside name watch ∧
      ∀ run, s.Beside anyJob name watch run (resume cs s ms t).session := by
  cases t with
  | parsing polls job m =>
    cases polls with
    | zero => exact begin ht.keeps h hcallers job ms
    | succ n =>
      refine move (.refl h) (fun t ht' => ?_) hcallers
      cases ht'
      exact ⟨ht.keeps, fun j hj => by cases hj⟩
  | walking run node turn rest job m =>
    obtain ⟨⟨hnode, hrest, hturn⟩, hm⟩ := ht.keeps
    obtain ⟨hrun, hne⟩ := ht.run run rfl
    exact move (.refl h) ⟨⟨⟨hm, hrun, hne⟩, hnode, hrest⟩, hturn⟩ hcallers

theorem step (h : c.Aside name watch) (hstep : Step c c') (hbusy : c.focus ≠ .idle)
    (hstarts : ∀ v job m next, c.focus = .turn v (.start job m next) → job.Other name) :
    c'.Aside name watch ∧ ∀ run, c.session.Beside anyJob name watch run c'.session := by
  obtain ⟨horderly, hfocus, hcallers⟩ := h
  cases hstep with
  | @enter w n rest cs s ms =>
    obtain ⟨hw, hsteps⟩ := hfocus
    obtain ⟨hn, hrest⟩ := List.forall_mem_cons.mp hsteps
    have hn : n.run = w.run := hn
    refine move ((horderly.advance n.run n.id .traversingChildren).elsewhere ?_) ⟨hw, hrest⟩ hcallers
    rw [hn]
    exact hw.unwatched
  | @visit w n rest cs s ms =>
    obtain ⟨hw, hsteps⟩ := hfocus
    obtain ⟨hn, hrest⟩ := List.forall_mem_cons.mp hsteps
    have hn : n.run = w.run := hn
    have hturn : (w.manipulator (s.transcript n.run) n).Within anyJob w.run :=
      hn ▸ hw.keeps (s.transcript n.run) n (horderly.transcript n.run)
    refine move ((horderly.visit n).elsewhere ?_) ⟨⟨hw, hn, hrest⟩, hturn⟩ hcallers
    rw [hn]
    exact hw.unwatched
  | @finish w cs s ms =>
    exact move ((horderly.finish w.run w.job (.ok ())).elsewhere hfocus.1.unwatched) (fun t ht => by cases ht)
      hcallers
  | @call v q next cs s ms =>
    obtain ⟨hv, hq, hnext⟩ := hfocus
    obtain ⟨hgiven, hbeside⟩ := horderly.respond hq
    exact move (hbeside.elsewhere hv.work.unwatched) ⟨hv, hnext _ hgiven⟩ hcallers
  | @start v job m next cs s ms =>
    obtain ⟨hv, -, hm, hnext⟩ := hfocus
    have hcaller : (Caller.turn job.name v next).name ≠ name ∧ (Caller.turn job.name v next).Clear watch s :=
      ⟨hstarts v job m next rfl, hv, hnext⟩
    exact launch hm horderly (List.forall_mem_cons.mpr ⟨hcaller, hcallers⟩) job ms
  | goOn hpolled => exact move (.refl horderly) hfocus hcallers
  | ready => exact move (.refl horderly) hfocus hcallers
  | @suspend v turn left cs s ms hput =>
    obtain ⟨hv, hturn⟩ := hfocus
    refine move (.refl horderly) (fun t ht => ?_) hcallers
    cases ht
    refine ⟨⟨⟨hv.node, hv.rest, hturn.putOff hput⟩, hv.work.keeps⟩, fun j hj => ?_⟩
    cases hj
    exact ⟨hv.work.run, hv.work.unwatched⟩
  | @succeed v cs s ms =>
    obtain ⟨hv, -⟩ := hfocus
    refine move ((horderly.advance v.node.run v.node.id .handled).elsewhere ?_) ⟨hv.work, hv.rest⟩ hcallers
    rw [hv.node]
    exact hv.work.unwatched
  | @fail v e cs s ms =>
    obtain ⟨hv, -⟩ := hfocus
    have hend := (horderly.advance v.node.run v.node.id .handled).elsewhere (by rw [hv.node]; exact hv.work.unwatched)
    have hfinish := ((hend 0).orderly.finish v.work.run v.work.job (.error e)).elsewhere hv.work.unwatched
    exact move (fun run => (hend run).trans (hfinish run)) (fun t ht => by cases ht) hcallers
  | @answer job m run p name' v next cs s ms =>
    obtain ⟨⟨hname, hv, hnext⟩, hcallers⟩ := List.forall_mem_cons.mp hcallers
    exact move (horderly.keep hname hfocus) ⟨hv, hnext _⟩ hcallers
  | @leave job m run p polling name' s ms =>
    have hname := (hcallers _ List.mem_cons_self).1
    exact move (horderly.keep hname hfocus) trivial (List.forall_mem_nil _)
  | @again job m run t name' s ms => exact resume horderly (hfocus t rfl) hcallers ms
  | launch | poll | drop | act => exact absurd rfl hbusy

theorem proceeds (h : c.Aside name watch) (hstep : Proceeds (Job.Other name) (fun _ => True) c c') :
    (c'.Aside name watch ∧ ∀ run, c.session.Beside anyJob name watch run c'.session) ∨
      ∃ t s ms, s.tasks.lookup name = some t ∧ c = .rest s ms ∧
        c' = ⟨.back t.job t.manipulator t.run? (.pending t), [.outside true name],
          { s with tasks := eraseNamed name s.tasks }, ms⟩ := by
  cases hstep with
  | inside step busy starts => exact .inl (h.step step busy starts)
  | @start job m s ms hjob hm =>
    have hcaller : (Caller.outside false job.name).name ≠ name ∧ (Caller.outside false job.name).Clear watch s :=
      ⟨hjob, trivial⟩
    exact .inl (launch hm h.orderly (List.forall_mem_singleton.mpr hcaller) job ms)
  | @poll name' t s s' ms _ htake =>
    obtain ⟨t', hlookup, heq⟩ := Option.map_eq_some_iff.mp htake
    cases heq
    by_cases hname : name' = name
    · subst hname
      exact .inr ⟨t, s, ms, hlookup, rfl, rfl⟩
    · refine .inl (move (h.orderly.take hname) (fun t' ht' => ?_) (List.forall_mem_singleton.mpr ⟨hname, trivial⟩))
      cases ht'
      exact h.orderly.tasks _ (mem_of_lookup hlookup) hname

end Aside

end

/-! ## The job at work -/

/-- The first of the callers waits for the job under the name, and the others wait for others. -/
def Awaited (name : String) (watch : Option RunId) (s : Session) : List Caller → Prop
  | [] => False
  | caller :: cs => caller.name = name ∧ caller.Clear watch s ∧ CallersClear name watch s cs

/-- What the job is doing, in both sessions. -/
inductive Doing (k : RunId) (s s₀ : Session) : Option RunId → Focus → Prop
  | walk {job m steps r} (hm : Manipulator.Within noJob m) (hsteps : ∀ step ∈ steps, step.node.run = k)
    (halike : Alike (Event.Within k) k job.binding r s s₀) : Doing k s s₀ (some k) (.walk ⟨job, m, k⟩ steps)
  | turn {job m node rest left r} (hm : Manipulator.Within noJob m) (hnode : node.run = k)
    (hrest : ∀ step ∈ rest, step.node.run = k) (hleft : left.Within noJob k)
    (halike : Alike (Event.Within k) k job.binding r s s₀) :
    Doing k s s₀ (some k) (.turn ⟨⟨job, m, k⟩, node, rest⟩ left)
  | back {watch job m run p} (hrun : ∀ j, run = some j → watch = some j) (hown : s.Own watch p)
    (htwin : Session.Twin s s₀ watch k) : Doing k s s₀ watch (.back job m run p)

/-- The job under the name is at work, and does the same in a session in which it is alone. -/
structure Active (name : String) (k : RunId) (watch : Option RunId) (c : Moment) (s₀ : Session) : Prop where
  orderly : c.session.Orderly anyJob name watch
  doing : Doing k c.session s₀ watch c.focus
  callers : Awaited name watch c.session c.callers
  free : c.session.tasks.lookup name = none
  free₀ : s₀.tasks.lookup name = none

/-- Others are at work, if anybody is. -/
structure Resting (name : String) (k : RunId) (watch : Option RunId) (c : Moment) (s₀ : Session) : Prop where
  aside : c.Aside name watch
  standing : c.session.Standing anyJob name watch
  twin : Session.Twin c.session s₀ watch k
  task : s₀.tasks.lookup name = c.session.tasks.lookup name

/-- The one moment is that of a history in which the job is alone: it does the same as in the other, or nothing while
others are at work. -/
inductive Mirrors (name : String) (k : RunId) (watch : Option RunId) (c : Moment) : Moment → Prop
  | active {s₀ ms₀} (h : Active name k watch c s₀) :
    Mirrors name k watch c ⟨c.focus, [.outside (polled c.callers) name], s₀, ms₀⟩
  | resting {s₀ ms₀} (h : Resting name k watch c s₀) : Mirrors name k watch c (.rest s₀ ms₀)

def run? (c : Moment) : Option RunId :=
  match c.focus with
  | .idle => none
  | .walk w _ => some w.run
  | .turn v _ => some v.work.run
  | .back _ _ run _ => run

/-- The run to be watched: that of the job under the name, once it was seen at work on it. -/
def watching (name : String) (watch : Option RunId) (c : Moment) : Option RunId :=
  if c.callers.head?.map Caller.name = some name then watch.or c.run? else watch

section

variable {name : String} {k : RunId} {watch : Option RunId} {job : Job} {m : Manipulator} {cs : List Caller}
  {s s₀ s₀' : Session} {ms ms₀ ms₀' : List Mark} {c c' : Moment}

theorem Awaited.mono {s' : Session} {watch' : Option RunId} (h : Awaited name watch s cs)
    (hsize : s.runs.size ≤ s'.runs.size) (hwatch : ∀ k, watch' = some k → watch = some k ∨ k = s.runs.size) :
    Awaited name watch' s' cs := by
  cases cs with
  | nil => exact h
  | cons caller cs =>
    obtain ⟨hname, hclear, hothers⟩ := h
    exact ⟨hname, hclear.mono hsize hwatch, hothers.mono hsize hwatch⟩

theorem Awaited.head? (h : Awaited name watch s cs) : cs.head?.map Caller.name = some name := by
  cases cs with
  | nil => exact h.elim
  | cons caller cs => exact congrArg some h.1

theorem Aside.head?_ne (h : c.Aside name watch) : c.callers.head?.map Caller.name ≠ some name := by
  intro hhead
  obtain ⟨caller, hcaller, hname⟩ := Option.map_eq_some_iff.mp hhead
  exact (h.callers caller (List.mem_of_head? hcaller)).1 hname

theorem Aside.watching (h : c.Aside name watch) : watching name watch c = watch := by
  rw [Moment.watching, if_neg h.head?_ne]

theorem Doing.twin {f : Focus} (h : Doing k s s₀ watch f) : Session.Twin s s₀ watch k := by
  cases h with
  | walk hm hsteps halike => exact halike.twin
  | turn hm hnode hrest hleft halike => exact halike.twin
  | back hrun hown htwin => exact htwin

namespace Active

theorem watching (h : Active name k watch c s₀) : watching name watch c = watch := by
  obtain ⟨f, cs, s, ms⟩ := c
  rw [Moment.watching, if_pos h.callers.head?]
  cases h.doing with
  | walk => rfl
  | turn => rfl
  | @back _ job m run p hrun =>
    cases run with
    | none => exact Option.or_none
    | some j =>
      rw [hrun j rfl]
      rfl

theorem mirrors (h : Active name k watch c s₀) (ms₀ : List Mark) :
    Mirrors name k (Moment.watching name watch c) c ⟨c.focus, [.outside (polled c.callers) name], s₀, ms₀⟩ := by
  rw [h.watching]
  exact .active h

theorem goesOn {run : RunId} (h : Active name k watch c s₀)
    (hbeside : c.session.Beside anyJob name watch run c'.session) (hcallers : c'.callers = c.callers)
    (hdoing : Doing k c'.session s₀' watch c'.focus) (htasks : s₀'.tasks = s₀.tasks)
    (hstep : Step ⟨c.focus, [.outside (polled c.callers) name], s₀, ms₀⟩
      ⟨c'.focus, [.outside (polled c.callers) name], s₀', ms₀'⟩) :
    ∃ d', Step ⟨c.focus, [.outside (polled c.callers) name], s₀, ms₀⟩ d' ∧
      Mirrors name k (Moment.watching name watch c') c' d' := by
  have hactive : Active name k watch c' s₀' := by
    refine ⟨hbeside.orderly, hdoing, ?_, hbeside.lookup.trans h.free, ?_⟩
    · rw [hcallers]
      exact h.callers.mono hbeside.size fun _ => .inl
    · rw [htasks]
      exact h.free₀
  refine ⟨_, hstep, ?_⟩
  rw [← hcallers]
  exact hactive.mirrors ms₀'

end Active

theorem mirrors_begin (hm : Manipulator.Within noJob m) (h : s.Orderly anyJob name none)
    (hcallers : Awaited name none s cs) (hfree : s.tasks.lookup name = none) (hfree₀ : s₀.tasks.lookup name = none)
    (htwin : Session.Twin s s₀ none k)
    (hk : ∀ k', watching name none (begin job m cs s ms) = some k' → k' = k) :
    Mirrors name k (watching name none (begin job m cs s ms)) (begin job m cs s ms)
      (begin job m [.outside (polled cs) name] s₀ ms₀) := by
  rcases begin_cases job m with ⟨e, he⟩ | ⟨root, arena, heq⟩
  · rw [he, he]
    have hactive : Active name k none ⟨.back job m none (.finished (.error e)), cs, s, ms⟩ s₀ :=
      ⟨h, .back (fun j hj => by cases hj) trivial htwin, hcallers, hfree, hfree₀⟩
    exact hactive.mirrors ms₀
  · cases htwin with
    | ahead hsize hadapter =>
      -- once there is a run it has the next number, which is to be the same in both sessions
      rw [heq, heq, hsize]
      rw [heq] at hk
      have hwatch : watching name none ⟨.walk ⟨job, m, s.runs.size⟩ (job.steps root s.runs.size), cs,
          (s.addRun job arena).2, ms⟩ = some s.runs.size := by
        rw [watching, if_pos hcallers.head?]
        rfl
      obtain rfl := hk _ hwatch
      have hnew : ∀ k, some s.runs.size = some k → none = some k ∨ k = s.runs.size :=
        fun k hk => .inr (Option.some.inj hk).symm
      have halike : ∃ r, Alike (Event.Within s.runs.size) s.runs.size job.binding r (s.addRun job arena).2
          (s₀.addRun job arena).2 := Session.addRun_alike rfl hsize (hadapter job.binding) arena
      obtain ⟨r, halike⟩ := halike
      rw [hwatch]
      exact .active ⟨h.addRun job arena hnew, .walk hm (fun step => Tree.run_of_mem_plan) halike,
        hcallers.mono (Nat.le_of_lt (s.size_lt_addRun job arena)) hnew, hfree, hfree₀⟩

theorem mirrors_launch (hm : Manipulator.Within noJob m) (h : s.Orderly anyJob name none)
    (hcallers : Awaited name none s cs) (hfree : s.tasks.lookup name = none) (hfree₀ : s₀.tasks.lookup name = none)
    (htwin : Session.Twin s s₀ none k)
    (hk : ∀ k', watching name none (launch job m cs s ms) = some k' → k' = k) :
    Mirrors name k (watching name none (launch job m cs s ms)) (launch job m cs s ms)
      (launch job m [.outside (polled cs) name] s₀ ms₀) := by
  cases hpolls : job.parsePolls with
  | none =>
    simp only [launch, hpolls] at hk ⊢
    exact mirrors_begin hm h hcallers hfree hfree₀ htwin hk
  | some polls =>
    have hactive : Active name k none ⟨.back job m none (.pending (.parsing polls job m)), cs, s, ms⟩ s₀ :=
      ⟨h, .back (fun j hj => by cases hj) ⟨rfl, hm⟩ htwin, hcallers, hfree, hfree₀⟩
    simp only [launch, hpolls]
    exact hactive.mirrors ms₀

namespace Active

theorem kept {run : Option RunId} {p : Progression} {f : Focus} {caller : Caller}
    (h : Active name k watch ⟨.back job m run p, caller :: cs, s, ms⟩ s₀) (hfocus : f.Clear watch s) :
    Mirrors name k (Moment.watching name watch ⟨f, cs, s.keep name p, ms⟩) ⟨f, cs, s.keep name p, ms⟩
      (.rest (s₀.keep name p) ms₀) := by
  cases h.doing with
  | back hrun hown htwin =>
    have hsize : s.runs.size ≤ (s.keep name p).runs.size :=
      Nat.le_of_eq (congrArg Array.size (Session.keep_of_free h.free p).1.symm)
    have hstanding := hown.keep h.orderly h.free
    obtain ⟨htwin', htask⟩ := htwin.keep h.free h.free₀ p
    have haside : (⟨f, cs, s.keep name p, ms⟩ : Moment).Aside name watch :=
      ⟨hstanding.orderly, hfocus.mono hsize, h.callers.2.2.mono hsize fun _ => .inl⟩
    rw [haside.watching]
    exact .resting ⟨haside, hstanding, htwin', htask⟩

/-- **One step of the job**, which is one step of the job alone. -/
theorem step (h : Active name k watch c s₀) (hstep : Step c c')
    (hk : ∀ k', Moment.watching name watch c' = some k' → k' = k) (ms₀ : List Mark) :
    ∃ d', Step ⟨c.focus, [.outside (polled c.callers) name], s₀, ms₀⟩ d' ∧
      Mirrors name k (Moment.watching name watch c') c' d' := by
  cases hstep with
  | @enter w n rest cs s ms =>
    cases h.doing with
    | @walk job m _ r hm hsteps halike =>
      obtain ⟨hn, hrest⟩ := List.forall_mem_cons.mp hsteps
      obtain rfl : n.run = k := hn
      exact h.goesOn (h.orderly.advance n.run n.id .traversingChildren) rfl
        (.walk hm hrest (halike.advance n.id .traversingChildren)) rfl .enter
  | @visit w n rest cs s ms =>
    cases h.doing with
    | @walk job m _ r hm hsteps halike =>
      obtain ⟨hn, hrest⟩ := List.forall_mem_cons.mp hsteps
      obtain rfl : n.run = k := hn
      have hseen : s₀.transcript n.run = s.transcript n.run := by
        rw [Session.transcript_of_runs halike.left, Session.transcript_of_runs halike.right]
      have hvisit := @Step.visit ⟨job, m, n.run⟩ n rest [.outside (polled cs) name] s₀ ms₀
      rw [hseen] at hvisit
      exact h.goesOn (h.orderly.visit n) rfl
        (.turn hm rfl hrest (hm _ n (h.orderly.transcript n.run)) (halike.visit (n := n) rfl)) rfl hvisit
  | @finish w cs s ms =>
    cases h.doing with
    | @walk job m _ r hm hsteps halike =>
      obtain ⟨hresult, htwin⟩ := halike.finish job (.ok ())
      have hfinish := @Step.finish ⟨job, m, k⟩ [.outside (polled cs) name] s₀ ms₀
      simp only [settle, ← hresult] at hfinish
      exact h.goesOn (h.orderly.finish k job (.ok ())) rfl (.back (fun j hj => hj) trivial htwin)
        (s₀.tasks_finish k job (.ok ())) hfinish
  | @call v q next cs s ms =>
    cases h.doing with
    | @turn job m node rest _ r hm hnode hrest hleft halike =>
      obtain ⟨hanswer, hgiven, r', halike'⟩ := halike.respond_within hleft.1
      have hcall := @Step.call ⟨⟨job, m, k⟩, node, rest⟩ q next [.outside (polled cs) name] s₀ ms₀
      simp only [← hanswer] at hcall
      exact h.goesOn (h.orderly.respond hleft.1).2 rfl (.turn hm hnode hrest (hleft.2 _ hgiven) halike')
        (s₀.quiet_respond k q).2 hcall
  | start =>
    cases h.doing with
    | turn hm hnode hrest hleft halike => exact absurd hleft.1 id
  | goOn hpolled =>
    cases h.doing with
    | turn hm hnode hrest hleft halike =>
      exact h.goesOn (.refl h.orderly k) rfl (.turn hm hnode hrest hleft halike) rfl (.goOn hpolled)
  | ready =>
    cases h.doing with
    | turn hm hnode hrest hleft halike =>
      exact h.goesOn (.refl h.orderly k) rfl (.turn hm hnode hrest hleft halike) rfl .ready
  | suspend hput =>
    cases h.doing with
    | turn hm hnode hrest hleft halike =>
      exact h.goesOn (.refl h.orderly k) rfl (.back (fun j hj => hj)
        ⟨rfl, ⟨hnode, hrest, hleft.putOff hput⟩, hm, _, halike.left, halike.live⟩ halike.twin) rfl (.suspend hput)
  | @succeed v cs s ms =>
    cases h.doing with
    | @turn job m node rest _ r hm hnode hrest hleft halike =>
      obtain rfl := hnode
      exact h.goesOn (h.orderly.advance node.run node.id .handled) rfl
        (.walk hm hrest (halike.advance node.id .handled)) rfl .succeed
  | @fail v e cs s ms =>
    cases h.doing with
    | @turn job m node rest _ r hm hnode hrest hleft halike =>
      obtain rfl := hnode
      have hend := h.orderly.advance node.run node.id .handled
      obtain ⟨hresult, htwin⟩ := (halike.advance node.id .handled).finish job (.error e)
      have hfail := @Step.fail ⟨⟨job, m, node.run⟩, node, rest⟩ e [.outside (polled cs) name] s₀ ms₀
      simp only [settle, Session.endTurn, ← hresult] at hfail
      exact h.goesOn (hend.trans (hend.orderly.finish node.run job (.error e))) rfl
        (.back (fun j hj => hj) trivial htwin) (Session.tasks_finish _ node.run job (.error e)) hfail
  | @answer job m run p name' v next cs s ms =>
    obtain ⟨rfl, ⟨hv, hnext⟩, -⟩ := h.callers
    exact ⟨_, .leave, h.kept ⟨hv, hnext _⟩⟩
  | @leave job m run p polling name' s ms =>
    obtain ⟨rfl, -⟩ := h.callers
    exact ⟨_, .leave, h.kept trivial⟩
  | @again job m run t name' s ms =>
    obtain ⟨rfl, -⟩ := h.callers
    refine ⟨_, .again, ?_⟩
    cases h.doing with
    | back hrun hown htwin =>
      cases t with
      | parsing polls job m =>
        obtain ⟨rfl, hm⟩ := hown
        cases polls with
        | zero => exact mirrors_begin hm h.orderly h.callers h.free h.free₀ htwin hk
        | succ n =>
          have hactive : Active name' k none
              ⟨.back job m none (.pending (.parsing n job m)), [.outside true name'], s, ms⟩ s₀ :=
            { h with doing := .back (fun j hj => by cases hj) ⟨rfl, hm⟩ htwin }
          exact hactive.mirrors ms₀
      | walking j node turn rest job m =>
        obtain ⟨rfl, ⟨hnode, hrest, hturn⟩, hm, r, hr, hlive⟩ := hown
        have halike := htwin.alike hr hlive (h.orderly.runs j r hr).2
        cases htwin
        have hactive : Active name' k (some k)
            ⟨.turn ⟨⟨job, m, k⟩, node, rest⟩ turn, [.outside true name'], s, ms⟩ s₀ :=
          { h with doing := .turn hm hnode hrest hturn halike }
        exact hactive.mirrors ms₀
  | launch | poll | drop | act => cases h.doing

theorem proceeds (h : Active name k watch c s₀) (hstep : Proceeds (Job.Other name) (fun _ => True) c c')
    (hk : ∀ k', Moment.watching name watch c' = some k' → k' = k) (ms₀ : List Mark) :
    ∃ d', Proceeds noJob (· = name) ⟨c.focus, [.outside (polled c.callers) name], s₀, ms₀⟩ d' ∧
      Mirrors name k (Moment.watching name watch c') c' d' := by
  cases hstep with
  | start => cases h.doing
  | poll => cases h.doing
  | inside step busy =>
    obtain ⟨d', hstep', hmirrors⟩ := h.step step hk ms₀
    refine ⟨d', .inside hstep' busy fun v job m next hstart => ?_, hmirrors⟩
    have hdoing := h.doing
    simp only at hstart
    rw [hstart] at hdoing
    cases hdoing with
    | turn hm hnode hrest hleft halike => exact hleft.1

end Active

/-! ## All moments -/

theorem run_of_own {t : Task} (h : s.Own watch (.pending t)) : ∀ j, t.run? = some j → watch = some j := by
  intro j hj
  cases t with
  | parsing polls job m => cases hj
  | walking run node turn rest job m =>
    cases hj
    exact h.1

theorem Resting.proceeds (h : Resting name k watch c s₀) (hstep : Proceeds (Job.Other name) (fun _ => True) c c')
    (ms₀ : List Mark) :
    ∃ d', Relation.ReflGen (Proceeds noJob (· = name)) (.rest s₀ ms₀) d' ∧
      Mirrors name k (watching name watch c') c' d' := by
  rcases h.aside.proceeds hstep with ⟨haside, hbeside⟩ | ⟨t, s, ms, hlookup, rfl, rfl⟩
  · refine ⟨_, .refl, ?_⟩
    rw [haside.watching]
    exact .resting ⟨haside, h.standing.beside hbeside, h.twin.beside hbeside, h.task.trans (hbeside 0).lookup.symm⟩
  · have htake : s₀.takeTask name = some (t, { s₀ with tasks := eraseNamed name s₀.tasks }) := by
      rw [Session.takeTask, h.task.trans hlookup]
      rfl
    have hown := h.standing.own t hlookup
    have hactive : Active name k watch ⟨.back t.job t.manipulator t.run? (.pending t), [.outside true name],
        { s with tasks := eraseNamed name s.tasks }, ms⟩ { s₀ with tasks := eraseNamed name s₀.tasks } :=
      ⟨h.aside.orderly.congr rfl fun _ hp _ => (List.mem_filter.mp hp).1,
        .back (run_of_own hown) (hown.congr rfl) (h.twin.congr rfl rfl rfl rfl), ⟨rfl, trivial, List.forall_mem_nil _⟩,
        lookup_eraseNamed_self name s.tasks, lookup_eraseNamed_self name s₀.tasks⟩
    exact ⟨_, .single (.poll rfl htake), hactive.mirrors ms₀⟩

theorem Mirrors.proceeds {d : Moment} (h : Mirrors name k watch c d)
    (hstep : Proceeds (Job.Other name) (fun _ => True) c c')
    (hk : ∀ k', watching name watch c' = some k' → k' = k) :
    ∃ d', Relation.ReflGen (Proceeds noJob (· = name)) d d' ∧ Mirrors name k (watching name watch c') c' d' := by
  cases h with
  | @active s₀ ms₀ h =>
    obtain ⟨d', hstep', hmirrors⟩ := h.proceeds hstep hk ms₀
    exact ⟨d', .single hstep', hmirrors⟩
  | @resting s₀ ms₀ h => exact h.proceeds hstep ms₀

/-- **Any number of steps.** The number of the job's run is fixed once the run is there. -/
theorem Mirrors.leads (watch : Option RunId)
    (hpath : Relation.ReflTransGen (Proceeds (Job.Other name) fun _ => True) c c') :
    ∃ watch', (∀ k, watch = some k → watch' = some k) ∧ ∀ k d, Mirrors name k watch c d →
      (∀ k', watch' = some k' → k' = k) →
      ∃ d', Relation.ReflTransGen (Proceeds noJob (· = name)) d d' ∧ Mirrors name k watch' c' d' := by
  -- which run is watched is up to the history of all, so it is the same for all sessions to be alone in
  induction hpath with
  | refl => exact ⟨watch, fun _ => id, fun k d h _ => ⟨d, .refl, h⟩⟩
  | @tail c₁ c₂ _ hstep ih =>
    obtain ⟨watch₁, hgrows, ih⟩ := ih
    have hkeeps : ∀ k, watch₁ = some k → watching name watch₁ c₂ = some k := by
      rintro k rfl
      rw [watching]
      split
      · rfl
      · rfl
    refine ⟨watching name watch₁ c₂, fun k hk => hkeeps k (hgrows k hk), fun k d h hk => ?_⟩
    obtain ⟨d₁, hpath₁, h₁⟩ := ih k d h fun k' hk' => hk k' (hkeeps k' hk')
    obtain ⟨d₂, hpath₂, h₂⟩ := h₁.proceeds hstep hk
    exact ⟨d₂, hpath₁.trans hpath₂.to_reflTransGen, h₂⟩

theorem Aside.leads (h : c.Aside name watch) (hfree : c.session.tasks.lookup name = none)
    (hpath : Relation.ReflTransGen (Proceeds (Job.Other name) fun _ => True) c c') :
    c'.Aside name watch ∧ c'.session.tasks.lookup name = none ∧
      ∀ b, c'.session.adapter? b = c.session.adapter? b := by
  induction hpath with
  | refl => exact ⟨h, hfree, fun _ => rfl⟩
  | tail _ hstep ih =>
    obtain ⟨haside, hfree, hadapter⟩ := ih
    rcases haside.proceeds hstep with ⟨haside', hbeside⟩ | ⟨t, s, ms, hlookup, rfl, -⟩
    · exact ⟨haside', (hbeside 0).lookup.trans hfree, fun b => ((hbeside 0).adapter b).trans (hadapter b)⟩
    · rw [show s.tasks.lookup name = none from hfree] at hlookup
      cases hlookup

end

/-- The job under the name stands in the one moment as in the other, in which it is alone. It does the same if it is at
work, and what is left of it for later is the same, and so is its run, which has the number `k`. -/
structure AsAlone (name : String) (k : RunId) (c d : Moment) : Prop where
  focus : d.focus = if c.callers.head?.map Caller.name = some name then c.focus else .idle
  task : d.session.tasks.lookup name = c.session.tasks.lookup name
  run : ∀ r, d.session.runs[k]? = some r → c.session.runs[k]? = some r

theorem Mirrors.asAlone {name : String} {k : RunId} {watch : Option RunId} {c d : Moment}
    (h : Mirrors name k watch c d) : c.AsAlone name k d := by
  cases h with
  | active h => exact ⟨(if_pos h.callers.head?).symm, h.free₀.trans h.free.symm, fun r => h.doing.twin.same_run⟩
  | resting h => exact ⟨(if_neg h.aside.head?_ne).symm, h.task, fun r => h.twin.same_run⟩

/-- **A job that is started in the turn of another** comes out as it does alone, too. Let the turns of all keep to their
runs, and let nobody else start a job under its name. At every later moment it stands as it does in a history in which
it is started from outside, in a session where the next run gets the same number `k`, and nobody but this job is
polled. -/
theorem started_in_turn_independent (adapters : Array Adapter) (job : Job) {m : Manipulator} {v : Visit}
    {next : Started → Turn} {cs : List Caller} {s : Session} {ms : List Mark} {c : Moment}
    (hm : Manipulator.Within noJob m)
    (hbefore : Relation.ReflTransGen (Proceeds (Job.Other job.name) fun _ => True) (.rest (.ofAdapters adapters) [])
      ⟨.turn v (.start job m next), cs, s, ms⟩)
    (hafter : Relation.ReflTransGen (Proceeds (Job.Other job.name) fun _ => True)
      (launch job m (.turn job.name v next :: cs) s ms) c) :
    ∃ k, ∀ s₀ : Session, s₀.runs.size = k → (∀ b, s₀.adapter? b = adapters[b]?) →
      s₀.tasks.lookup job.name = none →
      ∃ d, Relation.ReflTransGen (Proceeds noJob (· = job.name)) (launch job m [.outside false job.name] s₀ []) d ∧
        c.AsAlone job.name k d := by
  have hrest : (rest (.ofAdapters adapters) []).Aside job.name none :=
    ⟨Session.orderly_ofAdapters adapters anyJob job.name, trivial, List.forall_mem_nil _⟩
  obtain ⟨haside, hfree, hadapter⟩ := hrest.leads rfl hbefore
  obtain ⟨hv, -, -, hnext⟩ := haside.focus
  have hcallers : Awaited job.name none s (.turn job.name v next :: cs) := ⟨rfl, ⟨hv, hnext⟩, haside.callers⟩
  obtain ⟨watch, hgrows, hleads⟩ :=
    Mirrors.leads (watching job.name none (launch job m (.turn job.name v next :: cs) s ms)) hafter
  have hk : ∀ k, watch = some k → k = watch.getD 0 := by
    rintro k rfl
    rfl
  refine ⟨watch.getD 0, fun s₀ hsize hadapter₀ hfree₀ => ?_⟩
  have htwin : Session.Twin s s₀ none (watch.getD 0) := by
    refine .ahead hsize fun b => ?_
    rw [hadapter₀, ← Session.adapter?_ofAdapters]
    exact hadapter b
  obtain ⟨d, hpath, hmirrors⟩ := hleads _ _ (mirrors_launch hm haside.orderly hcallers hfree hfree₀ htwin
    fun k hk' => hk k (hgrows k hk')) hk
  exact ⟨d, hpath, hmirrors.asAlone⟩

/-- A job puts itself off when it is started in the turn of another, which then goes on. -/
theorem started_in_turn_independent_second :
    let adapter : Adapter := { name := "any", isNode := fun _ => true }
    let leaf : Tree := { kind := "leaf", span := ⟨0, 1⟩ }
    let job (name : String) : Job :=
      { name, binding := 0, code := "x", parsePolls := none, parsed := .ok leaf, sharedTree := true, map := {},
        lookups := [] }
    let late : Manipulator := fun _ _ => .defer (.done (.ok ()))
    ∃ v next cs s ms c,
      Relation.ReflTransGen (Proceeds (Job.Other "second") fun _ => True) (.rest (.ofAdapters #[adapter]) [])
        ⟨.turn v (.start (job "second") late next), cs, s, ms⟩ ∧
      Relation.ReflTransGen (Proceeds (Job.Other "second") fun _ => True)
        (launch (job "second") late (.turn "second" v next :: cs) s ms) c ∧
      c.session.tasks.lookup "second" ≠ none ∧
      ∃ (k : RunId) (s₀ : Session) (d : Moment), s₀.runs.size = k ∧
        Relation.ReflTransGen (Proceeds noJob (· = "second"))
          (launch (job "second") late [.outside false "second"] s₀ []) d ∧
        c.AsAlone "second" k d := by
  intro adapter leaf job late
  let node (run : RunId) : Node := ⟨run, 0, leaf, .ofBinding 0⟩
  let busy : Manipulator := fun _ _ => .start (job "second") late fun _ => .done (.ok ())
  have hlate : ∀ may, Manipulator.Within may late := fun may seen node _ => trivial
  have hbusy : Manipulator.Within anyJob busy := fun seen node _ => ⟨trivial, hlate anyJob, fun _ => trivial⟩
  have hother : (job "first").Other "second" := by
    rw [Job.Other]
    decide
  have hvalid : ∀ u ∈ leaf.preorder, Arena.validSpan "x".toList u.span = true := by decide
  have hlaunch : ∀ name m cs s ms, launch (job name) m cs s ms =
      ⟨.walk ⟨job name, m, s.runs.size⟩ [.enter (node s.runs.size), .visit (node s.runs.size)], cs,
        (s.addRun (job name) (.ofTree leaf)).2, ms⟩ := by
    intro name m cs s ms
    have hsteps : (job name).steps leaf s.runs.size = [.enter (node s.runs.size), .visit (node s.runs.size)] := rfl
    simp only [launch, show (job name).parsePolls = none from rfl]
    rw [begin_eq_walk (show (job name).parsed = .ok leaf from rfl) hvalid, hsteps]
  have hwalks : ∀ {w steps cs s ms c}, Step ⟨.walk w steps, cs, s, ms⟩ c →
      Proceeds (Job.Other "second") (fun _ => True) ⟨.walk w steps, cs, s, ms⟩ c :=
    fun hstep => .inside hstep (fun h => by cases h) fun _ _ _ _ h => by cases h
  obtain ⟨v, s, ms, htasks, hbefore⟩ : ∃ v s ms, s.tasks = [] ∧ Relation.ReflTransGen
      (Proceeds (Job.Other "second") fun _ => True) (.rest (.ofAdapters #[adapter]) [])
      ⟨.turn v (.start (job "second") late fun _ => .done (.ok ())), [.outside false "first"], s, ms⟩ := by
    have hstart : Relation.ReflTransGen (Proceeds (Job.Other "second") fun _ => True)
        (.rest (.ofAdapters #[adapter]) []) _ := .single (.start hother hbusy)
    rw [hlaunch] at hstart
    refine ⟨_, _, _, ?_, hstart.tail (hwalks .enter) |>.tail (hwalks .visit)⟩
    rfl
  obtain ⟨c, hafter, hkept⟩ : ∃ c, Relation.ReflTransGen (Proceeds (Job.Other "second") fun _ => True)
      (launch (job "second") late [.turn "second" v fun _ => .done (.ok ()), .outside false "first"] s ms) c ∧
      c.session.tasks.lookup "second" ≠ none := by
    have hkeep : ∀ (s : Session) (t : Task), s.tasks = [] →
        (s.keep "second" (.pending t)).tasks.lookup "second" ≠ none := by
      intro s t htasks
      rw [(Session.keep_of_free (congrArg (List.lookup "second") htasks) _).2.2.1]
      exact Option.some_ne_none t
    rw [hlaunch]
    refine ⟨_, .head (hwalks .enter) <| .head (hwalks .visit) <|
      .head (.inside (.suspend rfl) (fun h => by cases h) fun _ _ _ _ h => by cases h) <|
      .single (.inside .answer (fun h => by cases h) fun _ _ _ _ h => by cases h), ?_⟩
    exact hkeep _ _ htasks
  obtain ⟨k, hk⟩ := started_in_turn_independent #[adapter] (job "second") (hlate noJob) hbefore hafter
  -- a session in which `k` runs have failed
  let past : Run :=
    { id := 0, binding := 0, key := .ofRun 0, arena := .ofTree leaf, buffer := { base := [] }, map := {},
      phase := .failed, held := false }
  let s₀ : Session := { Session.ofAdapters #[adapter] with runs := .replicate k past }
  have hsize : s₀.runs.size = k := Array.size_replicate
  obtain ⟨d, hd, halone⟩ := hk s₀ hsize (Session.adapter?_ofAdapters #[adapter]) rfl
  exact ⟨_, _, _, _, _, c, hbefore, hafter, hkept, k, s₀, d, hsize, hd, halone⟩

end Moment

end TreeEdit
