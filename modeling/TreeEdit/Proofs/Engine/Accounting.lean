import Mathlib.Data.List.Nodup
import TreeEdit.Proofs.Engine.Endings

/-!
# Runs in flight, counted

A binding counts the runs of its store that something keeps alive. Runs enter the store when their walks begin and leave
it when these end, dead ones are thrown out when another run begins, and nothing but a flag of the run tells whether its
result is awaited. If no task is ever given up (`Moment.Steady`), all this comes to the same: the store of a binding
has the runs whose walks go on, each once, and a run is found there just as long as it is in flight
(`in_flight_accounting`).
-/

namespace TreeEdit

/-! ## Runs that are let go of -/

namespace Session

variable {s s' : Session}

/-- No run has been let go of. -/
def AllHeld (s : Session) : Prop :=
  ∀ (k : RunId) r, s.runs[k]? = some r → r.held = true

namespace AllHeld

theorem of_runs (h : s.AllHeld) (hruns : s'.runs = s.runs) : s'.AllHeld := by
  intro k r hr
  exact h k r (hruns ▸ hr)

theorem modifyRun (h : s.AllHeld) (run : RunId) {f : Run → Run}
    (hf : ∀ r, s.runs[run]? = some r → (f r).held = r.held) : (s.modifyRun run f).AllHeld := by
  intro k r hr
  rw [Session.modifyRun, Array.getElem?_modify] at hr
  split at hr
  · rename_i heq
    subst heq
    obtain ⟨r₀, hr₀, rfl⟩ := Option.map_eq_some_iff.mp hr
    rw [hf r₀ hr₀]
    exact h run r₀ hr₀
  · exact h k r hr

theorem perform (h : s.AllHeld) (q : Request) : (s.perform q).2.AllHeld := by
  rcases s.perform_cases q with ⟨actor, n, text, s', rfl, hover⟩ | ⟨hruns, -⟩
  · obtain ⟨target, r, r', hgrants⟩ := exists_grants hover
    rw [hgrants.perform]
    refine h.modifyRun target.run fun r₁ hr₁ => ?_
    obtain rfl : r = r₁ := Option.some.inj (hgrants.run.symm.trans hr₁)
    obtain ⟨-, -, -, -, rfl⟩ := Run.override_eq_ok hgrants.override
    rfl
  · exact h.of_runs hruns

theorem addRun (h : s.AllHeld) (job : Job) (arena : Arena) : (s.addRun job arena).2.AllHeld := by
  intro k r hr
  simp only [Session.addRun, modifyStore, Array.getElem?_push] at hr
  split at hr
  · cases hr
    rfl
  · exact h k r hr

theorem finish (h : s.AllHeld) (run : RunId) (job : Job) (walked : Except TransformError Unit) :
    (s.finish run job walked).2.AllHeld := by
  have hstore : (s.modifyStore job.binding fun store => store.filter (· != run)).AllHeld := h.of_runs rfl
  rw [finish_session]
  exact hstore.modifyRun run fun _ _ => rfl

theorem keep (h : s.AllHeld) {name : String} {p : Progression}
    (hfree : ∀ t, p = .pending t → s.tasks.lookup name = none) : (s.keep name p).AllHeld := by
  cases p with
  | finished result => exact h
  | pending t =>
    rw [Session.keep, putTask, hfree t rfl]
    exact h.of_runs rfl

theorem alive (h : s.AllHeld) {k : RunId} {st : Status} (hst : s.status k = some st) : s.alive k = true := by
  obtain ⟨r, hr, -⟩ := Option.map_eq_some_iff.mp hst
  simp [Session.alive, hr, h k r hr]

end AllHeld

end Session

/-! ## Histories in which nothing is given up -/

namespace Moment

variable {adapters : Array Adapter} {c c' : Moment}

/-- In the step a task is given up: it is dropped, or a task that is kept under its name takes its place. -/
inductive GivesUp : Moment → Moment → Prop
  | dropped {name t s ms} (h : s.tasks.lookup name = some t) : GivesUp (.rest s ms) (.rest (s.drop name).2 ms)
  | replacedInTurn {job m run t old name v next cs s ms} (h : s.tasks.lookup name = some old) :
    GivesUp ⟨.back job m run (.pending t), .turn name v next :: cs, s, ms⟩
      ⟨.turn v (next .deferred), cs, s.putTask name t, ms⟩
  | replaced {job m run t old polling name s ms} (h : s.tasks.lookup name = some old) :
    GivesUp ⟨.back job m run (.pending t), [.outside polling name], s, ms⟩ (.rest (s.putTask name t) ms)

/-- The moments of histories in which no task is given up. -/
def Steady (adapters : Array Adapter) : Moment → Prop :=
  Relation.ReflTransGen (fun c c' => Step c c' ∧ ¬ GivesUp c c') (.rest (.ofAdapters adapters) [])

theorem Steady.reachable (h : Steady adapters c) : Reachable adapters c :=
  Relation.ReflTransGen.mono (fun _ _ hstep => hstep.1) _ _ h

section

variable {job : Job} {m : Manipulator} {cs : List Caller} {s : Session} {ms : List Mark}

theorem allHeld_begin (h : s.AllHeld) : (begin job m cs s ms).session.AllHeld := by
  rw [begin]
  split
  · exact h
  · split
    · exact h
    · exact h.addRun job _

theorem allHeld_launch (h : s.AllHeld) : (launch job m cs s ms).session.AllHeld := by
  rw [launch]
  split
  · exact h
  · exact allHeld_begin h

end

theorem Step.allHeld (hstep : Step c c') (hkeeps : ¬ GivesUp c c') (h : c.session.AllHeld) : c'.session.AllHeld := by
  cases hstep with
  | enter => exact h.modifyRun _ fun _ _ => rfl
  | visit => exact h.modifyRun _ fun _ _ => rfl
  | finish => exact h.finish _ _ _
  | @call v q next cs s ms => exact (h.perform q).modifyRun v.work.run fun _ _ => rfl
  | start => exact allHeld_launch h
  | goOn => exact h
  | ready => exact h
  | suspend => exact h
  | succeed => exact h.modifyRun _ fun _ _ => rfl
  | @fail v e cs s ms =>
    have hend : (s.endTurn v.node).AllHeld := h.modifyRun v.node.run fun _ _ => rfl
    exact hend.finish _ _ _
  | @answer job m run p name v next cs s ms =>
    refine h.keep fun t hp => ?_
    subst hp
    by_contra hold
    obtain ⟨old, hold⟩ := Option.ne_none_iff_exists'.mp hold
    exact hkeeps (.replacedInTurn hold)
  | @leave job m run p polling name s ms =>
    refine h.keep fun t hp => ?_
    subst hp
    by_contra hold
    obtain ⟨old, hold⟩ := Option.ne_none_iff_exists'.mp hold
    exact hkeeps (.replaced hold)
  | @again job m run t name s ms =>
    cases t with
    | walking run node turn rest job m => exact h
    | parsing polls job m =>
      cases polls with
      | zero => exact allHeld_begin h
      | succ n => exact h
  | launch => exact allHeld_launch h
  | @poll name t s s' ms htake =>
    obtain ⟨t', -, heq⟩ := Option.map_eq_some_iff.mp htake
    cases heq
    exact h.of_runs rfl
  | @drop name s ms =>
    cases hlookup : s.tasks.lookup name with
    | none =>
      rw [rest, Session.drop, Session.takeTask, hlookup]
      exact h
    | some t => exact absurd (.dropped hlookup) hkeeps
  | act => exact h.perform _

theorem Steady.allHeld (h : Steady adapters c) : c.session.AllHeld := by
  induction h with
  | refl =>
    intro k r hr
    simp [rest, Session.ofAdapters] at hr
  | tail _ hstep ih => exact hstep.1.allHeld hstep.2 ih

end Moment

/-! ## Walks that go on -/

/-- The binding through which the job was started. -/
def Post.binding : Post → BindingId
  | .parsing job => job.binding
  | .walking w .. => w.job.binding

/-- The runs of the jobs that were started through a binding and whose walks have begun and go on. -/
def Moment.walks (c : Moment) (b : BindingId) : List RunId :=
  (c.posts.filter (·.binding == b)).filterMap Post.run?

/-- The binding has the run in its store, and something keeps the run alive. -/
def Session.Finds (s : Session) (b : BindingId) (k : RunId) : Prop :=
  ∃ binding, s.bindings[b]? = some binding ∧ k ∈ binding.store ∧ s.alive k = true

theorem Session.Finds.serves {s : Session} {b : BindingId} {n : Node} {r : Run} (h : s.Finds b n.run)
    (hr : s.runs[n.run]? = some r) : s.Serves (.binding b) n r := by
  obtain ⟨binding, hb, hk, halive⟩ := h
  refine serves_of_resolve hr ?_
  simp [resolve, locate, hb, hk, halive]

namespace Moment

variable {adapters : Array Adapter} {c c' : Moment}

theorem Reachable.nodup_walks (h : Reachable adapters c) (b : BindingId) : (c.walks b).Nodup :=
  (List.filter_sublist.filterMap Post.run?).nodup h.inv.apart

theorem Reachable.mem_walks_iff (h : Reachable adapters c) {b : BindingId} {k : RunId} :
    k ∈ c.walks b ↔ ∃ r, c.session.runs[k]? = some r ∧ r.binding = b ∧ r.phase = .inFlight ∧ r.held = true := by
  have hbinding : ∀ p ∈ c.posts, p.run? = some k → ∀ r, c.session.runs[k]? = some r → r.binding = p.binding := by
    intro p hp hrun r hr
    have hsound := h.inv.sound p hp
    cases p with
    | parsing job => cases hrun
    | walking w here steps po =>
      cases hrun
      obtain ⟨root, past, hat⟩ := hsound
      exact congrArg Status.binding (hat.status_eq hr)
  rw [walks, List.mem_filterMap]
  constructor
  · rintro ⟨p, hp, hrun⟩
    obtain ⟨hp, hb⟩ := List.mem_filter.mp hp
    obtain ⟨r, hr, hphase, hheld⟩ := (h.atWork_iff k).mp ⟨p, hp, hrun⟩
    exact ⟨r, hr, (hbinding p hp hrun r hr).trans (by simpa using hb), hphase, hheld⟩
  · rintro ⟨r, hr, hb, hphase, hheld⟩
    obtain ⟨p, hp, hrun⟩ := (h.atWork_iff k).mpr ⟨r, hr, hphase, hheld⟩
    refine ⟨p, List.mem_filter.mpr ⟨hp, ?_⟩, hrun⟩
    rw [← hbinding p hp hrun r hr, hb, beq_self_eq_true]

theorem Steady.mem_walks_iff (h : Steady adapters c) {b : BindingId} {k : RunId} :
    k ∈ c.walks b ↔ ∃ r, c.session.runs[k]? = some r ∧ r.binding = b ∧ r.phase = .inFlight := by
  rw [h.reachable.mem_walks_iff]
  refine exists_congr fun r => and_congr_right fun hr => and_congr_right fun _ => ?_
  exact and_iff_left (h.allHeld k r hr)

/-- **A store has the runs whose walks go on**, and no others. -/
theorem Steady.mem_store_iff (h : Steady adapters c) {b : BindingId} {binding : Binding}
    (hb : c.session.bindings[b]? = some binding) {k : RunId} : k ∈ binding.store ↔ k ∈ c.walks b := by
  rw [h.mem_walks_iff]
  constructor
  · intro hk
    obtain ⟨st, hst, hbinding, hphase⟩ := h.reachable.stocked.sound b binding hb k hk
    obtain ⟨r, hr, rfl⟩ := Option.map_eq_some_iff.mp hst
    exact ⟨r, hr, hbinding, hphase⟩
  · rintro ⟨r, hr, rfl, hphase⟩
    have hst : c.session.status k = some r.status := by rw [Session.status, hr]; rfl
    exact h.reachable.stocked.awaited k r.status binding ⟨r, hr, hphase, h.allHeld k r hr⟩ hst hb

theorem Steady.alive_of_mem_store (h : Steady adapters c) {b : BindingId} {binding : Binding}
    (hb : c.session.bindings[b]? = some binding) {k : RunId} (hk : k ∈ binding.store) : c.session.alive k = true := by
  obtain ⟨st, hst, -⟩ := h.reachable.stocked.sound b binding hb k hk
  exact h.allHeld.alive hst

theorem Steady.inFlightOf_eq (h : Steady adapters c) {b : BindingId} {binding : Binding}
    (hb : c.session.bindings[b]? = some binding) : c.session.inFlightOf binding = (c.walks b).length := by
  have hall : binding.store.countP c.session.alive = binding.store.length :=
    List.countP_eq_length.mpr fun k hk => h.alive_of_mem_store hb hk
  have hperm : binding.store.Perm (c.walks b) :=
    (List.perm_ext_iff_of_nodup (h.reachable.stocked.nodup b binding hb) (h.reachable.nodup_walks b)).mpr
      fun k => h.mem_store_iff hb
  rw [Session.inFlightOf, hall, hperm.length_eq]

theorem Reachable.binding_of_lt (h : Reachable adapters c) {b : BindingId} :
    (∃ binding, c.session.bindings[b]? = some binding) ↔ b < adapters.size := by
  have hadapter : c.session.adapter? b = adapters[b]? := by rw [h.evolves.adapter, Session.adapter?_ofAdapters]
  rw [Session.adapter?] at hadapter
  constructor
  · rintro ⟨binding, hb⟩
    rw [hb] at hadapter
    exact (Array.getElem?_eq_some_iff.mp hadapter.symm).1
  · intro hlt
    rw [Array.getElem?_eq_getElem hlt] at hadapter
    obtain ⟨binding, hb, -⟩ := Option.map_eq_some_iff.mp hadapter
    exact ⟨binding, hb⟩

theorem Steady.inFlight_eq (h : Steady adapters c) :
    c.session.inFlight = (List.range adapters.size).map fun b => (c.walks b).length := by
  refine List.ext_getElem? fun b => ?_
  rw [Session.inFlight, List.getElem?_map, List.getElem?_map, Array.getElem?_toList]
  by_cases hlt : b < adapters.size
  · obtain ⟨binding, hb⟩ := h.reachable.binding_of_lt.mpr hlt
    rw [hb, List.getElem?_range hlt, Option.map_some, Option.map_some, h.inFlightOf_eq hb]
  · have hnone : c.session.bindings[b]? = none := by
      by_contra hsome
      obtain ⟨binding, hb⟩ := Option.ne_none_iff_exists'.mp hsome
      exact hlt (h.reachable.binding_of_lt.mp ⟨binding, hb⟩)
    rw [hnone, List.getElem?_eq_none (by simpa using hlt)]
    rfl

theorem Steady.finds_iff (h : Steady adapters c) {b : BindingId} {k : RunId} {r : Run}
    (hr : c.session.runs[k]? = some r) :
    c.session.Finds b k ↔ b < adapters.size ∧ b = r.binding ∧ r.phase = .inFlight := by
  have hwalks : k ∈ c.walks b ↔ b = r.binding ∧ r.phase = .inFlight := by
    rw [h.mem_walks_iff]
    constructor
    · rintro ⟨r', hr', hb, hphase⟩
      obtain rfl : r = r' := Option.some.inj (hr.symm.trans hr')
      exact ⟨hb.symm, hphase⟩
    · rintro ⟨hb, hphase⟩
      exact ⟨r, hr, hb.symm, hphase⟩
  constructor
  · rintro ⟨binding, hb, hk, -⟩
    exact ⟨h.reachable.binding_of_lt.mp ⟨binding, hb⟩, hwalks.mp ((h.mem_store_iff hb).mp hk)⟩
  · rintro ⟨hlt, hflight⟩
    obtain ⟨binding, hb⟩ := h.reachable.binding_of_lt.mpr hlt
    have hk : k ∈ binding.store := (h.mem_store_iff hb).mpr (hwalks.mpr hflight)
    exact ⟨binding, hb, hk, h.alive_of_mem_store hb hk⟩

theorem Reachable.id_eq_iff (h : Reachable adapters c) (h' : Reachable adapters c') {j k : RunId} {r r' : Run}
    (hr : c.session.runs[k]? = some r) (hr' : c'.session.runs[j]? = some r') :
    (r'.id = r.id ↔ j = k) ∧ (c.session.runs[j]? = none → r.id < r'.id) := by
  rw [(h.regular hr).id, (h'.regular hr').id]
  refine ⟨.rfl, fun hnone => ?_⟩
  have hk : k < c.session.runs.size := (Array.getElem?_eq_some_iff.mp hr).1
  have hj : c.session.runs.size ≤ j := Array.getElem?_eq_none_iff.mp hnone
  exact Nat.lt_of_lt_of_le hk hj

/-- **Bindings keep account of their runs.** At every moment of every history in which no task is given up, the number
of runs that a binding has in flight is that of the walks that were begun through it and go on, each the walk of a run
of its own. Such a walk goes on just as long as its run is in flight. A run is found in the store of its own binding
exactly as long as it is in flight, and never in that of another; what is found there is the run itself. Different runs
have different numbers, at whichever moments they are looked at, and one that begins later has the larger number. -/
theorem in_flight_accounting (h : Steady adapters c) :
    c.session.perform .inFlight = ((List.range adapters.size).map fun b => (c.walks b).length, c.session) ∧
    (∀ b, (c.walks b).Nodup ∧
      ∀ k, k ∈ c.walks b ↔ ∃ r, c.session.runs[k]? = some r ∧ r.binding = b ∧ r.phase = .inFlight) ∧
    (∀ (k : RunId) r, c.session.runs[k]? = some r →
      (∀ b, c.session.Finds b k ↔ b < adapters.size ∧ b = r.binding ∧ r.phase = .inFlight) ∧
      (∀ b n, n.run = k → c.session.Finds b k → c.session.Serves (.binding b) n r) ∧
      ∀ c', Leads c c' → ∀ (j : RunId) r', c'.session.runs[j]? = some r' →
        (r'.id = r.id ↔ j = k) ∧ (c.session.runs[j]? = none → r.id < r'.id)) ∧
    c.Agrees := by
  refine ⟨congrArg (·, c.session) h.inFlight_eq, fun b => ⟨h.reachable.nodup_walks b, fun k => h.mem_walks_iff⟩,
    fun k r hr => ⟨fun b => h.finds_iff hr, ?_, ?_⟩, c.agrees⟩
  · rintro b n rfl hfinds
    exact hfinds.serves hr
  · intro c' hleads j r' hr'
    exact h.reachable.id_eq_iff (h.reachable.trans hleads) hr hr'

theorem not_givesUp_of_no_tasks (h : c.session.tasks = []) : ¬ GivesUp c c' := by
  have hnone : ∀ name, c.session.tasks.lookup name = none := by simp [h]
  intro hgives
  cases hgives with
  | @dropped name t s ms hlookup => cases (hnone name).symm.trans hlookup
  | replacedInTurn hlookup => cases (hnone _).symm.trans hlookup
  | replaced hlookup => cases (hnone _).symm.trans hlookup

theorem Steady.step (h : Steady adapters c) (hstep : Step c c') (htasks : c.session.tasks = []) : Steady adapters c' :=
  h.tail ⟨hstep, not_givesUp_of_no_tasks htasks⟩

/-- A run has come to its end and another, of another binding, is at work. -/
theorem in_flight_accounting_two_bindings :
    let adapter : Adapter := { name := "any", isNode := fun _ => true }
    ∃ c, Steady #[adapter, adapter] c ∧ c.walks 0 = [] ∧ c.walks 1 = [1] ∧
      c.session.perform .inFlight = ([0, 1], c.session) ∧ ∃ r₀ r₁, c.session.runs[0]? = some r₀ ∧
        c.session.runs[1]? = some r₁ ∧ r₀.phase = .completed ∧ ¬ c.session.Finds 0 0 ∧ c.session.Finds 1 1 ∧
        ¬ c.session.Finds 0 1 ∧ r₀.id < r₁.id := by
  intro adapter
  let root : Tree := { kind := "leaf", span := ⟨0, 1⟩ }
  let job (name : String) (b : BindingId) : Job :=
    { name, binding := b, code := "x", parsePolls := none, parsed := .ok root, sharedTree := false, map := {},
      lookups := [] }
  let m : Manipulator := fun _ _ => .done (.ok ())
  have hvalid : ∀ u ∈ root.preorder, Arena.validSpan "x".toList u.span = true := by decide
  have hfirst : Steady #[adapter, adapter] _ :=
    Steady.step .refl (Step.launch_walk m (.ofAdapters #[adapter, adapter]) []
      (show (job "first" 0).parsePolls = none from rfl) rfl hvalid) rfl
  have hover := hfirst |>.step .enter rfl |>.step .visit rfl |>.step .succeed rfl |>.step .finish rfl
    |>.step .leave (Session.tasks_finish _ _ _ _)
  have hsecond := hover.step (Step.launch_walk m _ _ (show (job "second" 1).parsePolls = none from rfl) rfl hvalid)
    (Session.tasks_finish _ _ _ _)
  obtain ⟨hcounts, -, hruns, -⟩ := in_flight_accounting hsecond
  refine ⟨_, hsecond, rfl, rfl, hcounts, _, _, rfl, rfl, rfl, ?_, ?_, ?_, ?_⟩
  · exact fun hfinds => by cases (((hruns 0 _ rfl).1 0).mp hfinds).2.2
  · exact ((hruns 1 _ rfl).1 1).mpr ⟨by decide, rfl, rfl⟩
  · exact fun hfinds => by cases (((hruns 1 _ rfl).1 0).mp hfinds).2.1
  · decide

end Moment

end TreeEdit
