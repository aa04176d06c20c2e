import TreeEdit.Proofs.Engine.Lifecycle
import TreeEdit.Proofs.Engine.Routes
import TreeEdit.Proofs.Engine.Stores

/-!
# How runs end

A run ends with its walk, or when the task of its job is given up. What is left of it then depends on how it is reached.

After the end of the walk, bindings and helpers of other runs find nothing any more. Helpers of the run itself never
look at how it has come out, and go on to read its last text and its tree (`finished_routes`).

Giving up a task lets go of the run and no more: the run stays in flight. It is over for everybody only if no helpers
of it are kept, for such helpers keep it alive (`dropped_run`).
-/

namespace TreeEdit

/-- Helpers of the run, as opposed to those of others and to bindings. -/
def Actor.OfRun (run : RunId) : Actor → Prop
  | .helpers bound => bound.run = run
  | .binding _ => False

/-! ## What no change touches -/

namespace Run

variable {r r' : Run}

theorem Change.keeps (h : Change r r') : r'.id = r.id ∧ r'.key = r.key ∧ (r.held = false → r'.held = false) := by
  cases h with
  | edited h =>
    obtain ⟨e, buffer, -, -, rfl⟩ := override_eq_ok h
    exact ⟨rfl, rfl, fun hheld => hheld⟩
  | recorded e => exact ⟨rfl, rfl, fun hheld => hheld⟩
  | released => exact ⟨rfl, rfl, fun _ => rfl⟩
  | advanced id state h => exact ⟨rfl, rfl, fun hheld => hheld⟩
  | settled walked h => exact ⟨rfl, rfl, fun hheld => hheld⟩

theorem Changes.keeps (h : Changes r r') : r'.id = r.id ∧ r'.key = r.key ∧ (r.held = false → r'.held = false) := by
  induction h with
  | refl => exact ⟨rfl, rfl, fun hheld => hheld⟩
  | tail _ hchange ih =>
    obtain ⟨hid, hkey, hheld⟩ := hchange.keeps
    exact ⟨hid.trans ih.1, hkey.trans ih.2.1, hheld ∘ ih.2.2⟩

theorem source_ne_runFinished {id : Nat} {e : NodeEntry} (he : r.arena.get? id = some e) :
    r.source id ≠ .error .runFinished := by
  intro h
  simp only [source, he, Buffer.slice] at h
  rcases r.buffer.checkEdges_cases e.tree.span with ⟨hok, -⟩ | ⟨existing, herror, -⟩
  · rw [hok] at h
    cases h
  · rw [herror] at h
    cases h

end Run

/-! ## Finished runs -/

namespace Session

variable {s : Session} {n : Node} {actor : Actor} {r : Run}

/-- What those hear who read a node. -/
structure Answers (s : Session) (actor : Actor) (n : Node) (text : Except TransformError String)
    (ancestors : Nat → Option Node) (children : List Node) : Prop where
  source : s.perform (.source actor n) = (text, s)
  ancestor : ∀ levels, s.perform (.ancestor actor n levels) = (ancestors levels, s)
  children : s.perform (.children actor n) = (children, s)

def Shut (s : Session) (actor : Actor) (n : Node) : Prop :=
  s.Answers actor n (.error .runFinished) (fun _ => none) []

theorem shut_of_resolve (h : s.resolve actor n = .completed ∨ s.resolve actor n = .gone) : s.Shut actor n := by
  have hsource : s.source actor n = .error .runFinished := by rcases h with h | h <;> simp only [source, h]
  have hancestor : ∀ levels, s.ancestor actor n levels = none := by
    rcases h with h | h <;> simp only [ancestor, h, implies_true]
  have hchildren : s.children actor n = [] := by rcases h with h | h <;> simp only [children, h]
  exact ⟨congrArg (·, s) hsource, fun levels => congrArg (·, s) (hancestor levels), congrArg (·, s) hchildren⟩

theorem Serves.answers (h : s.Serves actor n r) :
    s.Answers actor n (r.source n.id) (r.ancestor n.id) (r.children n.id) :=
  ⟨h.source, h.ancestor, h.children⟩

theorem Serves.not_shut (h : s.Serves actor n r) (hn : r.ref? n.id = some n) : ¬ s.Shut actor n := by
  intro hshut
  obtain ⟨e, he, -⟩ := Option.map_eq_some_iff.mp hn
  have htext : r.source n.id = .error .runFinished := congrArg Prod.fst (h.source.symm.trans hshut.source)
  exact Run.source_ne_runFinished he htext

theorem resolve_own_helpers (h : actor.Reaches s n) (hown : actor.OfRun n.run) :
    s.resolve actor n = .node n.run n.id := by
  cases actor with
  | binding b => exact hown.elim
  | helpers bound =>
    have hrun : bound.run = n.run := hown
    obtain ⟨halive, hknown⟩ := h
    rw [resolve, halive, ← hrun]
    rcases hknown with hknown | ⟨-, hid⟩
    · simp [hknown]
    · simp [hid]

theorem resolve_finished (hstores : s.StoresSound) (hr : s.runs[n.run]? = some r) (hphase : r.phase ≠ .inFlight)
    (h : actor.Reaches s n) (hother : ¬ actor.OfRun n.run) :
    s.resolve actor n = .completed ∨ s.resolve actor n = .gone := by
  have horigin : s.origin n = .completed ∨ s.origin n = .gone := by
    rw [origin, hr]
    cases hp : r.phase with
    | inFlight => exact absurd hp hphase
    | completed => simp [hp]
    | failed => simp [hp]
  cases actor with
  | binding b =>
    have hstore : s.bindings[b]?.any (·.store.contains n.run) = false := by
      cases hb : s.bindings[b]? with
      | none => rfl
      | some binding =>
        rw [Option.any_some, Bool.eq_false_iff]
        intro hmem
        obtain ⟨st, hst, -, hin⟩ := hstores b binding hb n.run (by simpa using hmem)
        rw [status, hr] at hst
        cases hst
        exact hphase hin
    rw [resolve, locate, hstore]
    simpa using horigin
  | helpers bound =>
    obtain ⟨halive, hknown⟩ := h
    have hne : n.run ≠ bound.run := fun heq => hother heq.symm
    have hrecognised : s.recognises bound.run n.tree = true := hknown.resolve_right fun h => hne h.1.symm
    simpa [resolve, halive, hrecognised, hne] using horigin

end Session

namespace Moment

variable {adapters : Array Adapter} {c c' : Moment} {n : Node} {r : Run} {actor : Actor}

theorem Reachable.serves_finished (h : Reachable adapters c) (hr : c.session.runs[n.run]? = some r)
    (hphase : r.phase ≠ .inFlight) (hleads : Leads c c') :
    ∃ r', c'.session.runs[n.run]? = some r' ∧ r'.phase = r.phase ∧ r'.ref? = r.ref? ∧ r'.source = r.source ∧
      r'.ancestor = r.ancestor ∧ r'.children = r.children := by
  obtain ⟨r', hr', hchanges⟩ := (Leads.evolves h.inv hleads).forth n.run r hr
  obtain ⟨hbuffer, hstatus⟩ := hchanges.finished hphase
  obtain ⟨hid, hkey, -⟩ := hchanges.keeps
  have harena : r'.arena = r.arena := congrArg Status.arena hstatus
  have href : r'.ref? = r.ref? := by
    funext id
    simp only [Run.ref?, harena, hid, hkey]
  refine ⟨r', hr', congrArg Status.phase hstatus, href, ?_, ?_, ?_⟩
  · funext id
    simp only [Run.source, harena, hbuffer]
  · funext id levels
    simp only [Run.ancestor, harena, href]
  · funext id
    simp only [Run.children, harena, href]

/-- **A finished run is over for all but its own helpers.** Let a run have finished, with or without an error. At
every later moment of every history, whoever reaches a node of it, in whichever way, hears that the run is over, of no
ancestors and of no children exactly if they are not helpers of that run. Helpers of it hear what they would have heard
when the run finished. -/
theorem finished_routes (h : Reachable adapters c) (hr : c.session.runs[n.run]? = some r) (hphase : r.phase ≠ .inFlight)
    (hn : r.ref? n.id = some n) (hleads : Leads c c') (hactor : actor.Reaches c'.session n) :
    (c'.session.Shut actor n ↔ ¬ actor.OfRun n.run) ∧
      (actor.OfRun n.run → c'.session.Answers actor n (r.source n.id) (r.ancestor n.id) (r.children n.id)) ∧
      c'.Agrees := by
  obtain ⟨r', hr', hphase', href, hsource, hancestor, hchildren⟩ := h.serves_finished hr hphase hleads
  have hserves : actor.OfRun n.run → c'.session.Serves actor n r' := fun hown =>
    Session.serves_of_resolve hr' (Session.resolve_own_helpers hactor hown)
  refine ⟨⟨fun hshut hown => ?_, fun hother => ?_⟩, fun hown => ?_, c'.agrees⟩
  · exact (hserves hown).not_shut (href ▸ hn) hshut
  · have hstores := (h.inv.leads hleads).stores
    exact Session.shut_of_resolve (Session.resolve_finished hstores hr' (hphase' ▸ hphase) hactor hother)
  · rw [← hsource, ← hancestor, ← hchildren]
    exact (hserves hown).answers

/-- A run has failed, and helpers of it are kept. They read its node, a binding does not. -/
theorem finished_routes_after_failure :
    let adapter : Adapter := { name := "any", isNode := fun _ => true }
    let node : Node := ⟨0, 0, { kind := "leaf", span := ⟨0, 1⟩ }, .ofRun 0⟩
    ∃ c r, Reachable #[adapter, adapter] c ∧ c.session.runs[0]? = some r ∧ r.phase = .failed ∧ r.ref? 0 = some node ∧
      (Actor.binding 1).Reaches c.session node ∧ c.session.Shut (.binding 1) node ∧
      (Actor.helpers node).Reaches c.session node ∧
      c.session.Answers (.helpers node) node (r.source 0) (r.ancestor 0) (r.children 0) := by
  intro adapter node
  obtain ⟨c, hc, hkept, r, hr, hphase, -, hn, -⟩ := exists_finished_kept (.error .runFinished)
  have hfailed : r.phase = .failed := hphase
  have hne : r.phase ≠ .inFlight := by simp [hfailed]
  have hbinding : (Actor.binding 1).Reaches c.session node := trivial
  have hhelpers : (Actor.helpers node).Reaches c.session node := ⟨by simp [Session.alive, hkept, node], .inr ⟨rfl, rfl⟩⟩
  refine ⟨c, r, hc, hr, hfailed, hn, hbinding, ?_, hhelpers, ?_⟩
  · exact (finished_routes (n := node) hc hr hne hn .refl hbinding).1.mpr fun h => h
  · exact (finished_routes (n := node) hc hr hne hn .refl hhelpers).2.1 rfl

/-- A run has come to a good end, and helpers that are kept still read the text of its node. -/
theorem finished_run_read :
    let adapter : Adapter := { name := "any", isNode := fun _ => true }
    let node : Node := ⟨0, 0, { kind := "leaf", span := ⟨0, 1⟩ }, .ofRun 0⟩
    ∃ c r, Reachable #[adapter, adapter] c ∧ c.session.runs[0]? = some r ∧ r.phase = .completed ∧
      r.ref? 0 = some node ∧ (Actor.helpers node).Reaches c.session node ∧
      c.session.perform (.source (.helpers node) node) = (.ok "x", c.session) ∧ ¬ c.session.Shut (.helpers node) node := by
  intro adapter node
  obtain ⟨c, hc, hkept, r, hr, hphase, -, hn, htext⟩ := exists_finished_kept (.ok ())
  have hhelpers : (Actor.helpers node).Reaches c.session node := ⟨by simp [Session.alive, hkept, node], .inr ⟨rfl, rfl⟩⟩
  have hserves : c.session.Serves (.helpers node) node r :=
    Session.serves_of_resolve hr (Session.resolve_own_helpers hhelpers rfl)
  exact ⟨c, r, hc, hr, hphase, hn, hhelpers, htext ▸ hserves.source, hserves.not_shut hn⟩

end Moment

/-! ## Runs that are given up -/

namespace Session

variable {s : Session} {k : RunId} {r : Run}

def Kept (s : Session) (k : RunId) : Prop :=
  ∃ p ∈ s.helpers, p.2.run = k

instance (s : Session) (k : RunId) : Decidable (s.Kept k) :=
  inferInstanceAs (Decidable (∃ p ∈ s.helpers, _))

/-- A run that is not awaited is over: no binding counts it, its nodes have no state, and nobody can edit them. -/
structure Ended (s : Session) (k : RunId) : Prop where
  uncounted : ∀ binding ∈ s.bindings, s.inFlightOf binding = (binding.store.filter (· != k)).countP s.alive
  state : ∀ b n, n.run = k → s.perform (.state b n) = (none, s)
  override : ∀ actor n text, n.run = k → actor.Reaches s n →
    s.perform (.override actor n text) = (.error .runFinished, s)

theorem alive_of_released (hr : s.runs[k]? = some r) (hheld : r.held = false) : s.alive k = true ↔ s.Kept k := by
  simp [alive, hr, hheld, Kept]

theorem origin_of_released {n : Node} (hr : s.runs[n.run]? = some r) (hphase : r.phase = .inFlight)
    (hdead : s.alive n.run = false) : s.origin n = .gone := by
  simp [origin, hr, hphase, hdead]

theorem ended_of_dead (hr : s.runs[k]? = some r) (hphase : r.phase = .inFlight) (hdead : s.alive k = false) :
    s.Ended k := by
  refine ⟨fun binding _ => ?_, fun b n hn => ?_, fun actor n text hn hactor => ?_⟩
  · rw [inFlightOf, List.countP_filter]
    refine List.countP_congr fun j _ => ?_
    by_cases hj : j = k
    · simp [hj, hdead]
    · simp [hj]
  · subst hn
    have hplace : s.locate b n = .gone := by
      rw [locate, hdead, Bool.and_false, origin_of_released hr hphase hdead]
      rfl
    simp only [perform, state?, hplace]
    rfl
  · subst hn
    have hplace : s.resolve actor n = .gone := by
      rcases resolve_of_reaches hactor with ⟨-, halive⟩ | horigin
      · rw [hdead] at halive
        cases halive
      · rw [horigin, origin_of_released hr hphase hdead]
    simp only [perform, override, hplace]

theorem serves_of_alive {n : Node} {actor : Actor} (hr : s.runs[n.run]? = some r) (hphase : r.phase = .inFlight)
    (halive : s.alive n.run = true) (hactor : actor.Reaches s n) : s.Serves actor n r := by
  refine serves_of_resolve hr ?_
  rcases resolve_of_reaches hactor with hnode | horigin
  · exact hnode.1
  · simp [horigin, origin, hr, hphase, halive]

theorem state?_of_alive {n : Node} (hr : s.runs[n.run]? = some r) (hphase : r.phase = .inFlight)
    (halive : s.alive n.run = true) (b : BindingId) : s.state? b n = r.state? n.id := by
  have hplace : s.locate b n = .node n.run n.id := by
    rw [locate]
    split
    · rfl
    · simp [origin, hr, hphase, halive]
  simp [state?, hplace, hr]

/-! ### The step of giving up -/

theorem drop_fields {name : String} {t : Task} (h : s.tasks.lookup name = some t) (hrun : t.run? = some k) :
    (s.drop name).2.runs = s.runs.modify k (fun r => { r with held := false }) ∧
      (s.drop name).2.bindings = s.bindings ∧ (s.drop name).2.helpers = s.helpers := by
  simp only [drop, takeTask, h, Option.map_some, release, hrun]
  exact ⟨rfl, rfl, rfl⟩

theorem countP_eq_add_one {l : List RunId} (hnodup : l.Nodup) (hk : k ∈ l) {p q : RunId → Bool} (hp : p k = true)
    (hq : q k = false) (hother : ∀ j, j ≠ k → p j = q j) : l.countP p = l.countP q + 1 := by
  have hperm := List.perm_cons_erase hk
  rw [hperm.countP_eq, hperm.countP_eq, List.countP_cons_of_pos hp, List.countP_cons_of_neg (by simp [hq])]
  refine congrArg (· + 1) (List.countP_congr fun j hj => ?_)
  rw [hother j (hnodup.mem_erase_iff.mp hj).1]

theorem Stocked.inFlight_drop (h : s.Stocked) {name : String} {t : Task} (htask : s.tasks.lookup name = some t)
    (hrun : t.run? = some k) (hr : s.runs[k]? = some r) (hphase : r.phase = .inFlight) (hheld : r.held = true) :
    s.inFlight = if s.Kept k then (s.drop name).2.inFlight else (s.drop name).2.inFlight.modify r.binding (· + 1) := by
  have hawaited : s.Awaited k := ⟨r, hr, hphase, hheld⟩
  have hstatus : s.status k = some r.status := by rw [status, hr]; rfl
  obtain ⟨hruns, hbindings, hhelpers⟩ := drop_fields htask hrun
  generalize (s.drop name).2 = s' at hruns hbindings hhelpers ⊢
  have hother : ∀ j, j ≠ k → s.alive j = s'.alive j := by
    intro j hj
    simp [alive, hruns, hhelpers, Array.getElem?_modify, hj.symm]
  have hself : s'.alive k = true ↔ s.Kept k := by
    simp [alive, hruns, hhelpers, Array.getElem?_modify, hr, Kept]
  have hsame : ∀ l : List RunId, k ∉ l ∨ s.Kept k → l.countP s.alive = l.countP s'.alive := by
    intro l hl
    refine List.countP_congr fun j hj => ?_
    by_cases hjk : j = k
    · subst hjk
      rw [alive_of_awaited hawaited, hself.mpr (hl.resolve_left fun h => h hj)]
    · rw [hother j hjk]
  split
  · rename_i hkept
    rw [inFlight, inFlight, hbindings]
    exact List.map_congr_left fun binding _ => hsame _ (.inr hkept)
  · rename_i hkept
    refine List.ext_getElem? fun b => ?_
    rw [List.getElem?_modify, inFlight, inFlight, hbindings, List.getElem?_map, List.getElem?_map, Array.getElem?_toList]
    cases hb : s.bindings[b]? with
    | none => simp
    | some binding =>
      by_cases hrb : r.binding = b
      · have hmem : k ∈ binding.store := h.awaited k _ binding hawaited hstatus (by rw [← hb, ← hrb]; rfl)
        have hdead : s'.alive k = false := Bool.eq_false_iff.mpr fun halive => hkept (hself.mp halive)
        simp [hrb, inFlightOf,
          countP_eq_add_one (h.nodup b binding hb) hmem (alive_of_awaited hawaited) hdead hother]
      · have hnot : k ∉ binding.store := by
          intro hmem
          obtain ⟨st, hst, hbinding, -⟩ := h.sound b binding hb k hmem
          rw [hstatus] at hst
          cases hst
          exact hrb hbinding
        simp [hrb, inFlightOf, hsame _ (.inl hnot)]

end Session

namespace Moment

variable {adapters : Array Adapter} {c c' : Moment} {k : RunId} {r : Run}

/-- **A run that nobody awaits** is left as it is by every walk. -/
theorem Reachable.released (h : Reachable adapters c) (hr : c.session.runs[k]? = some r) (hheld : r.held = false)
    (hleads : Leads c c') : ∃ r', c'.session.runs[k]? = some r' ∧ r'.held = false ∧ r'.status = r.status := by
  induction hleads with
  | refl => exact ⟨r, hr, hheld, rfl⟩
  | @tail c₁ c₂ hleads hstep ih =>
    obtain ⟨r₁, hr₁, hheld₁, hstatus₁⟩ := ih
    have hreach : Reachable adapters c₁ := h.trans hleads
    have hidle : ¬ c₁.AtWork k := by
      rw [hreach.atWork_iff]
      rintro ⟨r', hr', -, hheld'⟩
      rw [hr₁] at hr'
      cases hr'
      rw [hheld₁] at hheld'
      cases hheld'
    obtain ⟨r₂, hr₂, hchanges⟩ := (hstep.evolves hreach.inv).forth k r₁ hr₁
    have hst : c₁.session.status k = some r₁.status := by rw [Session.status, hr₁]; rfl
    have hst₂ := (hstep.effects hreach.inv).status_eq hidle hst
    rw [Session.status, hr₂] at hst₂
    exact ⟨r₂, hr₂, hchanges.keeps.2.2 hheld₁, (Option.some.inj hst₂).trans hstatus₁⟩

theorem mem_posts_of_task {s : Session} {ms : List Mark} {name : String} {t : Task}
    (h : s.tasks.lookup name = some t) : t.post ∈ (rest s ms).posts := by
  obtain ⟨front, back, heq, -⟩ := List.lookup_eq_some_iff.mp h
  simp [posts, rest, focusPosts, callerPosts, Session.posts, heq]

/-- A run over a single node, whose turn keeps its helpers and is put off for good. -/
theorem exists_put_off_kept :
    let adapter : Adapter := { name := "any", isNode := fun _ => true }
    let node : Node := ⟨0, 0, { kind := "leaf", span := ⟨0, 1⟩ }, .ofRun 0⟩
    ∃ s ms job m, Reachable #[adapter] (.rest s ms) ∧ s.tasks = [("job", .walking 0 node .never [] job m)] ∧
      s.helpers = [("kept", node)] ∧ s.inFlight = [1] ∧ ∃ r, s.runs[0]? = some r ∧ r.phase = .inFlight ∧
      r.held = true ∧ r.state? 0 = some .running ∧ ∃ r', Run.override { r with held := false } 0 "y" = .ok r' := by
  intro adapter node
  obtain ⟨m, s, ms, hturn, hruns, hbindings, htasks, hhelpers⟩ := exists_first_turn #[adapter] "job" .never
  have hrest := hturn |>.tail (.suspend rfl) |>.tail .leave
  rw [Session.keep, Session.putTask, htasks] at hrest
  have hr : s.runs[0]? = _ := congrArg (·[0]?) hruns
  have hstore : s.bindings = #[{ adapter, store := [0] }] := by
    rw [hbindings]
    simp [Session.addRun, Session.modifyStore, Session.ofAdapters]
  refine ⟨_, _, _, m, hrest, rfl, hhelpers, ?_, _, hr, rfl, rfl, rfl, _, rfl⟩
  simp [Session.inFlight, Session.inFlightOf, hstore, Session.alive, hhelpers]

/-- **A run that is given up is over unless helpers of it are kept.** Let the task of a job be dropped while the turn of
a node is put off. If no helpers of its run are kept then, its binding has one run less in flight, and else as many
as before. At every later moment of every history the run is where it was, in flight; it is over for all exactly if
no helpers of it are kept. As long as some are, it serves whoever reaches its nodes as a run at work does. -/
theorem dropped_run {s : Session} {ms : List Mark} {name : String} {v : Node} {turn : Turn} {rest : List WalkStep}
    {job : Job} {m : Manipulator} (h : Reachable adapters (.rest s ms))
    (htask : s.tasks.lookup name = some (.walking k v turn rest job m)) :
    ∃ r, s.runs[k]? = some r ∧ r.phase = .inFlight ∧
      (s.inFlight =
        if s.Kept k then (s.drop name).2.inFlight else (s.drop name).2.inFlight.modify r.binding (· + 1)) ∧
      ∀ c', Leads (.rest (s.drop name).2 ms) c' → ∃ r', c'.session.runs[k]? = some r' ∧ r'.status = r.status ∧
        (c'.session.Ended k ↔ ¬ c'.session.Kept k) ∧
        (c'.session.Kept k → ∀ n actor, n.run = k → actor.Reaches c'.session n → c'.session.Serves actor n r') ∧
        c'.Agrees := by
  have hpost : _ ∈ (Moment.rest s ms).posts := mem_posts_of_task htask
  obtain ⟨root, past, hat⟩ := h.inv.sound _ hpost
  have hvk : v.run = k := hat.run_of_mem (.visit v) (by simp)
  have hawaited : s.Awaited k := (h.atWork_iff k).mp ⟨_, hpost, rfl⟩
  obtain ⟨r, hr, hphase, hheld⟩ := hawaited
  have hrunning : r.state? v.id = some .running := by
    have hstate : s.nodeState k v.id = some .running :=
      (lifecycle_of_at (c := .rest s ms) (w := ⟨job, m, k⟩) hat).running
    rwa [Session.nodeState, hr] at hstate
  refine ⟨r, hr, hphase, h.stocked.inFlight_drop htask rfl hr hphase hheld, fun c' hleads => ?_⟩
  have hdropped : (s.drop name).2.runs[k]? = some { r with held := false } := by
    rw [(Session.drop_fields htask rfl).1, Array.getElem?_modify, if_pos rfl, hr]
    rfl
  obtain ⟨r', hr', hheld', hstatus⟩ := Reachable.released (h.tail .drop) hdropped rfl hleads
  have hphase' : r'.phase = .inFlight := (congrArg Status.phase hstatus).trans hphase
  have hkept := Session.alive_of_released hr' hheld'
  refine ⟨r', hr', hstatus, ⟨fun hended hk => ?_, fun hk => ?_⟩, fun hk n actor hn hactor => ?_, c'.agrees⟩
  · -- the node whose turn was put off still has a state
    have hnone : c'.session.state? 0 v = none := congrArg Prod.fst (hended.state 0 v hvk)
    have harena : r'.arena = r.arena := congrArg Status.arena hstatus
    subst hvk
    rw [Session.state?_of_alive hr' hphase' (hkept.mpr hk), Run.state?, harena] at hnone
    rw [Run.state?, hnone] at hrunning
    cases hrunning
  · exact Session.ended_of_dead hr' hphase' (Bool.eq_false_iff.mpr fun halive => hk (hkept.mp halive))
  · subst hn
    exact Session.serves_of_alive hr' hphase' (hkept.mpr hk) hactor

/-- Helpers of a run are kept, its task is dropped, and then the helpers are given up too. Only then is it over. -/
theorem dropped_run_forgotten :
    let adapter : Adapter := { name := "any", isNode := fun _ => true }
    ∃ s ms v job m, Reachable #[adapter] (.rest s ms) ∧ s.tasks.lookup "job" = some (.walking 0 v .never [] job m) ∧
      s.inFlight = [1] ∧ (s.drop "job").2.inFlight = [1] ∧ ¬ (s.drop "job").2.Ended 0 ∧
      ((s.drop "job").2.perform (.forget "kept")).2.Ended 0 := by
  intro adapter
  let node : Node := ⟨0, 0, { kind := "leaf", span := ⟨0, 1⟩ }, .ofRun 0⟩
  obtain ⟨s, ms, job, m, hs, htasks, hhelpers, hcount, -⟩ := exists_put_off_kept
  have htask : s.tasks.lookup "job" = some (.walking 0 node .never [] job m) := by rw [htasks]; rfl
  have hkept : s.Kept 0 := ⟨("kept", node), by rw [hhelpers]; exact List.mem_cons_self, rfl⟩
  have hhelpers' : (s.drop "job").2.helpers = s.helpers := (Session.drop_fields htask rfl).2.2
  obtain ⟨r, -, -, hnumbers, hlater⟩ := dropped_run hs htask
  rw [if_pos hkept] at hnumbers
  obtain ⟨-, -, -, hended, -⟩ := hlater _ .refl
  obtain ⟨-, -, -, hended', -⟩ := hlater _ (.single (.act (q := .forget "kept")))
  refine ⟨s, ms, node, job, m, hs, htask, hcount, hnumbers ▸ hcount, fun hover => ?_, hended'.mpr ?_⟩
  · exact hended.mp hover ⟨("kept", node), by rw [rest, hhelpers', hhelpers]; exact List.mem_cons_self, rfl⟩
  · simp [Session.Kept, rest, Session.perform, hhelpers', hhelpers, eraseNamed]

/-- A task is dropped, but helpers are kept: its run counts as in flight, its node has a state, and the helpers edit
it. -/
theorem dropped_run_edited :
    let adapter : Adapter := { name := "any", isNode := fun _ => true }
    ∃ s ms v job m, Reachable #[adapter] (.rest s ms) ∧ s.tasks.lookup "job" = some (.walking 0 v .never [] job m) ∧
      (s.drop "job").2.inFlight = [1] ∧ (s.drop "job").2.state? 0 v = some .running ∧
      (Actor.helpers v).Reaches (s.drop "job").2 v ∧
      ((s.drop "job").2.perform (.override (.helpers v) v "y")).1 = .ok () := by
  intro adapter
  let node : Node := ⟨0, 0, { kind := "leaf", span := ⟨0, 1⟩ }, .ofRun 0⟩
  obtain ⟨s, ms, job, m, hs, htasks, hhelpers, hcount, r, hr, hphase, hheld, hstate, r', hover⟩ := exists_put_off_kept
  have htask : s.tasks.lookup "job" = some (.walking 0 node .never [] job m) := by rw [htasks]; rfl
  obtain ⟨hruns, -, hhelpers'⟩ := Session.drop_fields htask rfl
  have hr' : (s.drop "job").2.runs[node.run]? = some { r with held := false } := by
    rw [hruns, Array.getElem?_modify, if_pos rfl, hr]
    rfl
  have halive : (s.drop "job").2.alive node.run = true := by simp [Session.alive, hhelpers', hhelpers, node]
  have hreaches : (Actor.helpers node).Reaches (s.drop "job").2 node := ⟨halive, .inr ⟨rfl, rfl⟩⟩
  refine ⟨s, ms, node, job, m, hs, htask, ?_, ?_, hreaches, ?_⟩
  · have hkept : s.Kept 0 := ⟨("kept", node), by rw [hhelpers]; exact List.mem_cons_self, rfl⟩
    have hstocked : s.Stocked := hs.stocked
    have hnumbers := hstocked.inFlight_drop htask rfl hr hphase hheld
    rwa [if_pos hkept, hcount, eq_comm] at hnumbers
  · rw [Session.state?_of_alive hr' hphase halive]
    exact hstate
  · rw [(Session.serves_of_alive hr' hphase halive hreaches).granted "y" r' hover]

end Moment

end TreeEdit
