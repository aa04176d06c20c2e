import TreeEdit.Proofs.Engine.AtWork
import TreeEdit.Proofs.Engine.Changes

/-!
# Routes to a node

A node is reached through helpers, of its own run or of another, or through a binding, its own or another. Each route
goes by evidence of its own: the store of a binding, the phase of the run, whether something keeps the run alive. A
request that reaches a node ends up at the node or else where the reference itself leads (`resolve_of_reaches`).

While the run is at work all routes come to the same (`routes_agree`). Once a node is handled or its run has finished,
no route lets an edit through (`late_edits`).
-/

namespace TreeEdit

/-- A request of the actor about the node is not turned into one about another. Helpers are there as long as their run
is alive, and are bound to the node or have an adapter that recognises it. -/
def Actor.Reaches (s : Session) (n : Node) : Actor → Prop
  | .helpers bound => s.alive bound.run = true ∧
      (s.recognises bound.run n.tree = true ∨ bound.run = n.run ∧ bound.id = n.id)
  | .binding _ => True

namespace Session

variable {s s' : Session} {n : Node} {actor : Actor}

theorem resolve_of_reaches (h : actor.Reaches s n) :
    s.resolve actor n = .node n.run n.id ∧ s.alive n.run = true ∨ s.resolve actor n = s.origin n := by
  cases actor with
  | binding b =>
    rw [resolve, locate]
    split
    · rename_i hstore
      exact .inl ⟨rfl, (Bool.and_eq_true_iff.mp hstore).2⟩
    · exact .inr rfl
  | helpers bound =>
    obtain ⟨halive, hknown⟩ := h
    simp only [resolve, halive, Bool.not_true, Bool.false_eq_true, if_false]
    split
    · rename_i hunknown
      rcases hknown with hknown | ⟨hrun, hid⟩
      · rw [hknown] at hunknown
        cases hunknown
      · rw [hrun, hid]
        exact .inl ⟨rfl, hrun ▸ halive⟩
    · split
      · rename_i hrun
        exact .inl ⟨rfl, hrun ▸ halive⟩
      · exact .inr rfl

theorem origin_eq_node {run : RunId} {id : Nat} (h : s.origin n = .node run id) :
    run = n.run ∧ id = n.id ∧ s.alive n.run = true := by
  rw [origin] at h
  split at h
  · cases h
  · split at h
    · split at h
      · cases h
        exact ⟨rfl, rfl, ‹_›⟩
      · cases h
    · cases h
    · cases h

/-! ## Runs at work -/

theorem resolve_of_awaited (hwork : s.Awaited n.run) (h : actor.Reaches s n) :
    s.resolve actor n = .node n.run n.id := by
  obtain ⟨r, hr, hphase, hheld⟩ := hwork
  rcases resolve_of_reaches h with hnode | horigin
  · exact hnode.1
  · have halive : s.alive n.run = true := by simp [alive, hr, hheld]
    rw [horigin, origin, hr]
    simp only [hphase, halive, if_true]

/-- Requests about a node are answered by its run, and have no effect beyond it. -/
structure Serves (s : Session) (actor : Actor) (n : Node) (r : Run) : Prop where
  source : s.perform (.source actor n) = (r.source n.id, s)
  ancestor : ∀ levels, s.perform (.ancestor actor n levels) = (r.ancestor n.id levels, s)
  children : s.perform (.children actor n) = (r.children n.id, s)
  refused : ∀ text e, r.override n.id text = .error e → s.perform (.override actor n text) = (.error e, s)
  granted : ∀ text r', r.override n.id text = .ok r' →
    s.perform (.override actor n text) = (.ok (), s.modifyRun n.run fun _ => r')
  others : ∀ text k, k ≠ n.run → (s.perform (.override actor n text)).2.runs[k]? = s.runs[k]?

theorem serves_of_resolve {r : Run} (hr : s.runs[n.run]? = some r)
    (h : s.resolve actor n = .node n.run n.id) : s.Serves actor n r := by
  have hover : ∀ text, s.override actor n text =
      (r.override n.id text).map fun r' => s.modifyRun n.run fun _ => r' := by
    intro text
    simp only [override, h, hr]
    rfl
  have hrefused : ∀ text e, r.override n.id text = .error e →
      s.perform (.override actor n text) = (.error e, s) := by
    intro text e he
    simp only [perform, hover, he, Except.map]
  have hgranted : ∀ text r', r.override n.id text = .ok r' →
      s.perform (.override actor n text) = (.ok (), s.modifyRun n.run fun _ => r') := by
    intro text r' hr'
    simp only [perform, hover, hr', Except.map]
  refine ⟨?source, fun levels => ?ancestor, ?children, hrefused, hgranted, fun text k hk => ?others⟩
  case source =>
    simp only [perform, source, h, hr]
    rfl
  case ancestor =>
    simp only [perform, ancestor, h, hr, Option.bind_some]
    rfl
  case children =>
    simp only [perform, children, h, hr]
    rfl
  case others =>
    cases hr' : r.override n.id text with
    | error e => rw [hrefused text e hr']
    | ok r' => rw [hgranted text r' hr', modifyRun, Array.getElem?_modify, if_neg hk.symm]

end Session

namespace Run

variable {r : Run} {n : Node}

theorem AllHandled.override (h : r.AllHandled) (hn : r.ref? n.id = some n) (text : String) :
    r.override n.id text = .error (.nodeAlreadyHandled n.span) := by
  obtain ⟨e, he, heq⟩ := Option.map_eq_some_iff.mp hn
  have hspan : n.span = e.tree.span := by rw [← heq]; rfl
  simp only [Run.override, he, h n.id e he, if_true, hspan]

end Run

namespace Moment

variable {adapters : Array Adapter} {c : Moment}

/-- **Every route to a node at work agrees.** At every moment of every history, let the walk of a run not have ended
and its job not been given up. Whoever reaches a node of the run, through helpers of any run or through any binding,
is answered by that run, and so as anybody else is: with the same text, the same ancestors and children, which are
nodes of that run, and the same outcome of an override, which has the same effect on the run and none on others. -/
theorem routes_agree (h : Reachable adapters c) {n : Node} (hwork : c.AtWork n.run) :
    (∃ r, c.session.runs[n.run]? = some r ∧
      (∀ actor, actor.Reaches c.session n → c.session.Serves actor n r) ∧
      (∀ m levels, r.ancestor n.id levels = some m → m.run = n.run ∧ r.ref? m.id = some m) ∧
      ∀ m ∈ r.children n.id, m.run = n.run ∧ r.ref? m.id = some m) ∧ c.Agrees := by
  refine ⟨?_, c.agrees⟩
  have hawaited := (h.atWork_iff n.run).mp hwork
  obtain ⟨r, hr, -, -⟩ := id hawaited
  have hid : r.id = n.run := (h.regular hr).id
  refine ⟨r, hr, fun actor hactor => ?_, fun m levels hm => ?_, fun m hm => ?_⟩
  · exact Session.serves_of_resolve hr (Session.resolve_of_awaited hawaited hactor)
  · rw [← hid]
    exact Run.ref?_of_ancestor hm
  · rw [← hid]
    exact Run.ref?_of_mem_children hm

/-- The session in the turn of the only node of its first job, once helpers of the node are kept. -/
theorem exists_first_turn (adapters : Array Adapter) (name : String) (turn : Turn) :
    let node : Node := ⟨0, 0, { kind := "leaf", span := ⟨0, 1⟩ }, .ofRun 0⟩
    let job : Job :=
      { name, binding := 0, code := "x", parsePolls := none, parsed := .ok node.tree, sharedTree := false, map := {},
        lookups := [] }
    let r : Run :=
      { id := 0, binding := 0, key := .ofRun 0, buffer := { base := "x".toList }, map := {},
        arena := ((Arena.ofTree node.tree).advance 0 .traversingChildren).advance 0 .running,
        transcript := [.answered (.saveHelpers "kept" node) (), .visited node] }
    ∃ m s ms, Reachable adapters ⟨.turn ⟨⟨job, m, 0⟩, node, []⟩ turn, [.outside false name], s, ms⟩ ∧
      s.runs = #[r] ∧ s.bindings = ((Session.ofAdapters adapters).addRun job (.ofTree node.tree)).2.bindings ∧
      s.tasks = [] ∧ s.helpers = [("kept", node)] := by
  intro node job r
  let m : Manipulator := fun _ node => .call (.saveHelpers "kept" node) fun _ => turn
  have hvalid : ∀ u ∈ node.tree.preorder, Arena.validSpan "x".toList u.span = true := by decide
  have hwalk : Reachable adapters _ :=
    .single (Step.launch_walk m (.ofAdapters adapters) [] (show job.parsePolls = none from rfl) rfl hvalid)
  exact ⟨m, _, _, hwalk |>.tail .enter |>.tail .visit |>.tail .call, rfl, rfl, rfl, rfl⟩

/-- In the turn of a node a job of another binding is started. The node is reached in four ways. -/
theorem routes_agree_two_bindings :
    let adapter : Adapter := { name := "any", isNode := fun _ => true }
    let leaf : Tree := { kind := "leaf", span := ⟨0, 1⟩ }
    let node (run : RunId) : Node := ⟨run, 0, leaf, .ofRun run⟩
    let actors : List Actor := [.helpers (node 0), .helpers (node 1), .binding 0, .binding 1]
    ∃ c, Reachable #[adapter, adapter] c ∧ c.AtWork 0 ∧ ∃ r, c.session.runs[0]? = some r ∧
      ∀ actor ∈ actors, actor.Reaches c.session (node 0) ∧ c.session.Serves actor (node 0) r := by
  intro adapter leaf node actors
  let second : Job :=
    { name := "second", binding := 1, code := "x", parsePolls := none, parsed := .ok leaf, sharedTree := false,
      map := {}, lookups := [] }
  have hvalid : ∀ u ∈ leaf.preorder, Arena.validSpan "x".toList u.span = true := by decide
  obtain ⟨m, s, ms, hfirst, hruns, -⟩ := exists_first_turn #[adapter, adapter] "first"
    (.start second (fun _ _ => .never) fun _ => .done (.ok ()))
  have hboth := hfirst.tail .start
  simp only [launch, show second.parsePolls = none from rfl,
    begin_eq_walk (show second.parsed = .ok leaf from rfl) hvalid] at hboth
  obtain ⟨c, hc, hwork, ⟨r₀, hr₀, hheld₀, hb₀⟩, r₁, hr₁, hheld₁, hb₁⟩ : ∃ c, Reachable #[adapter, adapter] c ∧
      c.AtWork 0 ∧ (∃ r, c.session.runs[0]? = some r ∧ r.held = true ∧ r.binding = 0) ∧
      ∃ r, c.session.runs[1]? = some r ∧ r.held = true ∧ r.binding = 1 := by
    refine ⟨_, hboth, ⟨_, List.mem_cons_of_mem _ List.mem_cons_self, rfl⟩, ?_⟩
    simp only [Session.addRun, Session.modifyStore, hruns]
    exact ⟨⟨_, rfl, rfl, rfl⟩, _, rfl, rfl, rfl⟩
  have hreaches : ∀ actor ∈ actors, actor.Reaches c.session (node 0) := by
    intro actor hactor
    simp only [actors, List.mem_cons, List.not_mem_nil, or_false] at hactor
    rcases hactor with rfl | rfl | rfl | rfl
    · refine ⟨by simp [Session.alive, node, hr₀, hheld₀], .inl ?_⟩
      rw [hc.recognises hr₀, hb₀]
      rfl
    · refine ⟨by simp [Session.alive, node, hr₁, hheld₁], .inl ?_⟩
      rw [hc.recognises hr₁, hb₁]
      rfl
    · trivial
    · trivial
  obtain ⟨⟨r, hr, hserves, -⟩, -⟩ := routes_agree (n := node 0) hc hwork
  exact ⟨c, hc, hwork, r, hr, fun actor hactor => ⟨hreaches actor hactor, hserves actor (hreaches actor hactor)⟩⟩

end Moment

/-! ## Late edits -/

namespace Session

variable {s s' : Session} {n : Node} {actor : Actor} {text : String}

theorem granted_of_reaches (h : actor.Reaches s n) (hover : s.override actor n text = .ok s') :
    s.alive n.run = true ∧ ∃ r e, s.runs[n.run]? = some r ∧ r.phase = .inFlight ∧
      r.arena.get? n.id = some e ∧ e.state ≠ .handled := by
  obtain ⟨run, id, r, r', hplace, hr, hrun, -⟩ := override_eq_ok hover
  obtain ⟨hphase, e, he, hstate⟩ := Run.override_granted hrun
  rcases resolve_of_reaches h with ⟨hnode, halive⟩ | horigin
  · rw [hnode] at hplace
    cases hplace
    exact ⟨halive, r, e, hr, hphase, he, hstate⟩
  · obtain ⟨rfl, rfl, halive⟩ := origin_eq_node (horigin.symm.trans hplace)
    exact ⟨halive, r, e, hr, hphase, he, hstate⟩

theorem override_completed {r : Run} (hr : s.runs[n.run]? = some r) (hphase : r.phase = .completed)
    (hall : r.AllHandled) (hn : r.ref? n.id = some n) (h : actor.Reaches s n) (text : String) :
    s.override actor n text = .error (.nodeAlreadyHandled n.span) := by
  rcases resolve_of_reaches h with ⟨hnode, -⟩ | horigin
  · -- helpers of the run itself
    simp only [override, hnode, hr, hall.override hn]
    rfl
  · have hcompleted : s.resolve actor n = .completed := by
      rw [horigin, origin, hr]
      simp only [hphase]
    simp only [override, hcompleted]

theorem respond_refused {asker : Option RunId} {e : TransformError}
    (h : (s.respond asker (.override actor n text)).1 = .error e) (k : RunId) :
    ((s.respond asker (.override actor n text)).2.runs[k]?).map (fun r => (r.buffer, r.status)) =
      (s.runs[k]?).map fun r => (r.buffer, r.status) := by
  have hperform : s.perform (.override actor n text) = (.error e, s) := by
    have hanswer : (s.perform (.override actor n text)).1 = .error e := by
      cases asker <;> exact h
    rw [perform] at hanswer ⊢
    split at hanswer
    · cases hanswer
    · exact Prod.ext hanswer rfl
  cases asker with
  | none => simp only [respond, hperform]
  | some run =>
    simp only [respond, hperform, modifyRun, Array.getElem?_modify]
    split
    · rw [Option.map_map]
      rfl
    · rfl

end Session

namespace Moment

variable {adapters : Array Adapter} {c : Moment}

/-- **Late edits never reach a buffer.** At every moment of every history, whoever asks for it in whichever way:
an override of a node is granted only if its run is in flight and the node is not handled; one that is refused changes
neither the text of a run nor the states of nodes nor a phase; a run that has finished keeps its text for ever; and
an override of a node of a run that came to a good end is refused, since the node is handled. -/
theorem late_edits (h : Reachable adapters c) :
    (∀ actor n text s', actor.Reaches c.session n → c.session.override actor n text = .ok s' →
      c.session.alive n.run = true ∧ ∃ r e, c.session.runs[n.run]? = some r ∧ r.phase = .inFlight ∧
        r.arena.get? n.id = some e ∧ e.state ≠ .handled) ∧
    (∀ asker actor n text e, (c.session.respond asker (.override actor n text)).1 = .error e →
      ∀ k : RunId,
        ((c.session.respond asker (.override actor n text)).2.runs[k]?).map (fun r => (r.buffer, r.status)) =
          (c.session.runs[k]?).map fun r => (r.buffer, r.status)) ∧
    (∀ (k : RunId) r, c.session.runs[k]? = some r → r.phase ≠ .inFlight → ∀ c', Leads c c' →
      ∃ r', c'.session.runs[k]? = some r' ∧ r'.buffer = r.buffer ∧ r'.status = r.status) ∧
    (∀ n r, c.session.runs[n.run]? = some r → r.phase = .completed → r.ref? n.id = some n →
      ∀ actor text, actor.Reaches c.session n →
        c.session.perform (.override actor n text) = (.error (.nodeAlreadyHandled n.span), c.session)) ∧
    c.Agrees := by
  refine ⟨fun actor n text s' => Session.granted_of_reaches, fun asker actor n text e => Session.respond_refused,
    fun k r hr hphase c' => h.finished hr hphase, fun n r hr hphase hn actor text hactor => ?_, c.agrees⟩
  have hover := Session.override_completed hr hphase ((h.regular hr).completed hphase) hn hactor text
  simp only [Session.perform, hover]

theorem Reachable.end_of_last_turn {v : Visit} {result : Except TransformError Unit} {cs : List Caller} {s : Session}
    {ms : List Mark} (h : Reachable adapters ⟨.turn v (.done result), cs, s, ms⟩) (hrest : v.rest = []) :
    ∃ c, Reachable adapters c ∧ c.session = ((s.endTurn v.node).finish v.work.run v.work.job result).2 := by
  cases result with
  | error e => exact ⟨_, h.tail .fail, rfl⟩
  | ok u =>
    have hwalk := h.tail .succeed
    rw [hrest] at hwalk
    exact ⟨_, hwalk.tail .finish, rfl⟩

/-- A run over a single node, whose turn keeps its helpers and comes to some end, and with it the run. -/
theorem exists_finished_kept (result : Except TransformError Unit) :
    let adapter : Adapter := { name := "any", isNode := fun _ => true }
    let node : Node := ⟨0, 0, { kind := "leaf", span := ⟨0, 1⟩ }, .ofRun 0⟩
    ∃ c, Reachable #[adapter, adapter] c ∧ c.session.helpers = [("kept", node)] ∧ ∃ r, c.session.runs[0]? = some r ∧
      r.phase = .ofWalk result ∧ r.binding = 0 ∧ r.ref? 0 = some node ∧ r.source 0 = .ok "x" := by
  intro adapter node
  obtain ⟨m, s, ms, hturn, hruns, -, -, hhelpers⟩ := exists_first_turn #[adapter, adapter] "job" (.done result)
  obtain ⟨c, hc, hsession⟩ := Reachable.end_of_last_turn hturn rfl
  have hr : (s.endTurn node).runs[0]? = _ :=
    Session.runs_modifyRun_of_some rfl (congrArg (·[0]?) hruns) (·.advance 0 .handled)
  have hslice : Buffer.slice { base := "x".toList } ⟨0, 1⟩ = .ok ['x'] := by decide +kernel
  refine ⟨c, hc, ?_, ?_⟩
  · rw [hsession, Session.finish_session]
    exact hhelpers
  · rw [hsession]
    exact ⟨_, (Session.finish_of_run hr _ result).2, rfl, rfl, rfl, congrArg (Except.map String.ofList) hslice⟩

/-- The turn of a node is over and so is its run, but helpers of it are kept. The node is out of reach for them and
for both bindings. -/
theorem late_edits_kept_helpers :
    let adapter : Adapter := { name := "any", isNode := fun _ => true }
    let leaf : Tree := { kind := "leaf", span := ⟨0, 1⟩ }
    let node : Node := ⟨0, 0, leaf, .ofRun 0⟩
    let actors : List Actor := [.helpers node, .binding 0, .binding 1]
    ∃ c, Reachable #[adapter, adapter] c ∧ (∃ r, c.session.runs[0]? = some r ∧ r.phase = .completed) ∧
      ∀ actor ∈ actors, actor.Reaches c.session node ∧
        c.session.perform (.override actor node "y") = (.error (.nodeAlreadyHandled ⟨0, 1⟩), c.session) := by
  intro adapter leaf node actors
  obtain ⟨c, hc, hkept, r, hr, hphase, hb, hnode, -⟩ := exists_finished_kept (.ok ())
  have hreaches : ∀ actor ∈ actors, actor.Reaches c.session node := by
    intro actor hactor
    simp only [actors, List.mem_cons, List.not_mem_nil, or_false] at hactor
    rcases hactor with rfl | rfl | rfl
    · refine ⟨by simp [Session.alive, hkept, node], .inl ?_⟩
      rw [hc.recognises hr, hb]
      rfl
    · trivial
    · trivial
  obtain ⟨-, -, -, hhandled, -⟩ := late_edits hc
  refine ⟨c, hc, ⟨r, hr, hphase⟩, fun actor hactor => ⟨hreaches actor hactor, ?_⟩⟩
  exact hhandled node r hr hphase hnode actor "y" (hreaches actor hactor)

end Moment

end TreeEdit
