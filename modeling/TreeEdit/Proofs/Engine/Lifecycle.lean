import TreeEdit.Proofs.Engine.Posts

/-!
# The life of the nodes of a run

In the turn of a node, all nodes that come before it in post-order are handled, those above it wait for
their children, and no other node has been reached; turns began one by one in this order, each after the
end of the one before (`Moment.Lifecycle`). This is so at every moment of every history of a session, whatever
manipulators do and put off, and also while other jobs are started in the middle of a turn (`lifecycle`). No
node ever goes back to an earlier state (`Session.Forward`).
-/

namespace TreeEdit

/-! ## States never go back -/

theorem NodeState.rank_le_later (s t : NodeState) : s.rank ≤ (s.later t).rank := by
  rw [later]
  split <;> omega

namespace Session

variable {s s' : Session}

def nodeState (s : Session) (run : RunId) (id : Nat) : Option NodeState :=
  (s.runs[run]?).bind (·.state? id)

theorem nodeState_eq (s : Session) (run : RunId) (id : Nat) :
    s.nodeState run id = (s.status run).bind (·.arena.state? id) := by
  rw [nodeState, status]
  cases s.runs[run]? <;> rfl

/-- Nodes are where they were before, or have come on. -/
def Forward (s s' : Session) : Prop :=
  ∀ run id state, s.nodeState run id = some state →
    ∃ state', s'.nodeState run id = some state' ∧ state.rank ≤ state'.rank

theorem Forward.refl (s : Session) : Forward s s :=
  fun _ _ state h => ⟨state, h, Nat.le_refl _⟩

theorem Forward.trans {s₁ s₂ s₃ : Session} (h : Forward s₁ s₂) (h' : Forward s₂ s₃) : Forward s₁ s₃ := by
  intro run id state hstate
  obtain ⟨state', hstate', hle⟩ := h run id state hstate
  obtain ⟨state'', hstate'', hle'⟩ := h' run id state' hstate'
  exact ⟨state'', hstate'', Nat.le_trans hle hle'⟩

theorem forward_of_arena (h : ∀ k st, s.status k = some st →
    ∃ st', s'.status k = some st' ∧ st'.arena = st.arena) : Forward s s' := by
  intro run id state hstate
  rw [nodeState_eq] at hstate
  obtain ⟨st, hst, harena⟩ := Option.bind_eq_some_iff.mp hstate
  obtain ⟨st', hst', heq⟩ := h run st hst
  refine ⟨state, ?_, Nat.le_refl _⟩
  rw [nodeState_eq, hst', Option.bind_some, heq, harena]

theorem Quiet.forward (h : Quiet s s') : Forward s s' :=
  forward_of_arena fun k st hst => ⟨st, (h.status k).trans hst, rfl⟩

theorem forward_advance (s : Session) (run : RunId) (f : Run → Run) {id : Nat} {state : NodeState}
    (hf : ∀ r, (f r).status = (r.advance id state).status) : Forward s (s.modifyRun run f) := by
  intro k j old hold
  rw [nodeState_eq] at hold
  obtain ⟨st, hst, harena⟩ := Option.bind_eq_some_iff.mp hold
  rw [nodeState_eq, status_advance s run hf, hst]
  split
  · rw [Option.map_some, Option.bind_some, Arena.state?_advance, harena]
    split
    · exact ⟨_, rfl, old.rank_le_later state⟩
    · exact ⟨old, rfl, Nat.le_refl _⟩
  · exact ⟨old, harena, Nat.le_refl _⟩

theorem forward_addRun (s : Session) (job : Job) (arena : Arena) : Forward s (s.addRun job arena).2 := by
  exact forward_of_arena fun k st hst => ⟨st, status_addRun_of_some hst job arena, rfl⟩

theorem forward_finish (s : Session) (run : RunId) (job : Job) (walked : Except TransformError Unit) :
    Forward s (s.finish run job walked).2 := by
  refine forward_of_arena fun k st hst => ?_
  rw [status_finish, hst]
  split
  · exact ⟨_, rfl, rfl⟩
  · exact ⟨st, rfl, rfl⟩

end Session

namespace Moment

theorem forward_begin (job : Job) (m : Manipulator) (cs : List Caller) (s : Session) (ms : List Mark) :
    s.Forward (begin job m cs s ms).session := by
  rw [begin]
  split
  · exact .refl s
  · split
    · exact .refl s
    · exact s.forward_addRun job _

theorem forward_launch (job : Job) (m : Manipulator) (cs : List Caller) (s : Session) (ms : List Mark) :
    s.Forward (launch job m cs s ms).session := by
  rw [launch]
  split
  · exact .refl s
  · exact forward_begin job m cs s ms

theorem Step.forward {c c' : Moment} (h : Step c c') : c.session.Forward c'.session := by
  cases h with
  | enter => exact Session.forward_advance _ _ _ fun _ => rfl
  | visit => exact Session.forward_advance _ _ _ fun _ => rfl
  | finish => exact Session.forward_finish _ _ _ _
  | call => exact (Session.quiet_respond _ _ _).1.forward
  | start => exact forward_launch _ _ _ _ _
  | goOn => exact .refl _
  | ready => exact .refl _
  | suspend => exact .refl _
  | succeed => exact Session.forward_advance _ _ _ fun _ => rfl
  | fail => exact (Session.forward_advance _ _ _ fun _ => rfl).trans (Session.forward_finish _ _ _ _)
  | answer => exact (Session.quiet_keep _ _ _).forward
  | leave => exact (Session.quiet_keep _ _ _).forward
  | @again job m run t name s ms =>
    cases t with
    | walking run node turn rest job m => exact .refl _
    | parsing polls job m =>
      cases polls with
      | zero => exact forward_begin _ _ _ _ _
      | succ n => exact .refl _
  | launch => exact forward_launch _ _ _ _ _
  | poll htake => exact (Session.quiet_takeTask htake).1.forward
  | drop => exact (Session.quiet_drop _ _).1.forward
  | act => exact (Session.quiet_perform _ _).1.forward

theorem Leads.forward {c c' : Moment} (h : Leads c c') : c.session.Forward c'.session := by
  induction h with
  | refl => exact .refl _
  | tail _ hstep ih => exact ih.trans hstep.forward

/-! ## The turn of a node -/

/-- It is the turn of a node in the walk of a job. -/
inductive InTurn (c : Moment) (w : Work) (v : Node) : Prop
  | executing {rest turn} (h : c.focus = .turn ⟨w, v, rest⟩ turn)
  /-- The turn waits for a job that it has started. -/
  | waiting {name rest next} (h : .turn name ⟨w, v, rest⟩ next ∈ c.callers)
  /-- The turn has just been put off, or is about to be polled. -/
  | returning {job m run turn rest}
    (h : c.focus = .back job m run (.pending (.walking w.run v turn rest w.job w.manipulator)))
  | suspended {name turn rest} (h : (name, .walking w.run v turn rest w.job w.manipulator) ∈ c.session.tasks)

theorem mem_callerPosts {cs : List Caller} {name : String} {v : Visit} {next : Started → Turn}
    (h : .turn name v next ∈ cs) : ∃ po, v.post po ∈ callerPosts cs := by
  induction cs with
  | nil => cases h
  | cons caller cs ih =>
    cases h with
    | head => exact ⟨_, List.mem_cons_self⟩
    | tail _ h =>
      obtain ⟨po, hpo⟩ := ih h
      cases caller with
      | outside polling name => exact ⟨po, hpo⟩
      | turn name v next => exact ⟨po, List.mem_cons_of_mem _ hpo⟩

theorem InTurn.post {c : Moment} {w : Work} {v : Node} (h : c.InTurn w v) :
    ∃ steps po, .walking w (some v) steps po ∈ c.posts := by
  simp only [posts, List.mem_append]
  cases h with
  | executing h =>
    rw [h]
    exact ⟨_, _, .inl (List.mem_singleton_self _)⟩
  | waiting h =>
    obtain ⟨po, hpo⟩ := mem_callerPosts h
    exact ⟨_, po, .inr (.inl hpo)⟩
  | returning h =>
    rw [h]
    exact ⟨_, true, .inl (List.mem_singleton_self _)⟩
  | suspended h => exact ⟨_, true, .inr (.inr (List.mem_map_of_mem h))⟩

/-- What there is to say about the nodes of a run in the turn of one of them. Nodes are listed in
post-order. -/
structure Lifecycle (c : Moment) (w : Work) (v : Node) (root : Tree) (done todo : List Node) : Prop where
  parsed : w.job.parsed = .ok root
  nodes : w.job.nodes root w.run = done ++ v :: todo
  running : c.session.nodeState w.run v.id = some .running
  handled : ∀ u ∈ done, c.session.nodeState w.run u.id = some .handled
  /-- Nodes above the one at hand. -/
  traversing : ∀ u ∈ w.job.nodes root w.run, v ∈ u.below →
    c.session.nodeState w.run u.id = some .traversingChildren
  /-- All others. -/
  registered : ∀ u ∈ todo, v ∉ u.below → c.session.nodeState w.run u.id = some .registered
  /-- Each turn that was begun, once, and the end of all but the last. -/
  turns : turnsOf w.run c.marks = turned done ++ [.started v]

theorem lifecycle_of_at {c : Moment} {w : Work} {v : Node} {root : Tree} {past steps : List WalkStep}
    {po : Bool} (h : w.At root past (some v) steps po c.session c.marks) :
    c.Lifecycle w v root (visits past) (visits steps) := by
  have hplan : w.job.steps root w.run = past ++ .visit v :: steps := h.plan
  have hnodes : w.job.nodes root w.run = visits past ++ v :: visits steps := Arena.postorder_of_plan hplan
  obtain ⟨hrunning, hhandled, htraversing, hregistered⟩ := Arena.states_of_turn hplan rfl
  have hstate : ∀ id, c.session.nodeState w.run id = (Arena.amid root past (some v)).state? id := by
    intro id
    rw [Session.nodeState_eq, h.status, Option.bind_some]
  refine ⟨h.parsed, hnodes, ?_, ?_, ?_, ?_, h.turns⟩
  · rw [hstate]
    exact hrunning
  · intro u hu
    rw [hstate]
    exact hhandled u hu
  · intro u hu hbelow
    rw [hstate]
    exact htraversing u hu hbelow
  · intro u hu hbelow
    -- a node has one place in post-order, so one that comes later is none of those before
    have hnodup : (visits past ++ v :: visits steps).Nodup := hnodes ▸ Tree.nodup_postorder root 0
    obtain ⟨-, hlater, hapart⟩ := List.nodup_append.mp hnodup
    have hdone : u ∉ visits past := fun h => hapart u h u (List.mem_cons_of_mem _ hu) rfl
    have hne : u ≠ v := fun heq => (List.nodup_cons.mp hlater).1 (heq ▸ hu)
    have hmem : u ∈ w.job.nodes root w.run := by
      rw [hnodes]
      simp [hu]
    rw [hstate]
    exact hregistered u hmem hdone hne hbelow

/-- **The life of nodes.** At every moment of every history of a session at which it is the turn of a node,
be it carried out or put off, the nodes before it in post-order are handled, those above it wait for their
children and no others have been reached, and turns have begun and ended in post-order. No node ever goes back
to an earlier state. Histories have what calls, walks and turns come to. -/
theorem lifecycle {adapters : Array Adapter} {c : Moment} (h : Reachable adapters c) :
    (∀ w v, c.InTurn w v → ∃ root done todo, c.Lifecycle w v root done todo) ∧
    (∀ c', Leads c c' → c.session.Forward c'.session) ∧ c.Agrees := by
  refine ⟨fun w v hturn => ?_, fun c' hleads => Leads.forward hleads, c.agrees⟩
  obtain ⟨steps, po, hpost⟩ := hturn.post
  obtain ⟨root, past, hat⟩ := h.inv.sound _ hpost
  exact ⟨root, visits past, visits steps, lifecycle_of_at hat⟩

/-- A node with two children. The turn of the first child is over, that of the second is put off. -/
theorem lifecycle_second_child :
    let adapter : Adapter := { name := "any", isNode := fun _ => true }
    let first : Tree := { kind := "first", span := ⟨0, 1⟩ }
    let second : Tree := { kind := "second", span := ⟨1, 2⟩ }
    let root : Tree := { kind := "pair", span := ⟨0, 2⟩, children := [first, second] }
    let job : Job :=
      { name := "job", binding := 0, code := "xy", parsePolls := none, parsed := .ok root,
        sharedTree := false, map := {}, lookups := [] }
    let m : Manipulator := fun _ node => if node.id = 2 then .defer (.done (.ok ())) else .done (.ok ())
    ∃ c, Reachable #[adapter] c ∧ c.InTurn ⟨job, m, 0⟩ ⟨0, 2, second, .ofRun 0⟩ ∧
      ∃ root done todo, c.Lifecycle ⟨job, m, 0⟩ ⟨0, 2, second, .ofRun 0⟩ root done todo := by
  intro adapter first second root job m
  have hwalk := Step.launch_walk m (.ofAdapters #[adapter]) [] (show job.parsePolls = none from rfl)
    (show job.parsed = .ok root from rfl) (by decide)
  have hfirst := Relation.ReflTransGen.single hwalk |>.tail .enter |>.tail .enter |>.tail .visit
  have hsecond := hfirst |>.tail .succeed |>.tail .enter |>.tail .visit |>.tail (.suspend rfl)
  exact ⟨_, hsecond, .returning rfl, (lifecycle hsecond).1 _ _ (.returning rfl)⟩

end Moment

end TreeEdit
