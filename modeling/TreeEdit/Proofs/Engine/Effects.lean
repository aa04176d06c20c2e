import TreeEdit.Proofs.Engine.AtWork

/-!
# What steps do to a session

There is little that a step does to a session (`Session.Effect`). The walk of a run at work moves its nodes on and ends
it, runs begin, and a run may be let go of; all else is about tables and about what runs have seen. Or else an override
is granted (`Moment.Granted`), and one run is edited. Whatever is kept through each of these is kept through every step
(`Step.granted_or_effects`, `Step.effects`).
-/

namespace TreeEdit

def Run.AllHandled (r : Run) : Prop :=
  ∀ id e, r.arena.get? id = some e → e.state = .handled

/-! ## The end of a walk -/

namespace Tree

theorem length_preorder_le (t : Tree) : t.preorder.length ≤ t.size :=
  List.getElem?_eq_none_iff.mp (getElem?_preorderThen_size.1 t [] 0)

end Tree

namespace Arena

theorem tree_of_get?_after {a : Arena} {steps : List WalkStep} {id : Nat} {e : NodeEntry}
    (h : (a.after steps).get? id = some e) : ∃ d, a.get? id = some d ∧ e.tree = d.tree := by
  induction steps using List.reverseRecOn generalizing e with
  | nil => exact ⟨e, h, rfl⟩
  | append_singleton steps step ih =>
    rw [after_concat] at h
    cases step with
    | enter n =>
      obtain ⟨d, hd, htree⟩ := tree_of_get?_advance h
      obtain ⟨d', hd', htree'⟩ := ih hd
      exact ⟨d', hd', htree.trans htree'⟩
    | visit n =>
      obtain ⟨d, hd, htree⟩ := tree_of_get?_advance h
      obtain ⟨d', hd', htree'⟩ := tree_of_get?_advance hd
      obtain ⟨d'', hd'', htree''⟩ := ih hd'
      exact ⟨d'', hd'', htree.trans (htree'.trans htree'')⟩

theorem state_of_get?_plan {root : Tree} {run : RunId} {key : TreeKey} {id : Nat} {e : NodeEntry}
    (h : ((ofTree root).after (root.plan run key)).get? id = some e) : e.state = .handled := by
  obtain ⟨d, hd, -⟩ := tree_of_get?_after h
  have hlt : id < root.preorder.length := (List.getElem?_eq_some_iff.mp (tree_of_ofTree hd)).1
  have hsize := root.length_preorder_le
  obtain ⟨u, hu, rfl⟩ : ∃ u ∈ root.postorder run key 0, u.id = id :=
    Tree.exists_mem_postorder.1 root 0 id (Nat.zero_le _) (by omega)
  have hstate := state?_after (state?_ofTree hu) (root.plan run key)
  rw [← Tree.visits_plan] at hu
  rw [reached_eq_handled hu, state?, h] at hstate
  exact Option.some.inj hstate

end Arena

namespace Work.At

variable {w : Work} {root : Tree} {past rest : List WalkStep} {here : Option Node} {po : Bool} {s : Session}
  {ms : List Mark} {r : Run}

theorem status_eq (h : w.At root past here rest po s ms) (hr : s.runs[w.run]? = some r) :
    r.status = ⟨Arena.amid root past here, w.job.binding, .inFlight⟩ := by
  have hstatus := h.status
  rwa [Session.status, hr, Option.map_some, Option.some.injEq] at hstatus

theorem phase (h : w.At root past here rest po s ms) (hr : s.runs[w.run]? = some r) : r.phase = .inFlight :=
  congrArg Status.phase (h.status_eq hr)

theorem allHandled (h : w.At root past none [] po s ms) (hr : s.runs[w.run]? = some r) : r.AllHandled := by
  intro id e he
  have hpast : past = w.job.steps root w.run := by
    rw [h.plan]
    simp
  have harena : r.arena = (Arena.ofTree root).after past := congrArg Status.arena (h.status_eq hr)
  rw [harena, hpast] at he
  exact Arena.state_of_get?_plan he

end Work.At

/-! ## Effects -/

namespace Session

variable {s s' : Session} {work : RunId → Prop} {edits : Prop}

/-- One thing that is done in a session. What is up to a walk is done to a run at work, and runs are edited only if
that is to be reckoned with. -/
inductive Effect (work : RunId → Prop) (edits : Prop) : Session → Session → Prop
  /-- Tasks change, or what is kept under names. -/
  | tables {s s' : Session} (hruns : s'.runs = s.runs) (hbindings : s'.bindings = s.bindings) : Effect work edits s s'
  | edited {s : Session} {run : RunId} {id : Nat} {text : String} {r r' : Run} (hedits : edits)
    (hr : s.runs[run]? = some r) (hover : r.override id text = .ok r') :
    Effect work edits s (s.modifyRun run fun _ => r')
  | recorded {s : Session} (run : RunId) (e : Event) : Effect work edits s (s.modifyRun run (·.record e))
  /-- Nobody awaits the result any more. -/
  | released {s : Session} (run : RunId) : Effect work edits s (s.modifyRun run fun r => { r with held := false })
  | advanced {s : Session} {run : RunId} (id : Nat) (state : NodeState) (hwork : work run)
    (hphase : ∀ r, s.runs[run]? = some r → r.phase = .inFlight) :
    Effect work edits s (s.modifyRun run (·.advance id state))
  | begun {s : Session} {job : Job} {root : Tree} {arena : Arena}
    (hreg : Arena.register job.code.toList root = .ok arena) : Effect work edits s (s.addRun job arena).2
  | finished {s : Session} {run : RunId} {job : Job} {r : Run} (walked : Except TransformError Unit) (hwork : work run)
    (hr : s.runs[run]? = some r) (hbinding : r.binding = job.binding) (hphase : r.phase = .inFlight)
    (hall : walked = .ok () → r.AllHandled) : Effect work edits s (s.finish run job walked).2

abbrev Effects (work : RunId → Prop) (edits : Prop) : Session → Session → Prop :=
  Relation.ReflTransGen (Effect work edits)

theorem Effect.mono (h : Effect work False s s') (edits : Prop) : Effect work edits s s' := by
  cases h with
  | tables hruns hbindings => exact .tables hruns hbindings
  | edited hedits hr hover => exact hedits.elim
  | recorded run e => exact .recorded run e
  | released run => exact .released run
  | advanced id state hwork hphase => exact .advanced id state hwork hphase
  | begun hreg => exact .begun hreg
  | finished walked hwork hr hbinding hphase hall => exact .finished walked hwork hr hbinding hphase hall

theorem Effects.mono (h : Effects work False s s') (edits : Prop) : Effects work edits s s' := by
  induction h with
  | refl => exact .refl
  | tail _ heffect ih => exact ih.tail (heffect.mono edits)

theorem effects_of_tables (hruns : s'.runs = s.runs) (hbindings : s'.bindings = s.bindings) :
    Effects work edits s s' :=
  .single (.tables hruns hbindings)

theorem modifyRun_modifyRun (s : Session) (run : RunId) (f g : Run → Run) :
    (s.modifyRun run f).modifyRun run g = s.modifyRun run fun r => g (f r) := by
  have hruns : (s.runs.modify run f).modify run g = s.runs.modify run fun r => g (f r) := by
    refine Array.ext_getElem? fun k => ?_
    simp only [Array.getElem?_modify]
    split
    · rw [Option.map_map]
      rfl
    · rfl
  rw [modifyRun, modifyRun, hruns, modifyRun]

theorem Effect.record {run : RunId} {f : Run → Run} (h : Effect work edits s (s.modifyRun run f)) (e : Event) :
    Effects work edits s (s.modifyRun run fun r => (f r).record e) := by
  rw [← s.modifyRun_modifyRun run f (·.record e)]
  exact .tail (.single h) (.recorded run e)

theorem effects_release (s : Session) (t : Task) : Effects work edits s (s.release t) := by
  rw [release]
  split
  · exact .refl
  · exact .single (.released _)

theorem effects_keep (s : Session) (name : String) (p : Progression) : Effects work edits s (s.keep name p) := by
  cases p with
  | finished result => exact .refl
  | pending t =>
    have hkept : Effects work edits s { s with tasks := putNamed name t s.tasks } := effects_of_tables rfl rfl
    rw [keep, putTask]
    split
    · exact hkept
    · exact hkept.trans (effects_release _ _)

theorem effects_takeTask {name : String} {t : Task} (h : s.takeTask name = some (t, s')) :
    Effects work edits s s' := by
  obtain ⟨t', -, heq⟩ := Option.map_eq_some_iff.mp h
  cases heq
  exact effects_of_tables rfl rfl

theorem effects_drop (s : Session) (name : String) : Effects work edits s (s.drop name).2 := by
  rw [drop]
  split
  · exact .refl
  · rename_i t s' htake
    exact (effects_takeTask htake).trans (s'.effects_release t)

theorem perform_cases (s : Session) (q : Request) :
    (∃ actor n text s', q = .override actor n text ∧ s.override actor n text = .ok s') ∨
      (s.perform q).2.runs = s.runs ∧ (s.perform q).2.bindings = s.bindings := by
  cases q with
  | override actor n text =>
    cases hover : s.override actor n text with
    | ok s' => exact .inl ⟨actor, n, text, s', rfl, hover⟩
    | error e => exact .inr (by simp [perform, hover])
  | _ => exact .inr ⟨rfl, rfl⟩

end Session

/-! ## Overrides that are granted -/

/-- An override that was granted: the node in whose turn it was asked for, if it was in a turn, the node that it was of,
and the new text. -/
structure Grant where
  asker : Option Node
  target : Node
  text : String

namespace Session

variable {s s' : Session} {actor : Actor} {n target : Node} {text : String} {r r' : Run}

/-- The override that is asked for comes to one of the target, and is granted. -/
structure Grants (s : Session) (actor : Actor) (n : Node) (text : String) (target : Node) (r r' : Run) : Prop where
  resolve : s.resolve actor n = .node target.run target.id
  run : s.runs[target.run]? = some r
  ref : r.ref? target.id = some { target with run := r.id }
  override : r.override target.id text = .ok r'

theorem exists_grants (h : s.override actor n text = .ok s') : ∃ target r r', s.Grants actor n text target r r' := by
  obtain ⟨run, id, r, r', hplace, hr, hover, -⟩ := override_eq_ok h
  obtain ⟨e, -, he, -⟩ := Run.override_eq_ok hover
  exact ⟨⟨run, id, e.tree, r.key⟩, r, r', hplace, hr, by simp [Run.ref?, he], hover⟩

theorem Grants.perform (h : s.Grants actor n text target r r') :
    s.perform (.override actor n text) = (.ok (), s.modifyRun target.run fun _ => r') := by
  simp only [Session.perform, Session.override, h.resolve, h.run, h.override]
  rfl

end Session

namespace Moment

variable {c c' : Moment}

inductive Granted : Moment → Moment → Grant → Prop
  | turn {v actor n text next cs s ms target r r'} (h : s.Grants actor n text target r r') :
    Granted ⟨.turn v (.call (.override actor n text) next), cs, s, ms⟩
      ⟨.turn v (next (s.respond (some v.work.run) (.override actor n text)).1), cs,
        (s.respond (some v.work.run) (.override actor n text)).2, ms⟩ ⟨some v.node, target, text⟩
  | outside {actor n text s ms target r r'} (h : s.Grants actor n text target r r') :
    Granted (.rest s ms) (.rest (s.perform (.override actor n text)).2 ms) ⟨none, target, text⟩

theorem Granted.step {g : Grant} (h : Granted c c' g) : Step c c' := by
  cases h with
  | turn h => exact .call
  | outside h => exact .act

/-! ## Effects of steps -/

section

variable {work : RunId → Prop} {edits : Prop} (job : Job) (m : Manipulator) (cs : List Caller) (s : Session)
  (ms : List Mark)

theorem effects_begin : Session.Effects work edits s (begin job m cs s ms).session := by
  rw [begin]
  split
  · exact .refl
  · split
    · exact .refl
    · exact .single (.begun ‹_›)

theorem effects_launch : Session.Effects work edits s (launch job m cs s ms).session := by
  rw [launch]
  split
  · exact .refl
  · exact effects_begin job m cs s ms

end

theorem effect_advance {w : Work} {root : Tree} {past rest : List WalkStep} {here : Option Node} {po : Bool} {n : Node}
    (hat : w.At root past here rest po c.session c.marks) (hwork : c.AtWork w.run) (hn : n.run = w.run)
    (state : NodeState) :
    Session.Effect c.AtWork False c.session (c.session.modifyRun n.run (·.advance n.id state)) := by
  rw [hn]
  exact .advanced n.id state hwork fun r hr => hat.phase hr

theorem effect_finish {w : Work} {root : Tree} {past rest : List WalkStep} {here : Option Node} {po : Bool}
    {s : Session} {ms : List Mark} (hat : w.At root past here rest po s ms) (hwork : c.AtWork w.run)
    (walked : Except TransformError Unit) (hend : walked = .ok () → here = none ∧ rest = []) :
    Session.Effect c.AtWork False s (s.finish w.run w.job walked).2 := by
  obtain ⟨r, hr, -⟩ := Option.map_eq_some_iff.mp hat.status
  refine .finished walked hwork hr (congrArg Status.binding (hat.status_eq hr)) (hat.phase hr) fun hok => ?_
  obtain ⟨rfl, rfl⟩ := hend hok
  exact hat.allHandled hr

/-- **What a step does**: it grants an override, or has effects that leave texts alone. -/
theorem Step.granted_or_effects (h : c.Inv) (hstep : Step c c') :
    (∃ g, Granted c c' g) ∨ Session.Effects c.AtWork False c.session c'.session := by
  cases hstep with
  | @enter w n rest cs s ms =>
    obtain ⟨⟨root, past, hat⟩, -, -⟩ := Inv.walking_iff.mp h
    have hrun : n.run = w.run := hat.run_of_mem (.enter n) (by simp)
    exact .inr (.single (effect_advance hat ⟨_, List.mem_cons_self, rfl⟩ hrun .traversingChildren))
  | @visit w n rest cs s ms =>
    obtain ⟨⟨root, past, hat⟩, -, -⟩ := Inv.walking_iff.mp h
    have hrun : n.run = w.run := hat.run_of_mem (.visit n) (by simp)
    have hadvance := effect_advance hat ⟨_, List.mem_cons_self, rfl⟩ hrun .running
    exact .inr (hadvance.record (.visited n))
  | @finish w cs s ms =>
    obtain ⟨⟨root, past, hat⟩, -, -⟩ := Inv.walking_iff.mp h
    exact .inr (.single (effect_finish hat ⟨_, List.mem_cons_self, rfl⟩ (.ok ()) fun _ => ⟨rfl, rfl⟩))
  | @call v q next cs s ms =>
    rcases s.perform_cases q with ⟨actor, n, text, s', rfl, hover⟩ | ⟨hruns, hbindings⟩
    · obtain ⟨target, r, r', hgrants⟩ := Session.exists_grants hover
      exact .inl ⟨_, .turn hgrants⟩
    · exact .inr ((Session.effects_of_tables hruns hbindings).tail (.recorded v.work.run (.answered q _)))
  | start => exact .inr (effects_launch _ _ _ _ _)
  | goOn => exact .inr .refl
  | ready => exact .inr .refl
  | suspend => exact .inr .refl
  | @succeed v cs s ms =>
    obtain ⟨⟨root, past, hat⟩, -, -⟩ := Inv.walking_iff.mp h
    have hrun : v.node.run = v.work.run := hat.run_of_mem (.visit v.node) (by simp)
    exact .inr (.single (effect_advance hat ⟨_, List.mem_cons_self, rfl⟩ hrun .handled))
  | @fail v e cs s ms =>
    obtain ⟨⟨root, past, hat⟩, -, -⟩ := Inv.walking_iff.mp h
    have hrun : v.node.run = v.work.run := hat.run_of_mem (.visit v.node) (by simp)
    have hadvance := effect_advance hat ⟨_, List.mem_cons_self, rfl⟩ hrun .handled
    refine .inr (.tail (.single hadvance) ?_)
    exact effect_finish hat.succeed ⟨_, List.mem_cons_self, rfl⟩ (.error e) fun hok => by cases hok
  | answer => exact .inr (Session.effects_keep _ _ _)
  | leave => exact .inr (Session.effects_keep _ _ _)
  | @again job m run t name s ms =>
    cases t with
    | walking run node turn rest job m => exact .inr .refl
    | parsing polls job m =>
      cases polls with
      | zero => exact .inr (effects_begin _ _ _ _ _)
      | succ n => exact .inr .refl
  | launch => exact .inr (effects_launch _ _ _ _ _)
  | poll htake => exact .inr (Session.effects_takeTask htake)
  | drop => exact .inr (Session.effects_drop _ _)
  | @act q s ms =>
    rcases s.perform_cases q with ⟨actor, n, text, s', rfl, hover⟩ | ⟨hruns, hbindings⟩
    · obtain ⟨target, r, r', hgrants⟩ := Session.exists_grants hover
      exact .inl ⟨_, .outside hgrants⟩
    · exact .inr (Session.effects_of_tables hruns hbindings)

theorem Granted.effects {work : RunId → Prop} {g : Grant} (h : Granted c c' g) :
    Session.Effects work True c.session c'.session := by
  cases h with
  | @turn v actor n text next cs s ms target r r' hgrants =>
    rw [Session.respond, hgrants.perform]
    exact .tail (.single (.edited trivial hgrants.run hgrants.override)) (.recorded v.work.run _)
  | outside hgrants =>
    rw [hgrants.perform]
    exact .single (.edited trivial hgrants.run hgrants.override)

theorem Step.effects (h : c.Inv) (hstep : Step c c') : Session.Effects c.AtWork True c.session c'.session := by
  rcases hstep.granted_or_effects h with ⟨g, hg⟩ | heffects
  · exact hg.effects
  · exact heffects.mono True

end Moment

end TreeEdit
