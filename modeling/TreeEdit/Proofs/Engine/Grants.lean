import TreeEdit.Proofs.Buffer.Kept
import TreeEdit.Proofs.Engine.Effects

/-!
# A log of overrides

`Moment.Logged` is a history together with a log of all overrides that were granted in it, by whomever they were asked
for. A step that grants no override edits no run (`Effect.unedited`), so the log tells all about the buffers of runs
(`Logged.told`). Where nodes override themselves only, and once, the log has them in the order of their turns
(`Logged.in_order`).
-/

namespace TreeEdit

def Grant.edit (g : Grant) : Edit :=
  Run.editOf g.target.span g.text

def grantsOf (k : RunId) (log : List Grant) : List Grant :=
  log.filter (·.target.run == k)

theorem mem_grantsOf {k : RunId} {log : List Grant} {g : Grant} : g ∈ grantsOf k log ↔ g ∈ log ∧ g.target.run = k := by
  simp [grantsOf]

theorem grantsOf_concat (k : RunId) (log : List Grant) (g : Grant) :
    grantsOf k (log ++ [g]) = grantsOf k log ++ if g.target.run = k then [g] else [] := by
  by_cases h : g.target.run = k <;> simp [grantsOf, h]

/-! ## Runs that are not edited -/

/-- The same text, and the same nodes if perhaps in other states. -/
structure Run.Alike (r r' : Run) : Prop where
  buffer : r'.buffer = r.buffer
  nodes : ∀ id e', r'.arena.get? id = some e' → ∃ e, r.arena.get? id = some e ∧ e'.tree = e.tree

namespace Run.Alike

variable {r r' r'' : Run}

theorem of_arena (hbuffer : r'.buffer = r.buffer) (harena : r'.arena = r.arena) : r.Alike r' :=
  ⟨hbuffer, fun _ e' he' => ⟨e', harena ▸ he', rfl⟩⟩

theorem trans (h : r.Alike r') (h' : r'.Alike r'') : r.Alike r'' where
  buffer := h'.buffer.trans h.buffer
  nodes id e'' he'' := by
    obtain ⟨e', he', htree'⟩ := h'.nodes id e'' he''
    obtain ⟨e, he, htree⟩ := h.nodes id e' he'
    exact ⟨e, he, htree'.trans htree⟩

theorem advance (r : Run) (id : Nat) (state : NodeState) : r.Alike (r.advance id state) :=
  ⟨rfl, fun _ _ he' => Arena.tree_of_get?_advance he'⟩

theorem sound {text : List Char} (h : r.Alike r') (hr : r.Sound text) : r'.Sound text := by
  refine ⟨by rw [h.buffer, hr.base], h.buffer ▸ hr.buffer, fun id e' he' => ?_⟩
  obtain ⟨e, he, htree⟩ := h.nodes id e' he'
  rw [htree]
  exact hr.nodes id e he

end Run.Alike

def Run.Fresh (r : Run) : Prop :=
  ∃ text, r.buffer = { base := text } ∧ r.Sound text

theorem Run.Fresh.alike {r r' : Run} (h : r.Fresh) (halike : r.Alike r') : r'.Fresh := by
  obtain ⟨text, hbuffer, hsound⟩ := h
  exact ⟨text, halike.buffer.trans hbuffer, halike.sound hsound⟩

namespace Session

variable {s s' s'' : Session}

/-- No run is edited; some may have begun. -/
structure Unedited (s s' : Session) : Prop where
  size : s.runs.size ≤ s'.runs.size
  run : ∀ (k : RunId) r', s'.runs[k]? = some r' →
    (∃ r, s.runs[k]? = some r ∧ r.Alike r') ∨ s.runs[k]? = none ∧ r'.Fresh

theorem Unedited.none {k : RunId} (h : Unedited s s') (hk : s'.runs[k]? = none) : s.runs[k]? = none := by
  have := h.size
  rw [Array.getElem?_eq_none_iff] at *
  omega

theorem unedited_of_runs (h : s'.runs = s.runs) : Unedited s s' :=
  ⟨Nat.le_of_eq (by rw [h]), fun _ r' hr' => .inl ⟨r', h ▸ hr', .of_arena rfl rfl⟩⟩

theorem Unedited.trans (h : Unedited s s') (h' : Unedited s' s'') : Unedited s s'' := by
  refine ⟨Nat.le_trans h.size h'.size, fun k r'' hr'' => ?_⟩
  rcases h'.run k r'' hr'' with ⟨r', hr', halike'⟩ | ⟨hnone, hfresh⟩
  · rcases h.run k r' hr' with ⟨r, hr, halike⟩ | ⟨hnone, hfresh⟩
    · exact .inl ⟨r, hr, halike.trans halike'⟩
    · exact .inr ⟨hnone, hfresh.alike halike'⟩
  · exact .inr ⟨h.none hnone, hfresh⟩

theorem unedited_modifyRun (s : Session) (run : RunId) {f : Run → Run} (hf : ∀ r : Run, r.Alike (f r)) :
    Unedited s (s.modifyRun run f) := by
  refine ⟨Nat.le_of_eq (by simp [modifyRun]), fun k r' hr' => ?_⟩
  rw [modifyRun, Array.getElem?_modify] at hr'
  split at hr'
  · obtain ⟨r, hr, rfl⟩ := Option.map_eq_some_iff.mp hr'
    exact .inl ⟨r, hr, hf r⟩
  · exact .inl ⟨r', hr', .of_arena rfl rfl⟩

theorem unedited_addRun (s : Session) {job : Job} {arena : Arena} {root : Tree}
    (h : Arena.register job.code.toList root = .ok arena) : Unedited s (s.addRun job arena).2 := by
  refine ⟨by simp [addRun, modifyStore], fun k r' hr' => ?_⟩
  simp only [addRun, modifyStore, Array.getElem?_push] at hr'
  split at hr'
  · rename_i heq
    cases hr'
    exact .inr ⟨Array.getElem?_eq_none (Nat.le_of_eq heq.symm), _, rfl, Run.sound_of_register h rfl⟩
  · exact .inl ⟨r', hr', .of_arena rfl rfl⟩

theorem Effect.unedited {work : RunId → Prop} (h : Effect work False s s') : Unedited s s' := by
  cases h with
  | tables hruns _ => exact unedited_of_runs hruns
  | edited hedits _ _ => exact hedits.elim
  | recorded run e => exact s.unedited_modifyRun run fun r => .of_arena rfl rfl
  | released run => exact s.unedited_modifyRun run fun r => .of_arena rfl rfl
  | advanced id state _ _ => exact s.unedited_modifyRun _ fun r => .advance r id state
  | begun hreg => exact s.unedited_addRun hreg
  | @finished run job r walked _ _ _ _ _ =>
    have hstore : Unedited s (s.modifyStore job.binding fun store => store.filter (· != run)) := unedited_of_runs rfl
    rw [finish_session]
    exact hstore.trans (unedited_modifyRun _ run fun r => .of_arena rfl rfl)

theorem Effects.unedited {work : RunId → Prop} (h : Effects work False s s') : Unedited s s' := by
  induction h with
  | refl => exact unedited_of_runs rfl
  | tail _ heffect ih => exact ih.trans heffect.unedited

end Session

namespace Moment

/-- The moments of all histories, with what was granted so far, from the first. A step that edits no run adds nothing. -/
inductive Logged (adapters : Array Adapter) : Moment → List Grant → Prop
  | start : Logged adapters (.rest (.ofAdapters adapters) []) []
  | grant {c c' : Moment} {log : List Grant} {g : Grant} (h : Logged adapters c log) (hgranted : Granted c c' g) :
    Logged adapters c' (log ++ [g])
  | step {c c' : Moment} {log : List Grant} (h : Logged adapters c log) (hstep : Step c c')
    (hsame : c.session.Unedited c'.session) : Logged adapters c' log

variable {adapters : Array Adapter} {c c' : Moment} {log : List Grant}

theorem Logged.reachable (h : Logged adapters c log) : Reachable adapters c := by
  induction h with
  | start => exact .refl
  | grant _ hgranted ih => exact ih.tail hgranted.step
  | step _ hstep _ ih => exact ih.tail hstep

theorem Logged.next (h : Logged adapters c log) (hstep : Step c c') :
    (∃ g, Granted c c' g ∧ Logged adapters c' (log ++ [g])) ∨ Logged adapters c' log := by
  rcases hstep.granted_or_effects h.reachable.inv with ⟨g, hg⟩ | heffects
  · exact .inl ⟨g, hg, h.grant hg⟩
  · exact .inr (h.step hstep heffects.unedited)

theorem Reachable.exists_log (h : Reachable adapters c) : ∃ log, Logged adapters c log := by
  induction h with
  | refl => exact ⟨[], .start⟩
  | tail _ hstep ih =>
    obtain ⟨log, hlog⟩ := ih
    rcases hlog.next hstep with ⟨g, -, hnext⟩ | hnext
    · exact ⟨_, hnext⟩
    · exact ⟨log, hnext⟩

end Moment

/-! ## What the log tells of a run -/

structure Run.Made (es : List Edit) (r : Run) : Prop where
  sound : r.Sound r.buffer.base
  tracks : r.buffer.Tracks es

namespace Run.Made

variable {r r' : Run} {es : List Edit}

theorem of_fresh (h : r.Fresh) : r.Made [] := by
  obtain ⟨text, hbuffer, hsound⟩ := h
  exact ⟨hsound.base.symm ▸ hsound, hbuffer ▸ Buffer.tracks_nil text⟩

theorem alike (h : r.Made es) (halike : r.Alike r') : r'.Made es := by
  refine ⟨?_, halike.buffer ▸ h.tracks⟩
  rw [halike.buffer]
  exact halike.sound h.sound

theorem override {n : Node} {text : String} (h : r.Made es) (hn : r.ref? n.id = some { n with run := r.id })
    (hover : r.override n.id text = .ok r') : r'.Made (es ++ [editOf n.span text]) := by
  have hsound := h.sound.move (.override n.id text)
  rw [Run.move, hover] at hsound
  obtain ⟨e, buffer, he, hb, rfl⟩ := override_eq_ok hover
  obtain ⟨e', he', heq⟩ := Option.map_eq_some_iff.mp hn
  obtain rfl : e = e' := Option.some.inj (he.symm.trans he')
  have hspan : n.span = e.tree.span := congrArg Node.span heq.symm
  refine ⟨hsound.base.symm ▸ hsound, ?_⟩
  obtain ⟨hcheck, rfl⟩ := Buffer.apply_eq_ok_iff.mp hb
  rw [hspan]
  exact h.tracks.absorb hcheck

end Run.Made

namespace Session

/-- Every run has come about by what was granted of it. -/
structure Told (log : List Grant) (s : Session) : Prop where
  known : ∀ g ∈ log, s.runs[g.target.run]? ≠ none
  run : ∀ (k : RunId) r, s.runs[k]? = some r → r.Made ((grantsOf k log).map Grant.edit)

variable {s s' : Session} {log : List Grant}

theorem Told.unedited (h : s.Told log) (hsame : s.Unedited s') : s'.Told log where
  known g hg hnone := h.known g hg (hsame.none hnone)
  run k r' hr' := by
    rcases hsame.run k r' hr' with ⟨r, hr, halike⟩ | ⟨hnone, hfresh⟩
    · exact (h.run k r hr).alike halike
    · -- nothing was granted of a run that had not begun
      have hnil : grantsOf k log = [] := by
        rw [List.eq_nil_iff_forall_not_mem]
        intro g hg
        obtain ⟨hmem, rfl⟩ := mem_grantsOf.mp hg
        exact h.known g hmem hnone
      rw [hnil]
      exact .of_fresh hfresh

theorem Told.grant {actor : Actor} {n : Node} {text : String} {target : Node} {r r' : Run} (h : s.Told log)
    (hgrants : s.Grants actor n text target r r') (asker : Option Node) :
    (s.modifyRun target.run fun _ => r').Told (log ++ [⟨asker, target, text⟩]) where
  known g hg := by
    have hrun : s.runs[g.target.run]? ≠ none := by
      rcases List.mem_append.mp hg with hg | hg
      · exact h.known g hg
      · rw [List.mem_singleton.mp hg, hgrants.run]
        exact Option.some_ne_none r
    rwa [modifyRun, Ne, Array.getElem?_eq_none_iff, Array.size_modify, ← Array.getElem?_eq_none_iff]
  run k r₁ hr₁ := by
    rw [modifyRun, Array.getElem?_modify] at hr₁
    rw [grantsOf_concat]
    split at hr₁
    · rename_i heq
      subst heq
      rw [hgrants.run, Option.map_some, Option.some.injEq] at hr₁
      subst hr₁
      rw [if_pos rfl, List.map_append]
      exact (h.run _ r hgrants.run).override hgrants.ref hgrants.override
    · rename_i hne
      rw [if_neg hne, List.append_nil]
      exact h.run k r₁ hr₁

end Session

namespace Moment

variable {adapters : Array Adapter} {c c' : Moment} {log : List Grant}

theorem Granted.told {g : Grant} (h : Granted c c' g) (htold : c.session.Told log) :
    c'.session.Told (log ++ [g]) := by
  cases h with
  | @turn v actor n text next cs s ms target r r' hgrants =>
    have htold' := htold.grant hgrants (some v.node)
    rw [Session.respond, hgrants.perform]
    exact htold'.unedited (Session.unedited_modifyRun _ v.work.run fun r => .of_arena rfl rfl)
  | outside hgrants =>
    rw [hgrants.perform]
    exact htold.grant hgrants none

/-- **Every run has come about by what the log has of it.** -/
theorem Logged.told (h : Logged adapters c log) : c.session.Told log := by
  induction h with
  | start => exact ⟨fun g hg => absurd hg List.not_mem_nil, fun k r hr => by simp [rest, Session.ofAdapters] at hr⟩
  | grant _ hgranted ih => exact hgranted.told ih
  | step _ _ hsame ih => exact ih.unedited hsame

end Moment

/-! ## The order of the log -/

def Mark.started? : Mark → Option Node
  | .started node => some node
  | .deferred _ | .completed .. => none

def startedOf (k : RunId) (ms : List Mark) : List Node :=
  (turnsOf k ms).filterMap Mark.started?

theorem startedOf_sublist {k : RunId} {ms ms' : List Mark} (h : ms <:+ ms') :
    (startedOf k ms).Sublist (startedOf k ms') := by
  obtain ⟨new, rfl⟩ := h
  simp [startedOf, turnsOf, marksOf]

theorem filterMap_started_turned (done : List Node) : (turned done).filterMap Mark.started? = done := by
  induction done with
  | nil => rfl
  | cons n done ih => exact congrArg (n :: ·) ih

theorem Work.At.startedOf {w : Work} {root : Tree} {past rest : List WalkStep} {here : Option Node} {po : Bool}
    {s : Session} {ms : List Mark} (h : w.At root past here rest po s ms) :
    startedOf w.run ms = visits past ++ here.toList := by
  rw [TreeEdit.startedOf, h.turns, List.filterMap_append, filterMap_started_turned]
  cases here <;> rfl

/-- Nodes of the run were overridden in their own turns only, and each just once. -/
structure OwnOnly (k : RunId) (log : List Grant) : Prop where
  own : ∀ g ∈ grantsOf k log, g.asker = some g.target
  once : ((grantsOf k log).map Grant.target).Nodup

theorem OwnOnly.of_concat {k : RunId} {log : List Grant} {g : Grant} (h : OwnOnly k (log ++ [g])) : OwnOnly k log := by
  have hsub : (grantsOf k log).Sublist (grantsOf k (log ++ [g])) := (List.sublist_append_left log [g]).filter _
  exact ⟨fun g' hg' => h.own g' (hsub.subset hg'), (hsub.map _).nodup h.once⟩

namespace Moment

variable {adapters : Array Adapter} {c c' : Moment} {log : List Grant} {k : RunId}

theorem marks_begin (job : Job) (m : Manipulator) (cs : List Caller) (s : Session) (ms : List Mark) :
    (begin job m cs s ms).marks = ms := by
  rw [begin]
  split
  · rfl
  · split <;> rfl

theorem marks_launch (job : Job) (m : Manipulator) (cs : List Caller) (s : Session) (ms : List Mark) :
    (launch job m cs s ms).marks = ms := by
  rw [launch]
  split
  · rfl
  · exact marks_begin job m cs s ms

theorem marks_resume (cs : List Caller) (s : Session) (ms : List Mark) (t : Task) : (resume cs s ms t).marks = ms := by
  cases t with
  | walking run node turn rest job m => rfl
  | parsing polls job m =>
    cases polls with
    | zero => exact marks_begin job m cs s ms
    | succ n => rfl

theorem Step.marks_suffix (hstep : Step c c') : c.marks <:+ c'.marks := by
  cases hstep with
  | visit | goOn | suspend | succeed | fail => exact List.suffix_cons _ _
  | start | launch => exact marks_launch _ _ _ _ _ ▸ List.suffix_rfl
  | again => exact marks_resume _ _ _ _ ▸ List.suffix_rfl
  | _ => exact List.suffix_rfl

theorem Granted.started {g : Grant} (hreach : Reachable adapters c) (h : Granted c c' g)
    (hown : g.asker = some g.target) :
    ∃ done, startedOf g.target.run c.marks = done ++ [g.target] ∧ c'.marks = c.marks := by
  cases h with
  | outside hgrants => cases hown
  | @turn v actor n text next cs s ms target r r' hgrants =>
    obtain rfl : v.node = target := Option.some.inj hown
    obtain ⟨⟨root, past, hat⟩, -, -⟩ := Inv.walking_iff.mp hreach.inv
    have hrun : v.node.run = v.work.run := hat.run_of_mem (.visit v.node) (by simp)
    exact ⟨visits past, hrun ▸ hat.startedOf, rfl⟩

/-- **Nodes that override themselves, and just once,** do so in the order of their turns. -/
theorem Logged.in_order (h : Logged adapters c log) (hown : OwnOnly k log) :
    ((grantsOf k log).map Grant.target).Sublist (startedOf k c.marks) := by
  induction h with
  | start => exact .slnil
  | step h hstep hsame ih => exact (ih hown).trans (startedOf_sublist hstep.marks_suffix)
  | @grant c c' log g h hgranted ih =>
    have hold := ih hown.of_concat
    by_cases hk : g.target.run = k
    · subst hk
      have hg : g ∈ grantsOf g.target.run (log ++ [g]) := mem_grantsOf.mpr ⟨by simp, rfl⟩
      obtain ⟨done, hstarted, hmarks⟩ := hgranted.started h.reachable (hown.own g hg)
      have honce := hown.once
      rw [grantsOf_concat, if_pos rfl, List.map_append] at honce ⊢
      rw [hmarks, hstarted]
      rw [hstarted] at hold
      -- it was not overridden before, so those that were had their turns before
      have hnew : g.target ∉ (grantsOf g.target.run log).map Grant.target :=
        fun hmem => (List.nodup_append.mp honce).2.2 _ hmem _ (List.mem_singleton.mpr rfl) rfl
      obtain ⟨old, last, heq, hsub, hlast⟩ := List.sublist_append_iff.mp hold
      have hnil : last = [] := by
        rw [List.eq_nil_iff_forall_not_mem]
        intro n hn
        obtain rfl := List.mem_singleton.mp (hlast.subset hn)
        exact hnew (heq ▸ List.mem_append_right old hn)
      rw [heq, hnil, List.append_nil]
      exact hsub.append (.refl _)
    · rw [grantsOf_concat, if_neg hk, List.append_nil]
      exact hold.trans (startedOf_sublist hgranted.step.marks_suffix)

end Moment

end TreeEdit
