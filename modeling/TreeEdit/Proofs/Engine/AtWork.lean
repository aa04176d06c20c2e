import TreeEdit.Proofs.Engine.Posts
import TreeEdit.Proofs.Table

/-!
# Runs at work

A run is at work as long as its walk has not ended and its task has not been given up: then its job has a post. A
session does not know of posts. It keeps for each run whether it is in flight and whether somebody awaits its
result, and goes by that. At every moment of every history the two come to the same (`Reachable.atWork_iff`).
-/

namespace TreeEdit

/-! ## Awaited runs -/

namespace Session

variable {s s' : Session}

/-- The run is in flight, and somebody awaits its result. -/
def Awaited (s : Session) (k : RunId) : Prop :=
  ∃ r, s.runs[k]? = some r ∧ r.phase = .inFlight ∧ r.held = true

theorem awaited_of_runs (h : s'.runs = s.runs) (k : RunId) : s'.Awaited k ↔ s.Awaited k := by
  rw [Awaited, h, Awaited]

theorem awaited_modifyRun (s : Session) (run : RunId) (f : Run → Run) (k : RunId) :
    (s.modifyRun run f).Awaited k ↔
      if run = k then ∃ r, s.runs[k]? = some r ∧ (f r).phase = .inFlight ∧ (f r).held = true
      else s.Awaited k := by
  rw [Awaited, modifyRun, Array.getElem?_modify]
  split
  · simp [Option.map_eq_some_iff]
  · rfl

theorem awaited_keeping (s : Session) (run : RunId) {f : Run → Run}
    (hf : ∀ r, s.runs[run]? = some r → (f r).phase = r.phase ∧ (f r).held = r.held) (k : RunId) :
    (s.modifyRun run f).Awaited k ↔ s.Awaited k := by
  rw [awaited_modifyRun]
  split
  · rename_i heq
    subst heq
    refine exists_congr fun r => and_congr_right fun hr => ?_
    rw [(hf r hr).1, (hf r hr).2]
  · rfl

theorem awaited_ending (s : Session) (run : RunId) {f : Run → Run}
    (hf : ∀ r, (f r).phase ≠ .inFlight ∨ (f r).held = false) (k : RunId) :
    (s.modifyRun run f).Awaited k ↔ s.Awaited k ∧ run ≠ k := by
  rw [awaited_modifyRun]
  split
  · rename_i heq
    refine iff_of_false ?_ fun h => h.2 heq
    rintro ⟨r, -, hphase, hheld⟩
    rcases hf r with hf | hf
    · exact hf hphase
    · rw [hf] at hheld
      cases hheld
  · rename_i hne
    exact (and_iff_left hne).symm

theorem awaited_perform (s : Session) (q : Request) (k : RunId) : (s.perform q).2.Awaited k ↔ s.Awaited k := by
  cases q with
  | override actor n text =>
    rw [perform]
    split
    · rename_i s' h
      obtain ⟨run, id, r, r', -, hr, hover, rfl⟩ := override_eq_ok h
      refine awaited_keeping s run (fun r₁ hr₁ => ?_) k
      obtain rfl : r = r₁ := Option.some.inj (hr.symm.trans hr₁)
      obtain ⟨-, -, -, -, rfl⟩ := Run.override_eq_ok hover
      exact ⟨rfl, rfl⟩
    · rfl
  | _ => exact awaited_of_runs rfl k

theorem awaited_respond (s : Session) (run : RunId) (q : Request) (k : RunId) :
    (s.respond (some run) q).2.Awaited k ↔ s.Awaited k := by
  rw [← s.awaited_perform q k]
  exact (s.perform q).2.awaited_keeping run (f := (·.record (.answered q _))) (fun _ _ => ⟨rfl, rfl⟩) k

theorem awaited_addRun (s : Session) (job : Job) (arena : Arena) (k : RunId) :
    (s.addRun job arena).2.Awaited k ↔ k = s.runs.size ∨ s.Awaited k := by
  simp only [Awaited, addRun, modifyStore, Array.getElem?_push]
  split
  · rename_i heq
    exact iff_of_true ⟨_, rfl, rfl, rfl⟩ (.inl heq)
  · rename_i hne
    exact (or_iff_right hne).symm

theorem awaited_finish (s : Session) (run : RunId) (job : Job) (walked : Except TransformError Unit) (k : RunId) :
    (s.finish run job walked).2.Awaited k ↔ s.Awaited k ∧ run ≠ k := by
  rw [finish_session]
  refine awaited_ending _ run (fun r => .inl ?_) k
  cases walked <;> exact Phase.noConfusion

theorem awaited_release (s : Session) (t : Task) (k : RunId) :
    (s.release t).Awaited k ↔ s.Awaited k ∧ t.run? ≠ some k := by
  rw [release]
  split
  · rename_i hnone
    simp [hnone]
  · rename_i run hsome
    rw [awaited_ending s run (fun _ => .inr rfl), hsome, Ne, Ne, Option.some.injEq]

theorem tasks_finish (s : Session) (run : RunId) (job : Job) (walked : Except TransformError Unit) :
    (s.finish run job walked).2.tasks = s.tasks := by
  rw [finish_session]
  rfl

end Session

/-! ## Posts of runs at work -/

/-- The runs that are awaited are those with a post, and no two tasks have the same name. -/
structure Attended (ps : List Post) (s : Session) : Prop where
  awaited : ∀ k, s.Awaited k ↔ k ∈ ps.filterMap Post.run?
  names : (s.tasks.map Prod.fst).Nodup

namespace Attended

variable {p : Post} {ps ps' : List Post} {s s' : Session}

theorem same (h : Attended ps s) (hs : ∀ k, s'.Awaited k ↔ s.Awaited k)
    (hps : (ps'.filterMap Post.run?).Perm (ps.filterMap Post.run?)) (hnames : (s'.tasks.map Prod.fst).Nodup) :
    Attended ps' s' where
  awaited k := by rw [hs, h.awaited, hps.mem_iff]
  names := hnames

theorem lose (h : Attended ps' s) (hps : ps'.Perm (p :: ps)) (hapart : (ps'.filterMap Post.run?).Nodup)
    (hs : ∀ k, s'.Awaited k ↔ s.Awaited k ∧ p.run? ≠ some k) (hnames : (s'.tasks.map Prod.fst).Nodup) :
    Attended ps s' where
  names := hnames
  awaited k := by
    have hruns := hps.filterMap Post.run?
    rw [hs, h.awaited, hruns.mem_iff]
    cases hp : p.run? with
    | none => simp [List.filterMap_cons_none hp]
    | some run =>
      rw [List.filterMap_cons_some hp] at hruns ⊢
      have hnot : run ∉ ps.filterMap Post.run? := (List.nodup_cons.mp (hruns.nodup_iff.mp hapart)).1
      rw [List.mem_cons, Ne, Option.some.injEq]
      constructor
      · rintro ⟨rfl | hk, hne⟩
        · exact absurd rfl hne
        · exact hk
      · intro hk
        exact ⟨.inr hk, fun heq => hnot (heq ▸ hk)⟩

theorem addRun (h : Attended ps s) (job : Job) (arena : Arena) (m : Manipulator) (here : Option Node)
    (steps : List WalkStep) (po : Bool) :
    Attended (.walking ⟨job, m, s.runs.size⟩ here steps po :: ps) (s.addRun job arena).2 where
  awaited k := by
    rw [Session.awaited_addRun, h.awaited, ← List.mem_cons]
    rfl
  names := h.names

theorem perm_posts {name : String} {t : Task} (h : Attended ps s) (hlookup : s.tasks.lookup name = some t) :
    s.posts.Perm (t.post :: (eraseNamed name s.tasks).map (·.2.post)) := by
  have hperm := (perm_of_lookup h.names hlookup).map fun p : String × Task => p.2.post
  exact hperm

end Attended

namespace Moment

def Attended (c : Moment) : Prop :=
  TreeEdit.Attended c.posts c.session

section

variable {job : Job} {m : Manipulator} {cs : List Caller} {s : Session} {ms : List Mark}

theorem attended_begin (h : TreeEdit.Attended (callerPosts cs ++ s.posts) s) :
    (begin job m cs s ms).Attended := by
  rw [begin]
  split
  · exact h
  · split
    · exact h
    · exact h.addRun job _ m none _ _

theorem attended_launch (h : TreeEdit.Attended (callerPosts cs ++ s.posts) s) :
    (launch job m cs s ms).Attended := by
  rw [launch]
  split
  · exact ⟨h.awaited, h.names⟩
  · exact attended_begin h

theorem attended_settle {w : Work} {here : Option Node} {steps : List WalkStep} {po : Bool} {s' : Session}
    (h : TreeEdit.Attended (.walking w here steps po :: (callerPosts cs ++ s.posts)) s)
    (hapart : ((.walking w here steps po :: (callerPosts cs ++ s.posts)).filterMap Post.run?).Nodup)
    (hs : ∀ k, s'.Awaited k ↔ s.Awaited k) (htasks : s'.tasks = s.tasks)
    (walked : Except TransformError Unit) : (settle w walked cs s' ms).Attended := by
  have htasks' : (s'.finish w.run w.job walked).2.tasks = s.tasks := (s'.tasks_finish _ _ _).trans htasks
  have hended : TreeEdit.Attended (callerPosts cs ++ s.posts) (s'.finish w.run w.job walked).2 := by
    refine h.lose (.refl _) hapart (fun k => ?_) (htasks' ▸ h.names)
    rw [Session.awaited_finish, hs, Post.run?, Ne, Ne, Option.some.injEq]
  rw [← Session.posts_congr htasks'] at hended
  exact hended

theorem attended_keep {p : Progression} {ps : List Post} (name : String)
    (h : TreeEdit.Attended (p.posts ++ (ps ++ s.posts)) s)
    (hapart : ((p.posts ++ (ps ++ s.posts)).filterMap Post.run?).Nodup) :
    TreeEdit.Attended (ps ++ (s.keep name p).posts) (s.keep name p) := by
  cases p with
  | finished result => exact h
  | pending t =>
    have hnames : ((s.putTask name t).tasks.map Prod.fst).Nodup := by
      rw [(s.quiet_putTask name t).2]
      exact nodup_putNamed h.names name t
    have hposts : (s.putTask name t).posts = t.post :: (eraseNamed name s.tasks).map (·.2.post) := by
      rw [Session.posts, (s.quiet_putTask name t).2]
      rfl
    rw [Session.keep, hposts]
    cases hlookup : s.tasks.lookup name with
    | none =>
      refine h.same (fun k => ?_) ?_ hnames
      · rw [Session.putTask, hlookup]
        exact Session.awaited_of_runs rfl k
      · rw [eraseNamed_of_lookup_none hlookup]
        exact List.perm_middle.filterMap _
    | some old =>
      refine h.lose (p := old.post) ?_ hapart (fun k => ?_) hnames
      · -- the new task takes the place of the old one
        have hold : (ps ++ s.posts).Perm (old.post :: (ps ++ (eraseNamed name s.tasks).map (·.2.post))) :=
          ((h.perm_posts hlookup).append_left ps).trans List.perm_middle
        exact (hold.cons t.post).trans ((List.Perm.swap _ _ _).trans (List.perm_middle.symm.cons old.post))
      · rw [Session.putTask, hlookup, Session.awaited_release, old.run?_post]
        exact and_congr_left' (Session.awaited_of_runs rfl k)

theorem attended_drop (h : TreeEdit.Attended s.posts s) (hapart : (s.posts.filterMap Post.run?).Nodup)
    (name : String) : TreeEdit.Attended (s.drop name).2.posts (s.drop name).2 := by
  cases hlookup : s.tasks.lookup name with
  | none =>
    rw [Session.drop, Session.takeTask, hlookup]
    exact h
  | some t =>
    simp only [Session.drop, Session.takeTask, hlookup, Option.map_some]
    generalize hs : ({ s with tasks := eraseNamed name s.tasks } : Session) = taken
    have htasks : (taken.release t).tasks = eraseNamed name s.tasks := by
      rw [(taken.quiet_release t).2, ← hs]
    have hposts : (taken.release t).posts = (eraseNamed name s.tasks).map (·.2.post) := by
      rw [Session.posts, htasks]
    refine h.lose (p := t.post) ?_ hapart (fun k => ?_) ?_
    · rw [hposts]
      exact h.perm_posts hlookup
    · rw [taken.awaited_release, t.run?_post, ← hs]
      exact and_congr_left' (Session.awaited_of_runs rfl k)
    · rw [htasks]
      exact nodup_eraseNamed h.names name

end

theorem Attended.step {c c' : Moment} (h : c.Attended) (hinv : c.Inv) (hstep : Step c c') : c'.Attended := by
  cases hstep with
  | @enter w n rest cs s ms =>
    exact h.same (s.awaited_keeping n.run fun _ _ => ⟨rfl, rfl⟩) (.refl _) h.names
  | @visit w n rest cs s ms =>
    exact h.same (s.awaited_keeping n.run fun _ _ => ⟨rfl, rfl⟩) (.refl _) h.names
  | @finish w cs s ms => exact attended_settle h hinv.apart (fun _ => .rfl) rfl (.ok ())
  | @call v q next cs s ms =>
    have htasks := (s.quiet_respond v.work.run q).2
    refine h.same (s.awaited_respond v.work.run q) ?_ (htasks ▸ h.names)
    rw [posts, Session.posts_congr htasks]
    exact .refl _
  | start => exact attended_launch h
  | goOn => exact h
  | ready => exact h
  | suspend => exact ⟨h.awaited, h.names⟩
  | @succeed v cs s ms =>
    exact h.same (s.awaited_keeping v.node.run fun _ _ => ⟨rfl, rfl⟩) (.refl _) h.names
  | @fail v e cs s ms =>
    have hend : ∀ k, (s.endTurn v.node).Awaited k ↔ s.Awaited k :=
      s.awaited_keeping v.node.run fun _ _ => ⟨rfl, rfl⟩
    exact attended_settle h hinv.apart hend rfl (.error e)
  | @answer job m run p name v next cs s ms => exact attended_keep name h hinv.apart
  | @leave job m run p polling name s ms => exact attended_keep name h hinv.apart
  | @again job m run t name s ms =>
    cases t with
    | walking run node turn rest job m => exact ⟨h.awaited, h.names⟩
    | parsing polls job m =>
      cases polls with
      | zero => exact attended_begin ⟨h.awaited, h.names⟩
      | succ n => exact ⟨h.awaited, h.names⟩
  | launch => exact attended_launch h
  | @poll name t s s' ms htake =>
    obtain ⟨-, hlookup, htasks⟩ := Session.quiet_takeTask htake
    refine h.same (fun k => Session.awaited_of_runs ?_ k) ?_ ?_
    · obtain ⟨t', -, heq⟩ := Option.map_eq_some_iff.mp htake
      cases heq
      rfl
    · rw [posts, Session.posts, htasks]
      exact (h.perm_posts hlookup).symm.filterMap _
    · rw [htasks]
      exact nodup_eraseNamed h.names name
  | @drop name s ms => exact attended_drop h hinv.apart name
  | @act q s ms =>
    have htasks := (s.quiet_perform q).2
    refine h.same (s.awaited_perform q) ?_ (htasks ▸ h.names)
    rw [rest, posts, Session.posts_congr htasks]
    exact .refl _

theorem Reachable.attended {adapters : Array Adapter} {c : Moment} (h : Reachable adapters c) : c.Attended := by
  induction h with
  | refl => exact ⟨fun k => by simp [Session.Awaited, rest, Session.ofAdapters, posts, focusPosts, callerPosts,
      Session.posts], List.nodup_nil⟩
  | tail h hstep ih => exact ih.step (Reachable.inv h) hstep

/-- The walk of the run has not ended, and its job has not been given up. -/
def AtWork (c : Moment) (k : RunId) : Prop :=
  ∃ p ∈ c.posts, p.run? = some k

/-- **Runs at work** are those in flight whose result is awaited. -/
theorem Reachable.atWork_iff {adapters : Array Adapter} {c : Moment} (h : Reachable adapters c) (k : RunId) :
    c.AtWork k ↔ c.session.Awaited k := by
  rw [h.attended.awaited, List.mem_filterMap, AtWork]

end Moment

end TreeEdit
