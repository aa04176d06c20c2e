import Mathlib.Data.List.Perm.Subperm
import TreeEdit.Proofs.Engine.BottomUp
import TreeEdit.Proofs.Engine.Moment
import TreeEdit.Proofs.Engine.Status
import TreeEdit.Proofs.Engine.TurnStates

/-!
# Unfinished jobs

Each job that is not finished has a `Post` at every moment of a session: it is being carried out, waits in the
middle of a turn for a job that was started there, or is put off. `Post.Sound` says how things stand with it:
which steps of the walk are behind it, what that made of the nodes, which turns began and ended, and whether
something was put off.

No two posts share a run (`Inv.apart`), and what a job does changes its own run only. So every step keeps all
posts sound (`Moment.Inv.step`), and they are sound at every moment (`Moment.Reachable.inv`).
-/

namespace TreeEdit

/-! ## Marks -/

def Mark.isDeferral : Mark → Bool
  | .deferred _ => true
  | .started _ | .completed .. => false

def marksOf (run : RunId) (ms : List Mark) : List Mark :=
  ms.filter (·.node.run == run)

/-- The turns of a run as they began and ended, from the first. -/
def turnsOf (run : RunId) (ms : List Mark) : List Mark :=
  ((marksOf run ms).filter (!·.isDeferral)).reverse

/-- Has a turn of the run been put off? -/
def wasPutOff (run : RunId) (ms : List Mark) : Bool :=
  (marksOf run ms).any (·.isDeferral)

def turned (done : List Node) : List Mark :=
  done.flatMap fun u => [.started u, .completed u (.ok ())]

section

variable {run : RunId} {ms : List Mark}

theorem marksOf_append_of_ne {new : List Mark} (h : ∀ x ∈ new, x.node.run ≠ run) :
    marksOf run (new ++ ms) = marksOf run ms := by
  have hnew : new.filter (·.node.run == run) = [] := by
    rw [List.filter_eq_nil_iff]
    exact fun x hx => by simpa using h x hx
  rw [marksOf, List.filter_append, hnew, List.nil_append, marksOf]

theorem marksOf_cons (x : Mark) (h : x.node.run = run) : marksOf run (x :: ms) = x :: marksOf run ms :=
  List.filter_cons_of_pos (by simpa using h)

theorem turnsOf_cons (x : Mark) (h : x.node.run = run) (hx : x.isDeferral = false) :
    turnsOf run (x :: ms) = turnsOf run ms ++ [x] := by
  rw [turnsOf, marksOf_cons x h, List.filter_cons_of_pos (by simp [hx]), List.reverse_cons, turnsOf]

theorem turnsOf_deferral (x : Mark) (h : x.node.run = run) (hx : x.isDeferral = true) :
    turnsOf run (x :: ms) = turnsOf run ms := by
  rw [turnsOf, marksOf_cons x h, List.filter_cons_of_neg (by simp [hx]), turnsOf]

theorem wasPutOff_cons (x : Mark) (hx : x.isDeferral = false) :
    wasPutOff run (x :: ms) = wasPutOff run ms := by
  rw [wasPutOff, wasPutOff, marksOf, List.filter_cons]
  split
  · rw [List.any_cons, hx, Bool.false_or, marksOf]
  · rfl

theorem wasPutOff_deferred (v : Node) (h : v.run = run) : wasPutOff run (.deferred v :: ms) = true := by
  rw [wasPutOff, marksOf_cons (.deferred v) h]
  rfl

end

/-! ## Posts -/

/-- An unfinished job. -/
inductive Post where
  /-- Its parse is awaited. -/
  | parsing (job : Job)
  /-- Its walk is going on; it may be the turn of a node, and some turn may have been put off. -/
  | walking (work : Work) (here : Option Node) (steps : List WalkStep) (putOff : Bool)

def Post.run? : Post → Option RunId
  | .parsing _ => none
  | .walking w .. => some w.run

def Visit.post (v : Visit) (putOff : Bool) : Post :=
  .walking v.work (some v.node) v.rest putOff

def Task.post : Task → Post
  | .parsing _ job _ => .parsing job
  | .walking run node _ rest job m => .walking ⟨job, m, run⟩ (some node) rest true

theorem Task.run?_post (t : Task) : t.post.run? = t.run? := by
  cases t <;> rfl

def Progression.posts : Progression → List Post
  | .finished _ => []
  | .pending t => [t.post]

def Session.posts (s : Session) : List Post :=
  s.tasks.map (·.2.post)

namespace Moment

def focusPosts (cs : List Caller) : Focus → List Post
  | .idle => []
  | .walk w steps => [.walking w none steps (polled cs)]
  | .turn v _ => [v.post (polled cs)]
  | .back _ _ _ p => p.posts

def callerPosts : List Caller → List Post
  | [] => []
  | .outside .. :: cs => callerPosts cs
  | .turn _ v _ :: cs => v.post (polled cs) :: callerPosts cs

def posts (c : Moment) : List Post :=
  focusPosts c.callers c.focus ++ (callerPosts c.callers ++ c.session.posts)

end Moment

namespace Session

theorem posts_congr {s s' : Session} (h : s'.tasks = s.tasks) : s'.posts = s.posts := by
  rw [posts, h, posts]

theorem posts_putTask (s : Session) (name : String) (t : Task) :
    (s.putTask name t).posts.Subperm (t.post :: s.posts) := by
  rw [posts, (s.quiet_putTask name t).2]
  exact (List.Sublist.cons_cons _ (List.Sublist.map _ List.filter_sublist)).subperm

theorem quiet_keep (s : Session) (name : String) (p : Progression) : s.Quiet (s.keep name p) := by
  cases p with
  | finished result => exact .refl s
  | pending t => exact (s.quiet_putTask name t).1

theorem posts_keep (s : Session) (name : String) (p : Progression) :
    (s.keep name p).posts.Subperm (p.posts ++ s.posts) := by
  cases p with
  | finished result => exact .refl _
  | pending t => exact s.posts_putTask name t

theorem posts_takeTask {s s' : Session} {name : String} {t : Task}
    (h : s.takeTask name = some (t, s')) : (t.post :: s'.posts).Subperm s.posts := by
  obtain ⟨-, hlookup, htasks⟩ := quiet_takeTask h
  obtain ⟨front, back, heq, -⟩ := List.lookup_eq_some_iff.mp hlookup
  have hrest : eraseNamed name s.tasks = (front ++ back).filter (·.1 != name) := by
    simp [eraseNamed, heq]
  have hall : s.posts.Perm (t.post :: (front ++ back).map (·.2.post)) := by
    rw [posts, heq, List.map_append, List.map_append]
    exact List.perm_middle
  rw [posts, htasks, hrest]
  exact (List.Sublist.cons_cons _ (List.Sublist.map _ List.filter_sublist)).subperm.trans hall.symm.subperm

theorem posts_drop (s : Session) (name : String) : (s.drop name).2.posts.Subperm s.posts := by
  rcases (s.quiet_drop name).2 with h | h
  · rw [posts, h]
    exact .refl _
  · rw [posts, h]
    exact (List.Sublist.map _ List.filter_sublist).subperm

end Session

/-! ## How things stand with a job -/

def Job.steps (job : Job) (root : Tree) (run : RunId) : List WalkStep :=
  root.plan run (if job.sharedTree then .ofBinding job.binding else .ofRun run)

theorem Job.visits_steps (job : Job) (root : Tree) (run : RunId) :
    visits (job.steps root run) = job.nodes root run := by
  rw [steps, Tree.visits_plan, nodes]

/-- The nodes of a tree when some steps of the walk are over, and it is perhaps the turn of a node. -/
def Arena.amid (root : Tree) (past : List WalkStep) : Option Node → Arena
  | none => (ofTree root).after past
  | some v => ((ofTree root).after past).advance v.id .running

/-- How far the walk of a job has come. -/
structure Work.At (w : Work) (root : Tree) (past : List WalkStep) (here : Option Node)
    (steps : List WalkStep) (putOff : Bool) (s : Session) (ms : List Mark) : Prop where
  parsed : w.job.parsed = .ok root
  valid : ∀ u ∈ root.preorder, Arena.validSpan w.job.code.toList u.span = true
  plan : w.job.steps root w.run = past ++ (here.toList.map .visit ++ steps)
  status : s.status w.run = some ⟨Arena.amid root past here, w.job.binding, .inFlight⟩
  turns : turnsOf w.run ms = turned (visits past) ++ here.toList.map .started
  putOff : putOff = true ↔ w.job.parsePolls ≠ none ∨ wasPutOff w.run ms = true

namespace Work.At

variable {w : Work} {root : Tree} {past rest : List WalkStep} {here : Option Node} {n : Node} {po : Bool}
  {s s' : Session} {ms ms' : List Mark}

theorem frame (h : w.At root past here rest po s ms) (hstatus : s'.status w.run = s.status w.run)
    (hmarks : marksOf w.run ms' = marksOf w.run ms) : w.At root past here rest po s' ms' where
  parsed := h.parsed
  valid := h.valid
  plan := h.plan
  status := hstatus.trans h.status
  turns := by rw [turnsOf, hmarks, ← turnsOf, h.turns]
  putOff := by rw [wasPutOff, hmarks, ← wasPutOff, h.putOff]

theorem run_of_mem (h : w.At root past here rest po s ms) (step : WalkStep)
    (hstep : step ∈ here.toList.map .visit ++ rest) : step.node.run = w.run := by
  have hplan : step ∈ w.job.steps root w.run := by
    rw [h.plan]
    exact List.mem_append_right _ hstep
  exact Tree.run_of_mem_plan hplan

theorem enter (h : w.At root past none (.enter n :: rest) po s ms) :
    w.At root (past ++ [.enter n]) none rest po
      (s.modifyRun n.run (·.advance n.id .traversingChildren)) ms where
  parsed := h.parsed
  valid := h.valid
  plan := by rw [h.plan]; simp
  status := by
    have hrun : n.run = w.run := h.run_of_mem (.enter n) (by simp)
    rw [Session.status_advance s n.run (fun _ => rfl), if_pos hrun, h.status, Option.map_some,
      Arena.amid, Arena.amid, Arena.after_concat, Arena.take]
  turns := by rw [h.turns]; simp
  putOff := h.putOff

theorem visit (h : w.At root past none (.visit n :: rest) po s ms) :
    w.At root past (some n) rest po
      (s.modifyRun n.run fun r => (r.advance n.id .running).record (.visited n)) (.started n :: ms) :=
  have hrun : n.run = w.run := h.run_of_mem (.visit n) (by simp)
  { parsed := h.parsed
    valid := h.valid
    plan := by rw [h.plan]; simp
    status := by
      rw [Session.status_advance s n.run (f := fun r => (r.advance n.id .running).record (.visited n))
        (fun _ => rfl), if_pos hrun, h.status, Option.map_some, Arena.amid, Arena.amid]
    turns := by rw [turnsOf_cons (.started n) hrun rfl, h.turns]; simp
    putOff := by rw [wasPutOff_cons (.started n) rfl, h.putOff] }

theorem succeed (h : w.At root past (some n) rest po s ms) :
    w.At root (past ++ [.visit n]) none rest po (s.endTurn n) (.completed n (.ok ()) :: ms) :=
  have hrun : n.run = w.run := h.run_of_mem (.visit n) (by simp)
  { parsed := h.parsed
    valid := h.valid
    plan := by rw [h.plan]; simp
    status := by
      rw [Session.endTurn, Session.status_advance s n.run (fun _ => rfl), if_pos hrun, h.status,
        Option.map_some, Arena.amid, Arena.amid, Arena.after_concat, Arena.take]
    turns := by rw [turnsOf_cons (.completed n _) hrun rfl, h.turns]; simp [turned]
    putOff := by rw [wasPutOff_cons (.completed n _) rfl, h.putOff] }

theorem defer (h : w.At root past (some n) rest po s ms) :
    w.At root past (some n) rest true s (.deferred n :: ms) :=
  have hrun : n.run = w.run := h.run_of_mem (.visit n) (by simp)
  { h with
    turns := by rw [turnsOf_deferral (.deferred n) hrun rfl, h.turns]
    putOff := iff_of_true rfl (.inr (wasPutOff_deferred n hrun)) }

end Work.At

def Post.Sound (s : Session) (ms : List Mark) : Post → Prop
  | .parsing job => job.parsePolls ≠ none
  | .walking w here steps putOff => ∃ root past, w.At root past here steps putOff s ms

/-- How things stand with all unfinished jobs. -/
structure Inv (ps : List Post) (s : Session) (ms : List Mark) : Prop where
  sound : ∀ p ∈ ps, p.Sound s ms
  apart : (ps.filterMap Post.run?).Nodup
  known : ∀ x ∈ ms, s.status x.node.run ≠ none
  stores : s.StoresSound

namespace Inv

variable {p : Post} {ps ps' : List Post} {s s' : Session} {ms : List Mark} {w : Work} {here : Option Node}
  {steps : List WalkStep} {po : Bool}

theorem subperm (h : Inv ps s ms) (hps : ps'.Subperm ps) : Inv ps' s ms where
  sound p hp := h.sound p (hps.subset hp)
  apart := by
    obtain ⟨l, hperm, hsub⟩ := hps
    exact (hperm.filterMap _).nodup_iff.mp ((hsub.filterMap _).nodup h.apart)
  known := h.known
  stores := h.stores

theorem frame (h : Inv ps s ms) {k : RunId} (hk : k ∉ ps.filterMap Post.run?) (honly : s.Only k s')
    (hself : s'.status k ≠ none) (new : List Mark) (hnew : ∀ x ∈ new, x.node.run = k) :
    Inv ps s' (new ++ ms) where
  sound p hp := by
    cases p with
    | parsing job => exact h.sound _ hp
    | walking w here steps po =>
      obtain ⟨root, past, hat⟩ := h.sound _ hp
      have hne : w.run ≠ k := fun heq => hk (List.mem_filterMap.mpr ⟨_, hp, congrArg some heq⟩)
      refine ⟨root, past, hat.frame (honly.status _ hne) (marksOf_append_of_ne fun x hx => ?_)⟩
      rw [hnew x hx]
      exact hne.symm
  apart := h.apart
  known x hx := by
    by_cases heq : x.node.run = k
    · rw [heq]
      exact hself
    · rw [honly.status _ heq]
      rcases List.mem_append.mp hx with hx | hx
      · exact absurd (hnew x hx) heq
      · exact h.known x hx
  stores := honly.stores h.stores

theorem quiet (h : Inv ps s ms) (hquiet : s.Quiet s') : Inv ps s' ms where
  sound p hp := by
    cases p with
    | parsing job => exact h.sound _ hp
    | walking w here steps po =>
      obtain ⟨root, past, hat⟩ := h.sound _ hp
      exact ⟨root, past, hat.frame (hquiet.status w.run) rfl⟩
  apart := h.apart
  known x hx := by
    rw [hquiet.status]
    exact h.known x hx
  stores := h.stores.quiet hquiet

theorem walking_iff : Inv (.walking w here steps po :: ps) s ms ↔
    (∃ root past, w.At root past here steps po s ms) ∧ w.run ∉ ps.filterMap Post.run? ∧ Inv ps s ms := by
  constructor
  · intro h
    have hruns : (w.run :: ps.filterMap Post.run?).Nodup := h.apart
    rw [List.nodup_cons] at hruns
    exact ⟨h.sound _ List.mem_cons_self, hruns.1, fun p hp => h.sound p (List.mem_cons_of_mem _ hp),
      hruns.2, h.known, h.stores⟩
  · rintro ⟨hat, hrun, h⟩
    refine ⟨fun p hp => ?_, List.nodup_cons.mpr ⟨hrun, h.apart⟩, h.known, h.stores⟩
    rcases List.mem_cons.mp hp with rfl | hp
    · exact hat
    · exact h.sound p hp

theorem parsing_iff {job : Job} : Inv (.parsing job :: ps) s ms ↔ job.parsePolls ≠ none ∧ Inv ps s ms := by
  constructor
  · intro h
    exact ⟨h.sound _ List.mem_cons_self, fun p hp => h.sound p (List.mem_cons_of_mem _ hp), h.apart, h.known,
      h.stores⟩
  · rintro ⟨hjob, h⟩
    refine ⟨fun p hp => ?_, h.apart, h.known, h.stores⟩
    rcases List.mem_cons.mp hp with rfl | hp
    · exact hjob
    · exact h.sound p hp

theorem renew (h : Inv (.walking w here steps po :: ps) s ms) (honly : s.Only w.run s') (new : List Mark)
    (hnew : ∀ x ∈ new, x.node.run = w.run) {here' : Option Node} {steps' : List WalkStep} {po' : Bool}
    {root : Tree} {past : List WalkStep} (hat : w.At root past here' steps' po' s' (new ++ ms)) :
    Inv (.walking w here' steps' po' :: ps) s' (new ++ ms) := by
  obtain ⟨-, hrun, hrest⟩ := walking_iff.mp h
  have hself : s'.status w.run ≠ none := by
    rw [hat.status]
    exact Option.some_ne_none _
  exact walking_iff.mpr ⟨⟨root, past, hat⟩, hrun, hrest.frame hrun honly hself new hnew⟩

theorem settle (h : Inv (.walking w here steps po :: ps) s ms) (honly : s.Only w.run s') {st : Status}
    (hst : s'.status w.run = some st) (hbinding : st.binding = w.job.binding) (new : List Mark)
    (hnew : ∀ x ∈ new, x.node.run = w.run) (walked : Except TransformError Unit) :
    Inv ps (s'.finish w.run w.job walked).2 (new ++ ms) := by
  obtain ⟨-, hrun, hrest⟩ := walking_iff.mp h
  refine hrest.frame hrun (honly.trans (Session.only_finish hst hbinding walked)) ?_ new hnew
  rw [Session.status_finish, if_pos rfl, hst]
  exact Option.some_ne_none _

theorem addRun (h : Inv ps s ms) {job : Job} (m : Manipulator) {root : Tree} (hparsed : job.parsed = .ok root)
    (hvalid : ∀ u ∈ root.preorder, Arena.validSpan job.code.toList u.span = true)
    (hpo : po = true ↔ job.parsePolls ≠ none) :
    Inv (.walking ⟨job, m, s.runs.size⟩ none (job.steps root s.runs.size) po :: ps)
      (s.addRun job (.ofTree root)).2 ms := by
  have hmarks : marksOf s.runs.size ms = [] := by
    rw [marksOf, List.filter_eq_nil_iff]
    intro x hx heq
    refine h.known x hx ?_
    rw [beq_iff_eq.mp heq, s.status_size]
  -- a walk has a run with a status, and there is none under the next number
  have hrun : s.runs.size ∉ ps.filterMap Post.run? := by
    intro hmem
    obtain ⟨p, hp, heq⟩ := List.mem_filterMap.mp hmem
    cases p with
    | parsing job => cases heq
    | walking w here steps po =>
      obtain ⟨root, past, hat⟩ := h.sound _ hp
      have hnone := hat.status
      rw [show w.run = s.runs.size from Option.some.inj heq, s.status_size] at hnone
      cases hnone
  have hself : (s.addRun job (.ofTree root)).2.status s.runs.size =
      some ⟨.ofTree root, job.binding, .inFlight⟩ := by
    rw [Session.status_addRun, if_pos rfl]
  refine walking_iff.mpr ⟨⟨root, [], ?_⟩, hrun, ?_⟩
  · exact {
      parsed := hparsed
      valid := hvalid
      plan := rfl
      status := hself
      turns := by rw [turnsOf, hmarks]; rfl
      putOff := by rw [hpo, wasPutOff, hmarks]; simp }
  · refine h.frame hrun (s.only_addRun job _) ?_ [] (by simp)
    rw [hself]
    exact Option.some_ne_none _

end Inv

/-! ## Every moment -/

namespace Moment

def Inv (c : Moment) : Prop :=
  TreeEdit.Inv c.posts c.session c.marks

variable {job : Job} {m : Manipulator} {cs : List Caller} {s : Session} {ms : List Mark}

theorem begin_eq_walk {root : Tree} (hparsed : job.parsed = .ok root)
    (hvalid : ∀ u ∈ root.preorder, Arena.validSpan job.code.toList u.span = true) :
    begin job m cs s ms = ⟨.walk ⟨job, m, s.runs.size⟩ (job.steps root s.runs.size), cs,
      (s.addRun job (.ofTree root)).2, ms⟩ := by
  have hreg : Arena.register job.code.toList root = .ok (.ofTree root) :=
    Arena.register_eq_ok_iff.mpr ⟨rfl, hvalid⟩
  simp only [begin, hparsed, hreg]
  rfl

theorem Step.launch_walk (m : Manipulator) (s : Session) (ms : List Mark) {root : Tree}
    (hpolls : job.parsePolls = none) (hparsed : job.parsed = .ok root)
    (hvalid : ∀ u ∈ root.preorder, Arena.validSpan job.code.toList u.span = true) :
    Step (.rest s ms) ⟨.walk ⟨job, m, s.runs.size⟩ (job.steps root s.runs.size), [.outside false job.name],
      (s.addRun job (.ofTree root)).2, ms⟩ := by
  have h : Step (.rest s ms) (Moment.launch job m [.outside false job.name] s ms) := .launch
  simp only [Moment.launch, hpolls, begin_eq_walk hparsed hvalid] at h
  exact h

theorem inv_begin (h : TreeEdit.Inv (callerPosts cs ++ s.posts) s ms)
    (hpolled : polled cs = true ↔ job.parsePolls ≠ none) : (begin job m cs s ms).Inv := by
  cases hparsed : job.parsed with
  | error e =>
    simp only [begin, hparsed]
    exact h
  | ok root =>
    cases hreg : Arena.register job.code.toList root with
    | error e =>
      simp only [begin, hparsed, hreg]
      exact h
    | ok arena =>
      obtain ⟨rfl, hvalid⟩ := Arena.register_eq_ok_iff.mp hreg
      rw [begin_eq_walk hparsed hvalid]
      exact h.addRun m hparsed hvalid hpolled

theorem inv_launch (h : TreeEdit.Inv (callerPosts cs ++ s.posts) s ms) (hcs : polled cs = false) :
    (launch job m cs s ms).Inv := by
  cases hpolls : job.parsePolls with
  | some polls =>
    simp only [launch, hpolls]
    refine Inv.parsing_iff.mpr ⟨?_, h⟩
    simp [hpolls]
  | none =>
    simp only [launch, hpolls]
    exact inv_begin h (by simp [hcs, hpolls])

theorem inv_resume {name : String} {t : Task} (h : TreeEdit.Inv (t.post :: s.posts) s ms) :
    (resume [.outside true name] s ms t).Inv := by
  cases t with
  | walking run node turn rest job m => exact h
  | parsing polls job m =>
    obtain ⟨hjob, hrest⟩ := Inv.parsing_iff.mp h
    cases polls with
    | succ n => exact h
    | zero => exact inv_begin hrest (iff_of_true rfl hjob)

theorem inv_settle {s' : Session} {w : Work} {here : Option Node} {steps : List WalkStep} {po : Bool}
    (h : TreeEdit.Inv (.walking w here steps po :: (callerPosts cs ++ s.posts)) s ms)
    (honly : s.Only w.run s') {st : Status} (hst : s'.status w.run = some st)
    (hbinding : st.binding = w.job.binding) (new : List Mark) (hnew : ∀ x ∈ new, x.node.run = w.run)
    (walked : Except TransformError Unit) : (settle w walked cs s' (new ++ ms)).Inv := by
  -- no task is added or taken away when a run ends
  have hposts : (s'.finish w.run w.job walked).2.posts = s.posts :=
    Session.posts_congr ((Session.only_finish hst hbinding walked).tasks.trans honly.tasks)
  have hinv := h.settle honly hst hbinding new hnew walked
  rw [← hposts] at hinv
  exact hinv

theorem inv_keep {p : Progression} {ps : List Post} (name : String)
    (h : TreeEdit.Inv (p.posts ++ (ps ++ s.posts)) s ms) :
    TreeEdit.Inv (ps ++ (s.keep name p).posts) (s.keep name p) ms := by
  refine (h.subperm ?_).quiet (s.quiet_keep name p)
  have hkeep := (List.subperm_append_left ps).mpr (s.posts_keep name p)
  exact hkeep.trans (List.perm_append_comm_assoc ps p.posts s.posts).subperm

theorem Inv.step {c c' : Moment} (h : c.Inv) (hstep : Step c c') : c'.Inv := by
  -- steps of a walk renew its post, which is the first; the others are of other runs
  cases hstep with
  | @enter w n rest cs s ms =>
    obtain ⟨⟨root, past, hat⟩, -, -⟩ := Inv.walking_iff.mp h
    have hrun : n.run = w.run := hat.run_of_mem (.enter n) (by simp)
    have honly := s.only_advance n.run (·.advance n.id .traversingChildren) fun _ => rfl
    exact h.renew (hrun ▸ honly) [] (by simp) hat.enter
  | @visit w n rest cs s ms =>
    obtain ⟨⟨root, past, hat⟩, -, -⟩ := Inv.walking_iff.mp h
    have hrun : n.run = w.run := hat.run_of_mem (.visit n) (by simp)
    have honly := s.only_advance n.run (fun r => (r.advance n.id .running).record (.visited n)) fun _ => rfl
    exact h.renew (hrun ▸ honly) [.started n] (by simpa) hat.visit
  | @finish w cs s ms =>
    obtain ⟨⟨root, past, hat⟩, -, -⟩ := Inv.walking_iff.mp h
    exact inv_settle h (.refl _ _) hat.status rfl [] (by simp) (.ok ())
  | @call v q next cs s ms =>
    obtain ⟨hquiet, htasks⟩ := s.quiet_respond v.work.run q
    rw [Moment.Inv, posts, Session.posts_congr htasks]
    exact h.quiet hquiet
  | start => exact inv_launch h rfl
  | @goOn v next cs s ms hpolled =>
    obtain ⟨⟨root, past, hat⟩, -, -⟩ := Inv.walking_iff.mp h
    have hrun : v.node.run = v.work.run := hat.run_of_mem (.visit v.node) (by simp)
    have hinv := h.renew (.refl _ _) [.deferred v.node] (by simpa) hat.defer
    rw [← hpolled] at hinv
    exact hinv
  | ready => exact h
  | @suspend v turn left cs s ms hput =>
    obtain ⟨⟨root, past, hat⟩, -, -⟩ := Inv.walking_iff.mp h
    have hrun : v.node.run = v.work.run := hat.run_of_mem (.visit v.node) (by simp)
    exact h.renew (.refl _ _) [.deferred v.node] (by simpa) hat.defer
  | @succeed v cs s ms =>
    obtain ⟨⟨root, past, hat⟩, -, -⟩ := Inv.walking_iff.mp h
    have hrun : v.node.run = v.work.run := hat.run_of_mem (.visit v.node) (by simp)
    have honly := s.only_advance v.node.run (·.advance v.node.id .handled) fun _ => rfl
    exact h.renew (hrun ▸ honly) [.completed v.node (.ok ())] (by simpa) hat.succeed
  | @fail v e cs s ms =>
    obtain ⟨⟨root, past, hat⟩, -, -⟩ := Inv.walking_iff.mp h
    have hrun : v.node.run = v.work.run := hat.run_of_mem (.visit v.node) (by simp)
    have honly := s.only_advance v.node.run (·.advance v.node.id .handled) fun _ => rfl
    exact inv_settle h (hrun ▸ honly) hat.succeed.status rfl [.completed v.node (.error e)] (by simpa) (.error e)
  | @answer job m run p name v next cs s ms => exact inv_keep name h
  | @leave job m run p polling name s ms => exact inv_keep name h
  | again => exact inv_resume h
  | launch => exact inv_launch h rfl
  | @poll name t s s' ms htake =>
    exact (h.subperm (Session.posts_takeTask htake)).quiet (Session.quiet_takeTask htake).1
  | @drop name s ms => exact (h.subperm (s.posts_drop name)).quiet (s.quiet_drop name).1
  | @act q s ms =>
    obtain ⟨hquiet, htasks⟩ := s.quiet_perform q
    rw [rest, Moment.Inv, posts, Session.posts_congr htasks]
    exact h.quiet hquiet

theorem Inv.leads {c c' : Moment} (h : c.Inv) (hleads : Leads c c') : c'.Inv := by
  induction hleads with
  | refl => exact h
  | tail _ hstep ih => exact ih.step hstep

/-- **At every moment of every history** all posts are sound. -/
theorem Reachable.inv {adapters : Array Adapter} {c : Moment} (h : Reachable adapters c) : c.Inv := by
  refine Inv.leads ?_ h
  refine ⟨fun p hp => (nomatch hp), List.nodup_nil, fun x hx => (nomatch hx), fun b binding hb k hk => ?_⟩
  rw [rest, Session.ofAdapters, Array.getElem?_map] at hb
  obtain ⟨a, -, rfl⟩ := Option.map_eq_some_iff.mp hb
  cases hk

end Moment

end TreeEdit
