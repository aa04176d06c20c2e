import TreeEdit.Proofs.Engine.Arena
import TreeEdit.Proofs.Engine.Deferral
import TreeEdit.Script.Turns

/-!
# The walk as a recursion

`Session.walk` takes steps that are laid out beforehand, so what is left of a walk is a list. Here the walk is the
recursion that such a list stands for: the children of a node are walked one after the other, and then the node has
its turn. When a turn is put off, so are all calls that wait for it, and what is put off is nested as they are
(`Deferred`). A poll goes inwards to the turn. Once that is over, the calls around it go on one by one; if one of
them is put off again, that is polled at once.

The two agree, at the start (`walkOn_plan`), at each poll (`pollTask_deferred`) and over any number of polls
(`pollTimes_deferred`). A call that goes on inside a poll first runs as if nobody polled it, and is polled only once
something in it is put off. That comes to the same as long as turns do not wait before they are put off
(`Turn.Prompt`), which those of scripts never do (`Script.manipulator_prompt`).
-/

namespace TreeEdit

/-! ## Nested walks -/

/-- What comes after a call. -/
inductive Next where
  /-- The walk of the later siblings, numbered from `id`. -/
  | siblings (id : Nat) (later : List Tree)
  | visit (parent : Node)

/-- A walk that is put off. -/
inductive Deferred where
  | turn (node : Node) (left : Turn)
  | andThen (call : Deferred) (next : Next)

inductive Walked where
  | immediate (result : Except TransformError Unit)
  | deferred (rest : Deferred)

namespace Walked

/-- Goes on after a call that went well. If it is put off, then so is what comes after it. -/
def andThen (next : Next) (go : Session → Walked × Session) : Walked × Session → Walked × Session
  | (.deferred d, s) => (.deferred (d.andThen next), s)
  | (.immediate (.error e), s) => (.immediate (.error e), s)
  | (.immediate (.ok ()), s) => go s

def ofTurn (node : Node) : TurnEnd × Session → Walked × Session
  | (.suspended left, s) => (.deferred (.turn node left), s)
  | (.finished result, s) => (.immediate result, s.endTurn node)

end Walked

section

variable (m : Manipulator) (run : RunId) (key : TreeKey)

def visitNode (node : Node) (s : Session) : Walked × Session :=
  Walked.ofTurn node ((m (s.transcript node.run) node).exec false (some run)
    (s.modifyRun node.run fun r => (r.advance node.id .running).record (.visited node)))

mutual

/-- Walks a tree whose root has the number `id`. -/
def walkTree (id : Nat) : Tree → Session → Walked × Session
  | ⟨kind, span, value, data, children⟩, s =>
    let node : Node := ⟨run, id, ⟨kind, span, value, data, children⟩, key⟩
    Walked.andThen (.visit node) (visitNode m run node)
      (walkChildren (id + 1) children (s.modifyRun run (·.advance id .traversingChildren)))

def walkChildren (id : Nat) : List Tree → Session → Walked × Session
  | [], s => (.immediate (.ok ()), s)
  | t :: ts, s =>
    Walked.andThen (.siblings (id + t.size) ts) (walkChildren (id + t.size) ts) (walkTree id t s)

end

def Next.go : Next → Session → Walked × Session
  | .siblings id later => walkChildren m run key id later
  | .visit parent => visitNode m run parent

end

/-! ## Polls -/

/-- Bounds the calls that are still to be made. -/
def Next.weight : Next → Nat
  | .siblings _ later => 2 * Tree.sizeList later
  | .visit _ => 0

def Deferred.weight : Deferred → Nat
  | .turn .. => 0
  | .andThen call next => call.weight + next.weight + 1

namespace Walked

/-- If something is put off, it weighs no more than `n`. -/
def Within (n : Nat) : Walked → Prop
  | .immediate _ => True
  | .deferred d => d.weight ≤ n

theorem Within.mono {w : Walked} {n k : Nat} (h : w.Within n) (hle : n ≤ k) : w.Within k := by
  cases w with
  | immediate result => trivial
  | deferred d => exact Nat.le_trans h hle

theorem Within.andThen {next : Next} {go : Session → Walked × Session} {n k : Nat} {p : Walked × Session}
    (h : p.1.Within n) (hle : n + next.weight + 1 ≤ k) (hgo : ∀ s, (go s).1.Within k) :
    (andThen next go p).1.Within k := by
  obtain ⟨w, s⟩ := p
  cases w with
  | deferred d =>
    have hd : d.weight ≤ n := h
    rw [Walked.andThen, Within, Deferred.weight]
    omega
  | immediate result =>
    cases result with
    | error e => trivial
    | ok u => exact hgo s

end Walked

section

variable (m : Manipulator) (run : RunId) (key : TreeKey)

theorem within_visitNode (node : Node) (s : Session) : (visitNode m run node s).1.Within 0 := by
  rw [visitNode]
  generalize (m (s.transcript node.run) node).exec false (some run) _ = ended
  obtain ⟨ended, s'⟩ := ended
  cases ended with
  | suspended left => exact Nat.le_refl 0
  | finished result => trivial

theorem within_walkTree :
    (∀ (t : Tree) id s, (walkTree m run key id t s).1.Within (2 * t.size - 1)) ∧
    ∀ (ts : List Tree) id s, (walkChildren m run key id ts s).1.Within (2 * Tree.sizeList ts) := by
  apply Tree.induct
  · intro kind span value data children ih id s
    rw [walkTree]
    refine (ih _ _).andThen ?_ fun s => (within_visitNode m run _ s).mono (Nat.zero_le _)
    rw [Next.weight, Tree.size]
    omega
  · intro id s
    rw [walkChildren]
    trivial
  · intro t ts iht ihts id s
    have hpos : 0 < t.size := by
      cases t
      rw [Tree.size]
      omega
    rw [walkChildren, Tree.sizeList]
    refine (iht id s).andThen ?_ fun s => (ihts _ s).mono (by omega)
    rw [Next.weight]
    omega

theorem within_go (next : Next) (s : Session) : (next.go m run key s).1.Within next.weight := by
  cases next with
  | siblings id later => exact (within_walkTree m run key).2 later id s
  | visit parent => exact within_visitNode m run parent s

def Deferred.poll : Deferred → Session → Walked × Session
  | .turn node left, s => Walked.ofTurn node (left.exec true (some run) s)
  | .andThen call next, s =>
    match call.poll s with
    | (.deferred call, s₁) => (.deferred (call.andThen next), s₁)
    | (.immediate (.error e), s₁) => (.immediate (.error e), s₁)
    | (.immediate (.ok ()), s₁) =>
      match _h : next.go m run key s₁ with
      | (.deferred d, s₂) => d.poll s₂
      | (.immediate result, s₂) => (.immediate result, s₂)
termination_by d => d.weight
decreasing_by
  · rw [Deferred.weight]
    omega
  · have hgo := within_go m run key next s₁
    rw [_h, Walked.Within] at hgo
    rw [Deferred.weight]
    omega

/-- What a call comes to that is waited for inside a poll. -/
def Walked.awaited : Walked × Session → Walked × Session
  | (.deferred d, s) => d.poll m run key s
  | (.immediate result, s) => (.immediate result, s)

theorem Deferred.poll_andThen (call : Deferred) (next : Next) (s : Session) :
    (call.andThen next).poll m run key s =
      Walked.andThen next (fun s => Walked.awaited m run key (next.go m run key s)) (call.poll m run key s) := by
  rw [Deferred.poll]
  generalize call.poll m run key s = polled
  obtain ⟨w, s₁⟩ := polled
  cases w with
  | deferred d => rfl
  | immediate result =>
    cases result with
    | error e => rfl
    | ok u =>
      simp only [Walked.andThen]
      split
      · rename_i d s₂ h
        rw [h, Walked.awaited]
      · rename_i result s₂ h
        rw [h, Walked.awaited]

end

/-! ## The list that a nested walk stands for -/

section

variable (run : RunId) (key : TreeKey)

def Next.stepsThen : Next → List WalkStep → List WalkStep
  | .siblings id later, rest => Tree.planListThen run key id later rest
  | .visit parent, rest => .visit parent :: rest

namespace Deferred

def node : Deferred → Node
  | .turn node _ => node
  | .andThen call _ => call.node

def left : Deferred → Turn
  | .turn _ left => left
  | .andThen call _ => call.left

/-- The steps after the turn that all calls wait for, in front of `rest`. -/
def stepsThen : Deferred → List WalkStep → List WalkStep
  | .turn .., rest => rest
  | .andThen call next, rest => call.stepsThen (next.stepsThen run key rest)

def ended (d : Deferred) (rest : List WalkStep) : WalkEnd :=
  .suspended d.node d.left (d.stepsThen run key rest)

end Deferred

end

section

variable (m : Manipulator) (run : RunId) (key : TreeKey)

/-- Goes on with steps after a walk that went well. -/
def Walked.onto (polled : Bool) (steps : List WalkStep) : Walked × Session → WalkEnd × Session
  | (.deferred d, s) => (d.ended run key steps, s)
  | (.immediate (.error e), s) => (.finished (.error e), s)
  | (.immediate (.ok ()), s) => s.walk (fun seen node => (m seen node).exec polled (some run)) steps

theorem Walked.onto_andThen {polled : Bool} (next : Next) {go : Session → Walked × Session} {rest : List WalkStep}
    (hgo : ∀ s, Session.walk (fun seen node => (m seen node).exec polled (some run)) (next.stepsThen run key rest) s =
      Walked.onto m run key polled rest (go s)) (p : Walked × Session) :
    Walked.onto m run key polled rest (Walked.andThen next go p) =
      Walked.onto m run key polled (next.stepsThen run key rest) p := by
  obtain ⟨w, s⟩ := p
  cases w with
  | deferred d => rfl
  | immediate result =>
    cases result with
    | error e => rfl
    | ok u => exact (hgo s).symm

theorem Walked.onto_ofTurn (polled : Bool) (node : Node) (rest : List WalkStep) (ended : TurnEnd × Session) :
    Walked.onto m run key polled rest (Walked.ofTurn node ended) =
      Session.afterTurn (fun seen node => (m seen node).exec polled (some run)) node rest ended := by
  obtain ⟨ended, s⟩ := ended
  cases ended with
  | suspended left => rfl
  | finished result => cases result <;> rfl

theorem walk_visitNode (node : Node) (rest : List WalkStep) (s : Session) :
    Session.walk (fun seen node => (m seen node).exec false (some run)) (.visit node :: rest) s =
      Walked.onto m run key false rest (visitNode m run node s) := by
  rw [Session.walk_visit, visitNode, Walked.onto_ofTurn]

/-- **The recursion at its start** does what the steps over its trees do. -/
theorem walk_planThen :
    (∀ (t : Tree) id rest s,
      Session.walk (fun seen node => (m seen node).exec false (some run)) (t.planThen run key id rest) s =
        Walked.onto m run key false rest (walkTree m run key id t s)) ∧
    ∀ (ts : List Tree) id rest s,
      Session.walk (fun seen node => (m seen node).exec false (some run)) (Tree.planListThen run key id ts rest) s =
        Walked.onto m run key false rest (walkChildren m run key id ts s) := by
  apply Tree.induct
  · intro kind span value data children ih id rest s
    rw [Tree.planThen, Session.walk, ih, walkTree]
    exact (Walked.onto_andThen m run key (.visit _) (walk_visitNode m run key _ rest) _).symm
  · intro id rest s
    rw [Tree.planListThen, walkChildren]
    rfl
  · intro t ts iht ihts id rest s
    rw [Tree.planListThen, iht, walkChildren]
    exact (Walked.onto_andThen m run key (.siblings _ ts) (ihts (id + t.size) rest) _).symm

theorem walk_next (next : Next) (rest : List WalkStep) (s : Session) :
    Session.walk (fun seen node => (m seen node).exec false (some run)) (next.stepsThen run key rest) s =
      Walked.onto m run key false rest (next.go m run key s) := by
  cases next with
  | siblings id later => exact (walk_planThen m run key).2 later id rest s
  | visit parent => exact walk_visitNode m run key parent rest s

end

/-! ## Turns that do not wait before they are put off -/

/-- Whatever the turn is answered, it does not wait as long as it is not put off. -/
def Turn.Prompt : Turn → Prop
  | .done _ => True
  | .call _ next => ∀ a, (next a).Prompt
  | .start _ _ next => ∀ started, (next started).Prompt
  | .defer _ => True
  | .wait .. => False
  | .never => False

/-- What a turn comes to when it is polled as soon as it is put off. -/
def TurnEnd.polled (run : RunId) : TurnEnd × Session → TurnEnd × Session
  | (.suspended rest, s) => rest.exec true (some run) s
  | (.finished result, s) => (.finished result, s)

theorem Turn.Prompt.exec_polled {turn : Turn} (h : turn.Prompt) (run : RunId) (s : Session) :
    turn.exec true (some run) s = TurnEnd.polled run (turn.exec false (some run) s) := by
  induction turn generalizing s with
  | done result => rfl
  | call q next ih => exact ih _ (h _) _
  | start job m next _ ih => exact ih _ (h _) _
  | defer next => rfl
  | wait polls next => exact absurd h id
  | never => exact absurd h id

def WalkEnd.polled (m : Manipulator) (run : RunId) : WalkEnd × Session → WalkEnd × Session
  | (.suspended node turn rest, s) =>
    Session.afterTurn (fun seen node => (m seen node).exec true (some run)) node rest (turn.exec true (some run) s)
  | (.finished result, s) => (.finished result, s)

section

variable {m : Manipulator} (hm : ∀ seen node, (m seen node).Prompt) (run : RunId) (key : TreeKey)

include hm

theorem walk_polled (steps : List WalkStep) (s : Session) :
    Session.walk (fun seen node => (m seen node).exec true (some run)) steps s =
      WalkEnd.polled m run (Session.walk (fun seen node => (m seen node).exec false (some run)) steps s) := by
  induction steps generalizing s with
  | nil => rfl
  | cons step rest ih =>
    cases step with
    | enter node => exact ih _
    | visit node =>
      rw [Session.walk_visit, Session.walk_visit, (hm _ node).exec_polled]
      generalize (m _ node).exec false (some run) _ = ended
      obtain ⟨ended, s'⟩ := ended
      cases ended with
      | suspended left => rfl
      | finished result =>
        cases result with
        | error e => rfl
        | ok u => exact ih _

theorem walk_awaited {steps rest : List WalkStep} {call : Session → Walked × Session} {s : Session}
    (hcall : Session.walk (fun seen node => (m seen node).exec false (some run)) steps s =
      Walked.onto m run key false rest (call s))
    (hpoll : ∀ d s', call s = (.deferred d, s') →
      WalkEnd.polled m run (d.ended run key rest, s') =
        Walked.onto m run key true rest (d.poll m run key s')) :
    Session.walk (fun seen node => (m seen node).exec true (some run)) steps s =
      Walked.onto m run key true rest (Walked.awaited m run key (call s)) := by
  rw [walk_polled hm, hcall]
  generalize call s = called at hpoll
  obtain ⟨w, s'⟩ := called
  cases w with
  | deferred d => exact hpoll d s' rfl
  | immediate result =>
    cases result with
    | error e => rfl
    | ok u => exact (walk_polled hm run rest s').symm

/-- **A poll of the recursion** does what a poll of the list does. The induction is on the calls that are still to be
made, since a call that goes on may be put off at once and is then polled too. -/
theorem Deferred.polled_steps (d : Deferred) (rest : List WalkStep) (s : Session) :
    WalkEnd.polled m run (d.ended run key rest, s) = Walked.onto m run key true rest (d.poll m run key s) := by
  induction hweight : d.weight using Nat.strongRecOn generalizing d rest s with
  | ind weight ih =>
    subst hweight
    cases d with
    | turn node left =>
      rw [Deferred.poll, Walked.onto_ofTurn]
      rfl
    | andThen call next =>
      have hcall := ih call.weight (by rw [Deferred.weight]; omega) call (next.stepsThen run key rest) s rfl
      rw [Deferred.poll_andThen, Walked.onto_andThen m run key next fun s' => ?_]
      · exact hcall
      · refine walk_awaited hm run key (walk_next m run key next rest s') fun d s₂ hd => ?_
        have hgo := within_go m run key next s'
        rw [hd, Walked.Within] at hgo
        exact ih d.weight (by rw [Deferred.weight]; omega) d rest s₂ rfl

end

/-! ## Jobs -/

section

variable (m : Manipulator) (run : RunId) (key : TreeKey) (job : Job)

def Deferred.task (d : Deferred) : Task :=
  .walking run d.node d.left (d.stepsThen run key []) job m

def Walked.settle : Walked × Session → Progression × Session
  | (.deferred d, s) => (.pending (d.task m run key job), s)
  | (.immediate walked, s) => (.finished (s.finish run job walked).1, (s.finish run job walked).2)

theorem Walked.afterWalk_onto (polled : Bool) (p : Walked × Session) :
    Session.afterWalk run job m (Walked.onto m run key polled [] p) = Walked.settle m run key job p := by
  obtain ⟨w, s⟩ := p
  cases w with
  | deferred d => rfl
  | immediate result => cases result <;> rfl

/-- Polls up to a number of times, and tells how many polls it took to come to an end. -/
def Deferred.pollTimes : Nat → Deferred → Session → Walked × Nat × Session
  | 0, d, s => (.deferred d, 0, s)
  | n + 1, d, s =>
    match d.poll m run key s with
    | (.immediate result, s) => (.immediate result, 1, s)
    | (.deferred d, s) =>
      let (w, k, s) := Deferred.pollTimes n d s
      (w, k + 1, s)

/-- **At its start, the walk over a tree is the recursion.** -/
theorem walkOn_plan (t : Tree) (s : Session) :
    s.walkOn (fun seen node => (m seen node).exec false (some run)) run job m (t.plan run key) =
      Walked.settle m run key job (walkTree m run key 0 t s) := by
  rw [Session.walkOn_eq, Tree.plan, (walk_planThen m run key).1, Walked.afterWalk_onto]

end

section

variable {m : Manipulator} (hm : ∀ seen node, (m seen node).Prompt) (run : RunId) (key : TreeKey) (job : Job)

include hm

theorem walkOn_plan_polled (t : Tree) (s : Session) :
    s.walkOn (fun seen node => (m seen node).exec true (some run)) run job m (t.plan run key) =
      Walked.settle m run key job (Walked.awaited m run key (walkTree m run key 0 t s)) := by
  rw [Session.walkOn_eq, Tree.plan, walk_awaited hm run key ((walk_planThen m run key).1 t 0 [] s) fun d s' _ =>
    d.polled_steps hm run key [] s', Walked.afterWalk_onto]

/-- **At each poll, what is left of the steps does what the nested calls do.** -/
theorem pollTask_deferred (d : Deferred) (s : Session) :
    s.pollTask (d.task m run key job) = Walked.settle m run key job (d.poll m run key s) := by
  rw [← Walked.afterWalk_onto m run key job true, ← d.polled_steps hm, Deferred.task, Session.pollTask_walking]
  rfl

/-- **So it is over any number of polls.** -/
theorem pollTimes_deferred (n : Nat) (d : Deferred) (s : Session) :
    s.pollTimes (d.task m run key job) n =
      let polled := Deferred.pollTimes m run key n d s
      let settled := Walked.settle m run key job (polled.1, polled.2.2)
      (settled.1, polled.2.1, settled.2) := by
  induction n generalizing d s with
  | zero => rfl
  | succ n ih =>
    rw [Session.pollTimes, pollTask_deferred hm, Deferred.pollTimes]
    generalize d.poll m run key s = polled
    obtain ⟨w, s'⟩ := polled
    cases w with
    | immediate result => rfl
    | deferred d => simp only [Walked.settle, ih]

end

/-! ## Scripts -/

namespace Script

variable {setting : Setting} {actor : Actor}

theorem note_prompt {next : Turn} (h : next.Prompt) (e : Entry) : (note e next).Prompt :=
  fun _ => h

theorem withActor_prompt {next : Option Actor → Turn} (h : ∀ found, (next found).Prompt) (via : Via) :
    (withActor setting via next).Prompt := by
  cases via with
  | own => exact h _
  | helpers name => exact fun saved => h _
  | binding id => exact h _

theorem withAnchor_prompt {next : Option Node → Turn} (h : ∀ found, (next found).Prompt) (anchor : Anchor) :
    (withAnchor setting actor anchor next).Prompt := by
  cases anchor with
  | self => cases actor <;> exact h _
  | here => exact h _
  | saved name => exact h

theorem withPath_prompt {next : Option Node → Turn} (h : ∀ found, (next found).Prompt) (path : List Step) (n : Node) :
    (withPath actor next path n).Prompt := by
  induction path generalizing n with
  | nil => exact h _
  | cons step path ih =>
    cases step with
    | parent | up =>
      intro found
      cases found with
      | none => exact h none
      | some n => exact ih n
    | child index =>
      intro (ns : List Node)
      simp only
      generalize ns[index]? = found
      cases found with
      | none => exact h none
      | some n => exact ih n

theorem withTarget_prompt {next : Option Node → Turn} (h : ∀ found, (next found).Prompt) (target : Target) :
    (withTarget setting actor target next).Prompt := by
  refine withAnchor_prompt (fun found => ?_) target.anchor
  cases found with
  | none => exact h none
  | some n => exact withPath_prompt h target.path n

theorem act_prompt {next : Reply → Turn} (h : ∀ reply, (next reply).Prompt) (n : Node) (verb : Verb) :
    (act setting actor n next verb).Prompt := by
  cases verb with
  | override new =>
    cases new with
    | text s => exact fun answer => h _
    | wrap before after =>
      intro answer
      cases answer with
      | error e => exact h _
      | ok s => exact fun answer => h _
  | eq other =>
    refine withTarget_prompt (fun found => ?_) other
    cases found <;> exact h _
  | saveHelpers name =>
    cases actor with
    | helpers bound => exact fun answer => h _
    | binding b => exact h _
  | node | debug => exact h _
  | _ => exact fun answer => h _

theorem describe_prompt {next : Reply → Turn} (h : ∀ reply, (next reply).Prompt) (binding : BindingId) :
    (describe binding next).Prompt := by
  intro name
  cases name with
  | none => exact h _
  | some name => exact fun counts => h _

theorem actionThen_prompt {next : Bool → Turn} (h : (next false).Prompt) (action : Action) :
    (actionThen setting false next action).Prompt := by
  cases action with
  | act verb target via attempt =>
    rw [actionThen]
    refine withActor_prompt (fun actor => ?_) via
    cases actor with
    | none => exact note_prompt h _
    | some actor =>
      refine withTarget_prompt (fun n => ?_) target
      cases n with
      | none => exact note_prompt h _
      | some n =>
        refine act_prompt (fun reply => note_prompt ?_ _) n verb
        split
        · trivial
        · exact h
  | fail e attempt =>
    rw [actionThen]
    refine note_prompt ?_ _
    split
    · exact h
    · trivial
  | start spec rules =>
    rw [actionThen]
    split
    · exact note_prompt h _
    · exact fun started => note_prompt h _
  | forget name =>
    rw [actionThen]
    exact fun answer => note_prompt h _
  | inFlight =>
    rw [actionThen]
    exact fun counts => note_prompt h _
  | describe binding =>
    rw [actionThen]
    exact describe_prompt (fun reply => note_prompt h _) _
  | defer polls =>
    rw [actionThen]
    split
    · exact fun _ => trivial
    · exact h

theorem actionsThen_prompt {next : Bool → Turn} (h : (next false).Prompt) (actions : List Action) :
    (actionsThen setting false next actions).Prompt := by
  induction actions with
  | nil =>
    rw [actionsThen]
    exact h
  | cons action rest ih =>
    rw [actionsThen]
    exact actionThen_prompt ih action

theorem rulesThen_prompt (node : Node) (before : Nat) (rules : List Rule) :
    (rulesThen setting node before false rules).Prompt := by
  induction rules with
  | nil =>
    rw [rulesThen]
    trivial
  | cons rule rest ih =>
    obtain ⟨condition, actions⟩ := rule
    rw [rulesThen]
    split
    · exact actionsThen_prompt ih actions
    · exact ih

/-- **The turns of a script** do not wait before they are put off. -/
theorem manipulator_prompt (setting : Setting) (rules : List Rule) (seen : Transcript) (node : Node) :
    (manipulator setting rules seen node).Prompt :=
  note_prompt (rulesThen_prompt node _ rules) _

end Script

end TreeEdit
