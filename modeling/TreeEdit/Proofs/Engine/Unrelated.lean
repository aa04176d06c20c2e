import TreeEdit.Proofs.Engine.Grants
import TreeEdit.Proofs.Engine.Settlement

/-!
# Overrides of unrelated nodes

Where the spans of a tree are in order, a node that has its turn later is above an earlier one or on its right
(`Tree.Ordered.pairwise`). So a node that overrides itself takes away the text of nodes below it, and of no others but
empty ones at its start: these have their text inserted there, and what it replaces has the insertion with it
(`Run.supersedes_editOf`). Apart from that, the texts of any two nodes are in the code, in their order
(`Moment.no_lost_update`).
-/

namespace TreeEdit

/-! ## Spans in order -/

namespace Tree

mutual

/-- The spans of children are inside that of their parent, and siblings are in order and do not overlap. Spans may be
empty. -/
def Ordered : Tree → Prop
  | ⟨_, span, _, _, children⟩ => span.start ≤ span.stop ∧ OrderedIn span.start span.stop children

/-- The trees are in order, and their spans follow each other between two offsets. -/
def OrderedIn (pos stop : Nat) : List Tree → Prop
  | [] => True
  | t :: ts => pos ≤ t.span.start ∧ t.span.stop ≤ stop ∧ t.Ordered ∧ OrderedIn t.span.stop stop ts

end

theorem Ordered.start_le_stop {t : Tree} (h : t.Ordered) : t.span.start ≤ t.span.stop := by
  cases t
  rw [Ordered] at h
  exact h.1

theorem Ordered.children {t : Tree} (h : t.Ordered) : OrderedIn t.span.start t.span.stop t.children := by
  cases t
  rw [Ordered] at h
  exact h.2

theorem OrderedIn.mono {pos pos' stop : Nat} {ts : List Tree} (h : OrderedIn pos stop ts) (hle : pos' ≤ pos) :
    OrderedIn pos' stop ts := by
  cases ts with
  | nil => trivial
  | cons t ts =>
    rw [OrderedIn] at h ⊢
    exact ⟨Nat.le_trans hle h.1, h.2⟩

variable {run : RunId} {key : TreeKey}

theorem ordered_of_mem_postorder :
    (∀ t : Tree, t.Ordered → ∀ id, ∀ n ∈ t.postorder run key id,
      t.span.start ≤ n.span.start ∧ n.span.stop ≤ t.span.stop ∧ n.span.start ≤ n.span.stop) ∧
    ∀ ts : List Tree, ∀ pos stop, OrderedIn pos stop ts → ∀ id, ∀ n ∈ postorderList run key id ts,
      pos ≤ n.span.start ∧ n.span.stop ≤ stop ∧ n.span.start ≤ n.span.stop := by
  apply induct
  · intro kind span value data children ih h id n hn
    rw [postorder, List.mem_append, List.mem_singleton] at hn
    rcases hn with hn | rfl
    · exact ih _ _ h.children _ n hn
    · exact ⟨Nat.le_refl _, Nat.le_refl _, h.start_le_stop⟩
  · intro pos stop h id n hn
    cases hn
  · intro t ts iht ihts pos stop h id n hn
    rw [OrderedIn] at h
    obtain ⟨hpos, hstop, ht, hts⟩ := h
    rw [postorderList, List.mem_append] at hn
    rcases hn with hn | hn
    · have := iht ht _ n hn
      omega
    · have hle := ht.start_le_stop
      exact ihts _ _ (hts.mono (by omega)) _ n hn

theorem pairwise_of_ordered :
    (∀ t : Tree, t.Ordered → ∀ id, (t.postorder run key id).Pairwise fun u v =>
      u ∈ v.below ∨ u.span.stop ≤ v.span.start) ∧
    ∀ ts : List Tree, ∀ pos stop, OrderedIn pos stop ts → ∀ id, (postorderList run key id ts).Pairwise fun u v =>
      u ∈ v.below ∨ u.span.stop ≤ v.span.start := by
  apply induct
  · intro kind span value data children ih h id
    rw [postorder, List.pairwise_append]
    refine ⟨ih _ _ h.children _, List.pairwise_singleton _ _, fun u hu v hv => ?_⟩
    rw [List.mem_singleton] at hv
    subst hv
    exact .inl hu
  · intro pos stop h id
    exact .nil
  · intro t ts iht ihts pos stop h id
    rw [OrderedIn] at h
    obtain ⟨-, -, ht, hts⟩ := h
    rw [postorderList, List.pairwise_append]
    refine ⟨iht ht _, ihts _ _ hts _, fun u hu v hv => .inr ?_⟩
    have hu := (ordered_of_mem_postorder.1 t ht _ u hu).2.1
    have hv := (ordered_of_mem_postorder.2 ts _ _ hts _ v hv).1
    exact Nat.le_trans hu hv

theorem Ordered.pairwise {t : Tree} (h : t.Ordered) :
    (t.postorder run key 0).Pairwise fun u v => u ∈ v.below ∨ u.span.stop ≤ v.span.start :=
  pairwise_of_ordered.1 t h 0

end Tree

/-! ## Edits of a node and of one on its right -/

namespace Run

theorem text_editOf (span : Span) (text : String) : (editOf span text).text = text.toList := by
  rw [editOf]
  split <;> rfl

theorem span_editOf {span : Span} (h : span.start ≤ span.stop) (text : String) : (editOf span text).span = span := by
  rw [editOf]
  split
  · rfl
  · have hstop : span.stop = span.start := by omega
    rw [Edit.span, Span.empty, ← hstop]
    cases span
    cases hstop
    rfl

theorem editOf_of_empty {span : Span} (h : span.stop ≤ span.start) : editOf span "" = .insert span.start [] := by
  rw [editOf, dif_neg (by omega)]
  rfl

/-- On the right of a node only an override of one that starts where an empty one is does away with its text. -/
theorem supersedes_editOf {a b : Span} {text text' : String} (ha : a.start ≤ a.stop) (hright : a.stop ≤ b.start)
    (h : (editOf b text').supersedes (editOf a text) = true) :
    a.stop = a.start ∧ b.start = a.start ∧ b.start < b.stop := by
  unfold editOf at h
  split at h
  · split at h
    · simp only [Edit.supersedes, Bool.and_eq_true, decide_eq_true_eq] at h
      omega
    · simp only [Edit.supersedes, Span.contains, Bool.and_eq_true, decide_eq_true_eq] at h
      omega
  · cases h

end Run

/-- Nothing is overridden that takes the text of an override away: no node above, and, if the text is inserted at an
empty node, none that starts there and is not empty. -/
structure Grant.Spared (log : List Grant) (g : Grant) : Prop where
  above : ∀ d ∈ grantsOf g.target.run log, g.target ∉ d.target.below
  beside : g.target.span.stop = g.target.span.start → g.text ≠ "" → ∀ d ∈ grantsOf g.target.run log,
    d.target.span.start = g.target.span.start → d.target.span.stop = d.target.span.start

theorem Grant.Spared.stands {log later : List Grant} {g : Grant} (h : g.Spared log)
    (hspan : g.target.span.start ≤ g.target.span.stop) (hlater : ∀ d ∈ later, d ∈ grantsOf g.target.run log)
    (hafter : ∀ d ∈ later, g.target ∈ d.target.below ∨ g.target.span.stop ≤ d.target.span.start) :
    g.edit.Stands (later.map Grant.edit) := by
  by_cases hnone : g.target.span.stop = g.target.span.start ∧ g.text = ""
  · refine .inl ⟨g.target.span.start, ?_⟩
    rw [Grant.edit, hnone.2, Run.editOf_of_empty (Nat.le_of_eq hnone.1)]
  · refine .inr fun e he => Bool.eq_false_iff.mpr fun hover => ?_
    obtain ⟨d, hd, rfl⟩ := List.mem_map.mp he
    have hright := (hafter d hd).resolve_left (h.above d (hlater d hd))
    obtain ⟨hempty, hstart, hlt⟩ := Run.supersedes_editOf hspan hright hover
    have hstop := h.beside hempty (fun htext => hnone ⟨hempty, htext⟩) d (hlater d hd) hstart
    omega

/-! ## Two overrides -/

theorem not_sublist_swap {α : Type} {l : List α} {a b : α} (h : l.Nodup) (hab : [a, b].Sublist l) :
    ¬ [b, a].Sublist l := by
  induction l with
  | nil => cases hab
  | cons x l ih =>
    obtain ⟨hx, hl⟩ := List.nodup_cons.mp h
    intro hba
    cases hab with
    | cons _ hab =>
      cases hba with
      | cons _ hba => exact ih hl hab hba
      | cons_cons _ ha => exact hx (hab.subset (by simp))
    | cons_cons _ hb =>
      cases hba with
      | cons _ hba => exact hx (hba.subset (by simp))
      | cons_cons _ ha => exact hx (hb.subset (by simp))

theorem exists_split_of_order {gs : List Grant} {nodes : List Node} {g₁ g₂ : Grant} (hnodes : nodes.Nodup)
    (hsub : (gs.map Grant.target).Sublist nodes) (hg₁ : g₁ ∈ gs) (hg₂ : g₂ ∈ gs)
    (horder : [g₁.target, g₂.target].Sublist nodes) :
    ∃ before between later, gs = before ++ g₁ :: (between ++ g₂ :: later) := by
  obtain ⟨before, after, rfl⟩ := List.append_of_mem hg₁
  rcases List.mem_append.mp hg₂ with hg₂ | hg₂
  · have hswap : [g₂, g₁].Sublist (before ++ g₁ :: after) :=
      (List.singleton_sublist.mpr hg₂).append (List.singleton_sublist.mpr List.mem_cons_self)
    exact absurd ((hswap.map Grant.target).trans hsub) (not_sublist_swap hnodes horder)
  · rcases List.mem_cons.mp hg₂ with rfl | hg₂
    · exact absurd horder (not_sublist_swap hnodes horder)
    · obtain ⟨between, later, rfl⟩ := List.append_of_mem hg₂
      exact ⟨before, between, later, rfl⟩

theorem Run.Made.pair {r : Run} {before between later : List Grant} {g₁ g₂ : Grant}
    (h : r.Made ((before ++ g₁ :: (between ++ g₂ :: later)).map Grant.edit))
    (h₁ : g₁.edit.Stands ((between ++ g₂ :: later).map Grant.edit)) (h₂ : g₂.edit.Stands (later.map Grant.edit))
    (hspans : g₁.edit.span.stop ≤ g₂.edit.span.start) :
    r.buffer.Keeps g₁.edit ∧ r.buffer.Keeps g₂.edit ∧
      ∃ x y z : String, String.ofList r.buffer.code = x ++ g₁.text ++ y ++ g₂.text ++ z := by
  have htracks := h.tracks
  simp only [List.map_append, List.map_cons] at htracks h₁
  refine ⟨htracks.keeps h₁, ?_, ?_⟩
  · rw [← List.cons_append, ← List.append_assoc] at htracks
    exact htracks.keeps h₂
  · obtain ⟨x, y, z, hcode⟩ := htracks.code_of_pair h.sound.buffer h₁ h₂ hspans
    refine ⟨.ofList x, .ofList y, .ofList z, ?_⟩
    rw [hcode, Grant.edit, Grant.edit, Run.text_editOf, Run.text_editOf]
    simp [String.append_assoc]

/-! ## Runs in which nodes override themselves -/

theorem Run.ref?_advance (r : Run) (id : Nat) (state : NodeState) : (r.advance id state).ref? = r.ref? := by
  funext j
  simp only [ref?, advance, Arena.get?_advance]
  split
  · rw [Option.map_map]
    rfl
  · rfl

theorem Run.ref?_own {r : Run} {n : Node} (h : r.ref? n.id = some n) : r.ref? n.id = some { n with run := r.id } := by
  obtain ⟨e, -, heq⟩ := Option.map_eq_some_iff.mp h
  rw [h, ← heq]

theorem Run.override_of_apply {r : Run} {n : Node} {text : String} {buffer : Buffer} (hn : r.ref? n.id = some n)
    (hstate : r.state? n.id = some .running) (hphase : r.phase = .inFlight)
    (hb : r.buffer.apply (editOf n.span text) = .ok buffer) : r.override n.id text = .ok { r with buffer } := by
  obtain ⟨e, he, hstate⟩ := Option.map_eq_some_iff.mp hstate
  obtain ⟨e', he', hn'⟩ := Option.map_eq_some_iff.mp hn
  obtain rfl : e = e' := Option.some.inj (he.symm.trans he')
  have hspan : e.tree.span = n.span := congrArg Node.span hn'
  simp [override, he, hstate, hphase, edit_eq_apply, hspan, hb, Except.map]

namespace Moment

section

variable {adapters : Array Adapter} {w : Work} {n : Node} {rest : List WalkStep} {nodes : Nat → Option Node}
  {b b' : Buffer} {log : List Grant} {text : String}

/-- The walk of a run has come to some steps, and its text to a buffer. -/
def Going (adapters : Array Adapter) (w : Work) (nodes : Nat → Option Node) (steps : List WalkStep) (b : Buffer)
    (log : List Grant) : Prop :=
  ∃ cs s ms r, Logged adapters ⟨.walk w steps, cs, s, ms⟩ log ∧ s.runs[w.run]? = some r ∧ r.held = true ∧
    r.ref? = nodes ∧ r.buffer = b

theorem Logged.quiet {c c' : Moment} (h : Logged adapters c log) (hstep : Step c c') (hnone : ∀ g, ¬ Granted c c' g) :
    Logged adapters c' log := by
  rcases h.next hstep with ⟨g, hg, -⟩ | hnext
  · exact absurd hg (hnone g)
  · exact hnext

theorem Logged.running {v : Visit} {turn : Turn} {cs : List Caller} {s : Session} {ms : List Mark} {r : Run}
    (h : Logged adapters ⟨.turn v turn, cs, s, ms⟩ log) (hr : s.runs[v.work.run]? = some r) :
    r.phase = .inFlight ∧ r.state? v.node.id = some .running := by
  obtain ⟨⟨root, past, hat⟩, -, -⟩ := Inv.walking_iff.mp h.reachable.inv
  have hstatus := hat.status
  rw [Session.status, hr, Option.map_some, Option.some.injEq] at hstatus
  exact ⟨congrArg Status.phase hstatus, (Arena.states_of_turn hat.plan (congrArg Status.arena hstatus)).1⟩

theorem Going.enter (h : Going adapters w nodes (.enter n :: rest) b log) (hn : n.run = w.run) :
    Going adapters w nodes rest b log := by
  obtain ⟨cs, s, ms, r, hlog, hr, hheld, hnodes, hb⟩ := h
  have hr' := Session.runs_modifyRun_of_some hn hr (·.advance n.id .traversingChildren)
  exact ⟨_, _, _, _, hlog.quiet .enter (fun g hg => by cases hg), hr', hheld, (r.ref?_advance _ _).trans hnodes, hb⟩

theorem Going.pass (h : Going adapters w nodes (.visit n :: rest) b log) (hn : n.run = w.run)
    (hturn : ∀ seen, w.manipulator seen n = .done (.ok ())) : Going adapters w nodes rest b log := by
  obtain ⟨cs, s, ms, r, hlog, hr, hheld, hnodes, hb⟩ := h
  have hvisit := hlog.quiet .visit (fun g hg => by cases hg)
  rw [hturn] at hvisit
  have hr₁ := Session.runs_modifyRun_of_some hn hr fun r => (r.advance n.id .running).record (.visited n)
  have hr₂ := Session.runs_modifyRun_of_some hn hr₁ (·.advance n.id .handled)
  refine ⟨_, _, _, _, hvisit.quiet .succeed (fun g hg => by cases hg), hr₂, hheld, ?_, hb⟩
  exact (Run.ref?_advance _ _ _).trans ((r.ref?_advance _ _).trans hnodes)

theorem Going.override (h : Going adapters w nodes (.visit n :: rest) b log) (hn : n.run = w.run)
    (hturn : ∀ seen, w.manipulator seen n = .call (.override (.helpers n) n text) fun _ => .done (.ok ()))
    (href : nodes n.id = some n) (happly : b.apply (Run.editOf n.span text) = .ok b') :
    Going adapters w nodes rest b' (log ++ [⟨some n, n, text⟩]) := by
  obtain ⟨cs, s, ms, r, hlog, hr, hheld, rfl, rfl⟩ := h
  have hvisit := hlog.quiet .visit (fun g hg => by cases hg)
  rw [hturn] at hvisit
  have hr₁ := Session.runs_modifyRun_of_some hn hr fun r => (r.advance n.id .running).record (.visited n)
  obtain ⟨hphase, hstate⟩ := hvisit.running hr₁
  have hnodes : (r.advance n.id .running).ref? = r.ref? := r.ref?_advance _ _
  have hr₂ := hr₁
  rw [← hn] at hr₂
  have href' : ((r.advance n.id .running).record (.visited n)).ref? n.id = some n := hnodes ▸ href
  have hgrants := Session.Grants.mk (Session.resolve_own hr₂ hheld) hr₂ (Run.ref?_own href')
    (Run.override_of_apply href' hstate hphase happly)
  have hgranted := hvisit.grant (.turn hgrants)
  rw [Session.respond, hgrants.perform] at hgranted
  have hr₃ := Session.runs_modifyRun_of_some hn hr₁ fun _ =>
    { (r.advance n.id .running).record (.visited n) with buffer := b' }
  have hr₄ := Session.runs_modifyRun_of_some rfl hr₃ (·.record (.answered (.override (.helpers n) n text) (.ok ())))
  have hr₅ := Session.runs_modifyRun_of_some hn hr₄ (·.advance n.id .handled)
  exact ⟨_, _, _, _, hgranted.quiet .succeed (fun g hg => by cases hg), hr₅, hheld,
    (Run.ref?_advance _ _ _).trans hnodes, rfl⟩

theorem Going.finish (h : Going adapters w nodes [] b log) :
    ∃ c report, Logged adapters c log ∧ c.focus = .back w.job w.manipulator (some w.run) (.finished (.ok report)) ∧
      report.code = String.ofList b.code := by
  obtain ⟨cs, s, ms, r, hlog, hr, -, -, rfl⟩ := h
  refine ⟨_, r.report w.job.lookups, hlog.quiet .finish (fun g hg => by cases hg), ?_, rfl⟩
  rw [settle, (Session.finish_of_run hr w.job (.ok ())).1]
  rfl

/-- A run over a root with two leaves, which override themselves. -/
theorem exists_two_overrides (code t₁ t₂ : String) (a b : Span) {b₁ b₂ : Buffer}
    (hvalid : ∀ span ∈ [⟨0, 1⟩, a, b], Arena.validSpan code.toList span = true)
    (h₁ : Buffer.apply { base := code.toList } (Run.editOf a t₁) = .ok b₁)
    (h₂ : b₁.apply (Run.editOf b t₂) = .ok b₂) :
    let adapter : Adapter := { name := "any", isNode := fun _ => true }
    let root : Tree :=
      { kind := "root", span := ⟨0, 1⟩, children := [{ kind := "leaf", span := a }, { kind := "leaf", span := b }] }
    let u : Node := ⟨0, 1, { kind := "leaf", span := a }, .ofRun 0⟩
    let v : Node := ⟨0, 2, { kind := "leaf", span := b }, .ofRun 0⟩
    ∃ c job m report, Logged #[adapter] c [⟨some u, u, t₁⟩, ⟨some v, v, t₂⟩] ∧
      c.focus = .back job m (some 0) (.finished (.ok report)) ∧ job.parsed = .ok root ∧
      job.nodes root 0 = [u, v, ⟨0, 0, root, .ofRun 0⟩] ∧ report.code = String.ofList b₂.code := by
  intro adapter root u v
  let job : Job :=
    { name := "job", binding := 0, code, parsePolls := none, parsed := .ok root, sharedTree := false,
      map := {}, lookups := [] }
  let m : Manipulator := fun _ node =>
    match node.id with
    | 0 => .done (.ok ())
    | 1 => .call (.override (.helpers node) node t₁) fun _ => .done (.ok ())
    | _ => .call (.override (.helpers node) node t₂) fun _ => .done (.ok ())
  have hvalid' : ∀ u ∈ root.preorder, Arena.validSpan job.code.toList u.span = true :=
    fun u hu => hvalid u.span (List.mem_map_of_mem hu)
  let top : Node := ⟨0, 0, root, .ofRun 0⟩
  let r : Run :=
    { id := 0, binding := 0, key := .ofRun 0, arena := .ofTree root, buffer := { base := code.toList }, map := {} }
  have hlaunch : Step _ _ :=
    Step.launch_walk m (.ofAdapters #[adapter]) [] (show job.parsePolls = none from rfl) rfl hvalid'
  have hstart : Going #[adapter] ⟨job, m, 0⟩ r.ref?
      [.enter top, .enter u, .visit u, .enter v, .visit v, .visit top] { base := code.toList } [] :=
    ⟨_, _, _, r, Logged.start.quiet hlaunch (fun g hg => by cases hg), rfl, rfl, rfl, rfl⟩
  have hfirst := hstart.enter rfl |>.enter rfl |>.override rfl (fun _ => rfl) rfl h₁
  have hsecond := hfirst.enter rfl |>.override rfl (fun _ => rfl) rfl h₂
  obtain ⟨c, report, hc, hback, hcode⟩ := (hsecond.pass rfl fun _ => rfl).finish
  exact ⟨c, job, m, report, hc, hback, rfl, rfl, hcode⟩

end

/-! ## Nothing is lost -/

variable {adapters : Array Adapter} {c : Moment} {log : List Grant} {k : RunId} {job : Job} {m : Manipulator}
  {report : Report} {root : Tree}

theorem Logged.completed (h : Logged adapters c log) (hback : c.focus = .back job m (some k) (.finished (.ok report)))
    (hparsed : job.parsed = .ok root) (hown : OwnOnly k log) :
    ∃ r, c.session.runs[k]? = some r ∧ report = r.report job.lookups ∧
      ((grantsOf k log).map Grant.target).Sublist (job.nodes root k) := by
  have hreturns := h.reachable.returns
  rw [Returns, hback] at hreturns
  obtain ⟨-, hsettled⟩ := hreturns
  cases hsettled with
  | @completed run root' r hparsed' hvalid hturns hr hphase hstores =>
    obtain rfl : root' = root := Except.ok.inj (hparsed'.symm.trans hparsed)
    refine ⟨r, hr, rfl, ?_⟩
    have hsub := h.in_order hown
    rwa [startedOf, hturns, filterMap_started_turned] at hsub

/-- **No lost update between unrelated nodes.** Let the spans of a tree be in order, and let its run come to a good end
in which nodes override themselves only, and just once. Then two overrides that are spared are both in the buffer, and
their texts are in the code, in the order of the turns of the two nodes. -/
theorem no_lost_update {g₁ g₂ : Grant} (h : Logged adapters c log)
    (hback : c.focus = .back job m (some k) (.finished (.ok report))) (hparsed : job.parsed = .ok root)
    (hroot : root.Ordered) (hown : OwnOnly k log) (hg₁ : g₁ ∈ log) (hg₂ : g₂ ∈ log)
    (horder : [g₁.target, g₂.target].Sublist (job.nodes root k)) (h₁ : g₁.Spared log) (h₂ : g₂.Spared log) :
    ∃ r, c.session.runs[k]? = some r ∧ r.buffer.Keeps g₁.edit ∧ r.buffer.Keeps g₂.edit ∧
      (∃ x y z : String, report.code = x ++ g₁.text ++ y ++ g₂.text ++ z) ∧ c.Agrees := by
  obtain ⟨r, hr, rfl, hsub⟩ := h.completed hback hparsed hown
  have hmem₁ : g₁.target ∈ job.nodes root k := horder.subset (by simp)
  have hmem₂ : g₂.target ∈ job.nodes root k := horder.subset (by simp)
  have hrun₁ : g₁.target.run = k := (Tree.run_of_mem_postorder.1 root 0 _ hmem₁).1
  have hrun₂ : g₂.target.run = k := (Tree.run_of_mem_postorder.1 root 0 _ hmem₂).1
  have hspan₁ := (Tree.ordered_of_mem_postorder.1 root hroot 0 _ hmem₁).2.2
  have hspan₂ := (Tree.ordered_of_mem_postorder.1 root hroot 0 _ hmem₂).2.2
  obtain ⟨before, between, later, hsplit⟩ := exists_split_of_order (Tree.nodup_postorder root 0) hsub
    (mem_grantsOf.mpr ⟨hg₁, hrun₁⟩) (mem_grantsOf.mpr ⟨hg₂, hrun₂⟩) horder
  -- whatever was granted later is of a node above, which is ruled out, or on the right
  have hpair := List.pairwise_map.mp (hroot.pairwise.sublist hsub)
  rw [hsplit, List.pairwise_append, List.pairwise_cons, List.pairwise_append, List.pairwise_cons] at hpair
  obtain ⟨-, ⟨hafter₁, -, ⟨hafter₂, -⟩, -⟩, -⟩ := hpair
  have hstands₁ : g₁.edit.Stands ((between ++ g₂ :: later).map Grant.edit) :=
    h₁.stands hspan₁ (fun d hd => by rw [hrun₁, hsplit]; exact List.mem_append_right _ (.tail _ hd)) hafter₁
  have hstands₂ : g₂.edit.Stands (later.map Grant.edit) :=
    h₂.stands hspan₂ (fun d hd => by rw [hrun₂, hsplit]; simp [hd]) hafter₂
  have hspans : g₁.edit.span.stop ≤ g₂.edit.span.start := by
    rw [Grant.edit, Grant.edit, Run.span_editOf hspan₁, Run.span_editOf hspan₂]
    exact (hafter₁ g₂ (by simp)).resolve_left (h₁.above g₂ (mem_grantsOf.mpr ⟨hg₂, hrun₂.trans hrun₁.symm⟩))
  have hmade := h.told.run k r hr
  rw [hsplit] at hmade
  obtain ⟨hkeeps₁, hkeeps₂, hcode⟩ := hmade.pair hstands₁ hstands₂ hspans
  exact ⟨r, hr, hkeeps₁, hkeeps₂, hcode, c.agrees⟩

/-- A text that overwrites all there is, and one that is inserted behind it. -/
theorem no_lost_update_at_edge :
    let adapter : Adapter := { name := "any", isNode := fun _ => true }
    let root : Tree :=
      { kind := "root", span := ⟨0, 1⟩,
        children := [{ kind := "leaf", span := ⟨0, 1⟩ }, { kind := "leaf", span := ⟨1, 1⟩ }] }
    let u : Node := ⟨0, 1, { kind := "leaf", span := ⟨0, 1⟩ }, .ofRun 0⟩
    let v : Node := ⟨0, 2, { kind := "leaf", span := ⟨1, 1⟩ }, .ofRun 0⟩
    let g₁ : Grant := ⟨some u, u, "X"⟩
    let g₂ : Grant := ⟨some v, v, "Y"⟩
    ∃ c job m report r, Logged #[adapter] c [g₁, g₂] ∧ c.focus = .back job m (some 0) (.finished (.ok report)) ∧
      job.parsed = .ok root ∧ root.Ordered ∧ OwnOnly 0 [g₁, g₂] ∧ g₁.Spared [g₁, g₂] ∧ g₂.Spared [g₁, g₂] ∧
      c.session.runs[0]? = some r ∧ r.buffer.Keeps g₁.edit ∧ r.buffer.Keeps g₂.edit ∧
      ∃ x y z : String, report.code = x ++ "X" ++ y ++ "Y" ++ z := by
  intro adapter root u v g₁ g₂
  obtain ⟨c, job, m, report, hc, hback, hparsed, hnodes, -⟩ :=
    exists_two_overrides "b" "X" "Y" ⟨0, 1⟩ ⟨1, 1⟩ (by decide) rfl rfl
  have hroot : root.Ordered := by simp [root, Tree.Ordered, Tree.OrderedIn]
  have hown : OwnOnly 0 [g₁, g₂] := ⟨by simp [grantsOf, g₁, g₂], by simp [grantsOf, g₁, g₂, u, v]⟩
  have h₁ : g₁.Spared [g₁, g₂] := by
    constructor <;> simp [grantsOf, Node.below, Tree.postorderList, g₁, g₂, u, v, Node.span]
  have h₂ : g₂.Spared [g₁, g₂] := by
    constructor <;> simp [grantsOf, Node.below, Tree.postorderList, g₁, g₂, u, v, Node.span]
  have horder : [g₁.target, g₂.target].Sublist (job.nodes root 0) :=
    hnodes ▸ List.sublist_append_left [u, v] _
  obtain ⟨r, hr, hkeeps₁, hkeeps₂, hcode, -⟩ :=
    no_lost_update hc hback hparsed hroot hown (.head _) (.tail _ (.head _)) horder h₁ h₂
  exact ⟨c, job, m, report, r, hc, hback, hparsed, hroot, hown, h₁, h₂, hr, hkeeps₁, hkeeps₂, hcode⟩

/-- An empty node and one that starts there override themselves, and the text of the first is lost. -/
theorem update_lost_at_start :
    let adapter : Adapter := { name := "any", isNode := fun _ => true }
    let root : Tree :=
      { kind := "root", span := ⟨0, 1⟩,
        children := [{ kind := "leaf", span := ⟨0, 0⟩ }, { kind := "leaf", span := ⟨0, 1⟩ }] }
    let u : Node := ⟨0, 1, { kind := "leaf", span := ⟨0, 0⟩ }, .ofRun 0⟩
    let v : Node := ⟨0, 2, { kind := "leaf", span := ⟨0, 1⟩ }, .ofRun 0⟩
    let g₁ : Grant := ⟨some u, u, "X"⟩
    let g₂ : Grant := ⟨some v, v, "Y"⟩
    ∃ c job m report, Logged #[adapter] c [g₁, g₂] ∧ c.focus = .back job m (some 0) (.finished (.ok report)) ∧
      job.parsed = .ok root ∧ root.Ordered ∧ OwnOnly 0 [g₁, g₂] ∧ [u, v].Sublist (job.nodes root 0) ∧
      u.span.stop ≤ v.span.start ∧ (∀ g ∈ [g₁, g₂], u ∉ g.target.below ∧ v ∉ g.target.below) ∧
      report.code = "Y" ∧ ¬ ∃ x y z : String, report.code = x ++ "X" ++ y ++ "Y" ++ z := by
  intro adapter root u v g₁ g₂
  obtain ⟨c, job, m, report, hc, hback, hparsed, hnodes, hcode⟩ :=
    exists_two_overrides "b" "X" "Y" ⟨0, 0⟩ ⟨0, 1⟩ (by decide) rfl rfl
  have hy : report.code = "Y" := hcode.trans (by decide +kernel)
  have hown : OwnOnly 0 [g₁, g₂] := ⟨by simp [grantsOf, g₁, g₂], by simp [grantsOf, g₁, g₂, u, v]⟩
  refine ⟨c, job, m, report, hc, hback, hparsed, by simp [root, Tree.Ordered, Tree.OrderedIn], hown,
    hnodes ▸ List.sublist_append_left [u, v] _, Nat.le_refl 0, ?_, hy, ?_⟩
  · simp [Node.below, Tree.postorderList, g₁, g₂, u, v]
  · rintro ⟨x, y, z, hxyz⟩
    have hlength := congrArg String.length (hy.symm.trans hxyz)
    have hx : "X".length = 1 := by decide
    simp only [String.length_append] at hlength
    omega

end Moment

end TreeEdit
