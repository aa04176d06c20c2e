import TreeEdit.Proofs.Engine.RunBuffer
import TreeEdit.Proofs.Engine.Rewriting

/-!
# A run from turn to turn

A manipulator that in the turn of a node does no more than read and override that node
(`Turn.OwnNodeOnly`) takes its run through states of two kinds: `Run.AfterTurns`, between the turns, and
`Run.InTurn`, within one. A turn begins in the one and ends in it (`AfterTurns.visit`, `InTurn.endTurn`);
within a turn every request is granted (`InTurn.source`, `InTurn.override`). What the run has seen stays
true to the rewriting of the tree all along (`Faithful`).
-/

namespace TreeEdit

/-! ## Turns and what they have seen -/

namespace Turn

/-- All that the turn does is to read and to override its node, as often as it likes. -/
def OwnNodeOnly (node : Node) : Turn → Prop
  | .done _ => True
  | .call q next =>
    (q = .source (.helpers node) node ∨ ∃ text, q = .override (.helpers node) node text) ∧
      ∀ a, (next a).OwnNodeOnly node
  | .start .. => False
  | .defer next => next.OwnNodeOnly node
  | .wait _ next => next.OwnNodeOnly node
  | .never => True

/-- With these answers, first to last, the turn comes to the result. -/
inductive Gives : Turn → List Event → Except TransformError Unit → Prop
  | done (result : Except TransformError Unit) : Gives (.done result) [] result
  | call {q : Request} {next : q.Answer → Turn} {a : q.Answer} {answers : List Event}
      {result : Except TransformError Unit} (h : Gives (next a) answers result) :
      Gives (.call q next) (.answered q a :: answers) result
  | defer {next : Turn} {answers : List Event} {result : Except TransformError Unit}
      (h : Gives next answers result) : Gives (.defer next) answers result
  | wait {polls : Nat} {next : Turn} {answers : List Event} {result : Except TransformError Unit}
      (h : Gives next answers result) : Gives (.wait polls next) answers result

end Turn

def Event.override? (id : Nat) : Event → Option String
  | .answered (.override _ target text) _ => if target.id = id then some text else none
  | _ => none

def lastOverride (seen : Transcript) (id : Nat) : Option String :=
  seen.findSome? (Event.override? id)

theorem lastOverride_visited (n : Node) (seen : Transcript) :
    lastOverride (.visited n :: seen) = lastOverride seen := rfl

theorem lastOverride_override_self (actor : Actor) (n : Node) (text : String)
    (answer : Except TransformError Unit) (seen : Transcript) :
    lastOverride (.answered (.override actor n text) answer :: seen) n.id = some text := by
  simp [lastOverride, Event.override?]

theorem lastOverride_override_of_ne (actor : Actor) {n : Node} (text : String)
    (answer : Except TransformError Unit) (seen : Transcript) {id : Nat} (h : n.id ≠ id) :
    lastOverride (.answered (.override actor n text) answer :: seen) id = lastOverride seen id := by
  simp [lastOverride, Event.override?, h]

/-- A run over a text that has seen this is true to the rewriting: each text that it was given for a node is
what the tree of the node was rewritten to by then, nothing below the node was overridden since, and no
override was refused. -/
structure Faithful (text : List Char) (nodes : List Node) (seen : Transcript) : Prop where
  source : ∀ later earlier actor n (answer : Except TransformError String),
    seen = later ++ .answered (.source actor n) answer :: earlier →
    n ∈ nodes ∧ answer = .ok (String.ofList (n.tree.rewritten text (lastOverride earlier) n.id)) ∧
      ∀ j, n.id < j → j < n.id + n.tree.size → lastOverride seen j = lastOverride earlier j
  override : ∀ actor n new (answer : Except TransformError Unit),
    .answered (.override actor n new) answer ∈ seen → n ∈ nodes ∧ answer = .ok ()

namespace Faithful

variable {text : List Char} {nodes : List Node} {seen : Transcript}

theorem nil : Faithful text nodes [] := by
  refine ⟨fun later earlier actor n answer heq => ?_, fun actor n new answer hmem => (nomatch hmem)⟩
  simp at heq

theorem mono {nodes' : List Node} (h : Faithful text nodes seen) (hsub : ∀ n ∈ nodes, n ∈ nodes') :
    Faithful text nodes' seen := by
  refine ⟨fun later earlier actor n answer heq => ?_, fun actor n new answer hmem => ?_⟩
  · obtain ⟨hn, hrest⟩ := h.source later earlier actor n answer heq
    exact ⟨hsub n hn, hrest⟩
  · obtain ⟨hn, hok⟩ := h.override actor n new answer hmem
    exact ⟨hsub n hn, hok⟩

theorem cons {e : Event} (h : Faithful text nodes seen)
    (hbelow : ∀ n ∈ nodes, ∀ j, n.id < j → j < n.id + n.tree.size →
      lastOverride (e :: seen) j = lastOverride seen j)
    (hsource : ∀ actor n (answer : Except TransformError String),
      e = .answered (.source actor n) answer →
      n ∈ nodes ∧ answer = .ok (String.ofList (n.tree.rewritten text (lastOverride seen) n.id)))
    (hoverride : ∀ actor n new (answer : Except TransformError Unit),
      e = .answered (.override actor n new) answer → n ∈ nodes ∧ answer = .ok ()) :
    Faithful text nodes (e :: seen) := by
  refine ⟨fun later earlier actor n answer heq => ?_, fun actor n new answer hmem => ?_⟩
  · cases later with
    | nil =>
      obtain ⟨he, rfl⟩ := List.cons.inj heq
      obtain ⟨hn, hok⟩ := hsource actor n answer he
      exact ⟨hn, hok, hbelow n hn⟩
    | cons d later =>
      obtain ⟨rfl, hseen⟩ := List.cons.inj heq
      obtain ⟨hn, hok, hsince⟩ := h.source later earlier actor n answer hseen
      exact ⟨hn, hok, fun j h₁ h₂ => (hbelow n hn j h₁ h₂).trans (hsince j h₁ h₂)⟩
  · rcases List.mem_cons.mp hmem with he | hmem
    · exact hoverride actor n new answer he.symm
    · exact h.override actor n new answer hmem

theorem visited (h : Faithful text nodes seen) (v : Node) : Faithful text nodes (.visited v :: seen) :=
  h.cons (fun _ _ _ _ _ => rfl) (fun _ _ _ he => (nomatch he)) fun _ _ _ _ he => (nomatch he)

theorem sourced (h : Faithful text nodes seen) {actor : Actor} {v : Node} (hv : v ∈ nodes) :
    Faithful text nodes (.answered (.source actor v)
      (.ok (String.ofList (v.tree.rewritten text (lastOverride seen) v.id))) :: seen) := by
  refine h.cons (fun _ _ _ _ _ => rfl) ?_ fun _ _ _ _ he => (nomatch he)
  intro actor' n answer he
  cases he
  exact ⟨hv, rfl⟩

theorem overridden (h : Faithful text nodes seen) {actor : Actor} {v : Node} (hv : v ∈ nodes)
    (new : String) (hbelow : ∀ n ∈ nodes, v.id ≤ n.id ∨ n.id + n.tree.size ≤ v.id) :
    Faithful text nodes (.answered (.override actor v new) (.ok ()) :: seen) := by
  refine h.cons (fun n hn j h₁ h₂ => ?_) (fun _ _ _ he => (nomatch he)) ?_
  · have := hbelow n hn
    exact lastOverride_override_of_ne actor new _ seen (by omega)
  · intro actor' n new' answer he
    cases he
    exact ⟨hv, rfl⟩

end Faithful

/-! ## The nodes of a run -/

/-- The spans of the tree are nested, and ranges of the text. -/
structure Tree.Fits (text : List Char) (root : Tree) : Prop where
  nested : root.Nested
  valid : ∀ u ∈ root.preorder, Arena.validSpan text u.span = true

theorem Tree.Fits.validSpan {text : List Char} {root : Tree} (h : root.Fits text) {run : RunId}
    {key : TreeKey} {n : Node} (hn : n ∈ root.postorder run key 0) :
    Arena.validSpan text n.span = true :=
  h.valid _ (List.mem_of_getElem? (Tree.getElem?_preorder hn))

theorem Tree.Fits.validSpan_below {text : List Char} {root : Tree} (h : root.Fits text) {run : RunId}
    {key : TreeKey} {done todo : List Node} {v : Node}
    (hall : root.postorder run key 0 = done ++ v :: todo) :
    ∀ n ∈ v.tree.postorder run key v.id, Arena.validSpan text n.span = true := by
  intro n hn
  obtain ⟨left, hsplit, -⟩ := Tree.postorder_split.1 root h.nested 0 done v todo hall
  have hmem : n ∈ root.postorder run key 0 := by
    rw [hall, List.append_cons, hsplit]
    exact List.mem_append_left _ (List.mem_append_right _ hn)
  exact h.validSpan hmem

theorem NodeState.later_ne_handled {s t : NodeState} (hs : s ≠ .handled) (ht : t ≠ .handled) :
    s.later t ≠ .handled := by
  rw [later]
  split
  · exact ht
  · exact hs

namespace Run

/-- The turn of the node is not over. -/
def Open (r : Run) (n : Node) : Prop :=
  ∃ e, r.arena.get? n.id = some e ∧ e.tree = n.tree ∧ e.state ≠ .handled

theorem Open.advance {r : Run} {n : Node} (h : r.Open n) {id : Nat} {state : NodeState}
    (hs : state ≠ .handled ∨ n.id ≠ id) : (r.advance id state).Open n := by
  obtain ⟨e, he, htree, hstate⟩ := h
  rw [Open, Run.advance, Arena.get?_advance]
  split
  · rename_i heq
    rw [he]
    refine ⟨_, rfl, htree, NodeState.later_ne_handled hstate (hs.resolve_right fun hne => ?_)⟩
    exact hne heq.symm
  · exact ⟨e, he, htree, hstate⟩

/-- The run after the turns of some nodes, with those of others to come. -/
structure AfterTurns (text : List Char) (done todo : List Node) (r : Run) : Prop where
  sound : r.Sound text
  bare : r.buffer.insertions = []
  replaced : r.buffer.replacements = standing (lastOverride r.transcript) done
  inFlight : r.phase = .inFlight
  held : r.held = true
  waiting : ∀ n ∈ todo, r.Open n ∧ lastOverride r.transcript n.id = none
  faithful : Faithful text done r.transcript

/-- The run within the turn of a node, of which `turn` is left. -/
structure InTurn (text : List Char) (m : Manipulator) (done : List Node) (v : Node) (todo : List Node)
    (turn : Turn) (r : Run) : Prop where
  after : r.AfterTurns text (done ++ [v]) todo
  isOpen : r.Open v
  own : turn.OwnNodeOnly v
  since : ∃ before answers, r.transcript = answers.reverse ++ .visited v :: before ∧
    ∀ rest result, turn.Gives rest result → (m before v).Gives (answers ++ rest) result

section

variable {text : List Char} {m : Manipulator} {done todo : List Node} {v : Node} {r : Run}

theorem AfterTurns.advance (h : r.AfterTurns text done todo) {id : Nat} {state : NodeState}
    (hs : state ≠ .handled ∨ ∀ n ∈ todo, n.id ≠ id) : (r.advance id state).AfterTurns text done todo where
  sound := h.sound.move (.advance id state)
  bare := h.bare
  replaced := h.replaced
  inFlight := h.inFlight
  held := h.held
  waiting n hn := ⟨(h.waiting n hn).1.advance (hs.imp_right fun hne => hne n hn), (h.waiting n hn).2⟩
  faithful := h.faithful

theorem AfterTurns.visit (h : r.AfterTurns text done (v :: todo))
    (hown : (m r.transcript v).OwnNodeOnly v) :
    InTurn text m done v todo (m r.transcript v)
      ((r.advance v.id .running).record (.visited v)) := by
  obtain ⟨hopen, hnone⟩ := h.waiting v (by simp)
  have hadv : (r.advance v.id .running).AfterTurns text done (v :: todo) := h.advance (.inl (by decide))
  refine ⟨⟨⟨hadv.sound.base, hadv.sound.buffer, hadv.sound.nodes⟩, h.bare, ?_, h.inFlight, h.held, ?_, ?_⟩,
    hopen.advance (.inl (by decide)), hown, r.transcript, [], rfl, fun rest result hgives => hgives⟩
  · refine h.replaced.trans ?_
    rw [standing_concat, settle]
    simp only [record, lastOverride_visited]
    rw [show lastOverride (r.advance v.id .running).transcript v.id = none from hnone]
    rfl
  · intro n hn
    exact hadv.waiting n (by simp [hn])
  · exact (h.faithful.mono fun n hn => by simp [hn]).visited v

theorem InTurn.endTurn {turn : Turn} (h : InTurn text m done v todo turn r)
    (hids : ∀ n ∈ todo, n.id ≠ v.id) : (r.advance v.id .handled).AfterTurns text (done ++ [v]) todo :=
  h.after.advance (.inr hids)

theorem InTurn.proceed {q : Request} {next : q.Answer → Turn} {a : q.Answer} {r' : Run}
    (h : InTurn text m done v todo (.call q next) r)
    (hafter : (r'.record (.answered q a)).AfterTurns text (done ++ [v]) todo) (hopen : r'.Open v)
    (hseen : r'.transcript = r.transcript) :
    InTurn text m done v todo (next a) (r'.record (.answered q a)) := by
  obtain ⟨before, answers, htranscript, hgives⟩ := h.since
  refine ⟨hafter, hopen, h.own.2 a, before, answers ++ [.answered q a], ?_, fun rest result hrest => ?_⟩
  · rw [record, hseen, htranscript, List.reverse_append]
    rfl
  · rw [List.append_assoc]
    exact hgives _ _ (.call hrest)

theorem InTurn.faithful {nodes : List Node} {turn : Turn} (h : InTurn text m done v todo turn r)
    (hall : nodes = done ++ v :: todo) : Faithful text nodes r.transcript := by
  refine h.after.faithful.mono fun n hn => ?_
  rw [hall, List.append_cons]
  exact List.mem_append_left _ hn

theorem InTurn.wait {turn turn' : Turn} (h : InTurn text m done v todo turn r)
    (hown : turn'.OwnNodeOnly v)
    (hgives : ∀ rest result, turn'.Gives rest result → turn.Gives rest result) :
    InTurn text m done v todo turn' r := by
  obtain ⟨before, answers, htranscript, hsince⟩ := h.since
  exact ⟨h.after, h.isOpen, hown, before, answers, htranscript,
    fun rest result hrest => hsince rest result (hgives rest result hrest)⟩

variable {root : Tree} {run : RunId} {key : TreeKey}

theorem InTurn.source {next : Except TransformError String → Turn}
    (h : InTurn text m done v todo (.call (.source (.helpers v) v) next) r) (hroot : root.Fits text)
    (hall : root.postorder run key 0 = done ++ v :: todo) :
    InTurn text m done v todo (next (r.source v.id))
      (r.record (.answered (.source (.helpers v) v) (r.source v.id))) := by
  obtain ⟨left, -, hleft⟩ := standing_turn hroot.nested hall
  obtain ⟨hpre, hstanding⟩ := hleft (lastOverride r.transcript)
  have hv := (Tree.span_of_mem_postorder.1 root hroot.nested 0 v (by rw [hall]; simp)).2.2
  have hvalid := hroot.validSpan_below hall
  rw [← h.after.sound.base] at hvalid
  have hslice := h.after.sound.buffer.slice_turn h.after.bare hpre hv hvalid
    (h.after.replaced.trans hstanding)
  have hsource : r.source v.id =
      .ok (String.ofList (v.tree.rewritten text (lastOverride r.transcript) v.id)) := by
    obtain ⟨e, he, htree, -⟩ := h.isOpen
    rw [Run.source, he]
    simp only [htree]
    rw [← Node.span, hslice, h.after.sound.base]
    rfl
  refine h.proceed ?_ h.isOpen rfl
  refine ⟨⟨h.after.sound.base, h.after.sound.buffer, h.after.sound.nodes⟩, h.after.bare, h.after.replaced,
    h.after.inFlight, h.after.held, h.after.waiting, ?_⟩
  rw [hsource]
  exact h.after.faithful.sourced (by simp)

theorem InTurn.override {new : String} {next : Except TransformError Unit → Turn}
    (h : InTurn text m done v todo (.call (.override (.helpers v) v new) next) r) (hroot : root.Fits text)
    (hall : root.postorder run key 0 = done ++ v :: todo) :
    ∃ r', r.override v.id new = .ok r' ∧
      InTurn text m done v todo (next (.ok ()))
        (r'.record (.answered (.override (.helpers v) v new) (.ok ()))) := by
  obtain ⟨left, hsub, hleft⟩ := standing_turn hroot.nested hall
  obtain ⟨hpre, hstanding⟩ := hleft (lastOverride r.transcript)
  have hv := (Tree.span_of_mem_postorder.1 root hroot.nested 0 v (by rw [hall]; simp)).2.2
  have hlt : v.span.start < v.span.stop := hv.start_lt_stop
  have hwrite := h.after.sound.buffer.overwrite_turn h.after.bare hpre hv
    (h.after.replaced.trans hstanding) hlt new.toList
  have hok : r.override v.id new = .ok { r with buffer := { r.buffer with
      replacements := standing (lastOverride r.transcript) left ++
        [⟨v.span.start, v.span.stop, new.toList, hlt⟩] } } := by
    obtain ⟨e, he, htree, hstate⟩ := h.isOpen
    rw [Run.override, he]
    simp only [if_neg hstate, h.after.inFlight, ne_eq, not_true_eq_false, if_false, htree]
    rw [Run.edit, ← Node.span, dif_pos hlt, hwrite]
    rfl
  have hsound := h.after.sound.move (.override v.id new)
  rw [Run.move, hok] at hsound
  obtain ⟨hbelow, hdone, htodo⟩ := Tree.id_of_split hall
  refine ⟨_, hok, h.proceed ⟨⟨hsound.base, hsound.buffer, hsound.nodes⟩, h.after.bare, ?_, h.after.inFlight,
    h.after.held, fun n hn => ?_, ?_⟩ h.isOpen rfl⟩
  · -- the new text supersedes what was in the node, and nothing on its left is touched
    have hself := lastOverride_override_self (.helpers v) v new (.ok ()) r.transcript
    have hsame : standing (lastOverride r.transcript) left =
        standing (lastOverride (.answered (.override (.helpers v) v new) (.ok ()) :: r.transcript)) left :=
      standing_congr fun u hu =>
        (lastOverride_override_of_ne _ new _ r.transcript (hdone u (hsub u hu))).symm
    rw [record, (hleft _).2, Tree.edits_of_some hself hlt, ← hsame]
    rfl
  · obtain ⟨hopen, hnone⟩ := h.after.waiting n hn
    refine ⟨hopen, Eq.trans ?_ hnone⟩
    exact lastOverride_override_of_ne _ new _ r.transcript (htodo n hn).symm
  · refine h.after.faithful.overridden (by simp) new fun n hn => ?_
    rcases List.mem_append.mp hn with hn | hn
    · exact (hbelow n hn).imp_left Nat.le_of_lt
    · rw [List.mem_singleton.mp hn]
      exact .inl (Nat.le_refl _)

end

end Run

end TreeEdit
