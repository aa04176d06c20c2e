import Mathlib.Data.List.Induction
import TreeEdit.Proofs.Buffer.Scan
import TreeEdit.Proofs.Engine.Postorder

/-!
# What a tree is rewritten to

Given the text that each node was last overridden with, if it was, `Tree.rewritten` says what stands in the
place of a tree: that text, or else the original text with what the children are rewritten to in their
places.

A run that gives the nodes their turns in post-order is left with the replacements of the topmost
overridden nodes, whatever it was that it had on the left (`foldl_settle`, `standing_turn`). A buffer with
these replacements reads as what the tree is rewritten to (`slice_turn`, `code_eq_rewritten`), and takes a
new text for the node at hand (`overwrite_turn`).
-/

namespace TreeEdit

/-- The text from `pos` to `stop` with new text for some ranges, given in order. -/
def Text.splice (text : List Char) (stop : Nat) : Nat → List (Span × List Char) → List Char
  | pos, [] => Text.between text pos stop
  | pos, (span, new) :: rest =>
    Text.between text pos span.start ++ (new ++ splice text stop span.stop rest)

namespace Tree

mutual

/-- What stands in the place of a tree whose root has the number `id`, where `last` gives the texts of the
overridden nodes. -/
def rewritten (text : List Char) (last : Nat → Option String) (id : Nat) : Tree → List Char
  | ⟨_, span, _, _, children⟩ =>
    match last id with
    | some new => new.toList
    | none => Text.splice text span.stop span.start (rewrittenList text last (id + 1) children)

/-- What stands in the places of consecutive trees, the first with the number `id`. -/
def rewrittenList (text : List Char) (last : Nat → Option String) (id : Nat) :
    List Tree → List (Span × List Char)
  | [] => []
  | t :: ts => (t.span, t.rewritten text last id) :: rewrittenList text last (id + t.size) ts

end

/-- The text of a tree with its children rewritten. -/
def rewrittenBelow (text : List Char) (last : Nat → Option String) (id : Nat) (t : Tree) : List Char :=
  Text.splice text t.span.stop t.span.start (rewrittenList text last (id + 1) t.children)

theorem rewritten_of_none {text : List Char} {last : Nat → Option String} {id : Nat} (t : Tree)
    (h : last id = none) : t.rewritten text last id = t.rewrittenBelow text last id := by
  cases t
  rw [rewritten, h]
  rfl

theorem rewritten_congr {text : List Char} {last last' : Nat → Option String} :
    (∀ (t : Tree) id, (∀ j, id ≤ j → j < id + t.size → last j = last' j) →
      t.rewritten text last id = t.rewritten text last' id) ∧
    ∀ (ts : List Tree) id, (∀ j, id ≤ j → j < id + sizeList ts → last j = last' j) →
      rewrittenList text last id ts = rewrittenList text last' id ts := by
  apply induct
  · intro kind span value data children ih id h
    rw [size] at h
    rw [rewritten, rewritten, h id (Nat.le_refl _) (by omega),
      ih (id + 1) fun j h₁ h₂ => h j (by omega) (by omega)]
  · intro id h
    rfl
  · intro t ts iht ihts id h
    rw [sizeList] at h
    rw [rewrittenList, rewrittenList, iht id fun j h₁ h₂ => h j h₁ (by omega),
      ihts (id + t.size) fun j h₁ h₂ => h j (by omega) (by omega)]

theorem rewrittenBelow_congr {text : List Char} {last last' : Nat → Option String} {id : Nat} {t : Tree}
    (h : ∀ j, id < j → j < id + t.size → last j = last' j) :
    t.rewrittenBelow text last id = t.rewrittenBelow text last' id := by
  have hlist : rewrittenList text last (id + 1) t.children =
      rewrittenList text last' (id + 1) t.children := by
    refine rewritten_congr.2 _ _ fun j h₁ h₂ => h j h₁ ?_
    cases t
    simp only [size] at h₂ ⊢
    omega
  rw [rewrittenBelow, rewrittenBelow, hlist]

/-! ## The replacements that are left -/

mutual

/-- The replacements of the topmost overridden nodes of a tree. -/
def edits (last : Nat → Option String) (id : Nat) : Tree → List Replacement
  | ⟨_, span, _, _, children⟩ =>
    match last id with
    | none => editsList last (id + 1) children
    | some new =>
      if h : span.start < span.stop then [⟨span.start, span.stop, new.toList, h⟩] else []

def editsList (last : Nat → Option String) (id : Nat) : List Tree → List Replacement
  | [] => []
  | t :: ts => t.edits last id ++ editsList last (id + t.size) ts

end

variable {last : Nat → Option String}

theorem edits_of_none {id : Nat} (t : Tree) (h : last id = none) :
    t.edits last id = editsList last (id + 1) t.children := by
  cases t
  rw [edits, h]

theorem edits_of_some {id : Nat} {t : Tree} {new : String} (h : last id = some new)
    (hlt : t.span.start < t.span.stop) :
    t.edits last id = [⟨t.span.start, t.span.stop, new.toList, hlt⟩] := by
  cases t
  rw [edits, h]
  exact dif_pos hlt

theorem span_of_mem_edits (last : Nat → Option String) :
    (∀ t : Tree, t.Nested → ∀ id, ∀ r ∈ t.edits last id,
      t.span.start ≤ r.start ∧ r.stop ≤ t.span.stop) ∧
    ∀ ts : List Tree, ∀ pos stop, NestedIn pos stop ts → ∀ id, ∀ r ∈ editsList last id ts,
      pos ≤ r.start ∧ r.stop ≤ stop := by
  apply induct
  · intro kind span value data children ih h id r hr
    cases hlast : last id with
    | none =>
      rw [edits_of_none _ hlast] at hr
      exact ih _ _ h.children _ r hr
    | some new =>
      rw [edits_of_some hlast h.start_lt_stop, List.mem_singleton] at hr
      rw [hr]
      exact ⟨Nat.le_refl _, Nat.le_refl _⟩
  · intro pos stop h id r hr
    cases hr
  · intro t ts iht ihts pos stop h id r hr
    rw [NestedIn] at h
    obtain ⟨hpos, hstop, ht, hts⟩ := h
    rw [editsList, List.mem_append] at hr
    rcases hr with hr | hr
    · obtain ⟨h₁, h₂⟩ := iht ht _ r hr
      exact ⟨Nat.le_trans hpos h₁, Nat.le_trans h₂ hstop⟩
    · have hlt := ht.start_lt_stop
      exact ihts _ _ (hts.mono (by omega)) _ r hr

end Tree

/-- The replacements after the turn of a node: its own text supersedes what is inside. -/
def settle (last : Nat → Option String) (rs : List Replacement) (n : Node) : List Replacement :=
  match last n.id with
  | none => rs
  | some new =>
    if h : n.span.start < n.span.stop then
      rs.filter (fun r => !n.span.contains r.start) ++ [⟨n.span.start, n.span.stop, new.toList, h⟩]
    else rs

/-- The replacements after the turns of some nodes. -/
def standing (last : Nat → Option String) (nodes : List Node) : List Replacement :=
  nodes.foldl (settle last) []

section

variable {last : Nat → Option String}

theorem standing_concat (nodes : List Node) (n : Node) :
    standing last (nodes ++ [n]) = settle last (standing last nodes) n := by
  rw [standing, List.foldl_append]
  rfl

theorem standing_congr {last' : Nat → Option String} {nodes : List Node}
    (h : ∀ n ∈ nodes, last n.id = last' n.id) : standing last nodes = standing last' nodes := by
  induction nodes using List.reverseRecOn with
  | nil => rfl
  | append_singleton nodes n ih =>
    rw [standing_concat, standing_concat, ih fun u hu => h u (by simp [hu]), settle, settle,
      h n (by simp)]

theorem mem_standing {nodes : List Node} {r : Replacement} (h : r ∈ standing last nodes) :
    ∃ n ∈ nodes, r.stop = n.span.stop := by
  induction nodes using List.reverseRecOn with
  | nil => cases h
  | append_singleton nodes n ih =>
    have hold : r ∈ standing last nodes → ∃ u ∈ nodes ++ [n], r.stop = u.span.stop := fun hr => by
      obtain ⟨u, hu, hspan⟩ := ih hr
      exact ⟨u, by simp [hu], hspan⟩
    rw [standing_concat, settle] at h
    split at h
    · exact hold h
    · split at h
      · rcases List.mem_append.mp h with h | h
        · exact hold (List.mem_filter.mp h).1
        · rw [List.mem_singleton] at h
          exact ⟨n, by simp, by rw [h]⟩
      · exact hold h

theorem filter_outside {span : Span} {pre inner : List Replacement}
    (hpre : ∀ r ∈ pre, r.stop ≤ span.start)
    (hinner : ∀ r ∈ inner, span.start ≤ r.start ∧ r.stop ≤ span.stop) :
    (pre ++ inner).filter (fun r => !span.contains r.start) = pre := by
  have hkeep : pre.filter (fun r => !span.contains r.start) = pre := by
    rw [List.filter_eq_self]
    intro r hr
    have := hpre r hr
    have := r.start_lt_stop
    simp [Span.contains]
    omega
  have hdrop : inner.filter (fun r => !span.contains r.start) = [] := by
    rw [List.filter_eq_nil_iff]
    intro r hr
    have := hinner r hr
    have := r.start_lt_stop
    simp [Span.contains]
    omega
  rw [List.filter_append, hkeep, hdrop, List.append_nil]

theorem settle_children {v : Node} (hv : v.tree.Nested) {pre : List Replacement}
    (hpre : ∀ r ∈ pre, r.stop ≤ v.span.start) :
    settle last (pre ++ Tree.editsList last (v.id + 1) v.tree.children) v =
      pre ++ v.tree.edits last v.id := by
  rw [settle]
  cases hlast : last v.id with
  | none => rw [Tree.edits_of_none _ hlast]
  | some new =>
    have hlt : v.span.start < v.span.stop := hv.start_lt_stop
    have hinner : ∀ r ∈ Tree.editsList last (v.id + 1) v.tree.children,
        v.span.start ≤ r.start ∧ r.stop ≤ v.span.stop :=
      (Tree.span_of_mem_edits last).2 _ _ _ hv.children (v.id + 1)
    rw [Tree.edits_of_some hlast hlt]
    simp only [dif_pos hlt, filter_outside hpre hinner]
    rfl

variable {run : RunId} {key : TreeKey}

/-- **Turns in post-order** add the replacements of the topmost overridden nodes. -/
theorem foldl_settle :
    (∀ t : Tree, t.Nested → ∀ id pre, (∀ r ∈ pre, r.stop ≤ t.span.start) →
      (t.postorder run key id).foldl (settle last) pre = pre ++ t.edits last id) ∧
    ∀ ts : List Tree, ∀ pos stop, Tree.NestedIn pos stop ts → ∀ id pre,
      (∀ r ∈ pre, r.stop ≤ pos) →
      (Tree.postorderList run key id ts).foldl (settle last) pre = pre ++ Tree.editsList last id ts := by
  apply Tree.induct
  · intro kind span value data children ih h id pre hpre
    rw [Tree.postorder, List.foldl_append, ih _ _ h.children _ pre hpre]
    exact settle_children (v := ⟨run, id, ⟨kind, span, value, data, children⟩, key⟩) h hpre
  · intro pos stop h id pre hpre
    exact (List.append_nil pre).symm
  · intro t ts iht ihts pos stop h id pre hpre
    rw [Tree.NestedIn] at h
    obtain ⟨hpos, -, ht, hts⟩ := h
    have hleft : ∀ r ∈ pre ++ t.edits last id, r.stop ≤ t.span.stop := by
      intro r hr
      rcases List.mem_append.mp hr with hr | hr
      · have := hpre r hr
        have := ht.start_lt_stop
        omega
      · exact ((Tree.span_of_mem_edits last).1 t ht id r hr).2
    rw [Tree.postorderList, Tree.editsList, List.foldl_append,
      iht ht id pre fun r hr => Nat.le_trans (hpre r hr) hpos, ihts _ _ hts _ _ hleft, List.append_assoc]

theorem standing_postorder {t : Tree} (h : t.Nested) (id : Nat) :
    standing last (t.postorder run key id) = t.edits last id := by
  rw [standing, foldl_settle.1 t h id [] fun r hr => (nomatch hr), List.nil_append]

theorem standing_turn {root : Tree} (h : root.Nested) {id : Nat} {done todo : List Node} {v : Node}
    (heq : root.postorder run key id = done ++ v :: todo) :
    ∃ left, (∀ u ∈ left, u ∈ done) ∧ ∀ last, (∀ r ∈ standing last left, r.stop ≤ v.span.start) ∧
      standing last (done ++ [v]) = standing last left ++ v.tree.edits last v.id := by
  have hv : v.tree.Nested := (Tree.span_of_mem_postorder.1 root h id v (by rw [heq]; simp)).2.2
  have hlt : v.span.start < v.span.stop := hv.start_lt_stop
  obtain ⟨left, hdone, hleft⟩ := Tree.postorder_split.1 root h id done v todo heq
  refine ⟨left, fun u hu => ?_, fun last => ?_⟩
  · have hmem : u ∈ done ++ [v] := by rw [hdone]; exact List.mem_append_left _ hu
    refine (List.mem_append.mp hmem).resolve_right fun huv => ?_
    have := hleft u hu
    rw [List.mem_singleton.mp huv] at this
    omega
  · have hpre : ∀ r ∈ standing last left, r.stop ≤ v.span.start := by
      intro r hr
      obtain ⟨n, hn, hspan⟩ := mem_standing hr
      rw [hspan]
      exact hleft n hn
    refine ⟨hpre, ?_⟩
    rw [hdone, standing, List.foldl_append]
    exact foldl_settle.1 _ hv _ _ hpre

end

/-! ## Reading what is left -/

namespace Buffer

variable {b : Buffer} {atStop : Bool} {start stop : Nat}

theorem emitted_of_bare (hbare : b.insertions = []) (pos : Nat) :
    b.emitted atStop start stop pos = [] :=
  emitted_of_insertedAt_eq_none (by rw [insertedAt, hbare]; rfl)

/-- The replacements that start between two offsets are the given ones. -/
def Holds (b : Buffer) (pos stop : Nat) (rs : List Replacement) : Prop :=
  ∀ r : Replacement, pos ≤ r.start → r.start < stop → (r ∈ b.replacements ↔ r ∈ rs)

/-- The replacements of consecutive trees: none before the first tree, then those of the first, then those
of the others. -/
theorem Holds.cons {last : Nat → Option String} {t : Tree} {ts : List Tree} {pos next id : Nat}
    (h : b.Holds pos next (Tree.editsList last id (t :: ts))) (hpos : pos ≤ t.span.start)
    (hnext : t.span.stop ≤ next) (ht : t.Nested) (hts : Tree.NestedIn t.span.stop next ts) :
    (∀ r ∈ b.replacements, pos ≤ r.start → t.span.start ≤ r.start) ∧
      b.Holds t.span.start t.span.stop (t.edits last id) ∧
      b.Holds t.span.stop next (Tree.editsList last (id + t.size) ts) := by
  have hlt := ht.start_lt_stop
  have hedits := (Tree.span_of_mem_edits last).1 t ht id
  have hlater := (Tree.span_of_mem_edits last).2 ts _ _ hts (id + t.size)
  rw [Tree.editsList] at h
  refine ⟨fun r hr h₁ => Nat.le_of_not_lt fun h₂ => ?_, fun r h₁ h₂ => ?_, fun r h₁ h₂ => ?_⟩
  · rcases List.mem_append.mp ((h r h₁ (by omega)).mp hr) with hr | hr
    · have := (hedits r hr).1
      omega
    · have := (hlater r hr).1
      omega
  · rw [h r (by omega) (by omega), List.mem_append]
    refine ⟨fun hr => hr.resolve_right fun hr => ?_, .inl⟩
    have := (hlater r hr).1
    omega
  · rw [h r (by omega) (by omega), List.mem_append]
    refine ⟨fun hr => hr.resolve_left fun hr => ?_, .inr⟩
    have := (hedits r hr).2
    have := r.start_lt_stop
    omega

theorem scan_gap (hbare : b.insertions = []) {pos next : Nat}
    (hpos : Text.isBoundary b.base pos = true) (hnext : Text.isBoundary b.base next = true)
    (hle : pos ≤ next) (hstop : next ≤ stop)
    (hnone : ∀ r ∈ b.replacements, pos ≤ r.start → next ≤ r.start) :
    b.scan atStop start stop pos =
      Text.between b.base pos next ++ b.scan atStop start stop next := by
  rcases Nat.lt_or_eq_of_le hle with hlt | rfl
  · rw [scan_unedited hpos hnext hlt hstop, emitted_of_bare hbare, List.nil_append]
    · intro p h₁ h₂
      rw [replacedAt_eq_none_iff]
      intro r hr heq
      have := hnone r hr (by omega)
      omega
    · intro p _ _
      rw [insertedAt, hbare]
      rfl
  · rw [Text.between_self, List.nil_append]

variable {run : RunId} {key : TreeKey} {last : Nat → Option String}

theorem Sound.scan_tree (hb : b.Sound) (hbare : b.insertions = []) (last : Nat → Option String)
    (atStop : Bool) (start stop : Nat) :
    (∀ t : Tree, t.Nested → ∀ id,
      (∀ n ∈ t.postorder run key id, Arena.validSpan b.base n.span = true) → t.span.stop ≤ stop →
      b.Holds t.span.start t.span.stop (t.edits last id) →
      b.scan atStop start stop t.span.start =
        t.rewritten b.base last id ++ b.scan atStop start stop t.span.stop) ∧
    ∀ ts : List Tree, ∀ pos next, Tree.NestedIn pos next ts → ∀ id,
      (∀ n ∈ Tree.postorderList run key id ts, Arena.validSpan b.base n.span = true) →
      Text.isBoundary b.base pos = true → Text.isBoundary b.base next = true →
      pos ≤ next → next ≤ stop → b.Holds pos next (Tree.editsList last id ts) →
      b.scan atStop start stop pos =
        Text.splice b.base next pos (Tree.rewrittenList b.base last id ts) ++
          b.scan atStop start stop next := by
  apply Tree.induct
  · intro kind span value data children ih h id hvalid hstop hholds
    have hlt : span.start < span.stop := h.start_lt_stop
    have hspan : Arena.validSpan b.base span = true := hvalid _ (Tree.root_mem_postorder _ id)
    obtain ⟨-, -, hbstart, hbstop⟩ := Arena.validSpan_iff.mp hspan
    cases hlast : last id with
    | some new =>
      rw [Tree.edits_of_some hlast hlt] at hholds
      have hmem := (hholds ⟨span.start, span.stop, new.toList, hlt⟩ (Nat.le_refl _) hlt).mpr (by simp)
      have hat : b.replacedAt span.start = some ⟨span.start, span.stop, new.toList, hlt⟩ :=
        (replacedAt_eq_some_iff hb.ordered).mpr ⟨hmem, rfl⟩
      rw [scan_of_replaced (Nat.lt_of_lt_of_le hlt hstop) hat, emitted_of_bare hbare, Tree.rewritten,
        hlast, List.nil_append]
    | none =>
      rw [Tree.edits_of_none _ hlast] at hholds
      rw [Tree.rewritten_of_none _ hlast]
      refine ih _ _ h.children _ (fun n hn => hvalid n ?_) hbstart hbstop (Nat.le_of_lt hlt) hstop hholds
      rw [Tree.postorder]
      exact List.mem_append_left _ hn
  · intro pos next h id hvalid hbpos hbnext hle hstop hholds
    refine scan_gap hbare hbpos hbnext hle hstop fun r hr hpos => ?_
    -- a replacement that starts here would be among none
    refine Nat.le_of_not_lt fun hlt => ?_
    cases (hholds r hpos hlt).mp hr
  · intro t ts iht ihts pos next h id hvalid hbpos hbnext hle hstop hholds
    rw [Tree.NestedIn] at h
    obtain ⟨hpos, hnext, ht, hts⟩ := h
    rw [Tree.postorderList] at hvalid
    have hlt := ht.start_lt_stop
    have hspan : Arena.validSpan b.base t.span = true :=
      hvalid _ (List.mem_append_left _ (t.root_mem_postorder id))
    obtain ⟨-, -, hbstart, hbstop⟩ := Arena.validSpan_iff.mp hspan
    obtain ⟨hgap, htree, hrest⟩ := hholds.cons hpos hnext ht hts
    rw [Tree.rewrittenList, Text.splice, scan_gap hbare hbpos hbstart hpos (by omega) hgap,
      iht ht id (fun n hn => hvalid n (List.mem_append_left _ hn)) (by omega) htree,
      ihts _ _ hts _ (fun n hn => hvalid n (List.mem_append_right _ hn)) hbstop hbnext hnext hstop hrest]
    simp only [List.append_assoc]

/-! ## The turn of a node -/

section

variable {v : Node} {pre : List Replacement}

theorem free_turn (hpre : ∀ r ∈ pre, r.stop ≤ v.span.start) (hv : v.tree.Nested)
    (hreplaced : b.replacements = pre ++ v.tree.edits last v.id) :
    b.Free v.span.start ∧ b.Free v.span.stop := by
  have hedits := (Tree.span_of_mem_edits last).1 v.tree hv v.id
  have hlt : v.span.start < v.span.stop := hv.start_lt_stop
  have hout : ∀ r ∈ b.replacements, ¬ r.Straddles v.span.start ∧ ¬ r.Straddles v.span.stop := by
    intro r hr
    rw [hreplaced] at hr
    simp only [Replacement.Straddles]
    rcases List.mem_append.mp hr with hr | hr
    · have := hpre r hr
      omega
    · have : v.span.start ≤ r.start ∧ r.stop ≤ v.span.stop := hedits r hr
      omega
  exact ⟨fun r hr => (hout r hr).1, fun r hr => (hout r hr).2⟩

theorem Sound.slice_turn (hb : b.Sound) (hbare : b.insertions = [])
    (hpre : ∀ r ∈ pre, r.stop ≤ v.span.start) (hv : v.tree.Nested)
    (hvalid : ∀ n ∈ v.tree.postorder run key v.id, Arena.validSpan b.base n.span = true)
    (hreplaced : b.replacements = pre ++ v.tree.edits last v.id) :
    b.slice v.span = .ok (v.tree.rewritten b.base last v.id) := by
  obtain ⟨hstart, hstop⟩ := free_turn hpre hv hreplaced
  have hspan : Arena.validSpan b.base v.span = true :=
    hvalid ⟨run, v.id, v.tree, key⟩ (v.tree.root_mem_postorder v.id)
  have hholds : b.Holds v.tree.span.start v.tree.span.stop (v.tree.edits last v.id) := by
    intro r h₁ h₂
    rw [hreplaced, List.mem_append]
    refine ⟨fun hr => hr.resolve_left fun hr => ?_, .inr⟩
    have : r.stop ≤ v.tree.span.start := hpre r hr
    have := r.start_lt_stop
    omega
  have hscan := (hb.scan_tree hbare last false v.span.start v.span.stop).1 v.tree hv v.id hvalid
    (Nat.le_refl _) hholds
  have hlast : b.scan false v.span.start v.span.stop v.span.stop = [] := by
    rw [scan_of_not_lt (Nat.lt_irrefl _), emitted_of_bare hbare]
  rw [hb.slice_eq_scan hspan hstart hstop]
  exact congrArg Except.ok (hscan.trans ((congrArg _ hlast).trans (List.append_nil _)))

theorem Sound.overwrite_turn (hb : b.Sound) (hbare : b.insertions = [])
    (hpre : ∀ r ∈ pre, r.stop ≤ v.span.start) (hv : v.tree.Nested)
    (hreplaced : b.replacements = pre ++ v.tree.edits last v.id) (hlt : v.span.start < v.span.stop)
    (new : List Char) :
    b.overwrite v.span hlt new =
      .ok { b with replacements := pre ++ [⟨v.span.start, v.span.stop, new, hlt⟩] } := by
  have hcheck := (checkEdges_eq_ok_iff_free hb.ordered).mpr (free_turn hpre hv hreplaced)
  have hkept : (pre ++ v.tree.edits last v.id).filter (fun r => !v.span.contains r.start) = pre :=
    filter_outside hpre ((Tree.span_of_mem_edits last).1 v.tree hv v.id)
  have hplace : addReplacement ⟨v.span.start, v.span.stop, new, hlt⟩ pre =
      pre ++ [⟨v.span.start, v.span.stop, new, hlt⟩] := by
    refine addReplacement_concat fun s hs => ?_
    have := hpre s hs
    have := s.start_lt_stop
    simp only
    omega
  have happly : b.overwrite v.span hlt new = .ok (b.absorb (.overwrite v.span hlt new)) := by
    have h := apply_eq b (.overwrite v.span hlt new)
    rw [Edit.span, hcheck] at h
    exact h
  rw [happly, Buffer.absorb, hreplaced, hkept, hplace, hbare]
  rfl

end

/-- **The whole text** is the original with what the root is rewritten to in its place. -/
theorem Sound.code_eq_rewritten (hb : b.Sound) (hbare : b.insertions = []) {root : Tree}
    (hroot : root.Nested)
    (hvalid : ∀ n ∈ root.postorder run key 0, Arena.validSpan b.base n.span = true)
    (hreplaced : b.replacements = root.edits last 0) :
    b.code = Text.splice b.base b.size 0 [(root.span, root.rewritten b.base last 0)] := by
  have hspan : Arena.validSpan b.base root.span = true := hvalid _ (root.root_mem_postorder 0)
  obtain ⟨-, hsize, -, -⟩ := Arena.validSpan_iff.mp hspan
  have hnested : Tree.NestedIn 0 b.size [root] := by
    rw [Tree.NestedIn, Tree.NestedIn]
    exact ⟨Nat.zero_le _, hsize, hroot, trivial⟩
  have hvalid' : ∀ n ∈ Tree.postorderList run key 0 [root], Arena.validSpan b.base n.span = true := by
    simpa [Tree.postorderList] using hvalid
  have hholds : b.Holds 0 b.size (Tree.editsList last 0 [root]) := by
    intro r _ _
    rw [hreplaced, Tree.editsList, Tree.editsList, List.append_nil]
  have hscan := (hb.scan_tree hbare last true 0 b.size).2 [root] 0 b.size hnested 0 hvalid'
    (Text.isBoundary_zero _) (Text.isBoundary_size _) (Nat.zero_le _) (Nat.le_refl _) hholds
  rw [scan_of_not_lt (Nat.lt_irrefl _), emitted_of_bare hbare, List.append_nil] at hscan
  rw [hb.code_eq_scan, hscan]
  rfl

end Buffer

end TreeEdit
