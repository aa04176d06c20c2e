import Mathlib.Logic.Relation
import TreeEdit.Proofs.Engine.Postorder

/-!
# The numbers of nodes

An arena has the nodes of a tree in one stretch, from the number of its root on (`Arena.Has`), and it has those of each tree
below in a part of the stretch (`rooted_of_has`). All else can be read off from there: what a node lists as its children and
what these name as their parent (`lists_iff`), and which nodes are below it (`below_iff`). The same arena comes of adding one
node after the other behind those that are there, where each is added to the list of its parent too (`register_eq_add`).
-/

namespace TreeEdit

namespace Tree

theorem entriesThen_eq :
    (∀ (t : Tree) parent id rest, t.entriesThen parent id rest = t.entriesThen parent id [] ++ rest) ∧
    ∀ (ts : List Tree) parent id rest, entriesListThen parent id ts rest = entriesListThen parent id ts [] ++ rest := by
  apply induct
  · intro kind span value data children ih parent id rest
    rw [entriesThen, entriesThen, ih, List.cons_append]
  · intro parent id rest
    rfl
  · intro t ts iht ihts parent id rest
    rw [entriesListThen, entriesListThen, ihts, iht, iht _ _ (entriesListThen _ _ ts []), List.append_assoc]

theorem length_entriesThen :
    (∀ (t : Tree) parent id rest, (t.entriesThen parent id rest).length = t.size + rest.length) ∧
    ∀ (ts : List Tree) parent id rest, (entriesListThen parent id ts rest).length = sizeList ts + rest.length := by
  apply induct
  · intro kind span value data children ih parent id rest
    rw [entriesThen, size, List.length_cons, ih]
    omega
  · intro parent id rest
    simp [entriesListThen, sizeList]
  · intro t ts iht ihts parent id rest
    rw [entriesListThen, sizeList, iht, ihts]
    omega

theorem drop_entriesThen (t : Tree) (parent : Option Nat) (id : Nat) (rest : List NodeEntry) :
    (t.entriesThen parent id rest).drop t.size = rest := by
  have hlength : (t.entriesThen parent id []).length = t.size := by simp [length_entriesThen.1]
  rw [entriesThen_eq.1, ← hlength, List.drop_left]

theorem numbers_ascending (id : Nat) (ts : List Tree) :
    (numbers id ts).Pairwise (· < ·) ∧ ∀ j ∈ numbers id ts, id ≤ j := by
  induction ts generalizing id with
  | nil => exact ⟨.nil, fun j hj => (nomatch hj)⟩
  | cons t ts ih =>
    obtain ⟨hpair, hle⟩ := ih (id + t.size)
    have := t.size_pos
    rw [numbers]
    refine ⟨List.pairwise_cons.mpr ⟨fun j hj => ?_, hpair⟩, List.forall_mem_cons.mpr ⟨Nat.le_refl _, fun j hj => ?_⟩⟩
    · have := hle j hj
      omega
    · have := hle j hj
      omega

end Tree

namespace Arena

/-- The arena has the entries of the tree from a number on. -/
def Has (a : Arena) (parent : Option Nat) (id : Nat) (t : Tree) : Prop :=
  ∃ rest, a.entries.toList.drop id = t.entriesThen parent id rest

def HasAll (a : Arena) (parent id : Nat) (ts : List Tree) : Prop :=
  ∃ rest, a.entries.toList.drop id = Tree.entriesListThen parent id ts rest

/-- The node lists another one among its children. -/
def Lists (a : Arena) (i j : Nat) : Prop :=
  ∃ e, a.get? i = some e ∧ j ∈ e.children

/-- The second node is below the first: one, two or more parents lead from it to the first. -/
def Below (a : Arena) : Nat → Nat → Prop :=
  Relation.TransGen fun p c => a.parent? c = some p

theorem has_ofTree (t : Tree) : (ofTree t).Has none 0 t :=
  ⟨[], by simp [ofTree]⟩

variable {a : Arena} {parent : Option Nat} {p id j : Nat} {t : Tree} {ts : List Tree}

/-! ## Parts of a stretch -/

theorem Has.get? (h : a.Has parent id t) :
    a.get? id = some ⟨t, parent, Tree.numbers (id + 1) t.children, .registered⟩ := by
  obtain ⟨rest, hrest⟩ := h
  have hfirst : (a.entries.toList.drop id)[0]? = a.get? id := by
    rw [List.getElem?_drop, Nat.add_zero, Array.getElem?_toList]
    rfl
  rw [← hfirst, hrest]
  cases t
  rfl

theorem Has.children (h : a.Has parent id t) : a.HasAll id (id + 1) t.children := by
  obtain ⟨rest, hrest⟩ := h
  refine ⟨rest, ?_⟩
  rw [← List.drop_drop, hrest]
  cases t
  rfl

theorem HasAll.head (h : a.HasAll p id (t :: ts)) : a.Has (some p) id t := by
  obtain ⟨rest, hrest⟩ := h
  exact ⟨_, hrest⟩

theorem HasAll.tail (h : a.HasAll p id (t :: ts)) : a.HasAll p (id + t.size) ts := by
  obtain ⟨rest, hrest⟩ := h
  refine ⟨rest, ?_⟩
  rw [← List.drop_drop, hrest, Tree.entriesListThen, Tree.drop_entriesThen]

/-! ## Every node of a stretch -/

/-- The node is in the arena with all that is below it. Either it is one of the first, which have the parent given, or its
parent comes before it, though not before `lo`, and lists it. -/
def Rooted (a : Arena) (parent : Option Nat) (firsts : List Nat) (lo j : Nat) : Prop :=
  ∃ e, a.get? j = some e ∧ a.Has e.parent j e.tree ∧
    (j ∈ firsts ∧ e.parent = parent ∨ ∃ p, e.parent = some p ∧ lo ≤ p ∧ p < j ∧ a.Lists p j)

theorem rooted_of_has :
    (∀ (t : Tree) parent id, a.Has parent id t → ∀ j, id ≤ j → j < id + t.size → a.Rooted parent [id] id j) ∧
    ∀ (ts : List Tree) p id, a.HasAll p id ts → ∀ j, id ≤ j → j < id + Tree.sizeList ts →
      a.Rooted (some p) (Tree.numbers id ts) id j := by
  apply Tree.induct
  · intro kind span value data children ih parent id h j hle hlt
    by_cases hj : j = id
    · subst hj
      exact ⟨_, h.get?, h, .inl ⟨List.mem_singleton_self j, rfl⟩⟩
    · rw [Tree.size] at hlt
      obtain ⟨e, he, hhas, ⟨hfirst, hparent⟩ | ⟨p, hparent, hlo, hp, hlists⟩⟩ :=
        ih id (id + 1) h.children j (by omega) (by omega)
      · exact ⟨e, he, hhas, .inr ⟨id, hparent, Nat.le_refl _, by omega, _, h.get?, hfirst⟩⟩
      · exact ⟨e, he, hhas, .inr ⟨p, hparent, by omega, hp, hlists⟩⟩
  · intro p id h j hle hlt
    rw [Tree.sizeList] at hlt
    omega
  · intro t ts iht ihts p id h j hle hlt
    rw [Tree.sizeList] at hlt
    rw [Tree.numbers]
    by_cases hj : j < id + t.size
    · obtain ⟨e, he, hhas, ⟨hfirst, hparent⟩ | hlater⟩ := iht (some p) id h.head j hle hj
      · exact ⟨e, he, hhas, .inl ⟨List.mem_cons.mpr (.inl (List.mem_singleton.mp hfirst)), hparent⟩⟩
      · exact ⟨e, he, hhas, .inr hlater⟩
    · obtain ⟨e, he, hhas, ⟨hfirst, hparent⟩ | ⟨q, hparent, hlo, hq, hlists⟩⟩ :=
        ihts p (id + t.size) h.tail j (by omega) (by omega)
      · exact ⟨e, he, hhas, .inl ⟨List.mem_cons_of_mem _ hfirst, hparent⟩⟩
      · exact ⟨e, he, hhas, .inr ⟨q, hparent, by omega, hq, hlists⟩⟩

/-! ## Children -/

theorem HasAll.of_mem_numbers (h : a.HasAll p id ts) (hj : j ∈ Tree.numbers id ts) :
    ∃ u, a.Has (some p) j u ∧ id ≤ j ∧ j + u.size ≤ id + Tree.sizeList ts := by
  induction ts generalizing id with
  | nil => cases hj
  | cons t ts ih =>
    rw [Tree.sizeList]
    rcases List.mem_cons.mp hj with rfl | hj
    · exact ⟨t, h.head, Nat.le_refl _, by omega⟩
    · obtain ⟨u, hu, hle, hsize⟩ := ih h.tail hj
      exact ⟨u, hu, by omega, by omega⟩

theorem HasAll.trees (h : a.HasAll p id ts) :
    (Tree.numbers id ts).map (fun j => (a.get? j).map (·.tree)) = ts.map some := by
  induction ts generalizing id with
  | nil => rfl
  | cons t ts ih =>
    rw [Tree.numbers, List.map_cons, List.map_cons, ih h.tail, h.head.get?]
    rfl

/-! ## Nodes below a node -/

/-- The stretch of the second node is inside that of the first, and not all of it. -/
def Inside (a : Arena) (i j : Nat) : Prop :=
  ∃ e e', a.get? i = some e ∧ a.get? j = some e' ∧ i < j ∧ j + e'.tree.size ≤ i + e.tree.size

theorem Inside.trans {i k : Nat} (h : a.Inside i j) (h' : a.Inside j k) : a.Inside i k := by
  obtain ⟨e, e₁, he, he₁, hlt, hsize⟩ := h
  obtain ⟨e₂, e', he₂, he', hlt', hsize'⟩ := h'
  cases he₁.symm.trans he₂
  exact ⟨e, e', he, he', by omega, by omega⟩

theorem Has.inside_of_mem_numbers (h : a.Has parent id t) (hj : j ∈ Tree.numbers (id + 1) t.children) :
    a.Inside id j := by
  obtain ⟨u, hu, hle, hsize⟩ := h.children.of_mem_numbers hj
  refine ⟨_, _, h.get?, hu.get?, by omega, ?_⟩
  cases t
  simp only [Tree.size] at hsize ⊢
  omega

theorem Has.below (h : a.Has parent id t) (hlt : id < j) (hsize : j < id + t.size) : a.Below id j := by
  induction j using Nat.strongRecOn with
  | ind j ih =>
    obtain ⟨e, he, -, ⟨hfirst, -⟩ | ⟨q, hparent, hle, hq, -⟩⟩ :=
      rooted_of_has.1 t parent id h j (Nat.le_of_lt hlt) hsize
    · have := List.mem_singleton.mp hfirst
      omega
    · have hstep : a.parent? j = some q := by
        rw [parent?, he]
        exact hparent
      rcases Nat.lt_or_eq_of_le hle with hlt' | rfl
      · exact (ih q hq hlt' (by omega)).tail hstep
      · exact .single hstep

/-! ## The arena of a tree -/

variable {root : Tree} {e : NodeEntry}

theorem size_ofTree (root : Tree) : (ofTree root).entries.size = root.size := by
  have hlength := Tree.length_entriesThen.1 root none 0 []
  simpa [ofTree] using hlength

theorem entry_ofTree (h : (ofTree root).get? j = some e) :
    (ofTree root).Has e.parent j e.tree ∧
      (j = 0 ∧ e.parent = none ∨ ∃ p, e.parent = some p ∧ p < j ∧ (ofTree root).Lists p j) := by
  obtain ⟨hlt, -⟩ := Array.getElem?_eq_some_iff.mp h
  rw [size_ofTree] at hlt
  obtain ⟨e', he', hhas, hcases⟩ := rooted_of_has.1 root none 0 (has_ofTree root) j (Nat.zero_le _) (by omega)
  cases h.symm.trans he'
  refine ⟨hhas, ?_⟩
  rcases hcases with ⟨hfirst, hparent⟩ | ⟨p, hparent, -, hp, hlists⟩
  · exact .inl ⟨List.mem_singleton.mp hfirst, hparent⟩
  · exact .inr ⟨p, hparent, hp, hlists⟩

theorem children_ofTree (h : (ofTree root).get? id = some e) : e.children = Tree.numbers (id + 1) e.tree.children :=
  congrArg NodeEntry.children (Option.some.inj (h.symm.trans (entry_ofTree h).1.get?))

theorem lists_iff (h : (ofTree root).get? id = some e) :
    j ∈ e.children ↔ (ofTree root).parent? j = some id := by
  have hhas := (entry_ofTree h).1
  constructor
  · intro hj
    rw [children_ofTree h] at hj
    obtain ⟨u, hu, -⟩ := hhas.children.of_mem_numbers hj
    rw [parent?, hu.get?]
    rfl
  · intro hparent
    obtain ⟨e', he', hparent⟩ := Option.bind_eq_some_iff.mp hparent
    rcases (entry_ofTree he').2 with ⟨-, hnone⟩ | ⟨p, hsome, -, e₁, he₁, hj⟩
    · rw [hnone] at hparent
      cases hparent
    · cases hsome.symm.trans hparent
      cases he₁.symm.trans h
      exact hj

theorem inside_of_parent (h : (ofTree root).parent? j = some id) : (ofTree root).Inside id j := by
  obtain ⟨e', he', hparent⟩ := Option.bind_eq_some_iff.mp h
  rcases (entry_ofTree he').2 with ⟨-, hnone⟩ | ⟨p, hsome, -, e, he, -⟩
  · rw [hnone] at hparent
    cases hparent
  · cases hsome.symm.trans hparent
    have hj := (lists_iff he).mpr h
    rw [children_ofTree he] at hj
    exact (entry_ofTree he).1.inside_of_mem_numbers hj

/-- **The nodes below a node** follow it, as many as its tree has. -/
theorem below_iff (h : (ofTree root).get? id = some e) :
    (ofTree root).Below id j ↔ id + 1 ≤ j ∧ j ≤ id + e.tree.size - 1 := by
  have hpos := e.tree.size_pos
  constructor
  · intro hbelow
    have hinside : (ofTree root).Inside id j := by
      induction hbelow with
      | single hstep => exact inside_of_parent hstep
      | tail _ hstep ih => exact ih.trans (inside_of_parent hstep)
    obtain ⟨e₁, e', he₁, -, hlt, hsize⟩ := hinside
    cases he₁.symm.trans h
    have := e'.tree.size_pos
    omega
  · rintro ⟨hlow, hhigh⟩
    exact (entry_ofTree h).1.below (by omega) (by omega)

/-! ## One node after the other -/

/-- The arena with one more node, which its parent lists behind its other children. -/
def append (a : Arena) (e : NodeEntry) : Arena :=
  match e.parent with
  | none => ⟨a.entries.push e⟩
  | some p =>
    ⟨(a.entries.modify p fun d => { d with children := d.children ++ [a.entries.size] }).push e⟩

mutual

/-- Registers a tree behind the nodes that are there: its root first, and then one tree below it after the other. The first
span that is no range of the text ends it. -/
def add (text : List Char) (parent : Option Nat) (a : Arena) : Tree → Except TransformError Arena
  | ⟨kind, span, value, data, children⟩ =>
    if validSpan text span then
      addAll text a.entries.size (a.append { tree := ⟨kind, span, value, data, children⟩, parent, children := [] }) children
    else .error (.invalidSpan span (Text.size text))

def addAll (text : List Char) (parent : Nat) (a : Arena) : List Tree → Except TransformError Arena
  | [] => .ok a
  | t :: ts => (add text (some parent) a t).bind fun a => addAll text parent a ts

end

/-- The entries when the node, if there is one, lists more children. -/
def listing (entries : List NodeEntry) (ids : List Nat) : Option Nat → List NodeEntry
  | none => entries
  | some p => entries.modify p fun e => { e with children := e.children ++ ids }

theorem length_listing (entries : List NodeEntry) (ids : List Nat) (parent : Option Nat) :
    (listing entries ids parent).length = entries.length := by
  cases parent <;> simp [listing]

theorem append_eq (a : Arena) (e : NodeEntry) :
    (a.append e).entries.toList = listing a.entries.toList [a.entries.size] e.parent ++ [e] := by
  unfold append listing
  cases e.parent <;> simp

theorem size_append (a : Arena) (e : NodeEntry) : (a.append e).entries.size = a.entries.size + 1 := by
  have hlength := congrArg List.length (a.append_eq e)
  simpa [length_listing] using hlength

theorem listing_nil (entries : List NodeEntry) (p : Nat) : listing entries [] (some p) = entries := by
  simp only [listing, List.append_nil]
  exact List.modify_id p entries

theorem listing_listing (entries : List NodeEntry) (ids ids' : List Nat) (p : Nat) :
    listing (listing entries ids (some p)) ids' (some p) = listing entries (ids ++ ids') (some p) := by
  simp [listing, List.modify_modify_eq, Function.comp_def]

theorem listing_concat {entries : List NodeEntry} {e : NodeEntry} (ids : List Nat) (hid : entries.length = id) :
    listing (entries ++ [e]) ids (some id) = entries ++ [{ e with children := e.children ++ ids }] := by
  subst hid
  rw [listing, List.modify_eq_take_drop]
  simp

theorem listing_of_lt {front back : List NodeEntry} (ids : List Nat) (hp : p < front.length) :
    listing (front ++ back) ids (some p) = listing front ids (some p) ++ back := by
  obtain ⟨x, more, hdrop⟩ := List.exists_cons_of_ne_nil (show front.drop p ≠ [] by simp; omega)
  simp only [listing]
  rw [List.modify_eq_take_drop, List.modify_eq_take_drop, List.take_append_of_le_length (Nat.le_of_lt hp),
    List.drop_append_of_le_length (Nat.le_of_lt hp), hdrop]
  simp

/-- The arena, or what is wrong with the first node whose span is no range of the text. -/
def unlessInvalid (text : List Char) (nodes : List Tree) (entries : List NodeEntry) : Except TransformError Arena :=
  match nodes.find? fun u => !validSpan text u.span with
  | some u => .error (.invalidSpan u.span (Text.size text))
  | none => .ok ⟨entries.toArray⟩

theorem unlessInvalid_of_valid {text : List Char} {u : Tree} (h : validSpan text u.span = true) (nodes : List Tree)
    (entries : List NodeEntry) : unlessInvalid text (u :: nodes) entries = unlessInvalid text nodes entries := by
  simp [unlessInvalid, h]

theorem unlessInvalid_bind {text : List Char} {nodes more : List Tree} {entries entries' : List NodeEntry}
    {next : Arena → Except TransformError Arena} (h : next ⟨entries.toArray⟩ = unlessInvalid text more entries') :
    (unlessInvalid text nodes entries).bind next = unlessInvalid text (nodes ++ more) entries' := by
  unfold unlessInvalid at h ⊢
  rw [List.find?_append]
  cases nodes.find? fun u => !validSpan text u.span with
  | some u => rfl
  | none => exact h

/-- **Nodes that are added** come behind those that are there, in the order of the tree. -/
theorem add_eq (text : List Char) :
    (∀ (t : Tree) parent (a : Arena),
      add text parent a t = unlessInvalid text t.preorder
        (listing a.entries.toList [a.entries.size] parent ++ t.entriesThen parent a.entries.size [])) ∧
    ∀ (ts : List Tree) p (a : Arena), p < a.entries.size →
      addAll text p a ts = unlessInvalid text (ts.flatMap Tree.preorder)
        (listing a.entries.toList (Tree.numbers a.entries.size ts) (some p) ++
          Tree.entriesListThen p a.entries.size ts []) := by
  apply Tree.induct
  · intro kind span value data children ih parent a
    rw [add, Tree.preorder_eq]
    by_cases hvalid : validSpan text span = true
    · rw [if_pos hvalid, unlessInvalid_of_valid hvalid, ih _ _ (by rw [size_append]; omega), size_append, append_eq,
        listing_concat _ (by rw [length_listing]; simp)]
      simp [Tree.entriesThen]
    · rw [if_neg hvalid]
      simp [unlessInvalid, hvalid]
  · intro p a hp
    simp [addAll, unlessInvalid, Tree.numbers, Tree.entriesListThen, listing_nil]
  · intro t ts iht ihts p a hp
    let front := listing a.entries.toList [a.entries.size] (some p)
    let entries := front ++ t.entriesThen (some p) a.entries.size []
    have hfront : front.length = a.entries.size := by simp [front, length_listing]
    have hsize : entries.toArray.size = a.entries.size + t.size := by
      simp [entries, hfront, Tree.length_entriesThen.1]
    have hrest := ihts p ⟨entries.toArray⟩ (show p < entries.toArray.size by omega)
    rw [hsize, List.toList_toArray, listing_of_lt _ (by omega), listing_listing, List.append_assoc,
      ← Tree.entriesThen_eq.1] at hrest
    rw [addAll, iht (some p) a, List.flatMap_cons]
    exact unlessInvalid_bind hrest

/-- **Registering a tree** is registering one node after the other. -/
theorem register_eq_add (text : List Char) (root : Tree) : register text root = add text none ⟨#[]⟩ root := by
  rw [(add_eq text).1 root none ⟨#[]⟩]
  rfl

/-! ## The structure of an arena -/

/-- How a node stands in an arena that no walk has gone through yet. -/
structure InPlace (a : Arena) (i : Nat) (e : NodeEntry) : Prop where
  state : e.state = .registered
  /-- Only the first node has no parent. -/
  parent : e.parent = none ↔ i = 0
  /-- The node lists those that name it as their parent. -/
  listed : ∀ j, j ∈ e.children ↔ a.parent? j = some i
  /-- Its children are those of its tree, in their order. -/
  trees : e.children.map (fun j => (a.get? j).map (·.tree)) = e.tree.children.map some
  ascending : e.children.Pairwise (· < ·)
  later : ∀ j ∈ e.children, i < j
  /-- The nodes below it follow it, as many as its tree has. -/
  below : ∀ j, a.Below i j ↔ i + 1 ≤ j ∧ j ≤ i + e.tree.size - 1

theorem inPlace_ofTree (h : (ofTree root).get? id = some e) : (ofTree root).InPlace id e := by
  obtain ⟨hhas, hparent⟩ := entry_ofTree h
  obtain ⟨hascending, hlater⟩ := Tree.numbers_ascending (id + 1) e.tree.children
  refine ⟨state_of_ofTree h, ?_, fun j => lists_iff h, ?_, ?_, ?_, fun j => below_iff h⟩
  · rcases hparent with ⟨rfl, hnone⟩ | ⟨p, hsome, hp, -⟩
    · simp [hnone]
    · rw [hsome]
      refine iff_of_false (by simp) (by omega)
  · rw [children_ofTree h]
    exact hhas.children.trees
  · rw [children_ofTree h]
    exact hascending
  · rw [children_ofTree h]
    exact hlater

/-- **The structure of an arena.** A tree whose spans are all ranges of the text is registered, and the arena is the one that
comes of registering one node after the other. It has as many nodes as the tree, each before its children, in the order of
the tree, the root as the first. Each node is in its place: it lists just those that name it as their parent, and the nodes
below it are those that follow it, as many as its tree has. -/
theorem register_structure {text : List Char} {root : Tree}
    (hvalid : ∀ u ∈ root.preorder, validSpan text u.span = true) :
    ∃ a, register text root = .ok a ∧ add text none ⟨#[]⟩ root = .ok a ∧ a.entries.size = root.size ∧
      a.entries.toList.map (·.tree) = root.preorder ∧ (∃ e, a.get? 0 = some e ∧ e.tree = root) ∧
      ∀ i e, a.get? i = some e → a.InPlace i e := by
  have hregister : register text root = .ok (ofTree root) := register_eq_ok_iff.mpr ⟨rfl, hvalid⟩
  refine ⟨ofTree root, hregister, (register_eq_add text root).symm.trans hregister, size_ofTree root,
    map_tree_ofTree root, ⟨_, (has_ofTree root).get?, rfl⟩, fun i e h => inPlace_ofTree h⟩

/-- A group of three items, the second of which has two items of its own. -/
theorem register_structure_nested :
    let text := "(1, (2, 3), 4)".toList
    let leaf : Nat → Tree := fun start => { kind := "integer", span := ⟨start, start + 1⟩ }
    let inner : Tree := { kind := "group", span := ⟨4, 10⟩, children := [leaf 5, leaf 8] }
    let outer : Tree := { kind := "group", span := ⟨0, 14⟩, children := [leaf 1, inner, leaf 12] }
    let root : Tree := { kind := "program", span := ⟨0, 14⟩, children := [outer] }
    (∀ u ∈ root.preorder, validSpan text u.span = true) ∧
      ∃ a, register text root = .ok a ∧ a.entries.size = 7 ∧ (∃ e, a.get? 1 = some e ∧ e.children = [2, 3, 6]) ∧
        (a.parent? 4 = some 3) ∧ ∀ j, a.Below 3 j ↔ 4 ≤ j ∧ j ≤ 5 := by
  intro text leaf inner outer root
  have hvalid : ∀ u ∈ root.preorder, validSpan text u.span = true := by decide
  obtain ⟨a, hregister, -, hsize, -, -, hplace⟩ := register_structure hvalid
  obtain ⟨rfl, -⟩ := register_eq_ok_iff.mp hregister
  exact ⟨hvalid, _, hregister, hsize, ⟨_, rfl, rfl⟩, rfl, (hplace 3 _ rfl).below⟩

end Arena

end TreeEdit
