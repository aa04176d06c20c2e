import Mathlib.Data.List.Induction
import Mathlib.Logic.ExistsUnique
import TreeEdit.Proofs.Engine.Numbering

/-!
# Ancestors

A path says to which child to go, one step after the other. It leads to a tree (`Tree.at?`), and it tells the number of that
tree among all nodes, each before its children (`Tree.number?`); neither needs an arena. Every node has just one path
(`existsUnique_path`). The parents that an arena keeps lead back along it (`parent?_of_number?`), so that an ancestor is what
is at the end of a shorter path (`climb_of_number?`).
-/

namespace TreeEdit

namespace Tree

def at? : List Nat → Tree → Option Tree
  | [], t => some t
  | i :: path, t => (t.children[i]?).bind (at? path)

/-- How many nodes come before the one at the end of a path, when each comes before its children. -/
def number? : List Nat → Tree → Option Nat
  | [], _ => some 0
  | i :: path, t => (t.children[i]?).bind fun c => (c.number? path).map (sizeList (t.children.take i) + 1 + ·)

variable {t u : Tree} {ts : List Tree} {path : List Nat} {i j k : Nat}

theorem exists_at?_of_number? (h : t.number? path = some k) : ∃ u, t.at? path = some u := by
  induction path generalizing t k with
  | nil => exact ⟨t, rfl⟩
  | cons i path ih =>
    obtain ⟨c, hc, hk⟩ := Option.bind_eq_some_iff.mp h
    obtain ⟨k', hk', -⟩ := Option.map_eq_some_iff.mp hk
    obtain ⟨u, hu⟩ := ih hk'
    exact ⟨u, by rw [at?, hc]; exact hu⟩

theorem exists_number?_of_append {more : List Nat} (h : t.number? (path ++ more) = some j) : ∃ k, t.number? path = some k := by
  induction path generalizing t j with
  | nil => exact ⟨0, rfl⟩
  | cons i path ih =>
    obtain ⟨c, hc, hj⟩ := Option.bind_eq_some_iff.mp h
    obtain ⟨j', hj', -⟩ := Option.map_eq_some_iff.mp hj
    obtain ⟨k, hk⟩ := ih hj'
    exact ⟨_, by rw [number?, hc, Option.bind_some, hk]; rfl⟩

theorem number?_concat (h : t.number? (path ++ [i]) = some j) :
    ∃ k u c, t.number? path = some k ∧ t.at? path = some u ∧ u.children[i]? = some c ∧
      j = k + 1 + sizeList (u.children.take i) ∧ t.at? (path ++ [i]) = some c := by
  induction path generalizing t j with
  | nil =>
    obtain ⟨c, hc, hj⟩ := Option.bind_eq_some_iff.mp h
    obtain ⟨k, hk, rfl⟩ := Option.map_eq_some_iff.mp hj
    cases hk
    refine ⟨0, t, c, rfl, rfl, hc, by omega, ?_⟩
    rw [List.nil_append, at?, hc]
    rfl
  | cons first path ih =>
    obtain ⟨d, hd, hj⟩ := Option.bind_eq_some_iff.mp h
    obtain ⟨j', hj', rfl⟩ := Option.map_eq_some_iff.mp hj
    obtain ⟨k, u, c, hk, hu, hc, rfl, hat⟩ := ih hj'
    refine ⟨sizeList (t.children.take first) + 1 + k, u, c, ?_, ?_, hc, by omega, ?_⟩
    · rw [number?, hd, Option.bind_some, hk]
      rfl
    · rw [at?, hd]
      exact hu
    · rw [List.cons_append, at?, hd]
      exact hat

theorem number?_child (hk : t.number? path = some k) (hu : t.at? path = some u) (hi : i < u.children.length) :
    t.number? (path ++ [i]) = some (k + 1 + sizeList (u.children.take i)) := by
  induction path generalizing t k with
  | nil =>
    cases hk
    cases hu
    rw [List.nil_append, number?, List.getElem?_eq_getElem hi]
    simp only [Option.bind_some, number?, Option.map_some]
    congr 1
    omega
  | cons first path ih =>
    obtain ⟨d, hd, hk⟩ := Option.bind_eq_some_iff.mp hk
    obtain ⟨k', hk', rfl⟩ := Option.map_eq_some_iff.mp hk
    rw [at?, hd] at hu
    rw [List.cons_append, number?, hd, Option.bind_some, ih hk' hu]
    simp only [Option.map_some]
    congr 1
    omega

theorem mem_numbers {id : Nat} :
    j ∈ numbers id ts ↔ ∃ i, i < ts.length ∧ j = id + sizeList (ts.take i) := by
  induction ts generalizing id with
  | nil => simp [numbers]
  | cons t ts ih =>
    rw [numbers, List.mem_cons, ih]
    constructor
    · rintro (rfl | ⟨i, hi, rfl⟩)
      · exact ⟨0, by simp, by simp [sizeList]⟩
      · refine ⟨i + 1, by simpa using hi, ?_⟩
        rw [List.take_succ_cons, sizeList]
        omega
    · rintro ⟨i, hi, rfl⟩
      cases i with
      | zero => exact .inl (by simp [sizeList])
      | succ i =>
        refine .inr ⟨i, by simpa using hi, ?_⟩
        rw [List.take_succ_cons, sizeList]
        omega

theorem sizeList_take_injective (hi : i < ts.length) (hj : j < ts.length)
    (h : sizeList (ts.take i) = sizeList (ts.take j)) : i = j := by
  induction ts generalizing i j with
  | nil => cases hi
  | cons t ts ih =>
    have := t.size_pos
    cases i with
    | zero =>
      cases j with
      | zero => rfl
      | succ j =>
        rw [List.take_zero, List.take_succ_cons, sizeList, sizeList] at h
        omega
    | succ i =>
      cases j with
      | zero =>
        rw [List.take_zero, List.take_succ_cons, sizeList, sizeList] at h
        omega
      | succ j =>
        rw [List.take_succ_cons, List.take_succ_cons, sizeList, sizeList] at h
        have hij := ih (Nat.lt_of_succ_lt_succ hi) (Nat.lt_of_succ_lt_succ hj) (by omega)
        rw [hij]

end Tree

namespace Arena

variable {a b : Arena} {root u : Tree} {path : List Nat} {i k n p v w : Nat}

/-! ## Parents along a path -/

theorem HasAll.getElem? {ts : List Tree} {c : Tree} {id : Nat} (h : a.HasAll p id ts) (hc : ts[i]? = some c) :
    a.Has (some p) (id + Tree.sizeList (ts.take i)) c := by
  induction ts generalizing id i with
  | nil => cases hc
  | cons t ts ih =>
    cases i with
    | zero =>
      cases hc
      exact h.head
    | succ i =>
      have htail := ih h.tail hc
      rw [List.take_succ_cons, Tree.sizeList, ← Nat.add_assoc]
      exact htail

theorem has_of_number? (hk : root.number? path = some k) (hu : root.at? path = some u) :
    ∃ parent, (ofTree root).Has parent k u := by
  induction path using List.reverseRecOn generalizing k u with
  | nil =>
    cases hk
    cases hu
    exact ⟨none, has_ofTree root⟩
  | append_singleton path i ih =>
    obtain ⟨k', u', c, hk', hu', hc, rfl, hat⟩ := Tree.number?_concat hk
    cases hat.symm.trans hu
    obtain ⟨parent, hhas⟩ := ih hk' hu'
    exact ⟨_, hhas.children.getElem? hc⟩

theorem parent?_root : (ofTree root).parent? 0 = none := by
  rw [parent?, (has_ofTree root).get?]
  rfl

theorem parent?_of_number? (h : root.number? (path ++ [i]) = some v) :
    ∃ k, root.number? path = some k ∧ (ofTree root).parent? v = some k := by
  obtain ⟨k, u, c, hk, hu, hc, rfl, -⟩ := Tree.number?_concat h
  obtain ⟨parent, hhas⟩ := has_of_number? hk hu
  refine ⟨k, hk, ?_⟩
  rw [parent?, (hhas.children.getElem? hc).get?]
  rfl

/-- **Climbing goes back along the path**, and past its beginning there is nothing. -/
theorem climb_of_number? (h : root.number? path = some v) (n : Nat) :
    (ofTree root).climb v n = if n ≤ path.length then root.number? (path.take (path.length - n)) else none := by
  induction n generalizing path v with
  | zero => simp [climb, h]
  | succ n ih =>
    rw [climb]
    cases path using List.reverseRecOn with
    | nil =>
      cases h
      rw [parent?_root]
      simp
    | append_singleton path i =>
      obtain ⟨k, hk, hparent⟩ := parent?_of_number? h
      have hlength : (path ++ [i]).length = path.length + 1 := by simp
      have htake : (path ++ [i]).take (path.length + 1 - (n + 1)) = path.take (path.length - n) := by
        rw [Nat.add_sub_add_right, List.take_append_of_le_length (Nat.sub_le _ _)]
      simp only [hparent, ih hk, hlength, htake, Nat.add_le_add_iff_right]

/-! ## Every node has one path -/

theorem exists_path (h : v < root.size) : ∃ path, root.number? path = some v := by
  induction v using Nat.strongRecOn with
  | ind v ih =>
    obtain ⟨e, he⟩ : ∃ e, (ofTree root).get? v = some e := by
      rw [← size_ofTree root] at h
      exact ⟨_, Array.getElem?_eq_getElem h⟩
    rcases (entry_ofTree he).2 with ⟨rfl, -⟩ | ⟨p, -, hp, e', he', hmem⟩
    · exact ⟨[], rfl⟩
    · obtain ⟨path, hpath⟩ := ih p hp (by omega)
      obtain ⟨u, hu⟩ := Tree.exists_at?_of_number? hpath
      obtain ⟨parent, hhas⟩ := has_of_number? hpath hu
      have htree : e'.tree = u := congrArg NodeEntry.tree (Option.some.inj (he'.symm.trans hhas.get?))
      rw [children_ofTree he', htree] at hmem
      obtain ⟨i, hi, rfl⟩ := Tree.mem_numbers.mp hmem
      exact ⟨path ++ [i], Tree.number?_child hpath hu hi⟩

theorem path_unique {path' : List Nat} (h : root.number? path = some v) (h' : root.number? path' = some v) :
    path = path' := by
  induction path using List.reverseRecOn generalizing path' v with
  | nil =>
    cases h
    cases path' using List.reverseRecOn with
    | nil => rfl
    | append_singleton path' i =>
      obtain ⟨k, u, c, -, -, -, hv, -⟩ := Tree.number?_concat h'
      omega
  | append_singleton path i ih =>
    obtain ⟨k, u, c, hk, hu, hc, hv, -⟩ := Tree.number?_concat h
    cases path' using List.reverseRecOn with
    | nil =>
      cases h'
      omega
    | append_singleton path' j =>
      obtain ⟨k₁, hk₁, hparent₁⟩ := parent?_of_number? h
      obtain ⟨k₂, hk₂, hparent₂⟩ := parent?_of_number? h'
      cases hparent₁.symm.trans hparent₂
      obtain rfl := ih hk₁ hk₂
      obtain ⟨k', u', c', hk', hu', hc', hv', -⟩ := Tree.number?_concat h'
      cases hk.symm.trans hk'
      cases hu.symm.trans hu'
      have hi := (List.getElem?_eq_some_iff.mp hc).1
      have hj := (List.getElem?_eq_some_iff.mp hc').1
      rw [Tree.sizeList_take_injective hi hj (by omega)]

theorem existsUnique_path (h : v < root.size) : ∃! path, root.number? path = some v := by
  obtain ⟨path, hpath⟩ := exists_path h
  exact ⟨path, hpath, fun _ hpath' => path_unique hpath' hpath⟩

/-! ## Climbing and stretches -/

theorem climb_add (a : Arena) (v m n : Nat) : a.climb v (m + n) = (a.climb v m).bind (a.climb · n) := by
  induction m generalizing v with
  | zero => rw [Nat.zero_add, climb, Option.bind_some]
  | succ m ih =>
    rw [Nat.succ_add, climb, climb]
    cases a.parent? v with
    | none => rfl
    | some p => exact ih p

theorem exists_climb_iff_below : (∃ n, 1 ≤ n ∧ a.climb v n = some w) ↔ a.Below w v := by
  constructor
  · rintro ⟨n, hn, hclimb⟩
    induction n generalizing v with
    | zero => omega
    | succ n ih =>
      rw [climb] at hclimb
      cases hparent : a.parent? v with
      | none => simp [hparent] at hclimb
      | some p =>
        simp only [hparent] at hclimb
        cases n with
        | zero =>
          cases hclimb
          exact .single hparent
        | succ n => exact (ih (by omega) hclimb).tail hparent
  · intro hbelow
    induction hbelow with
    | single hparent => exact ⟨1, Nat.le_refl 1, by simp only [climb, hparent]⟩
    | tail _ hparent ih =>
      obtain ⟨n, hn, hclimb⟩ := ih
      exact ⟨n + 1, by omega, by simp only [climb, hparent, hclimb]⟩

/-- The stretch of numbers that the first node takes up, with all that is below it, has the second. -/
def Covers (a : Arena) (w v : Nat) : Prop :=
  ∃ u, (a.get? w).map (·.tree) = some u ∧ w ≤ v ∧ v < w + u.size

theorem exists_climb_iff_covers :
    (∃ n, 1 ≤ n ∧ (ofTree root).climb v n = some w) ↔ w ≠ v ∧ (ofTree root).Covers w v := by
  rw [exists_climb_iff_below]
  constructor
  · intro hbelow
    obtain ⟨e, he⟩ : ∃ e, (ofTree root).get? w = some e := by
      obtain ⟨p, hparent, -⟩ := Relation.TransGen.head'_iff.mp hbelow
      obtain ⟨e, -, he, -⟩ := inside_of_parent hparent
      exact ⟨e, he⟩
    have := e.tree.size_pos
    have := (below_iff he).mp hbelow
    exact ⟨by omega, e.tree, by rw [he]; rfl, by omega, by omega⟩
  · rintro ⟨hne, u, hu, hle, hlt⟩
    obtain ⟨e, he, rfl⟩ := Option.map_eq_some_iff.mp hu
    exact (below_iff he).mpr ⟨by omega, by omega⟩

/-- **A path goes through the nodes whose stretch has its end.** -/
theorem exists_prefix_iff_covers (h : root.number? path = some v) :
    (∃ q, q <+: path ∧ root.number? q = some w) ↔ (ofTree root).Covers w v := by
  by_cases hne : w = v
  · subst hne
    obtain ⟨u, hu⟩ := Tree.exists_at?_of_number? h
    obtain ⟨parent, hhas⟩ := has_of_number? h hu
    have hcovers : (ofTree root).Covers w w :=
      ⟨u, by rw [hhas.get?]; rfl, Nat.le_refl w, Nat.lt_add_of_pos_right u.size_pos⟩
    exact iff_of_true ⟨path, List.prefix_refl path, h⟩ hcovers
  · have hcovers := @exists_climb_iff_covers root v w
    rw [and_iff_right hne] at hcovers
    rw [← hcovers]
    constructor
    · rintro ⟨q, hfront, hq⟩
      have hlength : q.length ≤ path.length := hfront.length_le
      have hshorter : q.length ≠ path.length := by
        intro heq
        rw [hfront.eq_of_length heq, h] at hq
        exact hne (Option.some.inj hq).symm
      refine ⟨path.length - q.length, by omega, ?_⟩
      rw [climb_of_number? h, if_pos (Nat.sub_le _ _), Nat.sub_sub_self hlength, ← List.prefix_iff_eq_take.mp hfront, hq]
    · rintro ⟨n, -, hclimb⟩
      rw [climb_of_number? h] at hclimb
      split at hclimb
      · exact ⟨_, List.take_prefix _ _, hclimb⟩
      · cases hclimb

/-! ## Nodes that have been moved on -/

/-- The arena when some nodes have been moved on, one after the other. -/
def moved (a : Arena) (moves : List (Nat × NodeState)) : Arena :=
  moves.foldl (fun a m => a.advance m.1 m.2) a

theorem get?_moved (a : Arena) (moves : List (Nat × NodeState)) (id : Nat) :
    ((a.moved moves).get? id).map (fun e => (e.tree, e.parent)) = (a.get? id).map fun e => (e.tree, e.parent) := by
  induction moves generalizing a with
  | nil => rfl
  | cons m moves ih =>
    rw [moved, List.foldl_cons]
    refine (ih (a.advance m.1 m.2)).trans ?_
    rw [get?_advance]
    split
    · rw [Option.map_map]
      rfl
    · rfl

theorem tree_moved (a : Arena) (moves : List (Nat × NodeState)) (id : Nat) :
    ((a.moved moves).get? id).map (·.tree) = (a.get? id).map (·.tree) := by
  have hkept := congrArg (Option.map Prod.fst) (a.get?_moved moves id)
  rwa [Option.map_map, Option.map_map] at hkept

theorem parent?_moved (a : Arena) (moves : List (Nat × NodeState)) : (a.moved moves).parent? = a.parent? := by
  funext id
  have hkept := congrArg (Option.bind · Prod.snd) (a.get?_moved moves id)
  rwa [Option.bind_map, Option.bind_map] at hkept

theorem climb_moved (a : Arena) (moves : List (Nat × NodeState)) : (a.moved moves).climb = a.climb := by
  funext id n
  induction n generalizing id with
  | zero => rfl
  | succ n ih =>
    rw [climb, climb, parent?_moved]
    cases a.parent? id with
    | none => rfl
    | some p => exact ih p

theorem ancestor_moved (a : Arena) (moves : List (Nat × NodeState)) : (a.moved moves).ancestor = a.ancestor := by
  funext id n
  rw [ancestor, ancestor, climb_moved]

theorem covers_moved (a : Arena) (moves : List (Nat × NodeState)) : (a.moved moves).Covers = a.Covers := by
  funext w v
  rw [Covers, Covers, tree_moved]

/-! ## Ancestors -/

/-- What is above the node at the end of a path. -/
structure Above (a : Arena) (root : Tree) (path : List Nat) (v : Nat) : Prop where
  /-- The arena has the node at the end of the path under its number. -/
  node : ∃ u, root.at? path = some u ∧ (a.get? v).map (·.tree) = some u
  /-- Each generation up, and at least one, is one step back on the path. -/
  up : ∀ n, a.ancestor v n = if max n 1 ≤ path.length then root.number? (path.take (path.length - max n 1)) else none
  past : ∀ n, a.ancestor v n = none ↔ path.length < max n 1
  /-- The ancestors of an ancestor are ancestors. -/
  add : ∀ m n, 1 ≤ m → 1 ≤ n → a.ancestor v (m + n) = (a.ancestor v m).bind (a.ancestor · n)
  /-- The path goes through the nodes that cover its end. -/
  through : ∀ w, (∃ q, q <+: path ∧ root.number? q = some w) ↔ a.Covers w v
  /-- The ancestors are the other nodes that cover the node. -/
  ancestors : ∀ w, (∃ n, 1 ≤ n ∧ a.ancestor v n = some w) ↔ w ≠ v ∧ a.Covers w v
  /-- A run that works on the arena answers with the nodes of these numbers. -/
  answers : ∀ r : Run, r.arena = a → ∀ n,
    r.ancestor v n = (a.ancestor v n).bind fun w => (root.preorder[w]?).map fun u => ⟨r.id, w, u, r.key⟩

theorem above_of_number? (h : root.number? path = some v) (moves : List (Nat × NodeState)) :
    ((ofTree root).moved moves).Above root path v := by
  have hup : ∀ n, (ofTree root).ancestor v n =
      if max n 1 ≤ path.length then root.number? (path.take (path.length - max n 1)) else none :=
    fun n => climb_of_number? h (max n 1)
  refine ⟨?node, fun n => ?up, fun n => ?past, fun m n hm hn => ?add, fun w => ?through, fun w => ?ancestors,
    fun r hr n => ?answers⟩
  case node =>
    obtain ⟨u, hu⟩ := Tree.exists_at?_of_number? h
    obtain ⟨parent, hhas⟩ := has_of_number? h hu
    exact ⟨u, hu, by rw [tree_moved, hhas.get?]; rfl⟩
  case up => rw [ancestor_moved, hup]
  case past =>
    rw [ancestor_moved, hup]
    split
    · rename_i hle
      rw [← List.take_append_drop (path.length - max n 1) path] at h
      obtain ⟨k, hk⟩ := Tree.exists_number?_of_append h
      rw [hk]
      exact iff_of_false (by simp) (by omega)
    · rename_i hlt
      exact iff_of_true rfl (by omega)
  case add =>
    have hmax : max (m + n) 1 = max m 1 + max n 1 := by omega
    rw [ancestor_moved, ancestor, hmax]
    exact climb_add _ v _ _
  case through =>
    rw [covers_moved]
    exact exists_prefix_iff_covers h
  case ancestors =>
    have hancestor : ∀ n, 1 ≤ n → (ofTree root).ancestor v n = (ofTree root).climb v n := by
      intro n hn
      rw [ancestor, Nat.max_eq_left hn]
    rw [ancestor_moved, covers_moved, ← exists_climb_iff_covers]
    constructor
    · rintro ⟨n, hn, hw⟩
      exact ⟨n, hn, by rwa [← hancestor n hn]⟩
    · rintro ⟨n, hn, hw⟩
      exact ⟨n, hn, by rwa [hancestor n hn]⟩
  case answers =>
    have href : ∀ w, r.ref? w = (root.preorder[w]?).map fun u => ⟨r.id, w, u, r.key⟩ := by
      intro w
      have htree : (r.arena.get? w).map (·.tree) = root.preorder[w]? := by
        rw [hr, tree_moved, ← map_tree_ofTree, List.getElem?_map, Array.getElem?_toList]
        rfl
      rw [Run.ref?, ← htree, Option.map_map]
      rfl
    rw [Run.ancestor, hr]
    exact congrArg _ (funext href)

/-- **Ancestors.** Every node of a registered tree has one path, and its ancestors are what the path goes through: as many
generations up as there are steps back, no generation counting as one, and none past the beginning of the path. The ancestors
of an ancestor are ancestors, and all of them together are the other nodes whose trees have the node. This holds however far a
run has come with the nodes. -/
theorem ancestors_retrace_path {text : List Char} {root : Tree} {a : Arena} (h : register text root = .ok a)
    (moves : List (Nat × NodeState)) :
    a.entries.size = root.size ∧ (∀ v < root.size, ∃! path, root.number? path = some v) ∧
      ∀ path v, root.number? path = some v → (a.moved moves).Above root path v := by
  obtain ⟨rfl, -⟩ := register_eq_ok_iff.mp h
  exact ⟨size_ofTree root, fun v hv => existsUnique_path hv, fun path v hv => above_of_number? hv moves⟩

/-- The first item of a group inside a group, while it is its turn. -/
theorem ancestors_retrace_path_nested :
    let text := "(1, (2, 3), 4)".toList
    let leaf : Nat → Tree := fun start => { kind := "integer", span := ⟨start, start + 1⟩ }
    let inner : Tree := { kind := "group", span := ⟨4, 10⟩, children := [leaf 5, leaf 8] }
    let outer : Tree := { kind := "group", span := ⟨0, 14⟩, children := [leaf 1, inner, leaf 12] }
    let root : Tree := { kind := "program", span := ⟨0, 14⟩, children := [outer] }
    ∃ a, register text root = .ok a ∧ root.number? [0, 1, 0] = some 4 ∧
      let now := a.moved [(2, .handled), (4, .running)]
      [0, 1, 2, 3, 4].map (now.ancestor 4) = [some 3, some 3, some 1, some 0, none] ∧
        ∀ w, (∃ n, 1 ≤ n ∧ now.ancestor 4 n = some w) ↔ w ≠ 4 ∧ now.Covers w 4 := by
  intro text leaf inner outer root
  have hregister : register text root = .ok (ofTree root) := register_eq_ok_iff.mpr ⟨rfl, by decide⟩
  have habove := (ancestors_retrace_path hregister [(2, .handled), (4, .running)]).2.2 [0, 1, 0] 4 rfl
  refine ⟨_, hregister, rfl, ?_, habove.ancestors⟩
  simp only [List.map_cons, List.map_nil, habove.up]
  rfl

end Arena

end TreeEdit
