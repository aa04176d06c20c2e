import TreeEdit.Arena

/-!
# The nodes of a registered tree

The entries of an arena are the nodes of its tree, each before its children (`map_tree_ofTree`), none of
which has been reached yet (`state_of_ofTree`). A tree is registered just when the spans of all its nodes
are ranges of the text (`register_eq_ok_iff`). Moving a node on changes the state of that node and nothing
else (`get?_advance`).
-/

namespace TreeEdit

namespace Tree

theorem induct {P : Tree → Prop} {Q : List Tree → Prop}
    (node : ∀ kind span value data children, Q children → P ⟨kind, span, value, data, children⟩)
    (nil : Q []) (cons : ∀ t ts, P t → Q ts → Q (t :: ts)) : (∀ t, P t) ∧ ∀ ts, Q ts := by
  have htree : ∀ t, P t := @Tree.rec P Q node nil cons
  refine ⟨htree, fun ts => ?_⟩
  induction ts with
  | nil => exact nil
  | cons t ts ih => exact cons t ts (htree t) ih

theorem preorderThen_eq :
    (∀ (t : Tree) rest, t.preorderThen rest = t.preorder ++ rest) ∧
    ∀ (ts : List Tree) rest, preorderListThen ts rest = ts.flatMap preorder ++ rest := by
  apply induct
  · intro kind span value data children ih rest
    rw [preorder, preorderThen, preorderThen, ih, ih []]
    simp
  · intro rest
    rfl
  · intro t ts iht ihts rest
    rw [preorderListThen, iht, ihts]
    simp

theorem preorder_eq (t : Tree) : t.preorder = t :: t.children.flatMap preorder := by
  obtain ⟨kind, span, value, data, children⟩ := t
  rw [preorder, preorderThen, preorderThen_eq.2, List.append_nil]

theorem forall_mem_preorder {P : Tree → Prop} {t : Tree} (ht : P t)
    (hchildren : ∀ c ∈ t.children, ∀ u ∈ c.preorder, P u) : ∀ u ∈ t.preorder, P u := by
  intro u hu
  rw [preorder_eq] at hu
  rcases List.mem_cons.mp hu with rfl | hu
  · exact ht
  · obtain ⟨c, hc, hu⟩ := List.mem_flatMap.mp hu
    exact hchildren c hc u hu

theorem map_tree_entries :
    (∀ (t : Tree) parent id rest,
      (t.entriesThen parent id rest).map (·.tree) = t.preorderThen (rest.map (·.tree))) ∧
    ∀ (ts : List Tree) parent id rest,
      (entriesListThen parent id ts rest).map (·.tree) = preorderListThen ts (rest.map (·.tree)) := by
  apply induct
  · intro kind span value data children ih parent id rest
    simp only [entriesThen, preorderThen, List.map_cons, ih]
  · intro parent id rest
    rfl
  · intro t ts iht ihts parent id rest
    simp only [entriesListThen, preorderListThen, iht, ihts]

theorem state_entries :
    (∀ (t : Tree) parent id rest, ∀ e ∈ t.entriesThen parent id rest,
      e.state = .registered ∨ e ∈ rest) ∧
    ∀ (ts : List Tree) parent id rest, ∀ e ∈ entriesListThen parent id ts rest,
      e.state = .registered ∨ e ∈ rest := by
  apply induct
  · intro kind span value data children ih parent id rest e he
    rw [entriesThen, List.mem_cons] at he
    rcases he with rfl | he
    · exact .inl rfl
    · exact ih _ _ _ e he
  · intro parent id rest e he
    exact .inr he
  · intro t ts iht ihts parent id rest e he
    rw [entriesListThen] at he
    rcases iht _ _ _ e he with h | h
    · exact .inl h
    · exact ihts _ _ _ e h

end Tree

namespace Arena

theorem map_tree_ofTree (t : Tree) : (ofTree t).entries.toList.map (·.tree) = t.preorder := by
  rw [ofTree, Tree.preorder, Tree.map_tree_entries.1]
  rfl

theorem state_of_ofTree {t : Tree} {id : Nat} {e : NodeEntry} (h : (ofTree t).get? id = some e) :
    e.state = .registered := by
  have hmem : e ∈ t.entriesThen none 0 [] := by
    simpa [ofTree] using Array.mem_of_getElem? h
  rcases Tree.state_entries.1 t none 0 [] e hmem with hs | hs
  · exact hs
  · cases hs

theorem tree_of_ofTree {t : Tree} {id : Nat} {e : NodeEntry} (h : (ofTree t).get? id = some e) :
    t.preorder[id]? = some e.tree := by
  rw [← map_tree_ofTree, List.getElem?_map, Array.getElem?_toList, ← get?, h]
  rfl

theorem exists_of_preorder {t u : Tree} {id : Nat} (h : t.preorder[id]? = some u) :
    ∃ e, (ofTree t).get? id = some e ∧ e.tree = u := by
  rw [← map_tree_ofTree, List.getElem?_map, Array.getElem?_toList, ← get?] at h
  exact Option.map_eq_some_iff.mp h

theorem register_eq_ok_iff {text : List Char} {t : Tree} {a : Arena} :
    register text t = .ok a ↔ a = ofTree t ∧ ∀ u ∈ t.preorder, validSpan text u.span = true := by
  rw [register]
  split
  · rename_i u hu
    refine ⟨fun h => (nomatch h), fun h => ?_⟩
    have := List.find?_some hu
    rw [h.2 u (List.mem_of_find?_eq_some hu)] at this
    cases this
  · rename_i hnone
    rw [List.find?_eq_none] at hnone
    refine ⟨fun h => ⟨(Except.ok.inj h).symm, fun u hu => ?_⟩, fun h => by rw [h.1]⟩
    simpa using hnone u hu

theorem validSpan_of_register {text : List Char} {t : Tree} {a : Arena} (h : register text t = .ok a)
    {id : Nat} {e : NodeEntry} (he : a.get? id = some e) : validSpan text e.tree.span = true := by
  obtain ⟨rfl, hvalid⟩ := register_eq_ok_iff.mp h
  exact hvalid _ (List.mem_of_getElem? (tree_of_ofTree he))

theorem get?_advance (a : Arena) (id : Nat) (state : NodeState) (j : Nat) :
    (a.advance id state).get? j =
      if id = j then (a.get? j).map fun e => { e with state := e.state.later state } else a.get? j := by
  rw [get?, advance, Array.getElem?_modify]
  rfl

theorem tree_of_get?_advance {a : Arena} {id j : Nat} {state : NodeState} {e : NodeEntry}
    (h : (a.advance id state).get? j = some e) : ∃ d, a.get? j = some d ∧ e.tree = d.tree := by
  rw [get?_advance] at h
  split at h
  · obtain ⟨d, hd, rfl⟩ := Option.map_eq_some_iff.mp h
    exact ⟨d, hd, rfl⟩
  · exact ⟨e, h, rfl⟩

end Arena

end TreeEdit
