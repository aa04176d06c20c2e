import TreeEdit.Proofs.Engine.Postorder
import Mathlib.Data.List.Induction

/-!
# The states that a walk leaves behind

The nodes of a run come to be in states by the steps of its walk (`Arena.after`, `state?_after`). By the turn
of a node the walk has gone down to the nodes above it and to those that had their turns, and to no others
(`entered_iff`). So the state of every node is known in the turn of every other (`states_of_turn`).
-/

namespace TreeEdit

/-! ## What a walk has done by the turn of a node -/

def Node.below (u : Node) : List Node :=
  Tree.postorderList u.run u.key (u.id + 1) u.tree.children

@[simp] theorem visits_nil : visits [] = [] := rfl

@[simp] theorem visits_append (xs ys : List WalkStep) : visits (xs ++ ys) = visits xs ++ visits ys :=
  List.filterMap_append

theorem mem_visits {n : Node} {steps : List WalkStep} : n ∈ visits steps ↔ .visit n ∈ steps := by
  rw [visits, List.mem_filterMap]
  constructor
  · rintro ⟨step, hstep, heq⟩
    cases step with
    | enter _ => cases heq
    | visit _ => cases heq; exact hstep
  · exact fun h => ⟨_, h, rfl⟩

namespace Tree

variable {run : RunId} {key : TreeKey}

theorem planThen_append :
    (∀ (t : Tree) id rest, t.planThen run key id rest = t.planThen run key id [] ++ rest) ∧
    ∀ (ts : List Tree) id rest,
      planListThen run key id ts rest = planListThen run key id ts [] ++ rest := by
  apply induct
  · intro kind span value data children ih id rest
    rw [planThen, planThen, ih, ih _ [_]]
    simp
  · intro id rest
    rfl
  · intro t ts iht ihts id rest
    rw [planListThen, planListThen, iht, ihts, iht _ (planListThen run key _ ts [])]
    simp

theorem run_of_mem_postorder :
    (∀ (t : Tree) id, ∀ n ∈ t.postorder run key id, n.run = run ∧ n.key = key) ∧
    ∀ (ts : List Tree) id, ∀ n ∈ postorderList run key id ts, n.run = run ∧ n.key = key := by
  apply induct
  · intro kind span value data children ih id n hn
    rw [postorder, List.mem_append, List.mem_singleton] at hn
    rcases hn with hn | rfl
    · exact ih _ n hn
    · exact ⟨rfl, rfl⟩
  · intro id n hn
    cases hn
  · intro t ts iht ihts id n hn
    rw [postorderList, List.mem_append] at hn
    rcases hn with hn | hn
    · exact iht _ n hn
    · exact ihts _ n hn

theorem nodup_postorder (t : Tree) (id : Nat) : (t.postorder run key id).Nodup := by
  refine (postorder_pairwise.1 t id).imp fun {u v} h heq => ?_
  have := u.tree.size_pos
  rw [heq] at h this
  omega

theorem eq_of_id_eq {t : Tree} {u v : Node} (hu : u ∈ t.postorder run key 0)
    (hv : v ∈ t.postorder run key 0) (hid : u.id = v.id) : u = v := by
  obtain ⟨hur, huk⟩ := run_of_mem_postorder.1 t 0 u hu
  obtain ⟨hvr, hvk⟩ := run_of_mem_postorder.1 t 0 v hv
  have htree : some u.tree = some v.tree := by
    rw [← getElem?_preorder hu, ← getElem?_preorder hv, hid]
  cases u
  cases v
  simp_all

theorem node_of_mem_planThen :
    (∀ (t : Tree) id, ∀ step ∈ t.planThen run key id [], step.node ∈ t.postorder run key id) ∧
    ∀ (ts : List Tree) id, ∀ step ∈ planListThen run key id ts [],
      step.node ∈ postorderList run key id ts := by
  apply induct
  · intro kind span value data children ih id step hstep
    rw [planThen, planThen_append.2] at hstep
    rw [postorder]
    simp only [List.mem_cons, List.mem_append, List.not_mem_nil, or_false] at hstep ⊢
    rcases hstep with rfl | hstep | rfl
    · exact .inr rfl
    · exact .inl (ih _ step hstep)
    · exact .inr rfl
  · intro id step hstep
    cases hstep
  · intro t ts iht ihts id step hstep
    rw [planListThen, planThen_append.1, List.mem_append] at hstep
    rw [postorderList, List.mem_append]
    exact hstep.imp (iht _ step) (ihts _ step)

/-- **By the turn of a node** the walk has gone down to the nodes above it, and to no other node that has
not had its turn. -/
theorem entered_iff :
    (∀ (t : Tree) id past v ahead, t.planThen run key id [] = past ++ .visit v :: ahead →
      ∀ u ∈ t.postorder run key id, u ∉ visits past → u ≠ v → (.enter u ∈ past ↔ v ∈ u.below)) ∧
    ∀ (ts : List Tree) id past v ahead, planListThen run key id ts [] = past ++ .visit v :: ahead →
      ∀ u ∈ postorderList run key id ts, u ∉ visits past → u ≠ v → (.enter u ∈ past ↔ v ∈ u.below) := by
  apply induct
  · intro kind span value data children ih id past v ahead heq u hu hdone hne
    rw [planThen, planThen_append.2] at heq
    cases past with
    | nil => cases heq
    | cons step past =>
      obtain ⟨rfl, htail⟩ := List.cons.inj heq
      rw [visits_enter] at hdone
      rw [postorder, List.mem_append, List.mem_singleton] at hu
      rcases append_eq_append_cons htail with ⟨ahead', hbelow⟩ | ⟨past', hpast, hlast⟩
      · have hv : v ∈ postorderList run key (id + 1) children :=
          node_of_mem_planThen.2 children _ (.visit v) (by rw [hbelow]; simp)
        rcases hu with hu | rfl
        · have hroot : u ≠ ⟨run, id, ⟨kind, span, value, data, children⟩, key⟩ := by
            rintro rfl
            have := id_of_mem_postorder.2 children _ _ hu
            simp only at this
            omega
          rw [List.mem_cons, WalkStep.enter.injEq, or_iff_right hroot]
          exact ih _ past v ahead' hbelow u hu hdone hne
        · exact ⟨fun _ => hv, fun _ => List.mem_cons_self⟩
      · -- it is the turn of the root, and all below it had theirs
        rw [List.singleton_eq_append_iff] at hlast
        rcases hlast with ⟨rfl, hlast⟩ | ⟨-, hlast⟩
        · rw [List.append_nil] at hpast
          rcases hu with hu | rfl
          · rw [hpast, visits_planThen.2] at hdone
            exact absurd (List.mem_append_left _ hu) hdone
          · cases hlast
            exact absurd rfl hne
        · cases hlast
  · intro id past v ahead heq
    simp [planListThen] at heq
  · intro t ts iht ihts id past v ahead heq u hu hdone hne
    rw [planListThen, planThen_append.1] at heq
    rw [postorderList, List.mem_append] at hu
    rcases append_eq_append_cons heq with ⟨ahead', hfirst⟩ | ⟨past', rfl, hlater⟩
    · rcases hu with hu | hu
      · exact iht _ past v ahead' hfirst u hu hdone hne
      · -- the node is in a later tree, which the walk has not come to
        have hmin := (id_of_mem_postorder.2 ts _ u hu).1
        have hin : ∀ step ∈ past ++ .visit v :: ahead', step.node.id < id + t.size := by
          intro step hstep
          have := id_of_mem_postorder.1 t id _ (node_of_mem_planThen.1 t id step (hfirst ▸ hstep))
          have := step.node.tree.size_pos
          omega
        refine iff_of_false (fun h => ?_) fun h => ?_
        · have : u.id < id + t.size := hin (.enter u) (by simp [h])
          omega
        · have := hin (.visit v) (by simp)
          have := id_of_mem_postorder.2 _ _ v h
          simp only [WalkStep.node] at *
          omega
    · rw [visits_append, visits_planThen.1] at hdone
      simp only [List.mem_append, not_or] at hdone
      obtain ⟨⟨hfirst, -⟩, hdone⟩ := hdone
      replace hu := hu.resolve_left hfirst
      rw [List.mem_append, or_iff_right fun h => hfirst (node_of_mem_planThen.1 t id _ h)]
      exact ihts _ past' v ahead hlater u hu hdone hne

end Tree

/-! ## The states that a walk leaves behind -/

namespace Arena

def state? (a : Arena) (id : Nat) : Option NodeState :=
  (a.get? id).map (·.state)

theorem state?_advance (a : Arena) (id : Nat) (state : NodeState) (j : Nat) :
    (a.advance id state).state? j =
      if id = j then (a.state? j).map (·.later state) else a.state? j := by
  rw [state?, get?_advance]
  split
  · rw [state?, Option.map_map, Option.map_map]
    rfl
  · rfl

/-- The arena after a step of the walk, the turn included. -/
def take (a : Arena) : WalkStep → Arena
  | .enter n => a.advance n.id .traversingChildren
  | .visit n => (a.advance n.id .running).advance n.id .handled

def after (a : Arena) (steps : List WalkStep) : Arena :=
  steps.foldl take a

theorem after_concat (a : Arena) (steps : List WalkStep) (step : WalkStep) :
    a.after (steps ++ [step]) = (a.after steps).take step := by
  rw [after, List.foldl_append]
  rfl

/-- How far steps of a walk bring a node. -/
def reached (steps : List WalkStep) (id : Nat) : NodeState :=
  if id ∈ (visits steps).map (·.id) then .handled
  else if id ∈ steps.map (·.node.id) then .traversingChildren
  else .registered

theorem reached_enter (steps : List WalkStep) (n : Node) (id : Nat) :
    reached (steps ++ [.enter n]) id =
      if n.id = id then (reached steps id).later .traversingChildren else reached steps id := by
  have hvisits : visits (steps ++ [.enter n]) = visits steps := by simp
  have hsteps : (steps ++ [WalkStep.enter n]).map (·.node.id) = steps.map (·.node.id) ++ [n.id] :=
    List.map_append
  rw [reached, hvisits, hsteps, reached]
  by_cases hn : n.id = id
  · rw [if_pos hn, if_pos (List.mem_append_right _ (List.mem_singleton.mpr hn.symm))]
    split_ifs <;> rfl
  · simp only [if_neg hn, List.mem_append, List.mem_singleton, or_iff_left (Ne.symm hn)]

theorem reached_visit (steps : List WalkStep) (n : Node) (id : Nat) :
    reached (steps ++ [.visit n]) id = if n.id = id then .handled else reached steps id := by
  have hvisits : (visits (steps ++ [.visit n])).map (·.id) = (visits steps).map (·.id) ++ [n.id] := by
    simp
  have hsteps : (steps ++ [WalkStep.visit n]).map (·.node.id) = steps.map (·.node.id) ++ [n.id] :=
    List.map_append
  rw [reached, hvisits, hsteps, reached]
  by_cases hn : n.id = id
  · rw [if_pos hn, if_pos (List.mem_append_right _ (List.mem_singleton.mpr hn.symm))]
  · simp only [if_neg hn, List.mem_append, List.mem_singleton, or_iff_left (Ne.symm hn)]

theorem state?_after {a : Arena} {id : Nat} (h : a.state? id = some .registered)
    (steps : List WalkStep) : (a.after steps).state? id = some (reached steps id) := by
  induction steps using List.reverseRecOn with
  | nil => exact h
  | append_singleton steps step ih =>
    rw [after_concat]
    cases step with
    | enter n =>
      rw [take, state?_advance, ih, reached_enter]
      split <;> rfl
    | visit n =>
      rw [take, state?_advance, state?_advance, ih, reached_visit]
      split
      · cases reached steps id <;> rfl
      · rfl

section

variable {root : Tree} {run : RunId} {key : TreeKey} {past ahead : List WalkStep} {u v : Node}

theorem state?_ofTree (hu : u ∈ root.postorder run key 0) :
    (ofTree root).state? u.id = some .registered := by
  obtain ⟨e, he, -⟩ := exists_of_preorder (Tree.getElem?_preorder hu)
  rw [state?, he, Option.map_some, state_of_ofTree he]

theorem postorder_of_plan (hplan : root.plan run key = past ++ .visit v :: ahead) :
    root.postorder run key 0 = visits past ++ v :: visits ahead := by
  rw [← Tree.visits_plan, hplan, visits_append, visits_visit]

theorem reached_eq_handled (hu : u ∈ visits past) : reached past u.id = .handled :=
  if_pos (List.mem_map_of_mem hu)

theorem reached_of_waiting (hplan : root.plan run key = past ++ .visit v :: ahead)
    (hu : u ∈ root.postorder run key 0) (hdone : u ∉ visits past) (hne : u ≠ v) :
    (v ∈ u.below → reached past u.id = .traversingChildren) ∧
      (v ∉ u.below → reached past u.id = .registered) := by
  have hnode : ∀ step ∈ past, step.node ∈ root.postorder run key 0 := fun step hstep =>
    Tree.node_of_mem_planThen.1 root 0 step (by rw [← Tree.plan, hplan]; simp [hstep])
  have hvisits : u.id ∉ (visits past).map (·.id) := by
    intro h
    obtain ⟨n, hn, hid⟩ := List.mem_map.mp h
    have heq := Tree.eq_of_id_eq (hnode (.visit n) (mem_visits.mp hn)) hu hid
    exact hdone (heq ▸ hn)
  have hsteps : u.id ∈ past.map (·.node.id) ↔ v ∈ u.below := by
    rw [← Tree.entered_iff.1 root 0 past v ahead hplan u hu hdone hne, List.mem_map]
    constructor
    · rintro ⟨step, hstep, hid⟩
      have heq := Tree.eq_of_id_eq (hnode step hstep) hu hid
      cases step with
      | enter n => exact (show n = u from heq) ▸ hstep
      | visit n => exact absurd (mem_visits.mpr hstep) ((show n = u from heq) ▸ hdone)
    · exact fun h => ⟨_, h, rfl⟩
  rw [reached, if_neg hvisits]
  exact ⟨fun h => if_pos (hsteps.mpr h), fun h => if_neg (mt hsteps.mp h)⟩

theorem waiting_of_below (hplan : root.plan run key = past ++ .visit v :: ahead) (h : v ∈ u.below) :
    u ∉ visits past ∧ u ≠ v := by
  obtain ⟨hbefore, -, -⟩ := Tree.id_of_split (postorder_of_plan hplan)
  have hid := Tree.id_of_mem_postorder.2 _ _ v h
  have hsize : u.tree.size = Tree.sizeList u.tree.children + 1 := by
    cases u.tree
    rw [Tree.size]
  have := v.tree.size_pos
  refine ⟨fun hu => ?_, fun heq => ?_⟩
  · have := hbefore u hu
    omega
  · rw [heq] at hid
    omega

theorem states_of_turn (hplan : root.plan run key = past ++ .visit v :: ahead) {a : Arena}
    (ha : a = ((ofTree root).after past).advance v.id .running) :
    a.state? v.id = some .running ∧
    (∀ u ∈ visits past, a.state? u.id = some .handled) ∧
    (∀ u ∈ root.postorder run key 0, v ∈ u.below → a.state? u.id = some .traversingChildren) ∧
    ∀ u ∈ root.postorder run key 0, u ∉ visits past → u ≠ v → v ∉ u.below →
      a.state? u.id = some .registered := by
  have hall := postorder_of_plan hplan
  have hv : v ∈ root.postorder run key 0 := by rw [hall]; simp
  have hstate : ∀ u ∈ root.postorder run key 0, u ≠ v → a.state? u.id = some (reached past u.id) := by
    intro u hu hne
    rw [ha, state?_advance, if_neg fun hid => hne (Tree.eq_of_id_eq hu hv hid.symm)]
    exact state?_after (state?_ofTree hu) past
  obtain ⟨-, hdone, -⟩ := Tree.id_of_split hall
  refine ⟨?_, fun u hu => ?_, fun u hu hbelow => ?_, fun u hu hwait hne hbelow => ?_⟩
  · have hnot : v.id ∉ (visits past).map (·.id) := by
      intro h
      obtain ⟨n, hn, hid⟩ := List.mem_map.mp h
      exact hdone n hn hid.symm
    rw [ha, state?_advance, if_pos rfl, state?_after (state?_ofTree hv), reached, if_neg hnot]
    split <;> rfl
  · have hmem : u ∈ root.postorder run key 0 := by rw [hall]; simp [hu]
    rw [hstate u hmem fun heq => hdone u hu (by rw [heq]), reached_eq_handled hu]
  · obtain ⟨hwait, hne⟩ := waiting_of_below hplan hbelow
    rw [hstate u hu hne, (reached_of_waiting hplan hu hwait hne).1 hbelow]
  · rw [hstate u hu hne, (reached_of_waiting hplan hu hwait hne).2 hbelow]

end

end Arena

end TreeEdit
