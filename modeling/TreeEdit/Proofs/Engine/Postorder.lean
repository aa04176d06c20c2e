import TreeEdit.Engine.Walk
import TreeEdit.Proofs.Engine.Arena

/-!
# The order of turns

A walk gives each node its turn after the nodes below it: the visits of a plan are the nodes of the tree in
post-order, each with the number it has in the arena (`visits_plan`, `getElem?_preorder`).

A node that comes later is above an earlier one or has a greater number than all below it
(`postorder_pairwise`). When the spans of a tree are nested, the turns up to that of a node are those of
nodes on its left, and after them, without a gap, those of the node and all below it (`postorder_split`).
-/

namespace TreeEdit

/-! ## Nested spans -/

namespace Tree

mutual

/-- No span is empty, the spans of children are inside that of their parent, and siblings are in order and
do not overlap. -/
def Nested : Tree → Prop
  | ⟨_, span, _, _, children⟩ => span.start < span.stop ∧ NestedIn span.start span.stop children

/-- The trees are nested, and their spans follow each other between two offsets. -/
def NestedIn (pos stop : Nat) : List Tree → Prop
  | [] => True
  | t :: ts => pos ≤ t.span.start ∧ t.span.stop ≤ stop ∧ t.Nested ∧ NestedIn t.span.stop stop ts

end

mutual

def decideNested : (t : Tree) → Decidable t.Nested
  | ⟨_, span, _, _, children⟩ =>
    have := decideNestedIn span.start span.stop children
    inferInstanceAs (Decidable (_ ∧ _))

def decideNestedIn (pos stop : Nat) : (ts : List Tree) → Decidable (NestedIn pos stop ts)
  | [] => .isTrue trivial
  | t :: ts =>
    have := t.decideNested
    have := decideNestedIn t.span.stop stop ts
    inferInstanceAs (Decidable (_ ∧ _ ∧ _ ∧ _))

end

instance (t : Tree) : Decidable t.Nested := t.decideNested

theorem Nested.start_lt_stop {t : Tree} (h : t.Nested) : t.span.start < t.span.stop := by
  cases t
  rw [Nested] at h
  exact h.1

theorem Nested.children {t : Tree} (h : t.Nested) : NestedIn t.span.start t.span.stop t.children := by
  cases t
  rw [Nested] at h
  exact h.2

theorem NestedIn.mono {pos pos' stop : Nat} {ts : List Tree} (h : NestedIn pos stop ts)
    (hle : pos' ≤ pos) : NestedIn pos' stop ts := by
  cases ts with
  | nil => trivial
  | cons t ts =>
    rw [NestedIn] at h ⊢
    exact ⟨Nat.le_trans hle h.1, h.2⟩

/-! ## Post-order -/

mutual

/-- The nodes of a tree whose root has the number `id`, each after those below it. -/
def postorder (run : RunId) (key : TreeKey) (id : Nat) : Tree → List Node
  | ⟨kind, span, value, data, children⟩ =>
    postorderList run key (id + 1) children ++ [⟨run, id, ⟨kind, span, value, data, children⟩, key⟩]

def postorderList (run : RunId) (key : TreeKey) (id : Nat) : List Tree → List Node
  | [] => []
  | t :: ts => t.postorder run key id ++ postorderList run key (id + t.size) ts

end

end Tree

def WalkStep.node : WalkStep → Node
  | .enter node => node
  | .visit node => node

def WalkStep.visit? : WalkStep → Option Node
  | .enter _ => none
  | .visit node => some node

def visits (steps : List WalkStep) : List Node :=
  steps.filterMap WalkStep.visit?

@[simp] theorem visits_enter (node : Node) (steps : List WalkStep) :
    visits (.enter node :: steps) = visits steps := rfl

@[simp] theorem visits_visit (node : Node) (steps : List WalkStep) :
    visits (.visit node :: steps) = node :: visits steps := rfl

namespace Tree

variable {run : RunId} {key : TreeKey}

theorem visits_planThen :
    (∀ (t : Tree) id rest,
      visits (t.planThen run key id rest) = t.postorder run key id ++ visits rest) ∧
    ∀ (ts : List Tree) id rest,
      visits (planListThen run key id ts rest) = postorderList run key id ts ++ visits rest := by
  apply induct
  · intro kind span value data children ih id rest
    simp [planThen, postorder, ih]
  · intro id rest
    rfl
  · intro t ts iht ihts id rest
    simp [planListThen, postorderList, iht, ihts]

/-- **The turns of a plan are in post-order.** -/
theorem visits_plan (t : Tree) : visits (t.plan run key) = t.postorder run key 0 := by
  rw [plan, visits_planThen.1]
  exact List.append_nil _

theorem run_of_mem_planThen :
    (∀ (t : Tree) id rest, ∀ step ∈ t.planThen run key id rest, step.node.run = run ∨ step ∈ rest) ∧
    ∀ (ts : List Tree) id rest,
      ∀ step ∈ planListThen run key id ts rest, step.node.run = run ∨ step ∈ rest := by
  apply induct
  · intro kind span value data children ih id rest step hstep
    rw [planThen, List.mem_cons] at hstep
    rcases hstep with rfl | hstep
    · exact .inl rfl
    · rcases ih _ _ step hstep with h | h
      · exact .inl h
      · rcases List.mem_cons.mp h with rfl | h
        · exact .inl rfl
        · exact .inr h
  · intro id rest step hstep
    exact .inr hstep
  · intro t ts iht ihts id rest step hstep
    rcases iht _ _ step hstep with h | h
    · exact .inl h
    · exact ihts _ _ step h

theorem run_of_mem_plan {t : Tree} {step : WalkStep} (h : step ∈ t.plan run key) :
    step.node.run = run := by
  rcases run_of_mem_planThen.1 t 0 [] step h with h | h
  · exact h
  · cases h

theorem root_mem_postorder (t : Tree) (id : Nat) : ⟨run, id, t, key⟩ ∈ t.postorder run key id := by
  cases t
  rw [postorder]
  exact List.mem_append_right _ (List.mem_singleton.mpr rfl)

/-! ## Numbers -/

theorem id_of_mem_postorder :
    (∀ (t : Tree) id, ∀ n ∈ t.postorder run key id, id ≤ n.id ∧ n.id + n.tree.size ≤ id + t.size) ∧
    ∀ (ts : List Tree) id, ∀ n ∈ postorderList run key id ts,
      id ≤ n.id ∧ n.id + n.tree.size ≤ id + sizeList ts := by
  apply induct
  · intro kind span value data children ih id n hn
    rw [postorder, List.mem_append, List.mem_singleton] at hn
    rcases hn with hn | rfl
    · have := ih _ n hn
      rw [size]
      omega
    · exact ⟨Nat.le_refl _, Nat.le_refl _⟩
  · intro id n hn
    cases hn
  · intro t ts iht ihts id n hn
    rw [postorderList, List.mem_append] at hn
    rw [sizeList]
    rcases hn with hn | hn
    · have := iht _ n hn
      omega
    · have := ihts _ n hn
      omega

theorem size_pos (t : Tree) : 0 < t.size := by
  cases t
  rw [size]
  exact Nat.succ_pos _

theorem exists_mem_postorder :
    (∀ (t : Tree) id j, id ≤ j → j < id + t.size → ∃ u ∈ t.postorder run key id, u.id = j) ∧
    ∀ (ts : List Tree) id j, id ≤ j → j < id + sizeList ts → ∃ u ∈ postorderList run key id ts, u.id = j := by
  apply induct
  · intro kind span value data children ih id j hle hlt
    rw [size] at hlt
    rw [postorder]
    by_cases hid : j = id
    · exact ⟨_, List.mem_append_right _ List.mem_cons_self, hid.symm⟩
    · obtain ⟨u, hu, huj⟩ := ih (id + 1) j (by omega) (by omega)
      exact ⟨u, List.mem_append_left _ hu, huj⟩
  · intro id j hle hlt
    rw [sizeList] at hlt
    omega
  · intro t ts iht ihts id j hle hlt
    rw [sizeList] at hlt
    rw [postorderList]
    by_cases hj : j < id + t.size
    · obtain ⟨u, hu, huj⟩ := iht id j hle hj
      exact ⟨u, List.mem_append_left _ hu, huj⟩
    · obtain ⟨u, hu, huj⟩ := ihts (id + t.size) j (by omega) (by omega)
      exact ⟨u, List.mem_append_right _ hu, huj⟩

/-- **A later node is above an earlier one, or beyond all that is below it.** -/
theorem postorder_pairwise :
    (∀ (t : Tree) id, (t.postorder run key id).Pairwise fun u v =>
      v.id < u.id ∨ u.id + u.tree.size ≤ v.id) ∧
    ∀ (ts : List Tree) id, (postorderList run key id ts).Pairwise fun u v =>
      v.id < u.id ∨ u.id + u.tree.size ≤ v.id := by
  apply induct
  · intro kind span value data children ih id
    rw [postorder, List.pairwise_append]
    refine ⟨ih _, List.pairwise_singleton _ _, fun u hu v hv => ?_⟩
    rw [List.mem_singleton] at hv
    have := id_of_mem_postorder.2 children _ u hu
    rw [hv]
    simp only
    omega
  · intro id
    exact .nil
  · intro t ts iht ihts id
    rw [postorderList, List.pairwise_append]
    refine ⟨iht _, ihts _, fun u hu v hv => ?_⟩
    have := id_of_mem_postorder.1 t _ u hu
    have := id_of_mem_postorder.2 ts _ v hv
    omega

theorem id_of_split {t : Tree} {id : Nat} {done todo : List Node} {v : Node}
    (heq : t.postorder run key id = done ++ v :: todo) :
    (∀ n ∈ done, v.id < n.id ∨ n.id + n.tree.size ≤ v.id) ∧ (∀ n ∈ done, v.id ≠ n.id) ∧
      ∀ n ∈ todo, n.id ≠ v.id := by
  have hpair : (t.postorder run key id).Pairwise fun u v => v.id < u.id ∨ u.id + u.tree.size ≤ v.id :=
    postorder_pairwise.1 t id
  rw [heq, List.pairwise_append, List.pairwise_cons] at hpair
  obtain ⟨-, ⟨hafter, -⟩, hbefore⟩ := hpair
  have hdone : ∀ n ∈ done, v.id < n.id ∨ n.id + n.tree.size ≤ v.id :=
    fun n hn => hbefore n hn v (by simp)
  refine ⟨hdone, fun n hn => ?_, fun n hn => ?_⟩
  · have := hdone n hn
    have := n.tree.size_pos
    omega
  · have := hafter n hn
    have := v.tree.size_pos
    omega

theorem getElem?_preorderThen_size :
    (∀ (t : Tree) rest k, (t.preorderThen rest)[t.size + k]? = rest[k]?) ∧
    ∀ (ts : List Tree) rest k, (preorderListThen ts rest)[sizeList ts + k]? = rest[k]? := by
  apply induct
  · intro kind span value data children ih rest k
    rw [preorderThen, size, Nat.add_right_comm, List.getElem?_cons_succ, ih]
  · intro rest k
    rw [sizeList, Nat.zero_add]
    rfl
  · intro t ts iht ihts rest k
    rw [preorderListThen, sizeList, Nat.add_assoc, iht, ihts]

theorem getElem?_preorderThen :
    (∀ (t : Tree) id rest, ∀ n ∈ t.postorder run key id,
      (t.preorderThen rest)[n.id - id]? = some n.tree) ∧
    ∀ (ts : List Tree) id rest, ∀ n ∈ postorderList run key id ts,
      (preorderListThen ts rest)[n.id - id]? = some n.tree := by
  apply induct
  · intro kind span value data children ih id rest n hn
    rw [postorder, List.mem_append, List.mem_singleton] at hn
    rw [preorderThen]
    rcases hn with hn | rfl
    · have := id_of_mem_postorder.2 children _ n hn
      rw [show n.id - id = n.id - (id + 1) + 1 by omega, List.getElem?_cons_succ]
      exact ih _ _ n hn
    · simp
  · intro id rest n hn
    cases hn
  · intro t ts iht ihts id rest n hn
    rw [postorderList, List.mem_append] at hn
    rw [preorderListThen]
    rcases hn with hn | hn
    · exact iht _ _ n hn
    · have := id_of_mem_postorder.2 ts _ n hn
      rw [show n.id - id = t.size + (n.id - (id + t.size)) by omega, getElem?_preorderThen_size.1]
      exact ihts _ _ n hn

theorem getElem?_preorder {t : Tree} {n : Node} (hn : n ∈ t.postorder run key 0) :
    t.preorder[n.id]? = some n.tree :=
  getElem?_preorderThen.1 t 0 [] n hn

/-! ## Spans -/

theorem span_of_mem_postorder :
    (∀ t : Tree, t.Nested → ∀ id, ∀ n ∈ t.postorder run key id,
      t.span.start ≤ n.span.start ∧ n.span.stop ≤ t.span.stop ∧ n.tree.Nested) ∧
    ∀ ts : List Tree, ∀ pos stop, NestedIn pos stop ts → ∀ id, ∀ n ∈ postorderList run key id ts,
      pos ≤ n.span.start ∧ n.span.stop ≤ stop ∧ n.tree.Nested := by
  apply induct
  · intro kind span value data children ih h id n hn
    rw [postorder, List.mem_append, List.mem_singleton] at hn
    rcases hn with hn | rfl
    · exact ih _ _ h.children _ n hn
    · exact ⟨Nat.le_refl _, Nat.le_refl _, h⟩
  · intro pos stop h id n hn
    cases hn
  · intro t ts iht ihts pos stop h id n hn
    rw [NestedIn] at h
    obtain ⟨hpos, hstop, ht, hts⟩ := h
    rw [postorderList, List.mem_append] at hn
    rcases hn with hn | hn
    · obtain ⟨h₁, h₂, h₃⟩ := iht ht _ n hn
      exact ⟨Nat.le_trans hpos h₁, Nat.le_trans h₂ hstop, h₃⟩
    · have hlt := ht.start_lt_stop
      exact ihts _ _ (hts.mono (by omega)) _ n hn

theorem append_eq_append_cons {α : Type} {xs ys done todo : List α} {v : α}
    (h : xs ++ ys = done ++ v :: todo) :
    (∃ todo', xs = done ++ v :: todo') ∨ ∃ done', done = xs ++ done' ∧ ys = done' ++ v :: todo := by
  rcases List.append_eq_append_iff.mp h with ⟨done', hdone, hys⟩ | ⟨rest, hxs, hrest⟩
  · exact .inr ⟨done', hdone, hys⟩
  · cases rest with
    | nil => exact .inr ⟨[], by simpa using hxs.symm, by simpa using hrest.symm⟩
    | cons w rest =>
      obtain ⟨rfl, -⟩ := List.cons.inj hrest
      exact .inl ⟨rest, hxs⟩

theorem postorder_split :
    (∀ t : Tree, t.Nested → ∀ id done v todo, t.postorder run key id = done ++ v :: todo →
      ∃ left, done ++ [v] = left ++ v.tree.postorder run key v.id ∧
        ∀ u ∈ left, u.span.stop ≤ v.span.start) ∧
    ∀ ts : List Tree, ∀ pos stop, NestedIn pos stop ts → ∀ id done v todo,
      postorderList run key id ts = done ++ v :: todo →
      ∃ left, done ++ [v] = left ++ v.tree.postorder run key v.id ∧
        ∀ u ∈ left, u.span.stop ≤ v.span.start := by
  apply induct
  · intro kind span value data children ih h id done v todo heq
    rw [postorder] at heq
    rcases append_eq_append_cons heq with ⟨todo', hleft⟩ | ⟨done', hdone, hright⟩
    · exact ih _ _ h.children _ done v todo' hleft
    · -- the node at hand is the root, and all below it had its turn
      cases done' with
      | nil =>
        obtain ⟨rfl, -⟩ := List.cons.inj hright
        refine ⟨[], ?_, fun u hu => (nomatch hu)⟩
        rw [hdone, List.append_nil, List.nil_append, postorder]
      | cons w done' => simp at hright
  · intro pos stop h id done v todo heq
    simp [postorderList] at heq
  · intro t ts iht ihts pos stop h id done v todo heq
    rw [NestedIn] at h
    obtain ⟨-, -, ht, hts⟩ := h
    rw [postorderList] at heq
    rcases append_eq_append_cons heq with ⟨todo', hleft⟩ | ⟨done', hdone, hright⟩
    · exact iht ht _ done v todo' hleft
    · -- the node is in a later tree, so all of `t` is on its left
      obtain ⟨left, hsplit, hspans⟩ := ihts _ _ hts _ done' v todo hright
      refine ⟨t.postorder run key id ++ left, by rw [hdone, List.append_assoc, hsplit, List.append_assoc],
        fun u hu => ?_⟩
      rcases List.mem_append.mp hu with hu | hu
      · have hu := (span_of_mem_postorder.1 t ht _ u hu).2.1
        have hv := (span_of_mem_postorder.2 ts _ _ hts _ v (by rw [hright]; simp)).1
        exact Nat.le_trans hu hv
      · exact hspans u hu

end Tree

end TreeEdit
