import Mathlib.Data.List.Induction
import TreeEdit.Handle
import TreeEdit.Proofs.Engine.Arena
import TreeEdit.Proofs.Table

/-!
# What a handle stands for

A mark is given once. So whenever two handles have the same mark, they are the same in everything, however much was done on the
bench in between (`ever_marked`): a step holds on to handles that were there, and the handles that it adds have marks that were
never used before (`step_adds`). What is under a name that a step does not change stays there (`get?_step_of_not_mem`).
-/

namespace TreeEdit

namespace Handle

variable {h k : Handle} {S T : Handle → Prop} {lo mid hi : Nat}

/-- The second handle is the first one, or below it. -/
inductive Reaches (h : Handle) : Handle → Prop
  | self : h.Reaches h
  | child {k c : Handle} (hk : h.Reaches k) (hc : c ∈ k.children) : h.Reaches c

theorem Reaches.cases_first (hk : h.Reaches k) : k = h ∨ ∃ c ∈ h.children, c.Reaches k := by
  induction hk with
  | self => exact .inl rfl
  | child _ hc ih =>
    rcases ih with rfl | ⟨first, hfirst, hreaches⟩
    · exact .inr ⟨_, hc, .self⟩
    · exact .inr ⟨first, hfirst, hreaches.child hc⟩

/-- The handles have marks of a range, and no two of them the same one. -/
structure Marked (lo hi : Nat) (S : Handle → Prop) : Prop where
  le : lo ≤ hi
  range : ∀ k, S k → lo ≤ k.mark ∧ k.mark < hi
  unique : ∀ k k', S k → S k' → k.mark = k'.mark → k = k'

theorem Marked.none (n : Nat) : Marked n n fun _ => False :=
  ⟨Nat.le_refl n, fun _ h => h.elim, fun _ _ h => h.elim⟩

theorem Marked.single (h : Handle) : Marked h.mark (h.mark + 1) (· = h) := by
  refine ⟨Nat.le_succ _, ?_, ?_⟩
  · rintro k rfl
    exact ⟨Nat.le_refl _, Nat.lt_succ_self _⟩
  · rintro k k' rfl rfl _
    rfl

theorem Marked.mono (h : Marked lo hi S) (hsub : ∀ k, T k → S k) : Marked lo hi T :=
  ⟨h.le, fun k hk => h.range k (hsub k hk), fun k k' hk hk' => h.unique k k' (hsub k hk) (hsub k' hk')⟩

theorem Marked.join (hS : Marked lo mid S) (hT : Marked mid hi T) : Marked lo hi fun k => S k ∨ T k := by
  refine ⟨Nat.le_trans hS.le hT.le, ?_, ?_⟩
  · rintro k (hk | hk)
    · have := hS.range k hk
      have := hT.le
      omega
    · have := hT.range k hk
      have := hS.le
      omega
  · rintro k k' (hk | hk) (hk' | hk') heq
    · exact hS.unique k k' hk hk' heq
    · have := hS.range k hk
      have := hT.range k' hk'
      omega
    · have := hT.range k hk
      have := hS.range k' hk'
      omega
    · exact hT.unique k k' hk hk' heq

theorem ofTree_marked :
    (∀ (t : Tree) n, Marked n (ofTree t n).2 (ofTree t n).1.Reaches) ∧
    ∀ (ts : List Tree) n, Marked n (ofTreeList ts n).2 fun k => ∃ h ∈ (ofTreeList ts n).1, h.Reaches k := by
  apply Tree.induct
  · intro kind span value data children ih n
    refine ((Marked.single (ofTree ⟨kind, span, value, data, children⟩ n).1).join (ih (n + 1))).mono ?_
    intro k hk
    exact hk.cases_first
  · intro n
    refine (Marked.none n).mono ?_
    rintro k ⟨h, hmem, -⟩
    cases hmem
  · intro t ts iht ihts n
    refine ((iht n).join (ihts (ofTree t n).2)).mono ?_
    rintro k ⟨h, hmem, hk⟩
    rcases List.mem_cons.mp hmem with rfl | hmem
    · exact .inl hk
    · exact .inr ⟨h, hmem, hk⟩

end Handle

namespace Bench

open Handle (Marked Reaches)

variable {b : Bench} {name name' : String} {h k : Handle}

/-- The handle is under a name, or below one that is. -/
def Holds (b : Bench) (k : Handle) : Prop :=
  ∃ name h, b.get? name = some h ∧ h.Reaches k

theorem holds_of_get? (hget : b.get? name = some h) : b.Holds h :=
  ⟨name, h, hget, .self⟩

theorem Holds.child {c : Handle} (hk : b.Holds k) (hc : c ∈ k.children) : b.Holds c := by
  obtain ⟨name, h, hget, hreaches⟩ := hk
  exact ⟨name, h, hget, hreaches.child hc⟩

theorem Holds.reaches (hh : b.Holds h) (hk : h.Reaches k) : b.Holds k := by
  induction hk with
  | self => exact hh
  | child _ hc ih => exact ih.child hc

theorem holds_erase (hk : (b.erase name).Holds k) : b.Holds k := by
  obtain ⟨name', h, hget, hreaches⟩ := hk
  by_cases hname : name = name'
  · subst hname
    cases (lookup_eraseNamed_self name b.handles).symm.trans hget
  · exact ⟨name', h, (lookup_eraseNamed_of_ne hname).symm.trans hget, hreaches⟩

theorem get?_put_self (b : Bench) (name : String) (h : Handle) : (b.put name h).get? name = some h :=
  List.lookup_cons_self

theorem get?_put_of_ne (hname : name' ≠ name) : (b.put name' h).get? name = b.get? name :=
  lookup_putNamed_of_ne hname h

theorem holds_put (hk : (b.put name h).Holds k) : h.Reaches k ∨ b.Holds k := by
  obtain ⟨name', h', hget, hreaches⟩ := hk
  by_cases hname : name = name'
  · subst hname
    cases (b.get?_put_self name h).symm.trans hget
    exact .inl hreaches
  · rw [get?_put_of_ne hname] at hget
    exact .inr ⟨name', h', hget, hreaches⟩

/-! ## One step -/

/-- What is held afterwards was held before, or is new and has a mark that was not used before. -/
def Adds (b b' : Bench) : Prop :=
  ∃ new, Marked b.next b'.next new ∧ ∀ k, b'.Holds k → b.Holds k ∨ new k

theorem Adds.refl (b : Bench) : b.Adds b :=
  ⟨_, .none b.next, fun _ hk => .inl hk⟩

theorem adds_put (hh : b.Holds h) : b.Adds (b.put name h) := by
  refine ⟨_, .none b.next, fun k hk => .inl ?_⟩
  rcases holds_put hk with hreaches | hk
  · exact hh.reaches hreaches
  · exact hk

theorem adds_putNew {b₀ : Bench} {new : Nat → Handle} (hnext : b₀.next = b.next) (hkept : ∀ k, b₀.Holds k → b.Holds k)
    (hmark : (new b.next).mark = b.next) (hchildren : ∀ c ∈ (new b.next).children, b.Holds c) :
    b.Adds (b₀.putNew name new) := by
  refine ⟨(· = new b.next), ?_, fun k hk => ?_⟩
  · have hsingle := Marked.single (new b.next)
    rw [hmark] at hsingle
    rw [putNew, hnext]
    exact hsingle
  · have hk : (b₀.put name (new b.next)).Holds k := hnext ▸ hk
    rcases holds_put hk with hreaches | hk
    · rcases hreaches.cases_first with rfl | ⟨c, hc, hreaches⟩
      · exact .inr rfl
      · exact .inl ((hchildren c hc).reaches hreaches)
    · exact .inl (hkept k hk)

theorem step_withValue {source value : String} {keep : Bool} (hget : b.get? source = some h) :
    b.step (.withValue source name value keep) =
      (.nothing, (if keep then b else b.erase source).putNew name (h.withValue · value)) := by
  simp only [step, hget]

theorem step_withData {source : String} {data : NodeData} {keep : Bool} (hget : b.get? source = some h) :
    b.step (.withData source name data keep) =
      (.nothing, (if keep then b else b.erase source).putNew name (h.withData · data)) := by
  simp only [step, hget]

theorem step_adds (b : Bench) (s : Step) : b.Adds (b.step s).2 := by
  have hkept : ∀ (keep : Bool) source k, (if keep then b else b.erase source).Holds k → b.Holds k := by
    intro keep source k hk
    cases keep with
    | true => exact hk
    | false => exact holds_erase hk
  have hnext : ∀ (keep : Bool) source, (if keep then b else b.erase source).next = b.next := by
    intro keep source
    cases keep <;> rfl
  cases s with
  | build name t =>
    refine ⟨_, Handle.ofTree_marked.1 t b.next, fun k hk => (holds_put hk).symm⟩
  | leaf name kind span => exact adds_putNew rfl (fun _ hk => hk) rfl fun c hc => (nomatch hc)
  | parent name kind span children =>
    refine adds_putNew rfl (fun _ hk => hk) rfl fun c hc => ?_
    obtain ⟨source, -, hget⟩ := List.mem_filterMap.mp hc
    exact holds_of_get? hget
  | clone source name =>
    rw [step]
    split
    · exact .refl b
    · rename_i h hget
      exact adds_put (holds_of_get? hget)
  | child source index name =>
    rw [step]
    split
    · exact .refl b
    · rename_i c hget
      obtain ⟨h, hget, hc⟩ := Option.bind_eq_some_iff.mp hget
      exact adds_put ((holds_of_get? hget).child (List.mem_of_getElem? hc))
  | withValue source name value keep =>
    rw [step]
    split
    · exact .refl b
    · rename_i h hget
      exact adds_putNew (hnext keep source) (hkept keep source) rfl fun c hc => (holds_of_get? hget).child hc
  | withData source name data keep =>
    rw [step]
    split
    · exact .refl b
    · rename_i h hget
      exact adds_putNew (hnext keep source) (hkept keep source) rfl fun c hc => (holds_of_get? hget).child hc
  | same first second =>
    rw [step]
    split <;> exact .refl b
  | describe source =>
    rw [step]
    split <;> exact .refl b

/-- The names under which a step puts something, or from which it takes something. -/
def Step.changes : Step → List String
  | .build name _ | .leaf name .. | .parent name .. | .clone _ name | .child _ _ name => [name]
  | .withValue source name _ keep | .withData source name _ keep => if keep then [name] else [source, name]
  | .same .. | .describe .. => []

theorem get?_step_of_not_mem {s : Step} (hname : name ∉ s.changes) : (b.step s).2.get? name = b.get? name := by
  have hrenew : ∀ (keep : Bool) source name' new, name ∉ (if keep then [name'] else [source, name']) →
      ((if keep then b else b.erase source).putNew name' new).get? name = b.get? name := by
    intro keep source name' new hname
    cases keep with
    | true => exact get?_put_of_ne fun heq => hname (by simp [heq])
    | false =>
      have hput : ((b.erase source).putNew name' new).get? name = (b.erase source).get? name :=
        get?_put_of_ne fun heq => hname (by simp [heq])
      exact hput.trans (lookup_eraseNamed_of_ne fun heq => hname (by simp [heq]))
  cases s with
  | build name' t => exact get?_put_of_ne fun heq => hname (by simp [Step.changes, heq])
  | leaf name' kind span => exact get?_put_of_ne fun heq => hname (by simp [Step.changes, heq])
  | parent name' kind span children => exact get?_put_of_ne fun heq => hname (by simp [Step.changes, heq])
  | clone source name' =>
    rw [step]
    split
    · rfl
    · exact get?_put_of_ne fun heq => hname (by simp [Step.changes, heq])
  | child source index name' =>
    rw [step]
    split
    · rfl
    · exact get?_put_of_ne fun heq => hname (by simp [Step.changes, heq])
  | withValue source name' value keep =>
    rw [step]
    split
    · rfl
    · exact hrenew keep source name' _ hname
  | withData source name' data keep =>
    rw [step]
    split
    · rfl
    · exact hrenew keep source name' _ hname
  | same first second =>
    rw [step]
    split <;> rfl
  | describe source =>
    rw [step]
    split <;> rfl

/-! ## Any number of steps -/

theorem steps_concat (b : Bench) (ss : List Step) (s : Step) :
    b.steps (ss ++ [s]) = ((b.steps ss).1 ++ [((b.steps ss).2.step s).1], ((b.steps ss).2.step s).2) := by
  induction ss generalizing b with
  | nil => rfl
  | cons first ss ih =>
    rw [List.cons_append, steps, steps, ih]
    rfl

def after (ss : List Step) : Bench :=
  (({} : Bench).steps ss).2

theorem after_concat (ss : List Step) (s : Step) : after (ss ++ [s]) = ((after ss).step s).2 := by
  rw [after, steps_concat]
  rfl

/-- The handle was held at some time before the steps were all done, or is held then. -/
def Ever (ss : List Step) (k : Handle) : Prop :=
  ∃ early, early <+: ss ∧ (after early).Holds k

theorem ever_nil : ¬ Ever [] k := by
  rintro ⟨early, hearly, name, h, hget, -⟩
  rw [List.prefix_nil.mp hearly] at hget
  cases hget

theorem ever_concat {ss : List Step} {s : Step} (hk : Ever (ss ++ [s]) k) : Ever ss k ∨ ((after ss).step s).2.Holds k := by
  obtain ⟨early, hearly, hk⟩ := hk
  rcases List.prefix_concat_iff.mp hearly with rfl | hearly
  · rw [after_concat] at hk
    exact .inr hk
  · exact .inl ⟨early, hearly, hk⟩

/-- **A mark stands for one handle**, at all times. -/
theorem ever_marked (ss : List Step) : Marked 0 (after ss).next (Ever ss) := by
  induction ss using List.reverseRecOn with
  | nil => exact (Marked.none 0).mono fun k hk => ever_nil hk
  | append_singleton ss s ih =>
    obtain ⟨new, hnew, hcases⟩ := (after ss).step_adds s
    rw [after_concat]
    refine (ih.join hnew).mono fun k hk => ?_
    rcases ever_concat hk with hk | hk
    · exact .inl hk
    · rcases hcases k hk with hk | hk
      · exact .inl ⟨ss, List.prefix_refl ss, hk⟩
      · exact .inr hk

end Bench

end TreeEdit
