import TreeEdit.Proofs.Engine.Arena
import TreeEdit.Proofs.Json.Injective
import TreeEdit.Tree.Printer

/-!
# What the JSON text of a tree tells

The text of a node has no field for what is not there, and names the fields it has. No two parts of a node use the same
names, so it can be told which part a field belongs to (`fields_eq_iff`), and the data can be found from the fields
(`NodeData.ofFields`). Only one thing is lost: code without a language has no field, just as data that say nothing.
`Tree.plain` puts the one for the other at every node. It is then what a text tells of a tree, no less and no more.
-/

namespace TreeEdit

namespace NodeData

/-- The data, where code without a language says nothing. -/
def plain : NodeData → NodeData
  | .code Option.none => .none
  | data => data

/-- The data that have the given fields. -/
def ofFields : List (String × Json) → NodeData
  | [("depth", .num n)] => .heading n.toNat
  | [("ordered", .bool b)] => .list b
  | [("lang", .str lang)] => .code (some lang)
  | [("url", .str url)] => .link url Option.none
  | [("url", .str url), ("title", .str title)] => .link url (some title)
  | [("integer", .num n)] => .integer n.toNat
  | _ => .none

theorem fields_plain (data : NodeData) : data.plain.fields = data.fields := by
  cases data with
  | code lang => cases lang <;> rfl
  | _ => rfl

theorem ofFields_fields (data : NodeData) : ofFields data.fields = data.plain := by
  cases data with
  | code lang => cases lang <;> rfl
  | link url title => cases title <;> rfl
  | _ => rfl

theorem fields_eq_iff {data data' : NodeData} : data.fields = data'.fields ↔ data.plain = data'.plain := by
  constructor
  · intro h
    rw [← ofFields_fields, h, ofFields_fields]
  · intro h
    rw [← fields_plain, h, fields_plain]

theorem name_ne_of_mem_fields {data : NodeData} {f : String × Json} (hf : f ∈ data.fields) :
    f.1 ≠ "children" ∧ f.1 ≠ "value" := by
  cases data with
  | code lang => cases lang <;> simp_all [fields]
  | link url title =>
    rcases List.mem_cons.mp hf with rfl | hf
    · simp
    · cases title <;> simp_all
  | _ => simp_all [fields]

end NodeData

namespace Tree

mutual

def plain : Tree → Tree
  | ⟨kind, span, value, data, children⟩ => ⟨kind, span, value, data.plain, plainList children⟩

def plainList : List Tree → List Tree
  | [] => []
  | t :: ts => t.plain :: plainList ts

end

def valueField (value : Option String) : List (String × Json) :=
  value.toList.map fun v => ("value", .str v)

theorem valueField_inj {value value' : Option String} : valueField value = valueField value' ↔ value = value' := by
  cases value <;> cases value' <;> simp [valueField]

theorem childrenField_inj {ts us : List Tree} : childrenField ts = childrenField us ↔ toJsonList ts = toJsonList us := by
  cases ts <;> cases us <;> simp [childrenField, toJsonList]

theorem toPair_inj {s s' : Span} : s.toPair = s'.toPair ↔ s = s' := by
  cases s
  cases s'
  simp only [Span.toPair, Json.nat, Json.arr.injEq, List.cons.injEq, Json.num.injEq, Int.ofNat_inj, and_true, Span.mk.injEq]

theorem append_inj_of_name {name : String} {own own' others others' : List (String × Json)}
    (hown : ∀ f ∈ own, f.1 = name) (hown' : ∀ f ∈ own', f.1 = name) (hothers : ∀ f ∈ others, f.1 ≠ name)
    (hothers' : ∀ f ∈ others', f.1 ≠ name) : own ++ others = own' ++ others' ↔ own = own' ∧ others = others' := by
  constructor
  · intro h
    have hkeep : ∀ {xs ys : List (String × Json)}, (∀ f ∈ xs, f.1 = name) → (∀ f ∈ ys, f.1 ≠ name) →
        (xs ++ ys).filter (fun f => f.1 == name) = xs := by
      intro xs ys hxs hys
      have hself : xs.filter (fun f => f.1 == name) = xs :=
        List.filter_eq_self.mpr fun f hf => beq_iff_eq.mpr (hxs f hf)
      have hnone : ys.filter (fun f => f.1 == name) = [] :=
        List.filter_eq_nil_iff.mpr fun f hf hname => hys f hf (beq_iff_eq.mp hname)
      rw [List.filter_append, hself, hnone, List.append_nil]
    have heq : own = own' := by
      rw [← hkeep hown hothers, h, hkeep hown' hothers']
    subst heq
    exact ⟨rfl, List.append_cancel_left h⟩
  · rintro ⟨rfl, rfl⟩
    rfl

theorem fields_eq_iff {ts us : List Tree} {value value' : Option String} {data data' : NodeData} :
    childrenField ts ++ valueField value ++ data.fields = childrenField us ++ valueField value' ++ data'.fields ↔
      value = value' ∧ data.plain = data'.plain ∧ toJsonList ts = toJsonList us := by
  have hchildren : ∀ (vs : List Tree), ∀ f ∈ childrenField vs, f.1 = "children" := by
    intro vs
    cases vs <;> simp [childrenField]
  have hvalue : ∀ (v : Option String), ∀ f ∈ valueField v, f.1 = "value" := by
    intro v
    cases v <;> simp [valueField]
  have hothers : ∀ (v : Option String) (d : NodeData), ∀ f ∈ valueField v ++ d.fields, f.1 ≠ "children" := by
    intro v d f hf
    rcases List.mem_append.mp hf with hf | hf
    · rw [hvalue v f hf]
      decide
    · exact (NodeData.name_ne_of_mem_fields hf).1
  rw [List.append_assoc, List.append_assoc,
    append_inj_of_name (hchildren ts) (hchildren us) (hothers value data) (hothers value' data'),
    append_inj_of_name (hvalue value) (hvalue value') (fun f hf => (NodeData.name_ne_of_mem_fields hf).2)
      (fun f hf => (NodeData.name_ne_of_mem_fields hf).2),
    childrenField_inj, valueField_inj, NodeData.fields_eq_iff, and_comm, and_assoc]

theorem toJson_inj : (∀ t u : Tree, t.toJson = u.toJson ↔ t.plain = u.plain) ∧
    ∀ ts us : List Tree, toJsonList ts = toJsonList us ↔ plainList ts = plainList us := by
  apply induct
  · intro kind span value data ts ih u
    obtain ⟨kind', span', value', data', us⟩ := u
    have hfields := @fields_eq_iff ts us value value' data data'
    unfold valueField at hfields
    simp only [toJson, Json.obj.injEq, List.cons.injEq, Prod.mk.injEq, true_and, Json.str.injEq, toPair_inj, hfields, ih us,
      plain, Tree.mk.injEq]
  · intro us
    cases us <;> simp [toJsonList, plainList]
  · intro t ts iht ihts us
    cases us with
    | nil => simp [toJsonList, plainList]
    | cons u us => simp only [toJsonList, plainList, List.cons.injEq, iht u, ihts us]

/-- **The JSON text of a tree tells all of it**, apart from code without a language: the texts of two trees are equal just if
the trees agree in kinds, spans, values, data and children at every level, with such code taken for data that say nothing. -/
theorem json_text_faithful (t u : Tree) : t.toJson.render = u.toJson.render ↔ t.plain = u.plain := by
  rw [Json.render_injective.eq_iff]
  exact toJson_inj.1 t u

end Tree

end TreeEdit
