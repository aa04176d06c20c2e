import TreeEdit.Engine.Session

/-!
# Tables

What is under a name after putting or erasing values under names, and a table as the value under a key with the rest.
-/

namespace TreeEdit

variable {α : Type} {name name' : String} {a : α} {table : List (String × α)}

theorem lookup_eraseNamed_self (name : String) (table : List (String × α)) :
    (eraseNamed name table).lookup name = none := by
  rw [List.lookup_eq_none_iff]
  intro p hp
  rw [bne_comm]
  exact (List.mem_filter.mp hp).2

theorem lookup_eraseNamed_of_ne (h : name' ≠ name) : (eraseNamed name' table).lookup name = table.lookup name := by
  induction table with
  | nil => rfl
  | cons p table ih =>
    rw [eraseNamed, List.filter_cons]
    split
    · rw [List.lookup_cons, List.lookup_cons]
      split
      · rfl
      · exact ih
    · rename_i hp
      have hname : p.1 = name' := by simpa using hp
      rw [List.lookup_cons, hname, beq_false_of_ne h.symm]
      exact ih

theorem lookup_putNamed_of_ne (h : name' ≠ name) (a : α) :
    (putNamed name' a table).lookup name = table.lookup name := by
  rw [putNamed, List.lookup_cons, beq_false_of_ne h.symm]
  exact lookup_eraseNamed_of_ne h

theorem mem_of_lookup (h : table.lookup name = some a) : (name, a) ∈ table := by
  obtain ⟨front, back, rfl, -⟩ := List.lookup_eq_some_iff.mp h
  exact List.mem_append_right _ List.mem_cons_self

theorem eraseNamed_of_lookup_none (h : table.lookup name = none) : eraseNamed name table = table := by
  rw [List.lookup_eq_none_iff] at h
  rw [eraseNamed, List.filter_eq_self]
  intro p hp
  rw [bne_comm]
  exact h p hp

theorem perm_of_mem {κ : Type} [BEq κ] [LawfulBEq κ] {key : κ} {table : List (κ × α)}
    (hkeys : (table.map Prod.fst).Nodup) (h : (key, a) ∈ table) :
    table.Perm ((key, a) :: table.filter (·.1 != key)) := by
  obtain ⟨front, back, rfl⟩ := List.append_of_mem h
  rw [List.map_append, List.map_cons, List.nodup_append] at hkeys
  have hfront : ∀ p ∈ front, (p.1 != key) = true := by
    intro p hp
    simpa using hkeys.2.2 p.1 (List.mem_map_of_mem hp) key List.mem_cons_self
  have hback : ∀ p ∈ back, (p.1 != key) = true := by
    intro p hp
    have hne : p.1 ≠ key := fun heq => (List.nodup_cons.mp hkeys.2.1).1 (List.mem_map.mpr ⟨p, hp, heq⟩)
    simpa using hne
  rw [List.filter_append, List.filter_cons_of_neg (by simp), List.filter_eq_self.mpr hfront,
    List.filter_eq_self.mpr hback]
  exact List.perm_middle

theorem perm_of_lookup (hnames : (table.map Prod.fst).Nodup) (h : table.lookup name = some a) :
    table.Perm ((name, a) :: eraseNamed name table) :=
  perm_of_mem hnames (mem_of_lookup h)

theorem nodup_eraseNamed (hnames : (table.map Prod.fst).Nodup) (name : String) :
    ((eraseNamed name table).map Prod.fst).Nodup :=
  (List.filter_sublist.map Prod.fst).nodup hnames

theorem nodup_putNamed (hnames : (table.map Prod.fst).Nodup) (name : String) (a : α) :
    ((putNamed name a table).map Prod.fst).Nodup := by
  refine List.nodup_cons.mpr ⟨fun hmem => ?_, nodup_eraseNamed hnames name⟩
  obtain ⟨p, hp, heq⟩ := List.mem_map.mp hmem
  simpa [heq] using (List.mem_filter.mp hp).2

end TreeEdit
