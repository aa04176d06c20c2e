import Mathlib.Data.List.Perm.Basic
import TreeEdit.Json.Reader

/-!
# Records in any order, and no other members

A record is read from an object in one pass, each member changing the record that was made of the members before. When the
changes commute, it does not matter in which order the members come (`read_in_any_order`). This is put together of the fields
that may be given or not (`Part.append`, `Part.read`).

A reader that is not lenient reads an object only if every key names a field and none comes twice, wherever in the object
they are (`not_spoilt_of_read`); and then every member was read (`exists_set_of_read`).
-/

namespace TreeEdit.Json

def Member.key : Member → Except Fault String
  | .mk key _ => key

/-- The member of a field, if the field is given. -/
def given (key : String) (value : Option Document) : List Member :=
  value.toList.map (.mk (.ok key))

/-- An object with just these members, in any order. -/
def Document.Has (d : Document) (ms : List Member) : Prop :=
  ∃ ms', ms'.Perm ms ∧ d = .object ms' .closed

/-- Some member does not belong to any of the fields, or two have the same key. -/
def Spoilt (fields : List String) (ms : List Member) : Prop :=
  (∃ m ∈ ms, ∀ k ∈ fields, m.key ≠ .ok k) ∨ ¬ (ms.map Member.key).Nodup

namespace Shape

variable {σ : Type} {shape : Shape σ} {record : σ} {ms : List Member}

/-! ## Any order -/

/-- The member belongs to a field, and reading it changes any record as `change` does. -/
def Acts (shape : Shape σ) (m : Member) (change : σ → σ) : Prop :=
  ∃ k d, m = .mk (.ok k) d ∧ k ∈ shape.fields ∧ ∀ r, shape.set k d r = .ok (change r)

theorem readMembers_cons {seen : List String} {k : String} {d : Document} {next : σ} (hknown : k ∈ shape.fields)
    (hnew : k ∉ seen) (hset : shape.set k d record = .ok next) :
    shape.readMembers seen record (.mk (.ok k) d :: ms) = shape.readMembers (k :: seen) next ms := by
  have hcontains : shape.fields.contains k = true := List.contains_iff_mem.mpr hknown
  have hseen : ¬ seen.contains k = true := fun h => hnew (List.contains_iff_mem.mp h)
  rw [readMembers]
  change (if shape.fields.contains k = true then _ else _) = _
  rw [if_pos hcontains, if_neg hseen]
  change ((shape.set k d record).bind fun r => shape.readMembers (k :: seen) r ms) = _
  rw [hset]
  rfl

theorem readMembers_of_acts {changes : List (σ → σ)} (hacts : List.Forall₂ shape.Acts ms changes) (seen : List String)
    (hseen : ∀ k ∈ seen, .ok k ∉ ms.map Member.key) (hnodup : (ms.map Member.key).Nodup) (record : σ) :
    ∃ all, shape.readMembers seen record ms = .ok (all, changes.foldl (fun r change => change r) record) := by
  induction hacts generalizing seen record with
  | nil => exact ⟨seen, rfl⟩
  | @cons m change ms changes hm _ ih =>
    obtain ⟨k, d, rfl, hknown, hset⟩ := hm
    rw [List.map_cons, List.nodup_cons] at hnodup
    have hnew : k ∉ seen := fun h => hseen k h List.mem_cons_self
    have hseen' : ∀ k' ∈ k :: seen, .ok k' ∉ ms.map Member.key := by
      intro k' hk' hmem
      rcases List.mem_cons.mp hk' with rfl | hk'
      · exact hnodup.1 hmem
      · exact hseen k' hk' (List.mem_cons_of_mem _ hmem)
    rw [readMembers_cons hknown hnew (hset record)]
    exact ih (k :: seen) hseen' hnodup.2 (change record)

/-- **A record is read in any order**, if the changes that its members make commute. -/
theorem read_in_any_order {changes : List (σ → σ)} (hacts : List.Forall₂ shape.Acts ms changes)
    (hnodup : (ms.map Member.key).Nodup) (hcomm : ∀ f ∈ changes, ∀ g ∈ changes, ∀ r, g (f r) = f (g r))
    {ms' : List Member} (hperm : ms'.Perm ms) (record : σ) :
    shape.read record (.object ms' .closed) = .ok (changes.foldl (fun r change => change r) record) := by
  obtain ⟨changes', hacts', hchanges⟩ := List.perm_comp_forall₂ hperm hacts
  have hnodup' : (ms'.map Member.key).Nodup := (hperm.map Member.key).nodup_iff.mpr hnodup
  obtain ⟨all, hread⟩ := readMembers_of_acts hacts' [] (fun k hk => absurd hk (by simp)) hnodup' record
  have hsame : changes'.foldl (fun r change => change r) record = changes.foldl (fun r change => change r) record :=
    (hchanges.symm.foldl_eq' (fun f hf g hg r => hcomm f hf g hg r) record).symm
  rw [read, hread, hsame]
  rfl

/-! ## Fields that may be given -/

/-- Members with some of the keys, each at most once, and the changes that they make. -/
structure Part (shape : Shape σ) (keys : List String) (ms : List Member) (changes : List (σ → σ)) : Prop where
  acts : List.Forall₂ shape.Acts ms changes
  keys : (ms.map Member.key).Sublist (keys.map .ok)

theorem part_given {α : Type} {key : String} {put : α → σ → σ} {R : α → Document → Prop} {a : Option α}
    {value : Option Document} (hknown : key ∈ shape.fields) (hset : ∀ a d, R a d → ∀ r, shape.set key d r = .ok (put a r))
    (h : Option.Rel R a value) : shape.Part [key] (given key value) (a.toList.map put) := by
  cases h with
  | none => exact ⟨.nil, List.nil_sublist _⟩
  | some hR => exact ⟨.cons ⟨key, _, rfl, hknown, hset _ _ hR⟩ .nil, List.Sublist.refl _⟩

theorem part_given_map {α : Type} {key : String} {put : α → σ → σ} {f : α → Document} (hknown : key ∈ shape.fields)
    (hset : ∀ a r, shape.set key (f a) r = .ok (put a r)) (a : Option α) :
    shape.Part [key] (given key (a.map f)) (a.toList.map put) := by
  have hrel : Option.Rel (fun a d => d = f a) a (a.map f) := by
    cases a with
    | none => exact .none
    | some a => exact .some rfl
  refine part_given hknown ?_ hrel
  rintro a _ rfl r
  exact hset a r

variable {keys keys' : List String} {ms' : List Member} {changes changes' : List (σ → σ)}

theorem Part.append (h : shape.Part keys ms changes) (h' : shape.Part keys' ms' changes') :
    shape.Part (keys ++ keys') (ms ++ ms') (changes ++ changes') := by
  refine ⟨List.rel_append h.acts h'.acts, ?_⟩
  rw [List.map_append, List.map_append]
  exact h.keys.append h'.keys

theorem Part.read (h : shape.Part keys ms changes) (hnodup : keys.Nodup)
    (hcomm : ∀ f ∈ changes, ∀ g ∈ changes, ∀ r, g (f r) = f (g r)) {d : Document} (hd : d.Has ms) (record : σ) :
    shape.read record d = .ok (changes.foldl (fun r change => change r) record) := by
  obtain ⟨ms', hperm, rfl⟩ := hd
  have hkeys : (keys.map .ok : List (Except Fault String)).Nodup :=
    List.Pairwise.map _ (fun _ _ hne heq => hne (Except.ok.inj heq)) hnodup
  exact read_in_any_order h.acts (h.keys.nodup hkeys) hcomm hperm record

/-! ## No other members -/

theorem readMembers_cons_eq_ok (hstrict : shape.lenient = false) {seen : List String} {m : Member}
    {result : List String × σ} (h : shape.readMembers seen record (m :: ms) = .ok result) :
    ∃ k d next, m = .mk (.ok k) d ∧ k ∈ shape.fields ∧ k ∉ seen ∧ shape.set k d record = .ok next ∧
      shape.readMembers (k :: seen) next ms = .ok result := by
  obtain ⟨key, d⟩ := m
  cases key with
  | error f => cases h
  | ok k =>
    rw [readMembers] at h
    change (if shape.fields.contains k = true then _ else _) = _ at h
    split at h
    · rename_i hknown
      split at h
      · cases h
      · rename_i hnew
        change ((shape.set k d record).bind fun r => shape.readMembers (k :: seen) r ms) = _ at h
        cases hset : shape.set k d record with
        | error f =>
          rw [hset] at h
          cases h
        | ok next =>
          rw [hset] at h
          exact ⟨k, d, next, rfl, List.contains_iff_mem.mp hknown, fun hmem => hnew (List.contains_iff_mem.mpr hmem), hset, h⟩
    · rw [hstrict] at h
      cases h

theorem of_readMembers_eq_ok (hstrict : shape.lenient = false) {seen : List String} {result : List String × σ}
    (h : shape.readMembers seen record ms = .ok result) :
    (ms.map Member.key).Nodup ∧ ∀ m ∈ ms, ∃ k d, m = .mk (.ok k) d ∧ k ∈ shape.fields ∧ k ∉ seen ∧
      ∃ r r', shape.set k d r = .ok r' := by
  induction ms generalizing seen record with
  | nil => simp
  | cons m ms ih =>
    obtain ⟨k, d, next, rfl, hknown, hnew, hset, hrest⟩ := readMembers_cons_eq_ok hstrict h
    obtain ⟨hnodup, hall⟩ := ih hrest
    constructor
    · refine List.nodup_cons.mpr ⟨fun hmem => ?_, hnodup⟩
      obtain ⟨m', hm', hkey⟩ := List.mem_map.mp hmem
      obtain ⟨k', d', rfl, -, hk', -⟩ := hall m' hm'
      cases hkey
      exact hk' List.mem_cons_self
    · intro m' hm'
      rcases List.mem_cons.mp hm' with rfl | hm'
      · exact ⟨k, d, rfl, hknown, hnew, record, next, hset⟩
      · obtain ⟨k', d', rfl, hknown', hk', hset'⟩ := hall m' hm'
        exact ⟨k', d', rfl, hknown', fun hmem => hk' (List.mem_cons_of_mem k hmem), hset'⟩

variable {ending : Ending} {result : σ}

theorem readMembers_of_read_eq_ok (h : shape.read record (.object ms ending) = .ok result) :
    ∃ all, shape.readMembers [] record ms = .ok (all, result) := by
  rw [read] at h
  cases hread : shape.readMembers [] record ms with
  | error f =>
    rw [hread] at h
    cases h
  | ok p =>
    rw [hread] at h
    change ((Document.passIf ending.objectFault?).bind fun _ => .ok p.2) = _ at h
    cases hpass : Document.passIf ending.objectFault? with
    | error f =>
      rw [hpass] at h
      cases h
    | ok u =>
      rw [hpass] at h
      cases h
      exact ⟨p.1, rfl⟩

theorem not_spoilt_of_read (hstrict : shape.lenient = false) (h : shape.read record (.object ms ending) = .ok result) :
    ¬ Spoilt shape.fields ms := by
  obtain ⟨all, hread⟩ := readMembers_of_read_eq_ok h
  obtain ⟨hnodup, hall⟩ := of_readMembers_eq_ok hstrict hread
  rintro (⟨m, hm, hunknown⟩ | htwice)
  · obtain ⟨k, d, rfl, hknown, -, -⟩ := hall m hm
    exact hunknown k hknown rfl
  · exact htwice hnodup

theorem exists_set_of_read (hstrict : shape.lenient = false) (h : shape.read record (.object ms ending) = .ok result)
    {k : String} {d : Document} (hm : .mk (.ok k) d ∈ ms) : ∃ r r', shape.set k d r = .ok r' := by
  obtain ⟨all, hread⟩ := readMembers_of_read_eq_ok h
  obtain ⟨k', d', heq, -, -, hset⟩ := (of_readMembers_eq_ok hstrict hread).2 _ hm
  cases heq
  exact hset

end Shape

end TreeEdit.Json
