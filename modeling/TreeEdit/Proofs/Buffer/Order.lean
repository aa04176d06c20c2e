import TreeEdit.Buffer.Basic

/-!
# Edits in order

`Buffer.Ordered` says that the replacements are apart and in order, and that the insertions are in
order, outside of all replacements and not empty. In an ordered buffer

* `straddling` looks at one replacement, the last that starts before an offset (`Ordered.straddling_cases`),
  and finds the one with the offset strictly inside (`straddling_eq_some_iff`), so `checkEdges` accepts a
  span just when no replacement has an end of it inside (`checkEdges_eq_ok_iff`);
* the look-ups of a replacement and of an insertion find the one that is there (`replacedAt_eq_some_iff`,
  `mem_insertions_iff`).

An `Edit` is one of the two ways to change a buffer. Both are refused by the same test of the ends of a
span (`apply_eq`), and one that is not refused keeps the order (`Ordered.absorb`).
-/

namespace TreeEdit

def Replacement.Straddles (r : Replacement) (offset : Nat) : Prop :=
  r.start < offset ∧ offset < r.stop

instance (r : Replacement) (offset : Nat) : Decidable (r.Straddles offset) :=
  inferInstanceAs (Decidable (_ ∧ _))

namespace Buffer

/-- The edits of the buffer are in order and do not get in each other's way. -/
structure Ordered (b : Buffer) : Prop where
  apart : b.replacements.Pairwise (·.stop ≤ ·.start)
  sorted : b.insertions.Pairwise (·.offset < ·.offset)
  outside : ∀ i ∈ b.insertions, ∀ r ∈ b.replacements, ¬ r.Straddles i.offset
  filled : ∀ i ∈ b.insertions, i.text ≠ []

theorem ordered_of_base (text : List Char) : Ordered { base := text } :=
  ⟨.nil, .nil, by simp, by simp⟩

theorem Ordered.eq_or_apart {b : Buffer} (hb : b.Ordered) {r s : Replacement}
    (hr : r ∈ b.replacements) (hs : s ∈ b.replacements) :
    r = s ∨ r.stop ≤ s.start ∨ s.stop ≤ r.start := by
  refine List.Pairwise.forall_of_forall_of_flip
    (R := fun r s : Replacement => r = s ∨ r.stop ≤ s.start ∨ s.stop ≤ r.start)
    (fun r _ => .inl rfl) ?_ ?_ hr hs
  · exact hb.apart.imp fun h => .inr (.inl h)
  · exact hb.apart.imp fun h => .inr (.inr h)

/-! ## The test of the ends of a span -/

/-- The replacement is the last of the buffer that starts before the offset. -/
structure IsLastBefore (b : Buffer) (offset : Nat) (r : Replacement) : Prop where
  mem : r ∈ b.replacements
  before : r.start < offset
  last : ∀ s ∈ b.replacements, s.start < offset → s.start ≤ r.start

/-- **Only one replacement is looked at**, the last that starts before the offset. -/
theorem Ordered.straddling_cases {b : Buffer} (hb : b.Ordered) (offset : Nat) :
    ((∀ r ∈ b.replacements, offset ≤ r.start) ∧ b.straddling offset = none) ∨
    ∃ r, b.IsLastBefore offset r ∧ b.straddling offset = if offset < r.stop then some r.span else none := by
  unfold straddling
  cases hlast : (b.replacements.filter (·.start < offset)).getLast? with
  | none =>
    rw [List.getLast?_eq_none_iff, List.filter_eq_nil_iff] at hlast
    exact .inl ⟨fun r hr => by simpa using hlast r hr, rfl⟩
  | some r =>
    obtain ⟨front, hfront⟩ := List.getLast?_eq_some_iff.mp hlast
    obtain ⟨hmem, hbefore⟩ : r ∈ b.replacements ∧ r.start < offset := by
      simpa using List.mem_of_getLast? hlast
    refine .inr ⟨r, ⟨hmem, hbefore, fun s hs hstart => ?_⟩, rfl⟩
    have hapart := hb.apart.filter (·.start < offset)
    have hs' : s ∈ b.replacements.filter (·.start < offset) := by simp [hs, hstart]
    rw [hfront] at hapart hs'
    rcases List.mem_append.mp hs' with hs' | hs'
    · have hle := (List.pairwise_append.mp hapart).2.2 s hs' r (by simp)
      have := s.start_lt_stop
      omega
    · exact Nat.le_of_eq (congrArg Replacement.start (List.mem_singleton.mp hs'))

theorem straddling_eq_some_iff {b : Buffer} (hb : b.Ordered) {offset : Nat} {span : Span} :
    b.straddling offset = some span ↔
      ∃ r ∈ b.replacements, r.Straddles offset ∧ r.span = span := by
  rcases hb.straddling_cases offset with ⟨hnone, heq⟩ | ⟨r, hr, heq⟩
  · rw [heq]
    refine ⟨fun h => (nomatch h), ?_⟩
    rintro ⟨s, hs, ⟨hstart, -⟩, -⟩
    have := hnone s hs
    omega
  · rw [heq]
    constructor
    · intro h
      split at h
      · rename_i hstop
        exact ⟨r, hr.mem, ⟨hr.before, hstop⟩, Option.some.inj h⟩
      · cases h
    · rintro ⟨s, hs, ⟨hstart, hstop⟩, rfl⟩
      -- one that starts before `r` stops before `r` starts, and so before the offset
      have hle := hr.last s hs hstart
      have hbefore := hr.before
      have := r.start_lt_stop
      rcases hb.eq_or_apart hr.mem hs with rfl | h | h
      · exact if_pos hstop
      · omega
      · omega

theorem straddling_eq_none_iff {b : Buffer} (hb : b.Ordered) {offset : Nat} :
    b.straddling offset = none ↔ ∀ r ∈ b.replacements, ¬ r.Straddles offset := by
  constructor
  · intro h r hr hstr
    rw [(straddling_eq_some_iff hb).mpr ⟨r, hr, hstr, rfl⟩] at h
    cases h
  · intro h
    cases hs : b.straddling offset with
    | none => rfl
    | some span =>
      obtain ⟨r, hr, hstr, -⟩ := (straddling_eq_some_iff hb).mp hs
      exact absurd hstr (h r hr)

theorem checkEdges_cases (b : Buffer) (span : Span) :
    (b.checkEdges span = .ok () ∧ b.straddling span.start = none ∧ b.straddling span.stop = none) ∨
    ∃ existing, b.checkEdges span = .error (.overlappingEdit span existing) ∧
      (b.straddling span.start = some existing ∨
        b.straddling span.start = none ∧ b.straddling span.stop = some existing) := by
  unfold checkEdges
  cases hs : b.straddling span.start with
  | some existing => exact .inr ⟨existing, rfl, .inl rfl⟩
  | none =>
    cases ht : b.straddling span.stop with
    | some existing => exact .inr ⟨existing, rfl, .inr ⟨rfl, rfl⟩⟩
    | none => exact .inl ⟨rfl, rfl, rfl⟩

theorem checkEdges_eq_ok_iff {b : Buffer} (hb : b.Ordered) {span : Span} :
    b.checkEdges span = .ok () ↔
      ∀ r ∈ b.replacements, ¬ r.Straddles span.start ∧ ¬ r.Straddles span.stop := by
  rcases checkEdges_cases b span with ⟨hok, hs, ht⟩ | ⟨existing, herr, hex⟩
  · rw [straddling_eq_none_iff hb] at hs ht
    refine ⟨fun _ r hr => ⟨hs r hr, ht r hr⟩, fun _ => hok⟩
  · rw [herr]
    refine ⟨fun h => (nomatch h), fun h => ?_⟩
    rcases hex with hs | ⟨-, ht⟩
    · obtain ⟨r, hr, hstr, -⟩ := (straddling_eq_some_iff hb).mp hs
      exact absurd hstr (h r hr).1
    · obtain ⟨r, hr, hstr, -⟩ := (straddling_eq_some_iff hb).mp ht
      exact absurd hstr (h r hr).2

theorem clear_of_not_contains {span : Span} {r : Replacement}
    (hs : ¬ r.Straddles span.start) (h : span.contains r.start = false) :
    r.stop ≤ span.start ∨ span.stop ≤ r.start := by
  have := r.start_lt_stop
  simp only [Replacement.Straddles, Span.contains, Bool.and_eq_false_iff, decide_eq_false_iff_not] at hs h
  omega

theorem contains_start_iff {span : Span} {r : Replacement} (ht : ¬ r.Straddles span.stop) :
    span.contains r.start = true ↔ span.start ≤ r.start ∧ r.stop ≤ span.stop := by
  have := r.start_lt_stop
  simp only [Replacement.Straddles, Span.contains, Bool.and_eq_true, decide_eq_true_eq] at ht ⊢
  omega

/-! ## Look-ups -/

theorem Ordered.eq_of_start_eq {b : Buffer} (hb : b.Ordered) {r s : Replacement}
    (hr : r ∈ b.replacements) (hs : s ∈ b.replacements) (h : r.start = s.start) : r = s := by
  have := r.start_lt_stop
  have := s.start_lt_stop
  rcases hb.eq_or_apart hr hs with heq | hlt | hlt
  · exact heq
  · omega
  · omega

theorem replacedAt_eq_some_iff {b : Buffer} (hb : b.Ordered) {offset : Nat} {r : Replacement} :
    b.replacedAt offset = some r ↔ r ∈ b.replacements ∧ r.start = offset := by
  constructor
  · intro h
    exact ⟨List.mem_of_find?_eq_some h, start_of_replacedAt h⟩
  · rintro ⟨hr, rfl⟩
    cases hs : b.replacedAt r.start with
    | none =>
      have := List.find?_eq_none.mp hs r hr
      simp at this
    | some s =>
      rw [hb.eq_of_start_eq (List.mem_of_find?_eq_some hs) hr (start_of_replacedAt hs)]

theorem replacedAt_eq_none_iff {b : Buffer} {offset : Nat} :
    b.replacedAt offset = none ↔ ∀ r ∈ b.replacements, r.start ≠ offset := by
  simp [replacedAt]

theorem Ordered.eq_of_offset_eq {b : Buffer} (hb : b.Ordered) {i j : Insertion}
    (hi : i ∈ b.insertions) (hj : j ∈ b.insertions) (h : i.offset = j.offset) : i = j := by
  have hcases : i = j ∨ i.offset ≠ j.offset := by
    refine List.Pairwise.forall_of_forall_of_flip
      (R := fun i j : Insertion => i = j ∨ i.offset ≠ j.offset) (fun i _ => .inl rfl) ?_ ?_ hi hj
    · exact hb.sorted.imp fun hlt => .inr (Nat.ne_of_lt hlt)
    · exact hb.sorted.imp fun hlt => .inr (Nat.ne_of_gt hlt)
  exact hcases.resolve_right fun hne => hne h

theorem mem_insertions_iff {b : Buffer} (hb : b.Ordered) {i : Insertion} :
    i ∈ b.insertions ↔ b.insertedAt i.offset = some i.text := by
  constructor
  · intro hi
    have hsome : (b.insertions.find? (·.offset == i.offset)).isSome := by
      rw [List.find?_isSome]
      exact ⟨i, hi, by simp⟩
    obtain ⟨j, hj⟩ := Option.isSome_iff_exists.mp hsome
    have hsame : j.offset = i.offset := by simpa using List.find?_some hj
    rw [insertedAt, hj, hb.eq_of_offset_eq (List.mem_of_find?_eq_some hj) hi hsame]
    rfl
  · intro hi
    obtain ⟨j, hj, htext⟩ := Option.map_eq_some_iff.mp hi
    have hsame : j.offset = i.offset := by simpa using List.find?_some hj
    have hij : j = i := by
      cases i
      cases j
      simp_all
    exact hij ▸ List.mem_of_find?_eq_some hj

/-! ## Putting an edit in its place -/

theorem addReplacement_perm (r : Replacement) (rs : List Replacement) :
    (addReplacement r rs).Perm (r :: rs) := by
  induction rs with
  | nil => exact .refl _
  | cons s rs ih =>
    rw [addReplacement]
    split
    · exact .refl _
    · exact (ih.cons s).trans (.swap r s rs)

theorem mem_addReplacement {r s : Replacement} {rs : List Replacement} :
    s ∈ addReplacement r rs ↔ s = r ∨ s ∈ rs := by
  rw [(addReplacement_perm r rs).mem_iff, List.mem_cons]

theorem addReplacement_apart {r : Replacement} {rs : List Replacement}
    (h : rs.Pairwise (·.stop ≤ ·.start)) (hr : ∀ s ∈ rs, s.stop ≤ r.start ∨ r.stop ≤ s.start) :
    (addReplacement r rs).Pairwise (·.stop ≤ ·.start) := by
  induction rs with
  | nil => exact List.pairwise_singleton _ _
  | cons s rs ih =>
    obtain ⟨hs, hrs⟩ := List.pairwise_cons.mp h
    have hsr := hr s (by simp)
    have := r.start_lt_stop
    have := s.start_lt_stop
    rw [addReplacement]
    split
    · refine List.pairwise_cons.mpr ⟨fun u hu => ?_, h⟩
      rcases List.mem_cons.mp hu with rfl | hu
      · omega
      · have := hs u hu
        omega
    · refine List.pairwise_cons.mpr ⟨fun u hu => ?_, ih hrs fun u hu => hr u (by simp [hu])⟩
      rcases mem_addReplacement.mp hu with rfl | hu
      · omega
      · exact hs u hu

theorem addReplacement_concat {r : Replacement} {rs : List Replacement}
    (h : ∀ s ∈ rs, s.start ≤ r.start) : addReplacement r rs = rs ++ [r] := by
  induction rs with
  | nil => rfl
  | cons s rs ih =>
    have hs := h s (by simp)
    rw [addReplacement, if_neg (by omega), ih fun u hu => h u (by simp [hu]), List.cons_append]

theorem mem_addInsertion {offset : Nat} {text : List Char} {is : List Insertion} {i : Insertion}
    (h : i ∈ addInsertion offset text is) :
    i ∈ is ∨ i.offset = offset ∧ ∃ front, i.text = front ++ text := by
  induction is with
  | nil =>
    rw [addInsertion, List.mem_singleton] at h
    exact .inr ⟨by rw [h], [], by rw [h]; rfl⟩
  | cons j is ih =>
    rw [addInsertion] at h
    split at h
    · rcases List.mem_cons.mp h with rfl | h
      · exact .inr ⟨rfl, [], rfl⟩
      · exact .inl h
    · split at h
      · rcases List.mem_cons.mp h with rfl | h
        · exact .inr ⟨rfl, j.text, rfl⟩
        · exact .inl (List.mem_cons_of_mem _ h)
      · rcases List.mem_cons.mp h with rfl | h
        · exact .inl (by simp)
        · exact (ih h).imp_left (List.mem_cons_of_mem _)

theorem addInsertion_sorted {offset : Nat} {text : List Char} {is : List Insertion}
    (h : is.Pairwise (·.offset < ·.offset)) :
    (addInsertion offset text is).Pairwise (·.offset < ·.offset) := by
  induction is with
  | nil => exact List.pairwise_singleton _ _
  | cons j is ih =>
    obtain ⟨hj, his⟩ := List.pairwise_cons.mp h
    rw [addInsertion]
    split
    · rename_i hlt
      refine List.pairwise_cons.mpr ⟨fun u hu => ?_, h⟩
      rcases List.mem_cons.mp hu with rfl | hu
      · exact hlt
      · exact Nat.lt_trans hlt (hj u hu)
    · split
      · rename_i heq
        exact List.pairwise_cons.mpr ⟨fun u hu => heq ▸ hj u hu, his⟩
      · refine List.pairwise_cons.mpr ⟨fun u hu => ?_, ih his⟩
        rcases mem_addInsertion hu with hu | ⟨hoff, -⟩
        · exact hj u hu
        · omega

theorem find?_addInsertion {offset : Nat} {text : List Char} {is : List Insertion}
    (h : is.Pairwise (·.offset < ·.offset)) (p : Nat) :
    ((addInsertion offset text is).find? (·.offset == p)).map (·.text) =
      if p = offset then some (((is.find? (·.offset == p)).map (·.text)).getD [] ++ text)
      else (is.find? (·.offset == p)).map (·.text) := by
  induction is with
  | nil =>
    rw [addInsertion]
    by_cases hp : p = offset
    · simp [hp]
    · simp [hp, Ne.symm hp]
  | cons j is ih =>
    obtain ⟨hj, his⟩ := List.pairwise_cons.mp h
    rw [addInsertion]
    split
    · rename_i hlt
      by_cases hp : p = offset
      · -- all that is there comes after the offset
        have hnone : (j :: is).find? (·.offset == p) = none := by
          rw [List.find?_eq_none]
          intro u hu
          rcases List.mem_cons.mp hu with rfl | hu
          · simp; omega
          · have := hj u hu
            simp; omega
        rw [if_pos hp, hnone, List.find?_cons_of_pos (by simp [hp])]
        rfl
      · rw [if_neg hp, List.find?_cons_of_neg (by simp; omega)]
    · split
      · rename_i heq
        by_cases hp : p = offset
        · rw [if_pos hp, List.find?_cons_of_pos (by simp [hp]), List.find?_cons_of_pos (by simp; omega)]
          rfl
        · rw [if_neg hp, List.find?_cons_of_neg (by simp; omega), List.find?_cons_of_neg (by simp; omega)]
      · by_cases hjp : j.offset = p
        · rw [if_neg (by omega), List.find?_cons_of_pos (by simp [hjp]),
            List.find?_cons_of_pos (by simp [hjp])]
        · rw [List.find?_cons_of_neg (by simp [hjp]), List.find?_cons_of_neg (by simp [hjp]), ih his]

/-! ## Edits -/

end Buffer

/-- A way to change a buffer. -/
inductive Edit where
  /-- New text for a non-empty range. -/
  | overwrite (span : Span) (nonempty : span.start < span.stop) (text : List Char)
  /-- New text in front of an offset. -/
  | insert (offset : Nat) (text : List Char)
  deriving DecidableEq

def Edit.span : Edit → Span
  | .overwrite span _ _ => span
  | .insert offset _ => .empty offset

namespace Buffer

/-- Makes an edit, or refuses it. -/
def apply (b : Buffer) : Edit → Except TransformError Buffer
  | .overwrite span h text => b.overwrite span h text
  | .insert offset text => b.insert offset text

def absorb (b : Buffer) : Edit → Buffer
  | .overwrite span h text =>
    { b with
      replacements := addReplacement ⟨span.start, span.stop, text, h⟩
        (b.replacements.filter fun r => !span.contains r.start)
      insertions := b.insertions.filter fun i => !span.contains i.offset }
  | .insert offset text =>
    if text.isEmpty then b else { b with insertions := addInsertion offset text b.insertions }

/-- **Edits of both kinds pass the same test**: no end of their span is inside a replacement. -/
theorem apply_eq (b : Buffer) (e : Edit) :
    b.apply e = (b.checkEdges e.span).map fun _ => b.absorb e := by
  cases e with
  | overwrite span h text =>
    rcases checkEdges_cases b span with ⟨hok, -, -⟩ | ⟨existing, herr, -⟩
    · simp only [apply, overwrite, Edit.span, hok]
      rfl
    · simp only [apply, overwrite, Edit.span, herr]
      rfl
  | insert offset text =>
    simp only [apply, insert, absorb, Edit.span, checkEdges, Span.empty]
    cases b.straddling offset with
    | some existing => rfl
    | none =>
      simp only
      split <;> rfl

@[simp] theorem absorb_base (b : Buffer) (e : Edit) : (b.absorb e).base = b.base := by
  cases e with
  | overwrite span h text => rfl
  | insert offset text =>
    rw [absorb]
    split <;> rfl

theorem Ordered.absorb {b : Buffer} (hb : b.Ordered) {e : Edit} (he : b.checkEdges e.span = .ok ()) :
    (b.absorb e).Ordered := by
  rw [checkEdges_eq_ok_iff hb] at he
  cases e with
  | overwrite span h text =>
    have hkept : ∀ r ∈ b.replacements.filter (fun r => !span.contains r.start),
        r ∈ b.replacements ∧ (r.stop ≤ span.start ∨ span.stop ≤ r.start) := by
      intro r hr
      obtain ⟨hr, hout⟩ := List.mem_filter.mp hr
      exact ⟨hr, clear_of_not_contains (he r hr).1 (by simpa using hout)⟩
    refine ⟨?_, hb.sorted.filter _, ?_, ?_⟩
    · exact addReplacement_apart (hb.apart.filter _) fun r hr => (hkept r hr).2
    · intro i hi r hr
      obtain ⟨hi, hout⟩ := List.mem_filter.mp hi
      rcases mem_addReplacement.mp hr with rfl | hr
      · simp only [Span.contains, Bool.not_eq_true', Bool.and_eq_false_iff,
          decide_eq_false_iff_not] at hout
        simp only [Replacement.Straddles]
        omega
      · exact hb.outside i hi r (hkept r hr).1
    · intro i hi
      exact hb.filled i (List.mem_filter.mp hi).1
  | insert offset text =>
    rw [Buffer.absorb]
    split
    · exact hb
    · rename_i htext
      refine ⟨hb.apart, addInsertion_sorted hb.sorted, ?_, ?_⟩
      · intro i hi r hr
        rcases mem_addInsertion hi with hi | ⟨hoff, -⟩
        · exact hb.outside i hi r hr
        · rw [hoff]
          exact (he r hr).1
      · intro i hi
        rcases mem_addInsertion hi with hi | ⟨-, front, hfront⟩
        · exact hb.filled i hi
        · rw [hfront]
          simp only [List.isEmpty_iff] at htext
          simp [htext]

end Buffer

end TreeEdit
