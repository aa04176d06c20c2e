import Mathlib.Data.List.Basic
import TreeEdit.Proofs.Buffer.Order

/-!
# What a buffer remembers of its edits

A buffer keeps no record of its edits. `Buffer.accepted` is that record, the edits that were not refused,
in order, and `survivors` are those of them that no later one has done away with: a range that lies in a
range that is overwritten later is gone, and so is text inserted in front of one of its characters.

The buffer is all that the survivors leave (`edit_history`): whether the next edit is refused, and because
of which earlier one, is decided by them alone; its replacements are the surviving ranges, and the text
inserted at an offset is that of the surviving insertions there, put together in order.
-/

namespace TreeEdit

namespace Edit

/-- Does the edit do away with one that was made before it? -/
def supersedes : Edit → Edit → Bool
  | .overwrite s _ _, .overwrite t _ _ => s.start ≤ t.start && t.stop ≤ s.stop
  | .overwrite s _ _, .insert offset _ => s.contains offset
  | .insert .., _ => false

def replacement? : Edit → Option Replacement
  | .overwrite span h text => some ⟨span.start, span.stop, text, h⟩
  | .insert .. => none

/-- The text, if any, that an edit asks for at an offset. -/
def textAt? (offset : Nat) : Edit → Option (List Char)
  | .overwrite .. => none
  | .insert p text => if p = offset ∧ text ≠ [] then some text else none

end Edit

/-- The edits of a record that no later edit has done away with. -/
def survivors : List Edit → List Edit
  | [] => []
  | e :: later => if later.any (·.supersedes e) then survivors later else e :: survivors later

def replacementsOf (es : List Edit) : List Replacement :=
  es.filterMap Edit.replacement?

/-- The texts that some edits insert at an offset, put together; nothing if there are none. -/
def insertedBy (es : List Edit) (offset : Nat) : Option (List Char) :=
  let texts := es.filterMap (Edit.textAt? offset)
  if texts.isEmpty then none else some texts.flatten

namespace Buffer

/-- The buffer after an edit; one that is refused changes nothing. -/
def attempt (b : Buffer) (e : Edit) : Buffer :=
  match b.apply e with
  | .ok b => b
  | .error _ => b

def after (b : Buffer) (es : List Edit) : Buffer :=
  es.foldl attempt b

/-- Those of some edits that are not refused when they are made one after the other. -/
def accepted (b : Buffer) : List Edit → List Edit
  | [] => []
  | e :: es =>
    match b.apply e with
    | .ok b => e :: b.accepted es
    | .error _ => b.accepted es

/-- The edits to a text that are not done away with after some edits. -/
def live (text : List Char) (es : List Edit) : List Edit :=
  survivors (accepted { base := text } es)

end Buffer

/-! ## One more edit -/

theorem survivors_concat (log : List Edit) (e : Edit) :
    survivors (log ++ [e]) = (survivors log).filter (fun d => !e.supersedes d) ++ [e] := by
  induction log with
  | nil => rfl
  | cons d log ih =>
    rw [List.cons_append, survivors, survivors, List.any_append, ih]
    by_cases hlater : log.any (·.supersedes d) = true
    · simp [hlater]
    · by_cases he : e.supersedes d = true
      · simp [hlater, he]
      · simp [hlater, he]

theorem replacementsOf_filter (span : Span) (h : span.start < span.stop) (text : List Char)
    (es : List Edit) :
    replacementsOf (es.filter fun d => !(Edit.overwrite span h text).supersedes d) =
      (replacementsOf es).filter fun r => !(span.start ≤ r.start && r.stop ≤ span.stop) := by
  rw [replacementsOf, replacementsOf, List.filterMap_filter, List.filter_filterMap]
  refine List.filterMap_congr fun d _ => ?_
  cases d with
  | overwrite s hs t =>
    by_cases hc : span.start ≤ s.start ∧ s.stop ≤ span.stop
    · simp [Edit.supersedes, Edit.replacement?, Option.filter_some, hc]
    · simp [Edit.supersedes, Edit.replacement?, Option.filter_some]
  | insert p t => simp [Edit.replacement?]

theorem textsAt_filter (span : Span) (h : span.start < span.stop) (text : List Char)
    (es : List Edit) (offset : Nat) :
    (es.filter fun d => !(Edit.overwrite span h text).supersedes d).filterMap (Edit.textAt? offset) =
      if span.contains offset then [] else es.filterMap (Edit.textAt? offset) := by
  rw [List.filterMap_filter]
  by_cases hc : span.contains offset = true
  · rw [if_pos hc, List.filterMap_eq_nil_iff]
    intro d _
    cases d with
    | overwrite s hs t => simp [Edit.textAt?]
    | insert p t =>
      by_cases hp : p = offset
      · simp [Edit.supersedes, hp, hc]
      · simp [Edit.supersedes, Edit.textAt?, hp]
  · rw [if_neg hc]
    refine List.filterMap_congr fun d _ => ?_
    cases d with
    | overwrite s hs t => simp [Edit.textAt?]
    | insert p t =>
      by_cases hp : p = offset
      · simp [Edit.supersedes, Edit.textAt?, hp, hc]
      · simp [Edit.supersedes, Edit.textAt?, hp]

theorem insertedBy_filter (span : Span) (h : span.start < span.stop) (text : List Char)
    (es : List Edit) (offset : Nat) :
    insertedBy (es.filter fun d => !(Edit.overwrite span h text).supersedes d) offset =
      if span.contains offset then none else insertedBy es offset := by
  simp only [insertedBy, textsAt_filter]
  split <;> rfl

theorem insertedBy_concat_overwrite (es : List Edit) (span : Span) (h : span.start < span.stop)
    (text : List Char) (offset : Nat) :
    insertedBy (es ++ [.overwrite span h text]) offset = insertedBy es offset := by
  have hlast : [Edit.overwrite span h text].filterMap (Edit.textAt? offset) = [] := rfl
  simp only [insertedBy, List.filterMap_append, hlast, List.append_nil]

theorem insertedBy_concat (es : List Edit) (p offset : Nat) (text : List Char) (htext : text ≠ []) :
    insertedBy (es ++ [.insert p text]) offset =
      if offset = p then some ((insertedBy es offset).getD [] ++ text) else insertedBy es offset := by
  by_cases hp : offset = p
  · subst hp
    cases htexts : es.filterMap (Edit.textAt? offset) with
    | nil => simp [insertedBy, Edit.textAt?, htext, htexts]
    | cons first rest => simp [insertedBy, Edit.textAt?, htext, htexts]
  · simp [insertedBy, Edit.textAt?, hp, Ne.symm hp]

/-! ## The buffer of a record -/

namespace Buffer

/-- The buffer holds what the survivors of the record leave, and is in order. -/
structure Tracks (b : Buffer) (log : List Edit) : Prop where
  ordered : b.Ordered
  replaced : b.replacements.Perm (replacementsOf (survivors log))
  inserted : ∀ offset, b.insertedAt offset = insertedBy (survivors log) offset

theorem tracks_nil (text : List Char) : Tracks { base := text } [] :=
  ⟨ordered_of_base text, .refl _, fun _ => rfl⟩

theorem insertedAt_overwrite (b : Buffer) (span : Span) (h : span.start < span.stop)
    (text : List Char) (offset : Nat) :
    (b.absorb (.overwrite span h text)).insertedAt offset =
      if span.contains offset then none else b.insertedAt offset := by
  rw [insertedAt, absorb, List.find?_filter]
  by_cases hc : span.contains offset = true
  · rw [if_pos hc, List.find?_eq_none.mpr, Option.map_none]
    intro i _ hi
    obtain ⟨hout, heq⟩ : span.contains i.offset = false ∧ i.offset = offset := by simpa using hi
    rw [heq, hc] at hout
    cases hout
  · rw [if_neg hc, insertedAt]
    congr 2
    funext i
    by_cases hi : i.offset = offset
    · simp [hi, hc]
    · simp [hi]

theorem Tracks.absorb {b : Buffer} {log : List Edit} (h : b.Tracks log) {e : Edit}
    (he : b.checkEdges e.span = .ok ()) : (b.absorb e).Tracks (log ++ [e]) := by
  refine ⟨h.ordered.absorb he, ?_, fun offset => ?_⟩
  · rw [survivors_concat, replacementsOf, List.filterMap_append, ← replacementsOf, ← replacementsOf]
    cases e with
    | overwrite span hspan text =>
      rw [checkEdges_eq_ok_iff h.ordered] at he
      have hkept : (b.replacements.filter fun r => !span.contains r.start) =
          b.replacements.filter fun r => !(span.start ≤ r.start && r.stop ≤ span.stop) := by
        refine List.filter_congr fun r hr => congrArg not ?_
        have hstop : ¬ r.Straddles span.stop := (he r hr).2
        rw [Bool.eq_iff_iff, contains_start_iff hstop, Bool.and_eq_true, decide_eq_true_eq,
          decide_eq_true_eq]
      rw [replacementsOf_filter]
      refine (addReplacement_perm _ _).trans ?_
      rw [hkept]
      exact ((h.replaced.filter _).cons _).trans (List.perm_append_singleton _ _).symm
    | insert p text =>
      have hsame : (b.absorb (.insert p text)).replacements = b.replacements := by
        rw [Buffer.absorb]
        split <;> rfl
      have hlast : replacementsOf [.insert p text] = [] := rfl
      simpa [hsame, hlast, Edit.supersedes] using h.replaced
  · rw [survivors_concat]
    cases e with
    | overwrite span hspan text =>
      rw [insertedAt_overwrite, h.inserted, insertedBy_concat_overwrite, insertedBy_filter]
    | insert p text =>
      have hall : (survivors log).filter (fun d => !(Edit.insert p text).supersedes d) = survivors log := by
        simp [Edit.supersedes]
      rw [hall, Buffer.absorb]
      split
      · rename_i htext
        rw [List.isEmpty_iff] at htext
        simp [h.inserted, insertedBy, Edit.textAt?, htext]
      · rename_i htext
        rw [insertedBy_concat _ _ _ _ (by simpa using htext), ← h.inserted, insertedAt,
          find?_addInsertion h.ordered.sorted, ← insertedAt]

theorem apply_eq_ok_iff {b b' : Buffer} {e : Edit} :
    b.apply e = .ok b' ↔ b.checkEdges e.span = .ok () ∧ b' = b.absorb e := by
  rw [apply_eq]
  rcases checkEdges_cases b e.span with ⟨hok, -, -⟩ | ⟨existing, herr, -⟩
  · simp [hok, Except.map, eq_comm]
  · simp [herr, Except.map]

/-- **A whole sequence of edits**: the buffer holds what the survivors of those accepted leave. -/
theorem Tracks.after {b : Buffer} {log : List Edit} (h : b.Tracks log) (es : List Edit) :
    (b.after es).Tracks (log ++ b.accepted es) := by
  induction es generalizing b log with
  | nil => simpa [Buffer.after, accepted] using h
  | cons e es ih =>
    rw [Buffer.after, List.foldl_cons, accepted, attempt]
    cases hb : b.apply e with
    | error err => exact ih h
    | ok b' =>
      obtain ⟨he, rfl⟩ := apply_eq_ok_iff.mp hb
      have := ih (h.absorb he)
      rwa [List.append_assoc] at this

/-! ## What the record says of the next edit -/

theorem Tracks.mem_replacements {b : Buffer} {log : List Edit} (h : b.Tracks log) {r : Replacement} :
    r ∈ b.replacements ↔ r ∈ replacementsOf (survivors log) :=
  h.replaced.mem_iff

theorem Tracks.apply_ok_iff {b : Buffer} {log : List Edit} (h : b.Tracks log) (e : Edit) :
    (∃ b', b.apply e = .ok b') ↔
      ∀ r ∈ replacementsOf (survivors log),
        ¬ r.Straddles e.span.start ∧ ¬ r.Straddles e.span.stop := by
  have hcheck : (∃ b', b.apply e = .ok b') ↔ b.checkEdges e.span = .ok () := by
    constructor
    · rintro ⟨b', hb'⟩
      exact (apply_eq_ok_iff.mp hb').1
    · intro hok
      exact ⟨b.absorb e, apply_eq_ok_iff.mpr ⟨hok, rfl⟩⟩
  rw [hcheck, checkEdges_eq_ok_iff h.ordered]
  simp only [h.mem_replacements]

theorem Tracks.apply_error {b : Buffer} {log : List Edit} (h : b.Tracks log) {e : Edit}
    {err : TransformError} (he : b.apply e = .error err) :
    ∃ r ∈ replacementsOf (survivors log), err = .overlappingEdit e.span r.span ∧
      (r.Straddles e.span.start ∨
        (∀ s ∈ replacementsOf (survivors log), ¬ s.Straddles e.span.start) ∧
          r.Straddles e.span.stop) := by
  rw [apply_eq] at he
  rcases checkEdges_cases b e.span with ⟨hok, -, -⟩ | ⟨existing, herr, hex⟩
  · rw [hok] at he
    cases he
  · rw [herr] at he
    cases he
    rcases hex with hs | ⟨hs, ht⟩
    · obtain ⟨r, hr, hstr, rfl⟩ := (straddling_eq_some_iff h.ordered).mp hs
      exact ⟨r, h.mem_replacements.mp hr, rfl, .inl hstr⟩
    · obtain ⟨r, hr, hstr, rfl⟩ := (straddling_eq_some_iff h.ordered).mp ht
      rw [straddling_eq_none_iff h.ordered] at hs
      exact ⟨r, h.mem_replacements.mp hr, rfl,
        .inr ⟨fun s hsm => hs s (h.mem_replacements.mpr hsm), hstr⟩⟩

theorem attempt_of_error {b : Buffer} {e : Edit} {err : TransformError} (he : b.apply e = .error err) :
    b.attempt e = b := by
  rw [attempt, he]

@[simp] theorem after_base (b : Buffer) (es : List Edit) : (b.after es).base = b.base := by
  induction es generalizing b with
  | nil => rfl
  | cons e es ih =>
    rw [after, List.foldl_cons, ← after, ih, attempt]
    cases hb : b.apply e with
    | error err => rfl
    | ok b' =>
      obtain ⟨-, rfl⟩ := apply_eq_ok_iff.mp hb
      exact absorb_base b e

theorem after_concat (b : Buffer) (es : List Edit) (e : Edit) :
    b.after (es ++ [e]) = (b.after es).attempt e := by
  rw [after, List.foldl_append]
  rfl

/-- **A buffer is what the surviving edits leave.** After any sequence of edits to a text, the next edit
is made just when no surviving replacement has an end of its span strictly inside. If it is refused, the
error names its span and the surviving replacement around the first such end, and nothing changes. The
replacements are the surviving ones, in order and apart, and at each offset there is the text of the
surviving insertions, in order and put together. -/
theorem edit_history (text : List Char) (es : List Edit) :
    (∀ e, (∃ b, (after { base := text } es).apply e = .ok b) ↔
      ∀ r ∈ replacementsOf (live text es),
        ¬ r.Straddles e.span.start ∧ ¬ r.Straddles e.span.stop) ∧
    (∀ e err, (after { base := text } es).apply e = .error err →
      (∃ r ∈ replacementsOf (live text es), err = .overlappingEdit e.span r.span ∧
        (r.Straddles e.span.start ∨
          (∀ s ∈ replacementsOf (live text es), ¬ s.Straddles e.span.start) ∧
            r.Straddles e.span.stop)) ∧
      after { base := text } (es ++ [e]) = after { base := text } es) ∧
    (after { base := text } es).base = text ∧
    (after { base := text } es).replacements.Perm (replacementsOf (live text es)) ∧
    (after { base := text } es).replacements.Pairwise (·.stop ≤ ·.start) ∧
    (after { base := text } es).insertions.Pairwise (·.offset < ·.offset) ∧
    ∀ offset, (after { base := text } es).insertedAt offset = insertedBy (live text es) offset := by
  have h : (after { base := text } es).Tracks (accepted { base := text } es) :=
    (tracks_nil text).after es
  refine ⟨h.apply_ok_iff, fun e err he => ⟨h.apply_error he, ?_⟩, after_base _ _, h.replaced,
    h.ordered.apart, h.ordered.sorted, h.inserted⟩
  rw [after_concat, attempt_of_error he]

end Buffer

end TreeEdit
