import TreeEdit.Proofs.Buffer.History

/-!
# The ends of a span and what it overlaps

A span with some bytes may be edited or read when each replacement lies in it or has no byte in common with it. It need not
be compared with every replacement. One that is cut through has an end of the span strictly inside (`cut_iff`), and for each
of the two ends it is enough to look at one replacement, the last that starts before it (`Ordered.straddling_cases`). This
rests on the order of the replacements, which all edits keep (`edges_decide_overlap`).
-/

namespace TreeEdit

namespace Span

/-- The two spans have a byte in common. -/
def Overlaps (s t : Span) : Prop :=
  ∃ offset, s.contains offset = true ∧ t.contains offset = true

/-- The first span is a part of the second, or all of it. -/
def Within (s t : Span) : Prop :=
  t.start ≤ s.start ∧ s.stop ≤ t.stop

instance (s t : Span) : Decidable (s.Within t) :=
  inferInstanceAs (Decidable (_ ∧ _))

theorem overlaps_iff {s t : Span} : s.Overlaps t ↔ max s.start t.start < min s.stop t.stop := by
  simp only [Overlaps, contains, Bool.and_eq_true, decide_eq_true_eq]
  constructor
  · rintro ⟨offset, hs, ht⟩
    omega
  · intro h
    exact ⟨max s.start t.start, by omega, by omega⟩

instance (s t : Span) : Decidable (s.Overlaps t) :=
  decidable_of_iff _ overlaps_iff.symm

end Span

/-- **A replacement that is cut through has an end of the span inside.** An empty span would overlap nothing, even inside
a replacement. -/
theorem Replacement.cut_iff (r : Replacement) {span : Span} (hspan : span.start < span.stop) :
    r.span.Overlaps span ∧ ¬ r.span.Within span ↔ r.Straddles span.start ∨ r.Straddles span.stop := by
  have := r.start_lt_stop
  simp only [Span.overlaps_iff, Span.Within, Straddles, Replacement.span]
  omega

namespace Buffer

variable {b : Buffer}

theorem Ordered.eq_of_straddles (hb : b.Ordered) {r s : Replacement} (hr : r ∈ b.replacements)
    (hs : s ∈ b.replacements) {offset : Nat} (hro : r.Straddles offset) (hso : s.Straddles offset) : s = r := by
  obtain ⟨hr₁, hr₂⟩ := hro
  obtain ⟨hs₁, hs₂⟩ := hso
  rcases hb.eq_or_apart hr hs with heq | h | h
  · exact heq.symm
  · omega
  · omega

theorem Ordered.checkEdges_iff_within_or_clear (hb : b.Ordered) {span : Span} (hspan : span.start < span.stop) :
    b.checkEdges span = .ok () ↔ ∀ r ∈ b.replacements, r.span.Within span ∨ ¬ r.span.Overlaps span := by
  rw [checkEdges_eq_ok_iff hb]
  refine forall₂_congr fun r _ => ?_
  rw [← not_or, ← r.cut_iff hspan, not_and_or, not_not, or_comm]

theorem Ordered.cut_of_checkEdges (hb : b.Ordered) {span : Span} (hspan : span.start < span.stop) {err : TransformError}
    (h : b.checkEdges span = .error err) :
    ∃ r ∈ b.replacements, err = .overlappingEdit span r.span ∧ r.span.Overlaps span ∧ ¬ r.span.Within span := by
  rcases checkEdges_cases b span with ⟨hok, -, -⟩ | ⟨existing, herr, hex⟩
  · cases hok.symm.trans h
  · cases herr.symm.trans h
    rcases hex with hstart | ⟨-, hstop⟩
    · obtain ⟨r, hr, hinside, rfl⟩ := (straddling_eq_some_iff hb).mp hstart
      exact ⟨r, hr, rfl, (r.cut_iff hspan).mpr (.inl hinside)⟩
    · obtain ⟨r, hr, hinside, rfl⟩ := (straddling_eq_some_iff hb).mp hstop
      exact ⟨r, hr, rfl, (r.cut_iff hspan).mpr (.inr hinside)⟩

/-- **The ends of a span decide what it overlaps.** After any sequence of edits to a text, whether an offset is inside a
replacement is known from the last one that starts before it: if there is one with the offset inside, it is the only one
and is found, and otherwise none is. A span with some bytes is accepted just when each replacement lies in it or does not
overlap it. If it is refused, the error names a replacement that overlaps it and does not lie in it. -/
theorem edges_decide_overlap (text : List Char) (es : List Edit) :
    let b := after { base := text } es
    (∀ offset,
      (((∀ r ∈ b.replacements, offset ≤ r.start) ∧ b.straddling offset = none) ∨
        ∃ r, b.IsLastBefore offset r ∧ b.straddling offset = if offset < r.stop then some r.span else none) ∧
      (∀ r ∈ b.replacements, r.Straddles offset →
        b.straddling offset = some r.span ∧ ∀ s ∈ b.replacements, s.Straddles offset → s = r) ∧
      ((∀ r ∈ b.replacements, ¬ r.Straddles offset) → b.straddling offset = none)) ∧
    ∀ span : Span, span.start < span.stop →
      (b.checkEdges span = .ok () ↔ ∀ r ∈ b.replacements, r.span.Within span ∨ ¬ r.span.Overlaps span) ∧
      ∀ err, b.checkEdges span = .error err →
        ∃ r ∈ b.replacements, err = .overlappingEdit span r.span ∧ r.span.Overlaps span ∧ ¬ r.span.Within span := by
  intro b
  have hb : b.Ordered := ((tracks_nil text).after es).ordered
  refine ⟨fun offset => ⟨hb.straddling_cases offset, fun r hr hinside => ⟨?_, ?_⟩, (straddling_eq_none_iff hb).mpr⟩,
    fun span hspan => ⟨hb.checkEdges_iff_within_or_clear hspan, fun err => hb.cut_of_checkEdges hspan⟩⟩
  · exact (straddling_eq_some_iff hb).mpr ⟨r, hr, hinside, rfl⟩
  · intro s hs hinside'
    exact hb.eq_of_straddles hr hs hinside hinside'

/-- Two replacements touch, and a third is gone. A span that starts where they touch and ends at the end of the second is
accepted, and so is one around both. One that reaches from the first into the second is refused. -/
theorem edges_decide_overlap_touching :
    let text := "abcdefgh".toList
    let b := after { base := text } [.overwrite ⟨5, 6⟩ (by decide) ['Z'], .overwrite ⟨1, 3⟩ (by decide) ['X'],
      .insert 3 ['|'], .overwrite ⟨3, 6⟩ (by decide) ['Y']]
    let r : Replacement := ⟨1, 3, ['X'], by decide⟩
    (r ∈ b.replacements ∧ r.Straddles 2 ∧ b.straddling 2 = some ⟨1, 3⟩) ∧
    ((∀ s ∈ b.replacements, ¬ s.Straddles 3) ∧ b.straddling 3 = none) ∧
    b.checkEdges ⟨3, 6⟩ = .ok () ∧ b.checkEdges ⟨0, 7⟩ = .ok () ∧ b.checkEdges ⟨6, 8⟩ = .ok () ∧
    ¬ b.checkEdges ⟨1, 5⟩ = .ok () ∧ ¬ b.checkEdges ⟨4, 5⟩ = .ok () := by
  intro text b r
  obtain ⟨hoffsets, hspans⟩ := edges_decide_overlap text [.overwrite ⟨5, 6⟩ (by decide) ['Z'],
    .overwrite ⟨1, 3⟩ (by decide) ['X'], .insert 3 ['|'], .overwrite ⟨3, 6⟩ (by decide) ['Y']]
  have hr : r ∈ b.replacements := by decide
  have hinside : r.Straddles 2 := by decide
  have hfree : ∀ s ∈ b.replacements, ¬ s.Straddles 3 := by decide
  refine ⟨⟨hr, hinside, ((hoffsets 2).2.1 r hr hinside).1⟩, ⟨hfree, (hoffsets 3).2.2 hfree⟩, ?_, ?_, ?_, ?_, ?_⟩
  · exact (hspans ⟨3, 6⟩ (by decide)).1.mpr (by decide)
  · exact (hspans ⟨0, 7⟩ (by decide)).1.mpr (by decide)
  · exact (hspans ⟨6, 8⟩ (by decide)).1.mpr (by decide)
  · exact fun h => absurd ((hspans ⟨1, 5⟩ (by decide)).1.mp h) (by decide)
  · exact fun h => absurd ((hspans ⟨4, 5⟩ (by decide)).1.mp h) (by decide)

end Buffer

end TreeEdit
