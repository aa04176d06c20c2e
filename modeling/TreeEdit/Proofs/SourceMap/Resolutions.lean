import TreeEdit.Proofs.SourceMap.Tracing

/-!
# Finer and coarser mappings

The resolutions differ only in the characters of unedited text where a mapping is due. All of them remember the same of
the characters before, and what is remembered is coherent: a word can go on only where its line has started. So a
resolution that asks for less at each character (`Resolution.Coarser`) leaves mappings out and changes none, over unedited
text (`uneditedMappings_sublist`), over pieces (`mappingsOf_sublist`) and over a buffer. What is left out can still be told
from a mapping in front of it on its line (`mappingsOf_toldBy`). The coarse mappings are among those at the boundaries of
words, and these among those at all characters (`resolutions_refine`).
-/

namespace TreeEdit

/-- The last character can be part of a word only on a line that has started. -/
def Progress.Coherent (before : Progress) : Prop :=
  before.inWord = true → before.started = true

theorem Progress.coherent_initial : Progress.Coherent {} :=
  fun hword => (nomatch hword)

/-- Wherever the first resolution asks for a mapping, so does the second. -/
def Resolution.Coarser (r r' : Resolution) : Prop :=
  ∀ before : Progress, before.Coherent → ∀ c, r.due before c = true → r'.due before c = true

theorem Resolution.coarse_coarser_boundary : Coarser .coarse .boundary := by
  intro before hcoherent c hdue
  have hstart : before.started = false := by simpa [due] using hdue
  have hword : before.inWord = false := by
    rw [Bool.eq_false_iff]
    intro hin
    rw [hcoherent hin] at hstart
    cases hstart
  simp [due, hword]

theorem Resolution.coarser_characters (r : Resolution) : r.Coarser .characters :=
  fun _ _ _ _ => rfl

variable {r r' : Resolution}

theorem uneditedMappings_sublist (h : r.Coarser r') (cursor : Cursor) {before : Progress} (hbefore : before.Coherent)
    (text : List Char) :
    (uneditedMappings r cursor before text).Sublist (uneditedMappings r' cursor before text) := by
  induction text generalizing cursor before with
  | nil => exact .slnil
  | cons c cs ih =>
    unfold uneditedMappings
    by_cases hc : c = '\n'
    · rw [if_pos hc, if_pos hc]
      exact ih _ Progress.coherent_initial
    · rw [if_neg hc, if_neg hc]
      have hnext : Progress.Coherent ⟨true, isWord c⟩ := fun _ => rfl
      have hlater := ih ⟨cursor.generated.step c, cursor.source.step c⟩ hnext
      by_cases hdue : r.due before c = true
      · rw [if_pos hdue, if_pos (h before hbefore c hdue)]
        exact hlater.cons_cons _
      · rw [if_neg hdue]
        by_cases hdue' : r'.due before c = true
        · rw [if_pos hdue']
          exact hlater.cons _
        · rw [if_neg hdue']
          exact hlater

theorem Piece.mappings_sublist (h : r.Coarser r') (cursor : Cursor) (p : Piece) :
    (p.mappings r cursor).Sublist (p.mappings r' cursor) := by
  cases p with
  | inserted text => exact .slnil
  | replaced text span => exact .refl _
  | unedited text => exact uneditedMappings_sublist h cursor Progress.coherent_initial text

theorem mappingsOf_sublist (h : r.Coarser r') (base : List Char) (cursor : Cursor) (ps : List Piece) :
    (mappingsOf r base cursor ps).Sublist (mappingsOf r' base cursor ps) := by
  induction ps generalizing cursor with
  | nil => exact .slnil
  | cons p ps ih =>
    unfold mappingsOf
    exact (p.mappings_sublist h cursor).append (ih _)

theorem Buffer.mappings_sublist (h : r.Coarser r') (b : Buffer) : (b.mappings r).Sublist (b.mappings r') :=
  mappingsOf_sublist h b.base {} b.allPieces

/-! ## What is left out -/

theorem exists_char_of_mem_unedited {cursor : Cursor} {before : Progress} {text : List Char} {m : Mapping}
    (hm : m ∈ uneditedMappings r cursor before text) :
    ∃ line c rest, text = line ++ c :: rest ∧ c ≠ '\n' ∧ m = (cursor.past line line).mapping := by
  induction text generalizing cursor before with
  | nil => cases hm
  | cons c cs ih =>
    have hlater : ∀ before', m ∈ uneditedMappings r ⟨cursor.generated.step c, cursor.source.step c⟩ before' cs →
        ∃ line x rest, c :: cs = line ++ x :: rest ∧ x ≠ '\n' ∧ m = (cursor.past line line).mapping := by
      intro before' hm'
      obtain ⟨line, x, rest, rfl, hx, rfl⟩ := ih hm'
      exact ⟨c :: line, x, rest, rfl, hx, rfl⟩
    unfold uneditedMappings at hm
    by_cases hc : c = '\n'
    · rw [if_pos hc] at hm
      exact hlater _ hm
    · rw [if_neg hc] at hm
      by_cases hdue : r.due before c = true
      · rw [if_pos hdue] at hm
        rcases List.mem_cons.mp hm with rfl | hm
        · exact ⟨[], c, cs, rfl, hc, rfl⟩
        · exact hlater _ hm
      · rw [if_neg hdue] at hm
        exact hlater _ hm

/-- The mapping is as many columns behind one of these in the edited text as in the unedited text, on the same lines. -/
def Mapping.ToldBy (ms : List Mapping) (m : Mapping) : Prop :=
  ∃ m₀ ∈ ms, ∃ d, m.generated = ⟨m₀.generated.line, m₀.generated.column + d⟩ ∧
    m.source = ⟨m₀.source.line, m₀.source.column + d⟩

theorem Mapping.ToldBy.mono {ms ms' : List Mapping} {m : Mapping} (h : m.ToldBy ms) (hsub : ms ⊆ ms') : m.ToldBy ms' := by
  obtain ⟨m₀, hm₀, hd⟩ := h
  exact ⟨m₀, hsub hm₀, hd⟩

theorem Piece.mappings_toldBy (r : Resolution) {cursor : Cursor} {p : Piece} {m : Mapping}
    (hm : m ∈ p.mappings r' cursor) : m.ToldBy (p.mappings r cursor) := by
  cases p with
  | inserted text => cases hm
  | replaced text span => exact ⟨m, hm, 0, rfl, rfl⟩
  | unedited text =>
    obtain ⟨line, c, rest, rfl, hc, rfl⟩ := exists_char_of_mem_unedited hm
    obtain ⟨front, m₀, back, d, hcut, hleads, -⟩ := exists_mapping_upTo r cursor line rest hc
    refine ⟨m₀, ?_, d, hleads.generated, hleads.source⟩
    show m₀ ∈ uneditedMappings r cursor {} (line ++ c :: rest)
    rw [hcut]
    simp

/-- **What one resolution has** can be told from what another one has. -/
theorem mappingsOf_toldBy (r : Resolution) {base : List Char} {cursor : Cursor} {ps : List Piece} {m : Mapping}
    (hm : m ∈ mappingsOf r' base cursor ps) : m.ToldBy (mappingsOf r base cursor ps) := by
  induction ps generalizing cursor with
  | nil => cases hm
  | cons p ps ih =>
    unfold mappingsOf at hm ⊢
    rcases List.mem_append.mp hm with hm | hm
    · exact (Piece.mappings_toldBy r hm).mono (List.subset_append_left _ _)
    · exact (ih hm).mono (List.subset_append_right _ _)

theorem Buffer.mapping_unique (b : Buffer) {m m' : Mapping} (hm : m ∈ b.mappings r) (hm' : m' ∈ b.mappings r')
    (heq : m.generated = m'.generated) : m = m' := by
  have hfine : m ∈ b.mappings .characters := (b.mappings_sublist r.coarser_characters).subset hm
  have hfine' : m' ∈ b.mappings .characters := (b.mappings_sublist r'.coarser_characters).subset hm'
  rcases Mapping.eq_or_before (b.mappings_sorted .characters) hfine hfine' with h | h | h
  · exact h
  · rw [heq] at h
    unfold Position.Before at h
    omega
  · rw [heq] at h
    unfold Position.Before at h
    omega

/-- **Resolutions refine each other.** Of one buffer, the coarse mappings are among those at the boundaries of words, in
their order, and these are among those at all characters. Two mappings at the same position of the edited text are the
same mapping, whichever resolutions they are made with. And what one resolution has and another one leaves out is as many
columns behind a mapping of the other in the edited text as it is in the unedited text. -/
theorem resolutions_refine (options : MapOptions) (b : Buffer) :
    let map (r : Resolution) := SourceMap.ofBuffer { options with hires := r } b
    (map .coarse).mappings.Sublist (map .boundary).mappings ∧
      (map .boundary).mappings.Sublist (map .characters).mappings ∧
      ∀ r r' : Resolution, ∀ m ∈ (map r).mappings, m.ToldBy (map r').mappings ∧
        ∀ m' ∈ (map r').mappings, m.generated = m'.generated → m = m' := by
  intro map
  refine ⟨b.mappings_sublist Resolution.coarse_coarser_boundary, b.mappings_sublist (Resolution.coarser_characters _), ?_⟩
  intro r r' m hm
  exact ⟨mappingsOf_toldBy r' hm, fun m' hm' => b.mapping_unique hm hm'⟩

/-- Two words, the second one cut by an insertion, in front of a replaced line end. -/
theorem resolutions_refine_two_words :
    let text := "ab cd\ne".toList
    let es : List Edit := [.insert 4 ['!'], .overwrite ⟨5, 6⟩ (by decide) "-\n".toList]
    let b := Buffer.after { base := text } es
    let map (r : Resolution) := SourceMap.ofBuffer { hires := r } b
    b.EditedFrom text ∧
      (map .coarse).mappings = [⟨⟨0, 0⟩, ⟨0, 0⟩⟩, ⟨⟨0, 5⟩, ⟨0, 4⟩⟩, ⟨⟨0, 6⟩, ⟨0, 5⟩⟩, ⟨⟨1, 0⟩, ⟨1, 0⟩⟩] ∧
      (map .boundary).mappings.length = 6 ∧ (map .characters).mappings.length = 7 ∧
      (map .coarse).mappings.Sublist (map .boundary).mappings ∧
      (map .boundary).mappings.Sublist (map .characters).mappings ∧
      ∀ m ∈ (map .characters).mappings, m.generated = ⟨0, 5⟩ → m = ⟨⟨0, 5⟩, ⟨0, 4⟩⟩ := by
  intro text es b map
  have hb : b.EditedFrom text := ⟨es, by decide, rfl⟩
  have hcoarse : (map .coarse).mappings =
      [⟨⟨0, 0⟩, ⟨0, 0⟩⟩, ⟨⟨0, 5⟩, ⟨0, 4⟩⟩, ⟨⟨0, 6⟩, ⟨0, 5⟩⟩, ⟨⟨1, 0⟩, ⟨1, 0⟩⟩] := by decide +kernel
  obtain ⟨hboundary, hcharacters, hsame⟩ := resolutions_refine {} b
  refine ⟨hb, hcoarse, by decide +kernel, by decide +kernel, hboundary, hcharacters, fun m hm hgen => ?_⟩
  have hmem : (⟨⟨0, 5⟩, ⟨0, 4⟩⟩ : Mapping) ∈ (map .coarse).mappings := by
    rw [hcoarse]
    simp
  exact (hsame .characters .coarse m hm).2 _ hmem hgen

end TreeEdit
