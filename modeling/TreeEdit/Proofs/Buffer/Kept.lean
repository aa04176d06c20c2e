import TreeEdit.Proofs.Buffer.Scan

/-!
# Edits that are kept

An edit that no later one does away with is still there in the buffer (`Tracks.keeps`), and its text is in the code. So
are the texts of two such edits, in the order of their ranges (`Tracks.code_of_pair`). If both insert at one offset it
is the order in which they were made.
-/

namespace TreeEdit

namespace Edit

def text : Edit → List Char
  | .overwrite _ _ text => text
  | .insert _ text => text

/-- The text that an edit inserts at an offset, if any. -/
def inserts (offset : Nat) : Edit → List Char
  | .overwrite .. => []
  | .insert p text => if p = offset then text else []

/-- No edit that is made later does away with this one, or there is nothing to do away with. -/
def Stands (later : List Edit) (e : Edit) : Prop :=
  (∃ p, e = .insert p []) ∨ ∀ d ∈ later, d.supersedes e = false

theorem Stands.of_text {later : List Edit} {e : Edit} (h : e.Stands later) (htext : e.text ≠ []) :
    ∀ d ∈ later, d.supersedes e = false := by
  rcases h with ⟨p, rfl⟩ | h
  · exact absurd rfl htext
  · exact h

end Edit

theorem survivors_append_cons {e : Edit} {later : List Edit} (h : ∀ d ∈ later, d.supersedes e = false)
    (before : List Edit) : ∃ kept, survivors (before ++ e :: later) = kept ++ e :: survivors later := by
  induction before with
  | nil =>
    have hnone : later.any (·.supersedes e) = false := by simpa using h
    exact ⟨[], by simp [survivors, hnone]⟩
  | cons d before ih =>
    obtain ⟨kept, hkept⟩ := ih
    rw [List.cons_append, survivors]
    split
    · exact ⟨kept, hkept⟩
    · exact ⟨d :: kept, by rw [hkept, List.cons_append]⟩

theorem insertedBy_getD (es : List Edit) (offset : Nat) :
    (insertedBy es offset).getD [] = es.flatMap (Edit.inserts offset) := by
  have htexts : (es.filterMap (Edit.textAt? offset)).flatten = es.flatMap (Edit.inserts offset) := by
    induction es with
    | nil => rfl
    | cons e es ih =>
      cases e with
      | overwrite span h text => exact ih
      | insert p text =>
        by_cases hp : p = offset ∧ text ≠ []
        · simp [Edit.textAt?, Edit.inserts, hp, ih]
        · have hnil : (if p = offset then text else []) = [] := by
            split
            · exact Decidable.not_not.mp fun ht => hp ⟨‹_›, ht⟩
            · rfl
          simp [Edit.textAt?, Edit.inserts, hp, ih, hnil]
  rw [← htexts, insertedBy]
  split
  · rename_i hempty
    simp [List.isEmpty_iff.mp hempty]
  · rfl

namespace Buffer

variable {b : Buffer} {e e₁ e₂ : Edit} {before between later : List Edit}

/-- What the edit asked for is in the buffer. -/
def Keeps (b : Buffer) : Edit → Prop
  | .overwrite span h text => ⟨span.start, span.stop, text, h⟩ ∈ b.replacements
  | .insert p text => text <:+: (b.insertedAt p).getD []

theorem Tracks.inserted_getD {log : List Edit} (h : b.Tracks log) (offset : Nat) :
    (b.insertedAt offset).getD [] = (survivors log).flatMap (Edit.inserts offset) := by
  rw [h.inserted, insertedBy_getD]

theorem Tracks.keeps (h : b.Tracks (before ++ e :: later)) (he : e.Stands later) : b.Keeps e := by
  rcases he with ⟨p, rfl⟩ | he
  · exact List.nil_infix
  · obtain ⟨kept, hkept⟩ := survivors_append_cons he before
    cases e with
    | overwrite span hspan text =>
      rw [Keeps, h.mem_replacements, hkept, replacementsOf, List.mem_filterMap]
      exact ⟨.overwrite span hspan text, by simp, rfl⟩
    | insert p text =>
      rw [Keeps, h.inserted_getD, hkept]
      simp [Edit.inserts]

/-! ## Where kept edits are in the code -/

theorem Sound.cut_of_keeps (hb : b.Sound) (h : b.Keeps e) (htext : e.text ≠ []) :
    b.Free e.span.start ∧ Text.isBoundary b.base e.span.start = true := by
  cases e with
  | overwrite span hspan text =>
    exact ⟨hb.ordered.free_of_mem_editStarts (mem_editStarts.mpr (.inl ⟨_, h, rfl⟩)), (hb.replaced _ h).1⟩
  | insert p text =>
    have hsome : b.insertedAt p ≠ none := by
      intro hnone
      rw [Keeps, hnone] at h
      exact htext (List.infix_nil.mp h)
    obtain ⟨i, hi, hoffset⟩ : ∃ i ∈ b.insertions, i.offset = p := by
      simpa [insertedAt] using hsome
    subst hoffset
    exact ⟨hb.ordered.outside i hi, hb.inserted i hi⟩

theorem Sound.scan_of_replacement (hb : b.Sound) {r : Replacement} (hr : r ∈ b.replacements) :
    b.scan true 0 b.size r.start =
      (b.insertedAt r.start).getD [] ++ (r.text ++ b.scan true 0 b.size r.stop) := by
  have := r.start_lt_stop
  have hsize : r.stop ≤ b.size := Text.le_size_of_isBoundary (hb.replaced r hr).2
  rw [scan_of_replaced (by omega) ((replacedAt_eq_some_iff hb.ordered).mpr ⟨hr, rfl⟩)]
  simp [emitted]

theorem exists_scan_eq_inserted (b : Buffer) (start stop pos : Nat) :
    ∃ rest, b.scan true start stop pos = (b.insertedAt pos).getD [] ++ rest := by
  have hemitted : b.emitted true start stop pos = (b.insertedAt pos).getD [] := by simp [emitted]
  rw [scan, hemitted]
  exact ⟨_, rfl⟩

theorem Sound.scan_of_keeps (hb : b.Sound) (h : b.Keeps e) :
    ∃ front back, b.scan true 0 b.size e.span.start = front ++ (e.text ++ back) := by
  cases e with
  | overwrite span hspan text => exact ⟨_, _, hb.scan_of_replacement h⟩
  | insert p text =>
    obtain ⟨i, j, hins⟩ := h
    obtain ⟨rest, hrest⟩ := b.exists_scan_eq_inserted 0 b.size p
    refine ⟨i, j ++ rest, ?_⟩
    rw [Edit.span, Span.empty, hrest, ← hins]
    simp [Edit.text]

theorem Sound.scan_suffix_code (hb : b.Sound) (h : b.Keeps e) (htext : e.text ≠ []) :
    b.scan true 0 b.size e.span.start <:+ b.code := by
  obtain ⟨hfree, hbound⟩ := hb.cut_of_keeps h htext
  rw [hb.code_eq_scan]
  exact hb.scan_suffix hbound hfree (Text.le_size_of_isBoundary hbound) (Nat.zero_le _) (Text.isBoundary_zero _)

theorem Sound.code_of_keeps (hb : b.Sound) (h : b.Keeps e) : ∃ x z, b.code = x ++ (e.text ++ z) := by
  by_cases htext : e.text = []
  · exact ⟨b.code, [], by simp [htext]⟩
  · obtain ⟨x, hx⟩ := hb.scan_suffix_code h htext
    obtain ⟨front, back, hscan⟩ := hb.scan_of_keeps h
    exact ⟨x ++ front, back, by rw [← hx, hscan, List.append_assoc]⟩

theorem Sound.scan_of_pair (hb : b.Sound) (h₁ : b.Keeps e₁) (h₂ : b.Keeps e₂) (htext₁ : e₁.text ≠ [])
    (htext₂ : e₂.text ≠ []) (hspans : e₁.span.stop ≤ e₂.span.start) (hstarts : e₁.span.start < e₂.span.start) :
    ∃ x y z, b.scan true 0 b.size e₁.span.start = x ++ (e₁.text ++ (y ++ (e₂.text ++ z))) := by
  obtain ⟨hfree, hbound⟩ := hb.cut_of_keeps h₂ htext₂
  have hsize : e₂.span.start ≤ b.size := Text.le_size_of_isBoundary hbound
  obtain ⟨front, back, hscan₂⟩ := hb.scan_of_keeps h₂
  cases e₁ with
  | overwrite span hspan text =>
    obtain ⟨y, hy⟩ : b.scan true 0 b.size e₂.span.start <:+ b.scan true 0 b.size span.stop :=
      hb.scan_suffix hbound hfree hsize hspans (hb.replaced _ h₁).2
    refine ⟨(b.insertedAt span.start).getD [], y ++ front, back, (hb.scan_of_replacement h₁).trans ?_⟩
    rw [← hy, hscan₂]
    simp [Edit.text]
  | insert p text =>
    obtain ⟨i, j, hins⟩ := h₁
    obtain ⟨next, skipped, -, hnle, hnext, hstep⟩ :=
      hb.scan_step hbound hfree hstarts (hb.cut_of_keeps (e := .insert p text) ⟨i, j, hins⟩ htext₁).2
    obtain ⟨y, hy⟩ : b.scan true 0 b.size e₂.span.start <:+ b.scan true 0 b.size next :=
      hb.scan_suffix hbound hfree hsize hnle hnext
    refine ⟨i, j ++ (skipped ++ (y ++ front)), back, (hstep 0 b.size hsize).trans ?_⟩
    rw [← hy, hscan₂, Edit.span, Span.empty, ← hins]
    simp [Edit.text]

theorem Tracks.scan_of_same_start (h : b.Tracks (before ++ e₁ :: (between ++ e₂ :: later)))
    (h₁ : ∀ d ∈ between ++ e₂ :: later, d.supersedes e₁ = false) (h₂ : ∀ d ∈ later, d.supersedes e₂ = false)
    (hspans : e₁.span.stop ≤ e₂.span.start) (hstarts : e₂.span.start ≤ e₁.span.start) :
    ∃ x y z, b.scan true 0 b.size e₁.span.start = x ++ (e₁.text ++ (y ++ (e₂.text ++ z))) := by
  cases e₁ with
  | overwrite span hspan text => exact absurd hspan (Nat.not_lt_of_le (Nat.le_trans hspans hstarts))
  | insert p text =>
    obtain ⟨kept, hkept⟩ := survivors_append_cons h₁ before
    obtain ⟨kept', hkept'⟩ := survivors_append_cons h₂ between
    have hins := h.inserted_getD p
    rw [hkept, hkept'] at hins
    cases e₂ with
    | overwrite span hspan text' =>
      -- it would have done away with the insertion
      obtain rfl : span.start = p := Nat.le_antisymm hstarts hspans
      have hnot := h₁ (.overwrite span hspan text') (by simp)
      simp [Edit.supersedes, Span.contains, hspan] at hnot
    | insert q text' =>
      obtain rfl : q = p := Nat.le_antisymm hstarts hspans
      obtain ⟨rest, hrest⟩ := b.exists_scan_eq_inserted 0 b.size q
      refine ⟨kept.flatMap (Edit.inserts q), kept'.flatMap (Edit.inserts q),
        (survivors later).flatMap (Edit.inserts q) ++ rest, hrest.trans ?_⟩
      rw [hins]
      simp [Edit.inserts, Edit.text]

/-- **Two kept edits** have their texts in the code, in the order of their ranges, and in the order in which they were
made where both insert at one offset. -/
theorem Tracks.code_of_pair (h : b.Tracks (before ++ e₁ :: (between ++ e₂ :: later))) (hb : b.Sound)
    (h₁ : e₁.Stands (between ++ e₂ :: later)) (h₂ : e₂.Stands later) (hspans : e₁.span.stop ≤ e₂.span.start) :
    ∃ x y z, b.code = x ++ (e₁.text ++ (y ++ (e₂.text ++ z))) := by
  have hkeeps₁ := h.keeps h₁
  have hkeeps₂ : b.Keeps e₂ := by
    have htracks : b.Tracks ((before ++ e₁ :: between) ++ e₂ :: later) := by simpa using h
    exact htracks.keeps h₂
  by_cases htext₁ : e₁.text = []
  · obtain ⟨x, z, hcode⟩ := hb.code_of_keeps hkeeps₂
    exact ⟨x, [], z, by simpa [htext₁] using hcode⟩
  by_cases htext₂ : e₂.text = []
  · obtain ⟨x, z, hcode⟩ := hb.code_of_keeps hkeeps₁
    exact ⟨x, z, [], by simpa [htext₂] using hcode⟩
  suffices hscan : ∃ x y z, b.scan true 0 b.size e₁.span.start = x ++ (e₁.text ++ (y ++ (e₂.text ++ z))) by
    obtain ⟨x, y, z, hscan⟩ := hscan
    obtain ⟨front, hfront⟩ := hb.scan_suffix_code hkeeps₁ htext₁
    exact ⟨front ++ x, y, z, by rw [← hfront, hscan, List.append_assoc]⟩
  rcases Nat.lt_or_ge e₁.span.start e₂.span.start with hlt | hge
  · exact hb.scan_of_pair hkeeps₁ hkeeps₂ htext₁ htext₂ hspans hlt
  · exact h.scan_of_same_start (h₁.of_text htext₁) (h₂.of_text htext₂) hspans hge

end Buffer

end TreeEdit
