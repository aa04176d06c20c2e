import TreeEdit.Proofs.Buffer.Parts
import TreeEdit.SourceMap.Basic

/-!
# Edits that commute

Two edits are independent when they overwrite ranges that are apart, insert at two offsets, or insert outside of what is
overwritten. An edit then neither takes away nor makes a replacement that another one would run into, so each is judged
as if it were the only one (`verdict_attempt`). In which order the two are made does not matter for the buffer either
(`attempt_comm`): a buffer in order is all in what it replaces and in what it inserts (`Ordered.ext`), and both are the
same in the end. So a list of edits, each independent of all others, may be made in any order (`independent_edits_commute`).
-/

namespace TreeEdit

namespace Edit

/-- The two edits are at ranges and offsets that have nothing to do with each other. -/
def Independent : Edit → Edit → Prop
  | .overwrite s _ _, .overwrite t _ _ => s.stop ≤ t.start ∨ t.stop ≤ s.start
  | .overwrite s _ _, .insert p _ => s.contains p = false
  | .insert p _, .overwrite s _ _ => s.contains p = false
  | .insert p _, .insert q _ => p ≠ q

instance : ∀ d e : Edit, Decidable (d.Independent e)
  | .overwrite .., .overwrite .. => inferInstanceAs (Decidable (_ ∨ _))
  | .overwrite .., .insert .. => inferInstanceAs (Decidable (_ = _))
  | .insert .., .overwrite .. => inferInstanceAs (Decidable (_ = _))
  | .insert .., .insert .. => inferInstanceAs (Decidable (_ ≠ _))

theorem Independent.symm {d e : Edit} (h : d.Independent e) : e.Independent d := by
  cases d with
  | overwrite s hs t =>
    cases e with
    | overwrite s' hs' t' => exact Or.symm h
    | insert p t' => exact h
  | insert p t =>
    cases e with
    | overwrite s' hs' t' => exact h
    | insert q t' => exact Ne.symm h

/-- Does the edit do away with what starts at an offset? -/
def covers : Edit → Nat → Bool
  | .overwrite span _ _, offset => span.contains offset
  | .insert .., _ => false

theorem Independent.covers_start {d e : Edit} (h : d.Independent e) {r : Replacement}
    (hr : e.replacement? = some r) : d.covers r.start = false := by
  cases e with
  | insert p t => cases hr
  | overwrite s hs t =>
    cases hr
    cases d with
    | insert q t' => rfl
    | overwrite s' hs' t' =>
      have hapart : s'.stop ≤ s.start ∨ s.stop ≤ s'.start := h
      simp only [covers, Span.contains, Bool.and_eq_false_iff, decide_eq_false_iff_not]
      omega

theorem Independent.covers_offset {d e : Edit} (h : d.Independent e) {offset : Nat} {t : List Char}
    (ht : e.textAt? offset = some t) : d.covers offset = false := by
  cases e with
  | overwrite s hs t' => cases ht
  | insert p t' =>
    obtain ⟨⟨rfl, -⟩, -⟩ : (p = offset ∧ t' ≠ []) ∧ t' = t := by simpa [textAt?] using ht
    cases d with
    | overwrite s hs t' => exact h
    | insert q t' => rfl

theorem Independent.textAt?_eq_none {d e : Edit} (h : d.Independent e) {offset : Nat} {t : List Char}
    (ht : e.textAt? offset = some t) : d.textAt? offset = none := by
  cases d with
  | overwrite s hs t' => rfl
  | insert q t' =>
    cases e with
    | overwrite s hs t' => cases ht
    | insert p u =>
      obtain ⟨⟨rfl, -⟩, -⟩ : (p = offset ∧ u ≠ []) ∧ u = t := by simpa [textAt?] using ht
      have hne : q ≠ p := h
      simp [textAt?, hne]

end Edit

namespace Buffer

variable {b b' : Buffer} {d e : Edit} {es es' : List Edit}

/-! ## A buffer is what it replaces and inserts -/

theorem eq_of_pairwise_of_mem {α : Type} {R : α → α → Prop} (hasymm : ∀ x y, R x y → ¬ R y x) {l l' : List α}
    (h : l.Pairwise R) (h' : l'.Pairwise R) (hmem : ∀ x, x ∈ l ↔ x ∈ l') : l = l' := by
  have hnodup : ∀ {k : List α}, k.Pairwise R → k.Nodup := by
    intro k hk
    refine hk.imp fun {x y} hxy => ?_
    rintro rfl
    exact hasymm x x hxy hxy
  exact List.Perm.eq_of_pairwise (fun x y _ _ hxy hyx => absurd hyx (hasymm x y hxy)) h h'
    ((List.perm_ext_iff_of_nodup (hnodup h) (hnodup h')).mpr hmem)

/-- **Two buffers in order** over a text are equal if they replace and insert the same. -/
theorem Ordered.ext (hb : b.Ordered) (hb' : b'.Ordered) (hbase : b.base = b'.base)
    (hreplaced : ∀ r, r ∈ b.replacements ↔ r ∈ b'.replacements)
    (hinserted : ∀ offset, b.insertedAt offset = b'.insertedAt offset) : b = b' := by
  have hreplacements : b.replacements = b'.replacements := by
    refine eq_of_pairwise_of_mem (fun r s hle hle' => ?_) hb.apart hb'.apart hreplaced
    have := r.start_lt_stop
    have := s.start_lt_stop
    omega
  have hinsertions : b.insertions = b'.insertions := by
    refine eq_of_pairwise_of_mem (fun i j hlt hlt' => ?_) hb.sorted hb'.sorted fun i => ?_
    · omega
    · rw [mem_insertions_iff hb, mem_insertions_iff hb', hinserted]
  cases b
  cases b'
  simp_all

/-! ## What an edit leaves -/

theorem replacements_insert (b : Buffer) (p : Nat) (t : List Char) :
    (b.absorb (.insert p t)).replacements = b.replacements := by
  rw [absorb]
  split <;> rfl

theorem mem_replacements_absorb {r : Replacement} :
    r ∈ (b.absorb e).replacements ↔ e.replacement? = some r ∨ r ∈ b.replacements ∧ e.covers r.start = false := by
  cases e with
  | overwrite span h t =>
    rw [mem_replacements_overwrite, Edit.replacement?, Option.some_inj]
    exact or_congr_left eq_comm
  | insert p t => simp [replacements_insert, Edit.replacement?, Edit.covers]

theorem insertedAt_absorb (hb : b.Ordered) (offset : Nat) :
    (b.absorb e).insertedAt offset = if e.covers offset then none else
      (e.textAt? offset).elim (b.insertedAt offset) fun t => some ((b.insertedAt offset).getD [] ++ t) := by
  cases e with
  | overwrite span h t => exact insertedAt_overwrite b span h t offset
  | insert p t =>
    rw [absorb]
    split
    · rename_i ht
      simp [Edit.covers, Edit.textAt?, List.isEmpty_iff.mp ht]
    · rename_i ht
      have hne : t ≠ [] := by simpa using ht
      have hfind := @find?_addInsertion p t _ hb.sorted offset
      rw [← insertedAt] at hfind
      rw [insertedAt, hfind]
      by_cases hp : offset = p
      · simp [Edit.covers, Edit.textAt?, hp, hne]
      · simp [Edit.covers, Edit.textAt?, hp, Ne.symm hp]

/-! ## Verdicts -/

/-- Whether an edit is made, or why it is refused. -/
def verdict (b : Buffer) (e : Edit) : Except TransformError Unit :=
  (b.apply e).map fun _ => ()

/-- The verdicts on some edits that are made one after the other, each on what the ones before it left. -/
def verdicts (b : Buffer) : List Edit → List (Except TransformError Unit)
  | [] => []
  | e :: es => b.verdict e :: (b.attempt e).verdicts es

theorem verdict_eq (b : Buffer) (e : Edit) : b.verdict e = b.checkEdges e.span := by
  rw [verdict, apply_eq]
  cases b.checkEdges e.span <;> rfl

theorem attempt_of_refused {err : TransformError} (h : b.verdict e = .error err) : b.attempt e = b := by
  rw [verdict_eq] at h
  rw [attempt, apply_eq, h]
  rfl

theorem attempt_of_made (h : b.verdict e = .ok ()) : b.attempt e = b.absorb e := by
  rw [verdict_eq] at h
  rw [attempt, apply_eq, h]
  rfl

theorem Ordered.attempt (hb : b.Ordered) (e : Edit) : (b.attempt e).Ordered := by
  cases h : b.verdict e with
  | error err => rwa [attempt_of_refused h]
  | ok =>
    rw [attempt_of_made h]
    exact hb.absorb (verdict_eq b e ▸ h)

theorem checkEdges_absorb (hb : b.Ordered) (hd : b.checkEdges d.span = .ok ()) (h : d.Independent e) :
    (b.absorb d).checkEdges e.span = b.checkEdges e.span := by
  cases d with
  | insert p t => simp only [checkEdges, straddling, replacements_insert]
  | overwrite s hs t =>
    cases e with
    | overwrite s' hs' t' =>
      have hapart : s.stop ≤ s'.start ∨ s'.stop ≤ s.start := h
      exact checkEdges_overwrite hb hd (show s'.start ≤ s.start ∨ s.stop ≤ s'.start by omega)
        (show s'.stop ≤ s.start ∨ s.stop ≤ s'.stop by omega)
    | insert q t' =>
      have hout : q ≤ s.start ∨ s.stop ≤ q := by
        have hnot : s.contains q = false := h
        simp only [Span.contains, Bool.and_eq_false_iff, decide_eq_false_iff_not] at hnot
        omega
      exact checkEdges_overwrite hb hd hout hout

theorem verdict_attempt (hb : b.Ordered) (h : d.Independent e) : (b.attempt d).verdict e = b.verdict e := by
  cases hd : b.verdict d with
  | error err => rw [attempt_of_refused hd]
  | ok =>
    rw [attempt_of_made hd, verdict_eq, verdict_eq]
    exact checkEdges_absorb hb (verdict_eq b d ▸ hd) h

theorem verdicts_eq_map (hb : b.Ordered) (hes : es.Pairwise Edit.Independent) : b.verdicts es = es.map b.verdict := by
  induction es generalizing b with
  | nil => rfl
  | cons e es ih =>
    obtain ⟨he, hes⟩ := List.pairwise_cons.mp hes
    rw [verdicts, ih (hb.attempt e) hes, List.map_cons]
    exact congrArg _ (List.map_congr_left fun d hd => verdict_attempt hb (he d hd))

/-! ## Two edits, and many -/

theorem absorb_comm (hb : b.Ordered) (hd : b.checkEdges d.span = .ok ()) (he : b.checkEdges e.span = .ok ())
    (h : d.Independent e) : (b.absorb d).absorb e = (b.absorb e).absorb d := by
  have hde : (b.absorb d).Ordered := hb.absorb hd
  have hed : (b.absorb e).Ordered := hb.absorb he
  refine (hde.absorb ?_).ext (hed.absorb ?_) (by simp) (fun r => ?_) fun offset => ?_
  · rw [checkEdges_absorb hb hd h, he]
  · rw [checkEdges_absorb hb he h.symm, hd]
  · simp only [mem_replacements_absorb]
    have hd' := h.symm.covers_start (r := r)
    have he' := h.covers_start (r := r)
    grind
  · simp only [insertedAt_absorb hde, insertedAt_absorb hed, insertedAt_absorb hb]
    cases hd' : d.textAt? offset with
    | some t => simp [h.symm.covers_offset hd', h.symm.textAt?_eq_none hd']
    | none =>
      cases he' : e.textAt? offset with
      | some t => simp [h.covers_offset he']
      | none =>
        simp only [Option.elim]
        cases d.covers offset <;> cases e.covers offset <;> rfl

theorem attempt_comm (hb : b.Ordered) (h : d.Independent e) :
    (b.attempt d).attempt e = (b.attempt e).attempt d := by
  have hde := verdict_attempt hb h
  have hed := verdict_attempt hb h.symm
  cases hd : b.verdict d with
  | error err => rw [attempt_of_refused hd, attempt_of_refused (hed.trans hd)]
  | ok =>
    cases he : b.verdict e with
    | error err => rw [attempt_of_refused he, attempt_of_refused (hde.trans he)]
    | ok =>
      rw [attempt_of_made (hde.trans he), attempt_of_made (hed.trans hd), attempt_of_made hd, attempt_of_made he]
      exact absorb_comm hb (verdict_eq b d ▸ hd) (verdict_eq b e ▸ he) h

theorem after_cons (b : Buffer) (e : Edit) (es : List Edit) : b.after (e :: es) = (b.attempt e).after es := rfl

theorem after_perm (hperm : es'.Perm es) (hb : b.Ordered) (hes : es'.Pairwise Edit.Independent) :
    b.after es' = b.after es := by
  induction hperm generalizing b with
  | nil => rfl
  | cons e _ ih =>
    rw [after_cons, after_cons]
    exact ih (hb.attempt e) (List.pairwise_cons.mp hes).2
  | swap d e es =>
    have hed : e.Independent d := (List.pairwise_cons.mp hes).1 d (by simp)
    rw [after_cons, after_cons, after_cons, after_cons, attempt_comm hb hed]
  | trans hperm _ ih ih' =>
    have hmid := (hperm.pairwise_iff fun h => h.symm).mp hes
    exact (ih hb hes).trans (ih' hb hmid)

/-- **Independent edits commute.** Take edits to a buffer, each independent of all others, and any other order of them.
In both orders each edit is made, or refused with the same error, as if it were the only one. In the end there are the
same replacements and insertions, and so the same code and the same source map. -/
theorem independent_edits_commute {text : List Char} (hb : b.EditedFrom text) (hes : es.Pairwise Edit.Independent)
    (hperm : es'.Perm es) :
    b.verdicts es = es.map b.verdict ∧ b.verdicts es' = es'.map b.verdict ∧
      (b.after es').replacements = (b.after es).replacements ∧ (b.after es').insertions = (b.after es).insertions ∧
      (b.after es').code = (b.after es).code ∧
      ∀ options, SourceMap.ofBuffer options (b.after es') = SourceMap.ofBuffer options (b.after es) := by
  have hordered := hb.sound.ordered
  have hes' := (hperm.pairwise_iff fun h => h.symm).mpr hes
  have hsame := after_perm hperm hordered hes'
  refine ⟨verdicts_eq_map hordered hes, verdicts_eq_map hordered hes', ?_⟩
  rw [hsame]
  exact ⟨rfl, rfl, rfl, fun _ => rfl⟩

/-- Of the three edits one covers an earlier edit, one is right behind it and one is refused. -/
theorem independent_edits_commute_reversed :
    let text := "aébcdef".toList
    let b := after { base := text } [.overwrite ⟨1, 3⟩ (by decide) ['X'], .insert 4 ['<'], .overwrite ⟨5, 7⟩ (by decide) []]
    let es : List Edit := [.overwrite ⟨1, 4⟩ (by decide) ['Y'], .insert 4 ['>'], .overwrite ⟨6, 8⟩ (by decide) ['Z']]
    b.EditedFrom text ∧ es.Pairwise Edit.Independent ∧
      b.verdicts es.reverse = [.error (.overlappingEdit ⟨6, 8⟩ ⟨5, 7⟩), .ok (), .ok ()] ∧
      (b.after es.reverse).replacements = (b.after es).replacements ∧
      (b.after es.reverse).insertions = (b.after es).insertions := by
  intro text b es
  have hb : b.EditedFrom text := ⟨_, by decide, rfl⟩
  have hes : es.Pairwise Edit.Independent := by decide
  obtain ⟨-, hverdicts, hreplacements, hinsertions, -⟩ := independent_edits_commute hb hes es.reverse_perm
  exact ⟨hb, hes, hverdicts.trans rfl, hreplacements, hinsertions⟩

end Buffer

end TreeEdit
