import TreeEdit.Proofs.Buffer.Scan
import TreeEdit.SourceMap.Basic

/-!
# The order of mappings

Positions are ordered by line, then by column, and each character leads on (`Position.before_step`). A walk over pieces
makes its mappings as it goes, so each part of the edited text has its mappings between where it starts and where it
stops, in order (`mappingsOf_within`). Looking up a position finds the last mapping that is not after it
(`SourceMap.lookup_eq`).
-/

namespace TreeEdit

namespace Position

def Before (p q : Position) : Prop :=
  p.line < q.line ∨ p.line = q.line ∧ p.column < q.column

theorem le_iff {p q : Position} : p.le q = true ↔ ¬ q.Before p := by
  simp [le, Before]
  omega

theorem le_eq_false_iff {p q : Position} : p.le q = false ↔ q.Before p := by
  rw [← Bool.not_eq_true, le_iff]
  unfold Before
  omega

theorem Before.trans {p q r : Position} (h : p.Before q) (h' : q.Before r) : p.Before r := by
  unfold Before at *
  omega

theorem Before.of_le {p q r : Position} (h : p.Before q) (h' : q.le r = true) : p.Before r := by
  rw [le_iff] at h'
  unfold Before at *
  omega

theorem Before.le {p q : Position} (h : p.Before q) : p.le q = true := by
  rw [le_iff]
  unfold Before at *
  omega

theorem before_of_le_of_before {p q r : Position} (h : p.le q = true) (h' : q.Before r) : p.Before r := by
  rw [le_iff] at h
  unfold Before at *
  omega

theorem le_refl (p : Position) : p.le p = true := by
  simp [le]

theorem le_trans {p q r : Position} (h : p.le q = true) (h' : q.le r = true) : p.le r = true := by
  rw [le_iff] at *
  unfold Before at *
  omega

theorem utf16Width_pos (c : Char) : 0 < utf16Width c := by
  unfold utf16Width
  split <;> omega

theorem step_of_ne (p : Position) {c : Char} (hc : c ≠ '\n') : p.step c = ⟨p.line, p.column + utf16Width c⟩ :=
  if_neg hc

theorem before_step (p : Position) (c : Char) : p.Before (p.step c) := by
  have := utf16Width_pos c
  unfold step
  split
  · exact .inl (Nat.lt_succ_self _)
  · exact .inr ⟨rfl, by simp; omega⟩

@[simp] theorem advance_nil (p : Position) : p.advance [] = p := rfl

@[simp] theorem advance_cons (p : Position) (c : Char) (t : List Char) :
    p.advance (c :: t) = (p.step c).advance t := rfl

@[simp] theorem advance_append (p : Position) (s t : List Char) :
    p.advance (s ++ t) = (p.advance s).advance t :=
  List.foldl_append

theorem le_advance (p : Position) (t : List Char) : p.le (p.advance t) = true := by
  induction t generalizing p with
  | nil => exact p.le_refl
  | cons c t ih =>
    exact le_trans (p.before_step c).le (ih _)

theorem advance_before (p : Position) (pre : List Char) (c : Char) (post : List Char) :
    (p.advance pre).Before (p.advance (pre ++ c :: post)) := by
  rw [advance_append, advance_cons]
  exact (before_step _ c).of_le (le_advance _ _)

/-- The position is that of a character of a text that starts at `start`. -/
def OfChar (start : Position) (text : List Char) (p : Position) : Prop :=
  ∃ pre c post, text = pre ++ c :: post ∧ p = start.advance pre

theorem ofChar_cons (start : Position) (c : Char) (t : List Char) : start.OfChar (c :: t) start :=
  ⟨[], c, t, rfl, rfl⟩

theorem OfChar.append_left {start p : Position} {s : List Char} (h : start.OfChar s p) (t : List Char) :
    start.OfChar (s ++ t) p := by
  obtain ⟨pre, c, post, rfl, rfl⟩ := h
  exact ⟨pre, c, post ++ t, by simp, rfl⟩

theorem OfChar.append_right {start p : Position} {s t : List Char} (h : (start.advance s).OfChar t p) :
    start.OfChar (s ++ t) p := by
  obtain ⟨pre, c, post, rfl, rfl⟩ := h
  exact ⟨s ++ pre, c, post, by simp, by simp⟩

theorem OfChar.le {start p : Position} {t : List Char} (h : start.OfChar t p) : start.le p = true := by
  obtain ⟨pre, c, post, -, rfl⟩ := h
  exact start.le_advance pre

theorem OfChar.before {start p : Position} {t : List Char} (h : start.OfChar t p) : p.Before (start.advance t) := by
  obtain ⟨pre, c, post, rfl, rfl⟩ := h
  exact start.advance_before pre c post

end Position

/-! ## Mappings between two positions -/

/-- The mappings are in order, from `lo` on and before `hi`. -/
structure Mapping.Within (lo hi : Position) (ms : List Mapping) : Prop where
  sorted : ms.Pairwise (·.generated.Before ·.generated)
  bounds : ∀ m ∈ ms, lo.le m.generated = true ∧ m.generated.Before hi

namespace Mapping.Within

variable {lo mid hi : Position} {ms ms' : List Mapping}

theorem nil (lo hi : Position) : Within lo hi [] :=
  ⟨.nil, by simp⟩

theorem append (h : Within lo mid ms) (h' : Within mid hi ms') (hlo : lo.le mid = true)
    (hhi : mid.le hi = true) : Within lo hi (ms ++ ms') where
  sorted := by
    rw [List.pairwise_append]
    refine ⟨h.sorted, h'.sorted, fun m hm m' hm' => ?_⟩
    exact (h.bounds m hm).2.of_le (h'.bounds m' hm').1
  bounds m hm := by
    rcases List.mem_append.mp hm with hm | hm
    · exact ⟨(h.bounds m hm).1, (h.bounds m hm).2.of_le hhi⟩
    · exact ⟨Position.le_trans hlo (h'.bounds m hm).1, (h'.bounds m hm).2⟩

theorem singleton {m : Mapping} (h : m.generated.Before hi) : Within m.generated hi [m] :=
  ⟨List.pairwise_singleton _ _, by simpa using ⟨Position.le_refl _, h⟩⟩

theorem cons_if {p : Position} {c : Char} {t : List Char} (h : Within (p.step c) ((p.step c).advance t) ms)
    (source : Position) (due : Bool) :
    Within p ((p.step c).advance t) (if due then ⟨p, source⟩ :: ms else ms) := by
  have hstep : p.le (p.step c) = true := p.le_advance [c]
  have hstop := (p.step c).le_advance t
  split
  · exact (singleton (m := ⟨p, source⟩) (p.before_step c)).append h hstep hstop
  · exact (nil p _).append h hstep hstop

end Mapping.Within

open Mapping (Within)

theorem replacedMappings_within (source pos : Position) (due : Bool) (text : List Char) :
    Within pos (pos.advance text) (replacedMappings source pos due text) := by
  induction text generalizing pos due with
  | nil => exact .nil _ _
  | cons c cs ih =>
    rw [replacedMappings]
    exact (ih _ _).cons_if _ _

theorem uneditedMappings_within (r : Resolution) (cursor : Cursor) (before : Progress) (text : List Char) :
    Within cursor.generated (cursor.generated.advance text) (uneditedMappings r cursor before text) := by
  induction text generalizing cursor before with
  | nil => exact .nil _ _
  | cons c cs ih =>
    rw [uneditedMappings]
    split
    · exact (ih ⟨_, _⟩ _).cons_if cursor.source false
    · exact (ih ⟨_, _⟩ _).cons_if _ _

theorem Piece.generated_advance (base : List Char) (cursor : Cursor) (p : Piece) :
    (p.advance base cursor).generated = cursor.generated.advance p.text := by
  cases p <;> rfl

theorem Piece.mappings_within (r : Resolution) (cursor : Cursor) (p : Piece) :
    Within cursor.generated (cursor.generated.advance p.text) (p.mappings r cursor) := by
  cases p with
  | inserted text => exact .nil _ _
  | replaced text span => exact replacedMappings_within _ _ _ _
  | unedited text => exact uneditedMappings_within _ _ _ _

/-- **The mappings of pieces** are in order, within the text of the pieces. -/
theorem mappingsOf_within (r : Resolution) (base : List Char) (cursor : Cursor) (ps : List Piece) :
    Within cursor.generated (cursor.generated.advance (Buffer.textOf ps)) (mappingsOf r base cursor ps) := by
  induction ps generalizing cursor with
  | nil => exact .nil _ _
  | cons p ps ih =>
    have hrest := ih (p.advance base cursor)
    rw [p.generated_advance] at hrest
    have htext : Buffer.textOf (p :: ps) = p.text ++ Buffer.textOf ps := by simp [Buffer.textOf]
    rw [mappingsOf, htext, Position.advance_append]
    exact (p.mappings_within r cursor).append hrest (Position.le_advance _ _) (Position.le_advance _ _)

theorem Buffer.mappings_sorted (b : Buffer) (r : Resolution) :
    (b.mappings r).Pairwise (·.generated.Before ·.generated) :=
  (mappingsOf_within r b.base {} b.allPieces).sorted

/-! ## Looking up -/

/-- The mapping is the last one that is not after the position. -/
structure Mapping.LastUpTo (ms : List Mapping) (g : Position) (m : Mapping) : Prop where
  mem : m ∈ ms
  reached : m.generated.le g = true
  greatest : ∀ m' ∈ ms, m'.generated.le g = true → m' = m ∨ m'.generated.Before m.generated

theorem Mapping.eq_or_before {ms : List Mapping} (hsorted : ms.Pairwise (·.generated.Before ·.generated))
    {m m' : Mapping} (hm : m ∈ ms) (hm' : m' ∈ ms) :
    m = m' ∨ m.generated.Before m'.generated ∨ m'.generated.Before m.generated := by
  refine List.Pairwise.forall_of_forall_of_flip
    (R := fun m m' : Mapping => m = m' ∨ m.generated.Before m'.generated ∨ m'.generated.Before m.generated)
    (fun m _ => .inl rfl) ?_ ?_ hm hm'
  · exact hsorted.imp fun h => .inr (.inl h)
  · exact hsorted.imp fun h => .inr (.inr h)

theorem Mapping.lastUpTo_of_split {front back : List Mapping} {m : Mapping} {g : Position}
    (hsorted : (front ++ m :: back).Pairwise (·.generated.Before ·.generated)) (hm : m.generated.le g = true)
    (hback : ∀ m' ∈ back, g.Before m'.generated) : LastUpTo (front ++ m :: back) g m where
  mem := by simp
  reached := hm
  greatest m' hm' hle := by
    rw [List.mem_append, List.mem_cons] at hm'
    rcases hm' with hfront | rfl | hmem
    · exact .inr ((List.pairwise_append.mp hsorted).2.2 m' hfront m (by simp))
    · exact .inl rfl
    · exact absurd (hback m' hmem) (Position.le_iff.mp hle)

theorem SourceMap.lookup_eq {map : SourceMap} {g : Position} {m : Mapping}
    (hsorted : map.mappings.Pairwise (·.generated.Before ·.generated))
    (h : Mapping.LastUpTo map.mappings g m) : map.lookup g = some m.source := by
  obtain ⟨front, back, hsplit⟩ := List.append_of_mem h.mem
  rw [hsplit] at hsorted
  have hback : back.filter (·.generated.le g) = [] := by
    rw [List.filter_eq_nil_iff]
    intro m' hm' hle
    have hafter : m.generated.Before m'.generated :=
      (List.pairwise_cons.mp (List.pairwise_append.mp hsorted).2.1).1 m' hm'
    rcases h.greatest m' (by simp [hsplit, hm']) hle with rfl | hbefore
    · simp [Position.Before] at hafter
    · have := hafter.trans hbefore
      simp [Position.Before] at this
  simp [lookup, hsplit, List.filter_append, h.reached, hback]

end TreeEdit
