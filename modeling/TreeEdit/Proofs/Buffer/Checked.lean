import Mathlib.Logic.Function.Iterate
import TreeEdit.SourceMap.Mapping
import TreeEdit.Proofs.Buffer.Sound

/-!
# Reading with every cut checked

`Text.between` gives some text for any two offsets. Here a cut gives nothing unless its ends are
boundaries in the right order (`Text.cut?`), and the reader of a range and the maker of the mappings are
written out once more with such cuts and with a bound on the number of rounds. On a sound buffer these
never come to nothing, and they give what the plain ones give (`Sound.checkedPieces_eq`,
`Sound.checkedMappings_eq`). The rounds end for every range with free ends, just at its stop
(`rounds_end`).
-/

namespace TreeEdit

/-- The text of a range, if it is one. -/
def Text.cut? (text : List Char) (span : Span) : Option (List Char) :=
  if Arena.validSpan text span then some (between text span.start span.stop) else none

theorem Text.cut?_eq_some {text : List Char} {span : Span} (h : Arena.validSpan text span = true) :
    cut? text span = some (between text span.start span.stop) :=
  if_pos h

namespace Buffer

/-- The piece that a round gives, if it replaces text or can be cut out. -/
def checkedPieceAt (b : Buffer) (stop pos : Nat) : Option Piece :=
  match b.replacedAt pos with
  | some r => some (.replaced r.text r.span)
  | none => (Text.cut? b.base ⟨pos, b.hop stop pos⟩).map .unedited

/-- The pieces from `pos` up to `stop`, if they take no more than a number of rounds and no cut is
wrong. -/
def checkedFrom (b : Buffer) (stop : Nat) : Nat → Nat → Option (List Piece)
  | 0, pos => if pos < stop then none else some []
  | rounds + 1, pos =>
    if pos < stop then do
      let piece ← b.checkedPieceAt stop pos
      let rest ← b.checkedFrom stop rounds (b.hop stop pos)
      return piece ::
        ((if b.hop stop pos < stop then b.insertionPiece (b.hop stop pos) else []) ++ rest)
    else some []

/-- The pieces of a range, if there are no more rounds than bytes and no cut is wrong. -/
def checkedPieces (b : Buffer) (span : Span) : Option (List Piece) :=
  (b.checkedFrom span.stop (span.stop - span.start) span.start).map (b.insertionPiece span.start ++ ·)

def checkedAllPieces (b : Buffer) : Option (List Piece) :=
  (b.checkedPieces ⟨0, b.size⟩).map (· ++ if 0 < b.size then b.insertionPiece b.size else [])

end Buffer

/-- The cursor after a piece, if the range that it replaces can be cut out. -/
def Piece.checkedAdvance (base : List Char) (cursor : Cursor) : Piece → Option Cursor
  | .replaced text span =>
    (Text.cut? base span).map fun old =>
      ⟨cursor.generated.advance text, cursor.source.advance old⟩
  | .inserted text => some ((Piece.inserted text).advance base cursor)
  | .unedited text => some ((Piece.unedited text).advance base cursor)

def checkedMappingsOf (r : Resolution) (base : List Char) (cursor : Cursor) :
    List Piece → Option (List Mapping)
  | [] => some []
  | p :: ps => do
    let next ← p.checkedAdvance base cursor
    let later ← checkedMappingsOf r base next ps
    return p.mappings r cursor ++ later

def Buffer.checkedMappings (b : Buffer) (r : Resolution) : Option (List Mapping) :=
  b.checkedAllPieces.bind (checkedMappingsOf r b.base {})

namespace Buffer

/-! ## The reader -/

theorem rounds_end {b : Buffer} (hb : b.Ordered) {span : Span} (hcheck : b.checkEdges span = .ok ()) :
    ∃ rounds ≤ span.stop - span.start,
      (b.hop span.stop)^[rounds] span.start = max span.start span.stop ∧
      ∀ k < rounds, (b.hop span.stop)^[k] span.start < span.stop := by
  obtain ⟨hstart, hstop⟩ := (checkEdges_eq_ok_iff_free hb).mp hcheck
  rcases Nat.lt_or_ge span.stop span.start with hrev | hle
  · exact ⟨0, Nat.zero_le _, (Nat.max_eq_left (Nat.le_of_lt hrev)).symm,
      fun k hk => absurd hk (Nat.not_lt_zero k)⟩
  rw [Nat.max_eq_right hle]
  refine hop_induction hb hstop
    (P := fun pos => ∃ rounds ≤ span.stop - pos, (b.hop span.stop)^[rounds] pos = span.stop ∧
      ∀ k < rounds, (b.hop span.stop)^[k] pos < span.stop)
    ⟨0, Nat.zero_le _, rfl, fun k hk => absurd hk (Nat.not_lt_zero k)⟩ ?_ span.start hle hstart
  rintro pos hlt - ⟨rounds, hrounds, hend, hbefore⟩
  have := lt_hop (b := b) hlt
  refine ⟨rounds + 1, by omega, hend, fun k hk => ?_⟩
  cases k with
  | zero => exact hlt
  | succ k => exact hbefore k (by omega)

theorem checkedPieceAt_eq {b : Buffer} {stop pos : Nat}
    (hvalid : Arena.validSpan b.base ⟨pos, b.hop stop pos⟩ = true) :
    b.checkedPieceAt stop pos = some (b.pieceAt stop pos) := by
  rw [checkedPieceAt, pieceAt, Text.cut?_eq_some hvalid]
  cases b.replacedAt pos with
  | some r => rfl
  | none => rfl

theorem Sound.checkedFrom_eq {b : Buffer} (hb : b.Sound) {stop : Nat} (hfree : b.Free stop)
    (hbound : Text.isBoundary b.base stop = true) :
    ∀ pos, pos ≤ stop → b.Free pos → Text.isBoundary b.base pos = true →
      ∀ rounds, stop - pos ≤ rounds → b.checkedFrom stop rounds pos = some (b.piecesFrom pos stop) := by
  refine hop_induction hb.ordered hfree ?_ ?_
  · intro _ rounds _
    rw [piecesFrom_of_not_lt (Nat.lt_irrefl _)]
    cases rounds with
    | zero => rw [checkedFrom, if_neg (Nat.lt_irrefl _)]
    | succ rounds => rw [checkedFrom, if_neg (Nat.lt_irrefl _)]
  · intro pos hlt _ ih hpos rounds hrounds
    have hhop := lt_hop (b := b) hlt
    have hhopBound := hb.isBoundary_hop hbound pos
    cases rounds with
    | zero => omega
    | succ rounds =>
      have hvalid : Arena.validSpan b.base ⟨pos, b.hop stop pos⟩ = true :=
        Arena.validSpan_iff.mpr ⟨Nat.le_of_lt hhop, Text.le_size_of_isBoundary hhopBound, hpos, hhopBound⟩
      rw [checkedFrom, if_pos hlt, ih hhopBound rounds (by omega), checkedPieceAt_eq hvalid,
        piecesFrom_of_lt hlt]
      rfl

theorem Sound.checkedPieces_eq {b : Buffer} (hb : b.Sound) {span : Span}
    (hvalid : Arena.validSpan b.base span = true) (hcheck : b.checkEdges span = .ok ()) :
    b.checkedPieces span = some (b.pieces span) := by
  obtain ⟨hle, -, hbstart, hbstop⟩ := Arena.validSpan_iff.mp hvalid
  obtain ⟨hstart, hstop⟩ := (checkEdges_eq_ok_iff_free hb.ordered).mp hcheck
  rw [checkedPieces, hb.checkedFrom_eq hstop hbstop span.start hle hstart hbstart _ (Nat.le_refl _)]
  rfl

theorem Sound.checkedAllPieces_eq {b : Buffer} (hb : b.Sound) :
    b.checkedAllPieces = some b.allPieces := by
  have hvalid : Arena.validSpan b.base ⟨0, b.size⟩ = true :=
    Arena.validSpan_iff.mpr ⟨Nat.zero_le _, Nat.le_refl _, Text.isBoundary_zero _, Text.isBoundary_size _⟩
  have hcheck : b.checkEdges ⟨0, b.size⟩ = .ok () :=
    (checkEdges_eq_ok_iff_free hb.ordered).mpr ⟨b.free_zero, hb.free_size⟩
  rw [checkedAllPieces, hb.checkedPieces_eq hvalid hcheck]
  rfl

/-! ## The maker of mappings -/

theorem span_of_mem_piecesFrom {b : Buffer} (hb : b.Ordered) {stop : Nat} (hfree : b.Free stop)
    {text : List Char} {span : Span} :
    ∀ pos, pos ≤ stop → b.Free pos → .replaced text span ∈ b.piecesFrom pos stop →
      ∃ r ∈ b.replacements, r.span = span := by
  refine hop_induction hb hfree ?_ ?_
  · intro h
    rw [piecesFrom_of_not_lt (Nat.lt_irrefl _)] at h
    cases h
  · intro pos hlt _ ih h
    rw [piecesFrom_of_lt hlt, List.mem_cons, List.mem_append] at h
    rcases h with h | h | h
    · unfold pieceAt at h
      split at h
      · rename_i r hr
        cases h
        exact ⟨r, List.mem_of_find?_eq_some hr, rfl⟩
      · cases h
    · split at h
      · simp [insertionPiece] at h
      · cases h
    · exact ih h

theorem Sound.span_of_mem_allPieces {b : Buffer} (hb : b.Sound) {text : List Char} {span : Span}
    (h : .replaced text span ∈ b.allPieces) : ∃ r ∈ b.replacements, r.span = span := by
  have hmem : .replaced text span ∈ b.piecesFrom 0 b.size := by
    rw [allPieces, pieces, List.append_assoc, List.mem_append, List.mem_append] at h
    rcases h with h | h | h
    · simp [insertionPiece] at h
    · exact h
    · split at h
      · simp [insertionPiece] at h
      · cases h
  exact span_of_mem_piecesFrom hb.ordered hb.free_size 0 (Nat.zero_le _) b.free_zero hmem

theorem Sound.validSpan_of_mem_allPieces {b : Buffer} (hb : b.Sound) {text : List Char} {span : Span}
    (h : .replaced text span ∈ b.allPieces) : Arena.validSpan b.base span = true := by
  obtain ⟨r, hr, rfl⟩ := hb.span_of_mem_allPieces h
  obtain ⟨hstart, hstop⟩ := hb.replaced r hr
  exact Arena.validSpan_iff.mpr
    ⟨Nat.le_of_lt r.start_lt_stop, Text.le_size_of_isBoundary hstop, hstart, hstop⟩

end Buffer

theorem checkedMappingsOf_eq {r : Resolution} {base : List Char} {cursor : Cursor} {ps : List Piece}
    (h : ∀ text span, .replaced text span ∈ ps → Arena.validSpan base span = true) :
    checkedMappingsOf r base cursor ps = some (mappingsOf r base cursor ps) := by
  induction ps generalizing cursor with
  | nil => rfl
  | cons p ps ih =>
    have hadvance : p.checkedAdvance base cursor = some (p.advance base cursor) := by
      cases p with
      | replaced text span =>
        rw [Piece.checkedAdvance, Text.cut?_eq_some (h text span (by simp))]
        rfl
      | inserted text => rfl
      | unedited text => rfl
    rw [checkedMappingsOf, hadvance, mappingsOf]
    simp only [bind, Option.bind, ih fun text span hmem => h text span (List.mem_cons_of_mem _ hmem)]
    rfl

theorem Buffer.Sound.checkedMappings_eq {b : Buffer} (hb : b.Sound) (r : Resolution) :
    b.checkedMappings r = some (b.mappings r) := by
  rw [checkedMappings, hb.checkedAllPieces_eq, Option.bind_some,
    checkedMappingsOf_eq fun text span h => hb.validSpan_of_mem_allPieces h]
  rfl

end TreeEdit
