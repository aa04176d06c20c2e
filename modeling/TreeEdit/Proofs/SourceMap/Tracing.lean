import Mathlib.Data.List.Induction
import TreeEdit.Proofs.SourceMap.Order

/-!
# Tracing unedited text back

A walk over the pieces of a buffer keeps two positions, and they stay in step: after any number of pieces the one is
where the text of the pieces ends, and the other where the text that they stand for ends (`mappingsOf_append`). A
character that no replacement covers is in an unedited piece, behind the edited form of all that was in front of it
(`Buffer.Sound.shows`). From the last mapping of such a piece, both positions have moved on by the same number of
columns (`exists_mapping_of_started`), so the mapping leads the character back to where it was
(`survivors_traced`).
-/

namespace TreeEdit

/-! ## What pieces stand for -/

/-- The unedited text that a piece stands for. -/
def Piece.original (base : List Char) : Piece → List Char
  | .inserted _ => []
  | .replaced _ span => Text.between base span.start span.stop
  | .unedited text => text

def originalOf (base : List Char) (ps : List Piece) : List Char :=
  ps.flatMap (·.original base)

@[simp] theorem originalOf_cons (base : List Char) (p : Piece) (ps : List Piece) :
    originalOf base (p :: ps) = p.original base ++ originalOf base ps :=
  List.flatMap_cons

@[simp] theorem originalOf_append (base : List Char) (ps qs : List Piece) :
    originalOf base (ps ++ qs) = originalOf base ps ++ originalOf base qs := by
  simp [originalOf]

theorem originalOf_insertionPiece (base : List Char) (b : Buffer) (offset : Nat) :
    originalOf base (b.insertionPiece offset) = [] := by
  rw [Buffer.insertionPiece]
  cases b.insertedAt offset <;> simp [originalOf, Piece.original]

theorem Buffer.original_pieceAt (b : Buffer) (stop pos : Nat) :
    (b.pieceAt stop pos).original b.base = Text.between b.base pos (b.hop stop pos) := by
  rw [pieceAt, hop]
  cases hr : b.replacedAt pos with
  | some r => simp [Piece.original, Replacement.span, start_of_replacedAt hr]
  | none => rfl

theorem Buffer.Sound.originalOf_piecesFrom {b : Buffer} (hb : b.Sound) {stop : Nat} (hfree : b.Free stop)
    (hbound : Text.isBoundary b.base stop = true) :
    ∀ pos, pos ≤ stop → b.Free pos → Text.isBoundary b.base pos = true →
      originalOf b.base (b.piecesFrom pos stop) = Text.between b.base pos stop := by
  refine hop_induction hb.ordered hfree ?_ ?_
  · intro _
    rw [piecesFrom_of_not_lt (Nat.lt_irrefl _), Text.between_self]
    rfl
  · intro pos hlt _ ih hpos
    have hnext := hb.isBoundary_hop hbound pos
    have hinserted : originalOf b.base (if b.hop stop pos < stop then b.insertionPiece (b.hop stop pos) else []) =
        [] := by
      split
      · exact originalOf_insertionPiece _ _ _
      · rfl
    rw [piecesFrom_of_lt hlt, originalOf_cons, originalOf_append, hinserted, ih hnext, original_pieceAt, List.nil_append]
    exact Text.between_append_between hpos hnext hbound (Nat.le_of_lt (lt_hop hlt)) (hop_le hfree hlt)

/-- The cursor after an edited text and the unedited text that it stands for. -/
def Cursor.past (cursor : Cursor) (edited original : List Char) : Cursor :=
  ⟨cursor.generated.advance edited, cursor.source.advance original⟩

theorem Cursor.past_append (cursor : Cursor) (e e' o o' : List Char) :
    cursor.past (e ++ e') (o ++ o') = (cursor.past e o).past e' o' := by
  simp [past]

theorem Piece.advance_eq (base : List Char) (cursor : Cursor) (p : Piece) :
    p.advance base cursor = cursor.past p.text (p.original base) := by
  cases p <;> rfl

theorem mappingsOf_append (r : Resolution) (base : List Char) (cursor : Cursor) (ps qs : List Piece) :
    mappingsOf r base cursor (ps ++ qs) = mappingsOf r base cursor ps ++
      mappingsOf r base (cursor.past (Buffer.textOf ps) (originalOf base ps)) qs := by
  induction ps generalizing cursor with
  | nil => rfl
  | cons p ps ih =>
    rw [List.cons_append, mappingsOf, mappingsOf, ih, p.advance_eq]
    simp [Cursor.past, Buffer.textOf, originalOf]

/-! ## Inside an unedited piece -/

/-- What is remembered after a character. -/
def Progress.past (c : Char) : Progress :=
  if c = '\n' then {} else ⟨true, isWord c⟩

def Progress.after (before : Progress) (text : List Char) : Progress :=
  text.foldl (fun _ c => Progress.past c) before

theorem Progress.after_concat (before : Progress) (text : List Char) (c : Char) :
    before.after (text ++ [c]) = Progress.past c := by
  simp [after]

theorem Progress.started_of_inWord {text : List Char} (h : (Progress.after {} text).inWord = true) :
    (Progress.after {} text).started = true := by
  cases text using List.reverseRecOn with
  | nil => simp [after] at h
  | append_singleton text c =>
    rw [after_concat, past] at *
    split at h
    · simp at h
    · rw [if_neg (by assumption)]

theorem uneditedMappings_append (r : Resolution) (cursor : Cursor) (before : Progress) (s t : List Char) :
    uneditedMappings r cursor before (s ++ t) =
      uneditedMappings r cursor before s ++ uneditedMappings r (cursor.past s s) (before.after s) t := by
  induction s generalizing cursor before with
  | nil => rfl
  | cons c s ih =>
    rw [List.cons_append, uneditedMappings, uneditedMappings]
    have hpast : ∀ p : Progress, p = Progress.past c →
        uneditedMappings r ⟨cursor.generated.step c, cursor.source.step c⟩ p (s ++ t) =
          uneditedMappings r ⟨cursor.generated.step c, cursor.source.step c⟩ p s ++
            uneditedMappings r (cursor.past (c :: s) (c :: s)) (before.after (c :: s)) t := by
      rintro p rfl
      exact ih _ _
    by_cases hc : c = '\n'
    · rw [if_pos hc, if_pos hc]
      exact hpast _ (if_pos hc).symm
    · rw [if_neg hc, if_neg hc, hpast _ (if_neg hc).symm]
      split <;> rfl

theorem started_of_not_due {r : Resolution} {text : List Char} {c : Char}
    (h : r.due (Progress.after {} text) c = false) : (Progress.after {} text).started = true := by
  cases r with
  | coarse => simpa [Resolution.due] using h
  | characters => simp [Resolution.due] at h
  | boundary => exact Progress.started_of_inWord (by simp [Resolution.due] at h; exact h.2)

/-- The cursor has gone on from the mapping by `d` columns in both texts. -/
structure Mapping.LeadsTo (m : Mapping) (d : Nat) (cursor : Cursor) : Prop where
  generated : cursor.generated = ⟨m.generated.line, m.generated.column + d⟩
  source : cursor.source = ⟨m.source.line, m.source.column + d⟩

theorem Cursor.mapping_leadsTo (cursor : Cursor) : cursor.mapping.LeadsTo 0 cursor :=
  ⟨rfl, rfl⟩

theorem Mapping.LeadsTo.step {m : Mapping} {d : Nat} {cursor : Cursor} (h : m.LeadsTo d cursor) {c : Char}
    (hc : c ≠ '\n') : m.LeadsTo (d + utf16Width c) (cursor.past [c] [c]) := by
  refine ⟨?_, ?_⟩
  · simp only [Cursor.past, Position.advance_cons, Position.advance_nil, Position.step_of_ne _ hc, h.generated]
    rw [Nat.add_assoc]
  · simp only [Cursor.past, Position.advance_cons, Position.advance_nil, Position.step_of_ne _ hc, h.source]
    rw [Nat.add_assoc]

/-- **On a line that has started**, the last mapping so far leads to where the text has come. -/
theorem exists_mapping_of_started (r : Resolution) (cursor : Cursor) {text : List Char}
    (h : (Progress.after {} text).started = true) :
    ∃ front m d, uneditedMappings r cursor {} text = front ++ [m] ∧ m.LeadsTo d (cursor.past text text) := by
  induction text using List.reverseRecOn with
  | nil => simp [Progress.after] at h
  | append_singleton text c ih =>
    have hc : c ≠ '\n' := by
      rintro rfl
      simp [Progress.after_concat, Progress.past] at h
    rw [uneditedMappings_append, cursor.past_append, uneditedMappings, if_neg hc]
    cases hdue : r.due (Progress.after {} text) c with
    | true =>
      exact ⟨_, _, _, rfl, (Cursor.mapping_leadsTo _).step hc⟩
    | false =>
      obtain ⟨front, m, d, heq, hm⟩ := ih (started_of_not_due hdue)
      exact ⟨front, m, _, by simp [heq, uneditedMappings], hm.step hc⟩

theorem exists_mapping_upTo (r : Resolution) (cursor : Cursor) (line rest : List Char) {c : Char} (hc : c ≠ '\n') :
    ∃ front m back d, uneditedMappings r cursor {} (line ++ c :: rest) = front ++ m :: back ∧
      m.LeadsTo d (cursor.past line line) ∧ (r = .characters → d = 0) ∧
      ∀ m' ∈ back, (cursor.past line line).generated.Before m'.generated := by
  have hback : ∀ before m', m' ∈ uneditedMappings r ((cursor.past line line).past [c] [c]) before rest →
      (cursor.past line line).generated.Before m'.generated := by
    intro before m' hm'
    exact (Position.before_step _ c).of_le ((uneditedMappings_within _ _ _ _).bounds m' hm').1
  rw [uneditedMappings_append, uneditedMappings, if_neg hc]
  cases hdue : r.due (Progress.after {} line) c with
  | true => exact ⟨_, _, _, 0, rfl, Cursor.mapping_leadsTo _, fun _ => rfl, hback _⟩
  | false =>
    obtain ⟨front, m, d, heq, hm⟩ := exists_mapping_of_started r cursor (started_of_not_due hdue)
    refine ⟨front, m, _, d, by rw [heq, List.append_assoc]; rfl, hm, ?_, hback _⟩
    rintro rfl
    simp [Resolution.due] at hdue

/-! ## Where a character that survives stands -/

namespace Buffer

/-- The pieces of the buffer from `pos` on have the character in an unedited piece. What is edited and what is
unedited in front of it there is what a scan up to the character gives, and the text up to it. -/
structure Located (b : Buffer) (pos offset : Nat) (ps : List Piece) (c : Char) (front : List Piece)
    (line rest : List Char) (back : List Piece) : Prop where
  split : ps = front ++ .unedited (line ++ c :: rest) :: back
  edited : b.scan true 0 offset pos = (b.insertedAt pos).getD [] ++ (textOf front ++ line)
  original : Text.between b.base pos offset = originalOf b.base front ++ line

/-- The character is in what the buffer shows from `pos` on. -/
def Shows (b : Buffer) (pos offset : Nat) (c : Char) : Prop :=
  ∃ front line rest back, b.Located pos offset (b.piecesFrom pos b.size) c front line rest back

section

variable {b : Buffer} {pos offset next : Nat} {c : Char} {later : List Char}

theorem shows_of_lt_hop (hr : b.replacedAt pos = none) (hpos : Text.isBoundary b.base pos = true)
    (hoffset : Text.isBoundary b.base offset = true) (hdrop : Text.drop offset b.base = c :: later)
    (hstop : Text.isBoundary b.base (b.hop b.size pos) = true) (hle : pos ≤ offset)
    (hlt : offset < b.hop b.size pos) (hsize : pos < b.size) : b.Shows pos offset c := by
  obtain ⟨d, more, hdrop', hnext, hnextle, hone⟩ := Text.exists_next hoffset hstop hlt
  obtain ⟨rfl, rfl⟩ : c = d ∧ later = more := by simpa [hdrop] using hdrop'
  have hwidth := c.utf8Size_pos
  have hfirst := Text.between_append_between hpos hoffset hnext hle (by omega)
  have hwhole := Text.between_append_between hpos hnext hstop (by omega) hnextle
  have hpieces := piecesFrom_of_lt (b := b) hsize
  rw [pieceAt, hr] at hpieces
  simp only [← hwhole, ← hfirst, hone, List.append_assoc, List.singleton_append] at hpieces
  refine ⟨[], _, _, _, hpieces, ?_, by simp [originalOf]⟩
  · obtain ⟨hreplaced, hinserted⟩ := unedited_before_hop b.size hr
    rcases Nat.lt_or_eq_of_le hle with hlt' | rfl
    · rw [scan_unedited hpos hoffset hlt' (Nat.le_refl _) (fun p h₁ h₂ => hreplaced p h₁ (by omega))
        (fun p h₁ h₂ => hinserted p h₁ (by omega)), scan_of_not_lt (Nat.lt_irrefl _),
        emitted_of_insertedAt_eq_none (hinserted offset hlt' hlt)]
      simp [emitted, textOf]
    · rw [scan_of_not_lt (Nat.lt_irrefl _)]
      simp [emitted, textOf]

theorem Shows.of_hop (h : b.Shows next offset c) (hnext : b.hop b.size pos = next) (hlt : next < b.size)
    (hsize : pos < b.size) (hpos : Text.isBoundary b.base pos = true) (hbound : Text.isBoundary b.base next = true)
    (hoffset : Text.isBoundary b.base offset = true) (hle : next ≤ offset)
    (hscan : b.scan true 0 offset pos =
      (b.insertedAt pos).getD [] ++ ((b.pieceAt b.size pos).text ++ b.scan true 0 offset next)) :
    b.Shows pos offset c := by
  obtain ⟨front, line, rest, back, hloc⟩ := h
  have hposle : pos ≤ next := hnext ▸ Nat.le_of_lt (lt_hop hsize)
  refine ⟨b.pieceAt b.size pos :: (b.insertionPiece next ++ front), line, rest, back, ?_, ?_, ?_⟩
  · rw [piecesFrom_of_lt hsize, hnext, if_pos hlt, hloc.split]
    simp
  · rw [hscan, hloc.edited]
    simp [textOf, ← textOf_insertionPiece]
  · rw [← Text.between_append_between hpos hbound hoffset hposle hle, hloc.original, ← hnext,
      ← original_pieceAt]
    simp [originalOf_insertionPiece b.base b]

end

/-- **A character that no replacement covers** is shown, behind the edited form of what is in front of it. -/
theorem Sound.shows {b : Buffer} (hb : b.Sound) {offset : Nat} {c : Char} {later : List Char}
    (hoffset : Text.isBoundary b.base offset = true) (hdrop : Text.drop offset b.base = c :: later)
    (hsize : offset < b.size) (huncovered : ∀ r ∈ b.replacements, r.span.contains offset = false) :
    b.Shows 0 offset c := by
  have hend : Text.isBoundary b.base b.size = true := Text.isBoundary_size b.base
  suffices ∀ pos, pos ≤ b.size → b.Free pos → Text.isBoundary b.base pos = true → pos ≤ offset →
      b.Shows pos offset c from
    this 0 (Nat.zero_le _) b.free_zero (Text.isBoundary_zero _) (Nat.zero_le _)
  refine hop_induction hb.ordered hb.free_size (fun _ hle => absurd hle (by omega)) ?_
  intro pos hlt _ ih hpos hle
  have hbound := hb.isBoundary_hop hend pos
  cases hr : b.replacedAt pos with
  | none =>
    rcases Nat.lt_or_ge offset (b.hop b.size pos) with hin | hbehind
    · exact shows_of_lt_hop hr hpos hoffset hdrop hbound hle hin hlt
    · obtain ⟨hreplaced, hinserted⟩ := unedited_before_hop b.size hr
      refine (ih hbound hbehind).of_hop rfl (by omega) hlt hpos hbound hoffset hbehind ?_
      rw [scan_unedited hpos hbound (lt_hop hlt) hbehind hreplaced hinserted]
      simp [pieceAt, hr, Piece.text, emitted]
  | some r =>
    -- the replacement starts no later than the character, and so it stops no later than it
    have hcover : Span.contains ⟨r.start, r.stop⟩ offset = false := huncovered r (List.mem_of_find?_eq_some hr)
    have hstart := start_of_replacedAt hr
    have hstop := r.start_lt_stop
    have hhop : b.hop b.size pos = r.stop := by rw [hop, hr]
    have hbehind : r.stop ≤ offset := by
      simp only [Span.contains, Bool.and_eq_false_iff, decide_eq_false_iff_not] at hcover
      omega
    rw [hhop] at ih hbound
    refine (ih hbound hbehind).of_hop hhop (by omega) hlt hpos hbound hoffset hbehind ?_
    rw [scan_of_replaced (by omega) hr]
    simp [pieceAt, hr, Piece.text, emitted]

end Buffer

section

variable {text pre post : List Char} {c : Char} {b : Buffer}

theorem Buffer.Sound.code_cut (hb : b.Sound) (hbase : b.base = pre ++ c :: post)
    (huncovered : ∀ r ∈ b.replacements, r.span.contains (Text.size pre) = false) :
    b.code = b.scan true 0 (Text.size pre) 0 ++ c :: b.scan true 0 b.size (Text.size pre + c.utf8Size) := by
  have hwidth := c.utf8Size_pos
  have hsize : Text.size pre < b.size := by simp [Buffer.size, hbase]; omega
  have hbound : Text.isBoundary b.base (Text.size pre) = true := hbase ▸ Text.isBoundary_size_append _ _
  have hnot : ∀ r ∈ b.replacements, r.stop ≤ Text.size pre ∨ Text.size pre < r.start := by
    intro r hr
    have hcover : Span.contains ⟨r.start, r.stop⟩ (Text.size pre) = false := huncovered r hr
    simp only [Span.contains, Bool.and_eq_false_iff, decide_eq_false_iff_not] at hcover
    omega
  have hfree : b.Free (Text.size pre) := fun r hr hin => by
    have := hnot r hr
    have := hin.1
    have := hin.2
    omega
  have hnone : b.replacedAt (Text.size pre) = none := by
    rw [Buffer.replacedAt_eq_none_iff]
    intro r hr heq
    have := hnot r hr
    have := r.start_lt_stop
    omega
  rw [hb.code_eq_scan]
  refine hb.scan_append hbound hfree (Nat.le_of_lt hsize) ?_ (Nat.zero_le _) (Text.isBoundary_zero _)
  rw [Buffer.scan_of_char hsize hnone (hbase ▸ Text.drop_size_append _ _)]
  simp [Buffer.emitted]

theorem Buffer.Sound.mappings_cut (hb : b.Sound) (r : Resolution) (hbase : b.base = pre ++ c :: post)
    (huncovered : ∀ r ∈ b.replacements, r.span.contains (Text.size pre) = false) (hc : c ≠ '\n') :
    let here : Cursor := Cursor.past {} (b.scan true 0 (Text.size pre) 0) pre
    ∃ front m back d, b.mappings r = front ++ m :: back ∧ m.LeadsTo d here ∧ (r = .characters → d = 0) ∧
      ∀ m' ∈ back, here.generated.Before m'.generated := by
  intro here
  have hwidth := c.utf8Size_pos
  have hsize : Text.size pre < b.size := by simp [Buffer.size, hbase]; omega
  obtain ⟨ps, line, rest, qs, hloc⟩ := hb.shows (hbase ▸ Text.isBoundary_size_append _ _)
    (hbase ▸ Text.drop_size_append _ _) hsize huncovered
  let start : Cursor := Cursor.past {} (Buffer.textOf (b.insertionPiece 0 ++ ps)) (originalOf b.base ps)
  have hhere : here = start.past line line := by
    have hpre : Text.between b.base 0 (Text.size pre) = pre := by
      simpa [hbase] using Text.between_size_append [] pre (c :: post)
    rw [← Cursor.past_append, Buffer.textOf_append, Buffer.textOf_insertionPiece, List.append_assoc, ← hloc.edited,
      ← hloc.original, hpre]
  have hall : b.mappings r = mappingsOf r b.base {} (b.insertionPiece 0 ++ ps) ++
      (uneditedMappings r start {} (line ++ c :: rest) ++
        mappingsOf r b.base (start.past (line ++ c :: rest) (line ++ c :: rest)) (qs ++ b.insertionPiece b.size)) := by
    rw [Buffer.mappings, Buffer.allPieces, Buffer.pieces, hloc.split, if_pos (by omega), ← List.append_assoc,
      List.append_assoc, mappingsOf_append, List.cons_append, mappingsOf, Piece.advance_eq]
    simp [start, originalOf_insertionPiece, Piece.mappings, Piece.text, Piece.original]
  obtain ⟨front, m, back, d, hcut, hm, hchars, hback⟩ := exists_mapping_upTo r start line rest hc
  rw [← hhere] at hm hback
  refine ⟨_, m, _, d, by rw [hall, hcut, List.append_assoc, ← List.append_assoc, List.cons_append], hm, hchars, ?_⟩
  intro m' hm'
  rcases List.mem_append.mp hm' with hin | hlater
  · exact hback m' hin
  · have hpast : start.past (line ++ c :: rest) (line ++ c :: rest) = here.past (c :: rest) (c :: rest) := by
      rw [hhere, Cursor.past_append]
    rw [hpast] at hlater
    have hstep := (Position.before_step here.generated c).of_le (Position.le_advance _ rest)
    exact hstep.of_le ((mappingsOf_within _ _ _ _).bounds m' hlater).1

/-- **Text that survives is traced back exactly.** A character of the text that no replacement covers is in the edited
text behind the edited form of all that was in front of it. If it is not a newline, the last mapping that is not after
it is as many columns in front of it, on its line, as the source of the mapping is in front of where the character was,
on its line there; this is what a lookup gives. With a mapping at each character, that is no column at all. -/
theorem survivors_traced (options : MapOptions)
    (hb : b.EditedFrom text) (htext : text = pre ++ c :: post)
    (huncovered : ∀ r ∈ b.replacements, r.span.contains (Text.size pre) = false) (hc : c ≠ '\n') :
    let before := b.scan true 0 (Text.size pre) 0
    let map := SourceMap.ofBuffer options b
    b.code = before ++ c :: b.scan true 0 b.size (Text.size pre + c.utf8Size) ∧
      ∃ m d, Mapping.LastUpTo map.mappings (Position.advance {} before) m ∧
        Position.advance {} before = ⟨m.generated.line, m.generated.column + d⟩ ∧
        Position.advance {} pre = ⟨m.source.line, m.source.column + d⟩ ∧
        (options.hires = .characters → d = 0) ∧ map.lookup (Position.advance {} before) = some m.source := by
  intro before map
  have hbase : b.base = pre ++ c :: post := hb.base_eq.trans htext
  refine ⟨hb.sound.code_cut hbase huncovered, ?_⟩
  obtain ⟨front, m, back, d, hcut, hm, hchars, hback⟩ := hb.sound.mappings_cut options.hires hbase huncovered hc
  have hsorted : map.mappings.Pairwise (·.generated.Before ·.generated) := b.mappings_sorted options.hires
  have hmap : map.mappings = front ++ m :: back := hcut
  have hreached : m.generated.le (Position.advance {} before) = true := by
    have hgen : Position.advance {} before = _ := hm.generated
    rw [hgen, Position.le_iff]
    simp [Position.Before]
  have hlast : Mapping.LastUpTo map.mappings (Position.advance {} before) m :=
    hmap ▸ Mapping.lastUpTo_of_split (hmap ▸ hsorted) hreached hback
  exact ⟨m, d, hlast, hm.generated, hm.source, hchars, SourceMap.lookup_eq hsorted hlast⟩

end

/-- The second character of a piece on the second line, behind an astral character, two lines in the place of a line
end and an insertion. The mapping is at the start of the piece. -/
theorem survivors_traced_behind_edits :
    let text := "a\n𝄞bc".toList
    let es : List Edit := [.overwrite ⟨1, 2⟩ (by decide) "--\n+".toList, .insert 6 ['!']]
    let b := Buffer.after { base := text } es
    let map := SourceMap.ofBuffer {} b
    (∀ e ∈ es, e.Valid text) ∧ (∀ r ∈ b.replacements, r.span.contains 7 = false) ∧
      b.code = b.scan true 0 7 0 ++ 'c' :: b.scan true 0 8 8 ∧ Position.advance {} (b.scan true 0 7 0) = ⟨1, 5⟩ ∧
      ∃ m d, Mapping.LastUpTo map.mappings ⟨1, 5⟩ m ∧ (⟨1, 5⟩ : Position) = ⟨m.generated.line, m.generated.column + d⟩ ∧
        (⟨1, 3⟩ : Position) = ⟨m.source.line, m.source.column + d⟩ ∧ map.lookup ⟨1, 5⟩ = some m.source := by
  intro text es b map
  have hvalid : ∀ e ∈ es, e.Valid text := by decide
  have huncovered : ∀ r ∈ b.replacements, r.span.contains 7 = false := by decide
  have hbefore : Position.advance {} (b.scan true 0 7 0) = ⟨1, 5⟩ := by decide +kernel
  obtain ⟨hcode, m, d, hlast, hgen, hsource, -, hlookup⟩ :=
    @survivors_traced text "a\n𝄞b".toList [] 'c' b {} ⟨es, hvalid, rfl⟩ rfl huncovered (by decide)
  exact ⟨hvalid, huncovered, hcode, hbefore, m, d, hbefore ▸ hlast, hbefore ▸ hgen, hsource, hbefore ▸ hlookup⟩

end TreeEdit
