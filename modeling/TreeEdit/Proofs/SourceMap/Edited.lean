import TreeEdit.Proofs.Buffer.Kept
import TreeEdit.Proofs.Buffer.Parts
import TreeEdit.Proofs.SourceMap.Tracing

/-!
# Mappings of edited text

Each edit of a buffer is a piece of its own, behind the pieces of all that is in front of it (`Sound.pieces_of_replacement`,
`Sound.pieces_of_insertion`). In the text of a piece there are just the mappings that the piece makes
(`Buffer.between_mappings`): none in inserted text, and in replacing text one at the start of each of its lines
(`replacedMappings_eq`). So each character of replacing text is led to the start of the replaced range, from its own line
(`edited_text_traced`).
-/

namespace TreeEdit

/-! ## Lines -/

/-- The lines of a text; an empty last line does not count. -/
def Text.lines : List Char → List (List Char)
  | [] => []
  | c :: t => if c = '\n' then [] :: lines t else (c :: (lines t).headD []) :: (lines t).tail

theorem Text.length_lines_cons (c : Char) (t : List Char) :
    (lines (c :: t)).length = if c = '\n' then (lines t).length + 1 else (lines t).length - 1 + 1 := by
  rw [lines]
  split <;> simp

example : Text.lines "ab\n\nc\n".toList = [['a', 'b'], [], ['c']] := by decide

/-- Where a line starts, if the first one starts at `p`. -/
def Position.lineStart (p : Position) (i : Nat) : Position :=
  ⟨p.line + i, if i = 0 then p.column else 0⟩

theorem Position.lineStart_newline (p : Position) (i : Nat) : (p.step '\n').lineStart i = p.lineStart (i + 1) := by
  simp [lineStart, step]
  omega

theorem Position.lt_of_lineStart_before {p : Position} {i j : Nat} (h : (p.lineStart i).Before (p.lineStart j)) :
    i < j := by
  rcases Nat.lt_trichotomy i j with hlt | rfl | hgt
  · exact hlt
  · simp [Before] at h
  · simp only [Before, lineStart] at h
    omega

theorem Position.step_step_newline (p : Position) {c : Char} (hc : c ≠ '\n') :
    (p.step c).step '\n' = p.step '\n' := by
  rw [step_of_ne p hc]
  rfl

/-- A mapping to `source` for each of some lines, where the first one starts at `start`. -/
def Mapping.ofLines (source start : Position) (n : Nat) : List Mapping :=
  (List.range n).map fun i => ⟨start.lineStart i, source⟩

theorem Mapping.ofLines_succ (source start : Position) (n : Nat) :
    ofLines source start (n + 1) = ⟨start, source⟩ :: ofLines source (start.step '\n') n := by
  simp only [ofLines, List.range_succ_eq_map, List.map_cons, List.map_map, Function.comp_def,
    Position.lineStart_newline]
  rfl

/-- **Replacing text has a mapping for each of its lines**, the first one apart if none is due there. -/
theorem replacedMappings_eq (source pos : Position) (due : Bool) (text : List Char) :
    replacedMappings source pos due text = if due then Mapping.ofLines source pos (Text.lines text).length
      else Mapping.ofLines source (pos.step '\n') ((Text.lines text).length - 1) := by
  induction text generalizing pos due with
  | nil => cases due <;> rfl
  | cons c cs ih =>
    rw [replacedMappings, ih, Text.length_lines_cons]
    by_cases hc : c = '\n'
    · subst hc
      simp [Mapping.ofLines_succ]
    · simp [hc, Mapping.ofLines_succ, Position.step_step_newline]

theorem Position.exists_line (p : Position) (pre : List Char) (c : Char) (post : List Char) :
    ∃ i < (Text.lines (pre ++ c :: post)).length, (p.lineStart i).line = (p.advance pre).line ∧
      (p.lineStart i).le (p.advance pre) = true := by
  induction pre generalizing p with
  | nil =>
    refine ⟨0, ?_, rfl, p.le_refl⟩
    rw [List.nil_append, Text.length_lines_cons]
    split <;> omega
  | cons d pre ih =>
    obtain ⟨i, hi, hline, hle⟩ := ih (p.step d)
    rw [List.cons_append, Text.length_lines_cons, advance_cons]
    by_cases hd : d = '\n'
    · subst hd
      rw [lineStart_newline] at hline hle
      exact ⟨i + 1, by simpa using hi, hline, hle⟩
    · have hback : (p.lineStart i).le ((p.step d).lineStart i) = true := by
        rw [step_of_ne p hd, le_iff]
        simp only [Before, lineStart]
        split <;> omega
      have hsame : (p.lineStart i).line = ((p.step d).lineStart i).line := by rw [step_of_ne p hd]; rfl
      exact ⟨i, by rw [if_neg hd]; omega, hsame.trans hline, le_trans hback hle⟩

/-! ## Where an edit is among the pieces -/

namespace Buffer

variable {b : Buffer} {mid stop pos : Nat}

theorem nextStop_of_le (hle : mid ≤ stop) (ns : List Nat) : nextStop pos mid ns = min mid (nextStop pos stop ns) := by
  induction ns with
  | nil => simp [nextStop, hle]
  | cons n ns ih =>
    rw [nextStop, nextStop, ih]
    split
    · omega
    · rfl

theorem hop_of_editStart (hmid : mid ∈ b.editStarts) (hlt : pos < mid) (hle : mid ≤ stop) :
    b.hop stop pos = b.hop mid pos := by
  rw [hop, hop]
  cases b.replacedAt pos with
  | some r => rfl
  | none =>
    have hreach : nextStop pos stop b.editStarts ≤ mid := nextStop_le_of_mem hmid hlt
    rw [nextStop_of_le hle, Nat.min_eq_right hreach]

theorem pieceAt_of_editStart (hmid : mid ∈ b.editStarts) (hlt : pos < mid) (hle : mid ≤ stop) :
    b.pieceAt stop pos = b.pieceAt mid pos := by
  rw [pieceAt, pieceAt, hop_of_editStart hmid hlt hle]

/-- **An edit cuts the pieces**: those of a range around its start are those in front of it, the insertion there and
those from it on. -/
theorem Ordered.piecesFrom_append (hb : b.Ordered) (hmid : mid ∈ b.editStarts) (hstop : mid < stop) :
    ∀ pos, pos ≤ mid → b.Free pos → pos < mid →
      b.piecesFrom pos stop = b.piecesFrom pos mid ++ (b.insertionPiece mid ++ b.piecesFrom mid stop) := by
  have hfree := hb.free_of_mem_editStarts hmid
  refine hop_induction hb hfree (fun h => absurd h (Nat.lt_irrefl _)) ?_
  intro pos hlt _ ih _
  have hle := hop_le hfree hlt
  rw [piecesFrom_of_lt (Nat.lt_trans hlt hstop), piecesFrom_of_lt hlt, hop_of_editStart hmid hlt (Nat.le_of_lt hstop),
    pieceAt_of_editStart hmid hlt (Nat.le_of_lt hstop), if_pos (Nat.lt_of_le_of_lt hle hstop)]
  rcases Nat.lt_or_eq_of_le hle with hnext | hnext
  · rw [ih hnext, if_pos hnext]
    simp
  · rw [hnext, if_neg (Nat.lt_irrefl _), piecesFrom_of_not_lt (Nat.lt_irrefl _)]
    simp

/-- The pieces of all that is in front of an offset. -/
def piecesBefore (b : Buffer) (offset : Nat) : List Piece :=
  if 0 < offset then b.pieces ⟨0, offset⟩ else []

theorem textOf_piecesBefore (b : Buffer) (offset : Nat) : textOf (b.piecesBefore offset) = b.stretch 0 offset := by
  rw [piecesBefore, stretch]
  split
  · rw [pieces, textOf_append, textOf_insertionPiece]
  · rfl

theorem Sound.allPieces_eq (hb : b.Sound) (hmid : mid ∈ b.editStarts) :
    b.allPieces = b.piecesBefore mid ++ (b.insertionPiece mid ++
      (b.piecesFrom mid b.size ++ if mid < b.size then b.insertionPiece b.size else [])) := by
  have hbound : Text.isBoundary b.base mid = true := by
    rcases mem_editStarts.mp hmid with ⟨r, hr, rfl⟩ | ⟨i, hi, rfl⟩
    · exact (hb.replaced r hr).1
    · exact hb.inserted i hi
  have hsize : mid ≤ b.size := Text.le_size_of_isBoundary hbound
  rw [allPieces, pieces, piecesBefore]
  rcases Nat.eq_zero_or_pos mid with rfl | hpos
  · simp
  · rw [if_pos hpos, pieces, if_pos (by omega)]
    rcases Nat.lt_or_eq_of_le hsize with hlt | rfl
    · rw [hb.ordered.piecesFrom_append hmid hlt 0 (by omega) b.free_zero hpos, if_pos hlt]
      simp
    · rw [if_neg (Nat.lt_irrefl _), piecesFrom_of_not_lt (Nat.lt_irrefl _)]
      simp

theorem Sound.originalOf_piecesBefore (hb : b.Sound) (hfree : b.Free mid)
    (hbound : Text.isBoundary b.base mid = true) :
    originalOf b.base (b.piecesBefore mid) = Text.between b.base 0 mid := by
  rw [piecesBefore]
  split
  · rw [pieces, originalOf_append, originalOf_insertionPiece, List.nil_append]
    exact hb.originalOf_piecesFrom hfree hbound 0 (Nat.zero_le _) b.free_zero (Text.isBoundary_zero _)
  · rename_i hzero
    rw [Nat.eq_zero_of_not_pos hzero, Text.between_self]
    rfl

theorem Sound.pieces_of_replacement (hb : b.Sound) {r : Replacement} (hr : r ∈ b.replacements) :
    ∃ front back, b.allPieces = front ++ .replaced r.text r.span :: back ∧
      textOf front = b.scan true 0 r.start 0 ∧ originalOf b.base front = Text.between b.base 0 r.start := by
  have hstart : r.start ∈ b.editStarts := mem_editStarts.mpr (.inl ⟨r, hr, rfl⟩)
  have hfree := hb.ordered.free_of_mem_editStarts hstart
  obtain ⟨hbound, hbstop⟩ := hb.replaced r hr
  have hsize : r.start < b.size := Nat.lt_of_lt_of_le r.start_lt_stop (Text.le_size_of_isBoundary hbstop)
  have hpiece : b.pieceAt b.size r.start = .replaced r.text r.span := by
    rw [pieceAt, (replacedAt_eq_some_iff hb.ordered).mpr ⟨hr, rfl⟩]
  have hall := hb.allPieces_eq hstart
  rw [piecesFrom_of_lt hsize, hpiece, List.cons_append, ← List.append_assoc] at hall
  refine ⟨_, _, hall, ?_, ?_⟩
  · rw [textOf_append, textOf_piecesBefore, textOf_insertionPiece,
      hb.scan_eq_stretch (Nat.zero_le _) b.free_zero hfree (Text.isBoundary_zero _) hbound]
  · rw [originalOf_append, originalOf_insertionPiece, List.append_nil, hb.originalOf_piecesBefore hfree hbound]

theorem Sound.pieces_of_insertion (hb : b.Sound) {i : Insertion} (hi : i ∈ b.insertions) :
    ∃ front back, b.allPieces = front ++ .inserted i.text :: back ∧
      b.scan true 0 i.offset 0 = textOf front ++ i.text := by
  have hstart : i.offset ∈ b.editStarts := mem_editStarts.mpr (.inr ⟨i, hi, rfl⟩)
  have hfree := hb.ordered.free_of_mem_editStarts hstart
  have hbound := hb.inserted i hi
  have htext : b.insertedAt i.offset = some i.text := (mem_insertions_iff hb.ordered).mp hi
  have hall := hb.allPieces_eq hstart
  rw [insertionPiece, htext] at hall
  refine ⟨_, _, hall, ?_⟩
  rw [textOf_piecesBefore, hb.scan_eq_stretch (Nat.zero_le _) b.free_zero hfree (Text.isBoundary_zero _) hbound, htext]
  rfl

end Buffer

/-! ## The mappings of a piece -/

namespace Mapping

variable {lo hi other : Position} {ms ms' : List Mapping}

/-- The mappings from `lo` on and before `hi`. -/
def between (lo hi : Position) (ms : List Mapping) : List Mapping :=
  ms.filter fun m => lo.le m.generated && !hi.le m.generated

theorem between_append (lo hi : Position) (ms ms' : List Mapping) :
    between lo hi (ms ++ ms') = between lo hi ms ++ between lo hi ms' :=
  List.filter_append ..

theorem mem_between {m : Mapping} :
    m ∈ between lo hi ms ↔ m ∈ ms ∧ lo.le m.generated = true ∧ m.generated.Before hi := by
  rw [between, List.mem_filter, Bool.and_eq_true, Bool.not_eq_true', Position.le_eq_false_iff]

theorem Within.between_eq (h : Within lo hi ms) : between lo hi ms = ms :=
  List.filter_eq_self.mpr fun m hm => (List.mem_filter.mp (mem_between.mpr ⟨hm, h.bounds m hm⟩)).2

theorem Within.between_of_le_lo (h : Within other lo ms) : between lo hi ms = [] := by
  refine List.eq_nil_iff_forall_not_mem.mpr fun m hm => ?_
  obtain ⟨hm, hlo, -⟩ := mem_between.mp hm
  exact Position.le_iff.mp hlo (h.bounds m hm).2

theorem Within.between_of_hi_le (h : Within hi other ms) : between lo hi ms = [] := by
  refine List.eq_nil_iff_forall_not_mem.mpr fun m hm => ?_
  obtain ⟨hm, -, hhi⟩ := mem_between.mp hm
  exact Position.le_iff.mp (h.bounds m hm).1 hhi

end Mapping

theorem Buffer.between_mappings {b : Buffer} {front back : List Piece} {p : Piece}
    (h : b.allPieces = front ++ p :: back) (r : Resolution) :
    let here : Cursor := Cursor.past {} (Buffer.textOf front) (originalOf b.base front)
    Mapping.between here.generated (here.generated.advance p.text) (b.mappings r) = p.mappings r here := by
  intro here
  have hfront : Mapping.Within {} here.generated (mappingsOf r b.base {} front) :=
    mappingsOf_within r b.base {} front
  have hback := mappingsOf_within r b.base (p.advance b.base here) back
  rw [p.generated_advance] at hback
  have hall : b.mappings r = mappingsOf r b.base {} front ++
      (p.mappings r here ++ mappingsOf r b.base (p.advance b.base here) back) := by
    rw [Buffer.mappings, h, mappingsOf_append]
    rfl
  rw [hall, Mapping.between_append, Mapping.between_append, hfront.between_of_le_lo,
    (p.mappings_within r here).between_eq, hback.between_of_hi_le]
  simp

theorem Buffer.no_mapping_of_inserted {b : Buffer} {front back : List Piece} {text : List Char}
    (h : b.allPieces = front ++ .inserted text :: back) (r : Resolution) {p : Position}
    (hp : (Position.advance {} (Buffer.textOf front)).OfChar text p) {m : Mapping} (hm : m ∈ b.mappings r) :
    m.generated ≠ p := by
  rintro rfl
  have hmem := Mapping.mem_between.mpr ⟨hm, hp.le, hp.before⟩
  have hnone : m ∈ Piece.mappings r _ (.inserted text) := Buffer.between_mappings h r ▸ hmem
  simp [Piece.mappings] at hnone

theorem Mapping.lastUpTo_of_lines {ms : List Mapping} {source start : Position} {text pre post : List Char} {c : Char}
    (hsorted : ms.Pairwise (·.generated.Before ·.generated)) (htext : text = pre ++ c :: post)
    (hlines : between start (start.advance text) ms = ofLines source start (Text.lines text).length) :
    ∃ m, LastUpTo ms (start.advance pre) m ∧ m.generated.line = (start.advance pre).line ∧ m.source = source := by
  obtain ⟨i, hi, hline, hle⟩ := start.exists_line pre c post
  have hmem : ⟨start.lineStart i, source⟩ ∈ between start (start.advance text) ms := by
    rw [hlines, ofLines, List.mem_map, htext]
    exact ⟨i, List.mem_range.mpr hi, rfl⟩
  obtain ⟨hm, hlo, -⟩ := mem_between.mp hmem
  refine ⟨_, ⟨hm, hle, fun m' hm' hle' => ?_⟩, hline, rfl⟩
  rcases eq_or_before hsorted hm hm' with heq | hafter | hbefore
  · exact .inl heq.symm
  · -- a mapping behind that of the line would be that of a later line, and so behind the character
    have hin : m' ∈ between start (start.advance text) ms := by
      have hend : (start.advance pre).Before (start.advance text) := htext ▸ start.advance_before pre c post
      exact mem_between.mpr ⟨hm', Position.le_trans hlo hafter.le, Position.before_of_le_of_before hle' hend⟩
    rw [hlines, ofLines, List.mem_map] at hin
    obtain ⟨j, -, rfl⟩ := hin
    have hlater := Position.lt_of_lineStart_before hafter
    refine absurd (Or.inl ?_) (Position.le_iff.mp hle')
    simp only [Position.lineStart] at hline ⊢
    omega
  · exact .inr hbefore

/-- **Edited text is led to the range that it replaces.** A replacement is in the code behind the edited form of all that
is in front of it. For each of its characters, the last mapping that is not after it is on the same line and leads to the
start of the replaced range. In its text there are just the mappings at the starts of its lines, an empty last line apart.
Text that is inserted is in the code too, and has no mapping at any of its characters. -/
theorem edited_text_traced {b : Buffer} {text : List Char} (options : MapOptions) (hb : b.EditedFrom text) :
    let map := SourceMap.ofBuffer options b
    (∀ r ∈ b.replacements,
      let before := b.scan true 0 r.start 0
      let start := Position.advance {} before
      let source := Position.advance {} (Text.between text 0 r.start)
      b.code = before ++ (r.text ++ b.scan true 0 b.size r.stop) ∧
      (∀ pre c post, r.text = pre ++ c :: post → ∃ m, Mapping.LastUpTo map.mappings (start.advance pre) m ∧
        m.generated.line = (start.advance pre).line ∧ m.source = source) ∧
      Mapping.between start (start.advance r.text) map.mappings =
        (List.range (Text.lines r.text).length).map fun i => ⟨start.lineStart i, source⟩) ∧
    ∀ i ∈ b.insertions, ∃ before after,
      b.scan true 0 i.offset 0 = before ++ i.text ∧ b.code = before ++ (i.text ++ after) ∧
      ∀ p, (Position.advance {} before).OfChar i.text p → ∀ m ∈ map.mappings, m.generated ≠ p := by
  intro map
  have hsound := hb.sound
  refine ⟨fun r hr => ?_, fun i hi => ?_⟩
  · intro before start source
    obtain ⟨front, back, hall, hfront, horiginal⟩ := hsound.pieces_of_replacement hr
    obtain ⟨hbound, -⟩ := hsound.replaced r hr
    have hfree := hsound.ordered.free_of_mem_editStarts (Buffer.mem_editStarts.mpr (.inl ⟨r, hr, rfl⟩))
    have hcode : b.code = before ++ (r.text ++ b.scan true 0 b.size r.stop) := by
      rw [hsound.code_eq_scan]
      exact hsound.scan_append hbound hfree (Text.le_size_of_isBoundary hbound) (hsound.scan_of_replacement hr)
        (Nat.zero_le _) (Text.isBoundary_zero _)
    have hlines : Mapping.between start (start.advance r.text) map.mappings =
        Mapping.ofLines source start (Text.lines r.text).length := by
      have hpiece := Buffer.between_mappings hall options.hires
      rw [hfront, horiginal, hb.base_eq] at hpiece
      exact hpiece.trans (replacedMappings_eq source start true r.text)
    exact ⟨hcode, fun pre c post htext => Mapping.lastUpTo_of_lines (b.mappings_sorted _) htext hlines, hlines⟩
  · obtain ⟨front, back, hall, hfront⟩ := hsound.pieces_of_insertion hi
    have hcode : b.code = Buffer.textOf front ++ (i.text ++ Buffer.textOf back) := by
      rw [Buffer.code, hall]
      simp [Buffer.textOf, Piece.text]
    exact ⟨_, _, hfront, hcode, fun p hp m hm => Buffer.no_mapping_of_inserted hall _ hp hm⟩

/-- Two lines and a line end in the place of a character, and a line end inserted further on. -/
theorem edited_text_traced_two_lines :
    let text := "ab\ncd".toList
    let es : List Edit := [.overwrite ⟨1, 2⟩ (by decide) "(\n2\n".toList, .insert 4 "!\n".toList]
    let b := Buffer.after { base := text } es
    let map := SourceMap.ofBuffer { hires := .characters } b
    b.EditedFrom text ∧ b.code = "a(\n2\n\nc!\nd".toList ∧
      (∃ m, Mapping.LastUpTo map.mappings ⟨1, 0⟩ m ∧ m.generated.line = 1 ∧ m.source = ⟨0, 1⟩) ∧
      Mapping.between ⟨0, 1⟩ ⟨2, 0⟩ map.mappings = [⟨⟨0, 1⟩, ⟨0, 1⟩⟩, ⟨⟨1, 0⟩, ⟨0, 1⟩⟩] ∧
      ∀ m ∈ map.mappings, m.generated ≠ ⟨3, 1⟩ := by
  intro text es b map
  have hb : b.EditedFrom text := ⟨es, by decide, rfl⟩
  have hfront : b.scan true 0 1 0 = ['a'] := by decide +kernel
  have hback : b.scan true 0 5 2 = "\nc!\nd".toList := by decide +kernel
  have hinserted : b.scan true 0 4 0 = "a(\n2\n\nc".toList ++ "!\n".toList := by decide +kernel
  obtain ⟨hreplaced, hnone⟩ := edited_text_traced { hires := .characters } hb
  obtain ⟨hcode, hled, hlines⟩ := hreplaced ⟨1, 2, "(\n2\n".toList, by decide⟩ (by decide)
  obtain ⟨before, after, hscan, -, hno⟩ := hnone ⟨4, "!\n".toList⟩ (by decide)
  rw [hfront] at hcode hled hlines
  have hbefore : before = "a(\n2\n\nc".toList := (List.append_cancel_right (hinserted.symm.trans hscan)).symm
  rw [hbefore] at hno
  refine ⟨hb, hcode.trans ?_, hled "(\n".toList '2' "\n".toList rfl, hlines, hno _ ⟨[], '!', ['\n'], rfl, rfl⟩⟩
  exact congrArg (fun t => ['a'] ++ ("(\n2\n".toList ++ t)) hback

end TreeEdit
