import TreeEdit.Proofs.Buffer.Sound

/-!
# Reading an edited text position by position

`Buffer.scan` reads a range in the simplest way: at each offset it gives the text inserted there, and then
either the text of a replacement that starts there, going on behind it, or one character. A buffer that
got its edits at ranges of its text reads in the same way (`slice_eq_scan`, `code_eq_scan`), though it goes
from edit to edit instead and gives insertions in three different places.
-/

namespace TreeEdit.Buffer

/-- The text inserted at an offset that a scan has reached: it is given at the start of the scan and before
its stop, and at the stop only if that is asked for. -/
def emitted (b : Buffer) (atStop : Bool) (start stop pos : Nat) : List Char :=
  if pos = start ∨ pos < stop ∨ atStop = true then (b.insertedAt pos).getD [] else []

/-- The text that a scan from `start` to `stop` gives from `pos` on. -/
def scan (b : Buffer) (atStop : Bool) (start stop pos : Nat) : List Char :=
  b.emitted atStop start stop pos ++
    if pos < stop then
      match _hr : b.replacedAt pos with
      | some r => r.text ++ b.scan atStop start stop r.stop
      | none =>
        match Text.drop pos b.base with
        | [] => []
        | c :: _ => c :: b.scan atStop start stop (pos + c.utf8Size)
    else []
  termination_by stop - pos
  decreasing_by
    · have := r.start_lt_stop
      have := start_of_replacedAt _hr
      omega
    · have := c.utf8Size_pos
      omega

section

variable {b : Buffer} {atStop : Bool} {start stop pos : Nat}

theorem scan_of_not_lt (h : ¬ pos < stop) :
    b.scan atStop start stop pos = b.emitted atStop start stop pos := by
  rw [scan, if_neg h, List.append_nil]

theorem scan_of_replaced {r : Replacement} (h : pos < stop) (hr : b.replacedAt pos = some r) :
    b.scan atStop start stop pos =
      b.emitted atStop start stop pos ++ (r.text ++ b.scan atStop start stop r.stop) := by
  rw [scan, if_pos h]
  split
  · rename_i s hs
    rw [hr] at hs
    cases hs
    rfl
  · rename_i hs
    rw [hr] at hs
    cases hs

theorem scan_of_char {c : Char} {rest : List Char} (h : pos < stop) (hr : b.replacedAt pos = none)
    (hc : Text.drop pos b.base = c :: rest) :
    b.scan atStop start stop pos =
      b.emitted atStop start stop pos ++ c :: b.scan atStop start stop (pos + c.utf8Size) := by
  rw [scan, if_pos h]
  split
  · rename_i s hs
    rw [hr] at hs
    cases hs
  · rw [hc]

theorem scan_of_nil (h : pos < stop) (hr : b.replacedAt pos = none) (hc : Text.drop pos b.base = []) :
    b.scan atStop start stop pos = b.emitted atStop start stop pos := by
  rw [scan, if_pos h]
  split
  · rename_i s hs
    rw [hr] at hs
    cases hs
  · rw [hc, List.append_nil]

theorem emitted_of_insertedAt_eq_none (h : b.insertedAt pos = none) :
    b.emitted atStop start stop pos = [] := by
  rw [emitted, h]
  split <;> rfl

theorem scan_unedited {next : Nat} (hpos : Text.isBoundary b.base pos = true)
    (hnext : Text.isBoundary b.base next = true) (hlt : pos < next) (hle : next ≤ stop)
    (hreplaced : ∀ p, pos ≤ p → p < next → b.replacedAt p = none)
    (hinserted : ∀ p, pos < p → p < next → b.insertedAt p = none) :
    b.scan atStop start stop pos =
      b.emitted atStop start stop pos ++
        (Text.between b.base pos next ++ b.scan atStop start stop next) := by
  induction hn : next - pos using Nat.strongRecOn generalizing pos with
  | ind n ih =>
    obtain ⟨c, rest, hdrop, hbound, hcle, hone⟩ := Text.exists_next hpos hnext hlt
    have hc := c.utf8Size_pos
    have hsplit := Text.between_append_between hpos hbound hnext (by omega) hcle
    rw [scan_of_char (by omega) (hreplaced pos (Nat.le_refl _) hlt) hdrop, ← hsplit, hone]
    rcases Nat.lt_or_eq_of_le hcle with hlt' | heq
    · rw [ih _ (by omega) hbound hlt' (fun p h₁ h₂ => hreplaced p (by omega) h₂)
        (fun p h₁ h₂ => hinserted p (by omega) h₂) rfl,
        emitted_of_insertedAt_eq_none (hinserted _ (by omega) hlt')]
      simp
    · rw [heq]
      simp

end

/-! ## Rounds of the reader against the scan -/

theorem textOf_append (ps qs : List Piece) : textOf (ps ++ qs) = textOf ps ++ textOf qs := by
  simp [textOf]

theorem textOf_insertionPiece (b : Buffer) (offset : Nat) :
    textOf (b.insertionPiece offset) = (b.insertedAt offset).getD [] := by
  rw [insertionPiece]
  cases b.insertedAt offset with
  | none => rfl
  | some text => simp [textOf, Piece.text]

theorem unedited_before_hop {b : Buffer} {pos : Nat} (stop : Nat) (hr : b.replacedAt pos = none) :
    (∀ p, pos ≤ p → p < b.hop stop pos → b.replacedAt p = none) ∧
      ∀ p, pos < p → p < b.hop stop pos → b.insertedAt p = none := by
  have hhop : b.hop stop pos = nextStop pos stop b.editStarts := by rw [hop, hr]
  have hnone : ∀ p, pos < p → p < b.hop stop pos → p ∉ b.editStarts := by
    intro p h₁ h₂ hmem
    have : nextStop pos stop b.editStarts ≤ p := nextStop_le_of_mem hmem h₁
    omega
  refine ⟨fun p h₁ h₂ => ?_, fun p h₁ h₂ => ?_⟩
  · rcases Nat.lt_or_eq_of_le h₁ with hlt | rfl
    · rw [replacedAt_eq_none_iff]
      intro r hr heq
      exact hnone p hlt h₂ (mem_editStarts.mpr (.inl ⟨r, hr, heq⟩))
    · exact hr
  · rw [insertedAt, Option.map_eq_none_iff, List.find?_eq_none]
    intro i hi heq
    exact hnone p h₁ h₂ (mem_editStarts.mpr (.inr ⟨i, hi, by simpa using heq⟩))

theorem Sound.scan_round {b : Buffer} (hb : b.Sound) {atStop : Bool} {start stop pos : Nat}
    (hbound : Text.isBoundary b.base stop = true) (hfree : b.Free stop) (hlt : pos < stop)
    (hpos : Text.isBoundary b.base pos = true) :
    b.scan atStop start stop pos = b.emitted atStop start stop pos ++
      ((b.pieceAt stop pos).text ++ b.scan atStop start stop (b.hop stop pos)) := by
  cases hr : b.replacedAt pos with
  | some r =>
    rw [scan_of_replaced hlt hr]
    simp only [pieceAt, hop, hr, Piece.text]
  | none =>
    obtain ⟨hreplaced, hinserted⟩ := unedited_before_hop stop hr
    rw [scan_unedited hpos (hb.isBoundary_hop hbound pos) (lt_hop hlt) (hop_le hfree hlt) hreplaced
      hinserted]
    simp only [pieceAt, hr, Piece.text]

/-- The scan gives the text of the reader's pieces, after what it gives where it is, and before what it
gives at its stop. -/
theorem Sound.scan_eq {b : Buffer} (hb : b.Sound) {atStop : Bool} {start stop : Nat}
    (hbound : Text.isBoundary b.base stop = true) (hfree : b.Free stop) :
    ∀ pos, pos ≤ stop → b.Free pos → Text.isBoundary b.base pos = true →
      b.scan atStop start stop pos = b.emitted atStop start stop pos ++
        (textOf (b.piecesFrom pos stop) ++
          if pos < stop then b.emitted atStop start stop stop else []) := by
  refine hop_induction hb.ordered hfree ?_ ?_
  · intro _
    rw [scan_of_not_lt (Nat.lt_irrefl _), piecesFrom_of_not_lt (Nat.lt_irrefl _),
      if_neg (Nat.lt_irrefl _)]
    simp [textOf]
  · intro pos hlt _ ih hpos
    rw [hb.scan_round hbound hfree hlt hpos, ih (hb.isBoundary_hop hbound pos), piecesFrom_of_lt hlt,
      if_pos hlt]
    have hcons : ∀ p ps, textOf (p :: ps) = p.text ++ textOf ps := fun p ps => by simp [textOf]
    rw [hcons, textOf_append]
    rcases Nat.lt_or_eq_of_le (hop_le hfree hlt) with hlt' | heq
    · rw [if_pos hlt', if_pos hlt', textOf_insertionPiece]
      simp [emitted, hlt']
    · rw [heq, if_neg (Nat.lt_irrefl _), if_neg (Nat.lt_irrefl _),
        piecesFrom_of_not_lt (Nat.lt_irrefl _)]
      simp [textOf]

theorem Sound.slice_eq_scan {b : Buffer} (hb : b.Sound) {span : Span}
    (hvalid : Arena.validSpan b.base span = true) (hstart : b.Free span.start)
    (hstop : b.Free span.stop) :
    b.slice span = .ok (b.scan false span.start span.stop span.start) := by
  obtain ⟨hle, -, hbstart, hbstop⟩ := Arena.validSpan_iff.mp hvalid
  have hcheck := (checkEdges_eq_ok_iff_free hb.ordered).mpr ⟨hstart, hstop⟩
  have hlast : (if span.start < span.stop then b.emitted false span.start span.stop span.stop else []) =
      [] := by
    split
    · rw [emitted, if_neg (by simp; omega)]
    · rfl
  rw [hb.scan_eq hbstop hstop span.start hle hstart hbstart, hlast, slice, hcheck]
  simp [pieces, textOf_append, textOf_insertionPiece, emitted, bind, Except.bind, pure, Except.pure]

theorem Sound.code_eq_scan {b : Buffer} (hb : b.Sound) : b.code = b.scan true 0 b.size 0 := by
  have hbound : Text.isBoundary b.base b.size = true := Text.isBoundary_size b.base
  rw [hb.scan_eq hbound hb.free_size 0 (Nat.zero_le _) b.free_zero (Text.isBoundary_zero _), code,
    allPieces, pieces, textOf_append, textOf_append, textOf_insertionPiece, List.append_assoc]
  simp only [emitted]
  split
  · simp [textOf_insertionPiece]
  · simp [textOf]

/-! ## Cutting a scan -/

theorem Sound.scan_step {b : Buffer} (hb : b.Sound) {mid pos : Nat} (hbound : Text.isBoundary b.base mid = true)
    (hfree : b.Free mid) (hlt : pos < mid) (hpos : Text.isBoundary b.base pos = true) :
    ∃ next text, pos < next ∧ next ≤ mid ∧ Text.isBoundary b.base next = true ∧ ∀ start stop, mid ≤ stop →
      b.scan true start stop pos = (b.insertedAt pos).getD [] ++ (text ++ b.scan true start stop next) := by
  cases hr : b.replacedAt pos with
  | some r =>
    have hmem : r ∈ b.replacements := List.mem_of_find?_eq_some hr
    have hstart := start_of_replacedAt hr
    have := r.start_lt_stop
    have hback : r.stop ≤ mid := by
      have := hfree r hmem
      simp only [Replacement.Straddles] at this
      omega
    refine ⟨r.stop, r.text, by omega, hback, (hb.replaced r hmem).2, fun start stop hstop => ?_⟩
    rw [scan_of_replaced (by omega) hr]
    simp [emitted]
  | none =>
    obtain ⟨c, later, hdrop, hnext, hcle, -⟩ := Text.exists_next hpos hbound hlt
    have := c.utf8Size_pos
    refine ⟨pos + c.utf8Size, [c], by omega, hcle, hnext, fun start stop hstop => ?_⟩
    rw [scan_of_char (by omega) hr hdrop]
    simp [emitted]

/-- A scan may be cut at any boundary that is inside no replacement. The first half is a scan that stops there; `rest`
is what comes after the text inserted there. -/
theorem Sound.scan_append {b : Buffer} (hb : b.Sound) {start stop mid : Nat} {rest : List Char}
    (hbound : Text.isBoundary b.base mid = true) (hfree : b.Free mid) (hstop : mid ≤ stop)
    (hrest : b.scan true start stop mid = (b.insertedAt mid).getD [] ++ rest) {pos : Nat} (hle : pos ≤ mid)
    (hpos : Text.isBoundary b.base pos = true) :
    b.scan true start stop pos = b.scan true start mid pos ++ rest := by
  induction hn : mid - pos using Nat.strongRecOn generalizing pos with
  | ind n ih =>
    rcases Nat.lt_or_eq_of_le hle with hlt | rfl
    · obtain ⟨next, text, hgt, hnle, hnext, hscan⟩ := hb.scan_step hbound hfree hlt hpos
      rw [hscan start stop hstop, hscan start mid (Nat.le_refl _), ih _ (by omega) hnle hnext rfl]
      simp
    · rw [hrest, scan_of_not_lt (Nat.lt_irrefl _)]
      simp [emitted]

theorem Sound.scan_suffix {b : Buffer} (hb : b.Sound) {start stop mid : Nat}
    (hbound : Text.isBoundary b.base mid = true) (hfree : b.Free mid) (hstop : mid ≤ stop) {pos : Nat}
    (hle : pos ≤ mid) (hpos : Text.isBoundary b.base pos = true) :
    b.scan true start stop mid <:+ b.scan true start stop pos := by
  induction hn : mid - pos using Nat.strongRecOn generalizing pos with
  | ind n ih =>
    rcases Nat.lt_or_eq_of_le hle with hlt | rfl
    · obtain ⟨next, text, hgt, hnle, hnext, hscan⟩ := hb.scan_step hbound hfree hlt hpos
      rw [hscan start stop hstop, ← List.append_assoc]
      exact (ih _ (by omega) hnle hnext rfl).trans (List.suffix_append _ _)
    · exact List.suffix_refl _

/-- **Reading is scanning.** After edits at ranges of a text, the text of a range whose ends are inside no
replacement is what a scan of the range gives, and the whole edited text is what a scan of it gives that
also gives, once, what is inserted at its end. -/
theorem reading_eq_scan (text : List Char) (es : List Edit) (hes : ∀ e ∈ es, e.Valid text) :
    (∀ span, Arena.validSpan text span = true →
      (∀ r ∈ (after { base := text } es).replacements,
        ¬ r.Straddles span.start ∧ ¬ r.Straddles span.stop) →
      (after { base := text } es).slice span =
        .ok ((after { base := text } es).scan false span.start span.stop span.start)) ∧
    (after { base := text } es).code =
      (after { base := text } es).scan true 0 (Text.size text) 0 := by
  have hb := sound_after text es hes
  have hbase : (after { base := text } es).base = text := after_base _ _
  refine ⟨fun span hvalid hfree => ?_, ?_⟩
  · rw [← hbase] at hvalid
    exact hb.slice_eq_scan hvalid (fun r hr => (hfree r hr).1) fun r hr => (hfree r hr).2
  · rw [hb.code_eq_scan, size, hbase]

/-- A replaced character of two bytes, with text inserted behind it and at the end. -/
theorem reading_eq_scan_accent :
    let text := "héllo".toList
    let es : List Edit := [.overwrite ⟨1, 3⟩ (by decide) ['X'], .insert 3 ['<'], .insert 6 ['!']]
    (∀ e ∈ es, e.Valid text) ∧
      (after { base := text } es).slice ⟨1, 6⟩ = .ok ((after { base := text } es).scan false 1 6 1) ∧
      (after { base := text } es).code = (after { base := text } es).scan true 0 6 0 :=
  ⟨by decide, (reading_eq_scan _ _ (by decide)).1 ⟨1, 6⟩ (by decide) (by decide),
    (reading_eq_scan _ _ (by decide)).2⟩

end TreeEdit.Buffer
