import TreeEdit.Proofs.Buffer.Scan

/-!
# Parts of an edited text

A range is read with what is inserted at its start and without what is inserted at its stop. So ranges that share an end
tile: what is read of both, one after the other, is what is read of the whole (`Sound.stretch_append`), as long as no
replacement has the shared end inside. A part with equal ends is left out here; read on its own it would give what is
inserted there. The same goes for any number of cuts (`reads_tile`). A cut inside a replacement spoils the reads on both
its sides, and no other.

From this it follows what an overwrite does to every read (`overwrite_reads`). Outside of its range edits stay, and so
does what is read and what is refused; a range around it is read as before up to its start and from its stop on, with
the new text between; and a range with an end inside cannot be read any more.
-/

namespace TreeEdit.Buffer

variable {b b' : Buffer}

/-- The text between two offsets, nothing if they are equal. -/
def part (b : Buffer) (start stop : Nat) : Except TransformError (List Char) :=
  if start < stop then b.slice ⟨start, stop⟩ else .ok []

/-! ## Tiles -/

/-- The text of a range whose ends are inside no replacement. -/
def stretch (b : Buffer) (start stop : Nat) : List Char :=
  if start < stop then (b.insertedAt start).getD [] ++ textOf (b.piecesFrom start stop) else []

theorem Sound.slice_of_free (hb : b.Sound) {span : Span} (hstart : b.Free span.start) (hstop : b.Free span.stop) :
    b.slice span = .ok ((b.insertedAt span.start).getD [] ++ textOf (b.piecesFrom span.start span.stop)) := by
  have hcheck := (checkEdges_eq_ok_iff_free hb.ordered).mpr ⟨hstart, hstop⟩
  rw [slice, hcheck, pieces, textOf_append, textOf_insertionPiece]
  rfl

theorem Sound.slice_eq_stretch (hb : b.Sound) {start stop : Nat} (hlt : start < stop) (hstart : b.Free start)
    (hstop : b.Free stop) : b.slice ⟨start, stop⟩ = .ok (b.stretch start stop) := by
  rw [@slice_of_free b hb ⟨start, stop⟩ hstart hstop, stretch, if_pos hlt]

theorem Sound.slice_of_not_free (hb : b.Sound) {span : Span} (h : ¬ (b.Free span.start ∧ b.Free span.stop)) :
    ∃ r ∈ b.replacements, (r.Straddles span.start ∨ r.Straddles span.stop) ∧
      b.slice span = .error (.overlappingEdit span r.span) := by
  rcases checkEdges_cases b span with ⟨hok, -, -⟩ | ⟨existing, herr, hex⟩
  · exact absurd ((checkEdges_eq_ok_iff_free hb.ordered).mp hok) h
  · have hslice : b.slice span = .error (.overlappingEdit span existing) := by
      rw [slice, herr]
      rfl
    rcases hex with hs | ⟨-, ht⟩
    · obtain ⟨r, hr, hstr, rfl⟩ := (straddling_eq_some_iff hb.ordered).mp hs
      exact ⟨r, hr, .inl hstr, hslice⟩
    · obtain ⟨r, hr, hstr, rfl⟩ := (straddling_eq_some_iff hb.ordered).mp ht
      exact ⟨r, hr, .inr hstr, hslice⟩

theorem exists_slice_iff {span : Span} : (∃ read, b.slice span = .ok read) ↔ b.checkEdges span = .ok () := by
  rcases checkEdges_cases b span with ⟨hok, -, -⟩ | ⟨existing, herr, -⟩
  · rw [slice, hok]
    exact ⟨fun _ => rfl, fun _ => ⟨_, rfl⟩⟩
  · rw [slice, herr]
    constructor
    · rintro ⟨read, hread⟩
      cases hread
    · intro hok
      cases hok

theorem Sound.part_of_free (hb : b.Sound) {start stop : Nat} (hstart : b.Free start) (hstop : b.Free stop) :
    b.part start stop = .ok (b.stretch start stop) := by
  rw [part]
  split
  · rename_i hlt
    exact hb.slice_eq_stretch hlt hstart hstop
  · rename_i hnot
    rw [stretch, if_neg hnot]

theorem Sound.scan_eq_stretch (hb : b.Sound) {start pos stop : Nat} (hle : pos ≤ stop) (hpos : b.Free pos)
    (hstop : b.Free stop) (hbpos : Text.isBoundary b.base pos = true) (hbstop : Text.isBoundary b.base stop = true) :
    b.scan true start stop pos = b.stretch pos stop ++ (b.insertedAt stop).getD [] := by
  rw [hb.scan_eq hbstop hstop pos hle hpos hbpos]
  unfold stretch
  rcases Nat.lt_or_eq_of_le hle with hlt | rfl
  · simp [emitted, hlt]
  · simp [emitted, piecesFrom_of_not_lt, textOf]

theorem Sound.stretch_append (hb : b.Sound) {start mid stop : Nat} (hstart : b.Free start) (hmid : b.Free mid)
    (hstop : b.Free stop) (hbstart : Text.isBoundary b.base start = true)
    (hbmid : Text.isBoundary b.base mid = true) (hbstop : Text.isBoundary b.base stop = true)
    (hle : start ≤ mid) (hle' : mid ≤ stop) :
    b.stretch start mid ++ b.stretch mid stop = b.stretch start stop := by
  rcases Nat.lt_or_eq_of_le hle' with hlt | rfl
  · -- cut a scan of the whole at `mid`, where what is inserted there belongs to the second half
    have hrest : b.scan true start stop mid = (b.insertedAt mid).getD [] ++
        (textOf (b.piecesFrom mid stop) ++ (b.insertedAt stop).getD []) := by
      rw [hb.scan_eq_stretch hle' hmid hstop hbmid hbstop, stretch, if_pos hlt, List.append_assoc]
    have hwhole := hb.scan_append hbmid hmid hle' hrest hle hbstart
    rw [hb.scan_eq_stretch (Nat.le_trans hle hle') hstart hstop hbstart hbstop,
      hb.scan_eq_stretch hle hstart hmid hbstart hbmid] at hwhole
    have hsame : b.stretch start stop ++ (b.insertedAt stop).getD [] =
        (b.stretch start mid ++ b.stretch mid stop) ++ (b.insertedAt stop).getD [] := by
      rw [hwhole]
      simp [stretch, hlt]
    exact (List.append_cancel_right hsame).symm
  · simp [stretch]

theorem Sound.code_eq_stretch (hb : b.Sound) :
    b.code = b.stretch 0 b.size ++ (b.insertedAt b.size).getD [] := by
  have hbound : Text.isBoundary b.base b.size = true := Text.isBoundary_size b.base
  rw [hb.code_eq_scan, hb.scan_eq_stretch (Nat.zero_le _) b.free_zero hb.free_size (Text.isBoundary_zero _) hbound]

/-- The offsets `c 0` to `c n`, two of them or more, go up and cut the text. -/
structure Cuts (text : List Char) (n : Nat) (c : Nat → Nat) : Prop where
  several : 0 < n
  increasing : ∀ i < n, c i < c (i + 1)
  boundary : ∀ i ≤ n, Text.isBoundary text (c i) = true

theorem Cuts.first_lt {text : List Char} {n : Nat} {c : Nat → Nat} (h : Cuts text n c) {k : Nat} (hk : k < n) :
    c 0 < c (k + 1) := by
  induction k with
  | zero => exact h.increasing 0 hk
  | succ k ih => exact Nat.lt_trans (ih (by omega)) (h.increasing (k + 1) hk)

theorem Sound.stretch_tiles (hb : b.Sound) {n : Nat} {c : Nat → Nat} (hc : Cuts b.base n c)
    (hfree : ∀ i ≤ n, b.Free (c i)) {k : Nat} (hk : k < n) :
    b.stretch (c 0) (c (k + 1)) = (List.range (k + 1)).flatMap fun i => b.stretch (c i) (c (i + 1)) := by
  induction k with
  | zero => simp
  | succ k ih =>
    rw [List.range_succ, List.flatMap_append, ← ih (by omega), List.flatMap_singleton]
    exact (hb.stretch_append (hfree 0 (by omega)) (hfree (k + 1) (by omega)) (hfree (k + 1 + 1) (by omega))
      (hc.boundary 0 (by omega)) (hc.boundary (k + 1) (by omega)) (hc.boundary (k + 1 + 1) (by omega))
      (Nat.le_of_lt (hc.first_lt (by omega))) (Nat.le_of_lt (hc.increasing (k + 1) hk))).symm

/-- The code is what is read of the whole range, and then what is inserted at its end. The two ends of an empty text are
one, and what is inserted there has been read already. -/
theorem Sound.code_eq_slice (hb : b.Sound) :
    ∃ read, b.slice ⟨0, b.size⟩ = .ok read ∧
      b.code = read ++ if 0 < b.size then (b.insertedAt b.size).getD [] else [] := by
  refine ⟨_, @slice_of_free b hb ⟨0, b.size⟩ b.free_zero hb.free_size, ?_⟩
  rw [code, allPieces, pieces, textOf_append, textOf_append, textOf_insertionPiece]
  split
  · rw [textOf_insertionPiece]
  · rfl

/-- **Reads tile.** Take offsets that go up and cut the text. If none of them is inside a replacement, the range from the
first to the last can be read, and so can each range from one to the next; the texts of these, in order, make up that of
the whole. If at most the inner ones are, the whole can still be read, and of the ranges from one offset to the next just
those cannot that have an end inside a replacement, which the error names. The code is what is read of the whole range
and then, unless the text is empty, what is inserted at its end. -/
theorem reads_tile {text : List Char} (hb : b.EditedFrom text) :
    (∀ n c, Cuts text n c →
      ((∀ i ≤ n, b.Free (c i)) →
        ∃ part : Nat → List Char, (∀ i < n, b.slice ⟨c i, c (i + 1)⟩ = .ok (part i)) ∧
          b.slice ⟨c 0, c n⟩ = .ok ((List.range n).flatMap part)) ∧
      (b.Free (c 0) → b.Free (c n) →
        (∃ read, b.slice ⟨c 0, c n⟩ = .ok read) ∧
        ∀ i < n,
          (b.Free (c i) ∧ b.Free (c (i + 1)) → ∃ read, b.slice ⟨c i, c (i + 1)⟩ = .ok read) ∧
          (¬ (b.Free (c i) ∧ b.Free (c (i + 1))) → ∃ r ∈ b.replacements,
            (r.Straddles (c i) ∨ r.Straddles (c (i + 1))) ∧
              b.slice ⟨c i, c (i + 1)⟩ = .error (.overlappingEdit ⟨c i, c (i + 1)⟩ r.span)))) ∧
    ∃ read, b.slice ⟨0, b.size⟩ = .ok read ∧
      b.code = read ++ if 0 < b.size then (b.insertedAt b.size).getD [] else [] := by
  have hsound := hb.sound
  refine ⟨fun n c hcuts => ⟨fun hfree => ?_, fun hfirst hlast => ⟨?_, fun i hi => ⟨fun hfree => ?_, ?_⟩⟩⟩,
    hsound.code_eq_slice⟩
  · refine ⟨fun i => b.stretch (c i) (c (i + 1)), fun i hi => ?_, ?_⟩
    · exact hsound.slice_eq_stretch (hcuts.increasing i hi) (hfree i (by omega)) (hfree (i + 1) (by omega))
    · obtain ⟨k, rfl⟩ := Nat.exists_eq_add_one.mpr hcuts.several
      rw [hsound.slice_eq_stretch (hcuts.first_lt (Nat.lt_succ_self k)) (hfree 0 (Nat.zero_le _))
        (hfree (k + 1) (Nat.le_refl _)), hsound.stretch_tiles (hb.base_eq ▸ hcuts) hfree (Nat.lt_succ_self k)]
  · exact ⟨_, @Sound.slice_of_free b hsound ⟨c 0, c n⟩ hfirst hlast⟩
  · exact ⟨_, @Sound.slice_of_free b hsound ⟨c i, c (i + 1)⟩ hfree.1 hfree.2⟩
  · exact @Sound.slice_of_not_free b hsound ⟨c i, c (i + 1)⟩

/-- Four cuts with insertions at two of them, and a fifth one inside a replaced range. -/
theorem reads_tile_accent :
    let text := "aébcd".toList
    let b := after { base := text } [.overwrite ⟨1, 4⟩ (by decide) ['X'], .insert 1 ['<'], .insert 4 ['>'], .insert 6 ['!']]
    let free := fun i => [0, 1, 4, 6].getD i 0
    let inside := fun i => [0, 3, 4, 6].getD i 0
    b.EditedFrom text ∧ Cuts text 3 free ∧ (∀ i ≤ 3, b.Free (free i)) ∧ Cuts text 3 inside ∧
      (∃ part : Nat → List Char, (∀ i < 3, b.slice ⟨free i, free (i + 1)⟩ = .ok (part i)) ∧
        b.slice ⟨0, 6⟩ = .ok ((List.range 3).flatMap part)) ∧
      (∃ r ∈ b.replacements, (r.Straddles 0 ∨ r.Straddles 3) ∧
        b.slice ⟨0, 3⟩ = .error (.overlappingEdit ⟨0, 3⟩ r.span)) ∧
      ∃ read, b.slice ⟨0, 6⟩ = .ok read ∧ b.code = read ++ ['!'] := by
  intro text b free inside
  have hb : b.EditedFrom text := ⟨_, by decide, rfl⟩
  have hfree : Cuts text 3 free := ⟨by decide, by decide, by decide⟩
  have hinside : Cuts text 3 inside := ⟨by decide, by decide, by decide⟩
  have hall : ∀ i ≤ 3, b.Free (free i) := by decide
  obtain ⟨htiles, hcode⟩ := reads_tile hb
  exact ⟨hb, hfree, hall, hinside, (htiles 3 free hfree).1 hall,
    (((htiles 3 inside hinside).2 (by decide) (by decide)).2 0 (by decide)).2 (by decide), hcode⟩

/-! ## Buffers with the same edits in a range -/

theorem emitted_congr {atStop : Bool} {start stop pos : Nat}
    (h : (pos = start ∨ pos < stop ∨ atStop = true) → b'.insertedAt pos = b.insertedAt pos) :
    b'.emitted atStop start stop pos = b.emitted atStop start stop pos := by
  unfold emitted
  split
  · rename_i hpos
    rw [h hpos]
  · rfl

theorem scan_congr (hbase : b'.base = b.base) {atStop : Bool} {start stop pos : Nat}
    (hreplaced : ∀ p, pos ≤ p → p < stop → b'.replacedAt p = b.replacedAt p)
    (hinserted : ∀ p, pos ≤ p → (p = start ∨ p < stop ∨ atStop = true) → b'.insertedAt p = b.insertedAt p) :
    b'.scan atStop start stop pos = b.scan atStop start stop pos := by
  induction hn : stop - pos using Nat.strongRecOn generalizing pos with
  | ind n ih =>
    have hemitted : b'.emitted atStop start stop pos = b.emitted atStop start stop pos :=
      emitted_congr (hinserted pos (Nat.le_refl _))
    by_cases hlt : pos < stop
    · have hrest : ∀ next, pos < next → b'.scan atStop start stop next = b.scan atStop start stop next := by
        intro next hnext
        exact ih (stop - next) (by omega) (fun p hp => hreplaced p (by omega)) (fun p hp => hinserted p (by omega)) rfl
      have hsame := hreplaced pos (Nat.le_refl _) hlt
      cases hr : b.replacedAt pos with
      | some r =>
        have := r.start_lt_stop
        have := start_of_replacedAt hr
        rw [scan_of_replaced hlt (hsame.trans hr), scan_of_replaced hlt hr, hemitted, hrest r.stop (by omega)]
      | none =>
        cases hdrop : Text.drop pos b.base with
        | nil => rw [scan_of_nil hlt (hsame.trans hr) (hbase ▸ hdrop), scan_of_nil hlt hr hdrop, hemitted]
        | cons c later =>
          have := c.utf8Size_pos
          rw [scan_of_char hlt (hsame.trans hr) (hbase ▸ hdrop), scan_of_char hlt hr hdrop, hemitted,
            hrest _ (by omega)]
    · rw [scan_of_not_lt hlt, scan_of_not_lt hlt, hemitted]

theorem Sound.slice_congr (hb : b.Sound) (hb' : b'.Sound) (hbase : b'.base = b.base) {span : Span}
    (hvalid : Arena.validSpan b.base span = true) (hstart : b'.straddling span.start = b.straddling span.start)
    (hstop : b'.straddling span.stop = b.straddling span.stop)
    (hreplaced : ∀ p, span.start ≤ p → p < span.stop → b'.replacedAt p = b.replacedAt p)
    (hinserted : ∀ p, span.start ≤ p → (p = span.start ∨ p < span.stop) → b'.insertedAt p = b.insertedAt p) :
    b'.slice span = b.slice span := by
  have hcheck : b'.checkEdges span = b.checkEdges span := by rw [checkEdges, checkEdges, hstart, hstop]
  rcases checkEdges_cases b span with ⟨hok, -, -⟩ | ⟨existing, herr, -⟩
  · obtain ⟨hfs, hft⟩ := (checkEdges_eq_ok_iff_free hb.ordered).mp hok
    obtain ⟨hfs', hft'⟩ := (checkEdges_eq_ok_iff_free hb'.ordered).mp (hcheck.trans hok)
    rw [hb.slice_eq_scan hvalid hfs hft, hb'.slice_eq_scan (by rwa [hbase]) hfs' hft']
    exact congrArg Except.ok (scan_congr hbase hreplaced (by simpa using hinserted))
  · rw [slice, slice, hcheck, herr]
    rfl

/-! ## An overwrite -/

section

variable {span : Span} {hlt : span.start < span.stop} {new : List Char}

theorem mem_replacements_overwrite {r : Replacement} :
    r ∈ (b.absorb (.overwrite span hlt new)).replacements ↔
      r = ⟨span.start, span.stop, new, hlt⟩ ∨ r ∈ b.replacements ∧ span.contains r.start = false := by
  simp [absorb, mem_addReplacement]

theorem straddling_overwrite (hb : b.Ordered) (hcheck : b.checkEdges span = .ok ()) {p : Nat}
    (hp : p ≤ span.start ∨ span.stop ≤ p) :
    (b.absorb (.overwrite span hlt new)).straddling p = b.straddling p := by
  have hb' : (b.absorb (.overwrite span hlt new)).Ordered := hb.absorb hcheck
  rw [checkEdges_eq_ok_iff hb] at hcheck
  ext found
  rw [straddling_eq_some_iff hb, straddling_eq_some_iff hb']
  constructor
  · rintro ⟨r, hr, hstr, rfl⟩
    rcases mem_replacements_overwrite.mp hr with rfl | ⟨hr, -⟩
    · simp only [Replacement.Straddles] at hstr
      omega
    · exact ⟨r, hr, hstr, rfl⟩
  · rintro ⟨r, hr, hstr, rfl⟩
    refine ⟨r, mem_replacements_overwrite.mpr (.inr ⟨hr, ?_⟩), hstr, rfl⟩
    by_contra hin
    have := (contains_start_iff (hcheck r hr).2).mp (by simpa using hin)
    simp only [Replacement.Straddles] at hstr
    omega

theorem checkEdges_overwrite (hb : b.Ordered) (hcheck : b.checkEdges span = .ok ()) {other : Span}
    (hstart : other.start ≤ span.start ∨ span.stop ≤ other.start)
    (hstop : other.stop ≤ span.start ∨ span.stop ≤ other.stop) :
    (b.absorb (.overwrite span hlt new)).checkEdges other = b.checkEdges other := by
  rw [checkEdges, checkEdges, straddling_overwrite hb hcheck hstart, straddling_overwrite hb hcheck hstop]

theorem replacedAt_overwrite (hb : b.Ordered) (hcheck : b.checkEdges span = .ok ()) {p : Nat}
    (hp : p < span.start ∨ span.stop ≤ p) :
    (b.absorb (.overwrite span hlt new)).replacedAt p = b.replacedAt p := by
  have hb' : (b.absorb (.overwrite span hlt new)).Ordered := hb.absorb hcheck
  ext r
  rw [replacedAt_eq_some_iff hb, replacedAt_eq_some_iff hb', mem_replacements_overwrite]
  constructor
  · rintro ⟨rfl | ⟨hr, -⟩, rfl⟩
    · simp only at hp
      omega
    · exact ⟨hr, rfl⟩
  · rintro ⟨hr, rfl⟩
    refine ⟨.inr ⟨hr, ?_⟩, rfl⟩
    simp only [Span.contains, Bool.and_eq_false_iff, decide_eq_false_iff_not]
    omega

theorem insertedAt_overwrite_outside {p : Nat} (hp : p < span.start ∨ span.stop ≤ p) :
    (b.absorb (.overwrite span hlt new)).insertedAt p = b.insertedAt p := by
  rw [insertedAt_overwrite, if_neg]
  simp only [Span.contains, Bool.and_eq_true, decide_eq_true_eq]
  omega

theorem Sound.slice_overwritten (hb : (b.absorb (.overwrite span hlt new)).Sound)
    (hvalid : Arena.validSpan b.base span = true) :
    (b.absorb (.overwrite span hlt new)).slice span = .ok new := by
  have hmem : ⟨span.start, span.stop, new, hlt⟩ ∈ (b.absorb (.overwrite span hlt new)).replacements :=
    mem_replacements_overwrite.mpr (.inl rfl)
  have hcheck : (b.absorb (.overwrite span hlt new)).Free span.start ∧
      (b.absorb (.overwrite span hlt new)).Free span.stop := by
    refine ⟨?_, hb.ordered.free_stop hmem⟩
    exact hb.ordered.free_of_mem_editStarts (mem_editStarts.mpr (.inl ⟨_, hmem, rfl⟩))
  have hreplaced := (replacedAt_eq_some_iff hb.ordered).mpr ⟨hmem, rfl⟩
  have hgone : (b.absorb (.overwrite span hlt new)).insertedAt span.start = none := by
    rw [insertedAt_overwrite, if_pos (by simp [Span.contains, hlt])]
  rw [hb.slice_eq_scan (by rwa [absorb_base]) hcheck.1 hcheck.2, scan_of_replaced hlt hreplaced,
    scan_of_not_lt (Nat.lt_irrefl _), emitted_of_insertedAt_eq_none hgone, emitted, if_neg (by simp; omega)]
  simp

/-- Outside of its range an overwrite changes no read. In front of it that is so for an empty range only if it is not
at the start, where an insertion is lost. -/
theorem Sound.slice_outside (hb : b.Sound) (hb' : (b.absorb (.overwrite span hlt new)).Sound)
    (hcheck : b.checkEdges span = .ok ()) {other : Span} (hvalid : Arena.validSpan b.base other = true)
    (hout : other.stop ≤ span.start ∧ (other.start < other.stop ∨ other.stop < span.start) ∨
      span.stop ≤ other.start) :
    (b.absorb (.overwrite span hlt new)).slice other = b.slice other := by
  obtain ⟨hle, -, -, -⟩ := Arena.validSpan_iff.mp hvalid
  refine hb.slice_congr hb' (absorb_base b _) hvalid (straddling_overwrite hb.ordered hcheck (by omega))
    (straddling_overwrite hb.ordered hcheck (by omega)) ?_ ?_
  · intro p hp hps
    exact replacedAt_overwrite hb.ordered hcheck (by omega)
  · intro p hp hps
    exact insertedAt_overwrite_outside (by omega)

theorem Sound.part_outside (hb : b.Sound) (hb' : (b.absorb (.overwrite span hlt new)).Sound)
    (hcheck : b.checkEdges span = .ok ()) {start stop : Nat} (hstart : Text.isBoundary b.base start = true)
    (hstop : Text.isBoundary b.base stop = true) (hout : stop ≤ span.start ∨ span.stop ≤ start) :
    (b.absorb (.overwrite span hlt new)).part start stop = b.part start stop := by
  unfold part
  split
  · rename_i hne
    have hvalid : Arena.validSpan b.base ⟨start, stop⟩ = true :=
      Arena.validSpan_iff.mpr ⟨Nat.le_of_lt hne, Text.le_size_of_isBoundary hstop, hstart, hstop⟩
    refine hb.slice_outside hb' hcheck hvalid ?_
    simp only
    omega
  · rfl

theorem Sound.stretch_around (hb : b.Sound) (hvalid : Arena.validSpan b.base span = true)
    (hcheck : b.checkEdges span = .ok ()) {start stop : Nat} (hstart : start ≤ span.start)
    (hstop : span.stop ≤ stop) (hbstart : Text.isBoundary b.base start = true)
    (hbstop : Text.isBoundary b.base stop = true) (hfstart : b.Free start) (hfstop : b.Free stop) :
    (b.absorb (.overwrite span hlt new)).stretch start stop =
      b.stretch start span.start ++ new ++ b.stretch span.stop stop := by
  have hb' : (b.absorb (.overwrite span hlt new)).Sound := hb.absorb hcheck hvalid
  obtain ⟨hle, -, hbs, hbt⟩ := Arena.validSpan_iff.mp hvalid
  obtain ⟨hfs, hft⟩ := (checkEdges_eq_ok_iff_free hb.ordered).mp hcheck
  have hfree : ∀ p, p ≤ span.start ∨ span.stop ≤ p → b.Free p →
      (b.absorb (.overwrite span hlt new)).Free p := by
    intro p hp hfree
    rw [Free, ← straddling_eq_none_iff hb.ordered] at hfree
    rw [Free, ← straddling_eq_none_iff hb'.ordered, straddling_overwrite hb.ordered hcheck hp, hfree]
  have hfstart' := hfree start (.inl hstart) hfstart
  have hfstop' := hfree stop (.inr hstop) hfstop
  have hfs' := hfree span.start (.inl (Nat.le_refl _)) hfs
  have hft' := hfree span.stop (.inr (Nat.le_refl _)) hft
  -- the three parts, each read before and after
  have hleft : (b.absorb (.overwrite span hlt new)).stretch start span.start = b.stretch start span.start := by
    have hpart := @Sound.part_outside b span hlt new hb hb' hcheck _ _ hbstart hbs (.inl (Nat.le_refl _))
    rw [hb'.part_of_free hfstart' hfs', hb.part_of_free hfstart hfs] at hpart
    exact Except.ok.inj hpart
  have hright : (b.absorb (.overwrite span hlt new)).stretch span.stop stop = b.stretch span.stop stop := by
    have hpart := @Sound.part_outside b span hlt new hb hb' hcheck _ _ hbt hbstop (.inr (Nat.le_refl _))
    rw [hb'.part_of_free hft' hfstop', hb.part_of_free hft hfstop] at hpart
    exact Except.ok.inj hpart
  have hmid : (b.absorb (.overwrite span hlt new)).stretch span.start span.stop = new := by
    have hslice := hb'.slice_overwritten hvalid
    exact Except.ok.inj ((hb'.slice_eq_stretch hlt hfs' hft').symm.trans hslice)
  rw [← hb'.stretch_append hfstart' hfs' hfstop' hbstart hbs hbstop hstart (Nat.le_trans hle hstop),
    ← hb'.stretch_append hfs' hft' hfstop' hbs hbt hbstop hle hstop, hleft, hmid, hright, List.append_assoc]

theorem Sound.slice_around (hb : b.Sound) (hvalid : Arena.validSpan b.base span = true)
    (hcheck : b.checkEdges span = .ok ()) {other : Span} (hother : Arena.validSpan b.base other = true)
    (hstart : other.start ≤ span.start) (hstop : span.stop ≤ other.stop) (hok : b.checkEdges other = .ok ()) :
    ∃ left right, b.part other.start span.start = .ok left ∧ b.part span.stop other.stop = .ok right ∧
      (b.absorb (.overwrite span hlt new)).slice other = .ok (left ++ new ++ right) := by
  have hb' : (b.absorb (.overwrite span hlt new)).Sound := hb.absorb hcheck hvalid
  obtain ⟨-, -, hbstart, hbstop⟩ := Arena.validSpan_iff.mp hother
  obtain ⟨hfs, hft⟩ := (checkEdges_eq_ok_iff_free hb.ordered).mp hcheck
  obtain ⟨hfstart, hfstop⟩ := (checkEdges_eq_ok_iff_free hb.ordered).mp hok
  have hok' : (b.absorb (.overwrite span hlt new)).checkEdges other = .ok () := by
    rw [checkEdges_overwrite hb.ordered hcheck (.inl hstart) (.inr hstop), hok]
  obtain ⟨hfstart', hfstop'⟩ := (checkEdges_eq_ok_iff_free hb'.ordered).mp hok'
  refine ⟨_, _, hb.part_of_free hfstart hfs, hb.part_of_free hft hfstop, ?_⟩
  rw [← hb.stretch_around hvalid hcheck hstart hstop hbstart hbstop hfstart hfstop]
  exact hb'.slice_eq_stretch (by omega) hfstart' hfstop'

theorem Sound.code_overwrite_same (hb : b.Sound) (hvalid : Arena.validSpan b.base span = true)
    (hcheck : b.checkEdges span = .ok ()) (hsame : b.slice span = .ok new) :
    (b.absorb (.overwrite span hlt new)).code = b.code := by
  have hb' : (b.absorb (.overwrite span hlt new)).Sound := hb.absorb hcheck hvalid
  obtain ⟨hle, hin, hbs, hbt⟩ := Arena.validSpan_iff.mp hvalid
  obtain ⟨hfs, hft⟩ := (checkEdges_eq_ok_iff_free hb.ordered).mp hcheck
  have hsize : span.stop ≤ b.size := hin
  have hzero : Text.isBoundary b.base 0 = true := Text.isBoundary_zero _
  have hend : Text.isBoundary b.base b.size = true := Text.isBoundary_size _
  have hnew : b.stretch span.start span.stop = new :=
    Except.ok.inj ((hb.slice_eq_stretch hlt hfs hft).symm.trans hsame)
  have hlast : (b.absorb (.overwrite span hlt new)).insertedAt b.size = b.insertedAt b.size :=
    insertedAt_overwrite_outside (.inr hsize)
  have hsize' : (b.absorb (.overwrite span hlt new)).size = b.size := by rw [size, size, absorb_base]
  rw [hb'.code_eq_stretch, hb.code_eq_stretch, hsize', hlast,
    hb.stretch_around hvalid hcheck (Nat.zero_le _) hsize hzero hend b.free_zero hb.free_size, ← hnew,
    hb.stretch_append b.free_zero hfs hft hzero hbs hbt (Nat.zero_le _) hle,
    hb.stretch_append b.free_zero hft hb.free_size hzero hbt hend (Nat.zero_le _) hsize]

theorem Sound.slice_across (hb : (b.absorb (.overwrite span hlt new)).Sound) {other : Span}
    (hin : span.start < other.start ∧ other.start < span.stop ∨ span.start < other.stop ∧ other.stop < span.stop) :
    ∃ existing, (b.absorb (.overwrite span hlt new)).slice other = .error (.overlappingEdit other existing) := by
  have hmem : ⟨span.start, span.stop, new, hlt⟩ ∈ (b.absorb (.overwrite span hlt new)).replacements :=
    mem_replacements_overwrite.mpr (.inl rfl)
  have hcut : ¬ ((b.absorb (.overwrite span hlt new)).Free other.start ∧
      (b.absorb (.overwrite span hlt new)).Free other.stop) := by
    rintro ⟨hfs, hft⟩
    rcases hin with hin | hin
    · exact hfs _ hmem hin
    · exact hft _ hmem hin
  obtain ⟨r, -, -, herr⟩ := hb.slice_of_not_free hcut
  exact ⟨r.span, herr⟩

end

/-- **What an overwrite does to every read.** The range itself is then read as the new text. A range that ends in front
of it or starts behind it is read, or refused, as before; an empty range right in front of it is left out, for what was
inserted there is lost. A range around it can be read just when it could before, and gives the part in front of the
overwritten range, the new text and the part behind it. A range with an end strictly inside is refused. So the text of
a range, written over that range, leaves the whole as it was. -/
theorem overwrite_reads {text : List Char} (hb : b.EditedFrom text) {span : Span} (hlt : span.start < span.stop)
    (hvalid : Arena.validSpan text span = true) {new : List Char} (hok : b.overwrite span hlt new = .ok b') :
    b'.slice span = .ok new ∧
    (∀ other, Arena.validSpan text other = true →
      (other.stop ≤ span.start ∧ (other.start < other.stop ∨ other.stop < span.start) ∨ span.stop ≤ other.start →
        b'.slice other = b.slice other) ∧
      (other.start ≤ span.start → span.stop ≤ other.stop →
        ((∃ read, b'.slice other = .ok read) ↔ ∃ read, b.slice other = .ok read) ∧
        ∀ read, b'.slice other = .ok read →
          ∃ left right, b.part other.start span.start = .ok left ∧ b.part span.stop other.stop = .ok right ∧
            read = left ++ new ++ right) ∧
      (span.start < other.start ∧ other.start < span.stop ∨ span.start < other.stop ∧ other.stop < span.stop →
        ∃ existing, b'.slice other = .error (.overlappingEdit other existing))) ∧
    (b.slice span = .ok new → b'.code = b.code) := by
  have hedit : b.apply (.overwrite span hlt new) = .ok b' := hok
  obtain ⟨hpasses, rfl⟩ := apply_eq_ok_iff.mp hedit
  have hcheck : b.checkEdges span = .ok () := hpasses
  have hsound := hb.sound
  rw [← hb.base_eq] at hvalid ⊢
  have hsound' : (b.absorb (.overwrite span hlt new)).Sound := hsound.absorb hcheck hvalid
  refine ⟨hsound'.slice_overwritten hvalid, fun other hother => ⟨?_, ?_, ?_⟩,
    hsound.code_overwrite_same hvalid hcheck⟩
  · exact hsound.slice_outside hsound' hcheck hother
  · intro hstart hstop
    have hiff : (∃ read, (b.absorb (.overwrite span hlt new)).slice other = .ok read) ↔
        ∃ read, b.slice other = .ok read := by
      rw [exists_slice_iff, exists_slice_iff, checkEdges_overwrite hsound.ordered hcheck (.inl hstart) (.inr hstop)]
    refine ⟨hiff, fun read hread => ?_⟩
    have hbefore := exists_slice_iff.mp (hiff.mp ⟨read, hread⟩)
    obtain ⟨left, right, hleft, hright, hnew⟩ :=
      hsound.slice_around hvalid hcheck hother hstart hstop hbefore
    exact ⟨left, right, hleft, hright, Except.ok.inj (hread.symm.trans hnew)⟩
  · exact hsound'.slice_across

/-- A range over an edited character of two bytes, with text inserted at both its ends. -/
theorem overwrite_reads_accent :
    let text := "aébcd".toList
    let b := after { base := text } [.overwrite ⟨1, 3⟩ (by decide) ['X'], .insert 1 ['<'], .insert 4 ['>']]
    b.EditedFrom text ∧ Arena.validSpan text ⟨1, 4⟩ = true ∧
      ∃ b', b.overwrite ⟨1, 4⟩ (by decide) ['Y'] = .ok b' ∧ b'.slice ⟨1, 4⟩ = .ok ['Y'] ∧
        b'.slice ⟨4, 6⟩ = b.slice ⟨4, 6⟩ ∧ (∃ read, b'.slice ⟨0, 6⟩ = .ok read) ∧
        ∃ existing, b'.slice ⟨3, 6⟩ = .error (.overlappingEdit ⟨3, 6⟩ existing) := by
  intro text b
  have hb : b.EditedFrom text := ⟨_, by decide, rfl⟩
  have hvalid : Arena.validSpan text ⟨1, 4⟩ = true := by decide
  obtain ⟨hself, hothers, -⟩ := overwrite_reads hb (by decide) hvalid rfl
  refine ⟨hb, hvalid, _, rfl, hself, (hothers ⟨4, 6⟩ (by decide)).1 (by decide), ?_,
    (hothers ⟨3, 6⟩ (by decide)).2.2 (by decide)⟩
  exact ((hothers ⟨0, 6⟩ (by decide)).2.1 (by decide) (by decide)).1.mpr (exists_slice_iff.mpr rfl)

end TreeEdit.Buffer
