import TreeEdit.Arena
import TreeEdit.Proofs.Text.Boundary
import TreeEdit.Proofs.Buffer.History

/-!
# Edits at boundaries, and the rounds of a reader

`Buffer.Sound` is what holds of a buffer after any edits at ranges of its text: its edits are in order and
all their ends are boundaries (`sound_after`).

A reader of a range goes over it in rounds. A round starts at `pos` and ends at `hop`: at the end of the
replacement that starts there, or else at the next edit. From a start that no replacement has inside to a
stop that none has inside, each round goes on, never past the stop, and ends at an offset of the same kind
(`lt_hop`, `hop_le`, `free_hop`). What holds at the stop and is carried back over each round holds at the
start (`hop_induction`).
-/

namespace TreeEdit

/-- Is the edit at a range of the text? -/
def Edit.Valid (text : List Char) (e : Edit) : Prop :=
  Arena.validSpan text e.span = true

instance (text : List Char) (e : Edit) : Decidable (e.Valid text) :=
  inferInstanceAs (Decidable (_ = true))

theorem Arena.validSpan_iff {text : List Char} {span : Span} :
    validSpan text span = true ↔ span.start ≤ span.stop ∧ span.stop ≤ Text.size text ∧
      Text.isBoundary text span.start = true ∧ Text.isBoundary text span.stop = true := by
  simp [validSpan, and_assoc]

namespace Buffer

/-- The edits of the buffer are in order, and their ends are boundaries of the text. -/
structure Sound (b : Buffer) : Prop where
  ordered : b.Ordered
  replaced : ∀ r ∈ b.replacements,
    Text.isBoundary b.base r.start = true ∧ Text.isBoundary b.base r.stop = true
  inserted : ∀ i ∈ b.insertions, Text.isBoundary b.base i.offset = true

theorem sound_of_base (text : List Char) : Sound { base := text } :=
  ⟨ordered_of_base text, by simp, by simp⟩

theorem Sound.absorb {b : Buffer} (hb : b.Sound) {e : Edit} (he : b.checkEdges e.span = .ok ())
    (hvalid : e.Valid b.base) : (b.absorb e).Sound := by
  obtain ⟨-, -, hstart, hstop⟩ := Arena.validSpan_iff.mp hvalid
  refine ⟨hb.ordered.absorb he, ?_, ?_⟩
  · intro r hr
    rw [absorb_base]
    cases e with
    | overwrite span h text =>
      rcases mem_addReplacement.mp hr with rfl | hr
      · exact ⟨hstart, hstop⟩
      · exact hb.replaced r (List.mem_filter.mp hr).1
    | insert offset text =>
      rw [Buffer.absorb] at hr
      split at hr
      · exact hb.replaced r hr
      · exact hb.replaced r hr
  · intro i hi
    rw [absorb_base]
    cases e with
    | overwrite span h text => exact hb.inserted i (List.mem_filter.mp hi).1
    | insert offset text =>
      rw [Buffer.absorb] at hi
      split at hi
      · exact hb.inserted i hi
      · rcases mem_addInsertion hi with hi | ⟨hoff, -⟩
        · exact hb.inserted i hi
        · rw [hoff]
          exact hstart

theorem Sound.attempt {b : Buffer} (hb : b.Sound) {e : Edit} (hvalid : e.Valid b.base) :
    (b.attempt e).Sound := by
  rw [Buffer.attempt]
  cases hbe : b.apply e with
  | error err => exact hb
  | ok b' =>
    obtain ⟨he, rfl⟩ := apply_eq_ok_iff.mp hbe
    exact hb.absorb he hvalid

theorem Sound.after {b : Buffer} (hb : b.Sound) {es : List Edit} (hes : ∀ e ∈ es, e.Valid b.base) :
    (b.after es).Sound := by
  induction es generalizing b with
  | nil => exact hb
  | cons e es ih =>
    rw [Buffer.after, List.foldl_cons]
    refine ih (hb.attempt (hes e (by simp))) fun d hd => ?_
    have hbase : (b.attempt e).base = b.base := after_base b [e]
    rw [hbase]
    exact hes d (by simp [hd])

/-- **Edits at ranges of a text leave a sound buffer**, whether or not some were refused. -/
theorem sound_after (text : List Char) (es : List Edit) (hes : ∀ e ∈ es, e.Valid text) :
    (after { base := text } es).Sound :=
  (sound_of_base text).after hes

/-- The buffer comes from the text by edits at ranges of it, some of which may have been refused. -/
def EditedFrom (text : List Char) (b : Buffer) : Prop :=
  ∃ es, (∀ e ∈ es, e.Valid text) ∧ b = after { base := text } es

theorem EditedFrom.sound {text : List Char} {b : Buffer} (h : b.EditedFrom text) : b.Sound := by
  obtain ⟨es, hes, rfl⟩ := h
  exact sound_after text es hes

theorem EditedFrom.base_eq {text : List Char} {b : Buffer} (h : b.EditedFrom text) : b.base = text := by
  obtain ⟨es, -, rfl⟩ := h
  exact after_base _ es

/-! ## Rounds -/

/-- No replacement has the offset strictly inside. -/
def Free (b : Buffer) (offset : Nat) : Prop :=
  ∀ r ∈ b.replacements, ¬ r.Straddles offset

instance (b : Buffer) (offset : Nat) : Decidable (b.Free offset) :=
  inferInstanceAs (Decidable (∀ r ∈ b.replacements, _))

theorem checkEdges_eq_ok_iff_free {b : Buffer} (hb : b.Ordered) {span : Span} :
    b.checkEdges span = .ok () ↔ b.Free span.start ∧ b.Free span.stop := by
  rw [checkEdges_eq_ok_iff hb]
  exact ⟨fun h => ⟨fun r hr => (h r hr).1, fun r hr => (h r hr).2⟩,
    fun h r hr => ⟨h.1 r hr, h.2 r hr⟩⟩

theorem free_zero (b : Buffer) : b.Free 0 := fun _ _ h => Nat.not_lt_zero _ h.1

theorem Sound.free_size {b : Buffer} (hb : b.Sound) : b.Free b.size := fun r hr h =>
  Nat.not_le_of_lt h.2 (Text.le_size_of_isBoundary (hb.replaced r hr).2)

/-- Where the round of a reader that starts at `pos` ends. -/
def hop (b : Buffer) (stop pos : Nat) : Nat :=
  match b.replacedAt pos with
  | some r => r.stop
  | none => nextStop pos stop b.editStarts

theorem nextStop_le (pos stop : Nat) (ns : List Nat) : nextStop pos stop ns ≤ stop := by
  induction ns with
  | nil => exact Nat.le_refl _
  | cons n ns ih =>
    rw [nextStop]
    split
    · exact Nat.le_trans (Nat.min_le_right _ _) ih
    · exact ih

theorem nextStop_le_of_mem {pos stop n : Nat} {ns : List Nat} (hn : n ∈ ns) (hlt : pos < n) :
    nextStop pos stop ns ≤ n := by
  induction ns with
  | nil => cases hn
  | cons m ns ih =>
    rw [nextStop]
    rcases List.mem_cons.mp hn with rfl | hn
    · rw [if_pos hlt]
      exact Nat.min_le_left _ _
    · split
      · exact Nat.le_trans (Nat.min_le_right _ _) (ih hn)
      · exact ih hn

theorem nextStop_eq_or_mem (pos stop : Nat) (ns : List Nat) :
    nextStop pos stop ns = stop ∨ nextStop pos stop ns ∈ ns := by
  induction ns with
  | nil => exact .inl rfl
  | cons n ns ih =>
    rw [nextStop]
    split
    · rcases Nat.le_total n (nextStop pos stop ns) with hle | hle
      · rw [Nat.min_eq_left hle]
        exact .inr (by simp)
      · rw [Nat.min_eq_right hle]
        exact ih.imp_right (List.mem_cons_of_mem _)
    · exact ih.imp_right (List.mem_cons_of_mem _)

theorem mem_editStarts {b : Buffer} {n : Nat} :
    n ∈ b.editStarts ↔ (∃ r ∈ b.replacements, r.start = n) ∨ ∃ i ∈ b.insertions, i.offset = n := by
  simp [editStarts]

theorem lt_hop {b : Buffer} {stop pos : Nat} (hpos : pos < stop) : pos < b.hop stop pos := by
  rw [hop]
  split
  · rename_i r hr
    have := r.start_lt_stop
    have := start_of_replacedAt hr
    omega
  · exact lt_nextStop hpos _

theorem hop_le {b : Buffer} {stop pos : Nat} (hstop : b.Free stop) (hpos : pos < stop) :
    b.hop stop pos ≤ stop := by
  rw [hop]
  split
  · rename_i r hr
    have hstart := start_of_replacedAt hr
    have := hstop r (List.mem_of_find?_eq_some hr)
    simp only [Replacement.Straddles] at this
    omega
  · exact nextStop_le _ _ _

theorem Ordered.free_stop {b : Buffer} (hb : b.Ordered) {r : Replacement} (hr : r ∈ b.replacements) :
    b.Free r.stop := by
  intro s hs ⟨h₁, h₂⟩
  have := r.start_lt_stop
  rcases hb.eq_or_apart hr hs with rfl | h | h
  · omega
  · omega
  · omega

theorem Ordered.free_of_mem_editStarts {b : Buffer} (hb : b.Ordered) {n : Nat} (hn : n ∈ b.editStarts) :
    b.Free n := by
  rcases mem_editStarts.mp hn with ⟨r, hr, rfl⟩ | ⟨i, hi, rfl⟩
  · intro s hs ⟨h₁, h₂⟩
    have := r.start_lt_stop
    rcases hb.eq_or_apart hr hs with rfl | h | h
    · omega
    · omega
    · omega
  · exact hb.outside i hi

theorem hop_cases (b : Buffer) (stop pos : Nat) :
    (∃ r ∈ b.replacements, r.start = pos ∧ b.hop stop pos = r.stop) ∨
      b.hop stop pos ∈ b.editStarts ∨ b.hop stop pos = stop := by
  rw [hop]
  split
  · rename_i r hr
    exact .inl ⟨r, List.mem_of_find?_eq_some hr, start_of_replacedAt hr, rfl⟩
  · exact .inr (nextStop_eq_or_mem _ _ _).symm

theorem free_hop {b : Buffer} (hb : b.Ordered) {stop : Nat} (hstop : b.Free stop) (pos : Nat) :
    b.Free (b.hop stop pos) := by
  rcases hop_cases b stop pos with ⟨r, hr, -, heq⟩ | hmem | heq
  · rw [heq]
    exact hb.free_stop hr
  · exact hb.free_of_mem_editStarts hmem
  · rw [heq]
    exact hstop

theorem Sound.isBoundary_hop {b : Buffer} (hb : b.Sound) {stop : Nat}
    (hstop : Text.isBoundary b.base stop = true) (pos : Nat) :
    Text.isBoundary b.base (b.hop stop pos) = true := by
  rcases hop_cases b stop pos with ⟨r, hr, -, heq⟩ | hmem | heq
  · rw [heq]
    exact (hb.replaced r hr).2
  · rcases mem_editStarts.mp hmem with ⟨r, hr, heq⟩ | ⟨i, hi, heq⟩
    · rw [← heq]
      exact (hb.replaced r hr).1
    · rw [← heq]
      exact hb.inserted i hi
  · rw [heq]
    exact hstop

/-- **Induction on rounds**, backwards from a free stop. -/
theorem hop_induction {b : Buffer} (hb : b.Ordered) {stop : Nat} (hstop : b.Free stop)
    {P : Nat → Prop} (done : P stop)
    (round : ∀ pos, pos < stop → b.Free pos → P (b.hop stop pos) → P pos) :
    ∀ pos, pos ≤ stop → b.Free pos → P pos := by
  intro pos
  induction hn : stop - pos using Nat.strongRecOn generalizing pos with
  | ind n ih =>
    intro hle hpos
    rcases Nat.lt_or_eq_of_le hle with hlt | rfl
    · have := lt_hop (b := b) hlt
      exact round pos hlt hpos
        (ih _ (by omega) _ rfl (hop_le hstop hlt) (free_hop hb hstop pos))
    · exact done

/-! ## The pieces of a round -/

/-- The piece that a round gives. -/
def pieceAt (b : Buffer) (stop pos : Nat) : Piece :=
  match b.replacedAt pos with
  | some r => .replaced r.text r.span
  | none => .unedited (Text.between b.base pos (b.hop stop pos))

theorem piecesFrom_of_not_lt {b : Buffer} {stop pos : Nat} (h : ¬ pos < stop) :
    b.piecesFrom pos stop = [] := by
  rw [piecesFrom, dif_neg h]

theorem piecesFrom_of_lt {b : Buffer} {stop pos : Nat} (h : pos < stop) :
    b.piecesFrom pos stop = b.pieceAt stop pos ::
      ((if b.hop stop pos < stop then b.insertionPiece (b.hop stop pos) else []) ++
        b.piecesFrom (b.hop stop pos) stop) := by
  rw [piecesFrom, dif_pos h]
  cases hr : b.replacedAt pos with
  | some r => simp only [pieceAt, hop, hr]
  | none => simp only [pieceAt, hop, hr]

end Buffer

end TreeEdit
