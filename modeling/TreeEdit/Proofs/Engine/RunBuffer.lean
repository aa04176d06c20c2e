import TreeEdit.Engine.Run
import TreeEdit.Proofs.Buffer.Checked
import TreeEdit.Proofs.Engine.Arena

/-!
# The buffer of a run

Whatever is asked of a run over a registered tree, in whatever order, its buffer is safe to read
(`buffer_safe`): its edits are apart and at boundaries, the rounds of a reader come to an end, and neither
the reader of a range nor the maker of the mappings makes a wrong cut. The tree may be of any shape; its
spans need not be nested.
-/

namespace TreeEdit

/-- What makes a buffer over a text safe to read. -/
structure Buffer.Safe (text : List Char) (b : Buffer) : Prop where
  replaced : ∀ r ∈ b.replacements, r.start < r.stop ∧ r.stop ≤ Text.size text ∧
    Text.isBoundary text r.start = true ∧ Text.isBoundary text r.stop = true
  apart : b.replacements.Pairwise (·.stop ≤ ·.start)
  inserted : ∀ i ∈ b.insertions, i.text ≠ [] ∧ i.offset ≤ Text.size text ∧
    Text.isBoundary text i.offset = true ∧ ∀ r ∈ b.replacements, ¬ r.Straddles i.offset
  rounds_end : ∀ span, b.checkEdges span = .ok () →
    ∃ rounds ≤ span.stop - span.start,
      (b.hop span.stop)^[rounds] span.start = max span.start span.stop ∧
      ∀ k < rounds, (b.hop span.stop)^[k] span.start < span.stop
  pieces_checked : ∀ span, Arena.validSpan text span = true → b.checkEdges span = .ok () →
    b.checkedPieces span = some (b.pieces span)
  mappings_checked : ∀ resolution, b.checkedMappings resolution = some (b.mappings resolution)

theorem Buffer.Sound.safe {b : Buffer} (hb : b.Sound) : b.Safe b.base where
  replaced r hr :=
    have ⟨hstart, hstop⟩ := hb.replaced r hr
    ⟨r.start_lt_stop, Text.le_size_of_isBoundary hstop, hstart, hstop⟩
  apart := hb.ordered.apart
  inserted i hi :=
    ⟨hb.ordered.filled i hi, Text.le_size_of_isBoundary (hb.inserted i hi), hb.inserted i hi,
      hb.ordered.outside i hi⟩
  rounds_end _ hcheck := Buffer.rounds_end hb.ordered hcheck
  pieces_checked _ hvalid hcheck := hb.checkedPieces_eq hvalid hcheck
  mappings_checked := hb.checkedMappings_eq

namespace Run

inductive Move where
  /-- The text of a node is asked for. -/
  | source (id : Nat)
  /-- A node is overridden, or the attempt is refused. -/
  | override (id : Nat) (text : String)
  /-- The walk has come on with a node. -/
  | advance (id : Nat) (state : NodeState)
  /-- The run comes out in some way. -/
  | settle (phase : Phase)

def move (r : Run) : Move → Run
  | .source _ => r
  | .override id text =>
    match r.override id text with
    | .ok r => r
    | .error _ => r
  | .advance id state => r.advance id state
  | .settle phase => { r with phase }

def after (r : Run) (moves : List Move) : Run :=
  moves.foldl move r

/-- The buffer is a sound one over the text, and the spans of all nodes are ranges of it. -/
structure Sound (text : List Char) (r : Run) : Prop where
  base : r.buffer.base = text
  buffer : r.buffer.Sound
  nodes : ∀ id e, r.arena.get? id = some e → Arena.validSpan text e.tree.span = true

def editOf (span : Span) (text : String) : Edit :=
  if h : span.start < span.stop then .overwrite span h text.toList else .insert span.start text.toList

theorem edit_eq_apply (r : Run) (span : Span) (text : String) :
    r.edit span text = r.buffer.apply (editOf span text) := by
  rw [edit, editOf]
  split <;> rfl

theorem editOf_valid {text : List Char} {span : Span} (h : Arena.validSpan text span = true)
    (new : String) : (editOf span new).Valid text := by
  obtain ⟨hle, hsize, hstart, hstop⟩ := Arena.validSpan_iff.mp h
  rw [editOf]
  split
  · exact h
  · exact Arena.validSpan_iff.mpr ⟨Nat.le_refl _, Text.le_size_of_isBoundary hstart, hstart, hstart⟩

theorem override_eq_ok {r r' : Run} {id : Nat} {text : String} (h : r.override id text = .ok r') :
    ∃ e buffer, r.arena.get? id = some e ∧ r.buffer.apply (editOf e.tree.span text) = .ok buffer ∧
      r' = { r with buffer } := by
  unfold override at h
  split at h
  · cases h
  · rename_i e he
    split at h
    · cases h
    · split at h
      · cases h
      · rw [edit_eq_apply] at h
        cases hb : r.buffer.apply (editOf e.tree.span text) with
        | error err => rw [hb] at h; cases h
        | ok buffer => rw [hb] at h; exact ⟨e, buffer, he, hb, (Except.ok.inj h).symm⟩

theorem Sound.move {text : List Char} {r : Run} (h : r.Sound text) (m : Move) : (r.move m).Sound text := by
  cases m with
  | source id => exact h
  | settle phase => exact ⟨h.base, h.buffer, h.nodes⟩
  | advance id state =>
    refine ⟨h.base, h.buffer, fun j e he => ?_⟩
    obtain ⟨d, hd, htree⟩ := Arena.tree_of_get?_advance he
    rw [htree]
    exact h.nodes j d hd
  | override id new =>
    rw [Run.move]
    cases hr : r.override id new with
    | error err => exact h
    | ok r' =>
      obtain ⟨e, buffer, he, hb, rfl⟩ := override_eq_ok hr
      obtain ⟨hcheck, rfl⟩ := Buffer.apply_eq_ok_iff.mp hb
      have hvalid := editOf_valid (h.nodes id e he) new
      rw [← h.base] at hvalid
      exact ⟨(Buffer.absorb_base _ _).trans h.base, h.buffer.absorb hcheck hvalid, h.nodes⟩

theorem Sound.after {text : List Char} {r : Run} (h : r.Sound text) (moves : List Move) :
    (r.after moves).Sound text := by
  induction moves generalizing r with
  | nil => exact h
  | cons m moves ih => exact ih (h.move m)

theorem sound_of_register {text : List Char} {tree : Tree} {r : Run}
    (hreg : Arena.register text tree = .ok r.arena) (hbuffer : r.buffer = { base := text }) :
    r.Sound text := by
  refine ⟨by rw [hbuffer], ?_, fun id e he => Arena.validSpan_of_register hreg he⟩
  rw [hbuffer]
  exact Buffer.sound_of_base text

/-- **A run is always safe to read.** From the start of a run over a registered tree, through any requests
for the text of nodes and any overrides, accepted or refused, wherever the walk is and however the run has
come out, the buffer is safe, and the spans of all nodes are ranges that may be read. -/
theorem buffer_safe (text : List Char) (tree : Tree) (r : Run)
    (hreg : Arena.register text tree = .ok r.arena) (hbuffer : r.buffer = { base := text })
    (moves : List Move) :
    (r.after moves).buffer.Safe text ∧
      ∀ id e, (r.after moves).arena.get? id = some e → Arena.validSpan text e.tree.span = true := by
  have h := (sound_of_register hreg hbuffer).after moves
  have hsafe := h.buffer.safe
  rw [h.base] at hsafe
  exact ⟨hsafe, h.nodes⟩

/-- Two nodes with a shared character are overridden, the second in vain, and so is an empty one. -/
theorem buffer_safe_overlapping :
    let text := "aéb".toList
    let tree : Tree :=
      { kind := "root", span := ⟨0, 4⟩, children := [
        { kind := "left", span := ⟨0, 3⟩ }, { kind := "right", span := ⟨1, 4⟩ },
        { kind := "gap", span := ⟨3, 3⟩ }] }
    let run : Run :=
      { id := 0, binding := 0, key := .ofRun 0, arena := Arena.ofTree tree, buffer := { base := text },
        map := {} }
    let moves : List Move := [.override 1 "X", .override 2 "Y", .source 0, .override 3 "<"]
    Arena.register text tree = .ok run.arena ∧ run.buffer = { base := text } ∧
      (run.after moves).buffer.Safe text := by
  intro text tree run moves
  have hreg : Arena.register text tree = .ok run.arena := rfl
  exact ⟨hreg, rfl, (buffer_safe text tree run hreg rfl moves).1⟩

end Run

end TreeEdit
