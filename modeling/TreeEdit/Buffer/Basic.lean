import TreeEdit.Text.Bytes
import TreeEdit.Error

/-!
# Text with pending edits

A buffer holds a text that never changes, and edits to it: *replacements* of non-empty ranges, and
*insertions* in front of an offset. Both are kept in the order of their offsets.

An edit that cuts through a replacement is refused (`overlappingEdit`); one that covers a
replacement or an insertion supersedes it. `slice` reads a range with the edits in it applied, and
`code` the whole text.
-/

namespace TreeEdit

/-- New text for the non-empty range from `start` to `stop`. -/
structure Replacement where
  start : Nat
  stop : Nat
  text : List Char
  start_lt_stop : start < stop
  deriving DecidableEq

def Replacement.span (r : Replacement) : Span :=
  ⟨r.start, r.stop⟩

/-- New text in front of an offset. -/
structure Insertion where
  offset : Nat
  text : List Char
  deriving DecidableEq

/-- A contiguous part of the edited text. -/
inductive Piece where
  | inserted (text : List Char)
  | replaced (text : List Char) (span : Span)
  | unedited (text : List Char)
  deriving DecidableEq

def Piece.text : Piece → List Char
  | .inserted t => t
  | .replaced t _ => t
  | .unedited t => t

/-- A text and the edits to it, in order. -/
structure Buffer where
  base : List Char
  replacements : List Replacement := []
  insertions : List Insertion := []
  deriving DecidableEq

namespace Buffer

def size (b : Buffer) : Nat :=
  Text.size b.base

/-! ## Edits -/

/-- The replacement that has the offset strictly inside: none but the last one that starts before
the offset can. -/
def straddling (b : Buffer) (offset : Nat) : Option Span :=
  match (b.replacements.filter (·.start < offset)).getLast? with
  | none => none
  | some r => if offset < r.stop then some r.span else none

/-- Fails if an end of the span is strictly inside a replacement. -/
def checkEdges (b : Buffer) (span : Span) : Except TransformError Unit :=
  match b.straddling span.start, b.straddling span.stop with
  | some existing, _ => .error (.overlappingEdit span existing)
  | none, some existing => .error (.overlappingEdit span existing)
  | none, none => .ok ()

/-- Puts a replacement in front of the first that starts after it. -/
def addReplacement (r : Replacement) : List Replacement → List Replacement
  | [] => [r]
  | s :: rest => if r.start < s.start then r :: s :: rest else s :: addReplacement r rest

/-- Puts text at an offset, after the text that is there. -/
def addInsertion (offset : Nat) (text : List Char) : List Insertion → List Insertion
  | [] => [⟨offset, text⟩]
  | i :: rest =>
    if offset < i.offset then ⟨offset, text⟩ :: i :: rest
    else if offset = i.offset then ⟨offset, i.text ++ text⟩ :: rest
    else i :: addInsertion offset text rest

/-- Replaces a non-empty range. The edits inside it, and the insertion in front of it, are gone. -/
def overwrite (b : Buffer) (span : Span) (h : span.start < span.stop) (text : List Char) :
    Except TransformError Buffer := do
  b.checkEdges span
  let kept := b.replacements.filter fun r => !span.contains r.start
  return { b with
    replacements := addReplacement ⟨span.start, span.stop, text, h⟩ kept
    insertions := b.insertions.filter fun i => !span.contains i.offset }

/-- Inserts text in front of an offset, after what was inserted there before. -/
def insert (b : Buffer) (offset : Nat) (text : List Char) : Except TransformError Buffer :=
  match b.straddling offset with
  | some existing => .error (.overlappingEdit (.empty offset) existing)
  | none =>
    if text.isEmpty then .ok b
    else .ok { b with insertions := addInsertion offset text b.insertions }

/-! ## Reading -/

def insertedAt (b : Buffer) (offset : Nat) : Option (List Char) :=
  (b.insertions.find? (·.offset == offset)).map (·.text)

def replacedAt (b : Buffer) (offset : Nat) : Option Replacement :=
  b.replacements.find? (·.start == offset)

def editStarts (b : Buffer) : List Nat :=
  b.replacements.map (·.start) ++ b.insertions.map (·.offset)

/-- The least of some offsets that is greater than `pos`, and no greater than `stop`. -/
def nextStop (pos stop : Nat) : List Nat → Nat
  | [] => stop
  | n :: ns => if pos < n then min n (nextStop pos stop ns) else nextStop pos stop ns

theorem lt_nextStop {pos stop : Nat} (h : pos < stop) (ns : List Nat) :
    pos < nextStop pos stop ns := by
  induction ns with
  | nil => exact h
  | cons n ns ih => rw [nextStop]; split <;> omega

/-- The insertion in front of an offset as a piece, if there is one. -/
def insertionPiece (b : Buffer) (offset : Nat) : List Piece :=
  (b.insertedAt offset).toList.map .inserted

theorem start_of_replacedAt {b : Buffer} {offset : Nat} {r : Replacement}
    (h : b.replacedAt offset = some r) : r.start = offset := by
  simpa using List.find?_some h

/-- The pieces from `pos` up to `stop`, leaving out an insertion at `stop`. -/
def piecesFrom (b : Buffer) (pos stop : Nat) : List Piece :=
  if _hpos : pos < stop then
    match _hr : b.replacedAt pos with
    | some r =>
      .replaced r.text r.span ::
        ((if r.stop < stop then b.insertionPiece r.stop else []) ++ b.piecesFrom r.stop stop)
    | none =>
      let next := nextStop pos stop b.editStarts
      .unedited (Text.between b.base pos next) ::
        ((if next < stop then b.insertionPiece next else []) ++ b.piecesFrom next stop)
  else []
  termination_by stop - pos
  decreasing_by
    · have := r.start_lt_stop
      have := start_of_replacedAt _hr
      omega
    · have := lt_nextStop _hpos b.editStarts
      omega

/-- The pieces of a range, with the insertion at its start and without the one at its stop. -/
def pieces (b : Buffer) (span : Span) : List Piece :=
  b.insertionPiece span.start ++ b.piecesFrom span.start span.stop

def textOf (ps : List Piece) : List Char :=
  ps.flatMap Piece.text

/-- The edited text of a range. -/
def slice (b : Buffer) (span : Span) : Except TransformError (List Char) := do
  b.checkEdges span
  return textOf (b.pieces span)

/-- All pieces, with the insertion at the end of the text. -/
def allPieces (b : Buffer) : List Piece :=
  b.pieces ⟨0, b.size⟩ ++ if 0 < b.size then b.insertionPiece b.size else []

/-- The edited text. -/
def code (b : Buffer) : List Char :=
  textOf b.allPieces

end Buffer

end TreeEdit
