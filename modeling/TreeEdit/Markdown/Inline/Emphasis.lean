import TreeEdit.Text.Blank
import TreeEdit.Text.Punctuation
import TreeEdit.Tree.Basic

/-!
# Emphasis

A paragraph is first cut into pieces: finished nodes, text, and runs of marks that may open or close
emphasis. `resolve` reads the pieces from left to right and keeps the runs that are open on a stack.
A closing run is matched with the innermost open one that fits; runs without a match are text.
-/

namespace TreeEdit.Markdown

/-- A run of equal marks, each of one byte. -/
structure Run where
  mark : Char
  start : Nat
  count : Nat
  opens : Bool
  closes : Bool

inductive Piece where
  | text (span : Span) (value : List Char)
  | node (tree : Tree)
  | run (run : Run)

namespace Run

def stop (r : Run) : Nat := r.start + r.count

/-- What stands on one side of a run. -/
inductive Side where
  | blank
  | punctuation
  | other
  deriving DecidableEq

/-- The side that a character makes; an end of the text counts as blank. -/
def Side.of : Option Char → Side
  | none => blank
  | some c => if Text.isBlank c then blank else if Text.isPunctuation c then punctuation else other

/-- A run between two characters. It can open emphasis when it leans on what follows, and close it
when it leans on what comes before; underscores do neither inside a word. Tildes apart, a run leans on
each of the given marks. -/
def between (marks : List Char) (before after : Option Char) (mark : Char) (start count : Nat) :
    Run :=
  let b := Side.of before
  let a := Side.of after
  let leansOn (c : Option Char) : Bool := mark != '~' && c.any marks.contains
  let left := a == .other || (a == .punctuation && b != .other) || leansOn after
  let right := b == .other || (b == .punctuation && a != .other) || leansOn before
  { mark, start, count,
    opens := if mark == '_' then left && (!right || b != .other) else left
    closes := if mark == '_' then right && (!left || a != .other) else right }

/-- Does a closing run fit an opening one? Tildes need equal runs of one or two. Of other marks, two
runs of which one could do both do not fit when their counts add up to a multiple of three, unless
both are such multiples. -/
def fits (opener closer : Run) : Bool :=
  opener.mark == closer.mark &&
    if closer.mark == '~' then opener.count == closer.count && closer.count ≤ 2
    else !((opener.closes || closer.opens) && closer.count % 3 != 0 &&
      (opener.count + closer.count) % 3 == 0)

/-- The number of marks that a match uses up on each side. -/
def used (opener closer : Run) : Nat :=
  if closer.mark == '~' then closer.count
  else if 2 ≤ opener.count && 2 ≤ closer.count then 2 else 1

/-- The kind of node that a match makes. -/
def kind (opener closer : Run) : String :=
  if closer.mark == '~' then "delete" else if used opener closer = 2 then "strong" else "emphasis"

end Run

namespace Piece

/-- A run that was not matched, as text. -/
def ofRun (r : Run) : Piece :=
  .text ⟨r.start, r.stop⟩ (List.replicate r.count r.mark)

/-- Puts a piece before others; text is joined with text. -/
def cons : Piece → List Piece → List Piece
  | .text s v, .text t w :: ps => .text ⟨s.start, t.stop⟩ (v ++ w) :: ps
  | p, ps => p :: ps

def toTree : Piece → Tree
  | .text span value => { kind := "text", span, value := some (String.ofList value) }
  | .node t => t
  | .run r => { kind := "text", span := ⟨r.start, r.stop⟩,
                value := some (String.ofList (List.replicate r.count r.mark)) }

/-- The nodes of pieces, with neighbouring text joined. -/
def toTrees (ps : List Piece) : List Tree :=
  (ps.foldr cons []).map toTree

end Piece

namespace Emphasis

/-- A run that is open, and the pieces behind it, last first. -/
structure Opener where
  run : Run
  pieces : List Piece := []

/-- The pieces before all open runs, last first, and the open runs, innermost first. -/
structure Stack where
  base : List Piece := []
  openers : List Opener := []

/-- Adds a piece to the innermost open run. -/
def Stack.push (s : Stack) (p : Piece) : Stack :=
  match s.openers with
  | [] => { s with base := p :: s.base }
  | o :: os => { s with openers := { o with pieces := p :: o.pieces } :: os }

/-- Open runs given up as text, in front of the pieces before them, last first. -/
def giveUp (base : List Piece) : List Opener → List Piece
  | [] => base
  | o :: os => o.pieces ++ Piece.ofRun o.run :: giveUp base os

/-- The innermost open run that fits a closing one, with those inside it and those around it. -/
def find? (closer : Run) : List Opener → Option (List Opener × Opener × List Opener)
  | [] => none
  | o :: os =>
    if o.run.fits closer then some ([], o, os)
    else (find? closer os).map fun r => (o :: r.1, r.2)

/-- Reads a run that closes nothing. -/
def Stack.unmatched (s : Stack) (r : Run) : Stack :=
  if r.opens then { s with openers := ⟨r, []⟩ :: s.openers } else s.push (Piece.ofRun r)

/-- Reads a run. What a match leaves of it is read again. -/
def Stack.read (s : Stack) (r : Run) : Stack :=
  match if r.closes then find? r s.openers else none with
  | none => s.unmatched r
  | some (inner, o, outer) =>
    let k := o.run.used r
    let node : Piece := .node {
      kind := o.run.kind r
      span := ⟨o.run.stop - k, r.start + k⟩
      children := Piece.toTrees (giveUp o.pieces inner).reverse }
    let rest : Run := { o.run with count := o.run.count - k }
    let s : Stack :=
      if rest.count = 0 then Stack.push { s with openers := outer } node
      else { s with openers := ⟨rest, [node]⟩ :: outer }
    if _h : 0 < k ∧ k < r.count then s.read { r with start := r.start + k, count := r.count - k }
    else s
termination_by r.count

/-- The nodes that pieces come to. -/
def resolve (ps : List Piece) : List Tree :=
  let s := ps.foldl (fun (s : Stack) p =>
    match p with
    | .run r => s.read r
    | p => s.push p) {}
  Piece.toTrees (giveUp s.base s.openers).reverse

end Emphasis

end TreeEdit.Markdown
