import TreeEdit.Markdown.Block.Basic

/-!
# Rows of tables

A row is cut into cells at the bars that are not escaped. A cell reaches from its bar to the next
one. The first cell also takes what stands before its bar, and the last cell the bar that ends the
row.
-/

namespace TreeEdit.Markdown

structure Cell where
  span : Span
  content : List Glyph

namespace Cell

/-- Cuts a row before each bar. -/
def cut : List Glyph → List (List Glyph)
  | [] => [[]]
  | g :: gs =>
    match g.char, gs with
    | '\\', h :: hs =>
      match cut hs with
      | [] => [[g, h]]
      | first :: rest => (g :: h :: first) :: rest
    | c, gs =>
      match cut gs with
      | [] => [[g]]
      | first :: rest => if c == '|' then [] :: (g :: first) :: rest else (g :: first) :: rest

/-- The cell of a part of a row that starts at an offset. -/
def ofPart (start : Nat) (gs : List Glyph) : Cell :=
  let content := match gs with
    | g :: rest => if g.char == '|' then rest else gs
    | [] => []
  ⟨⟨start, Glyph.stopOf gs start⟩, Glyph.trimRight (Glyph.trimLeft content)⟩

/-- The cells of the parts of a row. A bar with nothing behind it at the end belongs to the cell
before it. -/
def ofParts : List Cell → List Cell
  | [] => []
  | [c] => [c]
  | [c, last] =>
    if last.content.isEmpty then [{ c with span := ⟨c.span.start, last.span.stop⟩ }] else [c, last]
  | c :: cs => c :: ofParts cs

def ofLine (l : Line) : List Cell :=
  let start (gs : List Glyph) : Nat := (gs.head?.map (·.offset)).getD l.start
  let parts := match cut l.glyphs with
    | first :: second :: rest =>
      if (Glyph.trimLeft first).isEmpty then (l.start, second) :: rest.map fun p => (start p, p)
      else (first :: second :: rest).map fun p => (start p, p)
    | parts => parts.map fun p => (start p, p)
  ofParts (parts.map fun p => ofPart p.1 p.2)

/-- Does the cell stand under the head of a table? -/
def isDelimiter (c : Cell) : Bool :=
  let cs := (Glyph.chars c.content).dropWhile (· == ':')
  let rest := cs.dropWhile (· == '-')
  (Glyph.chars c.content).length ≤ cs.length + 1 && cs.head? == some '-' &&
    (rest == [] || rest == [':'])

def toBlock (l : Line) (c : Cell) : Block :=
  let stop := Glyph.stopOf c.content c.span.start
  let after := (l.glyphs.find? fun g => g.offset == stop).map (·.char)
  .prose { kind := "tableCell", span := c.span } { glyphs := c.content, after, inCell := true }

end Cell

/-- The number of cells of the line under the head of a table. -/
def delimiterCells? (l : Line) : Option Nat :=
  let cells := Cell.ofLine l
  if l.isOpen && (l.text.contains '|' || l.text.contains ':') && cells.all Cell.isDelimiter then
    some cells.length
  else none

def rowBlock (l : Line) : Block :=
  .group { kind := "tableRow", span := ⟨l.start, l.stop⟩ } none
    ((Cell.ofLine l).map (Cell.toBlock l)).reverse

end TreeEdit.Markdown
