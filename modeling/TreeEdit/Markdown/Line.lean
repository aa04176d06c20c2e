import TreeEdit.Text.Bytes

/-!
# Lines and characters with their places

Blocks are found line by line, and what is written inside them character by character. A `Line`
knows the offset of its first byte and a `Glyph` that of its character, and both know what stands in
front of them, so that a part can be taken out of the text without losing its place.
-/

namespace TreeEdit.Markdown

def isSpace (c : Char) : Bool := c == ' ' || c == '\t'

/-- Is the character a space, a tab or a line ending? -/
def isGap (c : Char) : Bool := isSpace c || c == '\n' || c == '\r'

/-- A character with its byte offset and the character in front of it. The first one of a line has
also the signs of the blocks around it that stand before it. -/
structure Glyph where
  offset : Nat
  char : Char
  before : Option Char
  lead : List Char := []
  deriving Inhabited

namespace Glyph

def stop (g : Glyph) : Nat := g.offset + g.char.utf8Size

/-- The glyphs of a text that starts at an offset, behind a character and the given signs. -/
def ofText (offset : Nat) (before : Option Char) (lead : List Char) : List Char → List Glyph
  | [] => []
  | c :: cs => ⟨offset, c, before, lead⟩ :: ofText (offset + c.utf8Size) (some c) [] cs

def chars (gs : List Glyph) : List Char := gs.map (·.char)

/-- The text as the document has it, with the signs of the blocks around it. -/
def written (gs : List Glyph) : List Char := gs.flatMap fun g => g.lead ++ [g.char]

/-- The offset behind the last glyph, or a given one where there is none. -/
def stopOf (gs : List Glyph) (default : Nat) : Nat :=
  (gs.getLast?.map stop).getD default

def trimLeft (gs : List Glyph) : List Glyph := gs.dropWhile (isSpace ·.char)

def trimRight (gs : List Glyph) : List Glyph := (trimLeft gs.reverse).reverse

end Glyph

/-- A line, or what is left of it: the offset of its first byte, the character in front of it, its
text, the number of bytes of the line ending behind it, and what was taken off its front. -/
structure Line where
  start : Nat
  before : Option Char
  text : List Char
  ending : Nat
  lead : List Char := []
  deriving Inhabited

namespace Line

def stop (l : Line) : Nat := l.start + Text.size l.text

/-- The offset behind the line ending. -/
def next (l : Line) : Nat := l.stop + l.ending

def isBlank (l : Line) : Bool := l.text.all isSpace

def indent (l : Line) : Nat := (l.text.takeWhile (· == ' ')).length

/-- Is the line indented so little that it can start a block? -/
def isOpen (l : Line) : Bool := l.indent < 4

/-- The line without its first characters. -/
def skip (l : Line) (n : Nat) : Line :=
  { l with
    start := l.start + Text.size (l.text.take n)
    before := (l.text.take n).getLast?.or l.before
    text := l.text.drop n
    lead := l.lead ++ l.text.take n }

/-- The text behind the indentation. -/
def body (l : Line) : List Char := l.text.drop l.indent

def glyphs (l : Line) : List Glyph := Glyph.ofText l.start l.before l.lead l.text

/-- The glyphs of some lines, with the line endings between them. -/
def join : List Line → List Glyph
  | [] => []
  | [l] => l.glyphs
  | l :: ls => l.glyphs ++ { offset := l.stop, char := '\n', before := l.text.getLast?.or l.before } :: join ls

/-- The lines of a text, where `read` holds the characters of the first line that were read already,
last first. No line comes after a line ending at the very end. -/
def cut (start : Nat) (before : Option Char) (read : List Char) : List Char → List Line
  | [] => if read.isEmpty then [] else [{ start, before, text := read.reverse, ending := 0 }]
  | '\r' :: '\n' :: cs =>
    { start, before, text := read.reverse, ending := 2 } ::
      cut (start + Text.size read + 2) (some '\n') [] cs
  | c :: cs =>
    if c == '\n' || c == '\r' then
      { start, before, text := read.reverse, ending := 1 } ::
        cut (start + Text.size read + 1) (some c) [] cs
    else cut start before (c :: read) cs

/-- The lines of a text. A byte order mark at its start belongs to no line. -/
def ofText : List Char → List Line
  | '\uFEFF' :: cs => cut 3 none [] cs
  | cs => cut 0 none [] cs

end Line

/-- Running text that is not read yet. -/
structure Passage where
  glyphs : List Glyph
  /-- The character behind the text on the same line. -/
  after : Option Char := none
  /-- Does the text stand in a cell of a table? -/
  inCell : Bool := false
  /-- Is this the first paragraph of an item? -/
  leadsItem : Bool := false
  deriving Inhabited

/-- The text behind the box that the first paragraph of an item may start with, and the offset at
which that text starts. A space or a line ending comes behind the box and goes with it. -/
def Passage.behindBox? (p : Passage) : Option (Nat × List Glyph) :=
  match p.glyphs with
  | a :: b :: c :: d :: rest =>
    let isBox := a.char == '[' && (isGap b.char || b.char == 'x' || b.char == 'X') && c.char == ']'
    match Glyph.trimLeft (d :: rest) with
    | [] => none
    | g :: gs =>
      if !(p.leadsItem && isBox && isGap d.char) then none
      else if g.char == '\n' then some (g.stop, Glyph.trimLeft gs)
      else some (d.stop, rest)
  | _ => none

end TreeEdit.Markdown
