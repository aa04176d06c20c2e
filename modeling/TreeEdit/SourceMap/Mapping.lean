import TreeEdit.Buffer.Basic
import TreeEdit.SourceMap.Position

/-!
# Mappings from edited text back to its source

A mapping pairs a position in the edited text with one in the unedited text. `Buffer.mappings` walks
the pieces of a buffer with both positions at hand.

* Inserted text has no mapping.
* Replacing text has one mapping at the start of each of its lines, an empty last line apart, always
  to the start of the range that it replaces.
* Unedited text has mappings as close as the resolution asks for, but never at a newline.
-/

namespace TreeEdit

/-- How closely unedited text is mapped. -/
inductive Resolution where
  /-- Where a piece or a line starts. -/
  | coarse
  /-- At each character. -/
  | characters
  /-- Where a word starts, and at each character outside of words. -/
  | boundary
  deriving DecidableEq, Repr, Inhabited

/-- A position of the edited text and where it comes from. -/
structure Mapping where
  generated : Position
  source : Position
  deriving DecidableEq, Repr

/-- The two positions that a walk over the pieces has reached. -/
structure Cursor where
  generated : Position := {}
  source : Position := {}
  deriving DecidableEq, Repr

def Cursor.mapping (c : Cursor) : Mapping :=
  ⟨c.generated, c.source⟩

/-- Is the character part of a word? -/
def isWord (c : Char) : Bool :=
  c.isAlphanum || c == '_'

/-- The mappings of replacing text whose first character is at `pos`. A mapping is due where a line
starts, that is at the first character and after each newline that is not the last character. -/
def replacedMappings (source : Position) (pos : Position) (due : Bool) : List Char → List Mapping
  | [] => []
  | c :: cs =>
    let later := replacedMappings source (pos.step c) (c = '\n') cs
    if due then ⟨pos, source⟩ :: later else later

/-- What unedited text remembers of the characters before: whether one came since the start of the
line, and whether the last one was part of a word. -/
structure Progress where
  started : Bool := false
  inWord : Bool := false

/-- Is a mapping due at a character, by the resolution and what came before? -/
def Resolution.due (r : Resolution) (before : Progress) (c : Char) : Bool :=
  match r with
  | .coarse => !before.started
  | .characters => true
  | .boundary => !(isWord c && before.inWord)

def uneditedMappings (r : Resolution) (cursor : Cursor) (before : Progress) :
    List Char → List Mapping
  | [] => []
  | c :: cs =>
    let next : Cursor := ⟨cursor.generated.step c, cursor.source.step c⟩
    if c = '\n' then uneditedMappings r next {} cs
    else
      let later := uneditedMappings r next ⟨true, isWord c⟩ cs
      if r.due before c then cursor.mapping :: later else later

namespace Piece

def mappings (r : Resolution) (cursor : Cursor) : Piece → List Mapping
  | .inserted _ => []
  | .replaced text _ => replacedMappings cursor.source cursor.generated true text
  | .unedited text => uneditedMappings r cursor {} text

/-- The cursor after a piece of a buffer over the text. -/
def advance (base : List Char) (cursor : Cursor) : Piece → Cursor
  | .inserted text => { cursor with generated := cursor.generated.advance text }
  | .replaced text span =>
    ⟨cursor.generated.advance text,
      cursor.source.advance (Text.between base span.start span.stop)⟩
  | .unedited text => ⟨cursor.generated.advance text, cursor.source.advance text⟩

end Piece

def mappingsOf (r : Resolution) (base : List Char) (cursor : Cursor) :
    List Piece → List Mapping
  | [] => []
  | p :: ps => p.mappings r cursor ++ mappingsOf r base (p.advance base cursor) ps

def Buffer.mappings (b : Buffer) (r : Resolution) : List Mapping :=
  mappingsOf r b.base {} b.allPieces

end TreeEdit
