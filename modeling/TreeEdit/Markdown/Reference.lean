import TreeEdit.Markdown.Line
import TreeEdit.Text.Case

/-!
# Labels, destinations and titles

The parts of links and definitions. Each reader takes glyphs and gives the value that it found with
the glyphs behind it.
-/

namespace TreeEdit.Markdown

/-- Can a backslash escape the character? These are the marks of ASCII. -/
def isEscapable (c : Char) : Bool :=
  [(0x21, 0x2F), (0x3A, 0x40), (0x5B, 0x60), (0x7B, 0x7E)].any fun r =>
    r.1 ≤ c.toNat && c.toNat ≤ r.2

def unescape : List Char → List Char
  | [] => []
  | '\\' :: c :: cs => if isEscapable c then c :: unescape cs else '\\' :: unescape (c :: cs)
  | c :: cs => c :: unescape cs

/-- The labels that a document defines, in normal form. -/
structure Labels where
  links : List (List Char) := []
  notes : List (List Char) := []

namespace Labels

/-- Every stretch of white space as one space. -/
def collapse : List Char → List Char
  | [] => []
  | c :: cs => if isGap c then ' ' :: (collapse cs).dropWhile (· == ' ') else c :: collapse cs

/-- A label as it is written without regard to white space: its words with a space between them, but
none behind a word that the label starts with. -/
def normalize (label : List Char) : List Char :=
  let front := (collapse label).dropWhile (· == ' ')
  let words := (front.reverse.dropWhile (· == ' ')).reverse
  if label.head?.any isGap then words
  else words.takeWhile (· != ' ') ++ (words.dropWhile (· != ' ')).drop 1

/-- The normal form of a label as it is written. Labels with one normal form are the same. -/
def key (label : List Char) : List Char := (normalize label).flatMap Text.foldCase

end Labels

structure Target where
  url : List Char := []
  title : Option (List Char) := none

structure Definition where
  label : List Char
  target : Target

namespace Reader

/-- The glyphs behind spaces and at most one line ending. -/
def gap (gs : List Glyph) : List Glyph :=
  match Glyph.trimLeft gs with
  | [] => []
  | g :: rest => if g.char == '\n' then Glyph.trimLeft rest else g :: rest

/-- Is there white space in front? -/
def startsWithGap (gs : List Glyph) : Bool := gs.head?.any (isGap ·.char)

/-- The glyphs behind a given character. -/
def expect? (c : Char) : List Glyph → Option (List Glyph)
  | [] => none
  | g :: gs => if g.char == c then some gs else none

/-- The glyphs up to a closing character that is not escaped, without it. -/
def until? (close : Char) (without : List Char) : List Glyph → Option (List Glyph × List Glyph)
  | [] => none
  | g :: gs =>
    if g.char == close then some ([], gs)
    else if without.contains g.char then none
    else
      match gs with
      | h :: hs =>
        if g.char == '\\' && isEscapable h.char then
          (until? close without hs).map fun r => (g :: h :: r.1, r.2)
        else (until? close without (h :: hs)).map fun r => (g :: r.1, r.2)
      | [] => none

/-! ## Labels -/

def labelLimit : Nat := 999

/-- A label in brackets, which has some text, as it is written. -/
def label? (gs : List Glyph) : Option (List Char × List Glyph) := do
  let (label, rest) ← until? ']' ['['] (← expect? '[' gs)
  guard (!label.all (isGap ·.char) && Text.size (Glyph.chars label) ≤ labelLimit)
  return (Glyph.written label, rest)

/-! ## Destinations -/

/-- Is the character a control, which cannot stand in a destination without brackets? -/
def isControl (c : Char) : Bool := (0 < c.toNat && c.toNat < 0x20) || c.toNat = 0x7F

/-- A destination without angle brackets, inside `depth` parentheses of its own. It ends before white
space, or before a closing parenthesis that it has not opened. -/
def bare? (limit depth : Nat) : List Glyph → Option (List Char × List Glyph)
  | [] => if depth = 0 then some ([], []) else none
  | g :: gs =>
    let take (r : Option (List Char × List Glyph)) := r.map fun r => (g.char :: r.1, r.2)
    if depth = 0 && (isGap g.char || g.char == ')') then some ([], g :: gs)
    else if g.char == '(' then if depth < limit then take (bare? limit (depth + 1) gs) else none
    else if g.char == ')' then take (bare? limit (depth - 1) gs)
    else if isControl g.char || g.char == ' ' then none
    else
      match gs with
      | h :: hs =>
        if g.char == '\\' && isEscapable h.char then
          (bare? limit depth hs).map fun r => ('\\' :: h.char :: r.1, r.2)
        else take (bare? limit depth (h :: hs))
      | [] => if depth = 0 then some ([g.char], []) else none

/-- A destination, with at most `limit` parentheses open at once. One without angle brackets is not
empty. -/
def destination? (limit : Nat) (gs : List Glyph) : Option (List Char × List Glyph) := do
  let (url, rest) ← match expect? '<' gs with
    | some gs => (until? '>' ['<', '\n'] gs).map fun r => (Glyph.chars r.1, r.2)
    | none => (bare? limit 0 gs).filter fun r => !r.1.isEmpty
  return (unescape url, rest)

/-! ## Titles -/

/-- A text without the spaces around its line endings. -/
def tidy : List Char → List Char
  | [] => []
  | c :: cs =>
    let rest := tidy cs
    if c == '\n' then '\n' :: rest.dropWhile isSpace
    else if isSpace c && rest.head? == some '\n' then rest
    else c :: rest

/-- A title in quotes or parentheses. -/
def title? : List Glyph → Option (List Char × List Glyph)
  | [] => none
  | g :: gs =>
    let close? : Option Char := match g.char with
      | '\x22' => some '\x22'
      | '\x27' => some '\x27'
      | '(' => some ')'
      | _ => none
    do
      let (title, rest) ← until? (← close?) [] gs
      return (tidy (unescape (Glyph.chars title)), rest)

def startsTitle (gs : List Glyph) : Bool := gs.head?.any (['\x22', '\x27', '('].contains ·.char)

/-! ## Links and definitions -/

/-- The most parentheses that can be open in the destination of a link. -/
def linkDepth : Nat := 32

/-- Where a link leads, in parentheses. -/
def resource? (gs : List Glyph) : Option (Target × List Glyph) := do
  let gs := gap (← expect? '(' gs)
  match expect? ')' gs with
  | some gs => return ({}, gs)
  | none =>
    let (url, gs) ← destination? linkDepth gs
    if startsWithGap gs && startsTitle (gap gs) then
      let (title, gs) ← title? (gap gs)
      return (⟨url, some title⟩, ← expect? ')' (gap gs))
    else return (⟨url, none⟩, ← expect? ')' (gap gs))

/-- The end of a line: no glyphs, or those from the line ending on. -/
def lineEnd? (gs : List Glyph) : Option (List Glyph) :=
  match Glyph.trimLeft gs with
  | [] => some []
  | g :: gs => if g.char == '\n' then some (g :: gs) else none

/-- A definition, with the glyphs from the end of its last line on. -/
def definition? (gs : List Glyph) : Option (Definition × List Glyph) := do
  let (label, gs) ← label? (Glyph.trimLeft gs)
  let gs := gap (← expect? ':' gs)
  let (url, rest) ← destination? gs.length gs
  let titled : Option (Definition × List Glyph) := do
    guard (startsWithGap rest)
    let (title, rest) ← title? (gap rest)
    return (⟨label, url, some title⟩, ← lineEnd? rest)
  titled.or ((lineEnd? rest).map fun rest => (⟨label, url, none⟩, rest))

end Reader

end TreeEdit.Markdown
