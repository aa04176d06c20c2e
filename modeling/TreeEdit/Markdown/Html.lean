import TreeEdit.Markdown.Line

/-!
# Tags

Where a tag, a comment or the like ends that a text starts with. The functions take the text and give
what comes behind, so that they can be put one after the other. `Html.inline?` reads raw HTML inside a
paragraph; `Html.block?` says whether a line starts a block of raw HTML, and how the block ends.
-/

namespace TreeEdit.Markdown.Html

/-- What comes behind the first occurrence of a mark. -/
def behind? (mark : List Char) : List Char → Option (List Char)
  | [] => if mark.isEmpty then some [] else none
  | c :: cs =>
    if mark.isPrefixOf (c :: cs) then some ((c :: cs).drop mark.length) else behind? mark cs

def inTagName (c : Char) : Bool := c.isAlphanum || c == '-'

/-- What comes behind the name of a tag. -/
def tagName? : List Char → Option (List Char)
  | [] => none
  | c :: cs => if c.isAlpha then some (cs.dropWhile inTagName) else none

def startsAttribute (c : Char) : Bool := c.isAlpha || c == '_' || c == ':'

def inAttribute (c : Char) : Bool := c.isAlphanum || "_:.-".contains c

def startsBareValue (c : Char) : Bool := !(isGap c || "\x22\x27=<>\x60".contains c)

def inBareValue (c : Char) : Bool := startsBareValue c && c != '/'

def value? (cs : List Char) : Option (List Char) :=
  match cs with
  | [] => none
  | c :: rest =>
    if c == '\x22' || c == '\x27' then behind? [c] rest
    else if startsBareValue c then some (rest.dropWhile inBareValue)
    else none

/-- What comes behind an attribute with the white space before it. -/
def attribute? (cs : List Char) : Option (List Char) :=
  match cs with
  | [] => none
  | gap :: _ =>
    match cs.dropWhile isGap with
    | [] => none
    | c :: rest =>
      if isGap gap && startsAttribute c then
        let rest := rest.dropWhile inAttribute
        match rest.dropWhile isGap with
        | '=' :: more => value? (more.dropWhile isGap)
        | _ => some rest
      else none

def attributes (cs : List Char) : List Char :=
  match attribute? cs with
  | none => cs
  | some rest => if _h : rest.length < cs.length then attributes rest else cs
termination_by cs.length

def openTag? (cs : List Char) : Option (List Char) :=
  match cs with
  | '<' :: rest =>
    (tagName? rest).bind fun rest =>
      match (attributes rest).dropWhile isGap with
      | '/' :: '>' :: rest => some rest
      | '>' :: rest => some rest
      | _ => none
  | _ => none

def closeTag? (cs : List Char) : Option (List Char) :=
  match cs with
  | '<' :: '/' :: rest =>
    (tagName? rest).bind fun rest =>
      match rest.dropWhile isGap with
      | '>' :: rest => some rest
      | _ => none
  | _ => none

/-- Raw HTML that is no tag: how it starts, how it ends, and how many characters of its start may
be part of its end. -/
structure Enclosure where
  opening : List Char
  closing : List Char
  shared : Nat

/-- An instruction; its question mark may be shared or not. -/
def instruction (shared : Nat) : Enclosure := ⟨"<?".toList, "?>".toList, shared⟩

/-- A comment. Both dashes that start it may also end it. -/
def comment : Enclosure := ⟨"<!--".toList, "-->".toList, 2⟩

/-- A section of plain characters. -/
def characterData : Enclosure := ⟨"<![CDATA[".toList, "]]>".toList, 0⟩

/-- The enclosure that the text starts with, where the question mark of an instruction is shared as
given. -/
def enclosure? (shared : Nat) (cs : List Char) : Option Enclosure :=
  match [comment, instruction shared, characterData].find? fun e => e.opening.isPrefixOf cs with
  | some e => some e
  | none =>
    match cs with
    | '<' :: '!' :: c :: _ => if c.isAlpha then some ⟨['<', '!', c], ['>'], 0⟩ else none
    | _ => none

/-- The text that the end of an enclosure is looked for in. -/
def Enclosure.inside (e : Enclosure) (cs : List Char) : List Char :=
  cs.drop (e.opening.length - e.shared)

/-- What comes behind a piece of raw HTML inside a paragraph. -/
def inline? (cs : List Char) : Option (List Char) :=
  match enclosure? 0 cs with
  | some e => behind? e.closing (e.inside cs)
  | none => (openTag? cs).or (closeTag? cs)

/-- Names of tags whose text is not read, up to the closing tag. -/
def rawNames : List String := ["script", "pre", "style", "textarea"]

def blockNames : List String := [
    "address", "article", "aside", "base", "basefont", "blockquote", "body", "caption", "center",
    "col", "colgroup", "dd", "details", "dialog", "dir", "div", "dl", "dt", "fieldset",
    "figcaption", "figure", "footer", "form", "frame", "frameset", "h1", "h2", "h3", "h4", "h5",
    "h6", "head", "header", "hr", "html", "iframe", "legend", "li", "link", "main", "menu",
    "menuitem", "nav", "noframes", "ol", "optgroup", "option", "p", "param", "search", "section",
    "summary", "table", "tbody", "td", "tfoot", "th", "thead", "title", "tr", "track", "ul"]

inductive BlockEnd where
  /-- With the first line that has one of the marks. -/
  | marks (marks : List (List Char))
  /-- Before a blank line. -/
  | blankLine

def BlockEnd.isIn (text : List Char) : BlockEnd → Bool
  | marks ms => ms.any fun m => (behind? m (text.map Char.toLower)).isSome
  | blankLine => text.all isSpace

structure BlockStart where
  ends : BlockEnd
  /-- The part of the first line in which the block may end. -/
  inside : List Char
  /-- Can the block come right behind a paragraph? -/
  interrupts : Bool := true

/-- Can the name of a tag that makes a block be followed by this? -/
def endsName : List Char → Bool
  | [] => true
  | '/' :: '>' :: _ => true
  | c :: _ => isSpace c || c == '>'

/-- The block that a line starts, if it starts with raw HTML. -/
def block? (line : List Char) : Option BlockStart :=
  match enclosure? 1 line, line with
  | some e, _ => some ⟨.marks [e.closing.map Char.toLower], e.inside line, true⟩
  | none, '<' :: rest =>
    let (closing, rest) := match rest with
      | '/' :: rest => (true, rest)
      | rest => (false, rest)
    let name := String.ofList ((rest.takeWhile inTagName).map Char.toLower)
    let rest := rest.dropWhile inTagName
    if rawNames.contains name && !closing && endsName rest && rest.head? != some '/' then
      some ⟨.marks (rawNames.map fun n => ("</" ++ n ++ ">").toList), rest, true⟩
    else if blockNames.contains name then
      if endsName rest then some ⟨.blankLine, rest, true⟩ else none
    else
      match (openTag? line).or (closeTag? line) with
      | some rest => if rest.all isSpace then some ⟨.blankLine, rest, false⟩ else none
      | none => none
  | none, _ => none

end TreeEdit.Markdown.Html
