import TreeEdit.Markdown.Block.Container
import TreeEdit.Markdown.Block.Table

/-!
# The blocks of a document

Lines are read one by one. The state has the blocks of blocks that are open, innermost first, and the
one block without blocks that the next line may go on with.

A block without blocks reaches from the start of its first line to the end of its last. A block of
blocks reaches to the end of the last line that it took in, which may be a blank one.
-/

namespace TreeEdit.Markdown

/-- A block of blocks that is open, with its finished blocks, last first. -/
structure Frame where
  container : Container
  start : Nat
  blocks : List Block := []

/-- The block without blocks that the next line may go on with. Lines come last first. -/
inductive Growing where
  | nothing
  /-- Text, whether its last line can be the head of a table, and the stray underline before it. -/
  | paragraph (lines : List Line) (isHead : Bool) (stray : Option Line)
  /-- A heading that was underlined by the last line. -/
  | underlined
  /-- An underline with no text above it. -/
  | stray (line : Line)
  /-- Indented code, with the blank lines behind it that belong to it if more code follows. -/
  | indented (span : Span) (lines blanks : List (List Char))
  | fenced (start : Nat) (fence : Fence) (lines : List (List Char))
  | html (start : Nat) (ends : Html.BlockEnd) (lines : List (List Char))
  /-- A table, with the line under its head in its span but not among its rows. -/
  | table (span : Span) (rows : List Block)

namespace Growing

/-- Is the last line text or an underline, so that text may go on behind it without the signs of the
blocks around it? -/
def isText : Growing → Bool
  | paragraph .. => true
  | underlined => true
  | stray _ => true
  | _ => false

/-- Is the text of lines taken as it is? -/
def isVerbatim : Growing → Bool
  | fenced .. => true
  | html .. => true
  | _ => false

def isTable : Growing → Bool
  | table .. => true
  | _ => false

/-- Can the last line be the head of a table? -/
def isHead : Growing → Bool
  | paragraph _ isHead _ => isHead
  | _ => false

end Growing

/-- What is known behind a line. -/
structure State where
  /-- The finished blocks outside of all others, last first. -/
  blocks : List Block := []
  frames : List Frame := []
  growing : Growing := .nothing
  /-- Is the last line text that not every block of blocks may interrupt? -/
  inText : Bool := false
  labels : Labels := {}
  /-- The end of the last line. -/
  stop : Nat := 0
  /-- The end of the last line with its line ending, where a block without an end takes that in. -/
  reach : Nat := 0

/-- Lines, last first, as one text. -/
def joined (lines : List (List Char)) : List Char := ['\n'].intercalate lines.reverse

/-- A text without the line ending at its end. -/
def chomp (cs : List Char) : List Char := if cs.getLast? == some '\n' then cs.dropLast else cs

/-- The definitions that a text starts with, and the rest of the text, which ends at `stop`. -/
def definitions (stop : Nat) (gs : List Glyph) : List (Definition × Span) × List Glyph :=
  match Reader.definition? gs with
  | none => ([], gs)
  | some (d, rest) =>
    let offset (gs : List Glyph) : Nat := (gs.head?.map (·.offset)).getD stop
    let span : Span := ⟨offset gs, offset rest⟩
    if _h : rest.length - 1 < gs.length then
      let (ds, rest) := definitions stop (rest.drop 1)
      ((d, span) :: ds, rest)
    else ([], gs)
termination_by gs.length

namespace State

/-! ## Finished blocks -/

/-- Changes the finished blocks of the innermost open block. -/
def mapBlocks (s : State) (f : List Block → List Block) : State :=
  match s.frames with
  | [] => { s with blocks := f s.blocks }
  | fr :: frs => { s with frames := { fr with blocks := f fr.blocks } :: frs }

def add (s : State) (b : Block) : State := s.mapBlocks (b :: ·)

/-- Is the innermost open block an item without blocks so far? -/
def inNewItem (s : State) : Bool :=
  match s.frames with
  | { container := .item .., blocks := [], .. } :: _ => true
  | _ => false

def addDefinition (s : State) (d : Definition × Span) : State :=
  let s := s.add (.leaf { kind := "definition", span := d.2, data := d.1.target.data })
  { s with labels := { s.labels with links := Labels.key d.1.label :: s.labels.links } }

/-- Adds a block of running text, up to `stop`. -/
def addProse (s : State) (node : Tree) (gs : List Glyph) (stop : Nat) : State :=
  match gs with
  | [] => s
  | g :: _ =>
    let content : Passage := { glyphs := gs, leadsItem := node.kind == "paragraph" && s.inNewItem }
    s.add (.prose { node with span := ⟨g.offset, stop⟩ } content)

def addParagraph (s : State) (gs : List Glyph) : State :=
  s.addProse { kind := "paragraph", span := default } gs (Glyph.stopOf gs 0)

/-- Adds a heading that is underlined by a line. -/
def addHeading (s : State) (depth : Nat) (gs : List Glyph) (underline : Line) : State :=
  s.addProse { kind := "heading", span := default, data := .heading depth } gs underline.stop

/-- Adds the definitions that the text of some lines starts with, and gives what is left. -/
def addDefinitions (s : State) (lines : List Line) : State × List Glyph :=
  let (ds, rest) := definitions ((lines.getLast?.map Line.stop).getD s.stop) (Line.join lines)
  (ds.foldl addDefinition s, rest)

def fencedNode (f : Fence) (span : Span) (value : List Char) : Tree :=
  let value := some (String.ofList value)
  if f.mark == '$' then { kind := "math", span, value }
  else { kind := "code", span, value, data := .code (f.language.map String.ofList) }

def indentedNode (span : Span) (lines : List (List Char)) : Tree :=
  { kind := "code", span, value := some (String.ofList (chomp (joined lines))), data := .code none }

/-- Ends what was growing. A block between marks that has not come to its end reaches to `reach`, and
takes in the last line ending if that is behind the last line. -/
def settle (s : State) (reach : Nat) : State :=
  let done : State := { s with growing := .nothing }
  let isChomped := reach == s.stop
  match s.growing with
  | .nothing => done
  | .underlined => done
  | .stray line => done.addParagraph line.glyphs
  | .paragraph lines _ stray =>
    match stray, definitions s.stop (Line.join lines.reverse) with
    | some line, ([], _) => done.addParagraph (Line.join (line :: lines.reverse))
    | _, _ =>
      let done := (stray.map fun line => done.addParagraph line.glyphs).getD done
      let (done, rest) := done.addDefinitions lines.reverse
      done.addParagraph rest
  | .indented span lines _ => done.add (.leaf (indentedNode span lines))
  | .fenced start fence lines =>
    let value := if isChomped then chomp (joined lines) else joined lines
    done.add (.leaf (fencedNode fence ⟨start, reach⟩ value))
  | .html start ends lines =>
    let (stop, lines) := match ends with
      | .marks _ => (reach, if isChomped then lines else [] :: lines)
      | .blankLine => (s.stop, lines)
    let value := some (String.ofList (joined lines))
    done.add (.leaf { kind := "html", span := ⟨start, stop⟩, value })
  | .table span rows => done.add (.group { kind := "table", span } none rows)

def closeFrame (s : State) : State :=
  match s.frames with
  | [] => s
  | fr :: frs =>
    let stop := max s.stop ((fr.blocks.head?.map (·.node.span.stop)).getD 0)
    let span : Span := ⟨fr.start, stop⟩
    let s : State := { s with frames := frs }
    match fr.container with
    | .quote => s.add (.group { kind := "blockquote", span } none fr.blocks)
    | .note _ => s.add (.group { kind := "footnoteDefinition", span } none fr.blocks)
    | .item mark _ _ =>
      s.mapBlocks (Block.addItem mark (.group { kind := "listItem", span } none fr.blocks))

def closeFrames (s : State) : Nat → State
  | 0 => s
  | n + 1 => s.closeFrame.closeFrames n

def openFrame (s : State) (c : Container × Nat) : State :=
  let s : State := { s with frames := { container := c.1, start := c.2 } :: s.frames }
  match c.1 with
  | .note label =>
    { s with labels := { s.labels with notes := Labels.key label :: s.labels.notes } }
  | _ => s

/-! ## Lines without signs of blocks of blocks -/

/-- How the next line arrives, when it is lazy or starts blocks of blocks as given. -/
def arrival (s : State) (lazy fresh : Bool) : Arrival where
  inText := s.inText || s.growing.isHead
  lazy := lazy
  fresh := fresh
  belowText := s.growing.isText
  belowTable := s.growing.isTable

/-- Adds a line of text. It goes on with text, and also with a stray underline right before it. -/
def addText (s : State) (isHead : Bool) (l : Line) : State :=
  let s : State := { s with inText := true }
  match s.growing with
  | .paragraph lines _ stray => { s with growing := .paragraph (l :: lines) isHead stray }
  | .stray line =>
    if line.next = l.start then { s with growing := .paragraph [l] isHead (some line) }
    else { s.settle s.stop with growing := .paragraph [l] isHead none }
  | _ => { s.settle s.stop with growing := .paragraph [l] isHead none }

/-- Adds a line under text. Under a heading, and where there are only definitions, it is stray. A line
under a stray one makes that a heading. -/
def addUnderline (s : State) (depth : Nat) (l : Line) : State :=
  let next (growing : Growing) : State := { s with growing, inText := false }
  match s.growing with
  | .paragraph lines _ stray =>
    let s := next .underlined
    let s := (stray.map fun line => s.addParagraph line.glyphs).getD s
    match s.addDefinitions lines.reverse with
    | (s, []) => { s with growing := .stray l }
    | (s, rest) => s.addHeading depth rest l
  | .stray line => (next .underlined).addHeading depth line.glyphs l
  | _ => next (.stray l)

/-- Ends what was growing with the last line. -/
def ended (s : State) : State := { s.settle s.stop with inText := false }

def addLine (s : State) (a : Arrival) (l : Line) (kind : LineKind) : State :=
  let span : Span := ⟨l.start, l.stop⟩
  match kind with
  | .blank => s.ended
  | .code =>
    if a.lazy || a.fresh then s.ended.add (.leaf (indentedNode span [l.text.drop 4]))
    else { s.ended with growing := .indented span [l.text.drop 4] [] }
  | .heading depth content =>
    s.ended.add (.prose { kind := "heading", span, data := .heading depth } { glyphs := content })
  | .fence fence => { s.ended with growing := .fenced (l.start + l.indent) fence [] }
  | .html start =>
    match start.ends with
    | .marks ms =>
      if (Html.BlockEnd.marks ms).isIn start.inside then
        s.ended.add (.leaf { kind := "html", span, value := some (String.ofList l.text) })
      else { s.ended with growing := .html l.start (.marks ms) [l.text] }
    | .blankLine => { s.ended with growing := .html l.start .blankLine [l.text] }
  | .underline depth => s.addUnderline depth l
  | .thematicBreak => s.ended.add (.leaf { kind := "thematicBreak", span })
  | .row =>
    match s.growing with
    | .table span rows => { s with growing := .table ⟨span.start, l.stop⟩ (rowBlock l :: rows) }
    | _ => s.ended
  | .text isHead => s.addText isHead l

/-- The table that starts when a line comes under a head. -/
def table? (s : State) (l : Line) : Option State :=
  match s.growing with
  | .paragraph (head :: lines) true stray =>
    if delimiterCells? l == some (Cell.ofLine head).length then
      let s : State := { s with growing := if lines.isEmpty then (stray.map .stray).getD .nothing
                                           else .paragraph lines false stray }
      some { s.settle s.stop with
        growing := .table ⟨head.start, l.stop⟩ [rowBlock head], inText := false }
    else none
  | _ => none

/-- Adds a line of the blocks that are open, which starts no blocks of blocks. -/
def feed (o : Options) (s : State) (l : Line) : State :=
  let a := s.arrival false false
  let fresh (_ : Unit) : State := s.addLine a l (LineKind.ofLine o a l)
  match s.growing with
  | .indented span lines blanks =>
    if l.isOpen then
      if l.isBlank then { s with growing := .indented span lines ([] :: blanks) } else fresh ()
    else
      let code := l.text.drop 4 :: (blanks ++ lines)
      { s with growing := .indented ⟨span.start, l.stop⟩ code [] }
  | .fenced start fence lines =>
    if fence.isClosedBy l then
      State.add { s with growing := .nothing }
        (.leaf (fencedNode fence ⟨start, l.stop⟩ (joined lines)))
    else { s with growing := .fenced start fence (fence.content l :: lines) }
  | .html start ends lines =>
    match ends with
    | .blankLine =>
      if l.isBlank then s.settle s.stop else { s with growing := .html start ends (l.text :: lines) }
    | .marks _ =>
      let lines := l.text :: lines
      if ends.isIn l.text then
        State.add { s with growing := .nothing }
          (.leaf { kind := "html", span := ⟨start, l.stop⟩, value := some (String.ofList (joined lines)) })
      else { s with growing := .html start ends lines }
  | _ => (s.table? l).getD (fresh ())

/-! ## Lines -/

/-- The open blocks, outermost first, that go on in a line, and what the line has for them. -/
def descend : List Frame → Line → List Frame × Line
  | [], l => ([], l)
  | fr :: frs, l =>
    match fr.container.continue? l with
    | none => ([], l)
    | some (container, rest) =>
      let (kept, rest) := descend frs rest
      ({ fr with container } :: kept, rest)

/-- Reads a line in which the innermost `ended` open blocks do not go on and none starts. Text goes on
with text even so; all else ends these blocks. -/
def readLazy (o : Options) (s : State) (ended : Nat) (l : Line) : State :=
  let a := s.arrival true false
  let kind := LineKind.ofLine o a l
  if kind.isLazyText o l && s.growing.isText then s.addLine a l kind
  else { ((s.settle s.stop).closeFrames ended).addLine a l kind with inText := false }

/-- Reads the rest of a line, in which all but the innermost `ended` open blocks go on. -/
def readRest (o : Options) (s : State) (ended : Nat) (l : Line) : State × Bool :=
  if ended = 0 && s.growing.isVerbatim then (s.feed o l, false)
  else
    match Container.openings o (ended = 0 && s.inText) l with
    | ([], l) => if ended = 0 then (s.feed o l, false) else (s.readLazy o ended l, true)
    | (fresh, rest) =>
      let a := if ended = 0 then s.arrival false true else { fresh := true }
      let s := fresh.foldl openFrame ((s.settle s.reach).closeFrames ended)
      (s.addLine a rest (LineKind.ofLine o a rest), false)

/-- Reads a line. A block between marks reaches behind the line ending, unless the line was lazy. -/
def step (o : Options) (s : State) (l : Line) : State :=
  let (kept, rest) := descend s.frames.reverse l
  let ended := s.frames.length - kept.length
  let s : State := { s with frames := s.frames.take ended ++ kept.reverse }
  let (s, lazy) := s.readRest o ended rest
  { s with stop := l.stop, reach := if lazy then l.stop else l.next }

/-- Ends everything that is open. -/
def finish (s : State) : State :=
  let s := s.settle s.reach
  s.closeFrames s.frames.length

end State

end TreeEdit.Markdown
