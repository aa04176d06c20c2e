import TreeEdit.Markdown.Html
import TreeEdit.Markdown.Inline.Emphasis
import TreeEdit.Markdown.Reference
import TreeEdit.Options.Basic

/-!
# The nodes inside a paragraph

`inlineNodes` reads glyphs from left to right. Code, raw HTML and line breaks are recognised where they
start; a bracket is put on a stack, and its closing bracket decides whether there is a link or an
image. Emphasis is resolved last, and inside a link on its own.
-/

namespace TreeEdit.Markdown

def Target.data (t : Target) : NodeData :=
  .link (String.ofList t.url) (t.title.map String.ofList)

namespace Inline

/-- What the reading of a passage depends on. -/
structure Context where
  options : Options
  /-- The labels of the document. -/
  labels : Labels
  /-- The character behind the passage on the same line. -/
  after : Option Char
  /-- Does the passage stand in a cell of a table? -/
  inCell : Bool

def Context.marks (x : Context) : List Char :=
  if x.options.gfm then ['*', '_', '~'] else ['*', '_']

/-- A bracket that is open: whether it is that of an image, whether it can still become a link, the
glyphs behind it, and the pieces before it, last first. -/
structure Bracket where
  start : Nat
  image : Bool
  active : Bool := true
  inner : List Glyph
  before : List Piece

/-- The pieces behind the innermost open bracket, last first, and the open brackets, innermost
first. -/
structure State where
  pieces : List Piece := []
  brackets : List Bracket := []

def Bracket.literal (b : Bracket) : Piece :=
  if b.image then .text ⟨b.start, b.start + 2⟩ ['!', '['] else .text ⟨b.start, b.start + 1⟩ ['[']

namespace State

def push (s : State) (p : Piece) : State := { s with pieces := p :: s.pieces }

def node (s : State) (t : Tree) : State := s.push (.node t)

def text (s : State) (g : Glyph) : State := s.push (.text ⟨g.offset, g.stop⟩ [g.char])

/-- All pieces, last first, with the open brackets as text. -/
def unwind (pieces : List Piece) : List Bracket → List Piece
  | [] => pieces
  | b :: bs => unwind (pieces ++ b.literal :: b.before) bs

end State

/-! ## Code and mathematics -/

/-- The glyphs before a run of exactly `n` marks. `run` counts the marks just read, and `before`
holds what was read, last first. -/
def beforeRun? (mark : Char) (n run : Nat) (before : List Glyph) :
    List Glyph → Option (List Glyph)
  | [] => if run = n then some (before.drop n).reverse else none
  | g :: gs =>
    if g.char == mark then beforeRun? mark n (run + 1) (g :: before) gs
    else if run = n then some (before.drop n).reverse
    else beforeRun? mark n 0 (g :: before) gs

/-- Text of a cell without the backslashes before bars. -/
def plainBars : List Char → List Char
  | [] => []
  | '\\' :: '|' :: cs => '|' :: plainBars cs
  | c :: cs => c :: plainBars cs

/-- Text without one space at either end, if it has both and is not blank. -/
def unpadded (cs : List Char) : List Char :=
  if 2 < cs.length && cs.head? == some ' ' && cs.getLast? == some ' ' && !cs.all (· == ' ') then
    (cs.drop 1).dropLast
  else cs

/-- Reads what stands between two equal runs of a mark. A run without its like is text. -/
def raw (x : Context) (kind : String) (s : State) (g : Glyph) (gs : List Glyph) : State × Nat :=
  let marks := (g :: gs).takeWhile (·.char == g.char)
  let n := marks.length
  match beforeRun? g.char n 0 [] ((g :: gs).drop n) with
  | some content =>
    let total := n + content.length + n
    let value := Glyph.chars content
    (s.node {
      kind
      span := ⟨g.offset, Glyph.stopOf ((g :: gs).take total) g.stop⟩
      value := some (String.ofList (unpadded (if x.inCell then plainBars value else value))) },
      total - 1)
  | none => (s.push (.text ⟨g.offset, Glyph.stopOf marks g.stop⟩ (Glyph.chars marks)), n - 1)

/-! ## Angle brackets -/

/-- Is the text a web address, with a scheme of two to 32 characters? -/
def isUrl (cs : List Char) : Bool :=
  let scheme := cs.takeWhile fun c => c.isAlphanum || "+.-".contains c
  cs.head?.any Char.isAlpha && 2 ≤ scheme.length && scheme.length ≤ 32
    && cs[scheme.length]? == some ':'

/-- Can the character stand before the sign of a mail address? -/
def inMailbox (c : Char) : Bool := c.isAlphanum || "#$%&\x27*+-./=?^_\x60\x7b|\x7d~".contains c

/-- Is the text the name of a host, where `size` characters of its first label were read already? -/
def isHost (size : Nat) (last : Option Char) : List Char → Bool
  | [] => last.any Char.isAlphanum
  | c :: cs =>
    if c == '.' then last.any Char.isAlphanum && isHost 0 none cs
    else if c == '-' then last.isSome && size < 63 && isHost (size + 1) (some c) cs
    else c.isAlphanum && size < 63 && isHost (size + 1) (some c) cs

def isMail (cs : List Char) : Bool :=
  let mailbox := cs.takeWhile inMailbox
  match cs.drop mailbox.length with
  | '@' :: host => !mailbox.isEmpty && isHost 0 none host
  | _ => false

/-- The address in angle brackets that the text behind the opening one starts with, and where it
leads. -/
def address? (cs : List Char) : Option (List Char × List Char) :=
  let text := cs.takeWhile fun c => 0x20 < c.toNat && c.toNat != 0x7F && c != '<' && c != '>'
  if cs[text.length]? != some '>' then none
  else if isUrl text then some (text, text)
  else if isMail text then some (text, "mailto:".toList ++ text)
  else none

/-- Raw HTML without the spaces that lines start with. -/
def unindented : List Char → List Char
  | [] => []
  | '\n' :: cs => '\n' :: (unindented cs).dropWhile isSpace
  | c :: cs => c :: unindented cs

/-- Reads an address or raw HTML. -/
def angle (s : State) (g : Glyph) (gs : List Glyph) : State × Nat :=
  match address? (Glyph.chars gs) with
  | some (text, url) =>
    let stop := Glyph.stopOf (gs.take text.length) g.stop
    (s.node {
      kind := "link"
      span := ⟨g.offset, stop + 1⟩
      data := .link (String.ofList url) none
      children := [Piece.toTree (.text ⟨g.stop, stop⟩ text)] }, text.length + 1)
  | none =>
    let cs := Glyph.chars (g :: gs)
    match Html.inline? cs with
    | some rest =>
      let taken := (g :: gs).take (cs.length - rest.length)
      (s.node {
        kind := "html"
        span := ⟨g.offset, Glyph.stopOf taken g.stop⟩
        value := some (String.ofList (unindented (Glyph.chars taken))) }, taken.length - 1)
    | none => (s.text g, 0)

/-! ## Links and images -/

/-- What a closing bracket makes of an open one. -/
inductive Closing where
  /-- A link or an image, by its kind, with the number of glyphs that come behind the bracket. -/
  | link (kind : String) (data : NodeData) (taken : Nat)
  | note
  | nothing

/-- What a closing bracket makes of an open one with the given text inside, when the glyphs `gs` come
behind: a note or a link whose label is defined, or one with a target in parentheses. -/
def closing (x : Context) (b : Bracket) (inside : List Char) (gs : List Glyph) : Closing :=
  let isDefined (label : List Char) : Bool := x.labels.links.contains (Labels.key label)
  let reference (taken : Nat) : Closing :=
    .link (if b.image then "imageReference" else "linkReference") .none taken
  let isNote := match inside with
    | '^' :: label =>
      x.options.gfm && !b.image && x.labels.notes.contains (Labels.key label)
    | _ => false
  if isNote then .note
  else
    match Reader.resource? gs, Reader.label? gs with
    | some (target, rest), _ =>
      .link (if b.image then "image" else "link") target.data (gs.length - rest.length)
    | none, some (label, rest) =>
      if isDefined label then reference (gs.length - rest.length)
      else if isDefined inside then reference 0
      else .nothing
    | none, none =>
      if isDefined inside then
        match Glyph.chars (gs.take 2) with
        | ['[', ']'] => reference 2
        | _ => reference 0
      else .nothing

/-- Reads a closing bracket. There are no links inside a link, so the brackets around one are put out
of use. -/
def closeBracket (x : Context) (s : State) (g : Glyph) (gs : List Glyph) : State × Nat :=
  match s.brackets with
  | [] => (s.text g, 0)
  | b :: bs =>
    let literal : State := State.text ⟨s.pieces ++ b.literal :: b.before, bs⟩ g
    let inside := Glyph.written (b.inner.takeWhile (·.offset < g.offset))
    let outer := bs.map fun b => if b.image then b else { b with active := false }
    match if b.active then closing x b inside gs else .nothing with
    | .nothing => (literal, 0)
    | .note =>
      (State.node ⟨b.before, outer⟩ { kind := "footnoteReference", span := ⟨b.start, g.stop⟩ }, 0)
    | .link kind data taken =>
      let span : Span := ⟨b.start, Glyph.stopOf (gs.take taken) g.stop⟩
      if b.image then (State.node ⟨b.before, bs⟩ { kind, span, data }, taken)
      else
        (State.node ⟨b.before, outer⟩
          { kind, span, data, children := Emphasis.resolve s.pieces.reverse }, taken)

/-! ## Reading -/

def isSpacePiece : Piece → Bool
  | .text _ [c] => isSpace c
  | _ => false

/-- Reads a line ending. Spaces before it are dropped, and two or more make it a break. -/
def lineEnding (s : State) (g : Glyph) : State :=
  let spaces := s.pieces.takeWhile isSpacePiece
  let s : State := { s with pieces := s.pieces.dropWhile isSpacePiece }
  let plain := spaces.all fun
    | .text _ [c] => c == ' '
    | _ => false
  match spaces.getLast? with
  | some (.text span _) =>
    if 2 ≤ spaces.length && plain then s.node { kind := "break", span := ⟨span.start, g.stop⟩ }
    else s.text g
  | _ => s.text g

/-- The number of spaces in front. -/
def spacesBefore (gs : List Glyph) : Nat := (gs.takeWhile (isSpace ·.char)).length

/-- Reads a glyph with the glyphs behind it; gives the number of those that were read with it. -/
def step (x : Context) (s : State) (g : Glyph) (gs : List Glyph) : State × Nat :=
  let openBracket (image : Bool) (inner : List Glyph) : State :=
    ⟨[], { start := g.offset, image, inner, before := s.pieces } :: s.brackets⟩
  let marks (_ : Unit) : State × Nat :=
    let n := ((g :: gs).takeWhile (·.char == g.char)).length
    let after := (((g :: gs)[n]?).map (·.char)).or x.after
    (s.push (.run (Run.between x.marks g.before after g.char g.offset n)), n - 1)
  match g.char with
  | '\\' =>
    match gs with
    | [] => (s.text g, 0)
    | h :: hs =>
      if h.char == '\n' then
        (s.node { kind := "break", span := ⟨g.offset, h.stop⟩ }, 1 + spacesBefore hs)
      else if isEscapable h.char then (s.text h, 1)
      else (s.text g, 0)
  | '\x60' => raw x "inlineCode" s g gs
  | '$' => if x.options.math then raw x "inlineMath" s g gs else (s.text g, 0)
  | '*' => marks ()
  | '_' => marks ()
  | '~' => if x.options.gfm then marks () else (s.text g, 0)
  | '<' => angle s g gs
  | '!' =>
    match Glyph.chars (gs.take 2) with
    | '[' :: c =>
      if x.options.gfm && c == ['^'] then (s.text g, 0) else (openBracket true (gs.drop 1), 1)
    | _ => (s.text g, 0)
  | '[' => (openBracket false gs, 0)
  | ']' => closeBracket x s g gs
  | '\n' => (lineEnding s g, spacesBefore gs)
  | _ => (s.text g, 0)

/-- Reads all glyphs but the first `skip`, which were read before. -/
def read (x : Context) (skip : Nat) (s : State) : List Glyph → State
  | [] => s
  | g :: gs =>
    match skip with
    | n + 1 => read x n s gs
    | 0 =>
      let (s, n) := step x s g gs
      read x n s gs

end Inline

def inlineNodes (options : Options) (labels : Labels) (p : Passage) (gs : List Glyph) : List Tree :=
  let x : Inline.Context := { options, labels, after := p.after, inCell := p.inCell }
  let s := Inline.read x 0 {} gs
  Emphasis.resolve (Inline.State.unwind s.pieces s.brackets).reverse

end TreeEdit.Markdown
