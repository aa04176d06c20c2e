import TreeEdit.Markdown.Html
import TreeEdit.Markdown.Reference
import TreeEdit.Options.Basic

/-!
# Lines that start a block

What a line says about the block that it belongs to. `LineKind.ofLine` decides, given what is known
about the lines before it. A line that is indented by four spaces or more starts no block but indented
code.
-/

namespace TreeEdit.Markdown

/-! ## Blocks of one line -/

namespace Line

def isThematicBreak (l : Line) : Bool :=
  let cs := l.text.filter fun c => !isSpace c
  l.isOpen && 3 ≤ cs.length && ['*', '-', '_'].any fun mark => cs.all (· == mark)

/-- The depth of the heading that the line underlines. -/
def underline? (l : Line) : Option Nat :=
  let marked (mark : Char) : Bool :=
    l.isOpen && l.body.head? == some mark && (l.body.dropWhile (· == mark)).all isSpace
  if marked '=' then some 1 else if marked '-' then some 2 else none

/-- Glyphs, last first, without the words of number signs in front. -/
def withoutSigns (gs : List Glyph) : List Glyph :=
  let rest := Glyph.trimLeft gs
  let behind := rest.dropWhile (·.char == '#')
  if _h : behind.length < gs.length ∧ behind.head?.all (isSpace ·.char) then withoutSigns behind
  else rest
termination_by gs.length
decreasing_by exact _h.1

/-- The depth and the text of the heading that the line is. Words of number signs at either end do not
belong to the text. -/
def heading? (l : Line) : Option (Nat × List Glyph) :=
  let depth := (l.body.takeWhile (· == '#')).length
  let rest := l.skip (l.indent + depth)
  if l.isOpen && 1 ≤ depth && depth ≤ 6 && rest.text.head?.all isSpace then
    let content := rest.glyphs.dropWhile fun g => isSpace g.char || g.char == '#'
    some (depth, (withoutSigns content.reverse).reverse)
  else none

end Line

/-! ## Fences -/

/-- The fence that starts a block of code or mathematics. -/
structure Fence where
  mark : Char
  size : Nat
  indent : Nat
  language : Option (List Char)

namespace Fence

def ofLine? (o : Options) (l : Line) : Option Fence :=
  match l.body with
  | [] => none
  | mark :: _ =>
    let size := (l.body.takeWhile (· == mark)).length
    let least? : Option Nat :=
      if mark == '\x60' || mark == '~' then some 3
      else if o.math && mark == '$' then some 2 else none
    let info := (l.body.drop size).dropWhile isSpace
    let word := info.takeWhile fun c => !isSpace c
    if l.isOpen && least?.any (· ≤ size) && (mark == '~' || !info.contains mark) then
      some {
        mark, size, indent := l.indent
        language := if word.isEmpty then none else some (unescape word) }
    else none

def isClosedBy (f : Fence) (l : Line) : Bool :=
  let size := (l.body.takeWhile (· == f.mark)).length
  l.isOpen && f.size ≤ size && (l.body.drop size).all isSpace

/-- A line of the block, without the indentation that the fence has too. -/
def content (f : Fence) (l : Line) : List Char :=
  l.text.drop (min l.indent f.indent)

end Fence

/-! ## Kinds of lines -/

/-- What is known when a line comes to the block that it belongs to. -/
structure Arrival where
  /-- Is the line before text, which not every block may interrupt? -/
  inText : Bool := false
  /-- Did one of the open blocks of blocks not go on? -/
  lazy : Bool := false
  /-- Did the line start a block of blocks? -/
  fresh : Bool := false
  /-- Can the line underline what comes before it? -/
  belowText : Bool := false
  /-- Is the line before part of a table? -/
  belowTable : Bool := false

inductive LineKind where
  | blank
  | code
  | heading (depth : Nat) (content : List Glyph)
  | fence (fence : Fence)
  | html (start : Html.BlockStart)
  | underline (depth : Nat)
  | thematicBreak
  | row
  /-- Text, and whether it can be the head of a table. -/
  | text (isHead : Bool)

namespace LineKind

/-- Does a line have nothing but marks that are too few for a fence or a break? -/
def isCutShort (o : Options) (l : Line) : Bool :=
  let cs := l.text.filter fun c => !isSpace c
  let isFew (mark : Char) (least : Nat) : Bool := cs.all (· == mark) && cs.length < least
  l.isOpen && !cs.isEmpty &&
    (['*', '-', '_'].any (isFew · 3) ||
      cs == l.body && (['\x60', '~'].any (isFew · 3) || o.math && isFew '$' 2))

/-- Can a line go on with text behind it, although it lacks signs of the blocks around it? A last line
without a line ending can also be blank, but it cannot be cut short. -/
def isLazyText (o : Options) (l : Line) : LineKind → Bool
  | text _ => l.ending != 0 || !isCutShort o l
  | blank => l.ending == 0
  | _ => false

/-- The block of raw HTML that a line starts. A tag of any name does so only where no text is
interrupted. -/
def html? (a : Arrival) (l : Line) : Option LineKind :=
  if l.isOpen then
    ((Html.block? l.body).filter fun b => b.interrupts || !a.inText || a.lazy).map html
  else none

def heading? (l : Line) : Option LineKind := l.heading?.map fun h => heading h.1 h.2

def fence? (o : Options) (l : Line) : Option LineKind := (Fence.ofLine? o l).map fence

def thematicBreak? (l : Line) : Option LineKind :=
  if l.isThematicBreak then some thematicBreak else none

def underline? (a : Arrival) (l : Line) : Option LineKind :=
  if a.belowText && !a.lazy && !a.fresh then l.underline?.map underline else none

/-- A line in which no other block starts: a row, or text. A bar alone is no head of a table. -/
def plain (o : Options) (a : Arrival) (l : Line) : LineKind :=
  if !o.gfm then text false
  else if a.belowTable && !a.fresh then (if a.lazy then text false else row)
  else text (l.isOpen && (l.text.filter fun c => !isSpace c) != ['|'])

/-- What a line is. Some first characters stand for one kind of block, or for none; such a line is
either that block or text that is no part of a table. -/
def ofLine (o : Options) (a : Arrival) (l : Line) : LineKind :=
  match l.text.head? with
  | some '#' => (heading? l).getD (text false)
  | some '\x60' => (fence? o l).getD (text false)
  | some '~' => (fence? o l).getD (text false)
  | some '$' => (fence? o l).getD (text false)
  | some '*' => (thematicBreak? l).getD (text false)
  | some '_' => (thematicBreak? l).getD (text false)
  | some '<' => (html? a l).getD (text false)
  | some 'e' => text false
  | some 'i' => text false
  | some '\x7b' => text false
  | _ =>
    if l.isBlank then blank
    else if !l.isOpen && !a.inText then code
    else
      (fence? o l <|> html? a l <|> heading? l <|> underline? a l <|> thematicBreak? l).getD
        (plain o a l)

end LineKind

end TreeEdit.Markdown
