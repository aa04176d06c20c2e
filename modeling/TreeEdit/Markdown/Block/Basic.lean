import TreeEdit.Markdown.Inline.Parser

/-!
# Blocks

A block is a node whose running text is not read yet: the labels that decide what is a link are only
known when all blocks are. `Block.toTree` reads the text and gives the finished node.
-/

namespace TreeEdit.Markdown

/-- A block. The node that it holds has no children yet. -/
inductive Block where
  /-- A block without running text. -/
  | leaf (node : Tree)
  /-- A block of running text. -/
  | prose (node : Tree) (content : Passage)
  /-- A block of blocks, last first. A list has the mark that its items have in common. -/
  | group (node : Tree) (mark : Option Char) (blocks : List Block)

namespace Block

def node : Block → Tree
  | leaf t => t
  | prose t _ => t
  | group t _ _ => t

/-- A block of running text as a node. -/
def proseTree (o : Options) (labels : Labels) (node : Tree) (p : Passage) : Tree :=
  match if o.gfm then p.behindBox? else none with
  | some (start, rest) =>
    { node with
      span := ⟨start, node.span.stop⟩
      children := inlineNodes o labels p (Glyph.trimRight rest) }
  | none =>
    { node with children := inlineNodes o labels p (Glyph.trimRight (Glyph.trimLeft p.glyphs)) }

mutual

/-- The finished node, given the labels of the document. -/
def toTree (o : Options) (labels : Labels) : Block → Tree
  | leaf t => t
  | prose t content => proseTree o labels t content
  | group t _ blocks => { t with children := toTreesThen o labels blocks [] }

/-- The finished nodes of blocks, which come last first, in front of others. -/
def toTreesThen (o : Options) (labels : Labels) : List Block → List Tree → List Tree
  | [], rest => rest
  | b :: bs, rest => toTreesThen o labels bs (b.toTree o labels :: rest)

end

/-- Adds an item to the list that the blocks, last first, end with, or starts a new list. -/
def addItem (mark : Char) (item : Block) (blocks : List Block) : List Block :=
  let span := item.node.span
  let fresh : Tree :=
    { kind := "list", span, data := .list (mark == '.' || mark == ')') }
  match blocks with
  | group t (some m) items :: rest =>
    if m == mark then
      group { t with span := ⟨t.span.start, span.stop⟩ } (some m) (item :: items) :: rest
    else group fresh (some mark) [item] :: blocks
  | _ => group fresh (some mark) [item] :: blocks

end Block

end TreeEdit.Markdown
