import TreeEdit.Markdown.Block.Parser

/-!
# Markdown documents

The tree of a document: its blocks, read line by line, with the nodes inside their text. Data about
the document may stand before everything else, between two fences.
-/

namespace TreeEdit.Markdown

/-- The kinds of data that may stand at the start of a document, with the marks of their fences. -/
def frontMatterKinds : List (Char × String) := [('-', "yaml"), ('+', "toml")]

/-- Is the line a fence of three marks? -/
def isDataFence (mark : Char) (l : Line) : Bool :=
  l.text.take 3 == [mark, mark, mark] && (l.text.drop 3).all isSpace

/-- The data that the lines start with, and the lines behind them. -/
def frontMatter? : List Line → Option (Tree × List Line)
  | [] => none
  | first :: rest => do
    let (mark, kind) ← frontMatterKinds.find? fun k => isDataFence k.1 first
    let body := rest.takeWhile fun l => !isDataFence mark l
    match rest.drop body.length with
    | [] => none
    | last :: rest =>
      return ({ kind, span := ⟨first.start, last.stop⟩
                value := some (String.ofList (joined (body.map (·.text)).reverse)) }, rest)

/-- The tree of a text. Every text has one. -/
def parse (o : Options) (code : String) : Tree :=
  let lines := Line.ofText code.toList
  let (front, lines) := match if o.frontmatter then frontMatter? lines else none with
    | some (data, lines) => ([Block.leaf data], lines)
    | none => ([], lines)
  let s := (lines.foldl (State.step o) { blocks := front }).finish
  { kind := "root", span := ⟨0, code.utf8ByteSize⟩
    children := Block.toTreesThen o s.labels s.blocks [] }

end TreeEdit.Markdown
