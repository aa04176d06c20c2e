import TreeEdit.Engine.Session
import TreeEdit.Markdown.Parser
import TreeEdit.Options.Reader
import TreeEdit.Tuple.Parser

/-!
# Grammars

The grammars that a binding can be made for: tuples, Markdown, and one with a fixed answer to every
text. Each has options of its own; `Grammar.prepare` reads them and parses the text.
-/

namespace TreeEdit

inductive Grammar where
  | tuple
  | markdown
  /-- Gives the same tree, or the same error, for every text. -/
  | fixed (result : Except ParseError Tree)

/-- Where the options of a run come from. -/
inductive OptionSource where
  | defaults
  | json (text : String)
  /-- Given as they are; only tuples have a delimiter. -/
  | given (delimiter : Option Char) (map : MapOptions)

/-- The options of a run, given how those of the parser are read. -/
def OptionSource.load {α : Type} (source : OptionSource)
    (parser : Json.Document → Except Json.Fault α) (default : α) (delimited : Char → α) :
    Except TransformError (TransformOptions α) :=
  match source with
  | .defaults => .ok { parser := default }
  | .json text => TransformOptions.ofJson parser default text
  | .given delimiter map =>
    .ok { parser := (delimiter.map delimited).getD default, map }

namespace Grammar

/-- What the grammar has to say about its trees. -/
def adapter : Grammar → Adapter
  | .tuple => { name := "tuple", isNode := Tuple.isNode }
  | .markdown => { name := "markdown", isNode := fun _ => true }
  | .fixed _ => { name := "fixed", isNode := fun t => t.kind != "opaque" }

/-- Does the grammar give the same tree again and again? -/
def sharesTree : Grammar → Bool
  | .fixed _ => true
  | _ => false

/-- The tree of a text, and how the source map is to be made. -/
def prepare (g : Grammar) (source : OptionSource) (code : String) :
    Except TransformError (Except ParseError Tree × MapOptions) :=
  match g with
  | .tuple => do
    let o ← source.load Tuple.Options.read {} fun d => ⟨d⟩
    return (Tuple.parse o.parser code, o.map)
  | .markdown => do
    let o ← source.load Markdown.Options.read {} fun _ => {}
    return (.ok (Markdown.parse o.parser code), o.map)
  | .fixed result => do
    let o ← source.load Json.Document.readUnit () fun _ => ()
    return (result, o.map)

end Grammar

end TreeEdit
