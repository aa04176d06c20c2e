import TreeEdit.Json.Reader
import TreeEdit.Options.Basic

/-!
# Reading options

Options are read from JSON. Fields may be missing and then have their default, but no other field
than the known ones may be there, and none twice.
-/

namespace TreeEdit

open Json (Document Fault Shape)

def Span.shape : Shape Span where
  name := "Span"
  fields := ["start", "end"]
  lenient := true
  set field d s :=
    if field = "start" then d.readWord.map fun n => { s with start := n }
    else d.readWord.map fun n => { s with stop := n }

/-- Reads a span; members that are not its ends are passed over. -/
def Span.ofJson (text : String) : Except Fault Span :=
  Json.readText (Span.shape.readWhole default) text

def Tuple.Options.shape : Shape Tuple.Options where
  name := "TupleOptions"
  fields := ["delimiter"]
  set _ d o := d.readChar.map fun c => { o with delimiter := c }

def Markdown.Options.shape : Shape Markdown.Options where
  name := "MarkdownOptions"
  fields := ["gfm", "frontmatter", "math"]
  set field d o :=
    if field = "gfm" then d.readBool.map fun b => { o with gfm := b }
    else if field = "frontmatter" then d.readBool.map fun b => { o with frontmatter := b }
    else d.readBool.map fun b => { o with math := b }

def Resolution.ofName (name : String) : Except Fault Resolution :=
  if name = "boundary" then .ok .boundary
  else .error (.other
    ("invalid hires value " ++ Text.quoted name ++ ", expected true, false or \"boundary\""))

/-- How many lists and objects a value inside the options may have inside each other: the options of
a source map are the second of at most 127. -/
def innerDepth : Nat := 125

/-- Reads a resolution: no for coarse, yes for characters, or a name. Anything else is read to its
end before it is refused. -/
def Resolution.read (d : Document) : Except Fault Resolution := do
  d.readAny innerDepth
  match d with
  | .bool false => return .coarse
  | .bool true => return .characters
  | .string (.ok name) => ofName name
  | _ => throw (.noVariant "RawResolution")

def MapOptions.shape : Shape MapOptions where
  name := "SourceMapOptions"
  fields := ["hires", "file", "source", "includeContent"]
  set field d o :=
    if field = "hires" then (Resolution.read d).map fun r => { o with hires := r }
    else if field = "file" then d.readOptionString.map fun f => { o with file := f }
    else if field = "source" then d.readOptionString.map fun f => { o with source := f }
    else d.readBool.map fun b => { o with includeContent := b }

namespace TransformOptions

variable {α : Type}

/-- How the options of a transformation are read, given how those of its parser are. -/
def shape (parser : Document → Except Fault α) : Shape (TransformOptions α) where
  name := "TransformOptions"
  fields := ["parser", "sourceMap"]
  set field d o :=
    if field = "parser" then (parser d).map fun p => { o with parser := p }
    else (MapOptions.shape.read {} d).map fun m => { o with map := m }

/-- Reads the options of a transformation; the parser's are as given if they are missing. -/
def ofJson (parser : Document → Except Fault α) (default : α) (text : String) :
    Except TransformError (TransformOptions α) :=
  (Json.readText ((shape parser).read { parser := default }) text).mapError fun f =>
    .config ("Invalid options: " ++ f.message)

/-- Reads the options from the bytes of a file, if there is one. -/
def ofFile (parser : Document → Except Fault α) (default : α) (file : Option ByteArray) :
    Except TransformError (TransformOptions α) :=
  match file with
  | none => .error (.config "Failed to read options: No such file or directory (os error 2)")
  | some bytes =>
    match String.fromUTF8? bytes with
    | none => .error (.config "Failed to read options: stream did not contain valid UTF-8")
    | some text => ofJson parser default text

end TransformOptions

def Tuple.Options.read (d : Document) : Except Json.Fault Tuple.Options :=
  Tuple.Options.shape.read {} d

def Markdown.Options.read (d : Document) : Except Fault Markdown.Options :=
  Markdown.Options.shape.read {} d

end TreeEdit
