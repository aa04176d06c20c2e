import TreeEdit.SourceMap.Basic
import TreeEdit.Tuple.Token

/-!
# Options of a transformation

What the parser needs to know, and how the source map is made. `toJson` writes all fields.
-/

namespace TreeEdit

/-- Which extensions of Markdown are read. -/
structure Markdown.Options where
  gfm : Bool := true
  frontmatter : Bool := false
  math : Bool := false
  deriving DecidableEq, Repr, Inhabited

/-- The options of a transformation, with those of its parser. -/
structure TransformOptions (α : Type) where
  parser : α
  map : MapOptions := {}
  deriving DecidableEq, Repr

def Tuple.Options.toJson (o : Tuple.Options) : Json :=
  .obj [("delimiter", .str (String.ofList [o.delimiter]))]

def Markdown.Options.toJson (o : Markdown.Options) : Json :=
  .obj [("gfm", .bool o.gfm), ("frontmatter", .bool o.frontmatter), ("math", .bool o.math)]

def Resolution.toJson : Resolution → Json
  | .coarse => .bool false
  | .characters => .bool true
  | .boundary => .str "boundary"

def MapOptions.toJson (o : MapOptions) : Json :=
  .obj [("hires", o.hires.toJson), ("file", .option .str o.file), ("source", .option .str o.source),
    ("includeContent", .bool o.includeContent)]

def TransformOptions.toJson {α : Type} (parser : α → Json) (o : TransformOptions α) : Json :=
  .obj [("parser", parser o.parser), ("sourceMap", o.map.toJson)]

end TreeEdit
