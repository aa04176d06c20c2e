import TreeEdit.SourceMap.Segment

/-!
# Source maps

A source map says for each part of the edited text where it comes from. It names the edited file and
the source file, may carry the whole unedited text, and is written as JSON in revision 3 of the
format.
-/

namespace TreeEdit

/-- How a source map is made. -/
structure MapOptions where
  hires : Resolution := .coarse
  /-- The name of the edited file; the map has only its last component. -/
  file : Option String := none
  /-- The name of the source file. -/
  source : Option String := none
  /-- Is the unedited text part of the map? -/
  includeContent : Bool := false
  deriving DecidableEq, Repr, Inhabited

/-- The mappings of an edited text, and what they are about. -/
structure SourceMap where
  file : Option String
  source : String
  content : Option String
  mappings : List Mapping
  deriving DecidableEq, Repr

namespace SourceMap

/-- The last component of a path, whose components end at slashes of either kind. -/
def baseName (path : String) : String :=
  String.ofList (path.toList.reverse.takeWhile fun c => c != '/' && c != '\\').reverse

def ofBuffer (options : MapOptions) (b : Buffer) : SourceMap where
  file := options.file.map baseName
  source := (options.source.or options.file).getD ""
  content := if options.includeContent then some (String.ofList b.base) else none
  mappings := b.mappings options.hires

/-- Where a position of the edited text comes from: the source of the last mapping that is not
after it. -/
def lookup (m : SourceMap) (p : Position) : Option Position :=
  ((m.mappings.filter (·.generated.le p)).getLast?).map (·.source)

def toJson (m : SourceMap) : Json :=
  .obj ([("version", .nat 3)] ++ m.file.toList.map (fun f => ("file", .str f)) ++
    [("sources", .arr [.str m.source])] ++
    m.content.toList.map (fun c => ("sourcesContent", .arr [.str c])) ++
    [("names", .arr []), ("mappings", .str (String.ofList (Segment.encode {} m.mappings)))])

end SourceMap

end TreeEdit
