import TreeEdit.Span

/-!
# Errors

`ParseError` says why a text has no tree, `TransformError` why a transformation has no result. Each
constructor is a cause; `message` is the only place where a cause is put into words.
-/

namespace TreeEdit

inductive ParseError where
  /-- The text is not in the language, where known at a byte offset. -/
  | invalidSource (message : String) (offset : Option Nat)
  /-- The text uses a feature that is not supported. -/
  | unsupported (message : String)
  /-- The options of the parser make no sense. -/
  | config (message : String)
  /-- The parser itself went wrong. -/
  | internal (message : String)
  deriving DecidableEq, Repr

namespace ParseError

def message : ParseError → String
  | .invalidSource m _ => "Invalid source: " ++ m
  | .unsupported m => "Unsupported feature: " ++ m
  | .config m => "Invalid parser options: " ++ m
  | .internal m => "Internal parser error: " ++ m

/-- The byte offset of the fault, where it is known. -/
def offset : ParseError → Option Nat
  | .invalidSource _ o => o
  | _ => none

end ParseError

inductive TransformError where
  | parse (e : ParseError)
  /-- An override came after the node's turn. -/
  | nodeAlreadyHandled (span : Span)
  /-- The node's run is over. -/
  | runFinished
  /-- An edit cuts through an earlier replacement. -/
  | overlappingEdit (span existing : Span)
  /-- A node's span is no range of the text, which has `len` bytes. -/
  | invalidSpan (span : Span) (len : Nat)
  | sourceMap (message : String)
  | config (message : String)
  /-- A manipulator reported a failure of its own. -/
  | manipulator (message : String)
  deriving DecidableEq, Repr

namespace TransformError

def message : TransformError → String
  | .parse e => "Parse error: " ++ e.message
  | .nodeAlreadyHandled s =>
    "Cannot override node at " ++ s.display ++ ": it has already been handled"
  | .runFinished => "The run this node belongs to has already finished"
  | .overlappingEdit s t =>
    "Edit at " ++ s.display ++ " partially overlaps the existing edit at " ++ t.display
  | .invalidSpan s n =>
    "Node location " ++ s.display ++ " is not a valid range of the " ++ toString n ++ "-byte input"
  | .sourceMap m => "Source map error: " ++ m
  | .config m => "Configuration error: " ++ m
  | .manipulator m => "Manipulator error: " ++ m

/-- What to do about the error, where there is advice. -/
def help : TransformError → Option String
  | .nodeAlreadyHandled _ =>
    some "overrides must happen while the node's manipulator is still running"
  | _ => none

end TransformError

end TreeEdit
