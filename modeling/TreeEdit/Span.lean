import TreeEdit.Json.Basic

/-!
# Spans

A range of byte offsets, from `start` up to but not including `stop`. A span that is read from
elsewhere may have its ends in the wrong order; it then has length 0 and contains nothing, but only
a span with equal ends is called empty.
-/

namespace TreeEdit

/-- A range of byte offsets. -/
structure Span where
  start : Nat
  stop : Nat
  deriving DecidableEq, Repr, Inhabited

namespace Span

def empty (offset : Nat) : Span :=
  ⟨offset, offset⟩

/-- The number of bytes covered. -/
def size (s : Span) : Nat :=
  s.stop - s.start

def isEmpty (s : Span) : Bool :=
  s.start == s.stop

/-- Does the span cover the byte at an offset? -/
def contains (s : Span) (offset : Nat) : Bool :=
  s.start ≤ offset && offset < s.stop

/-- The least span that covers two others. -/
def merge (s t : Span) : Span :=
  ⟨min s.start t.start, max s.stop t.stop⟩

/-- The order by start, then by stop. -/
protected def compare (s t : Span) : Ordering :=
  (compare s.start t.start).then (compare s.stop t.stop)

/-- A span as a half-open interval. -/
def display (s : Span) : String :=
  "[" ++ toString s.start ++ ", " ++ toString s.stop ++ ")"

/-- A span with its fields named. -/
def debug (s : Span) : String :=
  "Span \x7b start: " ++ toString s.start ++ ", end: " ++ toString s.stop ++ " \x7d"

def toJson (s : Span) : Json :=
  .obj [("start", .nat s.start), ("end", .nat s.stop)]

def toPair (s : Span) : Json :=
  .arr [.nat s.start, .nat s.stop]

end Span

end TreeEdit
