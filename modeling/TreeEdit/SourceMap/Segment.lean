import TreeEdit.SourceMap.Mapping

/-!
# The text of the mappings

Each mapping is a segment of four numbers: the generated column, the source (always the first), the
source line and the source column. All are written as differences from the segment before, but the
generated column starts anew on each line. A number is written as base-64 digits of five bits, the
lowest first, with the sign in the lowest bit and a sixth bit that says whether more digits follow.
-/

namespace TreeEdit.Segment

/-- The digits, in order of their value. -/
def alphabet : List Char :=
  "ABCDEFGHIJKLMNOPQRSTUVWXYZabcdefghijklmnopqrstuvwxyz0123456789+/".toList

/-- The digit of a value below 64. -/
def digit (n : Nat) : Char :=
  alphabet.getD n 'A'

/-- The digits of a number, five bits each. -/
def natDigits (n : Nat) : List Char :=
  if n < 32 then [digit n] else digit (n % 32 + 32) :: natDigits (n / 32)
  termination_by n
  decreasing_by omega

/-- A signed number with its sign as the lowest bit. -/
def zigzag : Int → Nat
  | .ofNat n => 2 * n
  | .negSucc n => 2 * (n + 1) + 1

def intDigits (i : Int) : List Char :=
  natDigits (zigzag i)

/-- What the next segment is written relative to. -/
structure Context where
  generated : Position := {}
  source : Position := {}
  first : Bool := true

def segment (c : Context) (m : Mapping) : List Char :=
  let column := if m.generated.line = c.generated.line then c.generated.column else 0
  intDigits ((m.generated.column : Int) - column) ++ intDigits 0 ++
    intDigits ((m.source.line : Int) - c.source.line) ++
    intDigits ((m.source.column : Int) - c.source.column)

/-- What stands between two segments: a semicolon for each line between them, or a comma. -/
def separator (c : Context) (m : Mapping) : List Char :=
  if m.generated.line = c.generated.line then (if c.first then [] else [','])
  else List.replicate (m.generated.line - c.generated.line) ';'

def encode (c : Context) : List Mapping → List Char
  | [] => []
  | m :: ms =>
    separator c m ++ segment c m ++ encode ⟨m.generated, m.source, false⟩ ms

end TreeEdit.Segment
