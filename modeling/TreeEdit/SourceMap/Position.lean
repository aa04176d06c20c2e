/-!
# Lines and columns

Both count from zero. A column counts UTF-16 code units: a character outside the basic plane takes
two of them. A newline ends a line; no other character does.
-/

namespace TreeEdit

structure Position where
  line : Nat := 0
  column : Nat := 0
  deriving DecidableEq, Repr, Inhabited

def utf16Width (c : Char) : Nat :=
  if c.toNat < 0x10000 then 1 else 2

namespace Position

def step (p : Position) (c : Char) : Position :=
  if c = '\n' then ⟨p.line + 1, 0⟩ else ⟨p.line, p.column + utf16Width c⟩

def advance (p : Position) (text : List Char) : Position :=
  text.foldl step p

/-- Does the first position come before the second, or are they equal? -/
def le (p q : Position) : Bool :=
  p.line < q.line || (p.line == q.line && p.column ≤ q.column)

end Position

end TreeEdit
