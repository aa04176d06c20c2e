/-!
# JSON values and their compact text

An object keeps its fields in the order they are given. The text has no blanks; a string escapes
the quote, the backslash and the controls below the space, and nothing else.

`writeThen` puts the text of a value in front of what follows it, so that writing is linear in the
length of the result however deep the value is.
-/

namespace TreeEdit

/-- A JSON value with whole numbers. -/
inductive Json where
  | null
  | bool (b : Bool)
  | num (n : Int)
  | str (s : String)
  | arr (items : List Json)
  | obj (fields : List (String × Json))

namespace Json

/-- The decimal digits of a whole number, with a sign if it is negative. -/
def digits : Int → List Char
  | .ofNat n => Nat.toDigits 10 n
  | .negSucc n => '-' :: Nat.toDigits 10 (n + 1)

/-- A hexadecimal escape, for a code point below 256. -/
def controlEscape (n : Nat) : List Char :=
  ['\\', 'u', '0', '0', Nat.digitChar (n / 16), Nat.digitChar (n % 16)]

/-- One character as it stands in a string. -/
def escape (c : Char) : List Char :=
  match c with
  | '\x22' => ['\\', '\x22']
  | '\\' => ['\\', '\\']
  | '\x08' => ['\\', 'b']
  | '\t' => ['\\', 't']
  | '\n' => ['\\', 'n']
  | '\x0c' => ['\\', 'f']
  | '\r' => ['\\', 'r']
  | c => if c.toNat < 0x20 then controlEscape c.toNat else [c]

/-- A string in quotes, in front of what follows. -/
def quoteThen (s : String) (rest : List Char) : List Char :=
  '\x22' :: (s.toList.flatMap escape ++ '\x22' :: rest)

mutual

/-- The text of a value, in front of what follows. -/
def writeThen : Json → List Char → List Char
  | .null, rest => "null".toList ++ rest
  | .bool true, rest => "true".toList ++ rest
  | .bool false, rest => "false".toList ++ rest
  | .num n, rest => digits n ++ rest
  | .str s, rest => quoteThen s rest
  | .arr [], rest => '[' :: ']' :: rest
  | .arr (j :: js), rest => '[' :: j.writeThen (itemsThen js (']' :: rest))
  | .obj [], rest => '\x7b' :: '\x7d' :: rest
  | .obj ((k, j) :: fs), rest =>
    '\x7b' :: quoteThen k (':' :: j.writeThen (fieldsThen fs ('\x7d' :: rest)))

/-- The further items of a list, each after a comma. -/
def itemsThen : List Json → List Char → List Char
  | [], rest => rest
  | j :: js, rest => ',' :: j.writeThen (itemsThen js rest)

/-- The further fields of an object, each after a comma. -/
def fieldsThen : List (String × Json) → List Char → List Char
  | [], rest => rest
  | (k, j) :: fs, rest => ',' :: quoteThen k (':' :: j.writeThen (fieldsThen fs rest))

end

def render (j : Json) : String :=
  String.ofList (j.writeThen [])

/-- A number that is not negative. -/
def nat (n : Nat) : Json :=
  .num n

/-- A value that may be missing, as null when it is. -/
def option {α : Type} (f : α → Json) : Option α → Json
  | none => .null
  | some a => f a

end Json

end TreeEdit
