import TreeEdit.Text.Blank
import TreeEdit.Text.Bytes
import TreeEdit.Text.Quoted
import TreeEdit.Error

/-!
# Tokens of nested integer tuples

A text such as `(1, (2, 3), 4)` consists of runs of digits, parentheses and delimiters, with white
space anywhere between them. `tokenize` cuts a text into these tokens, each with its span, or stops
at the first character that belongs to none of them.
-/

namespace TreeEdit.Tuple

/-- What separates the items of a group. -/
structure Options where
  delimiter : Char := ','
  deriving DecidableEq, Repr, Inhabited

/-- The kinds of tokens; an integer comes with its digits. -/
inductive Kind where
  | integer (digits : List Char)
  | opening
  | closing
  | delimiter
  deriving DecidableEq, Repr

def Kind.describe : Kind → String
  | .integer _ => "integer"
  | .opening => "opening paren"
  | .closing => "closing paren"
  | .delimiter => "delimiter"

structure Token where
  kind : Kind
  span : Span
  deriving DecidableEq, Repr

/-- Why a text is not a tuple program. -/
inductive Fault where
  /-- The delimiter could be mistaken for another token. -/
  | delimiter (d : Char)
  /-- A character belongs to no token. -/
  | character (c : Char) (offset : Nat)
  /-- An integer stands outside of all groups. -/
  | outside (offset : Nat)
  /-- A token stands where it cannot. -/
  | unexpected (kind : Kind) (offset : Nat)
  /-- An integer is too large. -/
  | outOfRange (digits : List Char) (offset : Nat)
  /-- The text ends inside a group. -/
  | unclosed (offset : Nat)
  deriving DecidableEq, Repr

/-- The fault as a parse error, in words. -/
def Fault.toParseError : Fault → ParseError
  | .delimiter d =>
    .config ("delimiter " ++ Text.quotedChar d ++ " collides with the tuple grammar")
  | .character c o =>
    .invalidSource ("Unexpected character " ++ Text.quotedChar c ++ " at offset " ++ toString o) o
  | .outside o =>
    .invalidSource ("Unexpected integer at offset " ++ toString o ++ " outside of group") o
  | .unexpected k o =>
    .invalidSource ("Unexpected " ++ k.describe ++ " at offset " ++ toString o) o
  | .outOfRange ds o =>
    .invalidSource
      ("Integer " ++ String.ofList ds ++ " at offset " ++ toString o ++ " is out of range") o
  | .unclosed o => .invalidSource "Unexpected end of input, missing closing paren" o

/-- Can the character separate items, being no part of another token and no white space? -/
def isDelimiter (d : Char) : Bool :=
  !(d.isDigit || d == '(' || d == ')' || Text.isBlank d)

/-- The tokens of the text that starts at byte offset `pos`. -/
def tokenizeAt (d : Char) (pos : Nat) : List Char → Except Fault (List Token)
  | [] => .ok []
  | c :: cs =>
    if c.isDigit then
      let digits := c :: cs.takeWhile Char.isDigit
      let stop := pos + digits.length
      (tokenizeAt d stop (cs.dropWhile Char.isDigit)).map (⟨.integer digits, ⟨pos, stop⟩⟩ :: ·)
    else
      let stop := pos + c.utf8Size
      if c == '(' then (tokenizeAt d stop cs).map (⟨.opening, ⟨pos, stop⟩⟩ :: ·)
      else if c == ')' then (tokenizeAt d stop cs).map (⟨.closing, ⟨pos, stop⟩⟩ :: ·)
      else if c == d then (tokenizeAt d stop cs).map (⟨.delimiter, ⟨pos, stop⟩⟩ :: ·)
      else if Text.isBlank c then tokenizeAt d stop cs
      else .error (.character c pos)
  termination_by cs => cs.length
  decreasing_by
    · have := (List.dropWhile_suffix (l := cs) Char.isDigit).length_le
      simp only [List.length_cons]; omega
    all_goals simp

def tokenize (d : Char) (text : List Char) : Except Fault (List Token) :=
  tokenizeAt d 0 text

end TreeEdit.Tuple
