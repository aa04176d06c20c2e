import TreeEdit.Text.Quoted

/-!
# What can be wrong with a JSON text

Either the text is not JSON, or it is not of the shape that was expected. `message` puts each cause
into words.
-/

namespace TreeEdit.Json

/-- Why a JSON text was not accepted. -/
inductive Fault where
  | eofValue
  | eofObject
  | eofList
  | eofString
  | expectedValue
  | expectedIdent
  | expectedColon
  | expectedListCommaOrEnd
  | expectedObjectCommaOrEnd
  | keyMustBeString
  | trailingComma
  | trailingCharacters
  | invalidNumber
  | numberOutOfRange
  /-- A backslash before a character that it cannot escape. -/
  | invalidEscape
  /-- A code point that is not given by four hexadecimal digits. -/
  | invalidHex
  | unexpectedEndOfHexEscape
  | loneSurrogate
  | controlCharacter
  /-- More lists and objects inside each other than are followed. -/
  | tooDeep
  | invalidType (found expected : String)
  | invalidValue (found expected : String)
  | invalidLength (found : Nat) (expected : String)
  | unknownField (name : String) (known : List String)
  | duplicateField (name : String)
  | missingField (name : String)
  /-- No alternative fits, of the ones that go by a name. -/
  | noVariant (name : String)
  | other (message : String)
  deriving DecidableEq, Repr

namespace Fault

def ticked (name : String) : String :=
  "`" ++ name ++ "`"

/-- Which names could have stood there. -/
def oneOf : List String → String
  | [] => "there are no fields"
  | [a] => "expected " ++ ticked a
  | [a, b] => "expected " ++ ticked a ++ " or " ++ ticked b
  | names => "expected one of " ++ String.intercalate ", " (names.map ticked)

def message : Fault → String
  | .eofValue => "EOF while parsing a value"
  | .eofObject => "EOF while parsing an object"
  | .eofList => "EOF while parsing a list"
  | .eofString => "EOF while parsing a string"
  | .expectedValue => "expected value"
  | .expectedIdent => "expected ident"
  | .expectedColon => "expected `:`"
  | .expectedListCommaOrEnd => "expected `,` or `]`"
  | .expectedObjectCommaOrEnd => "expected `,` or `\x7d`"
  | .keyMustBeString => "key must be a string"
  | .trailingComma => "trailing comma"
  | .trailingCharacters => "trailing characters"
  | .invalidNumber => "invalid number"
  | .numberOutOfRange => "number out of range"
  | .invalidEscape | .invalidHex => "invalid escape"
  | .unexpectedEndOfHexEscape => "unexpected end of hex escape"
  | .loneSurrogate => "lone leading surrogate in hex escape"
  | .controlCharacter => "control character (\\u0000-\\u001F) found while parsing a string"
  | .tooDeep => "recursion limit exceeded"
  | .invalidType found expected => "invalid type: " ++ found ++ ", expected " ++ expected
  | .invalidValue found expected => "invalid value: " ++ found ++ ", expected " ++ expected
  | .invalidLength n expected => "invalid length " ++ toString n ++ ", expected " ++ expected
  | .unknownField name known => "unknown field " ++ ticked name ++ ", " ++ oneOf known
  | .duplicateField name => "duplicate field " ++ ticked name
  | .missingField name => "missing field " ++ ticked name
  | .noVariant name => "data did not match any variant of untagged enum " ++ name
  | .other m => m

end Fault

end TreeEdit.Json
