import TreeEdit.Text.Hidden

/-!
# Quoted text

A string between double quotes, or a character between single quotes, in which nothing is
invisible: the usual letters stand for NUL, tab, return and newline, the backslash and the quote
itself are escaped, and a hidden character is given by its code point.
-/

namespace TreeEdit.Text

/-- A number in lower-case hexadecimal. -/
def hex (n : Nat) : List Char :=
  Nat.toDigits 16 n

/-- One character as it stands between the given quotes. -/
def quoteChar (quote c : Char) : List Char :=
  match c with
  | '\x00' => ['\\', '0']
  | '\t' => ['\\', 't']
  | '\r' => ['\\', 'r']
  | '\n' => ['\\', 'n']
  | '\\' => ['\\', '\\']
  | c =>
    if c == quote then ['\\', c]
    else if isHidden c then ['\\', 'u', '\x7b'] ++ hex c.toNat ++ ['\x7d']
    else [c]

def quoted (s : String) : String :=
  String.ofList ('\x22' :: s.toList.flatMap (quoteChar '\x22') ++ ['\x22'])

def quotedChar (c : Char) : String :=
  String.ofList ('\x27' :: quoteChar '\x27' c ++ ['\x27'])

end TreeEdit.Text
