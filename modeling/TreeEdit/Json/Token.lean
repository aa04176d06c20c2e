import TreeEdit.Json.Number
import TreeEdit.Text.Bytes

/-!
# Tokens of JSON texts

A text is cut into tokens up to the first fault. Only four characters count as blanks. A string is
first cut into characters and 16-bit units, and then the units are joined into characters; a reader
that does not need the value leaves out the second part.
-/

namespace TreeEdit.Json

inductive Token where
  | openList
  | closeList
  | openObject
  | closeObject
  | comma
  | colon
  | null
  | bool (b : Bool)
  | number (value : Except Fault Number)
  | string (value : Except Fault String)
  /-- A string with a fault that stops all readers. -/
  | badString (value skipped : Fault)
  /-- Another token with a fault. -/
  | bad (value skipped : Fault)
  /-- A character that starts no token. -/
  | stray

def isSpace (c : Char) : Bool :=
  c == ' ' || c == '\n' || c == '\t' || c == '\r'

/-! ## Strings -/

/-- A character of a string, or a 16-bit unit given by its number. -/
inductive CodeUnit where
  | char (c : Char)
  | unit (n : Nat)

def hexDigit? (c : Char) : Option Nat :=
  if c.isDigit then some (c.toNat - '0'.toNat)
  else if 'a' ≤ c && c ≤ 'f' then some (c.toNat - 'a'.toNat + 10)
  else if 'A' ≤ c && c ≤ 'F' then some (c.toNat - 'A'.toNat + 10)
  else none

/-- The number given by four hexadecimal digits. -/
def hex4? (a b c d : Char) : Option Nat := do
  let a ← hexDigit? a
  let b ← hexDigit? b
  let c ← hexDigit? c
  let d ← hexDigit? d
  return ((a * 16 + b) * 16 + c) * 16 + d

/-- The character that a letter after a backslash stands for. -/
def simpleEscape? : Char → Option Char
  | '\x22' => some '\x22'
  | '\\' => some '\\'
  | '/' => some '/'
  | 'b' => some '\x08'
  | 'f' => some '\x0c'
  | 'n' => some '\n'
  | 'r' => some '\r'
  | 't' => some '\t'
  | _ => none

/-- Cuts a string, after its opening quote, into units. The fault is the one that stops all
readers. -/
def units : List Char → List CodeUnit × Option Fault × List Char
  | [] => ([], some .eofString, [])
  | ['\\'] => ([], some .eofString, [])
  | '\\' :: 'u' :: a :: b :: c :: d :: rest =>
    match hex4? a b c d with
    | none => ([], some .invalidHex, rest)
    | some n =>
      let (us, fault, rest) := units rest
      (.unit n :: us, fault, rest)
  | '\\' :: 'u' :: rest =>
    ([], some (if Text.size rest < 4 then .eofString else .invalidHex), [])
  | '\\' :: c :: rest =>
    match simpleEscape? c with
    | none => ([], some .invalidEscape, rest)
    | some e =>
      let (us, fault, rest) := units rest
      (.char e :: us, fault, rest)
  | c :: rest =>
    if c == '\x22' then ([], none, rest)
    else if c.toNat < 0x20 then ([], some .controlCharacter, rest)
    else
      let (us, fault, rest) := units rest
      (.char c :: us, fault, rest)

/-- Is the unit the first half of a character? -/
def isLeading (n : Nat) : Bool := 0xD800 ≤ n && n ≤ 0xDBFF

/-- Is the unit the second half of a character? -/
def isTrailing (n : Nat) : Bool := 0xDC00 ≤ n && n ≤ 0xDFFF

/-- The fault of a string that ends after the first half of a character. -/
def halfFault : Option Fault → Fault
  | some .eofString => .eofString
  | some .invalidHex => .invalidHex
  | _ => .unexpectedEndOfHexEscape

def join (fault : Option Fault) : List CodeUnit → Except Fault (List Char)
  | [] =>
    match fault with
    | none => .ok []
    | some f => .error f
  | .char c :: us => (join fault us).map (c :: ·)
  | .unit n :: us =>
    if isTrailing n then .error .loneSurrogate
    else if isLeading n then
      match us with
      | [] => .error (halfFault fault)
      | .char _ :: _ => .error .unexpectedEndOfHexEscape
      | .unit m :: us =>
        if isTrailing m then
          (join fault us).map (Char.ofNat ((n - 0xD800) * 0x400 + (m - 0xDC00) + 0x10000) :: ·)
        else .error .loneSurrogate
    else (join fault us).map (Char.ofNat n :: ·)

/-- Cuts a string off the front of a text, after its opening quote. -/
def cutString (cs : List Char) : Token × List Char :=
  let (us, fault, rest) := units cs
  let value := (join fault us).map String.ofList
  match fault, value with
  | none, value => (.string value, rest)
  | some f, .error v => (.badString v f, [])
  | some f, .ok _ => (.badString f f, [])

theorem length_units_le (cs : List Char) : (units cs).2.2.length ≤ cs.length := by
  fun_induction units cs <;> simp_all <;> omega

theorem length_cutString_le (cs : List Char) : (cutString cs).2.length ≤ cs.length := by
  have := length_units_le cs
  unfold cutString
  grind

/-! ## Other tokens -/

def numberToken (c : Cut Number) : Token × List Char :=
  match c.skipped, c.value with
  | .ok (), value => (.number value, c.rest)
  | .error f, .error v => (.bad v f, [])
  | .error f, .ok _ => (.bad f f, [])

/-- A word, after its first letter. -/
def cutWord (t : Token) : List Char → List Char → Token × List Char
  | [], rest => (t, rest)
  | _ :: _, [] => (.bad .eofValue .eofValue, [])
  | w :: ws, c :: cs => if w == c then cutWord t ws cs else (.bad .expectedIdent .expectedIdent, [])

/-- Cuts a token off the front of a text, of which the first character is given. -/
def cutToken (c : Char) (cs : List Char) : Token × List Char :=
  match c with
  | '[' => (.openList, cs)
  | ']' => (.closeList, cs)
  | '\x7b' => (.openObject, cs)
  | '\x7d' => (.closeObject, cs)
  | ',' => (.comma, cs)
  | ':' => (.colon, cs)
  | '\x22' => cutString cs
  | '-' => numberToken (Number.cut true cs)
  | 'n' => cutWord .null "ull".toList cs
  | 't' => cutWord (.bool true) "rue".toList cs
  | 'f' => cutWord (.bool false) "alse".toList cs
  | c => if c.isDigit then numberToken (Number.cut false (c :: cs)) else (.stray, cs)

theorem length_cutWord_le (t : Token) (w cs : List Char) :
    (cutWord t w cs).2.length ≤ cs.length := by
  fun_induction cutWord t w cs <;> grind

theorem length_numberToken_le (c : Cut Number) : (numberToken c).2.length ≤ c.rest.length := by
  unfold numberToken
  grind

theorem length_cutToken_le (c : Char) (cs : List Char) : (cutToken c cs).2.length ≤ cs.length := by
  have h (b : Bool) (ds : List Char) := Nat.le_trans (length_numberToken_le (Number.cut b ds))
    (Number.length_cut_le b ds)
  have := length_dropWhile_le Char.isDigit cs
  have := length_cutString_le cs
  have := length_cutWord_le
  unfold cutToken
  split <;> grind [List.dropWhile_cons]

/-- The tokens of a text, up to the first fault. -/
def lex : List Char → List Token
  | [] => []
  | c :: cs =>
    if isSpace c then lex cs
    else (cutToken c cs).1 :: lex (cutToken c cs).2
  termination_by cs => cs.length
  decreasing_by
    · simp
    · have := length_cutToken_le c cs
      simp only [List.length_cons]; omega

end TreeEdit.Json
