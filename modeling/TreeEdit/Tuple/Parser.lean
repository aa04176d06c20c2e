import TreeEdit.Tree.Basic
import TreeEdit.Tuple.Token

/-!
# Trees of nested integer tuples

A program is a sequence of groups, a group a list of items in parentheses with delimiters between
them, and an item an integer or a group. `parse` reads the tokens one by one and keeps the groups
that are open on a stack, so that its depth does not grow with that of the text.
-/

namespace TreeEdit.Tuple

def maxInteger : Nat := Nat.pow 2 64 - 1

/-- The number that decimal digits stand for. -/
def decimal (digits : List Char) : Nat :=
  digits.foldl (fun n c => 10 * n + (c.toNat - '0'.toNat)) 0

def integer (digits : List Char) (span : Span) : Except Fault Tree :=
  let n := decimal digits
  if n ≤ maxInteger then
    .ok { kind := "integer", span, value := some (String.ofList digits), data := .integer n }
  else
    .error (.outOfRange digits span.start)

/-- A group that is not closed yet: where it opens and its items so far, last first. -/
structure Level where
  opening : Span
  items : List Tree := []

/-- What stands before the next token: the open groups, innermost first; whether the innermost one
is due an item; the finished groups outside of all others, last first. -/
structure State where
  levels : List Level := []
  due : Bool := false
  groups : List Tree := []

def State.finish (s : State) (levels : List Level) (group : Tree) : State :=
  match levels with
  | [] => { levels := [], due := false, groups := group :: s.groups }
  | l :: ls => { s with levels := { l with items := group :: l.items } :: ls, due := false }

def State.step (s : State) (t : Token) : Except Fault State :=
  match s.levels with
  | [] =>
    match t.kind with
    | .opening => .ok { s with levels := [⟨t.span, []⟩], due := true }
    | .integer _ => .error (.outside t.span.start)
    | k => .error (.unexpected k t.span.start)
  | l :: ls =>
    match t.kind, s.due with
    | .integer digits, true =>
      (integer digits t.span).map fun item =>
        { s with levels := { l with items := item :: l.items } :: ls, due := false }
    | .opening, true => .ok { s with levels := ⟨t.span, []⟩ :: l :: ls }
    | .delimiter, false => .ok { s with due := true }
    | .closing, due =>
      if !due || l.items.isEmpty then
        .ok (s.finish ls
          { kind := "group", span := l.opening.merge t.span, children := l.items.reverse })
      else .error (.unexpected .closing t.span.start)
    | k, _ => .error (.unexpected k t.span.start)

/-- The span from the first token to the last. -/
def programSpan (tokens : List Token) : Span :=
  match tokens.head?, tokens.getLast? with
  | some first, some last => first.span.merge last.span
  | _, _ => .empty 0

/-- The groups that the tokens form; `len` is the length of the text. -/
def parseTokens (len : Nat) (tokens : List Token) : Except Fault Tree := do
  let s ← tokens.foldlM State.step {}
  match s.levels with
  | [] => .ok { kind := "program", span := programSpan tokens, children := s.groups.reverse }
  | _ :: _ => .error (.unclosed len)

def parseText (options : Options) (text : List Char) : Except Fault Tree := do
  if isDelimiter options.delimiter then
    parseTokens (Text.size text) (← tokenize options.delimiter text)
  else .error (.delimiter options.delimiter)

/-- The tree of a text. -/
def parse (options : Options) (code : String) : Except ParseError Tree :=
  (parseText options code.toList).mapError Fault.toParseError

def isNode (t : Tree) : Bool :=
  t.kind == "program" || t.kind == "group" || t.kind == "integer"

end TreeEdit.Tuple
