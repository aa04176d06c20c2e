import TreeEdit.Json.Token

/-!
# JSON documents, faults included

A document is what a text says as far as it can be understood: a fault stands in the place where it
was found, and a list or an object knows how it ended. Whether a fault counts, and which of several
counts first, is up to the reader: it goes through the document from left to right.

`ofTokens` keeps the lists and objects that are open on a stack, so that documents of any depth can
be read.
-/

namespace TreeEdit.Json

/-- How a list or an object ended. -/
inductive Ending where
  | closed
  /-- It was closed right after a comma. -/
  | comma
  /-- The text ended, but not after a comma. -/
  | eof
  /-- The text ended after a comma. -/
  | eofComma
  /-- There was something else than a comma or the end. -/
  | junk
  /-- There was something else than a string for a key. -/
  | badKey
  /-- There was a faulty string for a key. -/
  | faultyKey (value skipped : Fault)
  deriving DecidableEq, Repr

mutual

/-- What a text says, as far as it can be understood. -/
inductive Document where
  | null
  | bool (b : Bool)
  | number (value : Except Fault Number)
  | string (value : Except Fault String)
  | list (items : List Document) (ending : Ending)
  | object (members : List Member) (ending : Ending)
  /-- A fault in the place of a value: for readers of the value, and for others. -/
  | fault (value skipped : Fault)

inductive Member where
  | mk (key : Except Fault String) (value : Document)

end

/-! ## Reading tokens -/

/-- A list or an object of which a value is being read; what came before is kept last first. -/
inductive Frame where
  | item (before : List Document)
  | member (before : List Member) (key : Except Fault String)

inductive Expect where
  | value
  /-- After an opening bracket. -/
  | firstItem
  | afterItem (before : List Document)
  | nextItem (before : List Document)
  /-- After an opening brace. -/
  | firstKey
  | afterMember (before : List Member)
  | nextKey (before : List Member)
  | colon (before : List Member) (key : Except Fault String)
  /-- The document is there; `more` says whether something follows it. -/
  | nothing (doc : Document) (more : Bool)

/-- The open lists and objects, innermost first, and what can come next. -/
structure Pending where
  stack : List Frame := []
  expect : Expect := .value

namespace Pending

def complete (stack : List Frame) (doc : Document) : Pending :=
  match stack with
  | [] => ⟨[], .nothing doc false⟩
  | .item before :: stack => ⟨stack, .afterItem (doc :: before)⟩
  | .member before key :: stack => ⟨stack, .afterMember (.mk key doc :: before)⟩

/-- The whole document, when nothing can be read after the given part of it. -/
def plug (doc : Document) : List Frame → Document
  | [] => doc
  | .item before :: stack => plug (.list (doc :: before).reverse .eof) stack
  | .member before key :: stack => plug (.object (.mk key doc :: before).reverse .eof) stack

/-- Nothing can be read after the given part of the document. -/
def abort (stack : List Frame) (doc : Document) : Pending :=
  ⟨[], .nothing (plug doc stack) false⟩

def onValue (stack : List Frame) : Token → Pending
  | .openList => ⟨stack, .firstItem⟩
  | .openObject => ⟨stack, .firstKey⟩
  | .null => complete stack .null
  | .bool b => complete stack (.bool b)
  | .number value => complete stack (.number value)
  | .string value => complete stack (.string value)
  | .bad value skipped => abort stack (.fault value skipped)
  | .badString value skipped => abort stack (.fault value skipped)
  | .closeList | .closeObject | .comma | .colon | .stray =>
    abort stack (.fault .expectedValue .expectedValue)

def onKey (stack : List Frame) (before : List Member) : Token → Pending
  | .string key => ⟨stack, .colon before key⟩
  | .badString value skipped => abort stack (.object before.reverse (.faultyKey value skipped))
  | _ => abort stack (.object before.reverse .badKey)

def step (p : Pending) (t : Token) : Pending :=
  match p.expect, t with
  | .value, t => onValue p.stack t
  | .firstItem, .closeList => complete p.stack (.list [] .closed)
  | .firstItem, t => onValue (.item [] :: p.stack) t
  | .afterItem before, .comma => ⟨p.stack, .nextItem before⟩
  | .afterItem before, .closeList => complete p.stack (.list before.reverse .closed)
  | .afterItem before, _ => abort p.stack (.list before.reverse .junk)
  | .nextItem before, .closeList => abort p.stack (.list before.reverse .comma)
  | .nextItem before, t => onValue (.item before :: p.stack) t
  | .firstKey, .closeObject => complete p.stack (.object [] .closed)
  | .firstKey, t => onKey p.stack [] t
  | .afterMember before, .comma => ⟨p.stack, .nextKey before⟩
  | .afterMember before, .closeObject => complete p.stack (.object before.reverse .closed)
  | .afterMember before, _ => abort p.stack (.object before.reverse .junk)
  | .nextKey before, .closeObject => abort p.stack (.object before.reverse .comma)
  | .nextKey before, t => onKey p.stack before t
  | .colon before key, .colon => ⟨.member before key :: p.stack, .value⟩
  | .colon before key, _ =>
    abort (.member before key :: p.stack) (.fault .expectedColon .expectedColon)
  | .nothing doc _, _ => ⟨[], .nothing doc true⟩

/-- The document when the text ends here, and whether something follows it. -/
def close (p : Pending) : Document × Bool :=
  match p.expect with
  | .value => (plug (.fault .eofValue .eofValue) p.stack, false)
  | .firstItem => (plug (.list [] .eof) p.stack, false)
  | .afterItem before => (plug (.list before.reverse .eof) p.stack, false)
  | .nextItem before => (plug (.list before.reverse .eofComma) p.stack, false)
  | .firstKey => (plug (.object [] .eof) p.stack, false)
  | .afterMember before => (plug (.object before.reverse .eof) p.stack, false)
  | .nextKey before => (plug (.object before.reverse .eofComma) p.stack, false)
  | .colon before key => (plug (.fault .eofObject .eofObject) (.member before key :: p.stack), false)
  | .nothing doc more => (doc, more)

end Pending

namespace Document

def ofTokens (ts : List Token) : Document × Bool :=
  (ts.foldl Pending.step {}).close

/-- The document of a text, and whether something follows it. -/
def ofText (text : String) : Document × Bool :=
  ofTokens (lex text.toList)

end Document

end TreeEdit.Json
