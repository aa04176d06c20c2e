import TreeEdit.Decimal.Float
import TreeEdit.Json.Document

/-!
# Reading values out of JSON documents

A reader takes a document and gives a value or the first fault, in the order of the text. What
counts as a fault depends on what is wanted: a document of the wrong kind is refused before anything
inside it is looked at.

A *record* is read from an object with its fields in any order, or from a list of its fields in the
order in which they are declared.
-/

namespace TreeEdit.Json

namespace Document

/-- The document in words, unless it is a fault. -/
def found : Document → Except Fault String
  | .null => .ok "null"
  | .bool b => .ok ("boolean " ++ Fault.ticked (toString b))
  | .number (.ok (.int n)) => .ok ("integer " ++ Fault.ticked (toString n))
  | .number (.ok (.float f)) => .ok ("floating point " ++ Fault.ticked (Decimal.floatText f))
  | .number (.error f) => .error f
  | .string (.ok s) => .ok ("string " ++ Text.quoted s)
  | .string (.error f) => .error f
  | .list .. => .ok "sequence"
  | .object .. => .ok "map"
  | .fault f _ => .error f

/-- Refuses a document of the wrong kind. -/
def wrongType {α : Type} (d : Document) (expected : String) : Except Fault α := do
  throw (.invalidType (← d.found) expected)

/-- Refuses a document of the right kind but with a wrong value. -/
def wrongValue {α : Type} (d : Document) (expected : String) : Except Fault α := do
  throw (.invalidValue (← d.found) expected)

/-! ## Simple values -/

/-- Reads null. -/
def readUnit : Document → Except Fault Unit
  | .null => .ok ()
  | d => d.wrongType "unit"

def readBool : Document → Except Fault Bool
  | .bool b => .ok b
  | d => d.wrongType "a boolean"

def readString : Document → Except Fault String
  | .string value => value
  | d => d.wrongType "a string"

def readOptionString : Document → Except Fault (Option String)
  | .null => .ok none
  | d => d.readString.map some

def readChar : Document → Except Fault Char
  | .string (.ok s) =>
    match s.toList with
    | [c] => .ok c
    | _ => wrongValue (.string (.ok s)) "a character"
  | d => d.wrongType "a character"

/-- Reads a number of 32 bits. -/
def readWord : Document → Except Fault Nat
  | .number (.ok (.int (.ofNat n))) =>
    if n < Nat.pow 2 32 then .ok n else wrongValue (.number (.ok (.int n))) "u32"
  | .number (.ok (.int n)) => wrongValue (.number (.ok (.int n))) "u32"
  | d => d.wrongType "u32"

/-! ## Passing over a document -/

/-- Looks at a fault only if it counts. -/
def passIf (f : Option Fault) : Except Fault Unit :=
  match f with
  | none => .ok ()
  | some f => .error f

end Document

namespace Ending

/-- The fault of a list that was read to its end. -/
def listFault? : Ending → Option Fault
  | .closed => none
  | .comma => some .trailingComma
  | .eof => some .eofList
  | .eofComma => some .eofValue
  | _ => some .expectedListCommaOrEnd

/-- The fault of a list of which no more items are wanted. -/
def listRestFault? : Ending → Option Fault
  | .closed => none
  | .comma => some .trailingComma
  | .eof => some .eofList
  | _ => some .trailingCharacters

def objectFault? : Ending → Option Fault
  | .closed => none
  | .comma => some .trailingComma
  | .eof => some .eofObject
  | .eofComma => some .eofValue
  | .junk => some .expectedObjectCommaOrEnd
  | .badKey => some .keyMustBeString
  | .faultyKey f _ => some f

/-- The fault of a list that is passed over. -/
def skippedListFault? : Ending → Option Fault
  | .comma => some .expectedValue
  | e => e.listFault?

def skippedObjectFault? : Ending → Option Fault
  | .comma => some .keyMustBeString
  | .eofComma => some .eofObject
  | .faultyKey _ f => some f
  | e => e.objectFault?

end Ending

namespace Document

mutual

/-- Reads a document of any kind to its end, where lists and objects may be `room` deep. -/
def readAny (room : Nat) : Document → Except Fault Unit
  | .null => .ok ()
  | .bool _ => .ok ()
  | .number value => value.map fun _ => ()
  | .string value => value.map fun _ => ()
  | .list items ending => do
    if room = 0 then throw .tooDeep
    readItems (room - 1) items
    passIf ending.listFault?
  | .object members ending => do
    if room = 0 then throw .tooDeep
    readMembers (room - 1) members
    passIf ending.objectFault?
  | .fault f _ => .error f

def readItems (room : Nat) : List Document → Except Fault Unit
  | [] => .ok ()
  | d :: ds => do
    d.readAny room
    readItems room ds

def readMembers (room : Nat) : List Member → Except Fault Unit
  | [] => .ok ()
  | .mk key d :: ms => do
    let _ ← key
    d.readAny room
    readMembers room ms

end

mutual

/-- Passes over a document. -/
def skip : Document → Except Fault Unit
  | .null => .ok ()
  | .bool _ => .ok ()
  | .number _ => .ok ()
  | .string _ => .ok ()
  | .list items ending => do
    skipItems items
    passIf ending.skippedListFault?
  | .object members ending => do
    skipMembers members
    passIf ending.skippedObjectFault?
  | .fault _ f => .error f

def skipItems : List Document → Except Fault Unit
  | [] => .ok ()
  | d :: ds => do
    d.skip
    skipItems ds

def skipMembers : List Member → Except Fault Unit
  | [] => .ok ()
  | .mk _ d :: ms => do
    d.skip
    skipMembers ms

end

end Document

/-! ## Records -/

/-- A record with the fields of the given names; `set` reads a field into the record. -/
structure Shape (σ : Type) where
  name : String
  fields : List String
  set : String → Document → σ → Except Fault σ
  /-- Are members with other names passed over? -/
  lenient : Bool := false

namespace Shape

variable {σ : Type} (shape : Shape σ)

/-- Reads the members of an object; `seen` are the fields that came before. -/
def readMembers (seen : List String) (record : σ) : List Member → Except Fault (List String × σ)
  | [] => .ok (seen, record)
  | .mk key d :: ms => do
    let key ← key
    if shape.fields.contains key then
      if seen.contains key then throw (.duplicateField key)
      let record ← shape.set key d record
      readMembers (key :: seen) record ms
    else if shape.lenient then
      d.skip
      readMembers seen record ms
    else throw (.unknownField key shape.fields)

/-- Reads the items of a list, one for each field; gives the fields that are left too. -/
def readItems (record : σ) : List String → List Document → Ending → Except Fault (List String × σ)
  | [], [], ending => do
    Document.passIf ending.listRestFault?
    return ([], record)
  | [], _ :: _, _ => .error .trailingCharacters
  | fields, [], ending => do
    Document.passIf ending.listFault?
    return (fields, record)
  | f :: fields, d :: ds, ending => do
    let record ← shape.set f d record
    readItems record fields ds ending

/-- Reads a record whose missing fields stay as they are in `default`. -/
def read (default : σ) : Document → Except Fault σ
  | .object members ending => do
    let (_, record) ← shape.readMembers [] default members
    Document.passIf ending.objectFault?
    return record
  | .list items ending => do
    let (_, record) ← shape.readItems default shape.fields items ending
    return record
  | d => d.wrongType ("struct " ++ shape.name)

/-- Reads a record all of whose fields have to be there. -/
def readWhole (default : σ) : Document → Except Fault σ
  | .object members ending => do
    let (seen, record) ← shape.readMembers [] default members
    Document.passIf ending.objectFault?
    match shape.fields.find? fun f => !seen.contains f with
    | some f => throw (.missingField f)
    | none => return record
  | .list items ending => do
    let (left, record) ← shape.readItems default shape.fields items ending
    if left.isEmpty then return record
    else
      let count := shape.fields.length
      throw (.invalidLength (count - left.length)
        ("struct " ++ shape.name ++ " with " ++ toString count ++ " elements"))
  | d => d.wrongType ("struct " ++ shape.name)

end Shape

def readText {α : Type} (reader : Document → Except Fault α) (text : String) : Except Fault α := do
  let (doc, more) := Document.ofText text
  let a ← reader doc
  if more then throw .trailingCharacters
  return a

end TreeEdit.Json
