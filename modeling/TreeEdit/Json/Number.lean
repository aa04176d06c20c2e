import TreeEdit.Json.Fault

/-!
# Numbers in JSON texts

A number without fraction and exponent is an integer if it fits into 64 bits, signed or not, but
minus zero is not one. Every other number is read as floating point: as many leading digits as fit
into 64 bits, scaled by a power of ten.
-/

namespace TreeEdit.Json

inductive Number where
  | int (value : Int)
  | float (value : Float)

/-- Something that was cut off the front of a text. A text may be faulty and still be passed over by
a reader that does not look at its value: `value` is for readers that do, `skipped` for others. -/
structure Cut (α : Type) where
  value : Except Fault α
  skipped : Except Fault Unit
  rest : List Char

/-- A fault for all readers. -/
def Cut.fault {α : Type} (f : Fault) (rest : List Char) : Cut α :=
  ⟨.error f, .error f, rest⟩

theorem length_dropWhile_le (p : Char → Bool) (cs : List Char) :
    (cs.dropWhile p).length ≤ cs.length :=
  (List.dropWhile_suffix p).length_le

namespace Number

/-- The digits in front of a text, and what follows. -/
def digits (cs : List Char) : List Char × List Char :=
  (cs.takeWhile Char.isDigit, cs.dropWhile Char.isDigit)

/-- The number that decimal digits stand for. -/
def natOf (ds : List Char) : Nat :=
  ds.foldl (fun n c => 10 * n + (c.toNat - '0'.toNat)) 0

/-- The greatest number of 64 bits. -/
def maxWord : Nat := Nat.pow 2 64 - 1

/-- Leading digits as a number of 64 bits, and the power of ten that it is to be scaled by. -/
structure Significand where
  value : Nat := 0
  exponent : Int := 0
  full : Bool := false

/-- Takes on a digit before the point. -/
def Significand.whole (s : Significand) (c : Char) : Significand :=
  let next := 10 * s.value + (c.toNat - '0'.toNat)
  if s.full || maxWord < next then { s with exponent := s.exponent + 1, full := true }
  else { s with value := next }

/-- Takes on a digit after the point. -/
def Significand.fraction (s : Significand) (c : Char) : Significand :=
  let next := 10 * s.value + (c.toNat - '0'.toNat)
  if s.full || maxWord < next then { s with full := true }
  else { s with value := next, exponent := s.exponent - 1 }

/-- Divides by a power of ten, in steps that floating point can hold. -/
def scaleDown (f : Float) (n : Nat) : Nat → Float
  | 0 => 0
  | k + 1 =>
    if n ≤ 308 then f / Float.ofScientific 1 false n
    else if f == 0 then f
    else scaleDown (f / 1e308) (n - 308) k

def toFloat (s : Significand) : Except Fault Float :=
  let f := Float.ofNat s.value
  if 0 ≤ s.exponent then
    if s.exponent ≤ 308 then
      let g := f * Float.ofScientific 1 false s.exponent.toNat
      if g.isInf then .error .numberOutOfRange else .ok g
    else if f == 0 then .ok f
    else .error .numberOutOfRange
  else .ok (scaleDown f s.exponent.natAbs 4)

/-- The number with the given parts: the digits before and after the point, and the exponent. -/
def ofParts (negative : Bool) (whole fraction : List Char) (exponent : Int) :
    Except Fault Number := do
  let s := fraction.foldl Significand.fraction
    { whole.foldl Significand.whole {} with full := false }
  let f ← toFloat { s with exponent := s.exponent + exponent }
  return .float (if negative then -f else f)

def ofWhole (negative : Bool) (whole : List Char) : Except Fault Number :=
  let n := natOf whole
  if negative then
    if 0 < n && n ≤ Nat.pow 2 63 then .ok (.int (-n)) else ofParts true whole [] 0
  else if n ≤ maxWord then .ok (.int n)
  else ofParts false whole [] 0

/-- A fault where digits are missing: a reader of the value tells the end of the text apart. -/
def missing (rest : List Char) : Cut Number :=
  ⟨.error (if rest.isEmpty then .eofValue else .invalidNumber), .error .invalidNumber, rest⟩

def cutExponent (negative : Bool) (whole fraction : List Char) (cs : List Char) : Cut Number :=
  let (down, cs) := match cs with
    | '+' :: cs => (false, cs)
    | '-' :: cs => (true, cs)
    | cs => (false, cs)
  match digits cs with
  | ([], rest) => missing rest
  | (ds, rest) =>
    let e : Int := natOf ds
    ⟨ofParts negative whole fraction (if down then -e else e), .ok (), rest⟩

/-- Cuts off what follows the digits before the point. -/
def cutTail (negative : Bool) (whole : List Char) (cs : List Char) : Cut Number :=
  match cs with
  | '.' :: cs =>
    match digits cs with
    | ([], rest) => missing rest
    | (fraction, 'e' :: rest) => cutExponent negative whole fraction rest
    | (fraction, 'E' :: rest) => cutExponent negative whole fraction rest
    | (fraction, rest) => ⟨ofParts negative whole fraction 0, .ok (), rest⟩
  | 'e' :: rest => cutExponent negative whole [] rest
  | 'E' :: rest => cutExponent negative whole [] rest
  | rest => ⟨ofWhole negative whole, .ok (), rest⟩

/-- Cuts a number off the front of a text, after its sign. -/
def cut (negative : Bool) (cs : List Char) : Cut Number :=
  match digits cs with
  | ([], rest) => missing rest
  | ('0' :: _ :: _, rest) => .fault .invalidNumber rest
  | (whole, rest) => cutTail negative whole rest

theorem length_cutExponent_le (negative : Bool) (whole fraction cs : List Char) :
    (cutExponent negative whole fraction cs).rest.length ≤ cs.length := by
  have := length_dropWhile_le Char.isDigit
  unfold cutExponent digits missing
  grind

theorem length_cutTail_le (negative : Bool) (whole cs : List Char) :
    (cutTail negative whole cs).rest.length ≤ cs.length := by
  have := length_dropWhile_le Char.isDigit
  have := length_cutExponent_le
  unfold cutTail digits missing
  grind

theorem length_cut_le (negative : Bool) (cs : List Char) :
    (cut negative cs).rest.length ≤ (cs.dropWhile Char.isDigit).length := by
  have := length_cutTail_le
  unfold cut digits missing Cut.fault
  grind

end Number

end TreeEdit.Json
