/-!
# The shortest decimal of a binary number

A positive binary number `m · 2^q` with its neighbours stands for the reals that round to it: those
nearer to it than to either neighbour, and the midpoints too when `m` is even. `shortest` finds the
decimal with the fewest digits among them, and of those the nearest. All arithmetic is exact.
-/

namespace TreeEdit.Decimal

/-- A positive number and the ends of the interval that rounds to it, over one denominator. -/
structure Interval where
  low : Nat
  value : Nat
  high : Nat
  denominator : Nat
  /-- Do the ends belong to the interval? -/
  closed : Bool

/-- The interval of `m · 2^q`. Below the least number of a binade the neighbour is only half as far;
`narrow` says that `m` is this number. -/
def Interval.ofBinary (m : Nat) (q : Int) (narrow : Bool) : Interval :=
  let scale := Nat.pow 2 (q - 2).toNat
  { low := (if narrow then 4 * m - 1 else 4 * m - 2) * scale
    value := 4 * m * scale
    high := (4 * m + 2) * scale
    denominator := Nat.pow 2 (2 - q).toNat
    closed := m % 2 == 0 }

/-- The number `digits · 10^exponent`. -/
structure Scaled where
  digits : Nat
  exponent : Int
  deriving DecidableEq, Repr

/-- A scaled number as a numerator over `i.denominator` times the second number. -/
def Scaled.over (s : Scaled) (i : Interval) : Nat × Nat :=
  (s.digits * Nat.pow 10 s.exponent.toNat * i.denominator, Nat.pow 10 (-s.exponent).toNat)

def Interval.contains (i : Interval) (s : Scaled) : Bool :=
  let (n, d) := s.over i
  if i.closed then i.low * d ≤ n && n ≤ i.high * d else i.low * d < n && n < i.high * d

/-- How far the number is from the middle, over the denominator that belongs to its exponent. -/
def Interval.distance (i : Interval) (s : Scaled) : Nat :=
  let (n, d) := s.over i
  (n - i.value * d) + (i.value * d - n)

/-- The greatest multiple of `10^exponent` that is not above the middle. -/
def Interval.below (i : Interval) (exponent : Int) : Scaled :=
  ⟨i.value * Nat.pow 10 (-exponent).toNat / (i.denominator * Nat.pow 10 exponent.toNat), exponent⟩

/-- The best of the two multiples of `10^exponent` around the middle, if one is in the interval. -/
def Interval.best? (i : Interval) (exponent : Int) : Option Scaled :=
  let a := i.below exponent
  let b : Scaled := ⟨a.digits + 1, exponent⟩
  match i.contains a, i.contains b with
  | true, true =>
    if i.distance a < i.distance b then some a
    else if i.distance b < i.distance a then some b
    else if a.digits % 2 == 0 then some a else some b
  | true, false => some a
  | false, true => some b
  | false, false => none

/-- The first hit on finer and finer grids. -/
def Interval.search (i : Interval) (exponent : Int) : Nat → Scaled
  | 0 => i.below exponent
  | n + 1 =>
    match i.best? exponent with
    | some s => s
    | none => i.search (exponent - 1) n

/-- A scaled number without trailing zeros. -/
def Scaled.trim (s : Scaled) : Nat → Scaled
  | 0 => s
  | n + 1 =>
    if s.digits % 10 == 0 && s.digits != 0 then Scaled.trim ⟨s.digits / 10, s.exponent + 1⟩ n else s

/-- The shortest decimal in the interval of `m · 2^q`. The grids from `10^310` down to `10^(-340)`
are enough for all numbers of 64-bit floating point. -/
def shortest (m : Nat) (q : Int) (narrow : Bool) : Scaled :=
  ((Interval.ofBinary m q narrow).search 310 650).trim 650

end TreeEdit.Decimal
