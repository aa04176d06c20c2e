import TreeEdit.Decimal.Shortest

/-!
# Decimal text of floating-point numbers

A number is written with the fewest digits that read back: positionally, with at least one digit
after the point, when its first digit stands between the fifth place after the point and the
sixteenth before it, and otherwise with a signed exponent.
-/

namespace TreeEdit.Decimal

def Scaled.text (s : Scaled) : String :=
  let digits := Nat.toDigits 10 s.digits
  let count := digits.length
  let first := s.exponent + count - 1
  if -5 ≤ first && first ≤ 15 then
    if 0 ≤ s.exponent then
      String.ofList (digits ++ List.replicate s.exponent.toNat '0') ++ ".0"
    else if 0 ≤ first then
      let whole := (first + 1).toNat
      String.ofList (digits.take whole) ++ "." ++ String.ofList (digits.drop whole)
    else
      "0." ++ String.ofList (List.replicate (-first - 1).toNat '0' ++ digits)
  else
    String.ofList (digits.take 1)
      ++ (if count = 1 then "" else "." ++ String.ofList (digits.drop 1))
      ++ (if 0 ≤ first then "e+" else "e-") ++ toString first.natAbs

/-- The text of the number with the given bits of a 64-bit floating-point format. -/
def textOfBits (bits : Nat) : String :=
  let sign := if bits / Nat.pow 2 63 = 0 then "" else "-"
  let exponent : Nat := bits / Nat.pow 2 52 % Nat.pow 2 11
  let fraction : Nat := bits % Nat.pow 2 52
  if exponent = 2047 then (if fraction = 0 then sign ++ "inf" else "NaN")
  else if exponent = 0 then
    if fraction = 0 then sign ++ "0.0" else sign ++ (shortest fraction (-1074) false).text
  else
    sign ++ (shortest (fraction + Nat.pow 2 52) ((exponent : Int) - 1075)
      (fraction = 0 && exponent != 1)).text

def floatText (f : Float) : String :=
  textOfBits f.toBits.toNat

end TreeEdit.Decimal
