import Gremlin.Decimal.Shortest

/-!
# Layouts of decimals

A layout says how the shortest decimal of a finite number is written: which numbers are written
positionally, how an exponent is marked and where a tie goes. A positional number always has a
fraction; the digits in front of an exponent have one only if there is more than one digit.
-/

namespace Gremlin

/-- The decisions of a number format. -/
structure Layout where
  /-- Powers of ten of the first digit that are written positionally, from … -/
  lowest : Int
  /-- … up to and including. -/
  highest : Int
  /-- The mark in front of a non-negative exponent. -/
  plus : String
  tie : Tie

namespace Layout

/-- Digits with a point, where the first digit stands for `10 ^ leading`. -/
def positional (digits : List Char) (leading : Int) : String :=
  if leading < 0 then
    "0." ++ String.ofList (List.replicate (-leading - 1).toNat '0' ++ digits)
  else
    let whole := leading.toNat + 1
    let fraction := digits.drop whole
    String.ofList (digits.take whole ++ List.replicate (whole - digits.length) '0') ++ "." ++
      (if fraction.isEmpty then "0" else String.ofList fraction)

/-- One digit, a fraction if there are more, and the exponent. -/
def scientific (plus : String) (digits : List Char) (leading : Int) : String :=
  let fraction := digits.drop 1
  String.ofList (digits.take 1) ++
    (if fraction.isEmpty then "" else "." ++ String.ofList fraction) ++ "e" ++
    (if leading < 0 then "-" else plus) ++ toString leading.natAbs

/-- The text of a finite number. -/
def write (layout : Layout) (x : Double) : String :=
  let d := x.shortest layout.tie
  (if x.isNegative then "-" else "") ++
    if x.isZero then "0.0"
    else if layout.lowest ≤ d.leading ∧ d.leading ≤ layout.highest then
      positional d.digits d.leading
    else scientific layout.plus d.digits d.leading

/-- Numbers in scripts: positional from `0.0001` to below `1e16`, ties upwards. -/
def script : Layout := ⟨-4, 15, "", .up⟩

/-- Numbers in JSON: positional from `0.00001` to below `1e+16`, ties to the even digit. -/
def json : Layout := ⟨-5, 15, "+", .toEven⟩

end Layout

/-- The text of any number in a script; a not-a-number shows no sign. -/
def Double.text (x : Double) : String :=
  if x.isNaN then "NaN"
  else if x.isFinite then Layout.script.write x
  else if x.isNegative then "-inf" else "inf"

end Gremlin
