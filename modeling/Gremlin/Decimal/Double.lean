/-!
# Double-precision numbers

A number is kept as its 64-bit pattern, so that telling two numbers apart is telling two
patterns apart. `sameNumber` is the comparison of arithmetic, in which no number equals a
not-a-number and the two zeros are one. A finite number stands for
`significand * 2 ^ exponent`, up to its sign.
-/

namespace Gremlin

/-- A double-precision number, given by its bit pattern. -/
structure Double where
  bits : UInt64
deriving DecidableEq, Inhabited

namespace Double

/-- The sign bit is set. -/
def isNegative (x : Double) : Bool := Nat.pow 2 63 ≤ x.bits.toNat

/-- The eleven exponent bits. -/
def exponentField (x : Double) : Nat := x.bits.toNat / Nat.pow 2 52 % Nat.pow 2 11

/-- The fifty-two fraction bits. -/
def fractionField (x : Double) : Nat := x.bits.toNat % Nat.pow 2 52

def isFinite (x : Double) : Bool := x.exponentField != 2047

def isNaN (x : Double) : Bool := x.exponentField == 2047 && x.fractionField != 0

def isZero (x : Double) : Bool := x.exponentField == 0 && x.fractionField == 0

/-- The integer part of the finite magnitude `significand * 2 ^ exponent`. -/
def significand (x : Double) : Nat :=
  if x.exponentField = 0 then x.fractionField else Nat.pow 2 52 + x.fractionField

/-- The power of two of the finite magnitude `significand * 2 ^ exponent`. -/
def exponent (x : Double) : Int := (max 1 x.exponentField : Nat) - 1075

/-- Equality of arithmetic: a not-a-number equals nothing, and the two zeros are equal. -/
def sameNumber (x y : Double) : Bool :=
  !x.isNaN && !y.isNaN && (x == y || (x.isZero && y.isZero))

/-- The number nearest to a natural number; halfway cases go to the even pattern. -/
def ofNat (n : Nat) : Double :=
  if n = 0 then ⟨0⟩
  else
    let top := n.log2
    let rounded :=
      if top ≤ 52 then n * Nat.pow 2 (52 - top)
      else
        let unit := Nat.pow 2 (top - 52)
        let whole := n / unit
        let rest := n % unit
        if unit < 2 * rest || (2 * rest = unit && whole % 2 = 1) then whole + 1 else whole
    -- a carry out of the fraction runs into the exponent, where it belongs
    let pattern := (top + 1023) * Nat.pow 2 52 + (rounded - Nat.pow 2 52)
    ⟨UInt64.ofNat (min pattern (2047 * Nat.pow 2 52))⟩

end Double

end Gremlin
