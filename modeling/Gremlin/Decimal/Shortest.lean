import Gremlin.Decimal.Double

/-!
# Shortest decimals

The decimal written for a finite number is the shortest one that reads back as the number,
and among those the nearest. Everything is exact arithmetic on natural numbers: a number and
the ends of the interval that rounds to it are counted in quarters of its last binary place,
and compared with points of a decimal grid. Which way an exact tie goes is left to the caller.
-/

namespace Gremlin

/-- A positive decimal `coefficient * 10 ^ scale`. -/
structure Decimal where
  coefficient : Nat
  scale : Int
deriving DecidableEq

/-- Where a number halfway between two decimals goes. -/
inductive Tie where
  | up
  | toEven
deriving DecidableEq

namespace Decimal

/-- The digits of the coefficient, first digit first. -/
def digits (d : Decimal) : List Char := Nat.toDigits 10 d.coefficient

/-- The power of ten of the first digit. -/
def leading (d : Decimal) : Int := d.scale + d.digits.length - 1

/-- The same decimal without trailing zeros in the coefficient, at most `n` of them. -/
def trimmed : Nat → Decimal → Decimal
  | 0, d => d
  | n + 1, d =>
    if d.coefficient % 10 = 0 then trimmed n ⟨d.coefficient / 10, d.scale + 1⟩ else d

end Decimal

/-- A non-negative fraction. -/
structure Fraction where
  num : Nat
  den : Nat

namespace Fraction

/-- The fraction `n * 2 ^ e`. -/
def ofBinary (n : Nat) (e : Int) : Fraction :=
  if 0 ≤ e then ⟨n * Nat.pow 2 e.toNat, 1⟩ else ⟨n, Nat.pow 2 (-e).toNat⟩

/-- The fraction measured in units of `10 ^ k`. -/
def inUnits (r : Fraction) (k : Int) : Fraction :=
  if 0 ≤ k then ⟨r.num, r.den * Nat.pow 10 k.toNat⟩ else ⟨r.num * Nat.pow 10 (-k).toNat, r.den⟩

def floor (r : Fraction) : Nat := r.num / r.den

/-- The power of ten of the first digit of a positive fraction. -/
def leading (r : Fraction) : Int :=
  if r.den ≤ r.num then (Nat.toDigits 10 r.floor).length - 1
  else
    let k := (Nat.toDigits 10 r.den).length - (Nat.toDigits 10 r.num).length
    if r.den ≤ r.num * Nat.pow 10 k then -(k : Int) else -(k : Int) - 1

end Fraction

namespace Double

/-- The rounding interval of a finite number, in quarters of its last place: the lower end, the
number itself and the upper end. Below a power of two the neighbour is nearer. -/
def quarters (x : Double) : Nat × Nat × Nat :=
  let middle := 4 * x.significand
  let below := if x.fractionField = 0 ∧ 1 < x.exponentField then 1 else 2
  (middle - below, middle, middle + 2)

/-- The point of the grid of multiples of `10 ^ k` that is nearest to `x` among those that read
back as `x`, if there is one. The ends of the interval belong to it when the significand is
even. -/
def onGrid (tie : Tie) (x : Double) (k : Int) : Option Decimal :=
  let (low, middle, high) := x.quarters
  let measure := fun n => (Fraction.ofBinary n (x.exponent - 2)).inUnits k
  let value := measure middle
  let ends := x.significand % 2 = 0
  let readsBack := fun c =>
    let point := c * value.den
    ((measure low).num < point || (ends && (measure low).num = point)) &&
      (point < (measure high).num || (ends && point = (measure high).num))
  let floor := value.floor
  let rest := value.num - floor * value.den
  let upper :=
    value.den < 2 * rest ||
      (2 * rest = value.den && (tie = .up || floor % 2 = 1))
  match readsBack floor, readsBack (floor + 1) with
  | true, true => some ⟨if upper then floor + 1 else floor, k⟩
  | true, false => some ⟨floor, k⟩
  | false, true => some ⟨floor + 1, k⟩
  | false, false => none

/-- The shortest decimal that reads back as the positive finite `x`: the first of the grids with
one, two, … seventeen digits that has a point. -/
def shortest (tie : Tie) (x : Double) : Decimal :=
  let top := (Fraction.ofBinary x.significand x.exponent).leading
  let found := (List.range 17).findSome? fun (n : Nat) => x.onGrid tie (top - n)
  (found.getD ⟨x.significand, 0⟩).trimmed 20

end Double

end Gremlin
