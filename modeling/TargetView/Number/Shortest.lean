import TargetView.Number.Binary64

/-!
# The shortest decimal that reads back

Every real number of an interval around a binary64 number rounds to it.  The interval reaches half
way to both neighbours, and its ends belong to it exactly when the significand is even.
`shortest` looks at the multiples of `10 ^ e` next to the number, for coarser `e` first, and takes
the first grid that has a point in the interval; of two such points it takes the nearer one and,
at equal distance, the upper one.

All of it is arithmetic on natural numbers: the interval is given by numerators over one common
denominator.
-/
namespace TargetView.Decimal

open TargetView.Binary64

/-- A numeral: its digits, of which the last is not zero, stand for an integer that is multiplied
by `10 ^ exponent`. -/
structure Numeral where
  digits : List Char
  exponent : Int
  deriving DecidableEq, Repr, Inhabited

namespace Numeral

/-- The numeral of `n · 10 ^ exponent`, without trailing zeros. -/
def ofNat (n : Nat) (exponent : Int) : Numeral :=
  let reversed := (Nat.toDigits 10 n).reverse
  let zeros := (reversed.takeWhile (· == '0')).length
  ⟨(reversed.drop zeros).reverse, exponent + zeros⟩

/-- The power of ten for which the first digit stands. -/
def leading (d : Numeral) : Int :=
  d.exponent + d.digits.length - 1

end Numeral

/-- The reals that round to one positive number, as numerators over `denominator`. -/
structure Interval where
  low : Nat
  value : Nat
  high : Nat
  denominator : Nat
  /-- Whether the two ends belong to the interval. -/
  closed : Bool

namespace Interval

/-- The interval of `significand · 2 ^ exponent`.  Below a power of two the neighbours are half as
far apart, so the lower half is half as long there. -/
def around (d : Parts) : Interval :=
  let unit := 1 <<< (d.exponent - 2).toNat
  let short := d.significand == 1 <<< 52 && decide (-1074 < d.exponent)
  { low := (4 * d.significand - if short then 1 else 2) * unit
    value := 4 * d.significand * unit
    high := (4 * d.significand + 2) * unit
    denominator := 1 <<< (2 - d.exponent).toNat
    closed := d.significand % 2 == 0 }

/-- The interval measured in units of `10 ^ e`. -/
def rescale (r : Interval) (e : Int) : Interval :=
  let up := Nat.pow 10 (-e).toNat
  { r with
    low := r.low * up
    value := r.value * up
    high := r.high * up
    denominator := r.denominator * Nat.pow 10 e.toNat }

/-- Whether the integer `k` lies in the interval. -/
def contains (r : Interval) (k : Nat) : Bool :=
  let point := k * r.denominator
  if r.closed then r.low ≤ point && point ≤ r.high else r.low < point && point < r.high

/-- The integer of the interval next to the value, the upper one at equal distance. -/
def nearest? (r : Interval) : Option Nat :=
  let below := r.value / r.denominator
  let above := below + 1
  if r.contains below then
    if r.contains above &&
        above * r.denominator - r.value ≤ r.value - below * r.denominator then some above
    else some below
  else if r.contains above then some above
  else none

/-- The exponent `k` with `10 ^ (k - 1) ≤ value < 10 ^ k`. -/
def magnitude (r : Interval) : Int :=
  if r.denominator ≤ r.value then (Nat.toDigits 10 (r.value / r.denominator)).length
  else 1 - Int.ofNat (Nat.toDigits 10 ((r.denominator - 1) / r.value)).length

end Interval

/-- The shortest numeral that rounds to a positive number.  Seventeen digits are enough for every
binary64 number. -/
def shortest (d : Parts) : Numeral :=
  let r := Interval.around d
  let k := r.magnitude
  let found := (List.range 17).findSome? fun n =>
    let e := k - (n + 1 : Nat)
    (r.rescale e).nearest?.map (Numeral.ofNat · e)
  found.getD (Numeral.ofNat d.floorMagnitude 0)

end TargetView.Decimal
