import TargetView.Number.Shortest

/-!
# Number texts

A number is shown in one of two layouts.  The *display* layout is the one of values: a number
without a fraction below `10 ^ 21` is written as that integer, any other with its shortest digits
and without an exponent, and zero has no sign.  The *listing* layout is the one of constants in
parse listings: the shortest digits always, with `.0` where nothing follows the point, and an
exponent for numbers below `10 ^ -4` or from `10 ^ 16` on.
-/
namespace TargetView.Decimal

open TargetView.Binary64

/-- The digits of a numeral around its point, without an exponent; `whole` is written after a
numeral that has no fraction. -/
def positional (n : Numeral) (whole : List Char) : List Char :=
  let point := n.exponent + n.digits.length
  if 0 ≤ n.exponent then n.digits ++ List.replicate n.exponent.toNat '0' ++ whole
  else if 0 < point then n.digits.take point.toNat ++ ['.'] ++ n.digits.drop point.toNat
  else ['0', '.'] ++ List.replicate (-point).toNat '0' ++ n.digits

/-- A numeral with one digit before the point and the power of ten behind an `e`. -/
def scientific (n : Numeral) : List Char :=
  let fraction := n.digits.drop 1
  n.digits.take 1 ++ (if fraction.isEmpty then [] else '.' :: fraction) ++
    ['e'] ++ (toString n.leading).toList

/-- The sign of a negative number. -/
def sign (negative : Bool) : List Char :=
  if negative then ['-'] else []

/-- The display layout. -/
def display (x : Float) : String :=
  match decode x with
  | .nan => "NaN"
  | .infinite negative => if negative then "-Infinity" else "Infinity"
  | .finite d =>
    if d.isIntegral && decide (d.floorMagnitude < Nat.pow 10 21) then toString d.truncate
    else String.ofList (sign d.negative ++ positional (shortest d) [])

/-- The listing layout. -/
def listing (x : Float) : String :=
  match decode x with
  | .nan => "NaN"
  | .infinite negative => if negative then "-inf" else "inf"
  | .finite d =>
    let body :=
      if d.significand = 0 then ['0', '.', '0']
      else
        let n := shortest d
        if -4 ≤ n.leading && n.leading < 16 then positional n ['.', '0'] else scientific n
    String.ofList (sign d.negative ++ body)

end TargetView.Decimal
