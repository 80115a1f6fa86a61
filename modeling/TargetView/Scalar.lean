import TargetView.Number.Layout
import TargetView.Number.Reading

/-!
# Scalars

A scalar is a constant of the expression language: a binary64 number, a 64-bit integer, or a text.
There are no Booleans; comparisons answer with the numbers one and zero.  Every scalar has a
numeric reading, an integer reading, a truth value and a display text.
-/
namespace TargetView

/-- A constant value. -/
inductive Scalar where
  | number (x : Float)
  | int (v : Int64)
  | text (s : String)
  deriving DecidableEq, Inhabited

namespace Scalar

/-- The numbers one and zero, as truth values. -/
def ofBool (b : Bool) : Scalar :=
  .number (if b then 1 else 0)

/-- The numeric reading; a text that is no number reads as not-a-number. -/
def toNumber : Scalar → Float
  | .number x => x
  | .int v => Binary64.ofInt v.toInt
  | .text s => Number.ofText s

/-- The integer reading: numbers lose their fraction and are moved into the range. -/
def toInt : Scalar → Int64
  | .number x => Binary64.toInt64 x
  | .int v => v
  | .text s => Binary64.toInt64 (Number.ofText s)

/-- Non-zero numbers and non-empty texts hold; not-a-number does not. -/
def isTrue : Scalar → Bool
  | .number x => !(x == 0) && !x.isNaN
  | .int v => v != 0
  | .text s => !s.isEmpty

/-- The display text. -/
def display : Scalar → String
  | .number x => Decimal.display x
  | .int v => toString v.toInt
  | .text s => s

/-- The text of a text scalar. -/
def text? : Scalar → Option String
  | .text s => some s
  | _ => none

/-- Whether the scalar is a text. -/
def isText (s : Scalar) : Bool := s.text?.isSome

/-- Whether the scalar is a 64-bit integer. -/
def isInt : Scalar → Bool
  | .int _ => true
  | _ => false

/-- The largest integer up to which binary64 numbers hold every integer. -/
def maxExact : Nat := 1 <<< 53

/-- A 64-bit word as a scalar: a number if it is at most `maxExact`, otherwise the integer with
the same bits. -/
def ofWord (w : UInt64) : Scalar :=
  if w.toNat ≤ maxExact then .number (Binary64.ofNat w.toNat) else .int w.toInt64

/-- A signed 64-bit integer as a scalar: a number if its magnitude is at most `maxExact`,
otherwise the integer itself. -/
def ofInt64 (v : Int64) : Scalar :=
  if v.toInt.natAbs ≤ maxExact then .number (Binary64.ofInt v.toInt) else .int v

@[simp] theorem isTrue_ofBool (b : Bool) : (ofBool b).isTrue = b := by
  cases b <;> decide

end Scalar
end TargetView
