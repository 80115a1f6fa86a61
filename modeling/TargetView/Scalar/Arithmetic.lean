import TargetView.Scalar
import TargetView.Scalar.Operator

/-!
# Arithmetic on scalars

The one meaning of every operator, used when constants are folded and when expressions are
evaluated.

* If an operand is a 64-bit integer, the operation is 64-bit arithmetic with wrap-around;
  otherwise it is binary64 arithmetic.
* `+` with a text operand joins the display texts.
* Bitwise operators and shifts of numbers go through 32-bit integers.
* Comparisons and logical operators answer one or zero.
* Division and remainder by zero fail in both domains.
-/
namespace TargetView

/-- The two ways in which an operator can fail. -/
inductive ArithmeticFault where
  | divisionByZero
  | moduloByZero
  deriving DecidableEq, Repr

/-- The wording of a failure. -/
def ArithmeticFault.message : ArithmeticFault → String
  | .divisionByZero => "division by zero"
  | .moduloByZero => "modulo by zero"

namespace Word

/-! ### Shifts of 64-bit integers by any count -/

/-- All bits moved up by `n` places. -/
def up (a : Int64) (n : Nat) : Int64 :=
  if n < 64 then a <<< Int64.ofNat n else 0

/-- All bits moved down by `n` places, with copies of the sign bit from above. -/
def down (a : Int64) (n : Nat) : Int64 :=
  if n < 64 then a >>> Int64.ofNat n else if a < 0 then -1 else 0

/-- All bits moved down by `n` places, with zeros from above. -/
def downUnsigned (a : Int64) (n : Nat) : Int64 :=
  if n < 64 then (a.toUInt64 >>> UInt64.ofNat n).toInt64 else 0

/-- The distance of a shift, which is the magnitude of its count. -/
def distance (count : Int64) : Nat := count.toInt.natAbs

/-- Shift to the left; a negative count shifts to the right. -/
def shiftLeft (a count : Int64) : Int64 :=
  if count < 0 then down a (distance count) else up a (distance count)

/-- Arithmetic shift to the right; a negative count shifts to the left. -/
def shiftRight (a count : Int64) : Int64 :=
  if count < 0 then up a (distance count) else down a (distance count)

/-- Logical shift to the right; a negative count shifts to the left. -/
def shiftRightUnsigned (a count : Int64) : Int64 :=
  if count < 0 then up a (distance count) else downUnsigned a (distance count)

/-- A binary operator on 64-bit integers.  Comparisons and logical operators are answered before
and stand for zero here. -/
def binary (op : BinaryOp) (a b : Int64) : Except ArithmeticFault Int64 :=
  match op with
  | .mul => .ok (a * b)
  | .div => if b = 0 then .error .divisionByZero else .ok (a / b)
  | .mod => if b = 0 then .error .moduloByZero else .ok (a % b)
  | .add => .ok (a + b)
  | .sub => .ok (a - b)
  | .shl => .ok (shiftLeft a b)
  | .shr => .ok (shiftRight a b)
  | .ushr => .ok (shiftRightUnsigned a b)
  | .bitAnd => .ok (a &&& b)
  | .bitXor => .ok (a ^^^ b)
  | .bitOr => .ok (a ||| b)
  | .lt | .le | .gt | .ge | .eq | .ne | .and | .or => .ok 0

end Word

namespace Number

/-- The number of a signed 32-bit integer. -/
def ofInt32 (v : Int32) : Float := Binary64.ofInt v.toInt

/-- The count of a shift of 32-bit integers: its last five bits. -/
def count32 (x : Float) : UInt32 := Binary64.toUInt32 x &&& 31

/-- A binary operator on binary64 numbers.  Comparisons and logical operators are answered before
and stand for zero here. -/
def binary (op : BinaryOp) (a b : Float) : Except ArithmeticFault Float :=
  match op with
  | .mul => .ok (a * b)
  | .div => if b == 0 then .error .divisionByZero else .ok (a / b)
  | .mod => if b == 0 then .error .moduloByZero else .ok (Binary64.remainder a b)
  | .add => .ok (a + b)
  | .sub => .ok (a - b)
  | .shl => .ok (ofInt32 (Binary64.toInt32 a <<< (count32 b).toInt32))
  | .shr => .ok (ofInt32 (Binary64.toInt32 a >>> (count32 b).toInt32))
  | .ushr => .ok (Binary64.ofNat (Binary64.toUInt32 a >>> count32 b).toNat)
  | .bitAnd => .ok (ofInt32 (Binary64.toInt32 a &&& Binary64.toInt32 b))
  | .bitXor => .ok (ofInt32 (Binary64.toInt32 a ^^^ Binary64.toInt32 b))
  | .bitOr => .ok (ofInt32 (Binary64.toInt32 a ||| Binary64.toInt32 b))
  | .lt | .le | .gt | .ge | .eq | .ne | .and | .or => .ok 0

end Number

namespace Scalar

/-- The order of an integer and a number.  A number without a fraction whose magnitude stays below
`9.2 · 10 ^ 18` is compared as an integer, any other with the rounded integer. -/
def orderIntNumber (a : Int64) (b : Float) : Option Ordering :=
  match Binary64.integer? b with
  | some n =>
    if n.natAbs < 9200000000000000000 then some (compare a.toInt n)
    else Binary64.order (Binary64.ofInt a.toInt) b
  | none => Binary64.order (Binary64.ofInt a.toInt) b

/-- The order of two scalars: texts by code points, integers as integers, everything else by the
numeric readings, where not-a-number has no order. -/
def order : Scalar → Scalar → Option Ordering
  | .text a, .text b => some (compare a b)
  | .int a, .int b => some (compare a.toInt b.toInt)
  | .int a, .number b => orderIntNumber a b
  | .number a, .int b => (orderIntNumber b a).map Ordering.swap
  | a, b => Binary64.order a.toNumber b.toNumber

/-- Whether a comparison operator accepts an order.  Without an order only `!=` holds. -/
def accepts (op : BinaryOp) : Option Ordering → Bool
  | none => op == .ne
  | some o =>
    match op with
    | .lt => o == .lt
    | .le => o != .gt
    | .gt => o == .gt
    | .ge => o != .lt
    | .eq => o == .eq
    | _ => o != .eq

/-- A comparison of two scalars. -/
def compareBy (op : BinaryOp) (a b : Scalar) : Scalar :=
  ofBool (accepts op (order a b))

/-- An operator before its operand. -/
def unary (op : UnaryOp) (s : Scalar) : Scalar :=
  match op, s with
  | .plus, .int v => .int v
  | .plus, s => .number s.toNumber
  | .neg, .int v => .int (-v)
  | .neg, s => .number (-s.toNumber)
  | .not, s => ofBool !s.isTrue
  | .bitNot, .int v => .int (~~~v)
  | .bitNot, s => .number (Number.ofInt32 (~~~(Binary64.toInt32 s.toNumber)))

/-- The arithmetic operators: 64-bit if an operand is a 64-bit integer, binary64 otherwise. -/
def arithmetic (op : BinaryOp) (a b : Scalar) : Except ArithmeticFault Scalar :=
  if a.isInt || b.isInt then (Word.binary op a.toInt b.toInt).map .int
  else (Number.binary op a.toNumber b.toNumber).map .number

/-- An operator between two operands whose values are known. -/
def binary (op : BinaryOp) (a b : Scalar) : Except ArithmeticFault Scalar :=
  match op with
  | .and => .ok (ofBool (a.isTrue && b.isTrue))
  | .or => .ok (ofBool (a.isTrue || b.isTrue))
  | .lt | .le | .gt | .ge | .eq | .ne => .ok (compareBy op a b)
  | .add =>
    if a.isText || b.isText then .ok (.text (a.display ++ b.display)) else arithmetic .add a b
  | op => arithmetic op a b

end Scalar
end TargetView
