import TargetView.Scalar

/-!
# Number literals

A number literal is a decimal number, or an integer behind `0x`, `0b` or `0o`.  Underscores
separate groups of digits, and the letters `u` and `l` at the end have no meaning.  Integers up to
`2 ^ 53` are numbers, larger ones keep their 64 bits, and decimal integers beyond 64 bits are
rounded.
-/
namespace TargetView

/-- The value of a number literal. -/
inductive Literal where
  | float (x : Float)
  | int (v : Int64)
  deriving DecidableEq, Inhabited

/-- Why a text is no number literal. -/
inductive LiteralFault where
  /-- There is no digit behind the base. -/
  | missingDigits
  /-- A digit is outside the base, or the fraction or exponent is malformed. -/
  | invalidDigit
  /-- The integer does not fit in 64 bits. -/
  | overflow
  deriving DecidableEq, Repr

/-- The wording of a fault. -/
def LiteralFault.message : LiteralFault → String
  | .missingDigits => "missing digits after radix prefix"
  | .invalidDigit => "invalid digit in number literal"
  | .overflow => "integer literal does not fit in 64 bits"

namespace Literal

/-- The literal as a constant. -/
def toScalar : Literal → Scalar
  | .float x => .number x
  | .int v => .int v

/-- The literal of an integer below `2 ^ 64`. -/
def ofNat (n : Nat) : Literal :=
  if n ≤ Scalar.maxExact then .float (Binary64.ofNat n) else .int (Int64.ofNat n)

/-- The letters that may follow an integer. -/
def isSuffix (c : Char) : Bool :=
  c == 'u' || c == 'U' || c == 'l' || c == 'L'

/-- The characters without the suffix and the separators. -/
def clean (cs : List Char) : List Char :=
  (cs.reverse.dropWhile isSuffix).reverse.filter (· != '_')

/-- The base that the first two characters announce, and the digits behind them. -/
def splitBase : List Char → Option (Nat × List Char)
  | '0' :: c :: digits =>
    if c == 'x' || c == 'X' then some (16, digits)
    else if c == 'b' || c == 'B' then some (2, digits)
    else if c == 'o' || c == 'O' then some (8, digits)
    else none
  | _ => none

/-- The literal of digits behind a base. -/
def ofBased (base : Nat) (digits : List Char) : Except LiteralFault Literal :=
  match Number.readUnsigned base UInt64.size digits with
  | .ok n => .ok (ofNat n)
  | .error .empty => .error .missingDigits
  | .error .overflow => .error .overflow
  | .error .invalidDigit => .error .invalidDigit

/-- The literal of a decimal number that is rounded. -/
def ofRounded (cs : List Char) : Except LiteralFault Literal :=
  match Number.readDecimal cs with
  | some x => .ok (.float x)
  | none => .error .invalidDigit

/-- Whether a character belongs to a fraction or an exponent. -/
def isFractionMark (c : Char) : Bool := c == '.' || c == 'e' || c == 'E'

/-- The literal of a decimal number. -/
def ofDecimal (cs : List Char) : Except LiteralFault Literal :=
  if cs.any isFractionMark then ofRounded cs
  else
    match Number.readUnsigned 10 UInt64.size cs with
    | .ok n => .ok (ofNat n)
    | .error .overflow => ofRounded cs
    | .error _ => .error .invalidDigit

/-- The literal that characters denote. -/
def decodeChars (cs : List Char) : Except LiteralFault Literal :=
  let cleaned := clean cs
  match splitBase cleaned with
  | some (base, digits) => ofBased base digits
  | none => ofDecimal cleaned

/-- The literal that a text denotes. -/
def decode (text : String) : Except LiteralFault Literal :=
  decodeChars text.toList

/-- Whether a literal is a decimal integer that was rounded because it exceeds 64 bits. -/
def isInexact (literal : Literal) (text : String) : Bool :=
  match literal with
  | .float x => 18446744073709551616 ≤ x && !text.toList.any isFractionMark
  | .int _ => false

end Literal
end TargetView
