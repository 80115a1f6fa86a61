import TargetView.Number.Binary64
import TargetView.Text.Blank

/-!
# Reading numbers

`readDigits` reads an integer digit by digit and stops at the first thing that goes wrong: a
character that is no digit of the base, or a value that no longer fits.  `readUnsigned` and
`readSigned` add the signs that attribute values may carry.  `readDecimal` reads a decimal number
with optional sign, fraction and exponent and rounds it to the nearest binary64 number, and
`ofText` is the numeric reading of a text value.
-/
namespace TargetView.Number

/-- Why a text is no integer of the wanted range. -/
inductive IntegerFault where
  | empty
  | invalidDigit
  | overflow
  deriving DecidableEq, Repr

/-- The value of a digit; the letters of either case continue after nine. -/
def digit? (base : Nat) (c : Char) : Option Nat :=
  let value :=
    if '0' ≤ c ∧ c ≤ '9' then c.toNat - '0'.toNat
    else if 'a' ≤ c ∧ c ≤ 'z' then c.toNat - 'a'.toNat + 10
    else if 'A' ≤ c ∧ c ≤ 'Z' then c.toNat - 'A'.toNat + 10
    else base
  if value < base then some value else none

/-- Continues the integer `value` with further digits; values from `limit` on do not fit. -/
def readDigits (base limit : Nat) (value : Nat) : List Char → Except IntegerFault Nat
  | [] => .ok value
  | c :: rest =>
    match digit? base c with
    | none => .error .invalidDigit
    | some d =>
      let next := value * base + d
      if next < limit then readDigits base limit next rest else .error .overflow

/-- An integer below `limit`, with at most one plus sign in front. -/
def readUnsigned (base limit : Nat) : List Char → Except IntegerFault Nat
  | [] => .error .empty
  | ['+'] => .error .invalidDigit
  | '+' :: rest => readDigits base limit 0 rest
  | cs => readDigits base limit 0 cs

/-- A decimal integer of the signed 64-bit range, with at most one sign in front. -/
def readSigned : List Char → Option Int64
  | ['-'] => none
  | '-' :: rest =>
    (readDigits 10 (1 <<< 63 + 1) 0 rest).toOption.map fun n => Int64.ofInt (-n)
  | cs => (readUnsigned 10 (1 <<< 63) cs).toOption.map fun n => Int64.ofInt n

/-- Whether a character is one of the ten decimal digits. -/
def isDigit (c : Char) : Bool := '0' ≤ c && c ≤ '9'

/-- The integer that decimal digits stand for. -/
def ofDigits (cs : List Char) : Nat :=
  cs.foldl (fun n c => n * 10 + (c.toNat - '0'.toNat)) 0

/-- The number nearest to `ofDigits digits · 10 ^ exponent`.  A number whose first digit stands
beyond the range is infinite or zero; the rest is rounded exactly. -/
def rounded (digits : List Char) (exponent : Int) : Float :=
  let significant := digits.dropWhile (· == '0')
  let leading := exponent + significant.length
  if significant.isEmpty then 0
  else if 310 < leading then Binary64.infinity
  else if leading < -330 then 0
  else if 0 ≤ exponent then Float.ofScientific (ofDigits significant) false exponent.toNat
  else Float.ofScientific (ofDigits significant) true (-exponent).toNat

/-- A leading sign, and what follows it. -/
def splitSign : List Char → Bool × List Char
  | '-' :: rest => (true, rest)
  | '+' :: rest => (false, rest)
  | cs => (false, cs)

/-- The exponent part: nothing, or `e` with an integer. -/
def readExponent : List Char → Option Int
  | [] => some 0
  | c :: rest =>
    let (negative, digits) := splitSign rest
    if (c == 'e' || c == 'E') && !digits.isEmpty && digits.all isDigit then
      some (if negative then -(ofDigits digits : Int) else ofDigits digits)
    else none

/-- A decimal number: an optional sign, digits with at most one point among or around them, and an
optional exponent. -/
def readDecimal (cs : List Char) : Option Float :=
  let (negative, body) := splitSign cs
  let whole := body.takeWhile isDigit
  let tail := body.dropWhile isDigit
  let (fraction, tail) :=
    match tail with
    | '.' :: rest => (rest.takeWhile isDigit, rest.dropWhile isDigit)
    | _ => ([], tail)
  if whole.isEmpty && fraction.isEmpty then none
  else
    (readExponent tail).map fun exponent =>
      let x := rounded (whole ++ fraction) (exponent - fraction.length)
      if negative then -x else x

/-- A magnitude after the sign of a text value: hexadecimal of at most 64 bits, `Infinity`, or a
decimal number, which may carry a further sign. -/
def magnitudeOfText (cs : List Char) : Option Float :=
  match cs with
  | '0' :: 'x' :: digits | '0' :: 'X' :: digits =>
    (readUnsigned 16 UInt64.size digits).toOption.map Binary64.ofNat
  | _ =>
    if cs == "Infinity".toList then some Binary64.infinity
    else if cs.all fun c => isDigit c || c == '.' || c == 'e' || c == 'E' || c == '+' || c == '-'
    then readDecimal cs
    else none

/-- The numeric reading of a text.  Blanks at the ends do not count, a text without other
characters is zero, and a text that is no number is not-a-number. -/
def ofText (s : String) : Float :=
  match Text.trim s.toList with
  | [] => 0
  | cs =>
    let (negative, body) := splitSign cs
    match magnitudeOfText body with
    | some x => if negative then -x else x
    | none => Binary64.nan

end TargetView.Number
