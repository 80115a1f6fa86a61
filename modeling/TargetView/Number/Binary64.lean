/-!
# Binary64 numbers as exact values

A `Float` is a 64-bit word that stands for a not-a-number, an infinity or a finite number
`± significand · 2 ^ exponent`.  `decode` reads those parts off the word, and the conversions to
integers, the remainder and the integrality test are exact arithmetic on them: no rounding occurs
before the last step.
-/
namespace TargetView.Binary64

/-- The parts of a finite number `± significand · 2 ^ exponent`. -/
structure Parts where
  negative : Bool
  significand : Nat
  exponent : Int
  deriving DecidableEq, Repr, Inhabited

/-- What a 64-bit word stands for. -/
inductive Reading where
  | nan
  | infinite (negative : Bool)
  | finite (parts : Parts)
  deriving DecidableEq, Repr, Inhabited

/-- The parts of a word: one sign bit, eleven of exponent, fifty-two of fraction. -/
def decodeBits (bits : Nat) : Reading :=
  let negative := bits >>> 63 % 2 == 1
  let biased := bits >>> 52 % 1 <<< 11
  let fraction := bits % 1 <<< 52
  if biased = 2047 then
    if fraction = 0 then .infinite negative else .nan
  else if biased = 0 then .finite ⟨negative, fraction, -1074⟩
  else .finite ⟨negative, fraction + 1 <<< 52, Int.ofNat biased - 1075⟩

/-- What a number stands for. -/
def decode (x : Float) : Reading :=
  decodeBits x.toBits.toNat

namespace Parts

/-- The integer part of the magnitude. -/
def floorMagnitude (d : Parts) : Nat :=
  if 0 ≤ d.exponent then d.significand <<< d.exponent.toNat
  else d.significand >>> (-d.exponent).toNat

/-- The number without its fraction. -/
def truncate (d : Parts) : Int :=
  if d.negative then -(d.floorMagnitude : Int) else d.floorMagnitude

/-- Whether the number has no fraction. -/
def isIntegral (d : Parts) : Bool :=
  0 ≤ d.exponent || d.significand % 1 <<< (-d.exponent).toNat == 0

/-- The 64-bit word of a number whose significand has at most 53 bits and whose exponent is at
least -1074: the significand is shifted up until it fills its 53 bits or the exponent reaches the
least one. -/
def bits (d : Parts) : Nat :=
  let sign := if d.negative then 1 <<< 63 else 0
  if d.significand = 0 then sign
  else
    let shift := min (52 - d.significand.log2) (d.exponent + 1074).toNat
    let significand := d.significand <<< shift
    let biased := (d.exponent - shift + 1075).toNat
    if significand < 1 <<< 52 then sign + significand
    else sign + biased <<< 52 + (significand - 1 <<< 52)

/-- The binary64 number with this value. -/
def toFloat (d : Parts) : Float :=
  Float.ofBits (UInt64.ofNat d.bits)

end Parts

/-- Not-a-number. -/
def nan : Float := Float.ofBits 0x7FF8000000000000

/-- Positive infinity. -/
def infinity : Float := Float.ofBits 0x7FF0000000000000

/-- Whether a number is neither infinite nor not-a-number. -/
def isFinite (x : Float) : Bool :=
  match decode x with
  | .finite _ => true
  | _ => false

/-- The finite number without its fraction; none for the other numbers. -/
def truncate? (x : Float) : Option Int :=
  match decode x with
  | .finite d => some d.truncate
  | _ => none

/-- The value of a finite number without a fraction; none for the other numbers. -/
def integer? (x : Float) : Option Int :=
  match decode x with
  | .finite d => if d.isIntegral then some d.truncate else none
  | _ => none

/-- The nearest integer of the range from `lo` to `hi`. -/
def clamp (lo hi value : Int) : Int :=
  max lo (min hi value)

/-- The number without its fraction, moved into the signed 64-bit range; 0 if it is not finite. -/
def toInt64 (x : Float) : Int64 :=
  match truncate? x with
  | some n => Int64.ofInt (clamp Int64.minValue.toInt Int64.maxValue.toInt n)
  | none => 0

/-- The number without its fraction, moved into the unsigned 64-bit range; 0 if it is not
finite. -/
def toUInt64 (x : Float) : UInt64 :=
  match truncate? x with
  | some n => UInt64.ofNat (clamp 0 (UInt64.size - 1) n).toNat
  | none => 0

/-- The number without its fraction, modulo `2 ^ 32`; 0 if it is not finite. -/
def toUInt32 (x : Float) : UInt32 :=
  match truncate? x with
  | some n => UInt32.ofNat (n % UInt32.size).toNat
  | none => 0

/-- `toUInt32` with the upper half of the range read as negative. -/
def toInt32 (x : Float) : Int32 :=
  (toUInt32 x).toInt32

/-- The remainder of two finite numbers, exact, with the sign of the first. -/
def Parts.remainder (a b : Parts) : Parts :=
  let exponent := min a.exponent b.exponent
  let left := a.significand <<< (a.exponent - exponent).toNat
  let right := b.significand <<< (b.exponent - exponent).toNat
  ⟨a.negative, left % right, exponent⟩

/-- The remainder of the division that rounds toward zero.  A remainder by an infinity is the
number itself; where there is no remainder the answer is not-a-number. -/
def remainder (x y : Float) : Float :=
  match decode x, decode y with
  | .finite a, .finite b => if b.significand = 0 then nan else (a.remainder b).toFloat
  | .finite _, .infinite _ => x
  | _, _ => nan

/-- The order of two numbers; none if one of them is not-a-number. -/
def order (x y : Float) : Option Ordering :=
  if x < y then some .lt
  else if x == y then some .eq
  else if y < x then some .gt
  else none

/-- The number nearest to an integer, a tie going to the even significand. -/
def ofInt (n : Int) : Float := Float.ofInt n

/-- The number nearest to a natural number, a tie going to the even significand. -/
def ofNat (n : Nat) : Float := Float.ofNat n

/-- The binary64 number with the value of a 32-bit word read as a binary32 number: one sign bit,
eight of exponent, twenty-three of fraction. -/
def ofBinary32 (word : Nat) : Float :=
  let negative := word >>> 31 % 2 == 1
  let biased := word >>> 23 % 1 <<< 8
  let fraction := word % 1 <<< 23
  if biased = 255 then
    if fraction = 0 then (if negative then -infinity else infinity) else nan
  else if biased = 0 then Parts.toFloat ⟨negative, fraction, -149⟩
  else Parts.toFloat ⟨negative, fraction + 1 <<< 23, Int.ofNat biased - 150⟩

end TargetView.Binary64
