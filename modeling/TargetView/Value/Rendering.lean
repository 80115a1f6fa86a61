import TargetView.Conversion
import TargetView.Value

/-!
# Rendering values in format texts

`d`, `u` and `x` render the integer reading of a value: signed, unsigned, and in lower-case
hexadecimal digits.  A value without one, which is a container or a number that is not finite, is
displayed as it is, and so is every value under the other conversions.
-/
namespace TargetView.Value

/-- The signed integer that `d` shows. -/
def signed? : Value → Option Int64
  | .scalar (.int v) => some v
  | v => (v.toNumber?.filter Binary64.isFinite).map Binary64.toInt64

/-- The unsigned integer that `u` and `x` show.  An integer shows its bits; a negative number
wraps around at 32 bits. -/
def unsigned? : Value → Option UInt64
  | .scalar (.int v) => some v.toUInt64
  | v =>
    (v.toNumber?.filter Binary64.isFinite).map fun x =>
      if x < 0 then (Binary64.toUInt32 x).toUInt64 else Binary64.toUInt64 x

/-- The text of a value under a conversion. -/
def render (spec : Conversion) (v : Value) : String :=
  let shown? : Option String :=
    match spec with
    | .decimal => v.signed?.map fun i => toString i.toInt
    | .unsigned => v.unsigned?.map fun w => toString w.toNat
    | .hex => v.unsigned?.map fun w => String.ofList (Nat.toDigits 16 w.toNat)
    | _ => none
  shown?.getD v.display

end TargetView.Value
