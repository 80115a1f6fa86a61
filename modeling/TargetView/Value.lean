import TargetView.Scalar

/-!
# Values

Evaluation answers with a scalar, with a container, or with nothing: a member or an element that
is not there is `undefined`.  A container is known by its number; containers are numbered from
zero in the order of their creation.

In an operator a value is used as a scalar (`toScalar?`): `undefined` counts as not-a-number, and
a container is no scalar.  Containers hold as a condition, `undefined` does not.
-/
namespace TargetView

/-- The number of a container. -/
abbrev Ref := Nat

/-- The result of an evaluation. -/
inductive Value where
  | scalar (s : Scalar)
  | container (ref : Ref)
  | undefined
  deriving DecidableEq, Inhabited

namespace Value

/-- A number as a value. -/
def number (x : Float) : Value := .scalar (.number x)

/-- A 64-bit integer as a value. -/
def int (v : Int64) : Value := .scalar (.int v)

/-- A text as a value. -/
def text (s : String) : Value := .scalar (.text s)

/-- The value of a symbol that has just been created. -/
def zero : Value := number 0

/-- The numbers one and zero, as truth values. -/
def ofBool (b : Bool) : Value := .scalar (.ofBool b)

/-- The value as an operand; a container is none. -/
def toScalar? : Value → Option Scalar
  | scalar s => some s
  | undefined => some (.number Binary64.nan)
  | container _ => none

/-- The numeric reading; containers have none. -/
def toNumber? (v : Value) : Option Float := v.toScalar?.map (·.toNumber)

/-- The integer reading; containers have none. -/
def toInt? (v : Value) : Option Int64 := v.toScalar?.map (·.toInt)

/-- Whether the value holds as a condition. -/
def isTrue : Value → Bool
  | scalar s => s.isTrue
  | container _ => true
  | undefined => false

/-- The number of a container value. -/
def ref? : Value → Option Ref
  | container ref => some ref
  | _ => none

/-- The text of a text value. -/
def text? : Value → Option String
  | scalar s => s.text?
  | _ => none

/-- The display text; a container shows its number. -/
def display : Value → String
  | scalar s => s.display
  | container ref => "[container " ++ toString ref ++ "]"
  | undefined => "undefined"

@[simp] theorem isTrue_ofBool (b : Bool) : (ofBool b).isTrue = b :=
  Scalar.isTrue_ofBool b

end Value
end TargetView
