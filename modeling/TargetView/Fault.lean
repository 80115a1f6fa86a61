import TargetView.Intrinsic
import TargetView.Scalar.Arithmetic

/-!
# Evaluation faults

Why an expression has no value.  All faults but one stay within the formula that has them; the
exception is a `MissingIntrinsic`, which says that the host lacks a capability and ends whatever
asked for the value.
-/
namespace TargetView

/-- An intrinsic that needs a capability which the host lacks. -/
structure MissingIntrinsic where
  intrinsic : Intrinsic
  reason : String
  deriving DecidableEq, Inhabited

namespace MissingIntrinsic

/-- The message of a missing capability. -/
def message (m : MissingIntrinsic) : String :=
  "intrinsic `" ++ m.intrinsic.name ++ "` is not available: " ++ m.reason

end MissingIntrinsic

/-- Why an evaluation has no value. -/
inductive Fault where
  /-- An operator failed on its operands. -/
  | operator (fault : ArithmeticFault)
  /-- A container was used as an operand. -/
  | containerInArithmetic
  /-- Something was written to that is no place. -/
  | invalidTarget
  /-- The expression is malformed. -/
  | malformed
  /-- Something that is no intrinsic was called. -/
  | notCallable (name : String)
  /-- The size of an unknown type was asked for. -/
  | unknownType (name : String)
  /-- An intrinsic got a wrong number of arguments. -/
  | wrongArgumentCount (fn : Intrinsic) (expected got : Nat)
  /-- The host does not know a path. -/
  | unresolvedPath (path : String)
  /-- The host refused a write. -/
  | writeRejected (target : String)
  /-- The target did not answer for a register. -/
  | registerUnavailable (name : String)
  /-- The host lacks a capability. -/
  | missing (m : MissingIntrinsic)
  deriving DecidableEq, Inhabited

namespace Fault

/-- The message of a fault. -/
def message : Fault → String
  | operator fault => fault.message
  | containerInArithmetic => "container used as a scalar"
  | invalidTarget => "expression is not assignable"
  | malformed => "expression contains a syntax error"
  | notCallable name => "`" ++ name ++ "` is not callable"
  | unknownType name => "`" ++ name ++ "` is not a known scalar type"
  | wrongArgumentCount fn expected got =>
    "`" ++ fn.name ++ "` expects " ++ toString expected ++ " argument(s), got " ++ toString got
  | unresolvedPath path => "cannot resolve `" ++ path ++ "`"
  | writeRejected target => "host rejected write to `" ++ target ++ "`"
  | registerUnavailable name => "register `" ++ name ++ "` could not be read"
  | missing m => m.message

/-- The missing capability of a fault that is one. -/
def missing? : Fault → Option MissingIntrinsic
  | missing m => some m
  | _ => none

/-- Whether the fault ends more than the formula that has it. -/
def isMissing (f : Fault) : Bool := f.missing?.isSome

end Fault
end TargetView
