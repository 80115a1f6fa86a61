/-!
# Intrinsics

Six functions with reserved names ask the host for facts about the target.  All but the first take
names: an identifier or a text among their arguments is passed on as a name and not evaluated, and
an argument may be a path of names joined by colons.
-/
namespace TargetView

/-- A function that the host may answer. -/
inductive Intrinsic where
  /-- The bytes in use, by the statistics of the host. -/
  | calcMemUsed
  /-- The value of a symbol, which is created if it is missing. -/
  | findSymbol
  /-- The value of a target register. -/
  | getRegVal
  /-- The offset of a member in its type. -/
  | offsetOf
  /-- The size of a type. -/
  | sizeOf
  /-- Whether a symbol exists. -/
  | symbolExists
  deriving DecidableEq, Repr, Inhabited

namespace Intrinsic

/-- All six intrinsics. -/
def all : List Intrinsic :=
  [.calcMemUsed, .findSymbol, .getRegVal, .offsetOf, .sizeOf, .symbolExists]

/-- The reserved name. -/
def name : Intrinsic → String
  | .calcMemUsed => "__CalcMemUsed"
  | .findSymbol => "__FindSymbol"
  | .getRegVal => "__GetRegVal"
  | .offsetOf => "__Offset_of"
  | .sizeOf => "__size_of"
  | .symbolExists => "__Symbol_exists"

/-- The intrinsic with a reserved name. -/
def ofName? (s : String) : Option Intrinsic :=
  all.find? (·.name == s)

/-- Whether identifiers and texts among the arguments are names. -/
def takesNames : Intrinsic → Bool
  | .calcMemUsed => false
  | _ => true

theorem ofName?_name (i : Intrinsic) : ofName? i.name = some i := by
  cases i <;> decide

end Intrinsic
end TargetView
