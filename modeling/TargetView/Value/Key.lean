import TargetView.Value

/-!
# Keys of containers

A container is asked for a member name or for an index.  A value used as a key is an index if it
is an integer, a number without a fraction, or a text that spells an integer; any other value is
the name that it is displayed as.
-/
namespace TargetView

/-- A member name or an element index. -/
inductive Key where
  | name (s : String)
  | index (i : Int64)
  deriving DecidableEq, Inhabited

namespace Key

/-- The key that a value stands for. -/
def ofValue : Value → Key
  | .scalar (.int v) => .index v
  | .scalar (.number x) =>
    if (Binary64.integer? x).isSome then .index (Binary64.toInt64 x)
    else .name (Decimal.display x)
  | .scalar (.text s) =>
    match Number.readSigned (Text.trim s.toList) with
    | some i => .index i
    | none => .name s
  | v => .name v.display

/-- Whether the key is an index. -/
def isIndex : Key → Bool
  | index _ => true
  | name _ => false

/-- The key as a member name; an index is the name that its digits spell. -/
def display : Key → String
  | name s => s
  | index i => toString i.toInt

end Key
end TargetView
