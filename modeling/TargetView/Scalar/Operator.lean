/-!
# Operators

The operators of the expression language with their symbols and binding strengths.  The bitwise
operators bind tighter than the comparisons, and the logical ones loosest of all.  Assignments are
`=` and the compound forms of the eleven arithmetic and bitwise operators; `++` and `--` are
updates by one.
-/
namespace TargetView

/-- An operator between two operands. -/
inductive BinaryOp where
  | mul | div | mod
  | add | sub
  | shl | shr | ushr
  | bitAnd | bitXor | bitOr
  | lt | le | gt | ge
  | eq | ne
  | and | or
  deriving DecidableEq, Repr, Inhabited

namespace BinaryOp

/-- All operators, from the tightest to the loosest. -/
def all : List BinaryOp :=
  [.mul, .div, .mod, .add, .sub, .shl, .shr, .ushr, .bitAnd, .bitXor, .bitOr,
    .lt, .le, .gt, .ge, .eq, .ne, .and, .or]

/-- The symbol of an operator. -/
def symbol : BinaryOp → String
  | .mul => "*" | .div => "/" | .mod => "%"
  | .add => "+" | .sub => "-"
  | .shl => "<<" | .shr => ">>" | .ushr => ">>>"
  | .bitAnd => "&" | .bitXor => "^" | .bitOr => "|"
  | .lt => "<" | .le => "<=" | .gt => ">" | .ge => ">="
  | .eq => "==" | .ne => "!="
  | .and => "&&" | .or => "||"

/-- The binding strength; the larger binds tighter. -/
def precedence : BinaryOp → Nat
  | .mul | .div | .mod => 10
  | .add | .sub => 9
  | .shl | .shr | .ushr => 8
  | .bitAnd => 7
  | .bitXor => 6
  | .bitOr => 5
  | .lt | .le | .gt | .ge => 4
  | .eq | .ne => 3
  | .and => 2
  | .or => 1

/-- The operator with a symbol. -/
def ofSymbol? (s : String) : Option BinaryOp :=
  all.find? (·.symbol == s)

/-- The logical operators evaluate their right operand only if the left one leaves the answer
open. -/
def isShortCircuit : BinaryOp → Bool
  | .and | .or => true
  | _ => false

/-- The operators that have a compound assignment. -/
def isAssignable : BinaryOp → Bool
  | .lt | .le | .gt | .ge | .eq | .ne | .and | .or => false
  | _ => true

theorem ofSymbol?_symbol (op : BinaryOp) : ofSymbol? op.symbol = some op := by
  cases op <;> decide

end BinaryOp

/-- An operator before its operand. -/
inductive UnaryOp where
  | plus | neg | not | bitNot
  deriving DecidableEq, Repr, Inhabited

namespace UnaryOp

/-- All four operators. -/
def all : List UnaryOp := [.plus, .neg, .not, .bitNot]

/-- The symbol of an operator. -/
def symbol : UnaryOp → String
  | .plus => "+" | .neg => "-" | .not => "!" | .bitNot => "~"

/-- The operator with a symbol. -/
def ofSymbol? (s : String) : Option UnaryOp :=
  all.find? (·.symbol == s)

theorem ofSymbol?_symbol (op : UnaryOp) : ofSymbol? op.symbol = some op := by
  cases op <;> decide

end UnaryOp

/-- An assignment: `=`, or an operator followed by `=`. -/
inductive AssignOp where
  | assign
  | compound (op : BinaryOp)
  deriving DecidableEq, Repr, Inhabited

namespace AssignOp

/-- All twelve assignments. -/
def all : List AssignOp :=
  .assign :: (BinaryOp.all.filter (·.isAssignable)).map .compound

/-- The symbol of an assignment. -/
def symbol : AssignOp → String
  | .assign => "="
  | .compound op => op.symbol ++ "="

/-- The assignment with a symbol. -/
def ofSymbol? (s : String) : Option AssignOp :=
  all.find? (·.symbol == s)

end AssignOp

/-- An update by one. -/
inductive UpdateOp where
  | increment | decrement
  deriving DecidableEq, Repr, Inhabited

namespace UpdateOp

/-- The symbol of an update. -/
def symbol : UpdateOp → String
  | .increment => "++" | .decrement => "--"

/-- The update with a symbol. -/
def ofSymbol? (s : String) : Option UpdateOp :=
  [increment, decrement].find? (·.symbol == s)

/-- The operator that an update applies to its target and one. -/
def step : UpdateOp → BinaryOp
  | .increment => .add
  | .decrement => .sub

theorem ofSymbol?_symbol (op : UpdateOp) : ofSymbol? op.symbol = some op := by
  cases op <;> decide

end UpdateOp
end TargetView
