import TargetView.Intrinsic
import TargetView.Literal.Number
import TargetView.Scalar.Operator
import TargetView.Span

/-!
# Expressions

The syntax tree of a view expression.  Every node carries the span of the text it was read from.
Malformed text leaves a node of its own kind in the tree, so every text has a tree: `malformed`
stands where an expression was expected, `unnamed` for a member access without a member name.  The
base of the latter is kept although nothing evaluates it.
-/
namespace TargetView

/-- A view expression. -/
inductive Expr where
  /-- A number literal. -/
  | number (value : Literal) (span : Span)
  /-- A string literal, with its escapes replaced. -/
  | text (value : String) (span : Span)
  /-- An identifier, or a path of identifiers joined by colons. -/
  | ident (name : String) (span : Span)
  /-- A member of a container. -/
  | member (base : Expr) (name : String) (span : Span)
  /-- An element of a container. -/
  | index (base key : Expr) (span : Span)
  /-- An operator before its operand. -/
  | unary (op : UnaryOp) (operand : Expr) (span : Span)
  /-- An operator between its operands. -/
  | binary (op : BinaryOp) (left right : Expr) (span : Span)
  /-- A choice between two expressions. -/
  | conditional (cond yes no : Expr) (span : Span)
  /-- An assignment. -/
  | assign (op : AssignOp) (target value : Expr) (span : Span)
  /-- An update by one, written before or behind its target. -/
  | update (op : UpdateOp) (before : Bool) (target : Expr) (span : Span)
  /-- A call of something that is no intrinsic. -/
  | call (callee : Expr) (args : List Expr) (span : Span)
  /-- A call of an intrinsic, whose name has a span of its own. -/
  | intrinsic (fn : Intrinsic) (nameSpan : Span) (args : List Expr) (span : Span)
  /-- A place where an expression was expected. -/
  | malformed (span : Span)
  /-- A member access without a member name. -/
  | unnamed (base : Expr) (span : Span)
  deriving Inhabited

namespace Expr

/-- The span of the text an expression was read from. -/
def span : Expr → Span
  | number _ s | text _ s | ident _ s | member _ _ s | index _ _ s | unary _ _ s
  | binary _ _ _ s | conditional _ _ _ s | assign _ _ _ s | update _ _ _ s | call _ _ s
  | intrinsic _ _ _ s | malformed s | unnamed _ s => s

/-- Identifiers, members and elements can be assigned. -/
def isAssignable : Expr → Bool
  | ident .. | member .. | index .. => true
  | _ => false

/-- Whether the node stands for malformed text. -/
def isMalformed : Expr → Bool
  | malformed _ | unnamed .. => true
  | _ => false

/-- The name that an identifier or a text literal gives to an intrinsic. -/
def name? : Expr → Option String
  | ident name _ => some name
  | text value _ => some value
  | _ => none

/-- The argument of an intrinsic as a name, if the intrinsic takes names and this is one. -/
def nameFor? (fn : Intrinsic) (e : Expr) : Option String :=
  if fn.takesNames then e.name? else none

mutual
/-- The number of nodes of an expression, those of malformed text included.  The name of an
intrinsic is a node too. -/
def size : Expr → Nat
  | number .. | text .. | ident .. | malformed _ => 1
  | member base _ _ | unnamed base _ => base.size + 1
  | unary _ operand _ => operand.size + 1
  | update _ _ target _ => target.size + 1
  | index base key _ => base.size + key.size + 1
  | binary _ left right _ => left.size + right.size + 1
  | assign _ target value _ => target.size + value.size + 1
  | conditional cond yes no _ => cond.size + yes.size + no.size + 1
  | call callee args _ => callee.size + sizeAll args + 1
  | intrinsic _ _ args _ => 1 + sizeAll args + 1

/-- The number of nodes of some expressions. -/
def sizeAll : List Expr → Nat
  | [] => 0
  | e :: rest => e.size + sizeAll rest
end

theorem size_pos (e : Expr) : 0 < e.size := by
  cases e <;> simp [size]

end Expr
end TargetView
