import TargetView.Expr.Parser

/-! # Trees without their spans

Two trees spell the same expression if they differ in spans only.  `Expr.bare`
replaces all spans by the empty one, so that sameness is equality of bare
trees.  What the parser asks of a tree, whether it can be assigned and which
intrinsic it names, does not depend on spans.
-/
namespace TargetView.Expr

mutual
/-- The tree with every span replaced by the empty one. -/
def bare : Expr → Expr
  | number value _ => .number value .none
  | text value _ => .text value .none
  | ident name _ => .ident name .none
  | member base name _ => .member base.bare name .none
  | index base key _ => .index base.bare key.bare .none
  | unary op operand _ => .unary op operand.bare .none
  | binary op left right _ => .binary op left.bare right.bare .none
  | conditional cond yes no _ => .conditional cond.bare yes.bare no.bare .none
  | assign op target value _ => .assign op target.bare value.bare .none
  | update op before target _ => .update op before target.bare .none
  | call callee args _ => .call callee.bare (bareAll args) .none
  | intrinsic fn _ args _ => .intrinsic fn .none (bareAll args) .none
  | malformed _ => .malformed .none
  | unnamed base _ => .unnamed base.bare .none

/-- Some trees with every span replaced by the empty one. -/
def bareAll : List Expr → List Expr
  | [] => []
  | e :: rest => e.bare :: bareAll rest
end

@[simp] theorem isAssignable_bare (e : Expr) : e.bare.isAssignable = e.isAssignable := by
  cases e <;> simp [bare, isAssignable]

@[simp] theorem intrinsic?_bare (e : Expr) :
    Parser.intrinsic? e.bare = Parser.intrinsic? e := by
  cases e <;> simp [bare, Parser.intrinsic?]

theorem isAssignable_of_bare {e e' : Expr} (h : e'.bare = e.bare) :
    e'.isAssignable = e.isAssignable := by
  rw [← isAssignable_bare, h, isAssignable_bare]

theorem intrinsic?_of_bare {e e' : Expr} (h : e'.bare = e.bare) :
    Parser.intrinsic? e' = Parser.intrinsic? e := by
  rw [← intrinsic?_bare, h, intrinsic?_bare]

/-- The node of a call is known from the bare callee and the bare arguments. -/
theorem bare_callNode {callee callee' : Expr} {args args' : List Expr} (span span' : Span)
    (hc : callee'.bare = callee.bare) (ha : bareAll args' = bareAll args) :
    (Parser.callNode callee' args' span').bare = (Parser.callNode callee args span).bare := by
  unfold Parser.callNode
  rw [intrinsic?_of_bare hc]
  cases Parser.intrinsic? callee with
  | none => simp only [bare, hc, ha]
  | some fn => simp only [bare, ha]

end TargetView.Expr
