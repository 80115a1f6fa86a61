import TargetView.Diagnostic
import TargetView.Expr
import TargetView.Scalar.Arithmetic

/-!
# Constant folding

An expression is constant if its value follows from its text alone.  Literals are constant, an
operator is if its operands are and it does not fail, a logical operator already if its left
operand decides, and a conditional if its condition and the chosen branch are.  An assignment has
the constant of its right-hand side, but it and everything folded over it is *effectful*: the
value is known, and the assignment still has to happen.

`fold` computes the constant of an expression, `survey` together with it the findings about
operators that fail on constants, in the order in which the operators end.
-/
namespace TargetView

/-- A value known from the text of an expression. -/
structure Constant where
  value : Scalar
  /-- Whether the expression contains an assignment that still has to happen. -/
  effectful : Bool
  deriving DecidableEq, Inhabited

/-- Whether a constant is known and effectful. -/
def Constant.isEffectful (c : Option Constant) : Bool := c.any (·.effectful)

/-- The value of a constant that is not effectful. -/
def Constant.pure? (c : Constant) : Option Scalar := if c.effectful then none else some c.value

namespace Expr

/-- The constant of a logical operator: the left operand may decide alone. -/
def foldLogical (decides : Bool) (left right : Option Constant) : Option Constant :=
  left.bind fun l =>
    let effectful := Constant.isEffectful left || Constant.isEffectful right
    if l.value.isTrue == decides then some ⟨.ofBool decides, effectful⟩
    else right.map fun r => ⟨.ofBool r.value.isTrue, effectful⟩

/-- The failure of an operator on constants. -/
def foldFault? (op : BinaryOp) (left right : Option Constant) : Option ArithmeticFault :=
  if op.isShortCircuit then none
  else
    match left, right with
    | some l, some r =>
      match Scalar.binary op l.value r.value with
      | .ok _ => none
      | .error fault => some fault
    | _, _ => none

/-- The constant of an operator that needs both operands. -/
def foldStrict (op : BinaryOp) (left right : Option Constant) : Option Constant :=
  match left, right with
  | some l, some r =>
    match Scalar.binary op l.value r.value with
    | .ok value => some ⟨value, l.effectful || r.effectful⟩
    | .error _ => none
  | _, _ => none

/-- The constant of an operator between two operands. -/
def foldBinary (op : BinaryOp) (left right : Option Constant) : Option Constant :=
  match op with
  | .and => foldLogical false left right
  | .or => foldLogical true left right
  | op => foldStrict op left right

/-- The constant of an operator before its operand. -/
def foldUnary (op : UnaryOp) (operand : Option Constant) : Option Constant :=
  operand.map fun c => ⟨Scalar.unary op c.value, c.effectful⟩

/-- The constant of a choice. -/
def foldConditional (cond yes no : Option Constant) : Option Constant :=
  let effectful :=
    Constant.isEffectful cond || Constant.isEffectful yes || Constant.isEffectful no
  cond.bind fun c => (if c.value.isTrue then yes else no).map fun chosen =>
    ⟨chosen.value, effectful⟩

/-- The constant of an assignment. -/
def foldAssign (op : AssignOp) (value : Option Constant) : Option Constant :=
  match op with
  | .assign => value.map fun c => ⟨c.value, true⟩
  | .compound _ => none

/-- The constant of an expression, if it has one. -/
def fold : Expr → Option Constant
  | number value _ => some ⟨value.toScalar, false⟩
  | text value _ => some ⟨.text value, false⟩
  | unary op operand _ => foldUnary op operand.fold
  | binary op left right _ => foldBinary op left.fold right.fold
  | conditional cond yes no _ => foldConditional cond.fold yes.fold no.fold
  | assign op _ value _ => foldAssign op value.fold
  | ident .. | member .. | index .. | update .. | call .. | intrinsic .. | malformed _
  | unnamed .. => none

/-- The constant that may stand for the evaluation of an expression, because it leaves nothing
to be done. -/
def pureConstant? (e : Expr) : Option Scalar := e.fold.bind Constant.pure?

mutual
/-- The constant of an expression together with the findings about its operators. -/
def survey : Expr → Option Constant × List Diagnostic
  | number value _ => (some ⟨value.toScalar, false⟩, [])
  | text value _ => (some ⟨.text value, false⟩, [])
  | unary op operand _ =>
    let (c, found) := operand.survey
    (foldUnary op c, found)
  | binary op left right span =>
    let (l, foundLeft) := left.survey
    let (r, foundRight) := right.survey
    let here := (foldFault? op l r).toList.map fun fault =>
      Diagnostic.constantFault span fault.message op.symbol
    (foldBinary op l r, foundLeft ++ foundRight ++ here)
  | conditional cond yes no _ =>
    let (c, foundCond) := cond.survey
    let (y, foundYes) := yes.survey
    let (n, foundNo) := no.survey
    (foldConditional c y n, foundCond ++ foundYes ++ foundNo)
  | assign op target value _ =>
    let (_, foundTarget) := target.survey
    let (v, foundValue) := value.survey
    (foldAssign op v, foundTarget ++ foundValue)
  | member base _ _ | unnamed base _ => (none, base.survey.2)
  | index base key _ => (none, base.survey.2 ++ key.survey.2)
  | update _ _ target _ => (none, target.survey.2)
  | call callee args _ => (none, callee.survey.2 ++ surveyAll args)
  | intrinsic _ _ args _ => (none, surveyAll args)
  | ident .. | malformed _ => (none, [])

/-- The findings about the operators of some expressions. -/
def surveyAll : List Expr → List Diagnostic
  | [] => []
  | e :: rest => e.survey.2 ++ surveyAll rest
end

theorem survey_fst : ∀ e : Expr, e.survey.1 = e.fold
  | number .. | text .. | ident .. | malformed _ => by simp [survey, fold]
  | unary op operand _ => by simp [survey, fold, survey_fst operand]
  | binary op left right _ => by simp [survey, fold, survey_fst left, survey_fst right]
  | conditional cond yes no _ => by
    simp [survey, fold, survey_fst cond, survey_fst yes, survey_fst no]
  | assign op target value _ => by simp [survey, fold, survey_fst value]
  | member .. | unnamed .. | index .. | update .. | call .. | intrinsic .. => by
    simp [survey, fold]

end Expr
end TargetView
