import TargetView.Evaluation

/-! # Steps of an evaluation

What `evalWith` does at an operator that is not known, and what can be said of
the values an evaluation ends with (`Eval.Yields`).  A logical operator is
`Evaluation.logical`, with the truth value that lets the left operand decide
alone; every other operator evaluates both operands first.
-/
namespace TargetView
namespace Eval

variable {σ α β : Type}

/-- Every value that the evaluation ends with satisfies a predicate. -/
def Yields (x : Eval σ α) (P : α → Prop) : Prop :=
  ∀ s a s', x.run.run s = (.ok a, s') → P a

variable {P : α → Prop} {Q : β → Prop}

theorem yields_pure {a : α} (h : P a) : Yields (σ := σ) (pure a) P := by
  intro s b s' hb
  cases hb
  exact h

theorem yields_trivial (x : Eval σ α) : Yields x fun _ => True :=
  fun _ _ _ _ => trivial

/-- A sequence ends with what its second part ends with after the first. -/
theorem yields_bind {x : Eval σ α} {f : α → Eval σ β} (hx : Yields x P)
    (hf : ∀ a, P a → Yields (f a) Q) : Yields (x >>= f) Q := by
  intro s b s' hb
  rw [ExceptT.run_bind, StateT.run_bind] at hb
  rcases h : x.run.run s with ⟨_ | a, s₁⟩
  · rw [h] at hb
    cases hb
  · rw [h] at hb
    exact hf a (hx s a s₁ h) s₁ b s' hb

end Eval

namespace BinaryOp

variable {σ : Type}

/-- An operator is one of the two logical ones, or it needs both operands. -/
theorem logical_or_strict (op : BinaryOp) :
    op = .and ∨ op = .or ∨ op.isShortCircuit = false := by
  cases op <;> simp [isShortCircuit]

theorem onValues_scalar (op : BinaryOp) (l r : Scalar) :
    op.onValues (.scalar l) (.scalar r) = (do return .scalar (← op.apply l r) : Eval σ Value) := by
  cases op <;> rfl

theorem apply_of_ok {op : BinaryOp} {l r v : Scalar} (h : Scalar.binary op l r = .ok v) :
    op.apply l r = (pure v : Eval σ Scalar) := by
  rw [apply, h]

end BinaryOp

namespace Evaluation

variable {σ : Type} {host : Host σ} {scope : Option Ref} {known : Expr → Option Scalar}

/-- A logical operator: the left operand may decide alone. -/
def logical (decides : Bool) (left right : Eval σ Value) : Eval σ Value := do
  if (← left).isTrue = decides then return .ofBool decides
  else return .ofBool (← right).isTrue

theorem logical_decided {decides : Bool} {v : Value} (right : Eval σ Value)
    (h : v.isTrue = decides) : logical decides (pure v) right = pure (.ofBool decides) := by
  rw [logical, pure_bind, if_pos h]

theorem logical_undecided {decides : Bool} {v : Value} (w : Value) (h : v.isTrue ≠ decides) :
    logical decides (pure v) (pure w) = (pure (.ofBool w.isTrue) : Eval σ Value) := by
  rw [logical, pure_bind, if_neg h, pure_bind]

section Operators

variable {left right : Expr} {span : Span}

theorem evalWith_known {e : Expr} {s : Scalar} (h : known e = some s) :
    evalWith host scope known e = pure (.scalar s) := by
  rw [evalWith.eq_def, h]

theorem evalWith_and (h : known (.binary .and left right span) = none) :
    evalWith host scope known (.binary .and left right span) =
      logical false (evalWith host scope known left) (evalWith host scope known right) := by
  rw [evalWith, h]
  refine bind_congr fun l => ?_
  cases l.isTrue <;> rfl

theorem evalWith_or (h : known (.binary .or left right span) = none) :
    evalWith host scope known (.binary .or left right span) =
      logical true (evalWith host scope known left) (evalWith host scope known right) := by
  rw [evalWith, h]
  rfl

theorem evalWith_strict {op : BinaryOp} (hop : op.isShortCircuit = false)
    (h : known (.binary op left right span) = none) :
    evalWith host scope known (.binary op left right span) = (do
      let l ← evalWith host scope known left
      let r ← evalWith host scope known right
      op.onValues l r) := by
  rw [evalWith, h]
  cases op <;> first | rfl | cases hop

end Operators

end Evaluation
end TargetView
