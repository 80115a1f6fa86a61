import TargetView.Evaluation

/-!
# Evaluation contexts

A context is the state of a host together with the container in scope.  `evaluate` reports every
fault; `evaluateIn` evaluates with another container in scope and reports only a missing capability
of the host.  Whatever comes out, the container in scope is the same afterwards.
-/
namespace TargetView

/-- A host state and the container in scope. -/
structure Context (σ : Type) where
  state : σ
  scope : Option Ref := none

namespace Context

variable {σ α : Type}

/-- Acts on the host state alone. -/
def onState (act : StateM σ α) (c : Context σ) : α × Context σ :=
  let ⟨state, scope⟩ := c
  let (result, state) := act.run state
  (result, ⟨state, scope⟩)

/-- Acts with another container in scope and puts back the one from before. -/
def within (scope : Option Ref) (act : Context σ → α × Context σ) (c : Context σ) :
    α × Context σ :=
  let ⟨state, outer⟩ := c
  let (result, c) := act ⟨state, scope⟩
  (result, ⟨c.state, outer⟩)

/-- Evaluates a parsed text. -/
def evaluate (host : Host σ) (p : Parsed) (c : Context σ) : Answer × Context σ :=
  c.onState (Evaluation.run host c.scope p).run

/-- Evaluates a parsed text with another container in scope. -/
def evaluateIn (host : Host σ) (scope : Option Ref) (p : Parsed) (c : Context σ) :
    Except MissingIntrinsic (Option Value) × Context σ :=
  c.within scope fun c => c.onState (Evaluation.attempt host c.scope p).run

@[simp] theorem scope_onState (act : StateM σ α) (c : Context σ) :
    (c.onState act).2.scope = c.scope := rfl

@[simp] theorem scope_within (scope : Option Ref) (act : Context σ → α × Context σ)
    (c : Context σ) : (c.within scope act).2.scope = c.scope := rfl

@[simp] theorem scope_evaluate (host : Host σ) (p : Parsed) (c : Context σ) :
    (c.evaluate host p).2.scope = c.scope := rfl

@[simp] theorem scope_evaluateIn (host : Host σ) (scope : Option Ref) (p : Parsed)
    (c : Context σ) : (c.evaluateIn host scope p).2.scope = c.scope :=
  scope_within scope _ c

end Context
end TargetView
