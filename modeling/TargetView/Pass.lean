import Std.Data.ExtTreeSet
import TargetView.Config
import TargetView.Evaluation
import TargetView.Report
import TargetView.Statement.Tree
import TargetView.Target

/-!
# Passes

A pass runs the statements of a view once.  It works on the machine and on a `Memo` of what is kept
from pass to pass, and collects what it reports.  Formulas are evaluated without a container in
scope; one without a value is no failure.  Only two things end a pass: that it is cancelled, and
that a formula needs a capability which the host lacks.
-/
namespace TargetView

/-- Why a pass ended early. -/
inductive Abort where
  | cancelled
  | missing (m : MissingIntrinsic)
  deriving DecidableEq, Inhabited

namespace Abort

/-- The message of an abort. -/
def message : Abort → String
  | cancelled => "execution cancelled"
  | missing m => m.message

end Abort

/-- What is kept from pass to pass, by the numbers of nodes. -/
structure Memo where
  /-- The reads that are not repeated. -/
  done : Std.ExtTreeSet Nat := ∅
  /-- The results of the last run of each calculation. -/
  results : Std.ExtTreeMap Nat (List (Option Value)) := ∅
  deriving Inhabited

/-- What a pass works on and collects.  The lines are collected latest first. -/
structure PassState (τ : Type) where
  machine : Machine τ
  memo : Memo
  breaks : List Nat := []
  disabled : List Nat := []

/-- What a pass is given. -/
structure Setting (τ : Type) where
  target : Target τ
  config : Config := {}
  formatter : Formatter := fun _ _ => none
  /-- What stands between the formulas and the host of the machine: nothing, unless the pass is
  watched. -/
  observer : Host (Machine τ) → Host (Machine τ) := id

/-- A step of a pass over a target with state `τ`. -/
abbrev Pass (τ : Type) := ExceptT Abort (StateM (PassState τ))

namespace Pass

variable {τ α : Type} (setting : Setting τ)

/-! ### Steps -/

/-- Acts on the machine. -/
def onMachine (act : StateM (Machine τ) α) : Pass τ α :=
  ExceptT.lift fun s =>
    let ⟨machine, memo, breaks, disabled⟩ := s
    let (result, machine) := act.run machine
    (result, ⟨machine, memo, breaks, disabled⟩)

/-- Acts on the target. -/
def onTarget (act : StateM τ α) : Pass τ α := onMachine (Machine.onTarget act)

/-- Acts on the store. -/
def onStore (act : StateM Store α) : Pass τ α := onMachine (Machine.onStore act)

/-- Binds a global. -/
def setSymbol (name : String) (v : Value) : Pass τ Unit := onStore (modify (·.set name v))

/-- Changes the memo. -/
def onMemo (act : Memo → Memo) : Pass τ Unit := modify fun s => { s with memo := act s.memo }

/-- Whether a read has been done once and for all. -/
def isDone (id : Nat) : Pass τ Bool := return (← get).memo.done.contains id

/-- Takes a read for done once and for all. -/
def markDone (id : Nat) : Pass τ Unit :=
  onMemo fun memo => { memo with done := memo.done.insert id }

/-- Ends the pass if it is cancelled. -/
def checkCancelled : Pass τ Unit := do
  if setting.target.isCancelled (← get).machine.target then throw .cancelled

/-! ### Formulas -/

/-- The host that formulas are evaluated on. -/
def host : Host (Machine τ) :=
  setting.observer (Machine.host setting.target setting.formatter)

/-- The value of a formula, none if it has no value. -/
def value? (f : Formula) : Pass τ (Option Value) := do
  match ← onMachine (Evaluation.attempt (host setting) none f.parsed).run with
  | .ok v => return v
  | .error m => throw (.missing m)

/-- The integer reading of a formula. -/
def int? (f : Formula) : Pass τ (Option Int64) :=
  return (← value? setting f).bind (·.toInt?)

/-- The integer reading of an optional formula; `absent` if there is none. -/
def intOr (absent : Int64) : Option Formula → Pass τ Int64
  | none => pure absent
  | some f => return (← int? setting f).getD absent

/-- Whether a formula has a value and it holds. -/
def holds (f : Formula) : Pass τ Bool :=
  return (← value? setting f).any (·.isTrue)

/-- A value with the contents of containers. -/
def described (v : Value) : Pass τ String := return (← get).machine.store.describe v

/-- The text of the value of a formula. -/
def text? (f : Formula) : Pass τ (Option String) := do
  match ← value? setting f with
  | some v => return some (← described v)
  | none => return none

/-- The text of a label: a text that is no format text is shown as it is. -/
def label? (f : Formula) : Pass τ (Option String) :=
  if f.isTemplate then text? setting f else pure (some f.text)

/-- Applies a step to an optional formula. -/
def onFormula (step : Formula → Pass τ (Option String)) : Option Formula → Pass τ (Option String)
  | none => pure none
  | some f => step f

end Pass
end TargetView
