import TargetView.Pass.Run

/-!
# Views

A `View` is a statement tree with what is kept from pass to pass.  `execute` runs one pass over it:
first the target forgets the variables of the view and every cached register becomes stale, so that
each pass sees registers anew.
-/
namespace TargetView

/-- A statement tree with what is kept from pass to pass. -/
structure View where
  tree : StatementTree
  memo : Memo := {}
  deriving Inhabited

namespace View

variable {τ : Type}

/-- The machine at the start of a pass. -/
def prepare (setting : Setting τ) (machine : Machine τ) : Machine τ :=
  ((Machine.onTarget setting.target.clearVariables).run machine).2.onRegisters (·.invalidateAll)

/-- Runs one pass. -/
def execute (setting : Setting τ) (view : View) (machine : Machine τ) :
    Except Abort Report × View × Machine τ :=
  let ⟨tree, memo⟩ := view
  let start : PassState τ := { machine := prepare setting machine, memo }
  let (result, s) := (Pass.runTree setting tree).run.run start
  let report := result.map fun rows => ⟨rows, s.breaks.reverse, s.disabled.reverse⟩
  (report, ⟨tree, s.memo⟩, s.machine)

/-- The results of the last run of a calculation. -/
def results? (view : View) (id : Nat) : Option (List (Option Value)) := view.memo.results[id]?

/-- Adds breakpoints to the view. -/
def insertBreaks (view : View) (breaks : List Declaration) : View :=
  let ⟨tree, memo⟩ := view
  ⟨tree.insertBreaks breaks, memo⟩

end View
end TargetView
