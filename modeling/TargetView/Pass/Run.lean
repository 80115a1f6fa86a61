import TargetView.Pass.Reading

/-!
# Running the statements of a view

`runNode` runs a node: its condition, its effect, and the nodes below it in the order of their
lines.  A group or a row whose condition does not hold still has its place in the view, hidden and
without children; any other node leaves nothing then.

A loop sets its variable, tests whether to go on, and runs what is below it; the variable counts up
from the start, whatever happens to the symbol meanwhile.  No loop runs its body more often than the
greatest number of iterations.
-/
namespace TargetView.Pass

variable {τ : Type} (setting : Setting τ)

/-- The width of a variable that names none. -/
def defaultSize : Nat := 4

/-- The width of a variable: that of its type, or the one it names. -/
def variableSize (v : Variable) : Pass τ Nat := do
  match v.type?, v.size? with
  | some type, _ => return type.size
  | none, some size =>
    match (← int? setting size).map (·.toInt) with
    | some n => return if 0 ≤ n ∧ n < (UInt32.size : Int) then n.toNat else defaultSize
    | none => return defaultSize
  | none, none => return defaultSize

/-- The value that a variable starts with. -/
def initialValue (v : Variable) : Pass τ (Option Value) :=
  match v.value? with
  | some f => value? setting f
  | none => pure (some .zero)

/-- Declares a variable, unless its name is empty or its value cannot be evaluated. -/
def declare (v : Variable) : Pass τ Unit := do
  unless v.name.isEmpty do
    if let some value ← initialValue setting v then
      let size ← variableSize setting v
      setSymbol v.name value
      onTarget (setting.target.setVariable v.name size value)

/-- The values of some formulas, one after the other. -/
def values : List Formula → Pass τ (List (Option Value))
  | [] => pure []
  | f :: rest => do
    let first ← value? setting f
    return first :: (← values rest)

/-- Runs a calculation and keeps its results. -/
def calculate (id : Nat) (formulas : List Formula) : Pass τ Unit := do
  onMemo fun memo => { memo with results := memo.results.erase id }
  let results ← values setting formulas
  onMemo fun memo => { memo with results := memo.results.insert id results }

/-- Runs the body of a loop as long as `goesOn` says so for the index, at most so many times. -/
def iterate (goesOn : Int64 → Pass τ Bool) (body : Pass τ (List Row)) :
    Nat → Int64 → Array Row → Pass τ (Array Row)
  | 0, index, rows => do
    discard <| goesOn index
    return rows
  | fuel + 1, index, rows => do
    if ← goesOn index then
      let more ← body
      iterate goesOn body fuel (index + 1) (rows ++ more)
    else return rows

/-- Sets the variable of a loop and tests whether the loop goes on. -/
def goesOn (l : Loop) (limit index : Int64) : Pass τ Bool := do
  if let some name := l.name? then
    setSymbol name (.number (Binary64.ofInt index.toInt))
  match l.while? with
  | some condition => holds setting condition
  | none => return index < limit

/-- Runs a loop.  One with a limit and a condition is reported and not run. -/
def loop (l : Loop) (line : Nat) (body : Pass τ (List Row)) : Pass τ (List Row) := do
  if l.isConsistent then
    let start ← intOr setting 0 l.start?
    let limit ← intOr setting 0 l.limit?
    let rows ← iterate (goesOn setting l limit) body setting.config.maxIterations start #[]
    return rows.toList
  else
    modify fun s => { s with disabled := line :: s.disabled }
    return []

/-- What a node leaves in the view when its condition does not hold. -/
def hidden (statement : Statement) (line : Nat) : List Row :=
  match statement with
  | .group g => [⟨g.displayName, none, false, line, []⟩]
  | .row _ => [⟨"", none, false, line, []⟩]
  | _ => []

/-- Whether a node is to run. -/
def condition : Option Formula → Pass τ Bool
  | none => pure true
  | some f => holds setting f

/-- The effect of a statement, together with the rows of what is below it. -/
def effect (id line : Nat) (statement : Statement) (below : Pass τ (List Row)) :
    Pass τ (List Row) := do
  match statement with
  | .group g =>
    let value ← onFormula (text? setting) g.value?
    let rows ← below
    return [⟨g.displayName, value, true, line, rows⟩]
  | .row r =>
    let name ← onFormula (label? setting) r.property?
    let value ← onFormula (label? setting) r.value?
    let rows ← below
    return [⟨name.getD "", value, true, line, rows⟩]
  | .var v =>
    declare setting v
    below
  | .calc formulas =>
    calculate setting id formulas
    below
  | .read r =>
    read setting id r
    below
  | .readList r =>
    readList setting id r
    below
  | .list l => loop setting l line below
  | .breakpoint _ =>
    modify fun s => { s with breaks := line :: s.breaks }
    below

mutual
/-- Runs a node and gives the rows it leaves in the view. -/
def runNode : StatementNode → Pass τ (List Row)
  | ⟨id, statement, line, condition?, children⟩ => do
    checkCancelled setting
    if ← condition setting condition? then effect setting id line statement (runNodes children)
    else return hidden statement line

/-- Runs some nodes, one after the other. -/
def runNodes : List StatementNode → Pass τ (List Row)
  | [] => pure []
  | n :: rest => do
    let rows ← runNode n
    return rows ++ (← runNodes rest)
end

/-- Runs a tree. -/
def runTree (tree : StatementTree) : Pass τ (List Row) :=
  match tree.root? with
  | some root => runNode setting root
  | none => pure []

end TargetView.Pass
