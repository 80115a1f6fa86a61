/-!
# Reports of a pass

A pass shows rows and reports the lines of the breakpoints it came by and of the loops it could not
run.
-/
namespace TargetView

/-- One row of the view, with the rows below it. -/
structure Row where
  name : String
  value? : Option String
  /-- Whether the condition of the statement held. -/
  visible : Bool
  line : Nat
  children : List Row

namespace Row

instance : Inhabited Row := ⟨⟨"", none, false, 0, []⟩⟩

mutual
/-- The first row with a name, from this one downwards. -/
def find? (name : String) : Row → Option Row
  | ⟨own, value?, visible, line, children⟩ =>
    if own == name then some ⟨own, value?, visible, line, children⟩
    else findAmong? name children

/-- The first row with a name, from some rows downwards. -/
def findAmong? (name : String) : List Row → Option Row
  | [] => none
  | r :: rest => (find? name r).or (findAmong? name rest)
end

end Row

/-- What a pass produced. -/
structure Report where
  rows : List Row
  /-- The lines of the breakpoints reached, in order. -/
  breaks : List Nat
  /-- The lines of the loops that were not run. -/
  disabled : List Nat
  deriving Inhabited

namespace Report

/-- The first row with a name. -/
def find? (r : Report) (name : String) : Option Row := Row.findAmong? name r.rows

end Report
end TargetView
