import TargetView.Statement

/-!
# The statement tree

The declarations that make statements form a tree.  Its nodes are numbered in the order in which
the declarations stand in the description; the children of a node are in the order of their lines,
and those of one line in the order of the description.  So the text of the view, not the order of
the description, decides what runs first.

`StatementTree.ofDeclaration` builds the tree and `StatementTree.insertBreaks` adds breakpoints to
it.  A breakpoint goes below the node that is found by descending from the root, always into the
first child that is no breakpoint itself and whose lines include its line.

Here nodes lie within each other, as a pass goes through them.  How they are stored, with links from
and to their parents, is told by `LinkedTree`.
-/
namespace TargetView

/-- A statement with its place in the description and the statements below it. -/
structure StatementNode where
  id : Nat
  statement : Statement
  line : Nat
  /-- The condition for running the node and everything below it. -/
  condition? : Option Formula
  children : List StatementNode

namespace StatementNode

instance : Inhabited StatementNode := ⟨⟨0, .breakpoint none, 0, none, []⟩⟩

mutual
/-- The number of nodes from this one downwards. -/
def size : StatementNode → Nat
  | ⟨_, _, _, _, children⟩ => sizeAll children + 1

/-- The number of nodes from some nodes downwards. -/
def sizeAll : List StatementNode → Nat
  | [] => 0
  | n :: rest => n.size + sizeAll rest
end

mutual
/-- The largest line from this node downwards. -/
def lastLine : StatementNode → Nat
  | ⟨_, _, line, _, children⟩ => lastLineAll line children

/-- The largest of a line and the lines from some nodes downwards. -/
def lastLineAll (line : Nat) : List StatementNode → Nat
  | [] => line
  | n :: rest => max n.lastLine (lastLineAll line rest)
end

mutual
/-- The nodes from this one downwards, in the order in which they run. -/
def preorder : StatementNode → List StatementNode
  | ⟨id, statement, line, condition?, children⟩ =>
    ⟨id, statement, line, condition?, children⟩ :: preorderAll children

/-- The nodes from some nodes downwards. -/
def preorderAll : List StatementNode → List StatementNode
  | [] => []
  | n :: rest => n.preorder ++ preorderAll rest
end

/-- Whether the node is a breakpoint. -/
def isBreak (n : StatementNode) : Bool := n.statement.isBreak

/-- Whether a line is between the line of the node and the largest one below it. -/
def spans (n : StatementNode) (line : Nat) : Bool := n.line ≤ line && line ≤ n.lastLine

/-- Nodes in the order of their lines; those of one line keep their order. -/
def sortByLine (nodes : List StatementNode) : List StatementNode :=
  nodes.mergeSort fun a b => a.line ≤ b.line

/-! ### Building -/

mutual
/-- The node of a declaration, numbered from `next` on, and the first number that is free then. -/
def ofDeclaration (next : Nat) : Declaration → Option (StatementNode × Nat)
  | ⟨tag, line, attributes, text, children⟩ =>
    let d : Declaration := ⟨tag, line, attributes, text, []⟩
    match d.statement? with
    | none => none
    | some statement =>
      let (nodes, free) := ofDeclarations (next + 1) children
      some (⟨next, statement, line, d.formula? "cond", sortByLine nodes⟩, free)

/-- The nodes of some declarations. -/
def ofDeclarations (next : Nat) : List Declaration → List StatementNode × Nat
  | [] => ([], next)
  | d :: rest =>
    match ofDeclaration next d with
    | none => ofDeclarations next rest
    | some (node, free) =>
      let (nodes, free) := ofDeclarations free rest
      (node :: nodes, free)
end

/-! ### Breakpoints -/

/-- Adds a breakpoint to the children of the node that is to have it, unless there is one at its
line. -/
def attach (new : StatementNode) (children : List StatementNode) : List StatementNode :=
  if children.any fun n => n.isBreak && n.line == new.line then children
  else sortByLine (children ++ [new])

mutual
/-- Adds a breakpoint below the node. -/
def insertBreak (new : StatementNode) : StatementNode → StatementNode
  | ⟨id, statement, line, condition?, children⟩ =>
    ⟨id, statement, line, condition?, (insertBelow new children).getD (attach new children)⟩

/-- Adds a breakpoint below the first of some nodes that takes it. -/
def insertBelow (new : StatementNode) : List StatementNode → Option (List StatementNode)
  | [] => none
  | n :: rest =>
    if !n.isBreak && n.spans new.line then some (insertBreak new n :: rest)
    else (insertBelow new rest).map (n :: ·)
end

end StatementNode

/-- The tree of a view description; it is empty if the outermost declaration makes no
statement. -/
structure StatementTree where
  root? : Option StatementNode

namespace StatementTree

instance : Inhabited StatementTree := ⟨⟨none⟩⟩

/-- The tree of a declaration. -/
def ofDeclaration (d : Declaration) : StatementTree :=
  ⟨(StatementNode.ofDeclaration 0 d).map (·.1)⟩

/-- The number of nodes. -/
def size (t : StatementTree) : Nat := t.root?.elim 0 (·.size)

/-- The nodes in the order in which they run. -/
def preorder (t : StatementTree) : List StatementNode := t.root?.elim [] (·.preorder)

/-- Adds the breakpoint of a declaration that makes one.  Its number is the first free one. -/
def insertBreak (t : StatementTree) (d : Declaration) : StatementTree :=
  if d.kind? == some .break then
    let new : StatementNode :=
      ⟨t.size, d.statementOf .break, d.line, d.formula? "cond", []⟩
    ⟨t.root?.map (StatementNode.insertBreak new)⟩
  else t

/-- Adds breakpoints, one after the other. -/
def insertBreaks (t : StatementTree) (breaks : List Declaration) : StatementTree :=
  breaks.foldl insertBreak t

end StatementTree
end TargetView
