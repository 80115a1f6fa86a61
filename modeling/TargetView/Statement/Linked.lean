import TargetView.Statement.Tree

/-!
# Statement trees with links

A statement tree as it is stored.  Its nodes lie in one array in the order in which they came into
the tree, and know each other by their numbers: a node has a list of those below it and, besides, a
link to the one above it.  Whatever adds a node has to keep the two in agreement.

`LinkedTree.build` goes through the description and puts each node behind all others; when all are
there, it sorts the children of each by their lines.  `LinkedTree.insertBreaks` looks for the place
of a breakpoint in the array and links it in there.  The loops over the links are given as many
steps as there are nodes.

The number of a node is its place in the array as far as `number` can tell places apart: a number
has 32 bits (`LinkedTree.wrapped`).
-/
namespace TargetView

/-- A node of the array. -/
structure LinkedNode where
  statement : Statement
  line : Nat
  /-- The condition for running the node and everything below it. -/
  condition? : Option Formula
  /-- The number of the node above. -/
  parent? : Option Nat
  /-- The numbers of the nodes below. -/
  children : List Nat

instance : Inhabited LinkedNode := ⟨⟨.breakpoint none, 0, none, none, []⟩⟩

/-- The node with its children in the order of their lines; those of one line keep theirs. -/
def LinkedNode.sortBy (line : Nat → Nat) (n : LinkedNode) : LinkedNode :=
  { n with children := n.children.mergeSort fun a b => line a ≤ line b }

/-- The nodes of a tree, and the number of the outermost one. -/
structure LinkedTree where
  nodes : Array LinkedNode := #[]
  root? : Option Nat := none

namespace LinkedTree

/-- The number of nodes. -/
def size (t : LinkedTree) : Nat := t.nodes.size

/-- The node with a number. -/
def node (t : LinkedTree) (i : Nat) : LinkedNode := t.nodes[i]?.getD default

/-- The line of the node with a number. -/
def line (t : LinkedTree) (i : Nat) : Nat := (t.node i).line

/-- The number of a place in 32 bits. -/
def wrapped (place : Nat) : Nat := place % UInt32.size

/-! ### Building -/

/-- Adds a number to the children of a node. -/
def addChild (t : LinkedTree) (parent child : Nat) : LinkedTree :=
  { t with nodes := t.nodes.modify parent fun n => { n with children := n.children ++ [child] } }

/-- Sorts the children of a node. -/
def sortChildren (t : LinkedTree) (i : Nat) : LinkedTree :=
  { t with nodes := t.nodes.modify i (·.sortBy t.line) }

variable (number : Nat → Nat)

/-- Sorts the children of every node. -/
def sortAll (t : LinkedTree) : LinkedTree :=
  (List.range t.size).foldl (fun t i => t.sortChildren (number i)) t

/-- Puts the node of a declaration behind all others, with a link to the one above it. -/
def push (t : LinkedTree) (statement : Statement) (d : Declaration) (parent? : Option Nat) :
    Nat × LinkedTree :=
  (number t.size,
    { t with nodes := t.nodes.push ⟨statement, d.line, d.formula? "cond", parent?, []⟩ })

mutual
/-- Adds the node of a declaration and those below it, and tells its number. -/
def convert (parent? : Option Nat) : Declaration → LinkedTree → Option Nat × LinkedTree
  | ⟨tag, line, attributes, text, children⟩, t =>
    let d : Declaration := ⟨tag, line, attributes, text, []⟩
    match d.statement? with
    | none => (none, t)
    | some statement =>
      let (i, t) := push number t statement d parent?
      (some i, convertAll i children t)

/-- Adds the nodes of some declarations below a node. -/
def convertAll (parent : Nat) : List Declaration → LinkedTree → LinkedTree
  | [], t => t
  | d :: rest, t =>
    match convert (some parent) d t with
    | (none, t) => convertAll parent rest t
    | (some i, t) => convertAll parent rest (t.addChild parent i)
end

/-- The tree of a declaration. -/
def build (d : Declaration) : LinkedTree :=
  let (root?, t) := convert number none d {}
  sortAll number { t with root? }

/-! ### Lines -/

/-- The largest of a line and the lines that are met from a stack on, its top first. -/
def lastLineFrom (t : LinkedTree) : Nat → Nat → List Nat → Nat
  | 0, last, _ => last
  | _ + 1, last, [] => last
  | steps + 1, last, i :: stack =>
    lastLineFrom t steps (max last (t.line i)) ((t.node i).children.reverse ++ stack)

/-- The line of a node and the largest one from it downwards. -/
def lineSpan (t : LinkedTree) (i : Nat) : Nat × Nat :=
  (t.line i, t.lastLineFrom t.size (t.line i) [i])

/-! ### Breakpoints -/

/-- Whether a node is no breakpoint and has the line among its lines. -/
def takes (t : LinkedTree) (line : Nat) (i : Nat) : Bool :=
  !(t.node i).statement.isBreak && (t.lineSpan i).1 ≤ line && line ≤ (t.lineSpan i).2

/-- The node that is found by going from a node into the first child that takes the line, as long
as there is one. -/
def descend (t : LinkedTree) (line : Nat) : Nat → Nat → Nat
  | 0, current => current
  | steps + 1, current =>
    match (t.node current).children.find? (t.takes line) with
    | some child => descend t line steps child
    | none => current

/-- Links the breakpoint of a declaration in where its line leads, unless there is one at its
line. -/
def insertBreak (t : LinkedTree) (d : Declaration) : LinkedTree :=
  match t.root? with
  | none => t
  | some root =>
    if d.kind? != some .break then t
    else
      let target := t.descend d.line t.size root
      let isDuplicate (i : Nat) : Bool :=
        (t.node i).statement.isBreak && t.line i == d.line
      if (t.node target).children.any isDuplicate then t
      else
        match d.statement? with
        | none => t
        | some statement =>
          let (i, t) := push number t statement d (some target)
          (t.addChild target i).sortChildren target

/-- Adds breakpoints, one after the other. -/
def insertBreaks (t : LinkedTree) (breaks : List Declaration) : LinkedTree :=
  breaks.foldl (insertBreak number) t

/-! ### Walks -/

/-- The numbers that are met from a stack on, its top first: the top is taken away and its children
are put in its place. -/
def walk (t : LinkedTree) : Nat → List Nat → List Nat
  | 0, _ => []
  | _ + 1, [] => []
  | steps + 1, i :: stack => i :: walk t steps ((t.node i).children ++ stack)

/-- The numbers of the nodes in the order in which they run. -/
def preorder (t : LinkedTree) : List Nat := t.walk t.size t.root?.toList

end LinkedTree
end TargetView
