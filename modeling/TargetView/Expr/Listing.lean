import TargetView.Conversion
import TargetView.Expr.Folding

/-!
# Node listings

A listing numbers the nodes of an expression from zero, every node after its operands and the
operands from left to right.  In a listed node the operands are numbers of earlier nodes.  The
listing of an expression ends with the expression itself.
-/
namespace TargetView

/-- What is written in one segment of a listed format text. -/
inductive ListedSegment where
  | text (s : String)
  | format (spec : Conversion) (expr : Nat)
  deriving DecidableEq, Repr

/-- An expression whose operands are numbers of nodes. -/
inductive Shape where
  | number (value : Literal)
  | text (value : String)
  | ident (name : String)
  | member (base : Nat) (name : String)
  | index (base key : Nat)
  | unary (op : UnaryOp) (operand : Nat)
  | binary (op : BinaryOp) (left right : Nat)
  | conditional (cond yes no : Nat)
  | assign (op : AssignOp) (target value : Nat)
  | update (op : UpdateOp) (before : Bool) (target : Nat)
  | call (callee : Nat) (args : List Nat)
  | intrinsic (fn : Intrinsic) (args : List Nat)
  | template (segments : List ListedSegment)
  | malformed

/-- A listed node. -/
structure Node where
  shape : Shape
  span : Span
  constant : Option Constant

/-- Nodes in the order of their numbers. -/
abbrev Listing := Array Node

/-- The number of the node listed last. -/
def Listing.last (nodes : Listing) : Nat := nodes.size - 1

/-- The numbers of the operands, from left to right. -/
def Shape.operands : Shape → List Nat
  | .number _ | .text _ | .ident _ | .malformed => []
  | .member base _ => [base]
  | .index base key => [base, key]
  | .unary _ operand => [operand]
  | .binary _ left right => [left, right]
  | .conditional cond yes no => [cond, yes, no]
  | .assign _ target value => [target, value]
  | .update _ _ target => [target]
  | .call callee args => callee :: args
  | .intrinsic _ args => args
  | .template segments => segments.filterMap fun
    | .text _ => none
    | .format _ expr => some expr

namespace Expr

mutual
/-- The listing with the nodes of an expression behind it. -/
def listing (nodes : Listing) (e : Expr) : Listing :=
  match e with
  | number value s => nodes.push ⟨.number value, s, e.fold⟩
  | text value s => nodes.push ⟨.text value, s, e.fold⟩
  | ident name s => nodes.push ⟨.ident name, s, e.fold⟩
  | malformed s => nodes.push ⟨.malformed, s, none⟩
  | unnamed base s => (base.listing nodes).push ⟨.malformed, s, none⟩
  | member base name s =>
    let nodes := base.listing nodes
    nodes.push ⟨.member nodes.last name, s, none⟩
  | index base key s =>
    let nodes := base.listing nodes
    let b := nodes.last
    let nodes := key.listing nodes
    nodes.push ⟨.index b nodes.last, s, none⟩
  | unary op operand s =>
    let nodes := operand.listing nodes
    nodes.push ⟨.unary op nodes.last, s, e.fold⟩
  | binary op left right s =>
    let nodes := left.listing nodes
    let l := nodes.last
    let nodes := right.listing nodes
    nodes.push ⟨.binary op l nodes.last, s, e.fold⟩
  | conditional cond yes no s =>
    let nodes := cond.listing nodes
    let c := nodes.last
    let nodes := yes.listing nodes
    let y := nodes.last
    let nodes := no.listing nodes
    nodes.push ⟨.conditional c y nodes.last, s, e.fold⟩
  | assign op target value s =>
    let nodes := target.listing nodes
    let t := nodes.last
    let nodes := value.listing nodes
    nodes.push ⟨.assign op t nodes.last, s, e.fold⟩
  | update op before target s =>
    let nodes := target.listing nodes
    nodes.push ⟨.update op before nodes.last, s, none⟩
  | call callee args s =>
    let nodes := callee.listing nodes
    let c := nodes.last
    let (nodes, ids) := listingAll nodes args
    nodes.push ⟨.call c ids, s, none⟩
  | intrinsic fn nameSpan args s =>
    let (nodes, ids) := listingAll (nodes.push ⟨.ident fn.name, nameSpan, none⟩) args
    nodes.push ⟨.intrinsic fn ids, s, none⟩

/-- The listing with the nodes of some expressions behind it, and their numbers. -/
def listingAll (nodes : Listing) : List Expr → Listing × List Nat
  | [] => (nodes, [])
  | e :: rest =>
    let nodes := e.listing nodes
    let first := nodes.last
    let (nodes, ids) := listingAll nodes rest
    (nodes, first :: ids)
end

end Expr
end TargetView
