import TargetView.Proofs.Cells
import TargetView.Proofs.Folding
import TargetView.Proofs.Observation

/-! # Chains of members and elements

A chain is a name followed by keys, each of them a member name or an index that
is a constant (`Expr.Chain`).  Reading a chain reads from container to
container; as the target of an assignment it denotes a place, and the containers
on the way there are created where they are missing.
-/
namespace TargetView

namespace Expr

/-- The expression selects what stands at a key of its base. -/
inductive Selects : Expr → Expr → Key → Prop
  | member (base : Expr) (name : String) (span : Span) :
    Selects (.member base name span) base (.name name)
  | index (base : Expr) {key : Expr} {c : Scalar} (h : key.pureConstant? = some c) (span : Span) :
    Selects (.index base key span) base (.ofValue (.scalar c))

/-- The expression is a name followed by some keys. -/
inductive Chain (x : String) : Expr → List Key → Prop
  | name (span : Span) : Chain x (.ident x span) []
  | key {e base : Expr} {keys : List Key} {key : Key} (h : Chain x base keys)
    (hselects : Selects e base key) : Chain x e (keys ++ [key])

variable {e base : Expr} {x : String} {key : Key} {keys : List Key}

theorem Selects.pureConstant? (h : Selects e base key) : e.pureConstant? = none := by
  cases h <;> rfl

theorem Chain.pureConstant? (h : Chain x e keys) : e.pureConstant? = none := by
  cases h with
  | name => rfl
  | key _ hselects => exact hselects.pureConstant?

end Expr

open TargetView.Expr

namespace Evaluation

variable {σ : Type} (host : Host σ) (scope : Option Ref) {e base : Expr} {key : Key}

theorem eval_of_selects (h : Selects e base key) :
    eval host scope e = (do host.readMember (← eval host scope base) key) := by
  unfold eval
  cases h with
  | member => rw [evalWith]; rfl
  | index _ hkey =>
    rw [evalWith]
    simp only [evalWith_known hkey, pure_bind]
    rfl

theorem place_of_selects (h : Selects e base key) :
    placeWith host scope Expr.pureConstant? e = (do
      let place ← placeWith host scope Expr.pureConstant? base
      return .key (← host.containerAt scope place key) key) := by
  cases h with
  | member => rw [placeWith]
  | index _ hkey =>
    rw [placeWith]
    simp only [evalWith_known hkey, pure_bind]

/-- The value that an assignment writes at its place. -/
def assigned (op : AssignOp) (value : Expr) (place : Place) : Eval σ Value :=
  match op with
  | .assign => eval host scope value
  | .compound op => do
    let current ← host.readPlace scope place
    let operand ← eval host scope value
    let l ← current.operand
    let r ← operand.operand
    return .scalar (← op.apply l r)

/-- An assignment finds its place first, and writes there last. -/
theorem run_assign {p : Parsed} {op : AssignOp} {target value : Expr} {span : Span}
    (hp : p.body = .expression (.assign op target value span)) :
    run host scope p = (do
      let place ← placeWith host scope Expr.pureConstant? target
      let result ← assigned host scope op value place
      host.writePlace scope place result
      return result) := by
  have hknown : (Expr.assign op target value span).pureConstant? = none := by
    unfold Expr.pureConstant? fold foldAssign
    cases op with
    | assign => cases value.fold <;> rfl
    | compound => rfl
  have hconstant : p.body.pureConstant? = none := by
    rw [hp]
    exact hknown
  rw [run, hconstant, hp]
  change evalWith host scope Expr.pureConstant? (.assign op target value span) = _
  rw [evalWith, hknown]
  cases op with
  | assign => rfl
  | compound op => simp only [assigned, eval, bind_assoc, pure_bind]

/-- A constant is written as it is. -/
theorem run_assign_constant {p : Parsed} {target value : Expr} {span : Span} {c : Scalar}
    (hp : p.body = .expression (.assign .assign target value span))
    (hvalue : value.pureConstant? = some c) :
    run host scope p = (do
      let place ← placeWith host scope Expr.pureConstant? target
      host.writePlace scope place (.scalar c)
      return .scalar c) := by
  rw [run_assign host scope hp]
  simp only [assigned, eval, evalWith_known hvalue, pure_bind]

/-- What is no constant is evaluated. -/
theorem run_of_pureConstant?_eq_none {p : Parsed} (h : p.body = .expression e)
    (hknown : e.pureConstant? = none) : run host scope p = eval host scope e := by
  have hconstant : p.body.pureConstant? = none := by
    rw [h]
    exact hknown
  rw [run, hconstant, h]
  rfl

end Evaluation

/-! ## Places of a store -/

namespace Container

/-- The container that is made for a key. -/
def emptyFor (key : Key) : Container := if key.isIndex then .array #[] else .object ∅

theorem at?_emptyFor (key : Key) (slot : Slot) : (emptyFor key).at? slot = none := by
  cases key with
  | name s =>
    cases slot with
    | member name => exact Std.ExtTreeMap.getElem?_empty
    | element i => rfl
  | index i =>
    cases slot with
    | member name => rfl
    | element i => rfl

theorem not_holds_emptyFor (key : Key) (v : Value) : ¬(emptyFor key).Holds v := by
  cases key with
  | name s => exact not_holds_empty v
  | index i => exact Array.not_mem_empty v

end Container

namespace Store

/-- What a place holds. -/
def heldAt? (s : Store) (scope : Option Ref) : Place → Option Value
  | .symbol name => s.readSymbol scope name
  | .key ref key => s.readKey ref key

variable {s t : Store} {scope : Option Ref} {place : Place} {key : Key} {v : Value} {ref : Ref}

theorem run_symbolExists (s : Store) (scope : Option Ref) (name : String) :
    (liftM (Host.ofStore.symbolExists scope name) : Eval Store Bool).run.run s =
      (.ok (s.symbolExists scope name), s) :=
  rfl

theorem run_readSymbol (s : Store) (scope : Option Ref) (name : String) :
    (liftM (Host.ofStore.readSymbol scope name) : Eval Store (Option Value)).run.run s =
      (.ok (s.readSymbol scope name), s) :=
  rfl

theorem heldIn?_ofStore (s : Store) (scope : Option Ref) (place : Place) :
    Host.ofStore.heldIn? scope s place = s.heldAt? scope place := by
  cases place <;> rfl

/-- A name that has a value is read as it is. -/
theorem run_readName {name : String} (hpath : isPath name = false)
    (h : s.readSymbol scope name = some v) :
    (Host.ofStore.readName scope name).run.run s = (.ok v, s) := by
  have hexists : s.symbolExists scope name = true := by
    rw [symbolExists_eq, ← Option.isSome_or, ← readSymbol, h]
    rfl
  have hheld : Host.ofStore.heldIn? scope s (.symbol name) = some v := h
  rw [Host.observes_ofStore.run_readName hpath hexists, hheld]
  rfl

theorem run_readMember (s : Store) (ref : Ref) (key : Key) :
    (Host.ofStore.readMember (.container ref) key).run.run s =
      (.ok ((s.readKey ref key).getD .undefined), s) :=
  rfl

theorem run_writePlace_symbol (s : Store) (scope : Option Ref) (name : String) (v : Value) :
    (Host.ofStore.writePlace scope (.symbol name) v).run.run s =
      (.ok (), s.writeSymbol scope name v) :=
  rfl

theorem run_writePlace_key (s : Store) (scope : Option Ref) (ref : Ref) (key : Key) (v : Value) :
    (Host.ofStore.writePlace scope (.key ref key) v).run.run s =
      if s.acceptsKey ref key then (.ok (), s.modify ref key v)
      else (.error (.writeRejected key.display), s) := by
  have hwrite : (liftM (Host.ofStore.writeKey ref key v) : Eval Store Bool).run.run s =
      (.ok (s.writeKey ref key v).1, (s.writeKey ref key v).2) := run_liftM _ _
  unfold Host.writePlace
  rw [run_bind_of_ok hwrite]
  unfold writeKey
  split
  · rfl
  · rfl

theorem run_held? (s : Store) (scope : Option Ref) (place : Place) :
    (Host.ofStore.held? scope place).run.run s = (.ok (s.heldAt? scope place), s) := by
  rw [Host.observes_ofStore.run_held?, heldIn?_ofStore]

/-- A container that is there is taken. -/
theorem run_containerAt_of_held (h : s.heldAt? scope place = some (.container ref)) (key : Key) :
    (Host.ofStore.containerAt scope place key).run.run s = (.ok ref, s) :=
  Host.observes_ofStore.run_containerAt_of_holds ((heldIn?_ofStore s scope place).trans h) key

/-- Otherwise a new one is written at the place. -/
theorem run_containerAt_of_not_held (h : ∀ ref, s.heldAt? scope place ≠ some (.container ref))
    (key : Key) :
    (Host.ofStore.containerAt scope place key).run.run s =
      (do
        Host.ofStore.writePlace scope place (.container s.containers.size)
        return s.containers.size : Eval Store Ref).run.run (s.append [.emptyFor key]) := by
  unfold Host.containerAt
  rw [run_bind_of_ok (run_held? s scope place)]
  split
  · next ref hheld => exact absurd hheld (h ref)
  · unfold Container.emptyFor
    cases key.isIndex <;> rfl

end Store
end TargetView
