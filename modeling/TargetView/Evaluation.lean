import TargetView.ElementType
import TargetView.Expr.Folding
import TargetView.Formula
import TargetView.Host
import TargetView.Value.Rendering

/-!
# Evaluation

`evalWith known` evaluates an expression on a host, with one container in scope or none.  Where
`known` tells the value of a subexpression, that value stands for it; otherwise its parts are
evaluated from left to right.  `eval` takes the pure constants for known, `walkAll` nothing.

The order of effects: an assignment finds its place before it evaluates its right-hand side, and a
compound assignment reads the place in between.  An element as a place evaluates its index before
its base.  A base that holds no container gets a new one: an array if the key behind it is an
index, an object otherwise.  Reading an unknown symbol creates it with the value zero, whereas an
unknown member or element is `undefined`.
-/
namespace TargetView

/-- An evaluation on a host with state `σ`. -/
abbrev Eval (σ : Type) := ExceptT Fault (StateM σ)

/-- Where an assignment or an update writes. -/
inductive Place where
  | symbol (name : String)
  | key (ref : Ref) (key : Key)
  deriving DecidableEq, Inhabited

/-- Whether a name is a path of names joined by colons. -/
def isPath (name : String) : Bool := name.toList.contains ':'

/-- The value as an operand. -/
def Value.operand {σ : Type} (v : Value) : Eval σ Scalar :=
  match v.toScalar? with
  | some s => pure s
  | none => throw .containerInArithmetic

/-- The result of an operator on two operands. -/
def BinaryOp.apply {σ : Type} (op : BinaryOp) (l r : Scalar) : Eval σ Scalar :=
  match Scalar.binary op l r with
  | .ok s => pure s
  | .error fault => throw (.operator fault)

/-- What an operator that does not decide early makes of two values.  Containers are equal if they
are the same one; in all else they are no operands. -/
def BinaryOp.onValues {σ : Type} (op : BinaryOp) (l r : Value) : Eval σ Value :=
  match op, l, r with
  | .eq, .container a, .container b => pure (.ofBool (a == b))
  | .ne, .container a, .container b => pure (.ofBool (a != b))
  | op, l, r => do
    let l ← l.operand
    let r ← r.operand
    return .scalar (← op.apply l r)

namespace Expr

/-- What a call names as the thing that cannot be called. -/
def calleeName : Expr → String
  | ident name _ => name
  | member _ name _ => name
  | _ => "expression"

end Expr

namespace Host

variable {σ : Type} (host : Host σ) (scope : Option Ref)

/-- Reads a name.  An unknown one is created with the value zero. -/
def readName (name : String) : Eval σ Value := do
  if isPath name then
    match ← host.resolvePath name with
    | some v => return v
    | none => throw (.unresolvedPath name)
  else if ← host.symbolExists scope name then
    return (← host.readSymbol scope name).getD .undefined
  else if ← host.writeSymbol scope name .zero then return .zero
  else throw (.writeRejected name)

/-- The value at a key, `undefined` if there is none or `base` is no container. -/
def readMember (base : Value) (key : Key) : Eval σ Value :=
  match base with
  | .container ref => return (← host.readKey ref key).getD .undefined
  | _ => pure .undefined

/-- The value at a place, as an operand of what is written there. -/
def readPlace : Place → Eval σ Value
  | .symbol name => host.readName scope name
  | .key ref key => return (← host.readKey ref key).getD .undefined

/-- Writes at a place. -/
def writePlace (place : Place) (v : Value) : Eval σ Unit :=
  match place with
  | .symbol name => do
    unless ← host.writeSymbol scope name v do throw (.writeRejected name)
  | .key ref key => do
    unless ← host.writeKey ref key v do throw (.writeRejected key.display)

/-- What a place holds at present; a symbol is not created. -/
def held? : Place → Eval σ (Option Value)
  | .symbol name => host.readSymbol scope name
  | .key ref key => host.readKey ref key

/-- The container at a place.  If there is none, a new one is written there, of the kind that the
key behind the place asks for. -/
def containerAt (place : Place) (key : Key) : Eval σ Ref := do
  match ← host.held? scope place with
  | some (.container ref) => return ref
  | _ =>
    let ref ← if key.isIndex then host.newArray else host.newObject
    host.writePlace scope place (.container ref)
    return ref

/-! ### Intrinsics -/

/-- The bytes in use, by the statistics of the host. -/
def builtinMemoryInUse : Eval σ Value := do
  match ← host.bytesUsed with
  | some bytes => return .scalar (.ofWord bytes)
  | none => throw (.missing ⟨.calcMemUsed, "host provides no memory statistics"⟩)

/-- The value of a register. -/
def builtinRegister (name : String) : Eval σ Value := do
  unless ← host.hasRegisters do
    throw (.missing ⟨.getRegVal, "host has no register access"⟩)
  if isPath name then throw (.unresolvedPath name)
  match ← host.registerValue name with
  | some v => return v
  | none => throw (.registerUnavailable name)

/-- Whether a name had a value before; an unknown one is created like by a read. -/
def builtinExists (name : String) : Eval σ Value := do
  if isPath name then return .ofBool (← host.resolvePath name).isSome
  else if ← host.symbolExists scope name then return .ofBool true
  else
    discard <| host.readName scope name
    return .ofBool false

/-- The answer of an intrinsic that the host leaves to its default.  Without type information an
offset is zero, and the types of known size are the element types. -/
def builtin (fn : Intrinsic) (name : String) : Eval σ Value :=
  match fn with
  | .calcMemUsed => host.builtinMemoryInUse
  | .findSymbol => host.readName scope name
  | .getRegVal => host.builtinRegister name
  | .offsetOf => pure .zero
  | .sizeOf =>
    match ElementType.ofName? name with
    | some type => pure (.number (Binary64.ofNat type.size))
    | none => throw (.unknownType (Text.trimmed name))
  | .symbolExists => host.builtinExists scope name

/-- An answer of the host, or a default if it has none. -/
def answerOr (answer? : Option Answer) (default : Eval σ Value) : Eval σ Value :=
  match answer? with
  | some answer => liftExcept answer
  | none => default

/-- Calls an intrinsic with evaluated arguments. -/
def callIntrinsic (fn : Intrinsic) (args : List Value) : Eval σ Value := do
  answerOr (← host.dispatch fn args) <|
    match fn, args with
    | .calcMemUsed, args => do answerOr (← host.memoryInUse args) host.builtinMemoryInUse
    | fn, [arg] => do
      answerOr (← host.answerFor fn arg.display) (host.builtin scope fn arg.display)
    | fn, args => throw (.wrongArgumentCount fn 1 args.length)

end Host

namespace Evaluation

variable {σ : Type} (host : Host σ) (scope : Option Ref) (known : Expr → Option Scalar)

mutual
/-- Evaluates an expression, given what is known about its parts. -/
def evalWith (e : Expr) : Eval σ Value :=
  match known e with
  | some s => pure (.scalar s)
  | none =>
    match e with
    | .number value _ => pure (.scalar value.toScalar)
    | .text value _ => pure (.text value)
    | .ident name _ => host.readName scope name
    | .member base name _ => do host.readMember (← evalWith base) (.name name)
    | .index base key _ => do
      let base ← evalWith base
      let key ← evalWith key
      host.readMember base (.ofValue key)
    | .unary op operand _ => do
      return .scalar (Scalar.unary op (← (← evalWith operand).operand))
    | .binary op left right _ => do
      let left ← evalWith left
      match op with
      | .and =>
        if left.isTrue then return .ofBool (← evalWith right).isTrue else return .ofBool false
      | .or =>
        if left.isTrue then return .ofBool true else return .ofBool (← evalWith right).isTrue
      | op => op.onValues left (← evalWith right)
    | .conditional cond yes no _ => do
      if (← evalWith cond).isTrue then evalWith yes else evalWith no
    | .assign op target value _ => do
      let place ← placeWith target
      let result ←
        match op with
        | .assign => evalWith value
        | .compound op => do
          let current ← host.readPlace scope place
          let operand ← evalWith value
          let l ← current.operand
          let r ← operand.operand
          pure (.scalar (← op.apply l r))
      host.writePlace scope place result
      return result
    | .update op before target _ => do
      let place ← placeWith target
      let old := Scalar.unary .plus (← (← host.readPlace scope place).operand)
      let new ← op.step.apply old (.number 1)
      host.writePlace scope place (.scalar new)
      return .scalar (if before then new else old)
    | .call callee _ _ => throw (.notCallable callee.calleeName)
    | .intrinsic fn _ args _ => do host.callIntrinsic scope fn (← argumentsWith fn args)
    | .malformed _ | .unnamed .. => throw .malformed

/-- The place that an expression denotes as the target of an assignment. -/
def placeWith : Expr → Eval σ Place
  | .ident name _ => if isPath name then throw .invalidTarget else pure (.symbol name)
  | .member base name _ => do
    let place ← placeWith base
    return .key (← host.containerAt scope place (.name name)) (.name name)
  | .index base key _ => do
    let key := Key.ofValue (← evalWith key)
    let place ← placeWith base
    return .key (← host.containerAt scope place key) key
  | _ => throw .invalidTarget

/-- The arguments of an intrinsic; those that are names for it are not evaluated. -/
def argumentsWith (fn : Intrinsic) : List Expr → Eval σ (List Value)
  | [] => pure []
  | e :: rest => do
    let first ←
      match e.nameFor? fn with
      | some name => pure (.text name)
      | none => evalWith e
    return first :: (← argumentsWith fn rest)
end

/-- The text of a value under a conversion: that of the host before the built-in one. -/
def rendered (spec : Conversion) (v : Value) : Eval σ String :=
  return (← host.formatValue spec v).getD (v.render spec)

/-- The text of some segments.  A segment that fails fails the whole text. -/
def renderWith : List Segment → Eval σ String
  | [] => pure ""
  | .text s :: rest => return s ++ (← renderWith rest)
  | .format spec e :: rest => do
    let first ← rendered host spec (← evalWith host scope known e)
    return first ++ (← renderWith rest)

/-- Evaluates a body: an expression, or a format text, whose value is the rendered text. -/
def bodyWith : Body → Eval σ Value
  | .expression e => evalWith host scope known e
  | .template segments _ => return .text (← renderWith host scope known segments)

/-- Evaluates an expression; a pure constant is not evaluated again. -/
def eval (e : Expr) : Eval σ Value := evalWith host scope Expr.pureConstant? e

/-- Evaluates a parsed text; if it is a pure constant as a whole, nothing is evaluated. -/
def run (p : Parsed) : Eval σ Value :=
  match p.body.pureConstant? with
  | some s => pure (.scalar s)
  | none => bodyWith host scope Expr.pureConstant? p.body

/-- Evaluates a parsed text by walking all of it. -/
def walkAll (p : Parsed) : Eval σ Value := bodyWith host scope (fun _ => none) p.body

/-- Evaluates a parsed text for those who can do without a value: only a missing capability of the
host is a failure. -/
def attempt (p : Parsed) : ExceptT MissingIntrinsic (StateM σ) (Option Value) :=
  ExceptT.mk <| do
    match ← (run host scope p).run with
    | .ok v => return .ok (some v)
    | .error (.missing m) => return .error m
    | .error _ => return .ok none

end Evaluation
end TargetView
