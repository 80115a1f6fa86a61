import TargetView.Host

/-! # The calls of a host

`Host.logged` is a host that answers like another one and writes down every
operation it is asked for, in order.  Whatever holds of all hosts holds of it;
what it says of the log is then a statement about the calls.  `Host.tracing` writes
down only what changes symbols and containers.
-/
namespace TargetView
namespace Host

/-- An operation of a host with its arguments. -/
inductive Call where
  | symbolExists (scope : Option Ref) (name : String)
  | readSymbol (scope : Option Ref) (name : String)
  | writeSymbol (scope : Option Ref) (name : String) (v : Value)
  | isArray (ref : Ref)
  | newObject
  | newArray
  | readKey (ref : Ref) (key : Key)
  | writeKey (ref : Ref) (key : Key) (v : Value)
  | resolvePath (path : String)
  | bytesUsed
  | dispatch (fn : Intrinsic) (args : List Value)
  | memoryInUse (args : List Value)
  | answerFor (fn : Intrinsic) (name : String)
  | hasRegisters
  | registerValue (name : String)
  | formatValue (spec : Conversion) (v : Value)

variable {σ α : Type}

/-- Does as it is told and writes down the call. -/
def logging (call : Call) (act : StateM σ α) : StateM (σ × List Call) α :=
  fun (s, calls) =>
    let (a, s) := act.run s
    (a, (s, calls ++ [call]))

/-- The host that keeps a log of its calls beside its state. -/
def logged (host : Host σ) : Host (σ × List Call) where
  symbolExists scope name := logging (.symbolExists scope name) (host.symbolExists scope name)
  readSymbol scope name := logging (.readSymbol scope name) (host.readSymbol scope name)
  writeSymbol scope name v := logging (.writeSymbol scope name v) (host.writeSymbol scope name v)
  isArray ref := logging (.isArray ref) (host.isArray ref)
  newObject := logging .newObject host.newObject
  newArray := logging .newArray host.newArray
  readKey ref key := logging (.readKey ref key) (host.readKey ref key)
  writeKey ref key v := logging (.writeKey ref key v) (host.writeKey ref key v)
  resolvePath path := logging (.resolvePath path) (host.resolvePath path)
  bytesUsed := logging .bytesUsed host.bytesUsed
  dispatch fn args := logging (.dispatch fn args) (host.dispatch fn args)
  memoryInUse args := logging (.memoryInUse args) (host.memoryInUse args)
  answerFor fn name := logging (.answerFor fn name) (host.answerFor fn name)
  hasRegisters := logging .hasRegisters host.hasRegisters
  registerValue name := logging (.registerValue name) (host.registerValue name)
  formatValue spec v := logging (.formatValue spec v) (host.formatValue spec v)

/-- Does as it is told and writes nothing down. -/
def silent (act : StateM σ α) : StateM (σ × List Call) α :=
  fun (s, calls) =>
    let (a, s) := act.run s
    (a, (s, calls))

/-- The host that keeps a log of its effects beside its state: of writes and of
new containers. -/
def tracing (host : Host σ) : Host (σ × List Call) where
  symbolExists scope name := silent (host.symbolExists scope name)
  readSymbol scope name := silent (host.readSymbol scope name)
  writeSymbol scope name v := logging (.writeSymbol scope name v) (host.writeSymbol scope name v)
  isArray ref := silent (host.isArray ref)
  newObject := logging .newObject host.newObject
  newArray := logging .newArray host.newArray
  readKey ref key := silent (host.readKey ref key)
  writeKey ref key v := logging (.writeKey ref key v) (host.writeKey ref key v)
  resolvePath path := silent (host.resolvePath path)
  bytesUsed := silent host.bytesUsed
  dispatch fn args := silent (host.dispatch fn args)
  memoryInUse args := silent (host.memoryInUse args)
  answerFor fn name := silent (host.answerFor fn name)
  hasRegisters := silent host.hasRegisters
  registerValue name := silent (host.registerValue name)
  formatValue spec v := silent (host.formatValue spec v)

end Host
end TargetView
