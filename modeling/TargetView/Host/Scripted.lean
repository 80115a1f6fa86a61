import TargetView.Host
import TargetView.Register

/-!
# Scripted hosts

A scripted host is a store whose other answers are written down beforehand in a `Script`: what
paths, intrinsics and registers say, how conversions render, and which writes are refused.  It
records which hooks it was asked and which registers were fetched behind the cache, the latest
first.  With an empty script it is the plain store.
-/
namespace TargetView

/-- A scripted answer of an intrinsic. -/
inductive Reply where
  | value (v : Value)
  | missing (reason : String)
  | fail (path : String)
  deriving Inhabited

namespace Reply

/-- The answer of an intrinsic with this reply. -/
def answer (fn : Intrinsic) : Reply → Answer
  | value v => .ok v
  | missing reason => .error (.missing ⟨fn, reason⟩)
  | fail path => .error (.unresolvedPath path)

end Reply

/-- What a scripted host answers. -/
structure Script where
  /-- The values of paths. -/
  paths : List (String × Value) := []
  /-- The bytes in use. -/
  bytesUsed? : Option UInt64 := none
  /-- Whether registers can be read. -/
  hasRegisters : Bool := false
  /-- The answers of intrinsics, whatever their arguments. -/
  dispatch : List (Intrinsic × Reply) := []
  /-- The answer for the memory in use. -/
  memoryInUse? : Option Reply := none
  /-- The answers of intrinsics about names. -/
  named : List ((Intrinsic × String) × Reply) := []
  /-- The texts around a value under a conversion. -/
  formats : List (Conversion × String × String) := []
  /-- The names and keys that are not written. -/
  rejected : List String := []
  /-- The names that are not read. -/
  unreadable : List String := []
  deriving Inhabited

/-- A question that a scripted host was asked. -/
inductive HookCall where
  | dispatch (fn : Intrinsic) (args : List Value)
  | memoryInUse (args : List Value)
  | named (fn : Intrinsic) (name : String)

/-- The state of a scripted host. -/
structure Scripted where
  store : Store := {}
  /-- The words of the registers. -/
  registers : Std.ExtTreeMap String UInt64 := ∅
  cache : RegisterCache := {}
  /-- The hooks asked, the latest first. -/
  hooks : List HookCall := []
  /-- The registers fetched, the latest first. -/
  fetched : List String := []
  deriving Inhabited

namespace Scripted

/-- Acts on the store. -/
def onStore {α : Type} (act : StateM Store α) : StateM Scripted α := fun s =>
  let ⟨store, registers, cache, hooks, fetched⟩ := s
  let (result, store) := act.run store
  (result, ⟨store, registers, cache, hooks, fetched⟩)

/-- Records a question. -/
def ask (call : HookCall) : StateM Scripted Unit :=
  modify fun s => { s with hooks := call :: s.hooks }

/-- Fetches the word of a register. -/
def fetch (registers : Std.ExtTreeMap String UInt64) (name : String) :
    StateM (List String) (Option UInt64) := do
  modify (name :: ·)
  return registers[name]?

/-- Reads a register through the cache. -/
def readRegister (name : String) : StateM Scripted (Option Value) := fun s =>
  let ⟨store, registers, cache, hooks, fetched⟩ := s
  let ((v, cache), fetched) := (cache.read (fetch registers) name).run fetched
  (v, ⟨store, registers, cache, hooks, fetched⟩)

/-- The state with no recorded questions. -/
def forget (s : Scripted) : Scripted := { s with hooks := [], fetched := [] }

end Scripted

namespace Host

/-- The host with a script. -/
def scripted (script : Script) : Host Scripted where
  symbolExists scope name := Scripted.onStore (ofStore.symbolExists scope name)
  readSymbol scope name :=
    if script.unreadable.contains name then pure none
    else Scripted.onStore (ofStore.readSymbol scope name)
  writeSymbol scope name v :=
    if script.rejected.contains name then pure false
    else Scripted.onStore (ofStore.writeSymbol scope name v)
  isArray ref := Scripted.onStore (ofStore.isArray ref)
  newObject := Scripted.onStore ofStore.newObject
  newArray := Scripted.onStore ofStore.newArray
  readKey ref key := Scripted.onStore (ofStore.readKey ref key)
  writeKey ref key v :=
    if script.rejected.contains key.display then pure false
    else Scripted.onStore (ofStore.writeKey ref key v)
  resolvePath path := return script.paths.lookup path
  bytesUsed := return script.bytesUsed?
  dispatch fn args := do
    Scripted.ask (.dispatch fn args)
    return (script.dispatch.lookup fn).map (·.answer fn)
  memoryInUse args := do
    Scripted.ask (.memoryInUse args)
    return script.memoryInUse?.map (·.answer .calcMemUsed)
  answerFor fn name := do
    Scripted.ask (.named fn name)
    return (script.named.lookup (fn, name)).map (·.answer fn)
  hasRegisters := return script.hasRegisters
  registerValue name := Scripted.readRegister name
  formatValue spec v :=
    return (script.formats.lookup spec).map fun (before, behind) => before ++ v.display ++ behind

end Host
end TargetView
