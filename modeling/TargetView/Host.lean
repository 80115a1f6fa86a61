import TargetView.Conversion
import TargetView.Fault
import TargetView.Store

/-!
# Hosts

A `Host` owns what expressions are about: symbols, containers, registers, and the facts that
intrinsics ask for.  Its operations act on a state of its own choice, so that a host may count or
record how it is used.  Symbols and containers every host has to provide; for the rest there is a
default which says that the host knows nothing of it.

The plainest host is a `Store` by itself (`Host.ofStore`).
-/
namespace TargetView

/-- What an intrinsic answers: a value or a fault. -/
abbrev Answer := Except Fault Value

/-- The operations that evaluation needs. -/
structure Host (σ : Type) where
  /-- Whether a name has a value; the members of the container in scope shadow the globals. -/
  symbolExists (scope : Option Ref) (name : String) : StateM σ Bool
  /-- The value of a name. -/
  readSymbol (scope : Option Ref) (name : String) : StateM σ (Option Value)
  /-- Gives a name a value, unless the host refuses. -/
  writeSymbol (scope : Option Ref) (name : String) (v : Value) : StateM σ Bool
  /-- Whether a container is an array. -/
  isArray (ref : Ref) : StateM σ Bool
  /-- A new object. -/
  newObject : StateM σ Ref
  /-- A new array. -/
  newArray : StateM σ Ref
  /-- The value at a key of a container. -/
  readKey (ref : Ref) (key : Key) : StateM σ (Option Value)
  /-- Writes at a key of a container, unless the host refuses. -/
  writeKey (ref : Ref) (key : Key) (v : Value) : StateM σ Bool
  /-- The value of a path of names joined by colons. -/
  resolvePath (path : String) : StateM σ (Option Value) := pure none
  /-- The bytes in use, if the host keeps statistics. -/
  bytesUsed : StateM σ (Option UInt64) := pure none
  /-- Answers any intrinsic; it is asked first. -/
  dispatch (fn : Intrinsic) (args : List Value) : StateM σ (Option Answer) := pure none
  /-- Answers for the memory in use. -/
  memoryInUse (args : List Value) : StateM σ (Option Answer) := pure none
  /-- Answers an intrinsic about a name. -/
  answerFor (fn : Intrinsic) (name : String) : StateM σ (Option Answer) := pure none
  /-- Whether there are registers to read. -/
  hasRegisters : StateM σ Bool := pure false
  /-- The value of a register. -/
  registerValue (name : String) : StateM σ (Option Value) := pure none
  /-- The text of a value under a conversion, if the host has one of its own. -/
  formatValue (spec : Conversion) (v : Value) : StateM σ (Option String) := pure none

namespace Host

/-- A store as a host. -/
def ofStore : Host Store where
  symbolExists scope name := fun s => (s.symbolExists scope name, s)
  readSymbol scope name := fun s => (s.readSymbol scope name, s)
  writeSymbol scope name v := fun s => (true, s.writeSymbol scope name v)
  isArray ref := fun s => (s.isArray ref, s)
  newObject := fun s => s.newObject
  newArray := fun s => s.newArray #[]
  readKey ref key := fun s => (s.readKey ref key, s)
  writeKey ref key v := fun s => s.writeKey ref key v

end Host
end TargetView
