import TargetView.Host
import TargetView.Register

/-!
# Targets and machines

A `Target` is what a view looks at: memory, registers, the addresses of symbols, and the variables
that the view declares to it.  Like those of a host, its operations act on a state of its own
choice.

A `Machine` puts a store and a register cache in front of the target state.  Its host answers
symbols and containers from the store, registers through the cache, and the bytes in use from the
target; containers are rendered with their contents.
-/
namespace TargetView

/-- The operations on a target. -/
structure Target (τ : Type) where
  /-- The bytes at an address, if all of them can be read. -/
  read (address : UInt64) (size : Nat) : StateM τ (Option (List UInt8))
  /-- Records a variable of the view. -/
  setVariable (name : String) (size : Nat) (v : Value) : StateM τ Unit
  /-- Forgets the variables of the view. -/
  clearVariables : StateM τ Unit
  /-- The word of a register. -/
  readRegister (name : String) : StateM τ (Option UInt64)
  /-- Writes a register, unless the target refuses. -/
  writeRegister (name : String) (bits : UInt64) : StateM τ Bool
  /-- The address of a symbol. -/
  symbolAddress (name : String) : StateM τ (Option UInt64) := pure none
  /-- The bytes in use, if the target keeps statistics. -/
  bytesUsed : StateM τ (Option UInt64) := pure none
  /-- Whether the current pass is to stop. -/
  isCancelled : τ → Bool := fun _ => false

/-- A store and a register cache in front of a target. -/
structure Machine (τ : Type) where
  store : Store := {}
  target : τ
  registers : RegisterCache := {}

/-- Renderings that take precedence over the built-in ones. -/
abbrev Formatter := Conversion → Value → Option String

namespace Machine

variable {τ α : Type}

/-- Acts on the store. -/
def onStore (act : StateM Store α) : StateM (Machine τ) α := fun m =>
  let ⟨store, target, registers⟩ := m
  let (result, store) := act.run store
  (result, ⟨store, target, registers⟩)

/-- Acts on the target. -/
def onTarget (act : StateM τ α) : StateM (Machine τ) α := fun m =>
  let ⟨store, target, registers⟩ := m
  let (result, target) := act.run target
  (result, ⟨store, target, registers⟩)

/-- Reads a register through the cache. -/
def readRegister (t : Target τ) (name : String) : StateM (Machine τ) (Option Value) := fun m =>
  let ⟨store, target, registers⟩ := m
  let ((v, registers), target) := (registers.read t.readRegister name).run target
  (v, ⟨store, target, registers⟩)

/-- Writes a register on the target and, if it accepts, in the cache. -/
def writeRegister (t : Target τ) (name : String) (bits : UInt64) : StateM (Machine τ) Bool :=
  fun m =>
    let ⟨store, target, registers⟩ := m
    let (accepted, target) := (t.writeRegister name bits).run target
    let registers :=
      if accepted then registers.write name (RegisterCache.ofWord bits) else registers
    (accepted, ⟨store, target, registers⟩)

/-- Acts on the register cache. -/
def onRegisters (act : RegisterCache → RegisterCache) (m : Machine τ) : Machine τ :=
  let ⟨store, target, registers⟩ := m
  ⟨store, target, act registers⟩

/-- The text of a value: by the formatter, or, for a container, with its contents. -/
def formatted (formatter : Formatter) (spec : Conversion) (v : Value) (m : Machine τ) :
    Option String :=
  (formatter spec v).or (v.ref?.map fun _ => m.store.describe v)

/-- The host of a machine. -/
def host (t : Target τ) (formatter : Formatter) : Host (Machine τ) where
  symbolExists scope name := onStore (Host.ofStore.symbolExists scope name)
  readSymbol scope name := onStore (Host.ofStore.readSymbol scope name)
  writeSymbol scope name v := onStore (Host.ofStore.writeSymbol scope name v)
  isArray ref := onStore (Host.ofStore.isArray ref)
  newObject := onStore Host.ofStore.newObject
  newArray := onStore Host.ofStore.newArray
  readKey ref key := onStore (Host.ofStore.readKey ref key)
  writeKey ref key v := onStore (Host.ofStore.writeKey ref key v)
  bytesUsed := onTarget t.bytesUsed
  hasRegisters := pure true
  registerValue name := readRegister t name
  formatValue spec v := fun m => (m.formatted formatter spec v, m)

end Machine
end TargetView
