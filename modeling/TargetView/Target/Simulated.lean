import Std.Data.HashMap
import TargetView.Target

/-!
# Simulated targets

A simulated target is a table of bytes, symbols and registers.  It records the reads it is asked
for and the variables of the view, the latest first, and may cancel the pass during a read.
-/
namespace TargetView

/-- A read that a target was asked for. -/
inductive TargetRead where
  | memory (address : UInt64) (size : Nat)
  | register (name : String)
  deriving DecidableEq, Inhabited

/-- The state of a simulated target. -/
structure Simulated where
  memory : Std.HashMap UInt64 UInt8 := ∅
  /-- The most bytes that a read gives, however many it asks for. -/
  maxReturn? : Option Nat := none
  symbols : List (String × UInt64) := []
  registers : Std.ExtTreeMap String UInt64 := ∅
  /-- The registers that are not written. -/
  readOnly : List String := []
  bytesUsed? : Option UInt64 := none
  /-- The read during which the pass is cancelled, counted from one. -/
  cancelAfter? : Option Nat := none
  cancelled : Bool := false
  /-- The number of reads so far. -/
  reads : Nat := 0
  /-- The reads since the record was last taken, the latest first. -/
  log : List TargetRead := []
  /-- The variables of the view, the latest first. -/
  declared : List (String × Nat × Value) := []
  /-- How often the variables were cleared. -/
  clears : Nat := 0
  deriving Inhabited

namespace Simulated

/-- Stores bytes at an address; addresses wrap around. -/
def poke (s : Simulated) (address : UInt64) (bytes : List UInt8) : Simulated :=
  let memory := bytes.foldl (fun (memory, address) b => (memory.insert address b, address + 1))
    (s.memory, address) |>.1
  { s with memory }

/-- Stores one byte at `size` addresses. -/
def fill (s : Simulated) (address : UInt64) (size : Nat) (b : UInt8) : Simulated :=
  { s with
    memory := size.fold (fun i _ memory => memory.insert (address + UInt64.ofNat i) b) s.memory }

/-- Removes the bytes at `size` addresses. -/
def unmap (s : Simulated) (address : UInt64) (size : Nat) : Simulated :=
  { s with
    memory := size.fold (fun i _ memory => memory.erase (address + UInt64.ofNat i)) s.memory }

/-- The bytes at an address in front of others, from the last one on. -/
def bytesBefore (memory : Std.HashMap UInt64 UInt8) (address : UInt64) :
    Nat → List UInt8 → Option (List UInt8)
  | 0, behind => some behind
  | size + 1, behind =>
    match memory[address + UInt64.ofNat size]? with
    | some b => bytesBefore memory address size (b :: behind)
    | none => none

/-- The bytes at an address, as far as one read gives them. -/
def bytesAt (s : Simulated) (address : UInt64) (size : Nat) : Option (List UInt8) :=
  (bytesBefore s.memory address size []).map fun bytes =>
    s.maxReturn?.elim bytes fun most => bytes.take most

/-- Records a read. -/
def record (read : TargetRead) (s : Simulated) : Simulated :=
  let reads := s.reads + 1
  { s with
    reads
    cancelled := s.cancelled || s.cancelAfter? == some reads
    log := read :: s.log }

/-- The target of simulated states. -/
def target : Target Simulated where
  read address size := do
    modify (record (.memory address size))
    return (← get).bytesAt address size
  setVariable name size v := modify fun s =>
    { s with declared := (name, size, v) :: s.declared }
  clearVariables := modify fun s => { s with declared := [], clears := s.clears + 1 }
  readRegister name := do
    modify (record (.register name))
    return (← get).registers[name]?
  writeRegister name bits := do
    if (← get).readOnly.contains name then return false
    modify fun s => { s with registers := s.registers.insert name bits }
    return true
  symbolAddress name := return (← get).symbols.lookup name
  bytesUsed := return (← get).bytesUsed?
  isCancelled s := s.cancelled

end Simulated
end TargetView
