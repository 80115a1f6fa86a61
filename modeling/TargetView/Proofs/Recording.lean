import TargetView.View

/-! # Recorded executions

To say what a pass asks of its target, and in which order, the pass is run on a
target that writes everything down: each call with the answer to it
(`Target.recorded`).  The host of the pass writes down in addition which values
it gives for registers (`Host.recorded`), so that a record shows where these
come from.

A register is read by formulas in one way only, `__GetRegVal`, and what this
makes of the value that the host gives is `callIntrinsic_getRegVal`.
-/
namespace TargetView

/-- What happens between a pass and its target: a call, with the answer to it,
or that a value is given for a register. -/
inductive PassEvent where
  | cleared
  | declared (name : String) (size : Nat) (v : Value)
  | read (address : UInt64) (size : Nat) (bytes? : Option (List UInt8))
  | located (name : String) (address? : Option UInt64)
  | measured (bytes? : Option UInt64)
  | fetched (name : String) (bits? : Option UInt64)
  | written (name : String) (bits : UInt64) (accepted : Bool)
  | given (name : String) (v? : Option Value)

/-- The state of a target, with the events so far. -/
structure Recorded (τ : Type) where
  state : τ
  events : List PassEvent := []

variable {τ α : Type}

/-- Acts on the target and writes down what came of it. -/
def Recorded.note (act : StateM τ α) (event : α → PassEvent) : StateM (Recorded τ) α :=
  fun ⟨state, events⟩ =>
    let (result, state) := act.run state
    (result, ⟨state, events ++ [event result]⟩)

open Recorded (note)

/-- The target that writes down the calls of it. -/
def Target.recorded (t : Target τ) : Target (Recorded τ) where
  read address size := note (t.read address size) (.read address size)
  setVariable name size v := note (t.setVariable name size v) fun _ => .declared name size v
  clearVariables := note t.clearVariables fun _ => .cleared
  readRegister name := note (t.readRegister name) (.fetched name)
  writeRegister name bits := note (t.writeRegister name bits) (.written name bits)
  symbolAddress name := note (t.symbolAddress name) (.located name)
  bytesUsed := note t.bytesUsed .measured
  isCancelled s := t.isCancelled s.state

/-- The machine in front of a target that writes down. -/
def Machine.recorded (m : Machine τ) (events : List PassEvent := []) : Machine (Recorded τ) :=
  ⟨m.store, ⟨m.target, events⟩, m.registers⟩

/-- The host that writes down which values it gives for registers. -/
def Host.recorded (host : Host (Machine (Recorded τ))) : Host (Machine (Recorded τ)) :=
  { host with
    registerValue := fun name => do
      let v? ← host.registerValue name
      Machine.onTarget (note (pure v?) (.given name)) }

/-- The setting of a pass that is recorded. -/
def Setting.recorded (t : Target τ) (config : Config) (formatter : Formatter) :
    Setting (Recorded τ) where
  target := t.recorded
  config := config
  formatter := formatter
  observer := Host.recorded

/-- What happens between one pass over a view and its target. -/
def View.events (t : Target τ) (config : Config) (formatter : Formatter) (view : View)
    (machine : Machine τ) : List PassEvent :=
  (view.execute (.recorded t config formatter) machine.recorded).2.2.target.events

/-- `__GetRegVal` gives the value that the host gives for the register, whatever
is in scope; a path is no register. -/
theorem callIntrinsic_getRegVal (t : Target τ) (config : Config) (formatter : Formatter)
    (scope : Option Ref) (arg : Value) :
    (Pass.host (.recorded t config formatter)).callIntrinsic scope .getRegVal [arg] =
      if isPath arg.display then throw (.unresolvedPath arg.display)
      else (do
        match ← (Pass.host (.recorded t config formatter)).registerValue arg.display with
        | some v => return v
        | none => throw (.registerUnavailable arg.display)) := by
  have hbuiltin : (Pass.host (.recorded t config formatter)).callIntrinsic scope .getRegVal [arg] =
      (Pass.host (.recorded t config formatter)).builtinRegister arg.display := rfl
  rw [hbuiltin]
  unfold Host.builtinRegister
  by_cases hpath : isPath arg.display = true
  · rw [if_pos hpath, if_pos hpath]
    rfl
  · rw [if_neg hpath, if_neg hpath]
    rfl

end TargetView
