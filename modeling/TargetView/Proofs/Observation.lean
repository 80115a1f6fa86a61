import TargetView.Proofs.Runs

/-! # Hosts that are read without a trace

Reading a symbol or a key of such a host leaves its state as it was
(`Host.Observes`).  What a place holds is then a fact about the state
(`Host.heldIn?`), and so is what a name or a member is read as.
-/
namespace TargetView

variable {σ : Type}

namespace Host

/-- Reading leaves the state of the host alone. -/
structure Observes (host : Host σ) : Prop where
  symbolExists : ∀ scope name s, ((host.symbolExists scope name).run s).2 = s
  readSymbol : ∀ scope name s, ((host.readSymbol scope name).run s).2 = s
  readKey : ∀ ref key s, ((host.readKey ref key).run s).2 = s

/-- What a place holds in a state of the host. -/
def heldIn? (host : Host σ) (scope : Option Ref) (s : σ) : Place → Option Value
  | .symbol name => ((host.readSymbol scope name).run s).1
  | .key ref key => ((host.readKey ref key).run s).1

theorem observes_ofStore : ofStore.Observes where
  symbolExists _ _ _ := rfl
  readSymbol _ _ _ := rfl
  readKey _ _ _ := rfl

/-- What is read as a container is there. -/
theorem eq_some_of_getD {v? : Option Value} {ref : Ref}
    (h : v?.getD .undefined = .container ref) : v? = some (.container ref) := by
  cases v? with
  | none => cases h
  | some v => exact congrArg some h

namespace Observes

variable {host : Host σ} (hhost : host.Observes) {scope : Option Ref}
include hhost

theorem run_held? (place : Place) (s : σ) :
    (host.held? scope place).run.run s = (.ok (host.heldIn? scope s place), s) := by
  cases place with
  | symbol name => exact Prod.ext rfl (hhost.readSymbol scope name s)
  | key ref key => exact Prod.ext rfl (hhost.readKey ref key s)

theorem run_readMember (ref : Ref) (key : Key) (s : σ) :
    (host.readMember (.container ref) key).run.run s =
      (.ok (((host.readKey ref key).run s).1.getD .undefined), s) :=
  Prod.ext rfl (hhost.readKey ref key s)

/-- A container is read only from a container. -/
theorem holds_of_run_readMember {base : Value} {key : Key} {s t : σ} {ref : Ref}
    (h : (host.readMember base key).run.run s = (.ok (.container ref), t)) :
    ∃ ref', base = .container ref' ∧ t = s ∧
      ((host.readKey ref' key).run s).1 = some (.container ref) := by
  cases base with
  | scalar | undefined => cases h
  | container ref' =>
    rw [hhost.run_readMember] at h
    obtain ⟨hvalue, rfl⟩ := Prod.mk.inj h
    exact ⟨ref', rfl, rfl, eq_some_of_getD (Except.ok.inj hvalue)⟩

/-- A name is read as a container only if it is bound to one. -/
theorem holds_of_run_readName {name : String} (hpath : isPath name = false) {s t : σ} {ref : Ref}
    (h : (host.readName scope name).run.run s = (.ok (.container ref), t)) :
    t = s ∧ host.heldIn? scope s (.symbol name) = some (.container ref) := by
  unfold readName at h
  rw [if_neg (by rw [hpath]; exact Bool.false_ne_true), run_bind_of_ok (run_liftM _ s),
    hhost.symbolExists] at h
  split at h
  · rw [run_bind_of_ok (run_liftM _ s), hhost.readSymbol] at h
    obtain ⟨hvalue, rfl⟩ := Prod.mk.inj h
    exact ⟨rfl, eq_some_of_getD (Except.ok.inj hvalue)⟩
  · -- A name that has just been created is a zero.
    rw [run_bind_of_ok (run_liftM _ s)] at h
    split at h
    · cases h
    · cases h

/-- A name that has a value is read as it is. -/
theorem run_readName {name : String} (hpath : isPath name = false) {s : σ}
    (h : ((host.symbolExists scope name).run s).1 = true) :
    (host.readName scope name).run.run s =
      (.ok ((host.heldIn? scope s (.symbol name)).getD .undefined), s) := by
  unfold readName
  rw [if_neg (by rw [hpath]; exact Bool.false_ne_true), run_bind_of_ok (run_liftM _ s), h,
    if_pos rfl, hhost.symbolExists, run_bind_of_ok (run_liftM _ s), hhost.readSymbol]
  rfl

/-- A container that is there is taken. -/
theorem run_containerAt_of_holds {place : Place} {s : σ} {ref : Ref}
    (h : host.heldIn? scope s place = some (.container ref)) (key : Key) :
    (host.containerAt scope place key).run.run s = (.ok ref, s) := by
  unfold containerAt
  rw [run_bind_of_ok (hhost.run_held? place s), h]
  rfl

end Observes

end Host
end TargetView
