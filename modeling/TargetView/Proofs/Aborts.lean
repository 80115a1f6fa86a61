import TargetView.Proofs.Conduct
import TargetView.Proofs.Passes
import TargetView.Proofs.Snapshot

/-! # What ends a pass early

There are two reasons for which a pass may end without a report
(`Abort.Justified`): it is cancelled, or a formula asked for the bytes in use and
the target keeps no statistics.  That the latter was asked just before shows in
the record of what the pass asks of its target.

The host of a recorded pass lacks a capability for this reason only, so every
evaluation ends with a value, with a fault that stays within its formula, or with
that reason.  All other steps of a pass succeed, so that no pass ends early
without one of the two (`aborts_justified`).
-/
namespace TargetView

open Contract

variable {τ : Type}

/-- There is a reason for the abort: the pass is cancelled, or the last thing
that the target was asked for is its statistics, and it keeps none. -/
inductive Abort.Justified (t : Target τ) (state : τ) (events : List PassEvent) : Abort → Prop
  | cancelled (h : t.isCancelled state = true) : Justified t state events .cancelled
  | unmeasured (hlast : [.measured none] <:+ events)
      (hnone : ∃ before, t.bytesUsed.run before = (none, state)) :
      Justified t state events (.missing ⟨.calcMemUsed, "host provides no memory statistics"⟩)

namespace Recorded

variable (t : Target τ)

/-- A missing capability is to be justified. -/
def faults : HostContract (Machine (Recorded τ)) where
  Excuses fault m := ∀ missing, fault = .missing missing →
    Abort.Justified t m.target.state m.target.events (.missing missing)
  excuses_plain {fault m} h missing hmissing := by
    rw [hmissing] at h
    cases h

/-- An abort is to be justified. -/
def aborts : Contract Abort (PassState (Recorded τ)) where
  Excuses e s := e.Justified t s.machine.target.state s.machine.target.events

variable {t} {α : Type}

/-- As long as nothing fails there is nothing to justify. -/
theorem steady_faults {m : Machine (Recorded τ)} {x : StateM (Machine (Recorded τ)) α}
    {Q : Machine (Recorded τ) → α → Prop} (h : Q (x.run m).2 (x.run m).1) :
    (faults t).Steady m x Q :=
  fun _ => ⟨trivial, trivial, h⟩

theorem keeps_onMachine {s : PassState (Recorded τ)} {x : StateM (Machine (Recorded τ)) α}
    {Q : Machine (Recorded τ) → α → Prop} (h : (faults t).Steady s.machine x Q) :
    (aborts t).Keeps s (Pass.onMachine x) fun s a => Q s.machine a :=
  fun _ => ⟨trivial, trivial, (h trivial).2.2⟩

theorem allows_onMachine (x : StateM (Machine (Recorded τ)) α) :
    (aborts t).Allows (Pass.onMachine x) :=
  fun _ => keeps_onMachine (Q := fun _ _ => True) (steady_faults trivial)

/-- A target that has just been asked, and keeps no statistics. -/
theorem justified_of_measured {m : Machine (Recorded τ)}
    (h : ((Machine.onTarget t.recorded.bytesUsed).run m).1 = none) :
    Abort.Justified t ((Machine.onTarget t.recorded.bytesUsed).run m).2.target.state
      ((Machine.onTarget t.recorded.bytesUsed).run m).2.target.events
      (.missing ⟨.calcMemUsed, "host provides no memory statistics"⟩) := by
  obtain ⟨store, ⟨state, events⟩, registers⟩ := m
  have hnone : (t.bytesUsed.run state).1 = none := h
  refine .unmeasured ?_ ⟨state, Prod.ext hnone rfl⟩
  change [.measured none] <:+ events ++ [.measured (t.bytesUsed.run state).1]
  rw [hnone]
  exact List.suffix_append events _

variable (config : Config) (formatter : Formatter)

theorem honours_faults : (Pass.host (.recorded t config formatter)).Honours (faults t) where
  symbolExists _ _ _ := steady_faults trivial
  readSymbol _ _ _ := steady_faults fun _ _ _ _ => trivial
  writeSymbol _ _ _ _ _ := steady_faults trivial
  newObject _ := steady_faults trivial
  newArray _ := steady_faults trivial
  readKey _ _ _ := steady_faults fun _ _ _ _ => trivial
  writeKey _ _ _ _ _ := steady_faults trivial
  resolvePath _ _ := steady_faults nofun
  bytesUsed _ := steady_faults fun hnone => by
    rintro _ ⟨⟩
    exact justified_of_measured hnone
  dispatch _ _ _ _ := steady_faults nofun
  memoryInUse _ _ _ := steady_faults nofun
  answerFor _ _ _ := steady_faults nofun
  hasRegisters _ := steady_faults nofun
  registerValue _ _ := steady_faults fun _ _ _ _ => trivial
  formatValue _ _ _ _ := steady_faults trivial

theorem honours_aborts : (Setting.recorded t config formatter).Honours (aborts t) where
  checkCancelled s := Pass.keeps_checkCancelled fun hcancelled => .cancelled hcancelled
  value? f s := by
    have hattempt := Evaluation.steady_attempt (s := s.machine)
      (honours_faults (t := t) config formatter) none f.parsed
    refine Pass.keeps_value? ((keeps_onMachine hattempt).imp fun u result hr missing hm => ?_)
    exact hr.2 missing hm missing rfl
  onStore _ := allows_onMachine _
  read _ _ := allows_onMachine _
  symbolAddress _ := allows_onMachine _
  setVariable _ _ _ := allows_onMachine _
  onResults _ _ _ := ⟨trivial, trivial, trivial⟩
  markDone _ _ _ := ⟨trivial, trivial, trivial⟩
  reach _ _ _ := ⟨trivial, trivial, trivial⟩
  disable _ _ _ := ⟨trivial, trivial, trivial⟩

/-- A recorded pass that ends early has a reason. -/
theorem justified_of_execute (view : View) (m : Machine (Recorded τ)) {e : Abort}
    (h : (view.execute (.recorded t config formatter) m).1 = .error e) :
    e.Justified t (view.execute (.recorded t config formatter) m).2.2.target.state
      (view.execute (.recorded t config formatter) m).2.2.target.events := by
  obtain ⟨s, -, -, hfinal, hexcuses⟩ :=
    view.execute_keeps (honours_aborts config formatter) m trivial
  rw [hfinal]
  exact hexcuses e h

end Recorded

/-- **Only two things end a pass early**: that it is cancelled, or that a formula
asks for the bytes in use and the target, when asked, keeps no statistics.  So a
pass that is not cancelled, over a target that keeps statistics, always has a
report, whatever cannot be parsed, evaluated or read. -/
theorem aborts_justified (t : Target τ) (config : Config) (formatter : Formatter) (view : View)
    (machine : Machine τ) :
    (∀ e, (view.execute { target := t, config, formatter } machine).1 = .error e →
      e.Justified t (view.execute { target := t, config, formatter } machine).2.2.target
        (view.events t config formatter machine)) ∧
      ((∀ state, t.isCancelled state = false) → (∀ state, (t.bytesUsed.run state).1.isSome) →
        ∃ report, (view.execute { target := t, config, formatter } machine).1 = .ok report) := by
  have hjustified : ∀ e, (view.execute { target := t, config, formatter } machine).1 = .error e →
      e.Justified t (view.execute { target := t, config, formatter } machine).2.2.target
        (view.events t config formatter machine) := by
    intro e he
    obtain ⟨-, hrecorded⟩ := execute_recorded t config formatter view machine
    have houtcome : (view.execute (.recorded t config formatter) machine.recorded).1 =
        .error e := by
      rw [hrecorded]
      exact he
    have h := Recorded.justified_of_execute config formatter view machine.recorded houtcome
    rw [hrecorded] at h
    exact h
  refine ⟨hjustified, fun hcancelled hmeasured => ?_⟩
  cases hresult : (view.execute { target := t, config, formatter } machine).1 with
  | ok report => exact ⟨report, rfl⟩
  | error e =>
    exfalso
    cases hjustified e hresult with
    | cancelled h =>
      rw [hcancelled] at h
      cases h
    | unmeasured hlast hnone =>
      obtain ⟨before, hbefore⟩ := hnone
      have hsome := hmeasured before
      rw [hbefore] at hsome
      cases hsome

/-- A pass over one object: it ends early if it is cancelled; if it is not, and
the target keeps statistics, there is a report. -/
theorem aborts_justified_object :
    let t (cancelled : Bool) : Target Unit :=
      { read := fun _ _ => pure none
        setVariable := fun _ _ _ => pure ()
        clearVariables := pure ()
        readRegister := fun _ => pure none
        writeRegister := fun _ _ => pure false
        bytesUsed := pure (some 16)
        isCancelled := fun _ => cancelled }
    let view : View := ⟨.ofDeclaration { tag := "object", line := 1 }, {}⟩
    ((view.execute { target := t true } { target := () }).1 = .error .cancelled ∧
        Abort.cancelled.Justified (t true) ()
          (view.events (t true) {} (fun _ _ => none) { target := () })) ∧
      (∀ state, (t false).isCancelled state = false) ∧
      (∀ state, (((t false).bytesUsed).run state).1.isSome) ∧
      ∃ report, (view.execute { target := t false } { target := () }).1 = .ok report := by
  intro t view
  have hcancelled : (view.execute { target := t true } { target := () }).1 = .error .cancelled :=
    rfl
  have hearly := (aborts_justified (t true) {} (fun _ _ => none) view { target := () }).1
  have hreport := (aborts_justified (t false) {} (fun _ _ => none) view { target := () }).2
  exact ⟨⟨hcancelled, hearly .cancelled hcancelled⟩, fun _ => rfl, fun _ => rfl,
    hreport (fun _ => rfl) fun _ => rfl⟩

end TargetView
