import TargetView.Proofs.Apart
import TargetView.Proofs.Inheritance
import TargetView.Proofs.Passes
import TargetView.Proofs.Runs

/-! # Formulas that only look

A store drifts if names without a value come to be bound to zero, and nothing else
changes (`Store.Drifts`).  It is all that happens to the store of a machine when a
formula is evaluated that assigns and updates nothing (`Formula.onlyLooks`), whatever
it asks of the target (`Pass.drifting_value?`).  So a pass over such formulas lets
the store drift, apart from what is bound by its statements (`Pass.drifting`).
-/
namespace TargetView

open Contract

namespace Store

variable {s t u : Store}

/-- Names without a value may have come to be bound to zero. -/
structure Drifts (s t : Store) : Prop where
  containers : t.containers = s.containers
  globals : ∀ name, t.get? name = s.get? name ∨ s.get? name = none ∧ t.get? name = some .zero

theorem Drifts.refl (s : Store) : s.Drifts s := ⟨rfl, fun _ => .inl rfl⟩

theorem Drifts.trans (h : s.Drifts t) (h' : t.Drifts u) : s.Drifts u where
  containers := h'.containers.trans h.containers
  globals name := by
    rcases h.globals name with hst | ⟨hs, ht⟩
    · rw [← hst]
      exact h'.globals name
    · -- A zero is a value, so it stays.
      rcases h'.globals name with htu | ⟨hnone, -⟩
      · exact .inr ⟨hs, htu.trans ht⟩
      · cases ht.symm.trans hnone

/-- What is bound stays bound. -/
theorem Drifts.get?_eq (h : s.Drifts t) {name : String} {v : Value} (hv : s.get? name = some v) :
    t.get? name = some v := by
  rcases h.globals name with heq | ⟨hnone, -⟩
  · exact heq.trans hv
  · cases hv.symm.trans hnone

theorem get?_eq_none_of_not_exists {name : String} (h : s.symbolExists none name = false) :
    s.get? name = none := by
  rw [symbolExists_eq, Bool.or_eq_false_iff] at h
  exact Option.isNone_iff_eq_none.mp (Option.isSome_eq_false_iff.mp h.2)

theorem drifts_set {name : String} (h : s.get? name = none) : s.Drifts (s.set name .zero) where
  containers := rfl
  globals other := by
    rw [get?_set]
    by_cases heq : name = other
    · subst heq
      exact .inr ⟨h, if_pos rfl⟩
    · exact .inl (if_neg heq)

end Store

variable {τ α β : Type}

/-- That the store of a machine drifts, as a property that sequences inherit. -/
def Inherited.drifts : Inherited (Machine τ) where
  Holds x := ∀ m : Machine τ, m.store.Drifts (x.run.run m).2.store
  Permits _ := True
  holds_pure _ m := .refl m.store
  holds_throw _ m := .refl m.store
  holds_bind {_ _ x f} hx hf m := by
    have hfirst := hx m
    rcases hrun : x.run.run m with ⟨e | a, m'⟩
    · rw [run_bind_of_error hrun]
      rwa [hrun] at hfirst
    · rw [run_bind_of_ok hrun]
      rw [hrun] at hfirst
      exact hfirst.trans (hf a m')

namespace Machine

open Host

variable (t : Target τ) (formatter : Formatter)

/-- An operation that leaves the store is no exception. -/
theorem drifts_liftM {act : StateM (Machine τ) α} (h : ∀ m, (act.run m).2.store = m.store) :
    Inherited.drifts.Holds (liftM act : Eval (Machine τ) α) := by
  intro m
  rw [run_liftM, h]
  exact .refl m.store

theorem drifts_readName (name : String) :
    Inherited.drifts.Holds ((host t formatter).readName none name) := by
  intro m
  unfold readName
  by_cases hpath : isPath name = true
  · rw [if_pos hpath]
    exact .refl m.store
  · rw [if_neg hpath]
    have hexists : ((host t formatter).symbolExists none name).run m =
      (m.store.symbolExists none name, m) := rfl
    rw [run_liftM_bind hexists]
    cases h : m.store.symbolExists none name with
    | true => exact .refl m.store
    | false => exact Store.drifts_set (Store.get?_eq_none_of_not_exists h)

theorem drifts_readMember (base : Value) (key : Key) :
    Inherited.drifts.Holds ((host t formatter).readMember base key) := by
  cases base with
  | container ref => exact fun m => .refl m.store
  | scalar | undefined => exact fun m => .refl m.store

theorem drifts_pure (a : α) : Inherited.drifts.Holds (pure a : Eval (Machine τ) α) :=
  Inherited.drifts.holds_pure a

theorem drifts_throw (f : Fault) : Inherited.drifts.Holds (throw f : Eval (Machine τ) α) :=
  Inherited.drifts.holds_throw trivial

theorem drifts_builtinMemoryInUse :
    Inherited.drifts.Holds (host t formatter).builtinMemoryInUse := by
  refine Inherited.drifts.holds_bind (drifts_liftM fun m => rfl) fun bytes? => ?_
  cases bytes? with
  | some bytes => exact drifts_pure _
  | none => exact drifts_throw _

theorem drifts_builtinRegister (name : String) :
    Inherited.drifts.Holds ((host t formatter).builtinRegister name) := by
  unfold builtinRegister
  refine Inherited.drifts.holds_bind (drifts_liftM fun m => rfl) fun has => ?_
  cases has with
  | false => exact drifts_throw _
  | true =>
    by_cases hpath : isPath name = true
    · rw [if_pos rfl, if_pos hpath]
      exact drifts_throw _
    · rw [if_pos rfl, if_neg hpath]
      refine Inherited.drifts.holds_bind (drifts_liftM fun m => rfl) fun v? => ?_
      cases v? with
      | some v => exact drifts_pure v
      | none => exact drifts_throw _

theorem drifts_builtinExists (name : String) :
    Inherited.drifts.Holds ((host t formatter).builtinExists none name) := by
  unfold builtinExists
  split
  · exact Inherited.drifts.holds_bind (drifts_liftM fun m => rfl) fun _ => drifts_pure _
  · refine Inherited.drifts.holds_bind (drifts_liftM fun m => rfl) fun known => ?_
    cases known with
    | true => exact drifts_pure _
    | false =>
      refine Inherited.drifts.holds_bind ?_ fun _ => drifts_pure _
      exact Inherited.drifts.holds_bind (drifts_readName t formatter name) fun _ => drifts_pure ()

/-- **An intrinsic changes no more of the store than a name does.** -/
theorem drifts_builtin (fn : Intrinsic) (name : String) :
    Inherited.drifts.Holds ((host t formatter).builtin none fn name) := by
  cases fn with
  | calcMemUsed => exact drifts_builtinMemoryInUse t formatter
  | findSymbol => exact drifts_readName t formatter name
  | getRegVal => exact drifts_builtinRegister t formatter name
  | offsetOf => exact drifts_pure _
  | sizeOf =>
    unfold builtin
    dsimp only
    split
    · exact drifts_pure _
    · exact drifts_throw _
  | symbolExists => exact drifts_builtinExists t formatter name

theorem drifts_callIntrinsic (fn : Intrinsic) (args : List Value) :
    Inherited.drifts.Holds ((host t formatter).callIntrinsic none fn args) := by
  have hasked (answer? : Option Answer) {x : Eval (Machine τ) Value}
      (hx : Inherited.drifts.Holds x) : Inherited.drifts.Holds (answerOr answer? x) := by
    cases answer? with
    | none => exact hx
    | some answer =>
      cases answer with
      | ok v => exact drifts_pure v
      | error fault => exact drifts_throw fault
  unfold callIntrinsic
  refine Inherited.drifts.holds_bind (drifts_liftM fun m => rfl) fun answer? => hasked answer? ?_
  split
  · exact Inherited.drifts.holds_bind (drifts_liftM fun m => rfl) fun answer? =>
      hasked answer? (drifts_builtinMemoryInUse t formatter)
  · exact Inherited.drifts.holds_bind (drifts_liftM fun m => rfl) fun answer? =>
      hasked answer? (drifts_builtin t formatter _ _)
  · exact drifts_throw _

/-- Nodes that write nothing take steps that let the store drift only. -/
theorem steps_drift :
    Inherited.drifts.Steps (host t formatter) none fun e => e.target? = none where
  operator _ := trivial
  operand := trivial
  call _ := trivial
  malformed _ _ _ := trivial
  readName := drifts_readName t formatter
  readMember := drifts_readMember t formatter
  intrinsic fn _ _ _ _ := drifts_callIntrinsic t formatter fn
  rendered spec v := by
    refine Inherited.drifts.holds_bind (drifts_liftM fun m => rfl) fun text? => drifts_pure _
  target e target h htarget := by
    rw [h] at htarget
    cases htarget

end Machine

/-- Who can do without a value does not go further for it. -/
theorem Evaluation.state_attempt {σ : Type} (host : Host σ) (scope : Option Ref) (p : Parsed)
    (s : σ) : ((attempt host scope p).run.run s).2 = ((run host scope p).run.run s).2 := by
  rw [attempt, ExceptT.run_mk, StateT.run_bind]
  rcases (run host scope p).run.run s with ⟨fault | v, t⟩
  · cases fault <;> rfl
  · rfl

/-- Whether the evaluation of the formula assigns and updates nothing. -/
def Formula.onlyLooks (f : Formula) : Bool := f.parsed.body.reachable.all (·.target?.isNone)

/-- Whether the formula as a label does so. -/
def Formula.onlyLooksAsLabel (f : Formula) : Bool := !f.isTemplate || f.onlyLooks

/-- Nothing stands between the formulas and the host of the machine. -/
def Setting.IsPlain (S : Setting τ) : Prop := S.observer = id

namespace Pass

variable {S : Setting τ} {f : Formula}

/-- The store drifts. -/
def drifting : Contract Abort (PassState τ) where
  Becomes s t := s.machine.store.Drifts t.machine.store
  Excuses _ _ := True
  refl s := .refl s.machine.store
  trans := .trans

/-- **A formula that only looks lets the store drift.** -/
theorem drifting_value? (hS : S.IsPlain) (hf : f.onlyLooks = true) :
    drifting.Allows (value? S f) := by
  intro s
  have hreachable : ∀ e ∈ f.parsed.body.reachable, e.target? = none := fun e he =>
    Option.isNone_iff_eq_none.mp (List.all_eq_true.mp hf e he)
  have hhost : host S = Machine.host S.target S.formatter := congrFun hS _
  have hrun := (Machine.steps_drift S.target S.formatter).holds_run f.parsed hreachable s.machine
  rw [← Evaluation.state_attempt, ← hhost] at hrun
  exact keeps_value? fun _ => ⟨trivial, hrun, fun _ _ => trivial⟩

end Pass

end TargetView
