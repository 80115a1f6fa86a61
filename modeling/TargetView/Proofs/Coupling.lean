import TargetView.Evaluation

/-! # Two runs side by side

Two computations, each on states of its own, are run side by side.  `InStep R`
says that on states related by `R` they give the same and end in related
states; two hosts in step are so for each of their operations (`Host.InStep`).
A `Coupling` says the same of computations that may fail, with an allowance:
where the second one ends with a failure that is excused, nothing is asked of
the first.

Both are closed under sequencing, so what is known of single operations carries
over to everything made of them.  Here that is every evaluation: on hosts in
step it has one answer (`couples_walk`, `inStep_attempt`), since it learns of a
host only through its operations.
-/
namespace TargetView

variable {σ τ α β ε : Type}

/-! ## Computations that do not fail -/

/-- On related states two computations give the same and end in related
states. -/
def InStep (R : σ → τ → Prop) (x : StateM σ α) (y : StateM τ α) : Prop :=
  ∀ s t, R s t → (x.run s).1 = (y.run t).1 ∧ R (x.run s).2 (y.run t).2

namespace InStep

variable {R : σ → τ → Prop}

theorem refl (x : StateM σ α) : InStep Eq x x := by
  rintro s _ rfl
  exact ⟨rfl, rfl⟩

theorem pure (a : α) : InStep R (Pure.pure a) (Pure.pure a) :=
  fun _ _ h => ⟨rfl, h⟩

theorem bind {x : StateM σ α} {y : StateM τ α} {f : α → StateM σ β} {g : α → StateM τ β}
    (hx : InStep R x y) (hf : ∀ a, InStep R (f a) (g a)) : InStep R (x >>= f) (y >>= g) := by
  intro s t hst
  obtain ⟨ha, hst'⟩ := hx s t hst
  rw [StateT.run_bind, StateT.run_bind]
  rcases hs : x.run s with ⟨a, s'⟩
  rcases ht : y.run t with ⟨b, t'⟩
  rw [hs, ht] at ha hst'
  obtain rfl : a = b := ha
  exact hf a s' t' hst'

end InStep

/-! ## Computations that may fail -/

/-- How two runs are held together. -/
structure Coupling (ε σ τ : Type) where
  /-- The states that correspond. -/
  Corresponds : σ → τ → Prop
  /-- The failures of the second run, with the state they leave, after which
  nothing is asked of the first. -/
  Excuses : ε → τ → Prop := fun _ _ => False

namespace Coupling

variable (C : Coupling ε σ τ)

/-- From corresponding states the two computations give the same and end in
corresponding states, unless the second ends with an excuse. -/
def Couples (x : ExceptT ε (StateM σ) α) (y : ExceptT ε (StateM τ) α) : Prop :=
  ∀ s t, C.Corresponds s t →
    (∃ e t', y.run.run t = (.error e, t') ∧ C.Excuses e t') ∨
      (x.run.run s).1 = (y.run.run t).1 ∧ C.Corresponds (x.run.run s).2 (y.run.run t).2

variable {C}

theorem couples_pure (a : α) : C.Couples (pure a) (pure a) :=
  fun _ _ h => .inr ⟨rfl, h⟩

theorem couples_throw (e : ε) : C.Couples (throw e : ExceptT ε (StateM σ) α) (throw e) :=
  fun _ _ h => .inr ⟨rfl, h⟩

/-- A failure of the first part is one of the whole, excused or not. -/
theorem Couples.bind {x : ExceptT ε (StateM σ) α} {y : ExceptT ε (StateM τ) α}
    {f : α → ExceptT ε (StateM σ) β} {g : α → ExceptT ε (StateM τ) β} (hx : C.Couples x y)
    (hf : ∀ a, C.Couples (f a) (g a)) : C.Couples (x >>= f) (y >>= g) := by
  intro s t hst
  have h := hx s t hst
  rw [ExceptT.run_bind, ExceptT.run_bind, StateT.run_bind, StateT.run_bind]
  rcases hs : x.run.run s with ⟨r, s'⟩
  rcases ht : y.run.run t with ⟨q, t'⟩
  rw [hs, ht] at h
  rcases h with ⟨e, t₁, he, hex⟩ | ⟨ha, hst'⟩
  · cases he
    exact .inl ⟨e, t', rfl, hex⟩
  · obtain rfl : r = q := ha
    cases r with
    | error e => exact .inr ⟨rfl, hst'⟩
    | ok a => exact hf a s' t' hst'

theorem couples_lift {x : StateM σ α} {y : StateM τ α} (h : InStep C.Corresponds x y) :
    C.Couples (liftM x) (liftM y) := by
  intro s t hst
  obtain ⟨ha, hst'⟩ := h s t hst
  exact .inr ⟨congrArg Except.ok ha, hst'⟩

end Coupling

/-! ## Hosts -/

/-- Each operation of the one host is in step with that of the other. -/
structure Host.InStep (R : σ → τ → Prop) (h : Host σ) (k : Host τ) : Prop where
  symbolExists : ∀ scope name,
    TargetView.InStep R (h.symbolExists scope name) (k.symbolExists scope name)
  readSymbol : ∀ scope name,
    TargetView.InStep R (h.readSymbol scope name) (k.readSymbol scope name)
  writeSymbol : ∀ scope name v,
    TargetView.InStep R (h.writeSymbol scope name v) (k.writeSymbol scope name v)
  isArray : ∀ ref, TargetView.InStep R (h.isArray ref) (k.isArray ref)
  newObject : TargetView.InStep R h.newObject k.newObject
  newArray : TargetView.InStep R h.newArray k.newArray
  readKey : ∀ ref key, TargetView.InStep R (h.readKey ref key) (k.readKey ref key)
  writeKey : ∀ ref key v, TargetView.InStep R (h.writeKey ref key v) (k.writeKey ref key v)
  resolvePath : ∀ path, TargetView.InStep R (h.resolvePath path) (k.resolvePath path)
  bytesUsed : TargetView.InStep R h.bytesUsed k.bytesUsed
  dispatch : ∀ fn args, TargetView.InStep R (h.dispatch fn args) (k.dispatch fn args)
  memoryInUse : ∀ args, TargetView.InStep R (h.memoryInUse args) (k.memoryInUse args)
  answerFor : ∀ fn name, TargetView.InStep R (h.answerFor fn name) (k.answerFor fn name)
  hasRegisters : TargetView.InStep R h.hasRegisters k.hasRegisters
  registerValue : ∀ name, TargetView.InStep R (h.registerValue name) (k.registerValue name)
  formatValue : ∀ spec v, TargetView.InStep R (h.formatValue spec v) (k.formatValue spec v)

theorem Host.InStep.refl (h : Host σ) : Host.InStep Eq h h where
  symbolExists _ _ := .refl _
  readSymbol _ _ := .refl _
  writeSymbol _ _ _ := .refl _
  isArray _ := .refl _
  newObject := .refl _
  newArray := .refl _
  readKey _ _ := .refl _
  writeKey _ _ _ := .refl _
  resolvePath _ := .refl _
  bytesUsed := .refl _
  dispatch _ _ := .refl _
  memoryInUse _ := .refl _
  answerFor _ _ := .refl _
  hasRegisters := .refl _
  registerValue _ := .refl _
  formatValue _ _ := .refl _

end TargetView
