import TargetView.Evaluation

/-! # What runs keep

A `Contract` says what every run of a computation keeps: which states are in
order, what a state may become, and with which failures a run may end.  A
computation keeps it from a state if its run from there does (`Steady`, and
`Keeps` for computations that may fail).  Both are closed under sequencing, so
what is known of single operations carries over to everything made of them.

A `HostContract` says in addition which containers are known in a state; a host
honours it if each of its operations keeps it and gives known containers only
(`Host.Honours`).
-/
namespace TargetView

variable {ε σ α β : Type}

/-- What every run keeps. -/
structure Contract (ε σ : Type) where
  /-- The states that are in order. -/
  Holds : σ → Prop := fun _ => True
  /-- What a state may become. -/
  Becomes : σ → σ → Prop := fun _ _ => True
  /-- The failures that a run may end with, and the state they leave. -/
  Excuses : ε → σ → Prop
  refl : ∀ s, Becomes s s := by exact fun _ => trivial
  trans : ∀ {s t u}, Becomes s t → Becomes t u → Becomes s u := by exact fun _ _ => trivial

namespace Contract

variable (C : Contract ε σ)

/-! ## Computations that do not fail -/

/-- The run from a state that is in order ends in such a state, which the first
one may become, and with a value that is as it should be. -/
def Steady (s : σ) (x : StateM σ α) (Q : σ → α → Prop) : Prop :=
  C.Holds s → C.Holds (x.run s).2 ∧ C.Becomes s (x.run s).2 ∧ Q (x.run s).2 (x.run s).1

variable {C} {s : σ} {P : σ → α → Prop} {Q : σ → β → Prop}

theorem steady_pure {a : α} (h : P s a) : C.Steady s (pure a) P :=
  fun hs => ⟨hs, C.refl s, h⟩

theorem Steady.bind {x : StateM σ α} {f : α → StateM σ β} (hx : C.Steady s x P)
    (hf : ∀ t a, C.Becomes s t → P t a → C.Steady t (f a) Q) : C.Steady s (x >>= f) Q := by
  intro hs
  obtain ⟨ht, hst, ha⟩ := hx hs
  obtain ⟨hu, htu, hb⟩ := hf _ _ hst ha ht
  exact ⟨hu, C.trans hst htu, hb⟩

/-! ## Computations that may fail -/

variable (C) in
/-- What is asked of the end of a run: a value that is as it should be, or a
failure that it may end with. -/
def Ends (P : σ → α → Prop) (s : σ) : Except ε α → Prop
  | .ok a => P s a
  | .error e => C.Excuses e s

variable (C) in
/-- The run from a state keeps the contract, and its value is as it should be. -/
def Keeps (s : σ) (x : ExceptT ε (StateM σ) α) (P : σ → α → Prop) : Prop :=
  C.Steady s x.run (C.Ends P)

theorem keeps_pure {a : α} (h : P s a) : C.Keeps s (pure a) P :=
  steady_pure (P := C.Ends P) h

theorem keeps_throw {e : ε} (h : C.Excuses e s) : C.Keeps s (throw e) P :=
  steady_pure (P := C.Ends P) h

theorem keeps_liftExcept {r : Except ε α} (h : C.Ends P s r) :
    C.Keeps s (liftExcept r) P := by
  cases r with
  | ok a => exact keeps_pure h
  | error e => exact keeps_throw h

theorem keeps_lift {x : StateM σ α} (h : C.Steady s x P) : C.Keeps s (liftM x) P :=
  fun hs => h hs

/-- Every end is as asked. -/
theorem ends_of_forall {r : Except ε α} (hvalue : ∀ a, P s a) (hfailure : ∀ e, C.Excuses e s) :
    C.Ends P s r := by
  cases r with
  | ok a => exact hvalue a
  | error e => exact hfailure e

theorem Ends.imp {P' : σ → α → Prop} {r : Except ε α} (hr : C.Ends P s r)
    (h : ∀ a, P s a → P' s a) : C.Ends P' s r := by
  cases r with
  | ok a => exact h a hr
  | error e => exact hr

theorem Keeps.imp {P' : σ → α → Prop} {x : ExceptT ε (StateM σ) α} (hx : C.Keeps s x P)
    (h : ∀ t a, P t a → P' t a) : C.Keeps s x P' := by
  intro hs
  obtain ⟨ht, hst, hr⟩ := hx hs
  exact ⟨ht, hst, hr.imp (h _)⟩

/-- What a run keeps is known at its end. -/
theorem Keeps.becoming {x : ExceptT ε (StateM σ) α} (hx : C.Keeps s x P) :
    C.Keeps s x fun t a => C.Becomes s t ∧ P t a := by
  intro hs
  obtain ⟨ht, hst, hr⟩ := hx hs
  exact ⟨ht, hst, hr.imp fun _ ha => ⟨hst, ha⟩⟩

theorem Keeps.bind {x : ExceptT ε (StateM σ) α} {f : α → ExceptT ε (StateM σ) β}
    (hx : C.Keeps s x P) (hf : ∀ t a, C.Becomes s t → P t a → C.Keeps t (f a) Q) :
    C.Keeps s (x >>= f) Q := by
  intro hs
  obtain ⟨ht, hst, hr⟩ := hx hs
  rw [ExceptT.run_bind, StateT.run_bind]
  rcases hrun : x.run.run s with ⟨r, t⟩
  rw [hrun] at ht hst hr
  cases r with
  | error e => exact ⟨ht, hst, hr⟩
  | ok a =>
    obtain ⟨hu, htu, hb⟩ := hf t a hst hr ht
    exact ⟨hu, C.trans hst htu, hb⟩

end Contract

/-! ## Hosts -/

/-- What the runs on a host keep. -/
structure HostContract (σ : Type) extends Contract Fault σ where
  /-- The containers that are known in a state. -/
  Knows : σ → Ref → Prop := fun _ _ => True
  knows_of_becomes : ∀ {s t ref}, Becomes s t → Knows s ref → Knows t ref := by
    exact fun _ _ => trivial
  /-- A fault that stays within its formula is always allowed. -/
  excuses_plain : ∀ {fault s}, fault.isMissing = false → Excuses fault s

namespace HostContract

variable (C : HostContract σ)

/-- The value is no container, or a known one. -/
def Known (s : σ) (v : Value) : Prop := ∀ ref, v = .container ref → C.Knows s ref

variable {C} {s t : σ} {v : Value}

theorem known_scalar (x : Scalar) : C.Known s (.scalar x) := nofun

theorem known_undefined : C.Known s .undefined := nofun

theorem known_container {ref : Ref} (h : C.Knows s ref) : C.Known s (.container ref) := by
  rintro _ ⟨⟩
  exact h

theorem Known.of_becomes (h : C.Known s v) (hst : C.Becomes s t) : C.Known t v :=
  fun ref hv => C.knows_of_becomes hst (h ref hv)

/-- What is given for something that may not be there. -/
theorem known_getD {v? : Option Value} (h : ∀ v ∈ v?, C.Known s v) :
    C.Known s (v?.getD .undefined) := by
  cases v? with
  | none => exact known_undefined
  | some v => exact h v rfl

end HostContract

/-- Each operation of the host keeps the contract, if it is handed known
containers only, and gives no others. -/
structure Host.Honours (h : Host σ) (C : HostContract σ) : Prop where
  symbolExists : ∀ s scope name, C.Steady s (h.symbolExists scope name) fun _ _ => True
  readSymbol : ∀ s scope name,
    C.Steady s (h.readSymbol scope name) fun t v? => ∀ v ∈ v?, C.Known t v
  writeSymbol : ∀ s scope name v, C.Known s v →
    C.Steady s (h.writeSymbol scope name v) fun _ _ => True
  newObject : ∀ s, C.Steady s h.newObject C.Knows
  newArray : ∀ s, C.Steady s h.newArray C.Knows
  readKey : ∀ s ref key, C.Steady s (h.readKey ref key) fun t v? => ∀ v ∈ v?, C.Known t v
  writeKey : ∀ s ref key v, C.Known s v → C.Steady s (h.writeKey ref key v) fun _ _ => True
  resolvePath : ∀ s path, C.Steady s (h.resolvePath path) fun t v? => ∀ v ∈ v?, C.Known t v
  bytesUsed : ∀ s, C.Steady s h.bytesUsed fun t bytes? => bytes? = none →
    C.Excuses (.missing ⟨.calcMemUsed, "host provides no memory statistics"⟩) t
  dispatch : ∀ s fn args, (∀ v ∈ args, C.Known s v) →
    C.Steady s (h.dispatch fn args) fun t answer? => ∀ answer ∈ answer?, C.Ends C.Known t answer
  memoryInUse : ∀ s args, (∀ v ∈ args, C.Known s v) →
    C.Steady s (h.memoryInUse args) fun t answer? => ∀ answer ∈ answer?, C.Ends C.Known t answer
  answerFor : ∀ s fn name,
    C.Steady s (h.answerFor fn name) fun t answer? => ∀ answer ∈ answer?, C.Ends C.Known t answer
  hasRegisters : ∀ s, C.Steady s h.hasRegisters fun t has => has = false →
    C.Excuses (.missing ⟨.getRegVal, "host has no register access"⟩) t
  registerValue : ∀ s name, C.Steady s (h.registerValue name) fun t v? => ∀ v ∈ v?, C.Known t v
  formatValue : ∀ s spec v, C.Known s v → C.Steady s (h.formatValue spec v) fun _ _ => True

end TargetView
