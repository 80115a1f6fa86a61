import TargetView.Proofs.Chains
import TargetView.Proofs.Inheritance

/-! # Unknown names read as zero

A text that assigns nothing, updates nothing and asks for the existence of no
symbol changes a store in one way only: a name that has no value is bound to
zero when it is read.  Whether such names are bound beforehand makes no
difference to the answer, and once they are bound nothing is left to change
(`reading_is_idempotent`).

An evaluation *settles* a store if there are an answer and some unknown names
such that, whichever unknown names are bound to zero already, it gives that
answer and binds those names (`Eval.Settles`).  Which of two branches is taken,
or where a fault ends the evaluation, is then the same on all these stores, so
sequences inherit the property.
-/
namespace TargetView

namespace Store

/-- The store with some names bound to zero. -/
def withZeros (s : Store) (names : List String) : Store :=
  names.foldl (fun t name => t.set name .zero) s

/-- None of the names has a value. -/
def Lacks (s : Store) (scope : Option Ref) (names : List String) : Prop :=
  ∀ name ∈ names, s.symbolExists scope name = false

variable {s t : Store} {scope : Option Ref} {name : String} {names zeros : List String}

/-- A store is its globals and its containers. -/
theorem ext_get? (hc : s.containers = t.containers) (hg : ∀ name, s.get? name = t.get? name) :
    s = t := by
  obtain ⟨globals, containers⟩ := s
  obtain rfl : containers = t.containers := hc
  exact congrArg (Store.mk · t.containers) (Std.ExtTreeMap.ext_getElem? fun {k} => hg k)

theorem containers_withZeros (s : Store) (names : List String) :
    (s.withZeros names).containers = s.containers := by
  induction names generalizing s with
  | nil => rfl
  | cons name rest ih => exact ih (s.set name .zero)

theorem get?_withZeros (s : Store) (names : List String) (name : String) :
    (s.withZeros names).get? name = if name ∈ names then some .zero else s.get? name := by
  induction names generalizing s with
  | nil => simp [withZeros]
  | cons first rest ih =>
    rw [withZeros, List.foldl_cons, ← withZeros, ih, get?_set]
    simp only [List.mem_cons]
    by_cases hrest : name ∈ rest
    · rw [if_pos hrest, if_pos (.inr hrest)]
    · by_cases hfirst : first = name
      · rw [if_neg hrest, if_pos hfirst, if_pos (.inl hfirst.symm)]
      · rw [if_neg hrest, if_neg hfirst, if_neg (not_or.mpr ⟨Ne.symm hfirst, hrest⟩)]

/-- The order of the names and their number do not matter. -/
theorem withZeros_congr (h : ∀ name, name ∈ names ↔ name ∈ zeros) :
    s.withZeros names = s.withZeros zeros := by
  refine ext_get? (by rw [containers_withZeros, containers_withZeros]) fun name => ?_
  rw [get?_withZeros, get?_withZeros]
  simp only [h]

theorem set_withZeros (s : Store) (names : List String) (name : String) :
    (s.withZeros names).set name .zero = s.withZeros (names ++ [name]) := by
  rw [withZeros, withZeros, List.foldl_append]
  rfl

theorem member?_withZeros (s : Store) (names : List String) (scope : Option Ref) (name : String) :
    (s.withZeros names).member? scope name = s.member? scope name :=
  member?_congr (s.containers_withZeros names) scope name

theorem readKey_withZeros (s : Store) (names : List String) (ref : Ref) (key : Key) :
    (s.withZeros names).readKey ref key = s.readKey ref key := by
  rw [readKey, containers_withZeros]
  rfl

theorem Lacks.append (h : s.Lacks scope names) (h' : s.Lacks scope zeros) :
    s.Lacks scope (names ++ zeros) :=
  List.forall_mem_append.mpr ⟨h, h'⟩

theorem symbolExists_withZeros (s : Store) (zeros : List String) (scope : Option Ref)
    (name : String) : (s.withZeros zeros).symbolExists scope name = true ↔
      s.symbolExists scope name = true ∨ name ∈ zeros := by
  rw [symbolExists_eq, symbolExists_eq, member?_withZeros, get?_withZeros]
  by_cases hmem : name ∈ zeros
  · simp [hmem]
  · simp [hmem]

/-- A name that has a value keeps it. -/
theorem readSymbol_withZeros_of_exists (h : s.Lacks scope zeros)
    (hname : s.symbolExists scope name = true) :
    (s.withZeros zeros).readSymbol scope name = s.readSymbol scope name := by
  have hmem : name ∉ zeros := fun hmem => Bool.false_ne_true ((h name hmem).symm.trans hname)
  rw [readSymbol, readSymbol, member?_withZeros, get?_withZeros, if_neg hmem]

/-- A name without a value is no member of the active object. -/
theorem member?_withZeros_of_not_exists (h : s.symbolExists scope name = false)
    (zeros : List String) : (s.withZeros zeros).member? scope name = none := by
  rw [symbolExists_eq, Bool.or_eq_false_iff] at h
  rw [member?_withZeros]
  exact Option.isNone_iff_eq_none.mp (Option.isSome_eq_false_iff.mp h.1)

theorem readSymbol_withZeros_of_mem (h : s.symbolExists scope name = false)
    (hmem : name ∈ zeros) : (s.withZeros zeros).readSymbol scope name = some .zero := by
  rw [readSymbol, member?_withZeros_of_not_exists h, Option.none_or, get?_withZeros, if_pos hmem]

theorem writeSymbol_withZeros (h : s.symbolExists scope name = false) (zeros : List String) :
    (s.withZeros zeros).writeSymbol scope name .zero = s.withZeros (zeros ++ [name]) := by
  have hshadows : ¬(s.withZeros zeros).Shadows scope name :=
    Option.not_isSome_iff_eq_none.mpr (member?_withZeros_of_not_exists h zeros)
  rw [writeSymbol_of_not_shadows hshadows, set_withZeros]

end Store

/-! ## Evaluations that settle a store -/

namespace Eval

variable {scope : Option Ref} {α β : Type}

/-- The answer and the names that come to be bound to zero do not depend on the
unknown names that are bound to zero already. -/
def Settles (scope : Option Ref) (x : Eval Store α) : Prop :=
  ∀ s : Store, ∃ r names, s.Lacks scope names ∧
    ∀ zeros, s.Lacks scope zeros →
      x.run.run (s.withZeros zeros) = (r, s.withZeros (zeros ++ names))

/-- An evaluation that takes no notice of unknown names and leaves the store. -/
theorem settles_of_eq {x : Eval Store α} {r : Store → Except Fault α}
    (h : ∀ s zeros, s.Lacks scope zeros →
      x.run.run (s.withZeros zeros) = (r s, s.withZeros zeros)) : Settles scope x := by
  refine fun s => ⟨r s, [], nofun, fun zeros hzeros => ?_⟩
  rw [List.append_nil]
  exact h s zeros hzeros

theorem Settles.bind {x : Eval Store α} {f : α → Eval Store β} (hx : Settles scope x)
    (hf : ∀ a, Settles scope (f a)) : Settles scope (x >>= f) := by
  intro s
  obtain ⟨r, names, hnames, hr⟩ := hx s
  cases r with
  | error fault =>
    exact ⟨.error fault, names, hnames, fun zeros hz => run_bind_of_error (hr zeros hz)⟩
  | ok a =>
    obtain ⟨r', more, hmore, hr'⟩ := hf a s
    refine ⟨r', names ++ more, hnames.append hmore, fun zeros hz => ?_⟩
    -- The second part starts where the names of the first one are bound too.
    rw [run_bind_of_ok (hr zeros hz), hr' _ (hz.append hnames), List.append_assoc]

end Eval

/-- That a store is settled, as a property that sequences inherit. -/
def Inherited.settles (scope : Option Ref) : Inherited Store where
  Holds := Eval.Settles scope
  Permits _ := True
  holds_pure a := Eval.settles_of_eq (r := fun _ => .ok a) fun _ _ _ => rfl
  holds_throw {_ f} _ := Eval.settles_of_eq (r := fun _ => .error f) fun _ _ _ => rfl
  holds_bind := Eval.Settles.bind

/-! ## Reading -/

/-- Whether an expression by itself neither writes nor asks whether a symbol
exists. -/
def Expr.isPassive : Expr → Bool
  | assign .. | update .. | intrinsic .symbolExists .. => false
  | _ => true

theorem Expr.target?_of_isPassive {e : Expr} (h : e.isPassive = true) : e.target? = none := by
  cases e <;> first | rfl | cases h

namespace Evaluation

open Eval Host

variable (scope : Option Ref)

theorem settles_pure {α : Type} (a : α) : Settles scope (pure a : Eval Store α) :=
  (Inherited.settles scope).holds_pure a

theorem settles_throw {α : Type} (f : Fault) : Settles scope (throw f : Eval Store α) :=
  (Inherited.settles scope).holds_throw trivial

/-- A name that is unknown is bound, unless it is bound already; either way it
reads as zero. -/
theorem settles_readName (name : String) : Settles scope (ofStore.readName scope name) := by
  unfold readName
  by_cases hpath : isPath name = true
  · rw [if_pos hpath]
    exact settles_throw scope _
  rw [if_neg hpath]
  intro s
  cases hname : s.symbolExists scope name with
  | true =>
    refine ⟨.ok ((s.readSymbol scope name).getD .undefined), [], nofun, fun zeros hz => ?_⟩
    have hexists := (s.symbolExists_withZeros zeros scope name).mpr (.inl hname)
    rw [run_bind_of_ok (Store.run_symbolExists _ scope name), if_pos hexists,
      run_bind_of_ok (Store.run_readSymbol _ scope name),
      Store.readSymbol_withZeros_of_exists hz hname, List.append_nil]
    rfl
  | false =>
    refine ⟨.ok .zero, [name], List.forall_mem_singleton.mpr hname, fun zeros _ => ?_⟩
    have hexists := s.symbolExists_withZeros zeros scope name
    rw [run_bind_of_ok (Store.run_symbolExists _ scope name)]
    by_cases hmem : name ∈ zeros
    · have hsame : s.withZeros (zeros ++ [name]) = s.withZeros zeros :=
        Store.withZeros_congr fun other => by grind
      rw [if_pos (hexists.mpr (.inr hmem)), run_bind_of_ok (Store.run_readSymbol _ scope name),
        Store.readSymbol_withZeros_of_mem hname hmem, hsame]
      rfl
    · have hunknown : ¬(s.withZeros zeros).symbolExists scope name = true := by
        rw [hexists, hname]
        exact not_or.mpr ⟨Bool.false_ne_true, hmem⟩
      rw [if_neg hunknown, ← Store.writeSymbol_withZeros hname]
      rfl

theorem settles_readMember (base : Value) (key : Key) :
    Settles scope (ofStore.readMember base key) := by
  cases base with
  | container ref =>
    refine settles_of_eq (r := fun s => .ok ((s.readKey ref key).getD .undefined))
      fun s zeros _ => ?_
    rw [Store.run_readMember, Store.readKey_withZeros]
  | scalar | undefined => exact settles_pure scope _

/-- An intrinsic that does not ask whether a symbol exists reads a symbol at
most. -/
theorem settles_builtin {fn : Intrinsic} (hfn : fn ≠ .symbolExists) (name : String) :
    Settles scope (ofStore.builtin scope fn name) := by
  cases fn with
  | calcMemUsed => exact settles_throw scope _
  | findSymbol => exact settles_readName scope name
  | getRegVal => exact settles_throw scope _
  | offsetOf => exact settles_pure scope _
  | sizeOf =>
    unfold builtin
    dsimp only
    split
    · exact settles_pure scope _
    · exact settles_throw scope _
  | symbolExists => exact absurd rfl hfn

theorem settles_callIntrinsic {fn : Intrinsic} (hfn : fn ≠ .symbolExists) (args : List Value) :
    Settles scope (ofStore.callIntrinsic scope fn args) := by
  refine Settles.bind (settles_pure scope none) fun answer? => ?_
  cases answer? with
  | some answer =>
    exact settles_of_eq (r := fun _ => answer) fun _ _ _ => by cases answer <;> rfl
  | none =>
    rw [answerOr]
    split
    · exact settles_throw scope _
    · exact settles_builtin scope hfn _
    · exact settles_throw scope _

/-- Passive texts take steps that settle a store only. -/
theorem steps_settle :
    (Inherited.settles scope).Steps ofStore scope fun e => e.isPassive = true where
  operator _ := trivial
  operand := trivial
  call _ := trivial
  malformed _ _ _ := trivial
  readName := settles_readName scope
  readMember := settles_readMember scope
  intrinsic fn _ _ _ h values := by
    refine settles_callIntrinsic scope ?_ values
    rintro rfl
    cases h
  rendered _ _ := settles_pure scope _
  target e target h htarget := by
    rw [e.target?_of_isPassive h] at htarget
    cases htarget

/-- **Reading is idempotent, and an unknown name is a zero.**  A text without
assignments, updates and questions for the existence of a symbol binds some names
to zero that had no value, and changes nothing else.  Evaluated again it gives the
same answer and changes nothing; and it gives the same answer if any unknown names
are bound to zero beforehand.  If these are among the names that it binds anyway,
it also leaves the same store. -/
theorem reading_is_idempotent (text : String)
    (h : ∀ e ∈ (parse text).body.reachable, e.isPassive = true) (s : Store) :
    ∃ answer names, s.Lacks scope names ∧
      Context.evaluate ofStore (parse text) ⟨s, scope⟩ = (answer, ⟨s.withZeros names, scope⟩) ∧
      Context.evaluate ofStore (parse text) ⟨s.withZeros names, scope⟩ =
        (answer, ⟨s.withZeros names, scope⟩) ∧
      (∀ zeros, zeros ⊆ names →
        Context.evaluate ofStore (parse text) ⟨s.withZeros zeros, scope⟩ =
          (answer, ⟨s.withZeros names, scope⟩)) ∧
      ∀ zeros, s.Lacks scope zeros →
        Context.evaluate ofStore (parse text) ⟨s.withZeros zeros, scope⟩ =
          (answer, ⟨s.withZeros (zeros ++ names), scope⟩) := by
  have hrun : Settles scope (run ofStore scope (parse text)) := (steps_settle scope).holds_run _ h
  obtain ⟨answer, names, hnames, hr⟩ := hrun s
  have hall (zeros : List String) (hz : s.Lacks scope zeros) :
      Context.evaluate ofStore (parse text) ⟨s.withZeros zeros, scope⟩ =
        (answer, ⟨s.withZeros (zeros ++ names), scope⟩) := by
    rw [Context.evaluate, Context.onState, hr zeros hz]
  have hsub (zeros : List String) (hz : zeros ⊆ names) :
      Context.evaluate ofStore (parse text) ⟨s.withZeros zeros, scope⟩ =
        (answer, ⟨s.withZeros names, scope⟩) := by
    have hsame : s.withZeros (zeros ++ names) = s.withZeros names :=
      Store.withZeros_congr fun name => by
        rw [List.mem_append]
        exact or_iff_right_of_imp fun hmem => hz hmem
    rw [hall zeros fun name hmem => hnames name (hz hmem), hsame]
  exact ⟨answer, names, hnames, hsub [] nofun, hsub names (List.Subset.refl _), hsub, hall⟩

/-- A format text that reads a name in one of two branches. -/
theorem reading_is_idempotent_template :
    (∀ e ∈ (parse "%d[x ? y : z] of %d[z + 1]").body.reachable, e.isPassive = true) ∧
      ∃ answer names,
        Context.evaluate ofStore (parse "%d[x ? y : z] of %d[z + 1]") ⟨{}, none⟩ =
          (answer, ⟨Store.withZeros {} names, none⟩) ∧
        Context.evaluate ofStore (parse "%d[x ? y : z] of %d[z + 1]")
          ⟨Store.withZeros {} ["z"], none⟩ =
          (answer, ⟨Store.withZeros {} (["z"] ++ names), none⟩) := by
  have hpassive : ∀ e ∈ (parse "%d[x ? y : z] of %d[z + 1]").body.reachable,
      e.isPassive = true := by decide +kernel
  obtain ⟨answer, names, -, hfirst, -, -, hzeros⟩ :=
    reading_is_idempotent none "%d[x ? y : z] of %d[z + 1]" hpassive {}
  exact ⟨hpassive, answer, names, hfirst, hzeros ["z"] (List.forall_mem_singleton.mpr rfl)⟩

end Evaluation
end TargetView
