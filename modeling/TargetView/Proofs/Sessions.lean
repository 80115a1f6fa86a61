import TargetView.Context
import TargetView.Proofs.Heap

/-! # Sessions over a store

A session is a sequence of operations on a context over a store that was empty
at first: evaluations of texts, with the active container or another one in
scope, and the creation and filling of containers.  What an operation is handed
from outside refers to containers that exist when it is performed
(`StoreOp.Admits`, `Admitted`).

Under this condition the store is well formed after every operation, containers
neither vanish nor change their kind, and whatever an operation gives back
exists.  An evaluation moreover keeps all globals, lets no array grow past the
greatest length, and leaves the active container as it was, whether it ends with
a value or with a fault (`containers_stay_well_formed`).
-/
namespace TargetView

namespace Store

variable {s : Store}

/-- The store with other elements in one of its arrays. -/
def refill (s : Store) (ref : Ref) (items : Array Value) : Store :=
  ⟨s.globals, s.containers.setIfInBounds ref (.array items)⟩

theorem get?_bind_ref?_eq_some_iff {name : String} {ref : Ref} :
    (s.get? name).bind (·.ref?) = some ref ↔ s.get? name = some (.container ref) := by
  rcases s.get? name with _ | v
  · exact iff_of_false nofun nofun
  · cases v with
    | container ref' =>
      exact ⟨fun h => congrArg (some <| Value.container ·) (Option.some.inj h),
        fun h => congrArg some (Value.container.inj (Option.some.inj h))⟩
    | scalar | undefined => exact iff_of_false nofun nofun

/-- Binding a name to an array fills the array it is bound to, or makes a new
one. -/
theorem setArray_eq (s : Store) (name : String) (items : Array Value) :
    (∃ ref, s.get? name = some (.container ref) ∧ s.isArray ref = true ∧
        s.setArray name items = (ref, s.refill ref items)) ∨
      (∀ ref, s.get? name = some (.container ref) → s.isArray ref = false) ∧
        s.setArray name items = setArray.bindNew name items s := by
  unfold setArray
  split
  · next ref href =>
    rw [get?_bind_ref?_eq_some_iff] at href
    by_cases hs : s.isArray ref = true
    · rw [if_pos hs]
      exact .inl ⟨ref, href, hs, rfl⟩
    · rw [if_neg hs]
      refine .inr ⟨fun ref' href' => ?_, rfl⟩
      obtain rfl := Value.container.inj (Option.some.inj (href.symm.trans href'))
      exact Bool.eq_false_iff.mpr hs
  · next hnone =>
    refine .inr ⟨fun ref href => ?_, rfl⟩
    cases hnone.symm.trans (get?_bind_ref?_eq_some_iff.mpr href)

theorem lt_size_of_isArray {ref : Ref} (h : s.isArray ref = true) : ref < s.containers.size := by
  cases hc : s.containers[ref]? with
  | none =>
    rw [isArray, hc] at h
    cases h
  | some c => exact (Array.getElem?_eq_some_iff.mp hc).1

theorem extends_refill {ref : Ref} (href : s.isArray ref = true) (items : Array Value) :
    s.Extends (s.refill ref items) where
  size := Nat.le_of_eq Array.size_setIfInBounds.symm
  kind ref' hlt := by
    unfold refill isArray
    rw [Array.getElem?_setIfInBounds]
    by_cases heq : ref = ref'
    · subst heq
      rw [if_pos rfl, if_pos hlt]
      exact href.symm
    · rw [if_neg heq]

theorem WellFormed.refill (hs : s.WellFormed) (ref : Ref) {items : Array Value}
    (hitems : ∀ v ∈ items, v.IsIn s) : (s.refill ref items).WellFormed := by
  have hle : s.containers.size ≤ (s.refill ref items).containers.size :=
    Nat.le_of_eq Array.size_setIfInBounds.symm
  constructor
  · intro name v h
    exact isIn_of_le (hs.globals h) hle
  · intro ref' c v h hv
    unfold Store.refill at h
    rw [Array.getElem?_setIfInBounds] at h
    split at h
    · split at h
      · obtain rfl := Option.some.inj h
        exact isIn_of_le (hitems v hv) hle
      · cases h
    · exact isIn_of_le (hs.containers h hv) hle

/-- What the creation and filling of containers keep. -/
structure Keeps (s : Store) (ref : Ref) (t : Store) : Prop where
  wellFormed : t.WellFormed
  growth : s.Extends t
  given : (Value.container ref).IsIn t

theorem keeps_push (hs : s.WellFormed) {c : Container} (hc : ∀ v, c.Holds v → v.IsIn s) :
    s.Keeps (s.push c).1 (s.push c).2 where
  wellFormed := hs.push hc
  growth := extends_push s c
  given := isIn_container (Nat.lt_of_lt_of_eq (Nat.lt_succ_self _) (size_push s c).symm)

theorem keeps_newObject (hs : s.WellFormed) : s.Keeps s.newObject.1 s.newObject.2 :=
  keeps_push hs fun v hv => absurd hv (Container.not_holds_empty v)

theorem keeps_newArray (hs : s.WellFormed) {items : Array Value}
    (hitems : ∀ v ∈ items, v.IsIn s) :
    s.Keeps (s.newArray items).1 (s.newArray items).2 :=
  keeps_push hs hitems

theorem keeps_setArray (hs : s.WellFormed) (name : String) {items : Array Value}
    (hitems : ∀ v ∈ items, v.IsIn s) :
    s.Keeps (s.setArray name items).1 (s.setArray name items).2 := by
  rcases s.setArray_eq name items with ⟨ref, -, href, h⟩ | ⟨-, h⟩
  · rw [h]
    have hgrowth := extends_refill href items
    exact ⟨hs.refill ref hitems, hgrowth,
      isIn_container (Nat.lt_of_lt_of_le (lt_size_of_isArray href) hgrowth.size)⟩
  · rw [h]
    obtain ⟨hwf, hgrowth, hgiven⟩ := keeps_newArray hs hitems
    exact ⟨hwf.set name hgiven, hgrowth.trans (grows_set _ name _).toExtends, hgiven⟩

end Store

/-- An operation on a context over a store. -/
inductive StoreOp where
  /-- Makes another container the active one. -/
  | activate (scope : Option Ref)
  /-- Evaluates a text with the active container in scope. -/
  | evaluate (text : String)
  /-- Evaluates a text with another container in scope. -/
  | evaluateIn (scope : Option Ref) (text : String)
  | newObject
  | newArray (items : Array Value)
  /-- Binds a global to an array. -/
  | setArray (name : String) (items : Array Value)

namespace StoreOp

/-- Performs an operation.  What is given back is the value of an evaluation, if
it has one, or the container that was made or filled. -/
def perform (op : StoreOp) (c : Context Store) : Option Value × Context Store :=
  match op with
  | .activate scope => (none, ⟨c.state, scope⟩)
  | .evaluate text =>
    let (answer, c) := c.evaluate .ofStore (parse text)
    (answer.toOption, c)
  | .evaluateIn scope text =>
    let (result, c) := c.evaluateIn .ofStore scope (parse text)
    (result.toOption.join, c)
  | .newObject =>
    let (ref, c) := c.onState fun s => s.newObject
    (some (.container ref), c)
  | .newArray items =>
    let (ref, c) := c.onState fun s => s.newArray items
    (some (.container ref), c)
  | .setArray name items =>
    let (ref, c) := c.onState fun s => s.setArray name items
    (some (.container ref), c)

/-- What the operation is handed from outside refers to containers of the
store. -/
def Admits (op : StoreOp) (s : Store) : Prop :=
  match op with
  | .activate scope | .evaluateIn scope _ => ∀ ref ∈ scope, ref < s.containers.size
  | .newArray items | .setArray _ items => ∀ v ∈ items, v.IsIn s
  | .evaluate _ | .newObject => True

/-- Whether a text is evaluated. -/
def IsEvaluation : StoreOp → Prop
  | .evaluate _ | .evaluateIn .. => True
  | .activate _ | .newObject | .newArray _ | .setArray .. => False

/-- The context after some operations. -/
def performAll (ops : List StoreOp) (c : Context Store) : Context Store :=
  ops.foldl (fun c op => (op.perform c).2) c

/-- Each of the operations is handed existing containers only. -/
def Admitted : List StoreOp → Context Store → Prop
  | [], _ => True
  | op :: rest, c => op.Admits c.state ∧ Admitted rest (op.perform c).2

/-- What an operation does to the containers. -/
structure Sound (op : StoreOp) (c : Context Store) : Prop where
  wellFormed : (op.perform c).2.state.WellFormed
  growth : c.state.Extends (op.perform c).2.state
  given : ∀ v ∈ (op.perform c).1, v.IsIn (op.perform c).2.state
  evaluation : op.IsEvaluation →
    c.state.Grows (op.perform c).2.state ∧ (op.perform c).2.scope = c.scope

variable {c : Context Store}

theorem sound_evaluate (hc : c.state.WellFormed) (text : String) : Sound (.evaluate text) c := by
  have hrun := Evaluation.keeps_run Store.honours_contract c.scope (parse text) hc
  obtain ⟨hwf, hgrows, hends⟩ := hrun
  refine ⟨hwf, hgrows.toExtends, fun v hv => ?_, fun _ => ⟨hgrows, rfl⟩⟩
  have hv : ((c.evaluate .ofStore (parse text)).1).toOption = some v := hv
  have hends : Store.contract.Ends Store.contract.Known
    (c.evaluate .ofStore (parse text)).2.state (c.evaluate .ofStore (parse text)).1 := hends
  cases hanswer : (c.evaluate .ofStore (parse text)).1 with
  | ok w =>
    rw [hanswer] at hv hends
    obtain rfl : w = v := Option.some.inj hv
    exact hends
  | error fault =>
    rw [hanswer] at hv
    cases hv

theorem sound_evaluateIn (hc : c.state.WellFormed) (scope : Option Ref) (text : String) :
    Sound (.evaluateIn scope text) c := by
  obtain ⟨hwf, hgrows, hvalue, -⟩ :=
    Evaluation.steady_attempt Store.honours_contract scope (parse text) hc
  refine ⟨hwf, hgrows.toExtends, fun v hv => ?_, fun _ => ⟨hgrows, rfl⟩⟩
  have hv : ((c.evaluateIn .ofStore scope (parse text)).1).toOption.join = some v := hv
  have hvalue : (c.evaluateIn .ofStore scope (parse text)).1 = .ok (some v) →
    v.IsIn (c.evaluateIn .ofStore scope (parse text)).2.state := hvalue v
  cases hresult : (c.evaluateIn .ofStore scope (parse text)).1 with
  | ok w =>
    rw [hresult] at hv hvalue
    exact hvalue (congrArg _ hv)
  | error m =>
    rw [hresult] at hv
    cases hv

theorem sound_of_keeps {op : StoreOp} (hop : ¬op.IsEvaluation) {ref : Ref}
    (hgiven : (op.perform c).1 = some (.container ref))
    (h : c.state.Keeps ref (op.perform c).2.state) : op.Sound c where
  wellFormed := h.wellFormed
  growth := h.growth
  given v hv := by
    rw [hgiven] at hv
    obtain rfl := Option.some.inj hv
    exact h.given
  evaluation he := absurd he hop

/-- **An operation that is handed existing containers keeps the store well
formed.** -/
theorem sound_of_admits (hc : c.state.WellFormed) {op : StoreOp} (hop : op.Admits c.state) :
    op.Sound c := by
  cases op with
  | activate scope => exact ⟨hc, .refl _, nofun, False.elim⟩
  | evaluate text => exact sound_evaluate hc text
  | evaluateIn scope text => exact sound_evaluateIn hc scope text
  | newObject => exact sound_of_keeps id rfl (Store.keeps_newObject hc)
  | newArray items => exact sound_of_keeps id rfl (Store.keeps_newArray hc hop)
  | setArray name items => exact sound_of_keeps id rfl (Store.keeps_setArray hc name hop)

theorem admitted_append {before after : List StoreOp} :
    Admitted (before ++ after) c ↔ Admitted before c ∧ Admitted after (performAll before c) := by
  induction before generalizing c with
  | nil => exact ⟨fun h => ⟨trivial, h⟩, And.right⟩
  | cons op before ih =>
    rw [List.cons_append, Admitted, Admitted, ih, and_assoc]
    rfl

theorem wellFormed_performAll {ops : List StoreOp} (hc : c.state.WellFormed)
    (h : Admitted ops c) : (performAll ops c).state.WellFormed := by
  induction ops generalizing c with
  | nil => exact hc
  | cons op ops ih => exact ih (sound_of_admits hc h.1).wellFormed h.2

/-- **The containers of a session stay well formed.**  Every operation, where
it stands in the session, keeps the store well formed and its containers what
they are, and gives back nothing that does not exist; evaluations lose no
global, let no array grow too long, and leave the active container alone. -/
theorem containers_stay_well_formed (ops : List StoreOp) (h : Admitted ops { state := {} }) :
    (performAll ops { state := {} }).state.WellFormed ∧
      ∀ before op after, ops = before ++ op :: after →
        op.Sound (performAll before { state := {} }) := by
  refine ⟨wellFormed_performAll Store.wellFormed_empty h, ?_⟩
  rintro before op after rfl
  obtain ⟨hbefore, hop, -⟩ := admitted_append.mp h
  exact sound_of_admits (wellFormed_performAll Store.wellFormed_empty hbefore) hop

/-- An array that holds an object is made while the object is active, and then
bound and written through. -/
theorem containers_stay_well_formed_array :
    let ops : List StoreOp :=
      [.newObject, .activate (some 0), .setArray "a" #[.container 0], .evaluate "a[2].b = a"]
    Admitted ops { state := {} } ∧ (performAll ops { state := {} }).state.WellFormed ∧
      Sound (.evaluate "a[2].b = a") (performAll (ops.take 3) { state := {} }) := by
  intro ops
  have hadmitted : Admitted ops { state := {} } := by
    refine ⟨trivial, ?_, ?_, trivial, trivial⟩
    · rintro _ ⟨⟩
      exact Nat.zero_lt_one
    · rintro v hv _ rfl
      obtain rfl : _ = 0 := Value.container.inj (Array.mem_singleton.mp hv)
      exact Nat.zero_lt_one
  have h := containers_stay_well_formed ops hadmitted
  exact ⟨hadmitted, h.1, h.2 (ops.take 3) _ [] rfl⟩

end StoreOp
end TargetView
