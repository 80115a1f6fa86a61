import TargetView.Host

/-! # Stores that differ in one global

`Store.AgreeBut g` relates stores with the same containers and the same
globals, `g` excepted.  What a store answers about other names and about
containers is the same in both, and so is every name that the active object
has.  Writes other than to the global `g` keep the stores in the relation and
leave `g` alone.
-/
namespace TargetView

/-! ### Containers -/

namespace Container

/-- Writing keeps an object an object, with all its members. -/
theorem fields?_set (c : Container) (key : Key) (v : Value) {name : String}
    (h : ((c.fields?).bind (·[name]?)).isSome = true) :
    (((c.set key v).fields?).bind (·[name]?)).isSome = true := by
  cases c with
  | object fields =>
    simp only [fields?, set, Option.bind_some] at h ⊢
    rw [Std.ExtTreeMap.getElem?_insert]
    split
    · rfl
    · exact h
  | array items => cases h

end Container

namespace Store

/-! ### Globals and members -/

theorem get?_set (s : Store) (n m : String) (v : Value) :
    (s.set n v).get? m = if n = m then some v else s.get? m := by
  simp only [get?, set, Std.ExtTreeMap.getElem?_insert, Std.LawfulEqCmp.compare_eq_iff_eq]

theorem symbolExists_eq (s : Store) (scope : Option Ref) (name : String) :
    s.symbolExists scope name = ((s.member? scope name).isSome || (s.get? name).isSome) := by
  rw [symbolExists, Std.ExtTreeMap.contains_eq_isSome_getElem?]
  rfl

/-- Whether the active object has a member. -/
def Shadows (s : Store) (scope : Option Ref) (name : String) : Prop :=
  (s.member? scope name).isSome = true

theorem not_shadows_none (s : Store) (name : String) : ¬ s.Shadows none name := by
  simp [Shadows, member?]

theorem member?_congr {s t : Store} (h : s.containers = t.containers) (scope : Option Ref)
    (name : String) : s.member? scope name = t.member? scope name := by
  simp only [member?, h]

/-- A write in a container keeps the members of the active object. -/
theorem Shadows.modify {s : Store} {scope : Option Ref} {name : String}
    (h : s.Shadows scope name) (globals : Fields) (ref : Ref) (key : Key) (v : Value) :
    Shadows ⟨globals, s.containers.modify ref (·.set key v)⟩ scope name := by
  cases scope with
  | none => exact absurd h (s.not_shadows_none name)
  | some r =>
    simp only [Shadows, member?, Option.bind_some] at h ⊢
    rw [Array.getElem?_modify]
    cases hc : s.containers[r]? with
    | none => rw [hc] at h; cases h
    | some c =>
      rw [hc] at h
      split
      · exact c.fields?_set key v h
      · exact h

/-- A new container keeps the members of the active object. -/
theorem Shadows.push {s : Store} {scope : Option Ref} {name : String}
    (h : s.Shadows scope name) (c : Container) : (s.push c).2.Shadows scope name := by
  cases scope with
  | none => exact absurd h (s.not_shadows_none name)
  | some r =>
    simp only [Shadows, member?, Option.bind_some] at h ⊢
    cases hc : s.containers[r]? with
    | none => rw [hc] at h; cases h
    | some c' =>
      have hlt : r < s.containers.size := (Array.getElem?_eq_some_iff.mp hc).1
      rw [hc] at h
      have hpush : (s.push c).2.containers[r]? = some c' := by
        rw [Store.push, Array.getElem?_push, if_neg (Nat.ne_of_lt hlt), hc]
      rw [hpush]
      exact h

/-- A name that the active object has is written there. -/
theorem writeSymbol_of_shadows {s : Store} {ref : Ref} {name : String}
    (h : s.Shadows (some ref) name) (v : Value) :
    s.writeSymbol (some ref) name v =
      ⟨s.globals, s.containers.modify ref (·.set (.name name) v)⟩ := by
  have h' : (s.member? (some ref) name).isSome = true := h
  rw [writeSymbol, if_pos h']

/-- Any other name is a global. -/
theorem writeSymbol_of_not_shadows {s : Store} {scope : Option Ref} {name : String}
    (h : ¬ s.Shadows scope name) (v : Value) : s.writeSymbol scope name v = s.set name v := by
  cases scope with
  | none => rfl
  | some ref =>
    have h' : ¬ (s.member? (some ref) name).isSome = true := h
    rw [writeSymbol, if_neg h']

/-! ### Stores that agree -/

/-- The containers are the same, and so are all globals but one. -/
structure AgreeBut (g : String) (s t : Store) : Prop where
  containers : s.containers = t.containers
  globals : ∀ name, name ≠ g → s.get? name = t.get? name

theorem get?_erase (s : Store) (g name : String) :
    (s.erase g).get? name = if g = name then none else s.get? name := by
  simp only [get?, erase, Std.ExtTreeMap.getElem?_erase, Std.LawfulEqCmp.compare_eq_iff_eq]

/-- Without that global the stores are the same. -/
theorem agreeBut_iff {g : String} {s t : Store} : AgreeBut g s t ↔ s.erase g = t.erase g := by
  constructor
  · rintro ⟨hc, hg⟩
    have hglobals : s.globals.erase g = t.globals.erase g := by
      refine Std.ExtTreeMap.ext_getElem? fun name => ?_
      have h : (s.erase g).get? name = (t.erase g).get? name := by
        rw [get?_erase, get?_erase]
        by_cases hn : g = name
        · rw [if_pos hn, if_pos hn]
        · rw [if_neg hn, if_neg hn, hg name (Ne.symm hn)]
      exact h
    rw [erase, erase, hglobals, hc]
  · intro h
    have hc : (s.erase g).containers = (t.erase g).containers := by rw [h]
    refine ⟨hc, fun name hn => ?_⟩
    have hget := congrArg (get? · name) h
    simp only [get?_erase, if_neg (Ne.symm hn)] at hget
    exact hget

namespace AgreeBut

variable {g : String} {s t : Store} {scope : Option Ref} {name : String}

theorem member? (h : AgreeBut g s t) (scope : Option Ref) (name : String) :
    s.member? scope name = t.member? scope name :=
  member?_congr h.containers scope name

theorem shadows_iff (h : AgreeBut g s t) : s.Shadows scope name ↔ t.Shadows scope name := by
  rw [Shadows, Shadows, h.member?]

theorem readKey (h : AgreeBut g s t) (ref : Ref) (key : Key) :
    s.readKey ref key = t.readKey ref key := by
  rw [Store.readKey, Store.readKey, h.containers]

theorem acceptsKey (h : AgreeBut g s t) (ref : Ref) (key : Key) :
    s.acceptsKey ref key = t.acceptsKey ref key := by
  rw [Store.acceptsKey, Store.acceptsKey, h.containers]

theorem readSymbol (h : AgreeBut g s t) (hn : name = g → s.Shadows scope name) :
    s.readSymbol scope name = t.readSymbol scope name := by
  rw [Store.readSymbol, Store.readSymbol, ← h.member?]
  by_cases hg : name = g
  · -- The active object answers before the global is asked.
    obtain ⟨v, hv⟩ := Option.isSome_iff_exists.mp (hn hg)
    rw [hv]
    rfl
  · rw [h.globals name hg]

theorem symbolExists (h : AgreeBut g s t) (hn : name = g → s.Shadows scope name) :
    s.symbolExists scope name = t.symbolExists scope name := by
  rw [symbolExists_eq, symbolExists_eq, ← h.member?]
  by_cases hg : name = g
  · rw [show (s.member? scope name).isSome = true from hn hg]
    rfl
  · rw [h.globals name hg]

/-- Writes in a container happen in both stores alike. -/
theorem modify (h : AgreeBut g s t) (ref : Ref) (key : Key) (v : Value) :
    AgreeBut g ⟨s.globals, s.containers.modify ref (·.set key v)⟩
      ⟨t.globals, t.containers.modify ref (·.set key v)⟩ where
  containers := by rw [h.containers]
  globals := h.globals

theorem push (h : AgreeBut g s t) (c : Container) :
    AgreeBut g (s.push c).2 (t.push c).2 where
  containers := congrArg (Array.push · c) h.containers
  globals := h.globals

theorem set (h : AgreeBut g s t) (name : String) (v : Value) :
    AgreeBut g (s.set name v) (t.set name v) where
  containers := h.containers
  globals other ho := by rw [get?_set, get?_set, h.globals other ho]

theorem writeSymbol (h : AgreeBut g s t) (scope : Option Ref) (name : String) (v : Value) :
    AgreeBut g (s.writeSymbol scope name v) (t.writeSymbol scope name v) := by
  -- Both stores have the same containers, so they write in the same place.
  by_cases hs : s.Shadows scope name
  · cases scope with
    | none => exact absurd hs (s.not_shadows_none name)
    | some ref =>
      rw [writeSymbol_of_shadows hs, writeSymbol_of_shadows (h.shadows_iff.mp hs)]
      exact h.modify ref _ v
  · rw [writeSymbol_of_not_shadows hs, writeSymbol_of_not_shadows (mt h.shadows_iff.mpr hs)]
    exact h.set name v

end AgreeBut

/-! ### What a write leaves alone -/

variable {g : String} {s : Store} {scope : Option Ref} {name : String}

/-- A write elsewhere, or to a name that the active object has, leaves a
global alone. -/
theorem get?_writeSymbol (hn : name = g → s.Shadows scope name) (v : Value) :
    (s.writeSymbol scope name v).get? g = s.get? g := by
  by_cases hs : s.Shadows scope name
  · cases scope with
    | none => exact absurd hs (s.not_shadows_none name)
    | some ref =>
      rw [writeSymbol_of_shadows hs]
      rfl
  · rw [writeSymbol_of_not_shadows hs, get?_set, if_neg (mt hn hs)]

theorem Shadows.writeSymbol (h : s.Shadows scope g) (name : String) (v : Value) :
    (s.writeSymbol scope name v).Shadows scope g := by
  by_cases hs : s.Shadows scope name
  · cases scope with
    | none => exact absurd hs (s.not_shadows_none name)
    | some ref =>
      rw [writeSymbol_of_shadows hs]
      exact h.modify s.globals ref _ v
  · rw [writeSymbol_of_not_shadows hs]
    exact h

end Store
end TargetView
