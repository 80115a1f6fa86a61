import Mathlib.Data.List.Dedup
import Mathlib.Data.Finset.Card
import TargetView.Proofs.Drift
import TargetView.Proofs.Reads

/-! # Stores of named arrays

In a store of named arrays (`Store.NamedArrays`) every container is an array that
exactly one name is bound to.  So there are no more containers than names
(`NamedArrays.size_le`), and what fills the array of one name leaves those of the
others alone.

A store stays one if it drifts, and if a name is bound to an array by
`Store.setArray` (`NamedArrays.setArray`): the name gets an array of its own if it has
none, and keeps it from then on.
-/
namespace TargetView
namespace Store

variable {s t u : Store} {name : String} {names : List String} {items : Array Value} {ref : Ref}
  {last : String → Option (Array Value)}

/-- Whoever is bound to a container stays bound to it. -/
def Anchors (s t : Store) : Prop :=
  ∀ name ref, s.get? name = some (.container ref) → t.get? name = some (.container ref)

theorem Anchors.refl (s : Store) : s.Anchors s := fun _ _ h => h

theorem Anchors.trans (h : s.Anchors t) (h' : t.Anchors u) : s.Anchors u :=
  fun name ref hs => h' name ref (h name ref hs)

theorem Drifts.anchors (h : s.Drifts t) : s.Anchors t := fun _ _ hs => h.get?_eq hs

/-- A store that drifts binds no name to a container. -/
theorem Drifts.get?_container (h : s.Drifts t) (hname : t.get? name = some (.container ref)) :
    s.get? name = some (.container ref) := by
  rcases h.globals name with heq | ⟨-, hzero⟩
  · exact heq ▸ hname
  · cases hzero.symm.trans hname

/-- The store with a name bound to an array with some elements, if there are any. -/
def fill (s : Store) : Option (String × Array Value) → Store
  | some (name, items) => (s.setArray name items).2
  | none => s

/-- What the names have been filled with last, if one more may have been filled. -/
def afterFill (last : String → Option (Array Value)) :
    Option (String × Array Value) → String → Option (Array Value)
  | some (name, items) => Function.update last name (some items)
  | none => last

/-- Every container is an array that one of some names is bound to, with the elements
it was last filled with. -/
structure NamedArrays (s : Store) (names : List String) (last : String → Option (Array Value)) :
    Prop where
  /-- Names are bound to arrays with their last elements only. -/
  bound : ∀ name ref, s.get? name = some (.container ref) → name ∈ names ∧
    ∃ items, s.containers[ref]? = some (.array items) ∧ last name = some items
  /-- Names that have been filled are bound. -/
  filled : ∀ name items, last name = some items → ∃ ref, s.get? name = some (.container ref)
  /-- No two names share an array. -/
  apart : ∀ name name' ref, s.get? name = some (.container ref) →
    s.get? name' = some (.container ref) → name = name'
  /-- No array is without a name. -/
  owned : ∀ ref, ref < s.containers.size → ∃ name, s.get? name = some (.container ref)

theorem get?_empty (name : String) : get? {} name = none := by
  rw [get?]
  exact Std.ExtTreeMap.getElem?_empty

/-- The empty store has no arrays. -/
theorem namedArrays_empty (names : List String) : NamedArrays {} names fun _ => none where
  bound name ref h := by
    rw [get?_empty] at h
    cases h
  filled _ _ h := by cases h
  apart name _ ref h := by
    rw [get?_empty] at h
    cases h
  owned _ h := absurd h (Nat.not_lt_zero _)

namespace NamedArrays

/-- **There are no more containers than names.** -/
theorem size_le (h : s.NamedArrays names last) : s.containers.size ≤ names.dedup.length := by
  -- Every container is what some name is bound to.
  let refOf (name : String) : Ref := ((s.get? name).bind (·.ref?)).getD 0
  have hsurj : Set.SurjOn refOf ↑names.toFinset ↑(Finset.range s.containers.size) := by
    intro ref href
    obtain ⟨name, hname⟩ := h.owned ref (Finset.mem_range.mp href)
    refine ⟨name, List.mem_toFinset.mpr (h.bound name ref hname).1, ?_⟩
    simp only [refOf, hname]
    rfl
  have hcard := Finset.card_le_card_of_surjOn refOf hsurj
  rwa [Finset.card_range, List.card_toFinset] at hcard

theorem isArray (h : s.NamedArrays names last) (hname : s.get? name = some (.container ref)) :
    s.isArray ref = true := by
  obtain ⟨-, items, hitems, -⟩ := h.bound name ref hname
  rw [Store.isArray, hitems]
  rfl

/-- Exactly the names that have been filled are bound to arrays, with their last
elements. -/
theorem bindsArray_iff (h : s.NamedArrays names last) (name : String) (items : Array Value) :
    s.BindsArray name items ↔ last name = some items := by
  constructor
  · rintro ⟨ref, hname, helements⟩
    obtain ⟨-, items', hitems, hlast⟩ := h.bound name ref hname
    rw [elements?, hitems] at helements
    rw [hlast]
    exact helements
  · intro hlast
    obtain ⟨ref, hname⟩ := h.filled name items hlast
    obtain ⟨-, items', hitems, hlast'⟩ := h.bound name ref hname
    obtain rfl := Option.some.inj (hlast.symm.trans hlast')
    refine ⟨ref, hname, ?_⟩
    rw [elements?, hitems]
    rfl

theorem of_drifts (h : s.NamedArrays names last) (hst : s.Drifts t) : t.NamedArrays names last where
  bound name ref hname := by
    rw [hst.containers]
    exact h.bound name ref (hst.get?_container hname)
  filled name items hlast := (h.filled name items hlast).imp fun ref => hst.anchors name ref
  apart name name' ref hname hname' :=
    h.apart name name' ref (hst.get?_container hname) (hst.get?_container hname')
  owned ref href := by
    rw [hst.containers] at href
    exact (h.owned ref href).imp fun name => hst.anchors name ref

/-- An array that is filled keeps its name, and the other names keep theirs. -/
theorem refill (h : s.NamedArrays names last) (hname : s.get? name = some (.container ref))
    (items : Array Value) :
    (s.refill ref items).NamedArrays names (Function.update last name (some items)) where
  bound other ref' hother := by
    obtain ⟨hmem, items', hitems, hlast⟩ := h.bound other ref' hother
    refine ⟨hmem, ?_⟩
    by_cases heq : other = name
    · subst heq
      obtain rfl := Value.container.inj (Option.some.inj (hname.symm.trans hother))
      refine ⟨items, ?_, Function.update_self ..⟩
      exact Array.getElem?_setIfInBounds_self_of_lt (lt_size_of_isArray (h.isArray hname))
    · have href : ref ≠ ref' := fun hsame => heq (h.apart other name ref' hother (hsame ▸ hname))
      refine ⟨items', ?_, (Function.update_of_ne heq ..).trans hlast⟩
      exact (Array.getElem?_setIfInBounds_ne href).trans hitems
  filled other items' hlast := by
    by_cases heq : other = name
    · exact ⟨ref, heq ▸ hname⟩
    · rw [Function.update_of_ne heq] at hlast
      exact h.filled other items' hlast
  apart := h.apart
  owned ref' href' := h.owned ref' (Nat.lt_of_lt_of_eq href' Array.size_setIfInBounds)

/-- A name without an array gets a new one. -/
theorem bindNew (h : s.NamedArrays names last) (hmem : name ∈ names)
    (hname : ∀ ref, s.get? name ≠ some (.container ref)) (items : Array Value) :
    (setArray.bindNew name items s).2.NamedArrays names
      (Function.update last name (some items)) := by
  have hself : (setArray.bindNew name items s).2.get? name =
      some (.container s.containers.size) := (get?_set _ _ _ _).trans (if_pos rfl)
  have hothers {other : String} (hne : other ≠ name) :
      (setArray.bindNew name items s).2.get? other = s.get? other :=
    (get?_set _ _ _ _).trans (if_neg hne.symm)
  -- What was bound before is bound to what was there before.
  have hlt {other : String} {ref : Ref} (hother : s.get? other = some (.container ref)) :
      ref < s.containers.size := lt_size_of_isArray (h.isArray hother)
  refine ⟨?bound, ?filled, ?apart, ?owned⟩
  case bound =>
    intro other ref' hother
    by_cases heq : other = name
    · subst heq
      obtain rfl := Value.container.inj (Option.some.inj (hself.symm.trans hother))
      exact ⟨hmem, items, Array.getElem?_push_size, Function.update_self ..⟩
    · rw [hothers heq] at hother
      obtain ⟨hmem', items', hitems, hlast⟩ := h.bound other ref' hother
      refine ⟨hmem', items', ?_, (Function.update_of_ne heq ..).trans hlast⟩
      exact (Array.getElem?_push_lt (hlt hother)).trans
        ((Array.getElem?_eq_getElem (hlt hother)).symm.trans hitems)
  case filled =>
    intro other items' hlast
    by_cases heq : other = name
    · subst heq
      exact ⟨_, hself⟩
    · rw [Function.update_of_ne heq] at hlast
      rw [hothers heq]
      exact h.filled other items' hlast
  case apart =>
    intro other other' ref' hother hother'
    by_cases heq : other = name <;> by_cases heq' : other' = name
    · exact heq.trans heq'.symm
    · rw [heq, hself] at hother
      rw [hothers heq', ← hother] at hother'
      exact absurd (hlt hother') (Nat.lt_irrefl _)
    · rw [heq', hself] at hother'
      rw [hothers heq, ← hother'] at hother
      exact absurd (hlt hother) (Nat.lt_irrefl _)
    · rw [hothers heq] at hother
      rw [hothers heq'] at hother'
      exact h.apart other other' ref' hother hother'
  case owned =>
    intro ref' href'
    rcases Nat.lt_succ_iff_lt_or_eq.mp (Nat.lt_of_lt_of_eq href' (Array.size_push _)) with
      hold | rfl
    · obtain ⟨other, hother⟩ := h.owned ref' hold
      have hne : other ≠ name := fun heq => hname ref' (heq ▸ hother)
      exact ⟨other, (hothers hne).trans hother⟩
    · exact ⟨name, hself⟩

/-- **To bind a name to an array leaves the arrays of the other names alone**, and
gives the name one array for good. -/
theorem setArray (h : s.NamedArrays names last) (hmem : name ∈ names) (items : Array Value) :
    (s.setArray name items).2.NamedArrays names (Function.update last name (some items)) ∧
      s.Anchors (s.setArray name items).2 := by
  rcases s.setArray_eq name items with ⟨ref, hname, -, hset⟩ | ⟨hnone, hset⟩
  · rw [hset]
    exact ⟨h.refill hname items, .refl _⟩
  · rw [hset]
    have hname (ref : Ref) : s.get? name ≠ some (.container ref) := fun hname =>
      Bool.false_ne_true ((hnone ref hname).symm.trans (h.isArray hname))
    refine ⟨h.bindNew hmem hname items, fun other ref hother => ?_⟩
    have hne : name ≠ other := fun heq => hname ref (heq ▸ hother)
    exact ((get?_set _ _ _ _).trans (if_neg hne)).trans hother

/-- The same holds if an array may be filled. -/
theorem fill (h : s.NamedArrays names last) {filled? : Option (String × Array Value)}
    (hmem : ∀ filled ∈ filled?, filled.1 ∈ names) :
    (s.fill filled?).NamedArrays names (afterFill last filled?) ∧ s.Anchors (s.fill filled?) := by
  rcases filled? with _ | ⟨name, items⟩
  · exact ⟨h, .refl s⟩
  · exact h.setArray (hmem _ rfl) items

end NamedArrays
end Store
end TargetView
