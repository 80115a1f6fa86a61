import TargetView.Proofs.Attempts
import TargetView.Proofs.Drift
import TargetView.Proofs.LinkedLists
import TargetView.Proofs.NamedArrays

/-! # What list reads do to a store

A list read gets its elements (`Pass.listItems`), and then binds its name to them
(`Pass.fetchList_eq`).  If its formulas only look, the store drifts until then
(`Pass.drifting_listItems`).  So all that a statement does to the store is to let it
drift and, if it is a list read that succeeds, to fill the array of one name
(`Visit.exists_drifts_storeAfter`).
-/
namespace TargetView

open Contract

variable {τ α : Type}

namespace Pass

variable (S : Setting τ)

/-- The elements of a list read that stand one behind the other; nothing if it is not
known where the list starts, or if they cannot be read. -/
def consecutiveItems (r : ListRead) : Pass τ (Option (Array Value)) := do
  let some start ← startAddress S r.source | return none
  let count ← listCount S r
  let some bytes ←
    readElements S r.source.type start (S.config.fitCount r.source.type count) | return none
  return some (r.source.type.decodeAll r.source.order bytes)

/-- The elements that a list read gets, if it succeeds. -/
def listItems (r : ListRead) : Pass τ (Option (Array Value)) :=
  match r.next? with
  | some next => linkedItems S r next
  | none => consecutiveItems S r

/-- A list read without pointers binds its name to what stands one behind the
other. -/
theorem fetchList_of_no_next {r : ListRead} (h : r.next? = none) :
    fetchList S r = (do
      let some items ← consecutiveItems S r | return false
      bindArray r.name items
      return true) := by
  unfold fetchList consecutiveItems
  rw [h, bind_assoc]
  refine bind_congr fun start? => ?_
  cases start? with
  | none => exact (pure_bind _ _).symm
  | some start =>
    dsimp only
    rw [bind_assoc]
    refine bind_congr fun count => ?_
    rw [bind_assoc]
    refine bind_congr fun bytes? => ?_
    cases bytes? with
    | none => exact (pure_bind _ _).symm
    | some bytes => exact (pure_bind _ _).symm

/-- **A list read binds its name to the elements that it gets.** -/
theorem fetchList_eq (r : ListRead) :
    fetchList S r = (do
      let some items ← listItems S r | return false
      bindArray r.name items
      return true) := by
  unfold listItems
  cases h : r.next? with
  | some next => exact fetchList_of_next h
  | none => exact fetchList_of_no_next S h

end Pass

/-! ## Statements that show lists -/

namespace Statement

/-- The name that a list read binds, unless it is empty. -/
def listName? : Statement → Option String
  | .readList r => if r.name.isEmpty then none else some r.name
  | _ => none

/-- Whether the statement is a group, a row, a list read or a breakpoint, with
formulas that only look. -/
def showsLists : Statement → Bool
  | .group g => g.value?.all (·.onlyLooks)
  | .row r => r.property?.all (·.onlyLooksAsLabel) && r.value?.all (·.onlyLooksAsLabel)
  | .readList r =>
    r.source.offset?.all (·.onlyLooks) && r.count?.all (·.onlyLooks) && r.next?.all (·.onlyLooks)
  | .breakpoint _ => true
  | _ => false

end Statement

namespace Pass

variable {S : Setting τ}

theorem drifting_values? (hS : S.IsPlain) {f? : Option Formula}
    (hf : f?.all (·.onlyLooks) = true) : ∀ f ∈ f?, drifting.Allows (value? S f) := by
  rintro f rfl
  exact drifting_value? hS hf

theorem drifting_readMemory (address : UInt64) (size : Nat) :
    drifting.Allows (readMemory S address size) :=
  fun s => fun _ => ⟨trivial, .refl s.machine.store, trivial⟩

theorem drifting_symbolAddress? (symbol? : Option String) :
    drifting.Allows (symbolAddress? S symbol?) := by
  cases symbol? with
  | none => exact allows_pure _
  | some name => exact fun s => fun _ => ⟨trivial, .refl s.machine.store, trivial⟩

/-- **Getting the elements of a list lets the store drift.** -/
theorem drifting_listItems (hS : S.IsPlain) {r : ListRead}
    (hr : (Statement.readList r).showsLists = true) : drifting.Allows (listItems S r) := by
  obtain ⟨⟨hoffset, hcount⟩, hnext⟩ : (r.source.offset?.all (·.onlyLooks) = true ∧
      r.count?.all (·.onlyLooks) = true) ∧ r.next?.all (·.onlyLooks) = true := by
    simpa [Statement.showsLists] using hr
  have hstart : drifting.Allows (startAddress S r.source) :=
    .startAddress drifting_readMemory (drifting_symbolAddress? _)
      (.offset? (drifting_values? hS hoffset))
  have hcounted : drifting.Allows (listCount S r) := .listCount (drifting_values? hS hcount)
  unfold listItems
  cases h : r.next? with
  | some next =>
    rw [h] at hnext
    refine hstart.bind fun start? => ?_
    cases start? with
    | none => exact allows_pure _
    | some start =>
      refine hcounted.bind fun count => (drifting_value? hS hnext).int?.bind fun offset? => ?_
      cases offset? with
      | none => exact allows_pure _
      | some offset =>
        exact (Allows.followLinks drifting_readMemory _ _ _ _ _ _).bind fun _ => allows_pure _
  | none =>
    refine hstart.bind fun start? => ?_
    cases start? with
    | none => exact allows_pure _
    | some start =>
      refine hcounted.bind fun count => (drifting_readMemory _ _).bind fun bytes? => ?_
      cases bytes? with
      | none => exact allows_pure _
      | some bytes => exact allows_pure _

end Pass

/-! ## Visits -/

namespace Visit

/-- The read of the visit has been done once and for all. -/
def IsIdle (v : Visit τ) : Prop := v.statement.isOnce = true ∧ v.IsDone

instance (v : Visit τ) : Decidable v.IsIdle :=
  inferInstanceAs (Decidable (_ ∧ _))

/-- The elements that a list read gets in a visit, if it succeeds. -/
def items? (v : Visit τ) : Option (Array Value) :=
  match v.statement with
  | .readList r =>
    if v.IsIdle then none
    else ((Pass.listItems v.setting r).run.run v.state).1.toOption.join
  | _ => none

/-- The name that a list read binds in a visit, with its elements. -/
def filled? (v : Visit τ) : Option (String × Array Value) := do
  let name ← v.statement.listName?
  let items ← v.items?
  return (name, items)

/-- The store when the visit begins. -/
def store (v : Visit τ) : Store := v.state.machine.store

/-- The store after the read of the visit. -/
def storeAfter (v : Visit τ) : Store := v.effect.2.machine.store

end Visit

namespace Pass

variable {S : Setting τ} {s t : PassState τ} {id : Nat} {r : ListRead}

/-- An attempt at a list read that is not done fills the array of its name with what
the read gets. -/
theorem store_attempt_readList
    (hfresh : ((Statement.readList r).isOnce && s.memo.done.contains id) = false)
    {result : Except Abort (Option (Array Value))}
    (hitems : (listItems S r).run.run s = (result, t)) :
    ((attempt S id (.readList r)).run.run s).2.machine.store =
      t.machine.store.fill (do
        let name ← (Statement.readList r).listName?
        let items ← result.toOption.join
        return (name, items)) := by
  have hfetch : fetchOf S (.readList r) = (do
      let some items ← listItems S r | return false
      bindArray r.name items
      return true) := fetchList_eq S r
  rcases result with e | _ | items
  · have hrun : (fetchOf S (.readList r)).run.run s = (.error e, t) := by
      rw [hfetch, run_bind_of_error hitems]
    rw [state_attempt_of_not_marked hfresh hrun nofun]
    cases (Statement.readList r).listName? <;> rfl
  · have hrun : (fetchOf S (.readList r)).run.run s = (.ok false, t) := by
      rw [hfetch, run_bind_of_ok hitems]
      rfl
    rw [state_attempt_of_not_marked hfresh hrun nofun]
    cases (Statement.readList r).listName? <;> rfl
  · have hrun : ∃ u, (fetchOf S (.readList r)).run.run s = (.ok true, u) ∧
        u.machine.store = t.machine.store.fill (do
          let name ← (Statement.readList r).listName?
          return (name, items)) := by
      rw [hfetch, run_bind_of_ok hitems, Statement.listName?]
      cases hname : r.name.isEmpty with
      | true =>
        have hunnamed : bindArray (τ := τ) r.name items = pure () := if_pos hname
        dsimp only
        rw [hunnamed]
        exact ⟨t, rfl, rfl⟩
      | false =>
        dsimp only
        rw [run_bind_of_ok (run_bindArray_named hname items)]
        exact ⟨_, rfl, rfl⟩
    obtain ⟨u, hrun, hstore⟩ := hrun
    rw [run_attempt_of_fetched hfresh hrun]
    refine Eq.trans ?_ hstore
    split <;> rfl

end Pass

namespace Visit

variable {v : Visit τ}

theorem items?_of_isIdle (h : v.IsIdle) : v.items? = none := by
  unfold items?
  split
  · exact if_pos h
  · rfl

theorem items?_of_readList {r : ListRead} (hr : v.statement = .readList r) (h : ¬v.IsIdle) :
    v.items? = ((Pass.listItems v.setting r).run.run v.state).1.toOption.join := by
  rw [items?, hr]
  exact if_neg h

/-- A list read that succeeds gets its elements. -/
theorem exists_items?_of_fetches (hidle : ¬v.IsIdle) (hfetches : v.Fetches) {name : String}
    (hname : v.statement.listName? = some name) : ∃ items, v.items? = some items := by
  cases hr : v.statement with
  | readList r =>
    rw [items?_of_readList hr hidle]
    rw [Fetches, hr, Pass.fetchOf, Pass.fetchList_eq] at hfetches
    rcases hrun : (Pass.listItems v.setting r).run.run v.state with ⟨e | _ | items, t⟩
    · rw [run_bind_of_error hrun] at hfetches
      cases hfetches
    · rw [run_bind_of_ok hrun] at hfetches
      cases hfetches
    · exact ⟨items, rfl⟩
  | group | row | breakpoint | var | «calc» | read | list =>
    rw [hr] at hname
    cases hname

theorem effect_of_isIdle (h : v.IsIdle) : v.effect = (.ok (), v.state) :=
  Pass.run_attempt_of_done h.1 (Std.ExtTreeSet.contains_iff_mem.mpr h.2)

/-- **A visit fills the array of a list read that succeeds**, and lets the store
drift. -/
theorem exists_drifts_storeAfter (hS : v.setting.IsPlain) (hv : v.statement.showsLists = true) :
    ∃ s, v.store.Drifts s ∧ v.storeAfter = s.fill v.filled? := by
  by_cases hidle : v.IsIdle
  · have hnone : v.filled? = none := by
      rw [filled?, items?_of_isIdle hidle]
      cases v.statement.listName? <;> rfl
    refine ⟨v.store, .refl _, ?_⟩
    rw [hnone, storeAfter, effect_of_isIdle hidle]
    rfl
  · cases hr : v.statement with
    | readList r =>
      rw [hr] at hv
      have hfresh : ((Statement.readList r).isOnce && v.state.memo.done.contains v.id) = false := by
        rw [← Bool.not_eq_true, Bool.and_eq_true, Std.ExtTreeSet.contains_iff_mem, ← hr]
        exact hidle
      obtain ⟨-, hdrifts, -⟩ := Pass.drifting_listItems hS hv v.state trivial
      refine ⟨_, hdrifts, ?_⟩
      rw [storeAfter, effect, hr, Pass.store_attempt_readList hfresh rfl, filled?, hr,
        items?_of_readList hr hidle]
      rfl
    | group | row | breakpoint =>
      refine ⟨v.store, .refl _, ?_⟩
      rw [storeAfter, effect, filled?, hr]
      rfl
    | var | «calc» | read | list =>
      rw [hr] at hv
      cases hv

end Visit
end TargetView
