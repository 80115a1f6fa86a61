import Mathlib.Algebra.Group.Int.Defs
import TargetView.Proofs.Cells

/-! # The laws of a store

Reads find what the cells of a store hold, and a write changes one cell.  At a
key of a container it does so exactly where the container takes the key; an
array then reaches up to the index, and the gap that it leaves behind its old
end is filled (`Store.KeyWritten`).  A name is written in the active object if
that has such a member, and in the globals otherwise (`Store.NameWritten`).  All
other cells hold what they held before.

The length of an array is no cell of its own: it follows from the elements.
-/
namespace TargetView
namespace Store

variable {s : Store} {scope : Option Ref} {name : String} {ref : Ref} {key key' : Key} {v : Value}
  {d : Cell}

/-! ## What a write does -/

/-- The second store is the first one with a value written at a key of a
container. -/
structure KeyWritten (s : Store) (ref : Ref) (key : Key) (v : Value) (t : Store) : Prop where
  /-- The value is read at the key, and at every key of the same cell. -/
  reads : ∀ key', s.cellAt? ref key' = s.cellAt? ref key → t.readKey ref key' = some v
  /-- An array reaches up to the index. -/
  length : ∀ items i, s.elements? ref = some items → key = .index i →
    (∃ after, t.elements? ref = some after ∧ after.size = max items.size (i.toInt.toNat + 1)) ∧
      t.readKey ref (.name "length") =
        some (.number (Binary64.ofNat (max items.size (i.toInt.toNat + 1))))
  /-- What is between the old end of an array and the index is undefined. -/
  gap : ∀ items i, s.elements? ref = some items → key = .index i →
    ∀ j : Int64, items.size ≤ j.toInt → j.toInt < i.toInt →
      t.readKey ref (.index j) = some .undefined
  /-- Every other cell holds what it held. -/
  others : ∀ d, s.cellAt? ref key ≠ some d → ¬s.Gap ref key d → t.at? d = s.at? d
  globals : t.globals = s.globals
  size : t.containers.size = s.containers.size
  /-- Objects stay objects and arrays stay arrays, so keys denote the same cells. -/
  cells : ∀ ref' key', t.cellAt? ref' key' = s.cellAt? ref' key'

/-- The second store is the first one with a value written at a name. -/
structure NameWritten (s : Store) (scope : Option Ref) (name : String) (v : Value) (t : Store) :
    Prop where
  reads : t.readSymbol scope name = some v
  /-- Every other name is read as before, whatever is active. -/
  others : ∀ scope' name', name' ≠ name → t.readSymbol scope' name' = s.readSymbol scope' name'
  /-- A member of the active object is written there, and the globals stay. -/
  member : (s.member? scope name).isSome = true →
    ∃ ref, scope = some ref ∧ s.writeKey ref (.name name) v = (true, t) ∧
      KeyWritten s ref (.name name) v t
  /-- Any other name is written in the globals, and the containers stay. -/
  global : s.member? scope name = none →
    t.get? name = some v ∧ t.containers = s.containers ∧
      ∀ name', name' ≠ name → t.get? name' = s.get? name'

/-! ## Writes at keys -/

/-- Objects take every key, and arrays the indices below the greatest length. -/
theorem acceptsKey_iff (s : Store) (ref : Ref) (key : Key) :
    s.acceptsKey ref key = true ↔
      (∃ fields, s.containers[ref]? = some (.object fields)) ∨
        ∃ items i, s.containers[ref]? = some (.array items) ∧ key = .index i ∧
          0 ≤ i.toInt ∧ i.toInt < 2 ^ 20 := by
  unfold acceptsKey
  cases hc : s.containers[ref]? with
  | none => simp
  | some c =>
    cases c with
    | object fields => simp [Container.accepts]
    | array items =>
      cases key with
      | name n => simp [Container.accepts]
      | index i =>
        have hlength : (Container.maxLength : Int) = 2 ^ 20 := rfl
        simp [Container.accepts, hlength]

theorem writeKey_of_acceptsKey (h : s.acceptsKey ref key = true) (v : Value) :
    s.writeKey ref key v = (true, s.modify ref key v) :=
  if_pos h

theorem writeKey_of_not_acceptsKey (h : s.acceptsKey ref key = false) (v : Value) :
    s.writeKey ref key v = (false, s) :=
  if_neg (Bool.eq_false_iff.mp h)

theorem slotOf?_set (c : Container) (key : Key) (v : Value) (key' : Key) :
    (c.set key v).slotOf? key' = c.slotOf? key' := by
  cases c with
  | object fields => rfl
  | array items =>
    cases key with
    | name n => rfl
    | index i => cases key' <;> rfl

theorem cellAt?_modify (s : Store) (ref : Ref) (key : Key) (v : Value) (ref' : Ref) (key' : Key) :
    (s.modify ref key v).cellAt? ref' key' = s.cellAt? ref' key' := by
  rw [cellAt?, cellAt?, modify, Array.getElem?_modify]
  split
  · cases s.containers[ref']? with
    | none => rfl
    | some c => exact congrArg (Option.map (Cell.slot ref')) (slotOf?_set c key v key')
  · rfl

theorem readKey_modify_self (haccepts : s.acceptsKey ref key = true)
    (h : s.cellAt? ref key' = s.cellAt? ref key) (v : Value) :
    (s.modify ref key v).readKey ref key' = some v := by
  obtain ⟨d, hd⟩ := cellAt?_of_acceptsKey haccepts
  rw [readKey_eq_at? ((cellAt?_modify s ref key v ref key').trans (h.trans hd))]
  exact at?_modify_self haccepts hd

/-- An array with an element written. -/
theorem getElem?_modify_array {items : Array Value} (h : s.elements? ref = some items)
    (i : Int64) (v : Value) :
    (s.modify ref (.index i) v).containers[ref]? =
      some (.array (Container.setItem items i.toInt.toNat v)) := by
  obtain ⟨c, hc, hitems⟩ := Option.bind_eq_some_iff.mp h
  rw [modify, Array.getElem?_modify, if_pos rfl, hc]
  cases c with
  | object fields => cases hitems
  | array before =>
    obtain rfl : before = items := Option.some.inj hitems
    rfl

theorem keyWritten_modify (haccepts : s.acceptsKey ref key = true) (v : Value) :
    KeyWritten s ref key v (s.modify ref key v) where
  reads key' h := readKey_modify_self haccepts h v
  length := by
    rintro items i hitems rfl
    have harray := getElem?_modify_array hitems i v
    have hsize := Container.size_setItem items i.toInt.toNat v
    refine ⟨⟨_, by rw [elements?, harray]; rfl, hsize⟩, ?_⟩
    rw [readKey, harray, ← hsize]
    rfl
  gap := by
    rintro items i hitems rfl j hj hji
    have hj0 : 0 ≤ j.toInt := Int.le_trans (Int.natCast_nonneg _) hj
    rw [readKey, getElem?_modify_array hitems i v, Option.bind_some, Container.get?, if_pos hj0,
      Container.getElem?_setItem, if_neg (by omega), if_pos (by omega)]
  others d hne hgap := by
    obtain ⟨d', hd'⟩ := cellAt?_of_acceptsKey haccepts
    exact at?_modify_of_cell_ne hd' (fun heq => hne (hd'.trans (congrArg some heq.symm))) hgap v
  globals := rfl
  size := size_modify ref key s v
  cells := cellAt?_modify s ref key v

/-- On an object keys with the same text denote the same cell, and no others do. -/
theorem cellAt?_eq_iff_of_object {fields : Fields} (h : s.containers[ref]? = some (.object fields))
    (key key' : Key) :
    s.cellAt? ref key = s.cellAt? ref key' ↔ key.display = key'.display := by
  simp [cellAt?, h, Container.slotOf?]

/-! ## Writes at names -/

theorem symbolExists_iff (s : Store) (scope : Option Ref) (name : String) :
    s.symbolExists scope name = true ↔ (s.readSymbol scope name).isSome = true := by
  rw [symbolExists_eq, readSymbol, Option.isSome_or]

/-- Names other than the one written have their own cells. -/
theorem member?_modify_of_ne (h : s.Shadows (some ref) name) (scope : Option Ref) {name' : String}
    (hne : name' ≠ name) (v : Value) :
    (s.modify ref (.name name) v).member? scope name' = s.member? scope name' := by
  cases scope with
  | none => rfl
  | some ref' =>
    rw [member?_eq_at?, member?_eq_at?]
    refine at?_modify_of_cell_ne h.cellAt?.1 ?_ ?_ v
    · rintro ⟨⟩
      exact hne rfl
    · rintro ⟨-, c, -, hgap⟩
      cases c <;> exact hgap

theorem readSymbol_writeSymbol_self (s : Store) (scope : Option Ref) (name : String) (v : Value) :
    (s.writeSymbol scope name v).readSymbol scope name = some v := by
  rw [readSymbol_eq_at?, cellOf_congr (shadows_writeSymbol s scope name v)]
  exact at?_writeSymbol_self s scope name v

theorem readSymbol_writeSymbol_of_ne (s : Store) (scope scope' : Option Ref) {name name' : String}
    (hne : name' ≠ name) (v : Value) :
    (s.writeSymbol scope name v).readSymbol scope' name' = s.readSymbol scope' name' := by
  by_cases hs : s.Shadows scope name
  · cases scope with
    | none => exact absurd hs (s.not_shadows_none name)
    | some ref =>
      rw [writeSymbol_of_shadows hs]
      exact congrArg (Option.or · (s.get? name')) (member?_modify_of_ne hs scope' hne v)
  · rw [writeSymbol_of_not_shadows hs, readSymbol, readSymbol, get?_set, if_neg (Ne.symm hne)]
    rfl

theorem nameWritten_writeSymbol (s : Store) (scope : Option Ref) (name : String) (v : Value) :
    NameWritten s scope name v (s.writeSymbol scope name v) where
  reads := readSymbol_writeSymbol_self s scope name v
  others scope' _ hne := readSymbol_writeSymbol_of_ne s scope scope' hne v
  member h := by
    cases scope with
    | none => exact absurd h (s.not_shadows_none name)
    | some ref =>
      have haccepts := (Shadows.cellAt? h).2
      rw [writeSymbol_of_shadows h]
      exact ⟨ref, rfl, writeKey_of_acceptsKey haccepts v, keyWritten_modify haccepts v⟩
  global h := by
    have hs : ¬s.Shadows scope name := Option.not_isSome_iff_eq_none.mpr h
    rw [writeSymbol_of_not_shadows hs]
    refine ⟨(s.get?_set name name v).trans (if_pos rfl), rfl, fun name' hne => ?_⟩
    rw [get?_set, if_neg (Ne.symm hne)]

/-! ## The laws -/

/-- **A store is lawful.**  A write at a key succeeds exactly on an object, and on
an array at an index from zero up to the greatest length; if it fails the store
is the same, and if it succeeds it is read back, with all other cells as they
were.  An index of an object is the name that its digits spell.  A name has a
value exactly if it reads as one; written, it is read back, other names read as
before, and the write is in the active object or in the globals. -/
theorem store_is_lawful (s : Store) :
    (∀ ref key v,
      ((s.writeKey ref key v).1 = true ↔
        (∃ fields, s.containers[ref]? = some (.object fields)) ∨
          ∃ items i, s.containers[ref]? = some (.array items) ∧ key = .index i ∧
            0 ≤ i.toInt ∧ i.toInt < 2 ^ 20) ∧
      ((s.writeKey ref key v).1 = false → (s.writeKey ref key v).2 = s) ∧
      ((s.writeKey ref key v).1 = true → KeyWritten s ref key v (s.writeKey ref key v).2)) ∧
    (∀ ref key d, s.cellAt? ref key = some d → s.readKey ref key = s.at? d) ∧
    (∀ ref fields, s.containers[ref]? = some (.object fields) →
      (∀ i, s.cellAt? ref (.index i) = s.cellAt? ref (.name (toString i.toInt))) ∧
        ∀ key key', s.cellAt? ref key = s.cellAt? ref key' ↔ key.display = key'.display) ∧
    (∀ scope name,
      s.symbolExists scope name = true ↔ (s.readSymbol scope name).isSome = true) ∧
    ∀ scope name v, NameWritten s scope name v (s.writeSymbol scope name v) := by
  refine ⟨fun ref key v => ?_, fun _ _ _ => readKey_eq_at?, ?_, s.symbolExists_iff,
    s.nameWritten_writeSymbol⟩
  · rw [← acceptsKey_iff]
    cases haccepts : s.acceptsKey ref key with
    | false =>
      rw [writeKey_of_not_acceptsKey haccepts]
      exact ⟨Iff.rfl, fun _ => rfl, nofun⟩
    | true =>
      rw [writeKey_of_acceptsKey haccepts]
      exact ⟨Iff.rfl, nofun, fun _ => keyWritten_modify haccepts v⟩
  · intro ref fields h
    exact ⟨fun i => (cellAt?_eq_iff_of_object h _ _).mpr rfl, cellAt?_eq_iff_of_object h⟩

/-- A write behind the end of an array with one element. -/
theorem store_is_lawful_behind_end :
    let s : Store := ⟨∅, #[.array #[.zero]]⟩
    (s.writeKey 0 (.index 3) (.text "a")).1 = true ∧
      (s.writeKey 0 (.index 3) (.text "a")).2.readKey 0 (.index 3) = some (.text "a") ∧
      (s.writeKey 0 (.index 3) (.text "a")).2.readKey 0 (.index 2) = some .undefined := by
  intro s
  obtain ⟨hkeys, -⟩ := store_is_lawful s
  obtain ⟨hdone, -, hwritten⟩ := hkeys 0 (.index 3) (.text "a")
  have h := hdone.mpr (.inr ⟨#[.zero], 3, rfl, rfl, by decide, by decide⟩)
  exact ⟨h, (hwritten h).reads _ rfl, (hwritten h).gap #[.zero] 3 rfl rfl 2 (by decide) (by decide)⟩

end Store
end TargetView
