import TargetView.Proofs.Apart
import TargetView.Proofs.Conduct

/-! # The containers of a store

A store is well formed (`Store.WellFormed`) if no value in it refers to a
container that it does not have.  Its operations keep it so, if the values that
they are handed are of the store (`Value.IsIn`).

A store extends another one if it has the containers of that, as the objects and
arrays that they were (`Store.Extends`); it has grown out of it (`Store.Grows`)
if moreover no global is lost and no array has grown past the greatest length.
Evaluations on a store let it grow and keep it well formed
(`Store.honours_contract`).
-/
namespace TargetView

namespace Container

variable {c : Container} {key : Key} {v w : Value}

/-- The container has the value as a member or as an element. -/
def Holds (c : Container) (v : Value) : Prop :=
  match c with
  | object fields => ∃ name : String, fields[name]? = some v
  | array items => v ∈ items

theorem not_holds_empty (v : Value) : ¬(object ∅).Holds v := by
  rintro ⟨name, hname⟩
  rw [Std.ExtTreeMap.getElem?_empty] at hname
  cases hname

theorem isArray_set (c : Container) (key : Key) (v : Value) :
    (c.set key v).isArray = c.isArray := by
  cases c with
  | object fields => rfl
  | array items => cases key <;> rfl

theorem size_setItem (items : Array Value) (i : Nat) (v : Value) :
    (setItem items i v).size = max items.size (i + 1) := by
  unfold setItem
  split
  · rw [Array.size_setIfInBounds]
    omega
  · rw [Array.size_push, Array.size_append, Array.size_replicate]
    omega

/-- Besides the value itself, writing it can bring in `undefined` only. -/
theorem mem_setItem {items : Array Value} {i : Nat} (h : w ∈ setItem items i v) :
    w = v ∨ w = .undefined ∨ w ∈ items := by
  unfold setItem at h
  split at h
  · rcases Array.mem_or_eq_of_mem_setIfInBounds h with h | h
    · exact .inr (.inr h)
    · exact .inl h
  · rcases Array.mem_push.mp h with h | h
    · rcases Array.mem_append.mp h with h | h
      · exact .inr (.inr h)
      · exact .inr (.inl (Array.mem_replicate.mp h).2)
    · exact .inl h

theorem holds_set (h : (c.set key v).Holds w) : w = v ∨ w = .undefined ∨ c.Holds w := by
  cases c with
  | object fields =>
    obtain ⟨name, hname⟩ := h
    rw [Std.ExtTreeMap.getElem?_insert] at hname
    split at hname
    · exact .inl (Option.some.inj hname).symm
    · exact .inr (.inr ⟨name, hname⟩)
  | array items =>
    cases key with
    | index i => exact mem_setItem h
    | name s => exact .inr (.inr h)

/-- What is found at a key is a value of the container, or a length. -/
theorem holds_of_get? (h : c.get? key = some v) : (∃ x, v = .number x) ∨ c.Holds v := by
  cases c with
  | object fields => exact .inr ⟨key.display, h⟩
  | array items =>
    cases key with
    | index i =>
      rw [get?] at h
      split at h
      · exact .inr (Array.mem_of_getElem? h)
      · cases h
    | name s =>
      rw [get?] at h
      split at h
      · exact .inl ⟨_, (Option.some.inj h).symm⟩
      · cases h

/-- An array that is too long has got so in another way than by writing at a
key that it accepts, or at a name. -/
theorem size_of_items?_set (hkey : c.accepts key = true ∨ ∃ s, key = .name s)
    {items : Array Value} (h : (c.set key v).items? = some items)
    (hlong : maxLength < items.size) :
    ∃ before, c.items? = some before ∧ before.size = items.size := by
  cases c with
  | object fields => cases h
  | array before =>
    refine ⟨before, rfl, ?_⟩
    cases key with
    | name s =>
      cases h
      rfl
    | index i =>
      obtain rfl : setItem before i.toInt.toNat v = items := Option.some.inj h
      have hi : 0 ≤ i.toInt ∧ i.toInt < maxLength := by
        rcases hkey with hkey | ⟨s, hs⟩
        · exact (Bool.and_eq_true_iff.mp hkey).imp of_decide_eq_true of_decide_eq_true
        · cases hs
      rw [size_setItem] at hlong ⊢
      omega

end Container

/-- Whatever container the value is, the store has it. -/
def Value.IsIn (v : Value) (s : Store) : Prop := ∀ ref, v = .container ref → ref < s.containers.size

namespace Store

/-- No value of the store refers to a container that is not there. -/
structure WellFormed (s : Store) : Prop where
  globals : ∀ {name : String} {v : Value}, s.get? name = some v → v.IsIn s
  containers : ∀ {ref : Ref} {c : Container} {v : Value},
    s.containers[ref]? = some c → c.Holds v → v.IsIn s

/-- The containers of the first store are there in the second one, as the
objects and arrays that they were. -/
structure Extends (s t : Store) : Prop where
  size : s.containers.size ≤ t.containers.size
  kind : ∀ ref < s.containers.size, t.isArray ref = s.isArray ref

/-- The first store has become the second one without losing anything.  No
array got longer than the greatest length meanwhile. -/
structure Grows (s t : Store) : Prop extends Extends s t where
  globals : ∀ name, (s.get? name).isSome = true → (t.get? name).isSome = true
  arrays : ∀ ref items, t.elements? ref = some items → Container.maxLength < items.size →
    ∃ before, s.elements? ref = some before ∧ before.size = items.size

variable {s t u : Store} {v : Value}

theorem Extends.refl (s : Store) : s.Extends s := ⟨Nat.le_refl _, fun _ _ => rfl⟩

theorem Extends.trans (hst : s.Extends t) (htu : t.Extends u) : s.Extends u where
  size := Nat.le_trans hst.size htu.size
  kind ref href := (htu.kind ref (Nat.lt_of_lt_of_le href hst.size)).trans (hst.kind ref href)

theorem Grows.refl (s : Store) : s.Grows s where
  toExtends := .refl s
  globals _ h := h
  arrays _ items h _ := ⟨items, h, rfl⟩

theorem Grows.trans (hst : s.Grows t) (htu : t.Grows u) : s.Grows u where
  toExtends := hst.toExtends.trans htu.toExtends
  globals name h := htu.globals name (hst.globals name h)
  arrays ref items h hlong := by
    obtain ⟨mid, hmid, hsize⟩ := htu.arrays ref items h hlong
    obtain ⟨before, hbefore, hsize'⟩ := hst.arrays ref mid hmid (by omega)
    exact ⟨before, hbefore, hsize'.trans hsize⟩

theorem isIn_of_le (hv : v.IsIn s) (h : s.containers.size ≤ t.containers.size) : v.IsIn t :=
  fun ref href => Nat.lt_of_lt_of_le (hv ref href) h

theorem isIn_scalar (x : Scalar) : (Value.scalar x).IsIn s := nofun

theorem isIn_undefined : Value.undefined.IsIn s := nofun

theorem isIn_container {ref : Ref} (h : ref < s.containers.size) : (Value.container ref).IsIn s := by
  rintro _ ⟨⟩
  exact h

theorem wellFormed_empty : WellFormed {} where
  globals {name v} h := by
    rw [get?, Std.ExtTreeMap.getElem?_empty] at h
    cases h
  containers h := by
    rw [Array.getElem?_empty] at h
    cases h

/-! ## Globals -/

theorem WellFormed.set (hs : s.WellFormed) (name : String) (hv : v.IsIn s) :
    (s.set name v).WellFormed where
  globals {name' w} h := by
    rw [get?_set] at h
    split at h
    · obtain rfl := Option.some.inj h
      exact hv
    · exact hs.globals h
  containers h hw := hs.containers h hw

theorem grows_set (s : Store) (name : String) (v : Value) : s.Grows (s.set name v) where
  size := Nat.le_refl _
  kind _ _ := rfl
  globals name' h := by
    rw [get?_set]
    split
    · rfl
    · exact h
  arrays _ items h _ := ⟨items, h, rfl⟩

/-! ## Containers -/

theorem containers_push (s : Store) (c : Container) :
    (s.push c).2.containers = s.containers.push c := rfl

theorem size_push (s : Store) (c : Container) :
    (s.push c).2.containers.size = s.containers.size + 1 := by
  rw [containers_push, Array.size_push]

theorem WellFormed.push (hs : s.WellFormed) {c : Container} (hc : ∀ v, c.Holds v → v.IsIn s) :
    (s.push c).2.WellFormed := by
  have hle : s.containers.size ≤ (s.push c).2.containers.size := by
    rw [size_push]
    omega
  constructor
  · intro name v h
    exact isIn_of_le (hs.globals h) hle
  · intro ref c' v h hv
    rw [containers_push, Array.getElem?_push] at h
    split at h
    · obtain rfl := Option.some.inj h
      exact isIn_of_le (hc v hv) hle
    · exact isIn_of_le (hs.containers h hv) hle

theorem extends_push (s : Store) (c : Container) : s.Extends (s.push c).2 where
  size := by
    rw [size_push]
    omega
  kind ref href := by
    rw [isArray, containers_push, Array.getElem?_push, if_neg (Nat.ne_of_lt href), isArray]

/-- An empty container adds no array that is too long. -/
theorem grows_push (s : Store) {c : Container} (hc : ∀ items ∈ c.items?, items.size = 0) :
    s.Grows (s.push c).2 where
  toExtends := extends_push s c
  globals _ h := h
  arrays ref items h hlong := by
    rw [elements?, containers_push, Array.getElem?_push] at h
    split at h
    · have hsize := hc items h
      omega
    · exact ⟨items, h, rfl⟩

/-- A write in a container, which need not be there. -/
theorem getElem?_modify {ref ref' : Ref} {f : Container → Container} {c : Container}
    (h : (s.containers.modify ref f)[ref']? = some c) :
    ∃ before, s.containers[ref']? = some before ∧ (c = before ∨ ref = ref' ∧ c = f before) := by
  rw [Array.getElem?_modify] at h
  split at h
  · next href =>
    obtain ⟨before, hbefore, rfl⟩ := Option.map_eq_some_iff.mp h
    exact ⟨before, hbefore, .inr ⟨href, rfl⟩⟩
  · exact ⟨c, h, .inl rfl⟩

section Modify

variable (ref : Ref) (key : Key)

/-- The store after a write at a key of a container. -/
def modify (s : Store) (ref : Ref) (key : Key) (v : Value) : Store :=
  ⟨s.globals, s.containers.modify ref (·.set key v)⟩

theorem size_modify (s : Store) (v : Value) :
    (s.modify ref key v).containers.size = s.containers.size :=
  Array.size_modify

theorem WellFormed.modify (hs : s.WellFormed) (hv : v.IsIn s) :
    (s.modify ref key v).WellFormed := by
  have hle : s.containers.size ≤ (s.modify ref key v).containers.size :=
    Nat.le_of_eq (size_modify ref key s v).symm
  constructor
  · intro name w h
    exact isIn_of_le (hs.globals h) hle
  · intro ref' c w h hw
    obtain ⟨before, hbefore, rfl | ⟨rfl, rfl⟩⟩ := getElem?_modify h
    · exact isIn_of_le (hs.containers hbefore hw) hle
    · rcases Container.holds_set hw with rfl | rfl | hw
      · exact isIn_of_le hv hle
      · exact isIn_undefined
      · exact isIn_of_le (hs.containers hbefore hw) hle

theorem isArray_modify (s : Store) (v : Value) (ref' : Ref) :
    (s.modify ref key v).isArray ref' = s.isArray ref' := by
  unfold isArray Store.modify
  dsimp only
  rw [Array.getElem?_modify]
  split
  · rw [Option.any_map]
    simp only [Container.isArray_set]
  · rfl

theorem grows_modify (s : Store) (v : Value)
    (hkey : ∀ c, s.containers[ref]? = some c → c.accepts key = true ∨ ∃ name, key = .name name) :
    s.Grows (s.modify ref key v) where
  size := Nat.le_of_eq (size_modify ref key s v).symm
  kind ref' _ := isArray_modify ref key s v ref'
  globals _ h := h
  arrays ref' items h hlong := by
    obtain ⟨c, hc, hitems⟩ := Option.bind_eq_some_iff.mp h
    obtain ⟨before, hbefore, rfl | ⟨rfl, rfl⟩⟩ := getElem?_modify hc
    · exact ⟨items, Option.bind_eq_some_iff.mpr ⟨c, hbefore, hitems⟩, rfl⟩
    · obtain ⟨old, hold, hsize⟩ := Container.size_of_items?_set (hkey before hbefore) hitems hlong
      exact ⟨old, Option.bind_eq_some_iff.mpr ⟨before, hbefore, hold⟩, hsize⟩

end Modify

/-! ## Reads and writes of a host -/

theorem isIn_member? (hs : s.WellFormed) {scope : Option Ref} {name : String}
    (h : s.member? scope name = some v) : v.IsIn s := by
  obtain ⟨fields, hfields, hv⟩ := Option.bind_eq_some_iff.mp h
  obtain ⟨c, hc, hcf⟩ := Option.bind_eq_some_iff.mp hfields
  obtain ⟨ref, -, href⟩ := Option.bind_eq_some_iff.mp hc
  cases c with
  | object fields' =>
    obtain rfl : fields' = fields := Option.some.inj hcf
    exact hs.containers href ⟨name, hv⟩
  | array items => cases hcf

theorem isIn_readSymbol (hs : s.WellFormed) {scope : Option Ref} {name : String}
    (h : s.readSymbol scope name = some v) : v.IsIn s := by
  rcases Option.or_eq_some_iff.mp h with h | ⟨-, h⟩
  · exact isIn_member? hs h
  · exact hs.globals h

theorem isIn_readKey (hs : s.WellFormed) {ref : Ref} {key : Key}
    (h : s.readKey ref key = some v) : v.IsIn s := by
  obtain ⟨c, hc, hv⟩ := Option.bind_eq_some_iff.mp h
  rcases Container.holds_of_get? hv with ⟨x, rfl⟩ | hv
  · exact isIn_scalar _
  · exact hs.containers hc hv

/-- Writing a name is a write in the active object, or in the globals. -/
theorem writeSymbol_eq (s : Store) (scope : Option Ref) (name : String) (v : Value) :
    (∃ ref, s.writeSymbol scope name v = s.modify ref (.name name) v) ∨
      s.writeSymbol scope name v = s.set name v := by
  by_cases hs : s.Shadows scope name
  · cases scope with
    | none => exact absurd hs (s.not_shadows_none name)
    | some ref => exact .inl ⟨ref, writeSymbol_of_shadows hs v⟩
  · exact .inr (writeSymbol_of_not_shadows hs v)

theorem WellFormed.writeSymbol (hs : s.WellFormed) (scope : Option Ref) (name : String)
    (hv : v.IsIn s) : (s.writeSymbol scope name v).WellFormed := by
  rcases s.writeSymbol_eq scope name v with ⟨ref, h⟩ | h
  · rw [h]
    exact hs.modify ref _ hv
  · rw [h]
    exact hs.set name hv

theorem grows_writeSymbol (s : Store) (scope : Option Ref) (name : String) (v : Value) :
    s.Grows (s.writeSymbol scope name v) := by
  rcases s.writeSymbol_eq scope name v with ⟨ref, h⟩ | h
  · rw [h]
    exact grows_modify ref _ s v fun _ _ => .inr ⟨name, rfl⟩
  · rw [h]
    exact grows_set s name v

/-- A write at a key happens where the key is accepted, or not at all. -/
theorem writeKey_eq (s : Store) (ref : Ref) (key : Key) (v : Value) :
    (s.writeKey ref key v).2 =
      if s.acceptsKey ref key = true then s.modify ref key v else s := by
  unfold writeKey
  split
  · rfl
  · rfl

theorem WellFormed.writeKey (hs : s.WellFormed) (ref : Ref) (key : Key) (hv : v.IsIn s) :
    (s.writeKey ref key v).2.WellFormed := by
  rw [writeKey_eq]
  split
  · exact hs.modify ref key hv
  · exact hs

theorem grows_writeKey (s : Store) (ref : Ref) (key : Key) (v : Value) :
    s.Grows (s.writeKey ref key v).2 := by
  rw [writeKey_eq]
  split
  · next haccepts =>
    refine grows_modify ref key s v fun c hc => .inl ?_
    rw [acceptsKey, hc] at haccepts
    exact haccepts
  · exact .refl s

/-! ## Evaluations -/

/-- What evaluations on a store keep. -/
def contract : HostContract Store where
  Holds := WellFormed
  Becomes := Grows
  Excuses _ _ := True
  refl := .refl
  trans := .trans
  Knows s ref := ref < s.containers.size
  knows_of_becomes h href := Nat.lt_of_lt_of_le href h.size
  excuses_plain _ := trivial

theorem honours_contract : Host.ofStore.Honours contract where
  symbolExists s _ _ hs := ⟨hs, .refl s, trivial⟩
  readSymbol s _ _ hs := ⟨hs, .refl s, fun _ hv => isIn_readSymbol hs hv⟩
  writeSymbol s scope name v hv hs :=
    ⟨hs.writeSymbol scope name hv, grows_writeSymbol s scope name v, trivial⟩
  newObject s hs := by
    refine ⟨hs.push fun v hv => absurd hv (Container.not_holds_empty v), grows_push s nofun, ?_⟩
    exact Nat.lt_of_lt_of_eq (Nat.lt_succ_self _) (size_push s _).symm
  newArray s hs := by
    refine ⟨hs.push fun v hv => absurd hv (Array.not_mem_empty v), grows_push s ?_, ?_⟩
    · rintro _ ⟨⟩
      rfl
    · exact Nat.lt_of_lt_of_eq (Nat.lt_succ_self _) (size_push s _).symm
  readKey s _ _ hs := ⟨hs, .refl s, fun _ hv => isIn_readKey hs hv⟩
  writeKey s ref key v hv hs := ⟨hs.writeKey ref key hv, grows_writeKey s ref key v, trivial⟩
  resolvePath s _ hs := ⟨hs, .refl s, nofun⟩
  bytesUsed s hs := ⟨hs, .refl s, fun _ => trivial⟩
  dispatch s _ _ _ hs := ⟨hs, .refl s, nofun⟩
  memoryInUse s _ _ hs := ⟨hs, .refl s, nofun⟩
  answerFor s _ _ hs := ⟨hs, .refl s, nofun⟩
  hasRegisters s hs := ⟨hs, .refl s, fun _ => trivial⟩
  registerValue s _ hs := ⟨hs, .refl s, nofun⟩
  formatValue s _ _ _ hs := ⟨hs, .refl s, trivial⟩

end Store
end TargetView
