import TargetView.Proofs.Heap

/-! # The cells of a store

A cell is where a store keeps one value (`Cell`): a global, a member of an
object or an element of an array.  A name under an active container and a key of
a container denote a cell each, if they denote one at all (`Store.cellOf`,
`Store.cellAt?`); reads find what the cell holds, and writes change what it
holds.

`Store.KeptBut d?` says of two stores that the cells of the first one hold in the
second one what they held, with the exception of at most one.  New containers
change nothing, and a write no more than its cell.
-/
namespace TargetView

/-- Where a container keeps a value. -/
inductive Slot where
  | member (name : String)
  | element (i : Nat)
  deriving DecidableEq

/-- Where a store keeps a value. -/
inductive Cell where
  | global (name : String)
  | slot (ref : Ref) (slot : Slot)
  deriving DecidableEq

/-! ## Slots of containers -/

namespace Container

/-- What a container keeps in a slot. -/
def at? : Container → Slot → Option Value
  | object fields, .member name => fields[name]?
  | array items, .element i => items[i]?
  | _, _ => none

/-- The slot that a key denotes.  Neither the length of an array nor a negative
index has one. -/
def slotOf? : Container → Key → Option Slot
  | object _, key => some (.member key.display)
  | array _, .index i => if 0 ≤ i.toInt then some (.element i.toInt.toNat) else none
  | array _, .name _ => none

variable {c : Container} {key : Key} {slot slot' : Slot} {v w : Value}

theorem get?_of_slotOf? (h : c.slotOf? key = some slot) : c.get? key = c.at? slot := by
  cases c with
  | object fields =>
    obtain rfl := Option.some.inj h
    rfl
  | array items =>
    cases key with
    | name s => cases h
    | index i =>
      by_cases hi : 0 ≤ i.toInt
      · rw [slotOf?, if_pos hi] at h
        obtain rfl := Option.some.inj h
        rw [get?, if_pos hi, at?]
      · rw [slotOf?, if_neg hi] at h
        cases h

/-- A key without a slot leads to no container. -/
theorem get?_ne_container (h : c.slotOf? key = none) (ref : Ref) :
    c.get? key ≠ some (.container ref) := by
  intro hget
  cases c with
  | object fields => cases h
  | array items =>
    cases key with
    | name s =>
      rw [get?] at hget
      split at hget
      · cases hget
      · cases hget
    | index i =>
      by_cases hi : 0 ≤ i.toInt
      · rw [slotOf?, if_pos hi] at h
        cases h
      · rw [get?, if_neg hi] at hget
        cases hget

theorem exists_slotOf? (h : c.accepts key = true) : ∃ slot, c.slotOf? key = some slot := by
  cases c with
  | object fields => exact ⟨_, rfl⟩
  | array items =>
    cases key with
    | name s => cases h
    | index i =>
      have hi : 0 ≤ i.toInt := of_decide_eq_true (Bool.and_eq_true_iff.mp h).1
      exact ⟨_, if_pos hi⟩

/-- The elements after a write: the value at its position, `undefined` in the gap
before it, and elsewhere what was there. -/
theorem getElem?_setItem (items : Array Value) (i j : Nat) (v : Value) :
    (setItem items i v)[j]? =
      if j = i then some v
      else if items.size ≤ j ∧ j < i then some .undefined
      else items[j]? := by
  unfold setItem
  split
  · next h =>
    rw [Array.getElem?_setIfInBounds]
    by_cases hij : i = j
    · rw [if_pos hij, if_pos h, if_pos hij.symm]
    · rw [if_neg hij, if_neg (Ne.symm hij), if_neg (by omega)]
  · next h =>
    have hsize : (items ++ Array.replicate (i - items.size) Value.undefined).size = i := by
      rw [Array.size_append, Array.size_replicate]
      omega
    rw [Array.getElem?_push, hsize]
    by_cases hij : j = i
    · rw [if_pos hij, if_pos hij]
    · rw [if_neg hij, if_neg hij]
      -- an old element, one of the gap, or none
      rcases Nat.lt_or_ge j items.size with hj | hj
      · rw [Array.getElem?_append_left hj, if_neg (by omega)]
      · rw [Array.getElem?_append_right hj, Array.getElem?_replicate]
        by_cases hlt : j < i
        · rw [if_pos (by omega), if_pos ⟨hj, hlt⟩]
        · rw [if_neg (by omega), if_neg (by omega), Array.getElem?_eq_none hj]

/-- The slot lies between the end of an array and an index. -/
def Gap : Container → Key → Slot → Prop
  | array items, .index i, .element j => items.size ≤ j ∧ j < i.toInt.toNat
  | _, _, _ => False

theorem not_gap_of_at? (h : c.at? slot = some w) : ¬c.Gap key slot := by
  intro hgap
  cases c with
  | object fields => exact hgap
  | array items =>
    cases key with
    | name s => exact hgap
    | index i =>
      cases slot with
      | member name => exact hgap
      | element j => exact Nat.not_lt_of_le hgap.1 (Array.getElem?_eq_some_iff.mp h).1

/-- What is written at a key stands in its slot. -/
theorem at?_set_self (haccepts : c.accepts key = true) (h : c.slotOf? key = some slot) :
    (c.set key v).at? slot = some v := by
  cases c with
  | object fields =>
    obtain rfl := Option.some.inj h
    exact Std.ExtTreeMap.getElem?_insert_self
  | array items =>
    cases key with
    | name s => cases h
    | index i =>
      have hi : 0 ≤ i.toInt := of_decide_eq_true (Bool.and_eq_true_iff.mp haccepts).1
      rw [slotOf?, if_pos hi] at h
      obtain rfl := Option.some.inj h
      exact (getElem?_setItem items _ _ v).trans (if_pos rfl)

/-- The other slots stay as they are. -/
theorem at?_set_of_ne (h : c.slotOf? key = some slot) (hne : slot' ≠ slot)
    (hgap : ¬c.Gap key slot') : (c.set key v).at? slot' = c.at? slot' := by
  cases c with
  | object fields =>
    obtain rfl := Option.some.inj h
    cases slot' with
    | element i => rfl
    | member name =>
      have hname : key.display ≠ name := fun heq => hne (congrArg Slot.member heq.symm)
      rw [set, at?, Std.ExtTreeMap.getElem?_insert,
        if_neg (by rwa [Std.LawfulEqCmp.compare_eq_iff_eq])]
      rfl
  | array items =>
    cases key with
    | name s => cases h
    | index i =>
      rw [slotOf?] at h
      split at h
      · obtain rfl := Option.some.inj h
        cases slot' with
        | member name => rfl
        | element j =>
          have hj : j ≠ i.toInt.toNat := fun heq => hne (congrArg Slot.element heq)
          exact (getElem?_setItem items _ j v).trans ((if_neg hj).trans (if_neg hgap))
      · cases h

end Container

/-! ## Cells of stores -/

namespace Store

/-- What a store keeps in a cell. -/
def at? (s : Store) : Cell → Option Value
  | .global name => s.get? name
  | .slot ref slot => s.containers[ref]?.bind (·.at? slot)

/-- The cell of a name: the member of the active object if it has one of that
name, and otherwise the global. -/
def cellOf (s : Store) (scope : Option Ref) (name : String) : Cell :=
  match scope with
  | some ref => if (s.member? scope name).isSome then .slot ref (.member name) else .global name
  | none => .global name

/-- The cell at a key of a container. -/
def cellAt? (s : Store) (ref : Ref) (key : Key) : Option Cell :=
  (s.containers[ref]?.bind (·.slotOf? key)).map (.slot ref)

variable {s t u : Store} {scope : Option Ref} {name : String} {ref : Ref} {key : Key} {v w : Value}
  {d : Cell} {d? : Option Cell} {more : List Container}

theorem at?_slot (s : Store) (ref : Ref) (slot : Slot) :
    s.at? (.slot ref slot) = s.containers[ref]?.bind (·.at? slot) := rfl

theorem member?_eq_at? (s : Store) (ref : Ref) (name : String) :
    s.member? (some ref) name = s.at? (.slot ref (.member name)) := by
  rw [member?, at?_slot, Option.bind_some]
  cases s.containers[ref]? with
  | none => rfl
  | some c => cases c <;> rfl

theorem cellOf_of_shadows (h : s.Shadows (some ref) name) :
    s.cellOf (some ref) name = .slot ref (.member name) :=
  if_pos h

theorem cellOf_of_not_shadows (h : ¬s.Shadows scope name) :
    s.cellOf scope name = .global name := by
  cases scope with
  | none => rfl
  | some ref => exact if_neg h

theorem cellOf_congr (h : s.Shadows scope name ↔ t.Shadows scope name) :
    s.cellOf scope name = t.cellOf scope name := by
  by_cases hs : s.Shadows scope name
  · cases scope with
    | none => rfl
    | some ref => rw [cellOf_of_shadows hs, cellOf_of_shadows (h.mp hs)]
  · rw [cellOf_of_not_shadows hs, cellOf_of_not_shadows (mt h.mpr hs)]

theorem readSymbol_eq_at? (s : Store) (scope : Option Ref) (name : String) :
    s.readSymbol scope name = s.at? (s.cellOf scope name) := by
  by_cases hs : s.Shadows scope name
  · cases scope with
    | none => exact absurd hs (s.not_shadows_none name)
    | some ref =>
      obtain ⟨v, hv⟩ := Option.isSome_iff_exists.mp hs
      rw [cellOf_of_shadows hs, ← member?_eq_at?, readSymbol, hv, Option.some_or]
  · rw [cellOf_of_not_shadows hs, readSymbol, Option.not_isSome_iff_eq_none.mp hs, Option.none_or]
    rfl

theorem readKey_eq_at? (h : s.cellAt? ref key = some d) : s.readKey ref key = s.at? d := by
  obtain ⟨slot, hslot, rfl⟩ := Option.map_eq_some_iff.mp h
  obtain ⟨c, hc, hslot⟩ := Option.bind_eq_some_iff.mp hslot
  rw [readKey, at?, hc, Option.bind_some, Option.bind_some, Container.get?_of_slotOf? hslot]

/-- A key leads to a container only if there is a cell that holds it. -/
theorem at?_of_readKey (h : s.readKey ref key = some (.container ref')) :
    ∃ d, s.cellAt? ref key = some d ∧ s.at? d = some (.container ref') := by
  obtain ⟨c, hc, hget⟩ := Option.bind_eq_some_iff.mp h
  cases hslot : c.slotOf? key with
  | none => exact absurd hget (c.get?_ne_container hslot ref')
  | some slot =>
    have hd : s.cellAt? ref key = some (.slot ref slot) := by
      rw [cellAt?, hc, Option.bind_some, hslot, Option.map_some]
    exact ⟨_, hd, (readKey_eq_at? hd).symm.trans h⟩

/-! ## What stays -/

/-- Each cell of the first store but at most one holds the same value in the
second one. -/
def KeptBut (d? : Option Cell) (s t : Store) : Prop :=
  ∀ d v, s.at? d = some v → d? ≠ some d → t.at? d = some v

theorem KeptBut.refl (s : Store) : KeptBut d? s s := fun _ _ h _ => h

theorem KeptBut.trans (hst : KeptBut d? s t) (htu : KeptBut d? t u) : KeptBut d? s u :=
  fun d v h hd => htu d v (hst d v h hd) hd

theorem KeptBut.of_none (h : KeptBut none s t) : KeptBut d? s t :=
  fun d v hv _ => h d v hv nofun

/-- A cell that holds something is a global or a slot of a container that is
there. -/
theorem lt_size_of_at? {slot : Slot} (h : s.at? (.slot ref slot) = some v) :
    ref < s.containers.size := by
  obtain ⟨c, hc, -⟩ := Option.bind_eq_some_iff.mp h
  exact (Array.getElem?_eq_some_iff.mp hc).1

/-! ## Stores with more containers -/

/-- The store with more containers. -/
def append (s : Store) (more : List Container) : Store :=
  ⟨s.globals, s.containers ++ more.toArray⟩

theorem size_append (s : Store) (more : List Container) :
    (s.append more).containers.size = s.containers.size + more.length :=
  Array.size_append.trans (congrArg _ List.size_toArray)

theorem append_append (s : Store) (more rest : List Container) :
    (s.append more).append rest = s.append (more ++ rest) := by
  simp only [append, Array.append_assoc, List.append_toArray]

theorem append_nil (s : Store) : s.append [] = s := by
  simp only [append, Array.append_empty]

theorem getElem?_append_add (s : Store) (more : List Container) (i : Nat) :
    (s.append more).containers[s.containers.size + i]? = more[i]? := by
  rw [append, Array.getElem?_append_right (Nat.le_add_right _ _), Nat.add_sub_cancel_left,
    List.getElem?_toArray]

theorem getElem?_append_size (s : Store) (c : Container) (more : List Container) :
    (s.append (c :: more)).containers[s.containers.size]? = some c :=
  s.getElem?_append_add (c :: more) 0

theorem getElem?_append_of_lt (more : List Container) (h : ref < s.containers.size) :
    (s.append more).containers[ref]? = s.containers[ref]? :=
  Array.getElem?_append_left h

theorem keptBut_append (s : Store) (more : List Container) : KeptBut none s (s.append more) := by
  intro d v h _
  cases d with
  | global name => exact h
  | slot ref slot =>
    rw [at?_slot, getElem?_append_of_lt more (lt_size_of_at? h)]
    exact h

/-- A write in the first of the new containers. -/
theorem modify_append (s : Store) (c : Container) (more : List Container) (key : Key) (v : Value) :
    (s.append (c :: more)).modify s.containers.size key v = s.append (c.set key v :: more) := by
  refine congrArg (Store.mk s.globals) (Array.ext_getElem? fun i => ?_)
  change ((s.append (c :: more)).containers.modify _ _)[i]? = (s.append _).containers[i]?
  rw [Array.getElem?_modify]
  -- an old container, the first of the new ones, or one behind it
  rcases Nat.lt_or_ge i s.containers.size with hlt | hge
  · rw [if_neg (Nat.ne_of_gt hlt), getElem?_append_of_lt _ hlt, getElem?_append_of_lt _ hlt]
  · obtain ⟨j, rfl⟩ := Nat.exists_eq_add_of_le hge
    rw [getElem?_append_add, getElem?_append_add]
    cases j with
    | zero =>
      rw [if_pos (Nat.add_zero _).symm]
      rfl
    | succ j =>
      rw [if_neg (by omega)]
      rfl

/-- A write in one of the old containers. -/
theorem modify_append_of_lt (more : List Container) (h : ref < s.containers.size) (key : Key)
    (v : Value) : (s.append more).modify ref key v = (s.modify ref key v).append more := by
  refine congrArg (Store.mk s.globals) (Array.ext_getElem? fun i => ?_)
  change ((s.append more).containers.modify _ _)[i]? =
    ((s.modify ref key v).append more).containers[i]?
  have hsize := size_modify ref key s v
  rw [Array.getElem?_modify]
  rcases Nat.lt_or_ge i s.containers.size with hlt | hge
  · rw [getElem?_append_of_lt _ hlt, getElem?_append_of_lt _ (hsize.symm ▸ hlt), modify,
      Array.getElem?_modify]
  · rw [if_neg (Nat.ne_of_lt (Nat.lt_of_lt_of_le h hge))]
    obtain ⟨j, rfl⟩ := Nat.exists_eq_add_of_le hge
    rw [getElem?_append_add, ← hsize, getElem?_append_add]

/-- The new containers have no say if the active one is none of those that have
a member of the name. -/
theorem shadows_append (h : ∀ i c w, scope = some (s.containers.size + i) → more[i]? = some c →
    c.at? (.member name) ≠ some w) : (s.append more).Shadows scope name ↔ s.Shadows scope name := by
  cases scope with
  | none => exact iff_of_false (not_shadows_none _ name) (s.not_shadows_none name)
  | some ref =>
    unfold Shadows
    rw [member?_eq_at?, member?_eq_at?, at?_slot, at?_slot]
    rcases Nat.lt_or_ge ref s.containers.size with hlt | hge
    · rw [getElem?_append_of_lt more hlt]
    · obtain ⟨i, rfl⟩ := Nat.exists_eq_add_of_le hge
      rw [getElem?_append_add, Array.getElem?_eq_none hge]
      refine iff_of_false (fun hsome => ?_) nofun
      obtain ⟨w, hw⟩ := Option.isSome_iff_exists.mp hsome
      obtain ⟨c, hc, hw⟩ := Option.bind_eq_some_iff.mp hw
      exact h i c w rfl hc hw

theorem writeSymbol_append (h : ∀ c ∈ more, c.at? (.member name) = none) (v : Value) :
    (s.append more).writeSymbol scope name v = (s.writeSymbol scope name v).append more := by
  have hshadows : (s.append more).Shadows scope name ↔ s.Shadows scope name := by
    refine shadows_append fun i c w _ hc => ?_
    rw [h c (List.mem_of_getElem? hc)]
    exact nofun
  by_cases hs : s.Shadows scope name
  · cases scope with
    | none => exact absurd hs (s.not_shadows_none name)
    | some ref =>
      rw [writeSymbol_of_shadows hs, writeSymbol_of_shadows (hshadows.mpr hs)]
      obtain ⟨w, hw⟩ := Option.isSome_iff_exists.mp hs
      rw [member?_eq_at?] at hw
      exact modify_append_of_lt more (lt_size_of_at? hw) _ v
  · rw [writeSymbol_of_not_shadows hs, writeSymbol_of_not_shadows (mt hshadows.mp hs)]
    rfl

/-! ## Writes -/

theorem at?_set_self (s : Store) (name : String) (v : Value) :
    (s.set name v).at? (.global name) = some v :=
  (s.get?_set name name v).trans (if_pos rfl)

theorem keptBut_set (s : Store) (name : String) (v : Value) :
    KeptBut (some (.global name)) s (s.set name v) := by
  intro d w h hd
  cases d with
  | global other =>
    have hne : name ≠ other := fun heq => hd (heq ▸ rfl)
    exact (s.get?_set name other v).trans ((if_neg hne).trans h)
  | slot ref slot => exact h

theorem cellAt?_of_acceptsKey (h : s.acceptsKey ref key = true) :
    ∃ d, s.cellAt? ref key = some d := by
  unfold acceptsKey at h
  cases hc : s.containers[ref]? with
  | none =>
    rw [hc] at h
    cases h
  | some c =>
    rw [hc] at h
    obtain ⟨slot, hslot⟩ := Container.exists_slotOf? h
    exact ⟨.slot ref slot, by rw [cellAt?, hc, Option.bind_some, hslot, Option.map_some]⟩

theorem at?_modify_self (haccepts : s.acceptsKey ref key = true)
    (h : s.cellAt? ref key = some d) : (s.modify ref key v).at? d = some v := by
  obtain ⟨slot, hslot, rfl⟩ := Option.map_eq_some_iff.mp h
  obtain ⟨c, hc, hslot⟩ := Option.bind_eq_some_iff.mp hslot
  rw [acceptsKey, hc] at haccepts
  rw [at?_slot, modify, Array.getElem?_modify, if_pos rfl, hc]
  exact Container.at?_set_self haccepts hslot

/-- The cell lies between the end of an array and an index. -/
def Gap (s : Store) (ref : Ref) (key : Key) : Cell → Prop
  | .global _ => False
  | .slot ref' slot => ref' = ref ∧ ∃ c, s.containers[ref]? = some c ∧ c.Gap key slot

theorem not_gap_of_at? (h : s.at? d = some v) : ¬s.Gap ref key d := by
  cases d with
  | global name => exact id
  | slot ref' slot =>
    rintro ⟨rfl, c, hc, hgap⟩
    rw [at?_slot, hc] at h
    exact Container.not_gap_of_at? h hgap

/-- A write in another container. -/
theorem at?_modify_of_ne (h : ∀ slot, d ≠ .slot ref slot) (key : Key) (v : Value) :
    (s.modify ref key v).at? d = s.at? d := by
  cases d with
  | global name => rfl
  | slot ref' slot =>
    have hne : ref ≠ ref' := fun heq => h slot (heq ▸ rfl)
    rw [at?_slot, modify, Array.getElem?_modify, if_neg hne, at?_slot]

/-- The other cells hold what they held. -/
theorem at?_modify_of_cell_ne {d' : Cell} (h : s.cellAt? ref key = some d) (hne : d' ≠ d)
    (hgap : ¬s.Gap ref key d') (v : Value) : (s.modify ref key v).at? d' = s.at? d' := by
  obtain ⟨slot, hslot, rfl⟩ := Option.map_eq_some_iff.mp h
  obtain ⟨c, hc, hslot⟩ := Option.bind_eq_some_iff.mp hslot
  by_cases hd : ∃ slot', d' = .slot ref slot'
  · obtain ⟨slot', rfl⟩ := hd
    rw [at?_slot, at?_slot, modify, Array.getElem?_modify, if_pos rfl, hc]
    exact Container.at?_set_of_ne hslot (fun heq => hne (heq ▸ rfl))
      fun hgap' => hgap ⟨rfl, c, hc, hgap'⟩
  · exact at?_modify_of_ne (fun slot' heq => hd ⟨slot', heq⟩) key v

theorem keptBut_modify (h : s.cellAt? ref key = some d) (v : Value) :
    KeptBut (some d) s (s.modify ref key v) := by
  intro d' w hw hd
  rw [at?_modify_of_cell_ne h (fun heq => hd (heq ▸ rfl)) (not_gap_of_at? hw)]
  exact hw

/-- A write in a container that the first store does not have. -/
theorem KeptBut.modify (h : KeptBut d? s t) (href : s.containers.size ≤ ref) (key : Key)
    (v : Value) : KeptBut d? s (t.modify ref key v) := by
  intro d w hw hd
  rw [at?_modify_of_ne ?_ key v]
  · exact h d w hw hd
  · rintro slot rfl
    exact Nat.not_lt_of_le href (lt_size_of_at? hw)

theorem size_writeSymbol (s : Store) (scope : Option Ref) (name : String) (v : Value) :
    (s.writeSymbol scope name v).containers.size = s.containers.size := by
  rcases s.writeSymbol_eq scope name v with ⟨ref, h⟩ | h
  · rw [h, size_modify]
  · rw [h]
    rfl

/-- A member of the active object is a cell of it. -/
theorem Shadows.cellAt? (h : s.Shadows (some ref) name) :
    s.cellAt? ref (.name name) = some (.slot ref (.member name)) ∧
      s.acceptsKey ref (.name name) = true := by
  obtain ⟨v, hv⟩ := Option.isSome_iff_exists.mp h
  rw [member?_eq_at?] at hv
  obtain ⟨c, hc, hv⟩ := Option.bind_eq_some_iff.mp hv
  cases c with
  | array items => cases hv
  | object fields =>
    rw [Store.cellAt?, acceptsKey, hc]
    exact ⟨rfl, rfl⟩

/-- Writing a name changes its cell. -/
theorem keptBut_writeSymbol (s : Store) (scope : Option Ref) (name : String) (v : Value) :
    KeptBut (some (s.cellOf scope name)) s (s.writeSymbol scope name v) := by
  by_cases hs : s.Shadows scope name
  · cases scope with
    | none => exact absurd hs (s.not_shadows_none name)
    | some ref =>
      rw [cellOf_of_shadows hs, writeSymbol_of_shadows hs]
      exact keptBut_modify hs.cellAt?.1 v
  · rw [cellOf_of_not_shadows hs, writeSymbol_of_not_shadows hs]
    exact keptBut_set s name v

theorem shadows_writeSymbol (s : Store) (scope : Option Ref) (name : String) (v : Value) :
    (s.writeSymbol scope name v).Shadows scope name ↔ s.Shadows scope name := by
  by_cases hs : s.Shadows scope name
  · exact iff_of_true (hs.writeSymbol name v) hs
  · rw [writeSymbol_of_not_shadows hs]
    exact Iff.rfl

theorem at?_writeSymbol_self (s : Store) (scope : Option Ref) (name : String) (v : Value) :
    (s.writeSymbol scope name v).at? (s.cellOf scope name) = some v := by
  by_cases hs : s.Shadows scope name
  · cases scope with
    | none => exact absurd hs (s.not_shadows_none name)
    | some ref =>
      rw [cellOf_of_shadows hs, writeSymbol_of_shadows hs]
      exact at?_modify_self hs.cellAt?.2 hs.cellAt?.1
  · rw [cellOf_of_not_shadows hs, writeSymbol_of_not_shadows hs]
    exact at?_set_self s name v

end Store
end TargetView
