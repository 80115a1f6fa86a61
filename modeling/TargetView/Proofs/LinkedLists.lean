import Mathlib.Order.Bounds.Basic
import TargetView.Proofs.Reads

/-! # Lists linked by pointers

A `LinkedList` is one in a memory whose reads depend on the address and the size
alone; it may lead back into itself.  Its elements have addresses as far as the
pointers can be read (`LinkedList.address?`), and it can be followed as far as
these are not null and the elements can be read (`LinkedList.Leads`).

`Pass.followLinks` finds exactly the elements up to there, or up to the number
that it is given: first as a walk over the memory (`run_followLinks`), of which is
then shown that it leaves no element out and takes none twice
(`isFront_walk`).  A list read stores what is found in this way and nothing else
(`fetchList_of_next`).
-/
namespace TargetView

/-- A list in memory, the elements of which lead from one to the next. -/
structure LinkedList where
  memory : UInt64 → Nat → Option (List UInt8)
  config : Config
  type : ElementType
  order : ByteOrder
  /-- Where the pointer of an element stands, counted from its address. -/
  next : Int64
  start : UInt64

namespace LinkedList

variable (l : LinkedList)

/-- The element at an address. -/
def elementAt? (address : UInt64) : Option Value :=
  (l.memory address (l.config.clampSize l.type.size)).map (l.type.decode l.order)

/-- The address to which an element leads. -/
def linkAt? (address : UInt64) : Option UInt64 :=
  (l.memory (address + l.next.toUInt64) (l.config.clampSize l.config.pointerSize)).map
    l.config.pointerOrder.word

/-- The address of each element, counted from zero, if all pointers before it can
be read. -/
def address? : Nat → Option UInt64
  | 0 => some l.start
  | i + 1 => (address? i).bind l.linkAt?

/-- The first elements are there: the pointers lead to them and not to null, and
they can be read. -/
def Leads (count : Nat) : Prop :=
  ∀ i < count, ∃ address, l.address? i = some address ∧ address ≠ 0 ∧
    (l.elementAt? address).isSome

/-- The elements are all those that there are, but not more than `most`. -/
structure IsFront (most : Nat) (items : List Value) : Prop where
  greatest : IsGreatest {count | count ≤ most ∧ l.Leads count} items.length
  element : ∀ (i : Nat) (h : i < items.length), (l.address? i).bind l.elementAt? = some items[i]

/-- The list is what a pass sees in the memory of its target, whatever the state of
the target is. -/
structure IsIn {τ : Type} (S : Setting τ) : Prop where
  config : S.config = l.config
  read : ∀ state address size,
    ((S.target.read address size).run state).1 = l.memory address size

/-- The list that starts elsewhere. -/
def startingAt (l : LinkedList) (start : UInt64) : LinkedList := { l with start }

/-! ## Walking -/

/-- The elements from the start on, at most so many. -/
def walk : Nat → LinkedList → List Value
  | 0, _ => []
  | most + 1, l =>
    if l.start = 0 then []
    else
      match l.elementAt? l.start with
      | none => []
      | some v =>
        match l.linkAt? l.start with
        | none => [v]
        | some link => v :: walk most (l.startingAt link)

variable {l}

/-- Behind the first element the list goes on where this one leads. -/
theorem address?_succ {link : UInt64} (h : l.linkAt? l.start = some link) (i : Nat) :
    l.address? (i + 1) = (l.startingAt link).address? i := by
  induction i with
  | zero => exact h
  | succ i ih => rw [address?, ih]; rfl

theorem Leads.first {count : Nat} (h : l.Leads (count + 1)) :
    l.start ≠ 0 ∧ (l.elementAt? l.start).isSome := by
  obtain ⟨address, haddress, hfirst⟩ := h 0 count.succ_pos
  obtain rfl := Option.some.inj haddress
  exact hfirst

theorem leads_one (hstart : l.start ≠ 0) (hv : (l.elementAt? l.start).isSome) : l.Leads 1 := by
  intro i hi
  obtain rfl : i = 0 := by omega
  exact ⟨l.start, rfl, hstart, hv⟩

/-- Without a pointer the first element is the last one. -/
theorem Leads.le_one {count : Nat} (h : l.Leads count) (hlink : l.linkAt? l.start = none) :
    count ≤ 1 := by
  by_contra hcount
  obtain ⟨address, haddress, -⟩ := h 1 (by omega)
  have hnone : l.address? 1 = none := hlink
  rw [hnone] at haddress
  cases haddress

theorem leads_succ_iff {link : UInt64} (hlink : l.linkAt? l.start = some link)
    (hstart : l.start ≠ 0) (hv : (l.elementAt? l.start).isSome) {count : Nat} :
    l.Leads (count + 1) ↔ (l.startingAt link).Leads count := by
  constructor
  · intro h i hi
    obtain ⟨address, haddress, hleads⟩ := h (i + 1) (Nat.succ_lt_succ hi)
    rw [address?_succ hlink] at haddress
    exact ⟨address, haddress, hleads⟩
  · intro h i hi
    cases i with
    | zero => exact ⟨l.start, rfl, hstart, hv⟩
    | succ i =>
      obtain ⟨address, haddress, hleads⟩ := h i (Nat.lt_of_succ_lt_succ hi)
      exact ⟨address, (address?_succ hlink i).trans haddress, hleads⟩

theorem isFront_nil {most : Nat} (h : ∀ count, count ≤ most → l.Leads count → count = 0) :
    l.IsFront most [] where
  greatest := ⟨⟨Nat.zero_le _, fun _ hi => absurd hi (Nat.not_lt_zero _)⟩,
    fun count hcount => Nat.le_of_eq (h count hcount.1 hcount.2)⟩
  element _ h := absurd h (Nat.not_lt_zero _)

theorem isFront_singleton {most : Nat} {v : Value} (hstart : l.start ≠ 0)
    (hv : l.elementAt? l.start = some v) (hlink : l.linkAt? l.start = none) :
    l.IsFront (most + 1) [v] where
  greatest := ⟨⟨Nat.succ_le_succ (Nat.zero_le _), leads_one hstart (by rw [hv]; rfl)⟩,
    fun _ hcount => hcount.2.le_one hlink⟩
  element i h := by
    obtain rfl : i = 0 := Nat.lt_one_iff.mp h
    exact hv

theorem IsFront.cons {most : Nat} {v : Value} {link : UInt64} {items : List Value}
    (hstart : l.start ≠ 0) (hv : l.elementAt? l.start = some v)
    (hlink : l.linkAt? l.start = some link) (h : (l.startingAt link).IsFront most items) :
    l.IsFront (most + 1) (v :: items) where
  greatest := by
    have hsome : (l.elementAt? l.start).isSome := by rw [hv]; rfl
    obtain ⟨⟨hle, hleads⟩, hgreatest⟩ := h.greatest
    refine ⟨⟨Nat.succ_le_succ hle, (leads_succ_iff hlink hstart hsome).mpr hleads⟩, ?_⟩
    rintro count ⟨hcount, hmore⟩
    cases count with
    | zero => exact Nat.zero_le _
    | succ count =>
      have hrest := (leads_succ_iff hlink hstart hsome).mp hmore
      exact Nat.succ_le_succ (hgreatest ⟨Nat.le_of_succ_le_succ hcount, hrest⟩)
  element i hi := by
    cases i with
    | zero => exact hv
    | succ i =>
      rw [address?_succ hlink]
      exact h.element i (Nat.lt_of_succ_lt_succ hi)

/-- **The walk finds the elements that there are**, each of them once. -/
theorem isFront_walk (most : Nat) : ∀ l : LinkedList, l.IsFront most (walk most l) := by
  induction most with
  | zero => exact fun l => isFront_nil fun count hcount _ => Nat.le_zero.mp hcount
  | succ most ih =>
    intro l
    rw [walk]
    by_cases hstart : l.start = 0
    · rw [if_pos hstart]
      refine isFront_nil fun count _ hleads => ?_
      cases count with
      | zero => rfl
      | succ count => exact absurd hstart hleads.first.1
    rw [if_neg hstart]
    cases hv : l.elementAt? l.start with
    | none =>
      refine isFront_nil fun count _ hleads => ?_
      cases count with
      | zero => rfl
      | succ count =>
        have hsome := hleads.first.2
        rw [hv] at hsome
        cases hsome
    | some v =>
      dsimp only
      cases hlink : l.linkAt? l.start with
      | none => exact isFront_singleton hstart hv hlink
      | some link => exact (ih (l.startingAt link)).cons hstart hv hlink

end LinkedList

namespace Pass

variable {τ : Type} {S : Setting τ} {l : LinkedList}

/-! ## Following links -/

section Steps

variable (hl : l.IsIn S)
include hl

theorem run_readMemory (address : UInt64) (size : Nat) (s : PassState τ) : ∃ t,
    (readMemory S address size).run.run s =
      (.ok (l.memory address (l.config.clampSize size)), t) := by
  unfold readMemory
  rw [run_onTarget, hl.read, hl.config]
  exact ⟨_, rfl⟩

theorem run_readLink (s : PassState τ) : ∃ t,
    (readPointer S (l.start + l.next.toUInt64)).run.run s = (.ok (l.linkAt? l.start), t) := by
  obtain ⟨t, hread⟩ := run_readMemory hl (l.start + l.next.toUInt64) l.config.pointerSize s
  refine ⟨t, ?_⟩
  unfold readPointer
  rw [hl.config, run_bind_of_ok hread]
  rfl

end Steps

/-- **What is found along the pointers is what a walk over the memory finds.** -/
theorem run_followLinks (most : Nat) : ∀ {l : LinkedList}, l.IsIn S →
    ∀ (found : Array Value) (s : PassState τ), ∃ t,
      (followLinks S l.type l.order l.next found most l.start).run.run s =
        (.ok (found ++ (l.walk most).toArray), t) := by
  induction most with
  | zero =>
    intro l _ found s
    rw [LinkedList.walk, Array.append_empty]
    exact ⟨s, rfl⟩
  | succ most ih =>
    intro l hl found s
    rw [followLinks, LinkedList.walk]
    by_cases hstart : l.start = 0
    · rw [if_pos (beq_iff_eq.mpr hstart), if_pos hstart, Array.append_empty]
      exact ⟨s, rfl⟩
    rw [if_neg (mt beq_iff_eq.mp hstart), if_neg hstart, LinkedList.elementAt?]
    obtain ⟨t, helement⟩ := run_readMemory hl l.start l.type.size s
    rw [run_bind_of_ok helement]
    cases l.memory l.start (l.config.clampSize l.type.size) with
    | none =>
      rw [Option.map_none, Array.append_empty]
      exact ⟨t, rfl⟩
    | some bytes =>
      obtain ⟨u, hlink⟩ := run_readLink hl t
      dsimp only [Option.map_some]
      rw [run_bind_of_ok hlink]
      cases l.linkAt? l.start with
      | none =>
        rw [Array.push_eq_append]
        exact ⟨u, rfl⟩
      | some link =>
        obtain ⟨v, hrest⟩ := ih (l := l.startingAt link) ⟨hl.config, hl.read⟩
          (found.push (l.type.decode l.order bytes)) u
        refine ⟨v, hrest.trans ?_⟩
        simp

/-! ## List reads -/

/-- What a list read finds along its pointers; nothing if it is not known where
the list starts or where the pointers stand. -/
def linkedItems (S : Setting τ) (r : ListRead) (next : Formula) :
    Pass τ (Option (Array Value)) := do
  let some start ← startAddress S r.source | return none
  let count ← listCount S r
  let some offset ← int? S next | return none
  return some (← followLinks S r.source.type r.source.order offset #[] count start)

/-- A list read with pointers binds its name to what it finds along them. -/
theorem fetchList_of_next {r : ListRead} {next : Formula} (h : r.next? = some next) :
    fetchList S r = (do
      let some items ← linkedItems S r next | return false
      bindArray r.name items
      return true) := by
  unfold fetchList linkedItems
  rw [h, bind_assoc]
  refine bind_congr fun start? => ?_
  cases start? with
  | none => exact (pure_bind _ _).symm
  | some start =>
    dsimp only
    rw [bind_assoc]
    refine bind_congr fun count => ?_
    rw [bind_assoc]
    refine bind_congr fun offset? => ?_
    cases offset? with
    | none => exact (pure_bind _ _).symm
    | some offset =>
      dsimp only
      rw [bind_assoc]
      exact bind_congr fun items => (pure_bind _ _).symm

theorem readList_of_next {r : ListRead} {next : Formula} (h : r.next? = some next) (id : Nat) :
    readList S id r = unlessDone id r.source.once (do
      let some items ← linkedItems S r next | return false
      bindArray r.name items
      return true) :=
  congrArg (unlessDone id r.source.once) (fetchList_of_next h)

/-- No more elements are found than are asked for, whatever the target does. -/
theorem size_followLinks_le {type : ElementType} {order : ByteOrder} {next : Int64} (most : Nat) :
    ∀ {found items : Array Value} {address : UInt64} {s t : PassState τ},
      (followLinks S type order next found most address).run.run s = (.ok items, t) →
      items.size ≤ found.size + most := by
  induction most with
  | zero =>
    intro found items address s t h
    cases h
    exact Nat.le_add_right _ _
  | succ most ih =>
    intro found items address s t h
    rw [followLinks] at h
    split at h
    · cases h
      exact Nat.le_add_right _ _
    obtain ⟨bytes?, s₁, -, h⟩ := run_bind_eq_ok h
    cases bytes? with
    | none =>
      cases h
      exact Nat.le_add_right _ _
    | some bytes =>
      obtain ⟨link?, s₂, -, h⟩ := run_bind_eq_ok h
      cases link? with
      | none =>
        cases h
        rw [Array.size_push]
        omega
      | some link =>
        have hrest := ih h
        rw [Array.size_push] at hrest
        omega

theorem clampCount_le (most : Nat) (requested : Int64) :
    Config.clampCount most requested ≤ max 1 most := by
  rw [Config.clampCount_eq]
  exact Nat.min_le_right _ _

/-- A list read never asks for more elements than the limit, but for one at least. -/
theorem listCount_le {r : ListRead} {count : Nat} {s t : PassState τ}
    (h : (listCount S r).run.run s = (.ok count, t)) :
    count ≤ max 1 S.config.maxListElements := by
  unfold listCount at h
  split at h
  · obtain ⟨requested?, s₁, -, h⟩ := run_bind_eq_ok h
    cases h
    exact clampCount_le _ _
  · cases h
    split
    · exact Nat.le_max_right _ _
    · exact Nat.le_max_left _ _

theorem size_linkedItems_le {r : ListRead} {next : Formula} {items : Array Value}
    {s t : PassState τ} (h : (linkedItems S r next).run.run s = (.ok (some items), t)) :
    items.size ≤ max 1 S.config.maxListElements := by
  obtain ⟨start?, s₁, -, h⟩ := run_bind_eq_ok h
  cases start? with
  | none => cases h
  | some start =>
    obtain ⟨count, s₂, hcount, h⟩ := run_bind_eq_ok h
    obtain ⟨offset?, s₃, -, h⟩ := run_bind_eq_ok h
    cases offset? with
    | none => cases h
    | some offset =>
      obtain ⟨found, s₄, hfound, h⟩ := run_bind_eq_ok h
      cases h
      have hsize := size_followLinks_le count hfound
      rw [Array.size_empty, Nat.zero_add] at hsize
      exact Nat.le_trans hsize (listCount_le hcount)

end Pass

/-- **A linked list is read up to where it ends.**  Over a memory whose reads
depend on the address and the size alone, the elements that are found are those
which can be reached from the start, or the first ones of them if there are more
than asked for, each in its place and none twice; so the pass goes on even if the
list leads back into itself.  What a list read with pointers stores is what is
found in this way, and this is never more than its limit, whatever the target
does. -/
theorem linked_lists_read_exactly {τ : Type} (S : Setting τ) :
    (∀ l : LinkedList, l.IsIn S → ∀ (most : Nat) (s : PassState τ), ∃ items t,
      (Pass.followLinks S l.type l.order l.next #[] most l.start).run.run s = (.ok items, t) ∧
        IsGreatest {count | count ≤ most ∧ l.Leads count} items.size ∧
        ∀ (i : Nat) (h : i < items.size), ∃ address, l.address? i = some address ∧
          l.elementAt? address = some items[i]) ∧
    ∀ (r : ListRead) (next : Formula), r.next? = some next →
      (∀ id, Pass.readList S id r = Pass.unlessDone id r.source.once (do
        let some items ← Pass.linkedItems S r next | return false
        Pass.bindArray r.name items
        return true)) ∧
      ∀ (items : Array Value) (s t : PassState τ),
        (Pass.linkedItems S r next).run.run s = (.ok (some items), t) →
          items.size ≤ max 1 S.config.maxListElements := by
  refine ⟨fun l hl most s => ?_, fun r next hnext => ⟨Pass.readList_of_next hnext,
    fun items s t => Pass.size_linkedItems_le⟩⟩
  obtain ⟨t, hrun⟩ := Pass.run_followLinks most hl #[] s
  rw [Array.empty_append] at hrun
  have hfront := LinkedList.isFront_walk most l
  refine ⟨_, t, hrun, hfront.greatest, fun i hi => ?_⟩
  obtain ⟨address, haddress, helement⟩ := Option.bind_eq_some_iff.mp (hfront.element i hi)
  exact ⟨address, haddress, helement⟩

/-- A list of one element that leads to itself, read up to the limit. -/
theorem linked_lists_read_exactly_circle :
    let memory (address : UInt64) (_ : Nat) : Option (List UInt8) :=
      if address = 16 then some [7, 0, 0, 0]
      else if address = 20 then some [16, 0, 0, 0]
      else none
    let t : Target Unit :=
      { read := fun address size => pure (memory address size)
        setVariable := fun _ _ _ => pure ()
        clearVariables := pure ()
        readRegister := fun _ => pure none
        writeRegister := fun _ _ => pure false }
    let S : Setting Unit := { target := t, config := { maxListElements := 3 } }
    let l : LinkedList := ⟨memory, S.config, .u32, .little, 4, 16⟩
    let s : PassState Unit := { machine := { target := () }, memo := {} }
    let r : ListRead := ⟨"nodes", ⟨.u32, none, some (.ofText "16"), .little, false, true⟩, none,
      some (.ofText "4")⟩
    l.IsIn S ∧
      (∃ items t, (Pass.followLinks S .u32 .little 4 #[] 3 16).run.run s = (.ok items, t) ∧
        items.size = 3) ∧
      r.next? = some (.ofText "4") ∧
      ∃ items t, (Pass.linkedItems S r (.ofText "4")).run.run s = (.ok (some items), t) ∧
        items.size ≤ 3 := by
  intro memory t S l s r
  have hl : l.IsIn S := ⟨rfl, fun _ _ _ => rfl⟩
  have hcircle : ∀ i, l.address? i = some 16 := by
    intro i
    induction i with
    | zero => rfl
    | succ i ih => rw [LinkedList.address?, ih]; rfl
  have hleads : l.Leads 3 := fun i _ => ⟨16, hcircle i, by decide, rfl⟩
  obtain ⟨hfollow, hread⟩ := linked_lists_read_exactly S
  obtain ⟨items, t, hrun, hgreatest, -⟩ := hfollow l hl 3 s
  -- Both formulas are constants, so nothing is evaluated before the list is followed.
  have hoffset : Pass.int? S (.ofText "16") = pure (some 16) :=
    Pass.int?_of_pureConstant? (c := .number 16) (by decide +kernel)
  have hnext : Pass.int? S (.ofText "4") = pure (some 4) :=
    Pass.int?_of_pureConstant? (c := .number 4) (by decide +kernel)
  have hitems : (Pass.linkedItems S r (.ofText "4")).run.run s = (.ok (some items), t) := by
    have hstart : (Pass.startAddress S r.source).run.run s = (.ok (some 16), s) := by
      unfold Pass.startAddress
      simp only [r, Pass.symbolAddress?, Pass.offset?, hoffset]
      rfl
    have hcount : Pass.listCount S r = pure 3 := rfl
    unfold Pass.linkedItems
    rw [run_bind_of_ok hstart]
    dsimp only
    rw [hcount, pure_bind, hnext, pure_bind]
    dsimp only
    rw [run_bind_of_ok hrun]
    rfl
  refine ⟨hl, ⟨items, t, hrun, ?_⟩, rfl, items, t, hitems, (hread r _ rfl).2 items s t hitems⟩
  exact Nat.le_antisymm hgreatest.1.1 (hgreatest.2 ⟨Nat.le_refl 3, hleads⟩)

end TargetView
