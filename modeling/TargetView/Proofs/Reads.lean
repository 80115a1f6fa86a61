import TargetView.Proofs.Bytes
import TargetView.Proofs.Labels
import TargetView.Proofs.Runs
import TargetView.Proofs.Sessions

/-! # What a read stores

A read asks for a number of elements, which is moved into its limits
(`Config.elementCount`), and the bytes of so many elements make one memory read.
If the target gives all of them (`Pass.Delivery`), the name of the read is bound
to exactly so many elements: to the element itself if there is one and the read
is no list read, otherwise to an array.
-/
namespace TargetView

/-! ## Counts and sizes -/

namespace Config

variable (c : Config) (type : ElementType) (most : Nat) (requested : Int64)

/-- How many elements are read if so many are asked for: at least one, at most
`most` unless this is zero, and not more than one read holds. -/
def elementCount : Nat :=
  min (min (max requested.toInt 1).toNat (max 1 most)) (c.maxReadBytes / type.size)

theorem clampCount_eq :
    clampCount most requested = min (max requested.toInt 1).toNat (max 1 most) := by
  have hlt : requested < 1 ↔ requested.toInt < 1 := Int64.lt_iff_toInt_lt
  unfold clampCount
  split
  · next h =>
    rw [hlt] at h
    omega
  · next h =>
    rw [hlt] at h
    omega

/-- A count is lowered to what one read holds, except that one element is read
however wide it is. -/
theorem fitCount_mul_size_le (count : Nat) :
    c.fitCount type count * type.size ≤ max c.maxReadBytes type.size := by
  have hfit : c.fitCount type count ≤ max (c.maxReadBytes / type.size) 1 := Nat.min_le_right _ _
  refine Nat.le_trans (Nat.mul_le_mul_right _ hfit) ?_
  rcases Nat.le_total (c.maxReadBytes / type.size) 1 with h | h
  · rw [Nat.max_eq_right h, Nat.one_mul]
    exact Nat.le_max_right _ _
  · rw [Nat.max_eq_left h]
    exact Nat.le_trans (Nat.div_mul_le_self _ _) (Nat.le_max_left _ _)

/-- The product that makes the size of a read is formed without a carry. -/
theorem toNat_fitCount_mul_size (h : c.maxReadBytes < UInt32.size) (count : Nat) :
    (UInt64.ofNat (c.fitCount type count) * UInt64.ofNat type.size).toNat =
      c.fitCount type count * type.size := by
  have hle := c.fitCount_mul_size_le type count
  have hsize := type.size_le_eight
  have hlt : c.fitCount type count * type.size < UInt64.size := by
    have : UInt32.size = 4294967296 := rfl
    have : UInt64.size = 18446744073709551616 := rfl
    omega
  rw [← UInt64.ofNat_mul, UInt64.toNat_ofNat_of_lt' hlt]

variable {c} (hbytes : 8 ≤ c.maxReadBytes)
include hbytes

theorem one_le_maxReadBytes_div : 1 ≤ c.maxReadBytes / type.size := by
  refine (Nat.one_le_div_iff type.size_pos).mpr (Nat.le_trans ?_ hbytes)
  cases type <;> decide

theorem fitCount_clampCount :
    c.fitCount type (clampCount most requested) = c.elementCount type most requested := by
  have := one_le_maxReadBytes_div type hbytes
  rw [fitCount, clampCount_eq, elementCount, Nat.max_eq_left this]

theorem one_le_elementCount : 1 ≤ c.elementCount type most requested := by
  have := one_le_maxReadBytes_div type hbytes
  unfold elementCount
  omega

/-- The limit on the size of a read cuts no element off. -/
theorem clampSize_elements :
    c.clampSize (c.elementCount type most requested * type.size) =
      c.elementCount type most requested * type.size := by
  have hle : c.elementCount type most requested * type.size ≤ c.maxReadBytes :=
    Nat.le_trans (Nat.mul_le_mul_right _ (Nat.min_le_right _ _)) (Nat.div_mul_le_self _ _)
  have hpos : 1 ≤ c.elementCount type most requested * type.size :=
    Nat.mul_pos (one_le_elementCount type most requested hbytes) type.size_pos
  unfold clampSize
  omega

end Config

/-! ## Elements -/

namespace ElementType

variable (type : ElementType) (order : ByteOrder)

theorem isScalar_decode (bytes : List UInt8) : ∃ x, type.decode order bytes = .scalar x := by
  unfold decode ofWord
  split
  · exact ⟨_, rfl⟩
  · exact ⟨_, rfl⟩
  · split <;> exact ⟨_, rfl⟩

theorem decodeInto_of_lt (decoded : Array Value) {bytes : List UInt8}
    (h : bytes.length < type.size) : type.decodeInto order decoded bytes = decoded := by
  rw [decodeInto, dif_pos (by rw [List.length_take]; omega)]

theorem decodeInto_of_le (decoded : Array Value) {bytes : List UInt8}
    (h : type.size ≤ bytes.length) : type.decodeInto order decoded bytes =
      type.decodeInto order (decoded.push (type.decode order bytes)) (bytes.drop type.size) := by
  rw [decodeInto, dif_neg (by rw [List.length_take]; omega)]

theorem size_decodeInto (n : Nat) : ∀ (decoded : Array Value) (bytes : List UInt8),
    bytes.length = n * type.size →
      (type.decodeInto order decoded bytes).size = decoded.size + n := by
  have hpos := type.size_pos
  induction n with
  | zero =>
    intro decoded bytes h
    rw [decodeInto_of_lt type order decoded (by omega), Nat.add_zero]
  | succ n ih =>
    intro decoded bytes h
    rw [Nat.succ_mul] at h
    rw [decodeInto_of_le type order decoded (by omega), ih _ _ (by rw [List.length_drop]; omega),
      Array.size_push]
    omega

/-- The bytes of some elements make as many elements. -/
theorem size_decodeAll {n : Nat} {bytes : List UInt8} (h : bytes.length = n * type.size) :
    (type.decodeAll order bytes).size = n := by
  rw [decodeAll, size_decodeInto type order n #[] bytes h, Array.size_empty, Nat.zero_add]

/-- The bytes of one element make this element. -/
theorem decodeAll_one {bytes : List UInt8} (h : bytes.length = type.size) :
    type.decodeAll order bytes = #[type.decode order bytes] := by
  rw [decodeAll, decodeInto_of_le type order #[] (Nat.le_of_eq h.symm),
    decodeInto_of_lt type order _ (by rw [List.length_drop, h, Nat.sub_self]; exact type.size_pos)]
  rfl

end ElementType

/-! ## Names bound to arrays -/

namespace Store

/-- The global is bound to an array with these elements. -/
def BindsArray (s : Store) (name : String) (items : Array Value) : Prop :=
  ∃ ref, s.get? name = some (.container ref) ∧ s.elements? ref = some items

theorem bindsArray_bindNew (s : Store) (name : String) (items : Array Value) :
    (setArray.bindNew name items s).2.BindsArray name items := by
  refine ⟨s.containers.size, ?_, ?_⟩
  · exact Std.ExtTreeMap.getElem?_insert_self
  · change (s.containers.push (.array items))[s.containers.size]?.bind (·.items?) = _
    rw [Array.getElem?_push_size]
    rfl

theorem bindsArray_setArray (s : Store) (name : String) (items : Array Value) :
    (s.setArray name items).2.BindsArray name items := by
  rcases s.setArray_eq name items with ⟨ref, hname, harray, h⟩ | ⟨-, h⟩
  · rw [h]
    refine ⟨ref, hname, ?_⟩
    change (s.containers.setIfInBounds ref (.array items))[ref]?.bind (·.items?) = _
    rw [Array.getElem?_setIfInBounds, if_pos rfl, if_pos (lt_size_of_isArray harray)]
    rfl
  · rw [h]
    exact s.bindsArray_bindNew name items

end Store

/-! ## Reads that get their bytes -/

namespace Pass

variable {τ : Type} {S : Setting τ} {s t : PassState τ}

theorem run_onTarget {α : Type} (act : StateM τ α) :
    (onTarget act).run.run s =
      (.ok (act.run s.machine.target).1,
        { s with machine.target := (act.run s.machine.target).2 }) :=
  rfl

theorem run_bind_named {name : String} (hname : name.isEmpty = false) (v : Value) :
    (bind name v).run.run s = (.ok (), { s with machine.store := s.machine.store.set name v }) := by
  unfold bind
  rw [hname]
  rfl

theorem run_bindArray_named {name : String} (hname : name.isEmpty = false) (items : Array Value) :
    (bindArray name items).run.run s =
      (.ok (), { s with machine.store := (s.machine.store.setArray name items).2 }) := by
  unfold bindArray
  rw [hname]
  rfl

theorem run_isDone (id : Nat) :
    (isDone id).run.run s = (.ok (s.memo.done.contains id), s) :=
  rfl

/-- The state in which a read has been marked. -/
def marked (id : Nat) (s : PassState τ) : PassState τ :=
  { s with memo.done := s.memo.done.insert id }

/-- A read that succeeds is marked, if it is not to be repeated. -/
theorem run_unlessDone_of_fetched {id : Nat} {once : Bool} {read : Pass τ Bool}
    (hfresh : (once && s.memo.done.contains id) = false)
    (hread : read.run.run s = (.ok true, t)) :
    (unlessDone id once read).run.run s = (.ok (), if once then marked id t else t) := by
  unfold unlessDone
  rw [run_bind_of_ok (run_isDone id), hfresh, if_neg Bool.false_ne_true, run_bind_of_ok hread]
  cases once with
  | true => rfl
  | false => rfl

/-- A read that binds its name ends like the read itself, but for the memo. -/
theorem run_unlessDone {id : Nat} {once : Bool} {read : Pass τ Bool}
    (hfresh : (once && s.memo.done.contains id) = false)
    (hread : read.run.run s = (.ok true, t)) :
    ∃ memo, (unlessDone id once read).run.run s = (.ok (), { t with memo }) := by
  rw [run_unlessDone_of_fetched hfresh hread]
  cases once with
  | true => exact ⟨_, rfl⟩
  | false => exact ⟨_, rfl⟩

/-- A constant counts as its integer reading. -/
theorem int?_of_pureConstant? {f : Formula} {c : Scalar}
    (h : f.parsed.body.pureConstant? = some c) : int? S f = pure (some c.toInt) := by
  rw [int?, value?_of_pureConstant? S h]
  rfl

theorem run_intOr_of_pureConstant? {f : Formula} {c : Scalar}
    (h : f.parsed.body.pureConstant? = some c) (absent : Int64) :
    (intOr S absent (some f)).run.run s = (.ok c.toInt, s) := by
  rw [intOr, int?_of_pureConstant? h]
  rfl

/-- A list read of consecutive elements counts them like a read does. -/
theorem listCount_eq {r : ListRead} (hnext : r.next? = none) :
    listCount S r = (do
      return Config.clampCount S.config.maxListElements (← intOr S 1 r.count?)) := by
  obtain ⟨name, source, count?, next?⟩ := r
  obtain rfl : next? = none := hnext
  cases count? with
  | some f =>
    change _ = (do return (← int? S f).getD 1) >>= fun requested =>
      pure (Config.clampCount S.config.maxListElements requested)
    rw [bind_assoc]
    simp only [pure_bind]
    rfl
  | none =>
    have hone : Config.clampCount S.config.maxListElements 1 = 1 := by
      rw [Config.clampCount_eq]
      have : (1 : Int64).toInt = 1 := rfl
      omega
    change pure 1 = pure 1 >>= fun requested =>
      pure (Config.clampCount S.config.maxListElements requested)
    rw [pure_bind, hone]

/-- A read gets its bytes: it has not been done once and for all, its address is
found, and the target gives as many bytes as the elements have, the number of
which is evaluated in between. -/
structure Delivery (S : Setting τ) (id : Nat) (source : Source) (count? : Option Formula)
    (most : Nat) (s : PassState τ) where
  fresh : (source.once && s.memo.done.contains id) = false
  address : UInt64
  located : PassState τ
  locates : (startAddress S source).run.run s = (.ok (some address), located)
  requested : Int64
  counted : PassState τ
  counts : (intOr S 1 count?).run.run located = (.ok requested, counted)
  bytes : List UInt8
  target : τ
  answers : (S.target.read address
      (S.config.elementCount source.type most requested * source.type.size)).run
    counted.machine.target = (some bytes, target)
  complete : bytes.length = S.config.elementCount source.type most requested * source.type.size

namespace Delivery

variable {id : Nat} {source : Source} {count? : Option Formula} {most : Nat}
  (d : Delivery S id source count? most s)

/-- The number of the elements. -/
def count : Nat := S.config.elementCount source.type most d.requested

/-- The elements. -/
def items : Array Value := source.type.decodeAll source.order d.bytes

theorem size_items : d.items.size = d.count :=
  source.type.size_decodeAll source.order d.complete

/-- The state when the bytes have been read. -/
def after : PassState τ :=
  { d.counted with machine.target := d.target }

variable (hbytes : 8 ≤ S.config.maxReadBytes)
include hbytes

/-- The elements are read in full. -/
theorem run_readElements :
    (readElements S source.type d.address d.count).run.run d.counted =
      (.ok (some d.bytes), d.after) := by
  have hsize := S.config.clampSize_elements source.type most d.requested hbytes
  unfold readElements readMemory count
  rw [hsize, run_onTarget, d.answers]
  rfl

end Delivery

section Statements

variable {id : Nat} (hbytes : 8 ≤ S.config.maxReadBytes)
include hbytes

/-- A read ends with what it stores. -/
theorem run_read {r : Read} (d : Delivery S id r.source r.count? S.config.maxReadElements s)
    (hstores : (if d.count = 1 then
        bind r.name (d.items.back?.getD .undefined)
      else bindArray r.name d.items).run.run d.after = (.ok (), t)) :
    ∃ memo, (read S id r).run.run s = (.ok (), { t with memo }) := by
  have hfit : S.config.fitCount r.source.type
      (Config.clampCount S.config.maxReadElements d.requested) = d.count :=
    Config.fitCount_clampCount r.source.type _ _ hbytes
  -- address, count and bytes are those of the delivery; what is left is to store them
  refine run_unlessDone d.fresh ?_
  unfold fetch
  rw [run_bind_of_ok d.locates, run_bind_of_ok d.counts]
  dsimp only
  rw [hfit, run_bind_of_ok (d.run_readElements hbytes)]
  dsimp only
  split at hstores
  · next hone =>
    rw [if_pos hone, ← Delivery.items, run_bind_of_ok hstores]
    rfl
  · next hmany =>
    rw [if_neg hmany, ← Delivery.items, run_bind_of_ok hstores]
    rfl

/-- A list read of consecutive elements ends with what it stores. -/
theorem run_readList {r : ListRead} (hnext : r.next? = none)
    (d : Delivery S id r.source r.count? S.config.maxListElements s)
    (hstores : (bindArray r.name d.items).run.run
      d.after = (.ok (), t)) :
    ∃ memo, (readList S id r).run.run s = (.ok (), { t with memo }) := by
  have hfit : S.config.fitCount r.source.type
      (Config.clampCount S.config.maxListElements d.requested) = d.count :=
    Config.fitCount_clampCount r.source.type _ _ hbytes
  refine run_unlessDone d.fresh ?_
  unfold fetchList
  rw [run_bind_of_ok d.locates]
  dsimp only
  rw [listCount_eq hnext, bind_assoc, run_bind_of_ok d.counts, pure_bind]
  rw [hnext]
  dsimp only
  rw [hfit, run_bind_of_ok (d.run_readElements hbytes)]
  dsimp only
  rw [← Delivery.items, run_bind_of_ok hstores]
  rfl

/-- **A read stores the elements that it reads**: a scalar if there is one, and
otherwise an array. -/
theorem read_stores {r : Read} (hname : r.name.isEmpty = false)
    (d : Delivery S id r.source r.count? S.config.maxReadElements s) :
    ∃ final, (read S id r).run.run s = (.ok (), final) ∧
      if d.count = 1 then ∃ x, r.source.type.decode r.source.order d.bytes = .scalar x ∧
        final.machine.store.get? r.name = some (.scalar x)
      else final.machine.store.BindsArray r.name d.items ∧ d.items.size = d.count := by
  by_cases hone : d.count = 1
  · obtain ⟨x, hx⟩ := r.source.type.isScalar_decode r.source.order d.bytes
    have hlength : d.bytes.length = r.source.type.size := by
      rw [d.complete, ← Delivery.count, hone, Nat.one_mul]
    have hitems : d.items = #[.scalar x] := by
      rw [Delivery.items, r.source.type.decodeAll_one r.source.order hlength, hx]
    obtain ⟨memo, hrun⟩ := run_read hbytes d (by rw [if_pos hone, run_bind_named hname])
    refine ⟨_, hrun, ?_⟩
    rw [if_pos hone]
    refine ⟨x, hx, ?_⟩
    rw [hitems]
    exact Std.ExtTreeMap.getElem?_insert_self
  · obtain ⟨memo, hrun⟩ := run_read hbytes d (by rw [if_neg hone, run_bindArray_named hname])
    refine ⟨_, hrun, ?_⟩
    rw [if_neg hone]
    exact ⟨Store.bindsArray_setArray _ _ _, d.size_items⟩

/-- **A list read stores the elements that it reads**, always as an array. -/
theorem readList_stores {r : ListRead} (hname : r.name.isEmpty = false) (hnext : r.next? = none)
    (d : Delivery S id r.source r.count? S.config.maxListElements s) :
    ∃ final, (readList S id r).run.run s = (.ok (), final) ∧
      final.machine.store.BindsArray r.name d.items ∧ d.items.size = d.count := by
  obtain ⟨memo, hrun⟩ := run_readList hbytes hnext d (run_bindArray_named hname _)
  exact ⟨_, hrun, Store.bindsArray_setArray _ _ _, d.size_items⟩

end Statements

end Pass
end TargetView
