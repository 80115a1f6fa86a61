import TargetView.Proofs.Bytes
import TargetView.Proofs.Exactness
import TargetView.Proofs.Reads

/-! # Integers in target memory

The elements of a read are decoded one after the other: bytes that are cut into
the elements of a type, with an incomplete one behind them, give the values of
these elements (`ElementType.decodeAll_flatten`).  An integer element is written
in two's complement (`ElementType.encode`), and what is decoded from its bytes is
the value that the integer has everywhere (`Value.ofInteger`): a number as far as
numbers hold every integer, and beyond that a 64-bit integer.

The two byte orders differ by the order of the bytes within each element and by
nothing else (`ElementType.decode_reverse`).
-/
namespace TargetView

/-- The value of an integer: the number itself up to a magnitude of `2 ^ 53`, and
beyond it the 64-bit integer with its bits. -/
def Value.ofInteger (n : Int) : Value :=
  if n.natAbs ≤ 2 ^ 53 then .number (Binary64.ofInt n) else .int (Int64.ofInt n)

namespace Value

theorem ofInteger_toInt (v : Int64) : ofInteger v.toInt = .scalar (.ofInt64 v) := by
  have hexact : Scalar.maxExact = 2 ^ 53 := rfl
  unfold ofInteger Scalar.ofInt64
  rw [hexact, Int64.ofInt_toInt]
  split <;> rfl

theorem ofInteger_toNat (w : UInt64) : ofInteger w.toNat = .scalar (.ofWord w) := by
  have hexact : Scalar.maxExact = 2 ^ 53 := rfl
  have hbits : Int64.ofInt w.toNat = w.toInt64 := by
    rw [Int64.ofInt_eq_ofNat, ← UInt64.toInt64_ofNat', UInt64.ofNat_toNat]
  unfold ofInteger Scalar.ofWord
  rw [hexact, hbits, Int.natAbs_natCast]
  split <;> rfl

end Value

/-! ## Byte orders -/

namespace ByteOrder

/-- The other order. -/
def opposite : ByteOrder → ByteOrder
  | little => big
  | big => little

theorem toNat_reverse (order : ByteOrder) (bytes : List UInt8) :
    order.opposite.toNat bytes.reverse = order.toNat bytes := by
  cases order with
  | little => rfl
  | big => rw [toNat, toNat, opposite, mostSignificantFirst, List.reverse_reverse]; rfl

end ByteOrder

namespace ElementType

variable (type : ElementType) (order : ByteOrder)

/-! ## Element after element -/

/-- An element is decoded from its own bytes alone. -/
theorem decode_append {bytes : List UInt8} (h : bytes.length = type.size) (behind : List UInt8) :
    type.decode order (bytes ++ behind) = type.decode order bytes := by
  rw [decode, decode, List.take_left' h, List.take_of_length_le (Nat.le_of_eq h)]

theorem decodeInto_flatten {tail : List UInt8} (htail : tail.length < type.size) :
    ∀ (decoded : Array Value) (elements : List (List UInt8)),
      (∀ e ∈ elements, e.length = type.size) →
      type.decodeInto order decoded (elements.flatten ++ tail) =
        decoded ++ (elements.map (type.decode order)).toArray
  | decoded, [], _ => by
    rw [List.flatten_nil, List.nil_append, decodeInto_of_lt type order decoded htail]
    simp
  | decoded, e :: elements, h => by
    obtain ⟨he, helements⟩ := List.forall_mem_cons.mp h
    rw [List.flatten_cons, List.append_assoc, decodeInto_of_le type order decoded
      (by rw [List.length_append, he]; exact Nat.le_add_right _ _), List.drop_left' he,
      decode_append type order he, decodeInto_flatten htail _ elements helements]
    simp

/-- **Elements are decoded one after the other**, and what is left at the end is
dropped. -/
theorem decodeAll_flatten {elements : List (List UInt8)} {tail : List UInt8}
    (h : ∀ e ∈ elements, e.length = type.size) (htail : tail.length < type.size) :
    type.decodeAll order (elements.flatten ++ tail) =
      (elements.map (type.decode order)).toArray := by
  rw [decodeAll, decodeInto_flatten type order htail #[] elements h, Array.empty_append]

/-- The reversed bytes of an element are the element in the other order. -/
theorem decode_reverse {bytes : List UInt8} (h : bytes.length = type.size) :
    type.decode order.opposite bytes.reverse = type.decode order bytes := by
  have hsize := type.size_le_eight
  have hreverse : bytes.reverse.length = type.size := by rw [List.length_reverse, h]
  rw [decode, decode, List.take_of_length_le (Nat.le_of_eq hreverse),
    List.take_of_length_le (Nat.le_of_eq h), ByteOrder.word, ByteOrder.word,
    List.take_of_length_le (by omega), List.take_of_length_le (by omega),
    order.toNat_reverse]

/-! ## Integers -/

/-- The integers that an element of the type can be. -/
def Holds (n : Int) : Prop :=
  if type.isSigned then -2 ^ (8 * type.size - 1) ≤ n ∧ n < 2 ^ (8 * type.size - 1)
  else 0 ≤ n ∧ n < 2 ^ (8 * type.size)

/-- The bytes of an integer in two's complement. -/
def encode (n : Int) : List UInt8 :=
  order.encode type.size (n % 2 ^ (8 * type.size)).toNat

@[simp] theorem length_encode (n : Int) : (type.encode order n).length = type.size :=
  order.length_encode _ _

variable {type}

theorem ofWord_of_signed (h : type.isSigned = true) (w : UInt64) :
    type.ofWord w =
      .scalar (.ofInt64 (.ofInt (Int.bmod w.toNat (2 ^ (8 * type.size))))) := by
  cases type with
  | i8 | i16 | i32 | i64 => rfl
  | u8 | u16 | u32 | u64 | f32 | f64 => cases h

theorem ofWord_of_unsigned (hint : type.isFloat = false) (h : type.isSigned = false)
    (w : UInt64) : type.ofWord w = .scalar (.ofWord w) := by
  cases type with
  | u8 | u16 | u32 | u64 => rfl
  | i8 | i16 | i32 | i64 => cases h
  | f32 | f64 => cases hint

/-- A word that is read as an integer which the type holds has the value of the
integer. -/
theorem ofWord_of_holds (hint : type.isFloat = false) {n : Int} (h : type.Holds n) {w : UInt64}
    (hw : (w.toNat : Int) = n % 2 ^ (8 * type.size)) : type.ofWord w = .ofInteger n := by
  have hpos := type.size_pos
  have hbits : 8 * type.size ≤ 64 := Nat.mul_le_mul_left 8 type.size_le_eight
  unfold Holds at h
  cases hsigned : type.isSigned with
  | true =>
    rw [hsigned, if_pos rfl] at h
    have hhalf : (2 : Int) ^ (8 * type.size) = 2 * 2 ^ (8 * type.size - 1) := by
      rw [← Int.pow_succ']
      congr 1
      omega
    have hcast : ((2 ^ (8 * type.size) : Nat) : Int) = 2 ^ (8 * type.size) := by norm_cast
    -- The sign comes back when the remainder is moved into the middle of its range.
    have hsign : Int.bmod w.toNat (2 ^ (8 * type.size)) = n := by
      rw [hw, ← hcast, Int.emod_bmod]
      refine Int.bmod_eq_of_le ?_ ?_
      all_goals rw [hcast, hhalf]; omega
    have hrange : (2 : Int) ^ (8 * type.size - 1) ≤ 2 ^ 63 :=
      pow_le_pow_right₀ (by decide) (by omega)
    have hint64 : (Int64.ofInt n).toInt = n := Int64.toInt_ofInt_of_le (by omega) (by omega)
    rw [ofWord_of_signed hsigned, hsign, ← Value.ofInteger_toInt, hint64]
  | false =>
    rw [hsigned, if_neg Bool.false_ne_true] at h
    rw [Int.emod_eq_of_lt h.1 h.2] at hw
    rw [ofWord_of_unsigned hint hsigned, ← Value.ofInteger_toNat, hw]

/-- An integer that the type holds is decoded from its bytes. -/
theorem decode_encode_of_holds (hint : type.isFloat = false) {n : Int} (h : type.Holds n) :
    type.decode order (type.encode order n) = .ofInteger n := by
  have hbits : 8 * type.size ≤ 64 := Nat.mul_le_mul_left 8 type.size_le_eight
  have hpow : 256 ^ type.size = 2 ^ (8 * type.size) := by rw [Nat.pow_mul]
  have hpos : (0 : Int) < 2 ^ (8 * type.size) := Int.pow_pos (by decide)
  have hnonneg := Int.emod_nonneg n (Int.ne_of_gt hpos)
  have hlt := Int.emod_lt_of_pos n hpos
  have hle : (2 : Int) ^ (8 * type.size) ≤ 2 ^ 64 := pow_le_pow_right₀ (by decide) hbits
  have hdecode := type.decode_encode order (n % 2 ^ (8 * type.size)).toNat []
  rw [List.append_nil] at hdecode
  rw [encode, hdecode]
  refine ofWord_of_holds hint h ?_
  have hsmall : (n % 2 ^ (8 * type.size)).toNat < 256 ^ type.size := by
    rw [hpow]
    have : ((2 ^ (8 * type.size) : Nat) : Int) = 2 ^ (8 * type.size) := by norm_cast
    omega
  have hword : (n % 2 ^ (8 * type.size)).toNat < UInt64.size := by
    have : UInt64.size = 2 ^ 64 := rfl
    omega
  rw [Nat.mod_eq_of_lt hsmall, UInt64.toNat_ofNat_of_lt' hword, Int.toNat_of_nonneg hnonneg]

/-- **The integers of target memory come back.**  Integers that a type holds,
written one after the other in two's complement in either byte order, are decoded
to the values of these integers, whatever incomplete element stands behind them.
Those up to a magnitude of `2 ^ 53` are numbers, which hold them exactly, and the
others are 64-bit integers.  Reversing the bytes of each element amounts to
decoding in the other order. -/
theorem integers_decode_back (type : ElementType) (hint : type.isFloat = false)
    (order : ByteOrder) :
    (∀ (ns : List Int) (tail : List UInt8), (∀ n ∈ ns, type.Holds n) → tail.length < type.size →
      type.decodeAll order (ns.flatMap (type.encode order) ++ tail) =
        (ns.map Value.ofInteger).toArray) ∧
    (∀ n : Int, n.natAbs ≤ 2 ^ 53 → Value.ofInteger n = .number (Binary64.ofInt n) ∧
      Binary64.integer? (Binary64.ofInt n) = some n) ∧
    (∀ n : Int, 2 ^ 53 < n.natAbs → Value.ofInteger n = .int (Int64.ofInt n)) ∧
    ∀ (elements : List (List UInt8)) (tail : List UInt8),
      (∀ e ∈ elements, e.length = type.size) → tail.length < type.size →
      type.decodeAll order.opposite ((elements.map List.reverse).flatten ++ tail) =
        type.decodeAll order (elements.flatten ++ tail) := by
  refine ⟨fun ns tail hns htail => ?_, fun n hn => ⟨if_pos hn, Binary64.integer?_ofInt hn⟩,
    fun n hn => if_neg (Nat.not_le.mpr hn), fun elements tail helements htail => ?_⟩
  · have hlength : ∀ e ∈ ns.map (type.encode order), e.length = type.size :=
      List.forall_mem_map.mpr fun n _ => type.length_encode order n
    rw [List.flatMap_def, decodeAll_flatten type order hlength htail, List.map_map]
    congr 1
    exact List.map_congr_left fun n hn => decode_encode_of_holds order hint (hns n hn)
  · have hreverse : ∀ e ∈ elements.map List.reverse, e.length = type.size :=
      List.forall_mem_map.mpr fun e he => by rw [List.length_reverse, helements e he]
    rw [decodeAll_flatten type order.opposite hreverse htail,
      decodeAll_flatten type order helements htail, List.map_map]
    congr 1
    exact List.map_congr_left fun e he => type.decode_reverse order (helements e he)

/-- The least 64-bit integer and the two around the last one that numbers are
certain to hold, with a single byte behind them. -/
theorem integers_decode_back_around_exact :
    let bytes : List UInt8 := [0x80, 0, 0, 0, 0, 0, 0, 0, 0, 0x20, 0, 0, 0, 0, 0, 0,
      0, 0x20, 0, 0, 0, 0, 0, 1, 0x7F]
    let values : Array Value := #[.int (-9223372036854775808),
      .number (Binary64.ofInt 9007199254740992), .int 9007199254740993]
    ElementType.i64.isFloat = false ∧ ElementType.i64.decodeAll .big bytes = values ∧
      Binary64.integer? (Binary64.ofInt 9007199254740992) = some 9007199254740992 := by
  intro bytes values
  have hholds : ∀ n ∈ [-9223372036854775808, 9007199254740992, 9007199254740993],
      ElementType.i64.Holds n := by
    simp [Holds, isSigned, size]
  obtain ⟨hdecode, hexact, -, -⟩ := integers_decode_back .i64 rfl .big
  refine ⟨rfl, ?_, (hexact _ (by decide)).2⟩
  have hbytes : bytes = [-9223372036854775808, 9007199254740992, 9007199254740993].flatMap
      (ElementType.i64.encode .big) ++ [0x7F] := by
    decide
  rw [hbytes, hdecode _ _ hholds (by decide)]
  rfl

end ElementType
end TargetView
