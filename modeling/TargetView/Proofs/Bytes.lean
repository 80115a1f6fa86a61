import Mathlib.Algebra.Group.Nat.Defs
import TargetView.Memory

/-! # Numbers as bytes

`ByteOrder.encode` writes a number into as many bytes as asked for.  In either
order the bytes make the number again, up to what they have no room for
(`ByteOrder.toNat_encode`), so an element is decoded from its bytes whatever
stands behind them (`ElementType.decode_encode`).
-/
namespace TargetView

/-- The bytes of a number, the least significant one first. -/
def lowBytes : Nat → Nat → List UInt8
  | 0, _ => []
  | width + 1, n => UInt8.ofNat n :: lowBytes width (n / 256)

@[simp] theorem length_lowBytes (width n : Nat) : (lowBytes width n).length = width := by
  induction width generalizing n with
  | zero => rfl
  | succ width ih => rw [lowBytes, List.length_cons, ih]

theorem foldr_lowBytes (width n : Nat) :
    (lowBytes width n).foldr (fun b n => n * 256 + b.toNat) 0 = n % 256 ^ width := by
  induction width generalizing n with
  | zero => rw [Nat.pow_zero, Nat.mod_one]; rfl
  | succ width ih =>
    rw [lowBytes, List.foldr_cons, ih, Nat.pow_succ, Nat.mul_comm (256 ^ width), Nat.mod_mul]
    exact (Nat.add_comm _ _).trans (congrArg (n % 256 + ·) (Nat.mul_comm _ _))

namespace ByteOrder

/-- The bytes of a number in an order. -/
def encode : ByteOrder → Nat → Nat → List UInt8
  | little, width, n => lowBytes width n
  | big, width, n => (lowBytes width n).reverse

@[simp] theorem length_encode (order : ByteOrder) (width n : Nat) :
    (order.encode width n).length = width := by
  cases order <;> simp [encode]

theorem mostSignificantFirst_encode (order : ByteOrder) (width n : Nat) :
    order.mostSignificantFirst (order.encode width n) = (lowBytes width n).reverse := by
  cases order <;> rfl

/-- **The bytes of a number make it again**, as far as they hold it. -/
theorem toNat_encode (order : ByteOrder) (width n : Nat) :
    order.toNat (order.encode width n) = n % 256 ^ width := by
  rw [toNat, mostSignificantFirst_encode, List.foldl_reverse, foldr_lowBytes]

end ByteOrder

theorem ElementType.size_le_eight (type : ElementType) : type.size ≤ 8 := by
  cases type <;> decide

/-- An element is decoded from its bytes, whatever stands behind them. -/
theorem ElementType.decode_encode (type : ElementType) (order : ByteOrder) (n : Nat)
    (behind : List UInt8) :
    type.decode order (order.encode type.size n ++ behind) =
      type.ofWord (UInt64.ofNat (n % 256 ^ type.size)) := by
  have hsize := type.size_le_eight
  rw [decode, List.take_left' (order.length_encode _ _), ByteOrder.word,
    List.take_of_length_le (by rw [order.length_encode]; exact hsize), order.toNat_encode]

end TargetView
