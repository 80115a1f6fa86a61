import TargetView.ElementType
import TargetView.Value

/-!
# Decoding target memory

Target memory is bytes.  A `ByteOrder` says how several of them make a word, and `decode` reads one
element of a type: an unsigned integer, a signed one in two's complement, or a floating-point
number.  Integers that numbers do not hold exactly become 64-bit integers.
-/
namespace TargetView

/-- Which byte of a word comes first in memory. -/
inductive ByteOrder where
  | little
  | big
  deriving DecidableEq, Repr, Inhabited

namespace ByteOrder

/-- The order that an attribute asks for; without a clear wish the least significant byte comes
first. -/
def ofAttribute (attribute? : Option String) : ByteOrder :=
  match attribute?.map Text.trimmed with
  | some "B" | some "b" => .big
  | _ => .little

/-- The bytes of a word, the most significant one first. -/
def mostSignificantFirst : ByteOrder → List UInt8 → List UInt8
  | little, bytes => bytes.reverse
  | big, bytes => bytes

/-- The integer that some bytes make. -/
def toNat (order : ByteOrder) (bytes : List UInt8) : Nat :=
  (order.mostSignificantFirst bytes).foldl (fun n b => n * 256 + b.toNat) 0

/-- The word that the first eight bytes make. -/
def word (order : ByteOrder) (bytes : List UInt8) : UInt64 :=
  UInt64.ofNat (order.toNat (bytes.take 8))

end ByteOrder

namespace ElementType

/-- The value of a word that was read as an element of the type. -/
def ofWord (type : ElementType) (w : UInt64) : Value :=
  match type with
  | .f32 => .number (Binary64.ofBinary32 w.toNat)
  | .f64 => .number (Float.ofBits w)
  | type =>
    if type.isSigned then
      .scalar (.ofInt64 (Int64.ofInt (Int.bmod w.toNat (1 <<< (8 * type.size)))))
    else .scalar (.ofWord w)

/-- The value of the element at the front of some bytes. -/
def decode (type : ElementType) (order : ByteOrder) (bytes : List UInt8) : Value :=
  type.ofWord (order.word (bytes.take type.size))

/-- Decodes element after element behind those already decoded. -/
def decodeInto (type : ElementType) (order : ByteOrder) (decoded : Array Value)
    (bytes : List UInt8) : Array Value :=
  if _h : (bytes.take type.size).length < type.size then decoded
  else decodeInto type order (decoded.push (type.decode order bytes)) (bytes.drop type.size)
termination_by bytes.length
decreasing_by
  have := type.size_pos
  simp only [List.length_take, List.length_drop] at *
  omega

/-- The values of consecutive elements; an incomplete one at the end is dropped. -/
def decodeAll (type : ElementType) (order : ByteOrder) (bytes : List UInt8) : Array Value :=
  type.decodeInto order #[] bytes

end ElementType
end TargetView
