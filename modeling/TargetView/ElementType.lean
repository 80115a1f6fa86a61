import TargetView.Text.Blank

/-!
# Element types of the target

The types of memory elements: integers of one to eight bytes, with or without a sign, and the two
floating-point formats.  `ofName?` knows their C names and some common abbreviations.
-/
namespace TargetView

/-- The type of one element in target memory. -/
inductive ElementType where
  | u8 | i8 | u16 | i16 | u32 | i32 | u64 | i64 | f32 | f64
  deriving DecidableEq, Repr, Inhabited

namespace ElementType

/-- The names of each type. -/
def names : List (ElementType × List String) := [
  (.u8, ["uint8_t", "unsigned char", "uchar", "bool"]),
  (.i8, ["int8_t", "char", "signed char"]),
  (.u16, ["uint16_t", "unsigned short", "ushort"]),
  (.i16, ["int16_t", "short", "signed short"]),
  (.u32, ["uint32_t", "unsigned int", "unsigned", "unsigned long", "uint"]),
  (.i32, ["int32_t", "int", "signed int", "signed", "long"]),
  (.u64, ["uint64_t", "unsigned long long"]),
  (.i64, ["int64_t", "long long", "signed long long"]),
  (.f32, ["float"]),
  (.f64, ["double"])]

/-- The type with a name.  Blanks at the ends do not count, and any run of blanks between two
words stands for one space. -/
def ofName? (name : String) : Option ElementType :=
  let wanted := Text.normalized name
  (names.find? fun entry => entry.2.contains wanted).map (·.1)

/-- The width of an element in bytes. -/
def size : ElementType → Nat
  | .u8 | .i8 => 1
  | .u16 | .i16 => 2
  | .u32 | .i32 | .f32 => 4
  | .u64 | .i64 | .f64 => 8

/-- Whether the type is a signed integer. -/
def isSigned : ElementType → Bool
  | .i8 | .i16 | .i32 | .i64 => true
  | _ => false

/-- Whether the type is a floating-point format. -/
def isFloat : ElementType → Bool
  | .f32 | .f64 => true
  | _ => false

/-- The unsigned integer type of a width, for memory of which only the width is known. -/
def unsignedOfSize? : Nat → Option ElementType
  | 1 => some .u8
  | 2 => some .u16
  | 4 => some .u32
  | 8 => some .u64
  | _ => none

/-- The short name of a type. -/
def tag : ElementType → String
  | .u8 => "U8" | .i8 => "I8" | .u16 => "U16" | .i16 => "I16" | .u32 => "U32"
  | .i32 => "I32" | .u64 => "U64" | .i64 => "I64" | .f32 => "F32" | .f64 => "F64"

theorem size_pos (t : ElementType) : 0 < t.size := by
  cases t <;> decide

end ElementType
end TargetView
