import TargetView.Memory

/-!
# Limits and layout

The bounds that a pass keeps, and the layout of pointers in the target.  What lies outside a bound
is moved to it and is no fault.
-/
namespace TargetView

/-- The bounds of a pass and the layout of pointers. -/
structure Config where
  /-- The most often a loop runs its body. -/
  maxIterations : Nat := 65536
  /-- The most bytes of one memory read. -/
  maxReadBytes : Nat := 65536
  /-- The most elements of one read. -/
  maxReadElements : Nat := 512
  /-- The most elements of one list read. -/
  maxListElements : Nat := 1024
  /-- The width of a pointer in bytes. -/
  pointerWidth : Nat := 4
  /-- The byte order of pointers; the one of a statement is for the elements alone. -/
  pointerOrder : ByteOrder := .little
  deriving DecidableEq, Inhabited

namespace Config

/-- The bytes of a pointer: eight, or else four. -/
def pointerSize (c : Config) : Nat := if c.pointerWidth = 8 then 8 else 4

/-- A requested count, moved to the range from one to `most`; the range holds at least one. -/
def clampCount (most : Nat) (requested : Int64) : Nat :=
  if requested < 1 then 1 else min requested.toInt.toNat (max most 1)

/-- The size of a memory read, moved to the range from one to the most bytes. -/
def clampSize (c : Config) (size : Nat) : Nat := max 1 (min size (max c.maxReadBytes 1))

/-- A count of elements, lowered until one read holds them all. -/
def fitCount (c : Config) (type : ElementType) (count : Nat) : Nat :=
  min count (max (c.maxReadBytes / type.size) 1)

end Config
end TargetView
