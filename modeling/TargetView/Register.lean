import TargetView.Cache
import TargetView.Value

/-!
# Registers

Registers are read through a cache, so that one that is asked for again is not fetched again.  The
word of a register is a number if numbers hold it exactly, and a 64-bit integer otherwise.
-/
namespace TargetView

/-- Register values by name. -/
abbrev RegisterCache := Cache String Value

namespace RegisterCache

/-- The value of a register word. -/
def ofWord (bits : UInt64) : Value := .scalar (.ofWord bits)

/-- The value of a register, from the cache or from the source of register words. -/
def read {m : Type → Type} [Monad m] (c : RegisterCache) (source : String → m (Option UInt64))
    (name : String) : m (Option Value × RegisterCache) :=
  c.readOrFetch name fun name => do
    match ← source name with
    | some bits => return .valid (ofWord bits)
    | none => return .invalid

end RegisterCache
end TargetView
