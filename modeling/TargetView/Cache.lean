import Std.Data.ExtTreeMap

/-!
# Caches

A cache keeps a value for each key, whether that value is still valid, and how much it is used: an
access count between zero and one hundred.  Reading raises the count and writing lowers it; a new
written record starts at ten, a new fetched one at zero, and invalidating one record clears its
count.  The cache never drops a record by itself.

`readOrFetch` answers from a valid record and otherwise asks a fetch action once.  What the fetch
says is one of three things (`Fetched`): a value, that the key is gone, or nothing; in the last case
the cache stays as it is.
-/
namespace TargetView

/-! ### Access counts -/

/-- A kind of access to a record. -/
inductive Access where
  | read | write | set | clear
  deriving DecidableEq, Repr, Inhabited

/-- How much a record is used. -/
structure AccessCount where
  val : Nat
  val_le : val ≤ 100 := by omega
  deriving DecidableEq

namespace AccessCount

/-- The count of a record that has never been accessed. -/
def zero : AccessCount := { val := 0 }

/-- The count of a new record. -/
def fresh : AccessCount := { val := 10 }

/-- The count after an access. -/
def apply (c : AccessCount) : Access → AccessCount
  | .read => { val := min (c.val + 1) 100 }
  | .write => { val := c.val - 1, val_le := Nat.le_trans (Nat.sub_le ..) c.val_le }
  | .set => fresh
  | .clear => zero

end AccessCount

/-! ### Records -/

/-- What a fetch says about a key. -/
inductive Fetched (ν : Type) where
  | valid (v : ν)
  | invalid
  | remove
  deriving Inhabited

/-- A cached value. -/
structure CacheRecord (ν : Type) where
  value : ν
  count : AccessCount
  valid : Bool

namespace CacheRecord

variable {ν : Type}

/-- The record of a value that has just been written for the first time. -/
def new (v : ν) : CacheRecord ν := ⟨v, .fresh, true⟩

/-- The record with a new value, counted as a write. -/
def write (r : CacheRecord ν) (v : ν) : CacheRecord ν := ⟨v, r.count.apply .write, true⟩

/-- The record after a read. -/
def read (r : CacheRecord ν) : CacheRecord ν := { r with count := r.count.apply .read }

/-- The record, no longer valid. -/
def stale (r : CacheRecord ν) : CacheRecord ν := { r with valid := false }

/-- The record, no longer valid and with a cleared count. -/
def invalidate (r : CacheRecord ν) : CacheRecord ν :=
  { r with valid := false, count := r.count.apply .clear }

end CacheRecord

/-! ### The cache -/

/-- An order in which keys are gone through; a cache promises none. -/
structure KeyOrder (κ : Type) where
  arrange : List κ → List κ
  perm (keys : List κ) : (arrange keys).Perm keys

/-- Keys are gone through as they are listed. -/
def KeyOrder.asListed {κ : Type} : KeyOrder κ := ⟨id, fun _ => .refl _⟩

/-- Records by key. -/
structure Cache (κ ν : Type) [Ord κ] where
  records : Std.ExtTreeMap κ (CacheRecord ν) := ∅

namespace Cache

variable {κ ν : Type} [Ord κ] [Std.TransOrd κ]

/-- The cache without records. -/
def empty : Cache κ ν := {}

/-- Stores a value for a key. -/
def write (c : Cache κ ν) (key : κ) (v : ν) : Cache κ ν :=
  ⟨c.records.alter key fun
    | some r => some (r.write v)
    | none => some (.new v)⟩

/-- Stores what a fetch says about a key. -/
def settle (c : Cache κ ν) (key : κ) : Fetched ν → Cache κ ν
  | .valid v =>
    ⟨c.records.alter key fun
      | some r => some (r.write v)
      | none => some ⟨v, .zero, true⟩⟩
  | .remove => ⟨c.records.erase key⟩
  | .invalid => c

/-- The value for a key.  A valid record answers itself; otherwise the fetch is asked. -/
def readOrFetch {m : Type → Type} [Monad m] (c : Cache κ ν) (key : κ) (fetch : κ → m (Fetched ν)) :
    m (Option ν × Cache κ ν) :=
  match c.records[key]?.filter (·.valid) with
  | some r => pure (some r.value, ⟨c.records.insert key r.read⟩)
  | none => do
    let fetched ← fetch key
    let value :=
      match fetched with
      | .valid v => some v
      | _ => none
    return (value, c.settle key fetched)

/-- Makes every record stale. -/
def invalidateAll (c : Cache κ ν) : Cache κ ν := ⟨c.records.map fun _ r => r.stale⟩

/-- Makes the record of a key stale and clears its count. -/
def invalidate (c : Cache κ ν) (key : κ) : Cache κ ν :=
  ⟨c.records.modify key (·.invalidate)⟩

/-- Stores what a refresh says about a key that has a record. -/
def refresh (c : Cache κ ν) (key : κ) : Fetched ν → Cache κ ν
  | .valid v => ⟨c.records.modify key (·.write v)⟩
  | .invalid => ⟨c.records.modify key (·.stale)⟩
  | .remove => ⟨c.records.erase key⟩

/-- Asks about every key that has a record, one after the other in some order. -/
def refreshAll {m : Type → Type} [Monad m] (c : Cache κ ν) (order : KeyOrder κ)
    (fetch : κ → m (Fetched ν)) : m (Cache κ ν) :=
  (order.arrange c.records.keys).foldlM (fun c key => return c.refresh key (← fetch key)) c

/-- The value of a record, valid or not. -/
def lastKnown? (c : Cache κ ν) (key : κ) : Option ν := c.records[key]?.map (·.value)

/-- The access count of a record. -/
def count? (c : Cache κ ν) (key : κ) : Option Nat := c.records[key]?.map (·.count.val)

/-- Whether a record is valid. -/
def valid? (c : Cache κ ν) (key : κ) : Option Bool := c.records[key]?.map (·.valid)

/-- Whether a key has a record. -/
def contains (c : Cache κ ν) (key : κ) : Bool := c.records.contains key

/-- Drops the record of a key and tells its value. -/
def remove (c : Cache κ ν) (key : κ) : Option ν × Cache κ ν :=
  (c.lastKnown? key, ⟨c.records.erase key⟩)

/-- Drops every record. -/
def clear (_ : Cache κ ν) : Cache κ ν := empty

/-- The number of records. -/
def size (c : Cache κ ν) : Nat := c.records.size

/-- Whether there are no records. -/
def isEmpty (c : Cache κ ν) : Bool := c.records.isEmpty

end Cache
end TargetView
