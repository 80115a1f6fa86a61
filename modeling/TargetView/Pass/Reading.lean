import TargetView.Pass

/-!
# Reading target memory in a pass

A read finds its address, reads the bytes of its elements and binds its name to them: to the element
itself if there is one, otherwise to an array.  A list read always binds an array.  Its elements
stand one behind the other, or each leads to the next by a pointer; such a chain ends at the null
pointer, at memory that cannot be read, or at the greatest count.

A read that is done once and for all is marked when it has bound its name.
-/
namespace TargetView.Pass

variable {τ : Type} (setting : Setting τ)

/-- The bytes at an address, as many as one read may have. -/
def readMemory (address : UInt64) (size : Nat) : Pass τ (Option (List UInt8)) :=
  onTarget (setting.target.read address (setting.config.clampSize size))

/-- The pointer at an address. -/
def readPointer (address : UInt64) : Pass τ (Option UInt64) :=
  return (← readMemory setting address setting.config.pointerSize).map
    setting.config.pointerOrder.word

/-- The address of a symbol, zero without one. -/
def symbolAddress? : Option String → Pass τ (Option UInt64)
  | none => pure (some 0)
  | some name => onTarget (setting.target.symbolAddress name)

/-- The offset of a source, zero without one. -/
def offset? : Option Formula → Pass τ (Option Int64)
  | none => pure (some 0)
  | some f => int? setting f

/-- Where the elements of a source start: at the symbol and the offset, or where the pointer at that
place leads to. -/
def startAddress (source : Source) : Pass τ (Option UInt64) := do
  let some base ← symbolAddress? setting source.symbol? | return none
  let some offset ← offset? setting source.offset? | return none
  let address := base + offset.toUInt64
  if source.based then readPointer setting address else return some address

/-- The bytes of consecutive elements. -/
def readElements (type : ElementType) (address : UInt64) (count : Nat) :
    Pass τ (Option (List UInt8)) :=
  readMemory setting address (count * type.size)

/-- The elements of a chain from an address on, at most `count` of them, behind those found. -/
def followLinks (type : ElementType) (order : ByteOrder) (next : Int64) (found : Array Value)
    (count : Nat) (address : UInt64) : Pass τ (Array Value) :=
  match count with
  | 0 => pure found
  | count + 1 =>
    if address == 0 then pure found
    else do
      let some bytes ← readMemory setting address type.size | return found
      let found := found.push (type.decode order bytes)
      let some link ← readPointer setting (address + next.toUInt64) | return found
      followLinks type order next found count link

/-- Binds a name, unless it is empty. -/
def bind (name : String) (v : Value) : Pass τ Unit :=
  if name.isEmpty then pure () else setSymbol name v

/-- Binds a name to an array, unless it is empty. -/
def bindArray (name : String) (items : Array Value) : Pass τ Unit :=
  if name.isEmpty then pure () else discard <| onStore fun s => s.setArray name items

/-- Runs a read unless it has been done once and for all.  The read says whether it bound its
name. -/
def unlessDone (id : Nat) (once : Bool) (read : Pass τ Bool) : Pass τ Unit := do
  unless once && (← isDone id) do
    if (← read) && once then markDone id

/-- Fetches the elements of a read and binds its name to them, if possible. -/
def fetch (r : Read) : Pass τ Bool := do
  let some address ← startAddress setting r.source | return false
  let requested ← intOr setting 1 r.count?
  let count := setting.config.fitCount r.source.type
    (Config.clampCount setting.config.maxReadElements requested)
  let some bytes ← readElements setting r.source.type address count | return false
  let items := r.source.type.decodeAll r.source.order bytes
  if count = 1 then bind r.name (items.back?.getD .undefined)
  else bindArray r.name items
  return true

/-- Reads one element or several. -/
def read (id : Nat) (r : Read) : Pass τ Unit :=
  unlessDone id r.source.once (fetch setting r)

/-- How many elements a list read asks for.  A chain without a count runs to its end. -/
def listCount (r : ListRead) : Pass τ Nat := do
  match r.count? with
  | some count =>
    return Config.clampCount setting.config.maxListElements ((← int? setting count).getD 1)
  | none => return if r.next?.isSome then setting.config.maxListElements else 1

/-- Fetches the elements of a list read and binds its name to them, if possible. -/
def fetchList (r : ListRead) : Pass τ Bool := do
  let some start ← startAddress setting r.source | return false
  let count ← listCount setting r
  match r.next? with
  | some next =>
    let some next ← int? setting next | return false
    let items ← followLinks setting r.source.type r.source.order next #[] count start
    bindArray r.name items
  | none =>
    let count := setting.config.fitCount r.source.type count
    let some bytes ← readElements setting r.source.type start count | return false
    bindArray r.name (r.source.type.decodeAll r.source.order bytes)
  return true

/-- Reads a list of elements. -/
def readList (id : Nat) (r : ListRead) : Pass τ Unit :=
  unlessDone id r.source.once (fetchList setting r)

end TargetView.Pass
