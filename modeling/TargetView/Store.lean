import Std.Data.ExtTreeMap
import TargetView.Value.Key

/-!
# The symbol store

A store holds the global symbols and the containers.  A container is an object, which maps member
names to values, or an array.  One container may be *active*: its members shadow the globals of
the same name, and a name that the active object has is written there.

A key that is an index names the member spelled by its digits when the container is an object.  An
array takes indices below `maxLength`; writing behind its end fills the gap with `undefined`.
-/
namespace TargetView

/-- Values by name. -/
abbrev Fields := Std.ExtTreeMap String Value

/-- An object or an array. -/
inductive Container where
  | object (fields : Fields)
  | array (items : Array Value)

namespace Container

/-- Indices from here on are not written. -/
def maxLength : Nat := 1 <<< 20

/-- Whether the container is an array. -/
def isArray : Container → Bool
  | array _ => true
  | object _ => false

/-- The fields of an object. -/
def fields? : Container → Option Fields
  | object fields => some fields
  | array _ => none

/-- The elements of an array. -/
def items? : Container → Option (Array Value)
  | array items => some items
  | object _ => none

/-- The value at a key.  An array has its length as a member. -/
def get? : Container → Key → Option Value
  | object fields, key => fields[key.display]?
  | array items, .index i => if 0 ≤ i.toInt then items[i.toInt.toNat]? else none
  | array items, .name s =>
    if s == "length" then some (.number (Binary64.ofNat items.size)) else none

/-- Whether a value can be written at a key. -/
def accepts : Container → Key → Bool
  | object _, _ => true
  | array _, .index i => 0 ≤ i.toInt && i.toInt < maxLength
  | array _, .name _ => false

/-- The items with a value at a position; a gap before it is filled with `undefined`. -/
def setItem (items : Array Value) (i : Nat) (v : Value) : Array Value :=
  if i < items.size then items.setIfInBounds i v
  else (items ++ Array.replicate (i - items.size) Value.undefined).push v

/-- The container with a value at a key that it accepts. -/
def set (c : Container) (key : Key) (v : Value) : Container :=
  match c with
  | object fields => object (fields.insert key.display v)
  | array items =>
    match key with
    | .index i => array (setItem items i.toInt.toNat v)
    | .name _ => array items

end Container

/-- Global symbols and containers. -/
structure Store where
  globals : Fields := ∅
  containers : Array Container := #[]
  deriving Inhabited

namespace Store

/-! ### Globals -/

/-- The value of a global. -/
def get? (s : Store) (name : String) : Option Value := s.globals[name]?

/-- The store with a value bound to a global. -/
def set (s : Store) (name : String) (v : Value) : Store :=
  let ⟨globals, containers⟩ := s
  ⟨globals.insert name v, containers⟩

/-- The store without a global. -/
def erase (s : Store) (name : String) : Store :=
  let ⟨globals, containers⟩ := s
  ⟨globals.erase name, containers⟩

/-- The names of the globals in ascending order. -/
def names (s : Store) : List String := s.globals.keys

/-! ### Containers -/

/-- The elements of an array. -/
def elements? (s : Store) (ref : Ref) : Option (Array Value) :=
  s.containers[ref]?.bind (·.items?)

/-- Whether a container is an array. -/
def isArray (s : Store) (ref : Ref) : Bool :=
  s.containers[ref]?.any (·.isArray)

/-- Adds a container. -/
def push (s : Store) (c : Container) : Ref × Store :=
  let ⟨globals, containers⟩ := s
  (containers.size, ⟨globals, containers.push c⟩)

/-- Adds an empty object. -/
def newObject (s : Store) : Ref × Store := s.push (.object ∅)

/-- Adds an array with some elements. -/
def newArray (s : Store) (items : Array Value) : Ref × Store := s.push (.array items)

/-- Binds a global to an array with some elements.  If it is bound to an array already, that one
gets the elements and stays bound. -/
def setArray (s : Store) (name : String) (items : Array Value) : Ref × Store :=
  match (s.get? name).bind (·.ref?) with
  | some ref =>
    if s.isArray ref then
      let ⟨globals, containers⟩ := s
      (ref, ⟨globals, containers.setIfInBounds ref (.array items)⟩)
    else bindNew s
  | none => bindNew s
where
  /-- Binds the global to an array of its own. -/
  bindNew (s : Store) : Ref × Store :=
    let (ref, s) := s.newArray items
    (ref, s.set name (.container ref))

/-- The value at a key of a container. -/
def readKey (s : Store) (ref : Ref) (key : Key) : Option Value :=
  s.containers[ref]?.bind (·.get? key)

/-- Whether a value can be written at a key of a container. -/
def acceptsKey (s : Store) (ref : Ref) (key : Key) : Bool :=
  s.containers[ref]?.any (·.accepts key)

/-- Writes at a key of a container, if the container is there and accepts the key. -/
def writeKey (s : Store) (ref : Ref) (key : Key) (v : Value) : Bool × Store :=
  if s.acceptsKey ref key then
    let ⟨globals, containers⟩ := s
    (true, ⟨globals, containers.modify ref (·.set key v)⟩)
  else (false, s)

/-! ### Names under an active container -/

/-- The value of a name as a member of the active object. -/
def member? (s : Store) (scope : Option Ref) (name : String) : Option Value :=
  (scope.bind (s.containers[·]?)).bind (·.fields?) |>.bind (·[name]?)

/-- The value of a name: that of the active object before that of the global. -/
def readSymbol (s : Store) (scope : Option Ref) (name : String) : Option Value :=
  (s.member? scope name).or (s.get? name)

/-- Whether a name has a value. -/
def symbolExists (s : Store) (scope : Option Ref) (name : String) : Bool :=
  (s.member? scope name).isSome || s.globals.contains name

/-- Writes a name: at the active object if it has that member, otherwise at the global. -/
def writeSymbol (s : Store) (scope : Option Ref) (name : String) (v : Value) : Store :=
  match scope with
  | some ref =>
    if (s.member? scope name).isSome then
      let ⟨globals, containers⟩ := s
      ⟨globals, containers.modify ref (·.set (.name name) v)⟩
    else s.set name v
  | none => s.set name v

/-! ### Description -/

/-- Containers nested deeper than this are not described. -/
def maxDepth : Nat := 8

/-- The text of a value with the contents of containers, which may be nested `depth` deep. -/
def describeWithin (s : Store) : Nat → Value → String
  | depth, v =>
    match v.ref?.bind (s.containers[·]?) with
    | none => v.display
    | some c =>
      match depth with
      | 0 => "..."
      | depth + 1 =>
        match c with
        | .array items =>
          "[" ++ ", ".intercalate (items.toList.map (s.describeWithin depth)) ++ "]"
        | .object fields =>
          let entries := fields.toList.map fun (name, v) =>
            name ++ ": " ++ s.describeWithin depth v
          "\x7b" ++ ", ".intercalate entries ++ "\x7d"

/-- The text of a value with the contents of containers, object members in ascending order. -/
def describe (s : Store) (v : Value) : String := s.describeWithin maxDepth v

end Store
end TargetView
