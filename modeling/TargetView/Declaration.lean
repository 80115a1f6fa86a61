import TargetView.Text.Blank

/-!
# Declarations

A view description is a tree of declarations, each with a tag, the line it stands in, attributes
and a text.  The tags of `StatementKind` make statements; a declaration with another tag counts as
absent, together with everything below it.
-/
namespace TargetView

/-- What a declaration makes. -/
inductive StatementKind where
  | object | var | calc | read | readList | list | listOut | out | item | print | break
  deriving DecidableEq, Repr, Inhabited

namespace StatementKind

/-- All eleven kinds. -/
def all : List StatementKind :=
  [.object, .var, .calc, .read, .readList, .list, .listOut, .out, .item, .print, .break]

/-- The tag of a kind. -/
def tag : StatementKind → String
  | .object => "object"
  | .var => "var"
  | .calc => "calc"
  | .read => "read"
  | .readList => "readlist"
  | .list => "list"
  | .listOut => "listout"
  | .out => "out"
  | .item => "item"
  | .print => "print"
  | .break => "break"

/-- The kind with a tag. -/
def ofTag? (tag : String) : Option StatementKind := all.find? (·.tag == tag)

theorem ofTag?_tag (kind : StatementKind) : ofTag? kind.tag = some kind := by
  cases kind <;> decide

end StatementKind

/-- An element of a view description. -/
structure Declaration where
  tag : String
  line : Nat
  attributes : List (String × String) := []
  text : String := ""
  children : List Declaration := []

namespace Declaration

instance : Inhabited Declaration := ⟨{ tag := "", line := 0 }⟩

/-- What the declaration makes. -/
def kind? (d : Declaration) : Option StatementKind := StatementKind.ofTag? d.tag

/-- The text of an attribute. -/
def attribute? (d : Declaration) (name : String) : Option String := d.attributes.lookup name

/-- Whether an attribute is `1` or `true`. -/
def flag (d : Declaration) (name : String) : Bool :=
  match (d.attribute? name).map Text.trimmed with
  | some "1" | some "true" => true
  | _ => false

end Declaration
end TargetView
