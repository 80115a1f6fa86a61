import TargetView.Calculation
import TargetView.Declaration
import TargetView.Formula
import TargetView.Memory

/-!
# Statements

What the declarations of a view description do.  Groups and rows show something; variables,
calculations and reads change symbols; a loop repeats what is below it; a breakpoint is reported.
The attributes that are evaluated are formulas.
-/
namespace TargetView

/-- The tags of groups. -/
inductive GroupKind where
  | object | out | listOut
  deriving DecidableEq, Repr, Inhabited

/-- The tags of rows. -/
inductive RowKind where
  | item | print
  deriving DecidableEq, Repr, Inhabited

/-- A group of rows, with a value of its own. -/
structure Group where
  kind : GroupKind
  name? : Option String
  value? : Option Formula

/-- A row with a label and a value, both of them texts that may be format texts. -/
structure LabelledRow where
  kind : RowKind
  property? : Option Formula
  value? : Option Formula

/-- A variable of the view. -/
structure Variable where
  name : String
  value? : Option Formula
  type? : Option ElementType
  size? : Option Formula

/-- Where elements are read, and how. -/
structure Source where
  type : ElementType
  symbol? : Option String
  offset? : Option Formula
  order : ByteOrder
  /-- Whether the address holds a pointer to the elements. -/
  based : Bool
  /-- Whether elements that have been read are kept from then on. -/
  once : Bool

/-- A read of one element or of several consecutive ones. -/
structure Read where
  name : String
  source : Source
  count? : Option Formula

/-- A read of a list of elements: consecutive ones, or linked by pointers at an offset. -/
structure ListRead where
  name : String
  source : Source
  count? : Option Formula
  next? : Option Formula

/-- A repetition, up to a limit or as long as a condition holds. -/
structure Loop where
  name? : Option String
  start? : Option Formula
  limit? : Option Formula
  while? : Option Formula

/-- A limit and a condition exclude each other. -/
def Loop.isConsistent (l : Loop) : Bool := !(l.limit?.isSome && l.while?.isSome)

/-- What a declaration does. -/
inductive Statement where
  | group (g : Group)
  | var (v : Variable)
  | calc (formulas : List Formula)
  | read (r : Read)
  | readList (r : ListRead)
  | list (l : Loop)
  | row (r : LabelledRow)
  | breakpoint (label? : Option String)

namespace GroupKind

/-- The statement kind of a group. -/
def toStatementKind : GroupKind → StatementKind
  | .object => .object
  | .out => .out
  | .listOut => .listOut

end GroupKind

namespace RowKind

/-- The statement kind of a row. -/
def toStatementKind : RowKind → StatementKind
  | .item => .item
  | .print => .print

end RowKind

namespace Group

/-- The name of a group without a name is its tag. -/
def displayName (g : Group) : String := g.name?.getD g.kind.toStatementKind.tag

end Group

namespace Declaration

/-- The formula of an attribute. -/
def formula? (d : Declaration) (name : String) : Option Formula :=
  (d.attribute? name).map fun text => (Formula.ofText text).prepare

/-- The element type that an attribute names. -/
def type? (d : Declaration) : Option ElementType :=
  (d.attribute? "type").bind ElementType.ofName?

/-- The name attribute, empty if there is none. -/
def name (d : Declaration) : String := (d.attribute? "name").getD ""

/-- Where the declaration reads.  Elements of no known type are 32-bit words. -/
def source (d : Declaration) : Source where
  type := d.type?.getD .u32
  symbol? := d.attribute? "symbol"
  offset? := d.formula? "offset"
  order := .ofAttribute (d.attribute? "endian")
  based := d.flag "based"
  once := d.flag "const"

/-- What the declaration does, if it is of this kind. -/
def statementOf (d : Declaration) : StatementKind → Statement
  | .object => .group ⟨.object, d.attribute? "name", d.formula? "value"⟩
  | .out => .group ⟨.out, d.attribute? "name", d.formula? "value"⟩
  | .listOut => .group ⟨.listOut, d.attribute? "name", d.formula? "value"⟩
  | .var => .var ⟨d.name, d.formula? "value", d.type?, d.formula? "size"⟩
  | .calc => .calc ((Calculation.split d.text).map fun text => (Formula.ofText text).prepare)
  | .read => .read ⟨d.name, d.source, d.formula? "size"⟩
  | .readList => .readList ⟨d.name, d.source, d.formula? "count", d.formula? "next"⟩
  | .list =>
    .list ⟨d.attribute? "name", d.formula? "start", d.formula? "limit", d.formula? "while"⟩
  | .item => .row ⟨.item, d.formula? "property", d.formula? "value"⟩
  | .print => .row ⟨.print, d.formula? "property", d.formula? "value"⟩
  | .break => .breakpoint (d.attribute? "label")

/-- What the declaration does. -/
def statement? (d : Declaration) : Option Statement := d.kind?.map d.statementOf

end Declaration

namespace Statement

/-- The kind of a statement. -/
def kind : Statement → StatementKind
  | .group g => g.kind.toStatementKind
  | .var _ => .var
  | .calc _ => .calc
  | .read _ => .read
  | .readList _ => .readList
  | .list _ => .list
  | .row r => r.kind.toStatementKind
  | .breakpoint _ => .break

/-- Whether the statement is a breakpoint. -/
def isBreak : Statement → Bool
  | .breakpoint _ => true
  | _ => false

theorem kind_statementOf (d : Declaration) (kind : StatementKind) :
    (d.statementOf kind).kind = kind := by
  cases kind <;> rfl

end Statement
end TargetView
