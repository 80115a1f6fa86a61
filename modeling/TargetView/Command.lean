import TargetView.Context
import TargetView.Diagnostic.Report
import TargetView.Text.Quoted

/-!
# Commands on single expressions

The three commands for a look at one expression: its tokens, a summary of its parse, and its value
on an empty store in which some symbols may be set beforehand.  Each gives the text to show.
-/
namespace TargetView.Command

/-! ### Tokens -/

/-- One token in a listing. -/
def tokenLine (t : Token) : String :=
  "  " ++ t.kind.name ++ " " ++ Text.quoted t.text ++ " @ " ++ t.span.display ++ "\n"

/-- The report of some diagnostics below a listing, if there are any. -/
def findings (ds : List Diagnostic) (source : String) : String :=
  if ds.isEmpty then "" else "\n" ++ Diagnostic.renderAll ds source false

/-- The tokens of a text, one in a line. -/
def tokens (text : String) : String :=
  let lexed := Lexer.lex text
  "Tokens (" ++ toString lexed.tokens.length ++ "):\n" ++
    String.join (lexed.tokens.map tokenLine) ++ findings lexed.diagnostics text

/-! ### Parse summaries -/

/-- A constant with its kind. -/
def constantText : Scalar → String
  | .number x => "Number(" ++ Decimal.listing x ++ ")"
  | .int v => "Int(" ++ toString v.toInt ++ ")"
  | .text s => "Str(" ++ Text.quoted s ++ ")"

/-- What there is to say about the parse of a text. -/
def summary (text : String) : String :=
  let p := parse text
  "Parse result for " ++ Text.quoted text ++ ":\n" ++
    "  Nodes: " ++ toString p.size ++ "\n" ++
    "  Printf: " ++ toString p.isTemplate ++ "\n" ++
    "  Constant: " ++ p.constant?.elim "none" constantText ++ "\n" ++
    "  Symbols: [" ++ ", ".intercalate p.freeNames ++ "]\n" ++
    "  Diagnostics: " ++ toString p.diagnostics.length ++ "\n" ++
    findings p.diagnostics text

/-! ### Evaluation -/

/-- A symbol to be set, with the expression of its value. -/
structure Assignment where
  name : String
  text : String
  deriving DecidableEq, Inhabited

/-- A text that is no assignment. -/
structure NoAssignment where
  text : String
  deriving DecidableEq, Inhabited

/-- The message about a text that is no assignment. -/
def NoAssignment.message (e : NoAssignment) : String :=
  "expected `name=value`, found `" ++ e.text ++ "`"

/-- A name and a value around the first equals sign, without the blanks around them.  The name must
not be empty. -/
def Assignment.ofText (text : String) : Except NoAssignment Assignment :=
  let cs := text.toList
  let name := Text.trim (cs.takeWhile (· != '='))
  match cs.dropWhile (· != '=') with
  | _ :: value =>
    if name.isEmpty then .error ⟨text⟩
    else .ok ⟨String.ofList name, String.ofList (Text.trim value)⟩
  | [] => .error ⟨text⟩

/-- What an evaluation does besides showing the value. -/
structure Options where
  /-- The symbols set beforehand, in order. -/
  assignments : List Assignment := []
  /-- Whether the symbols are listed afterwards. -/
  listSymbols : Bool := false
  deriving Inhabited

/-- The flag that sets a symbol, up to its value. -/
def setFlag : String := "--set="

/-- Applies an argument that is a flag.  The answer says whether it is one. -/
def Options.apply (o : Options) (arg : String) : Except NoAssignment (Bool × Options) :=
  if setFlag.toList.isPrefixOf arg.toList then do
    let a ← Assignment.ofText (String.ofList (arg.toList.drop setFlag.length))
    return (true, { o with assignments := o.assignments ++ [a] })
  else if arg == "--symbols" then .ok (true, { o with listSymbols := true })
  else .ok (false, o)

/-- Why an evaluation shows no value. -/
inductive Failure where
  /-- A text does not parse. -/
  | unparsed (p : Parsed)
  /-- The value of a symbol cannot be evaluated. -/
  | notSet (name : String) (fault : Fault)
  /-- The expression has no value. -/
  | noValue (text : String)
  /-- The expression needs a capability that an empty store lacks. -/
  | missing (m : MissingIntrinsic)

namespace Failure

/-- The message of a failure. -/
def message : Failure → String
  | unparsed p => Diagnostic.renderAll p.diagnostics p.text false
  | notSet name fault => "cannot set `" ++ name ++ "`: " ++ fault.message
  | noValue text => Text.quoted text ++ " could not be evaluated"
  | missing m => m.message

end Failure

/-- An error-free parse. -/
def parseClean (text : String) : Except Failure Parsed :=
  let p := parse text
  if p.hasErrors then .error (.unparsed p) else .ok p

/-- Sets a symbol to the value of its expression. -/
def assign (c : Context Store) (a : Assignment) : Except Failure (Context Store) := do
  let p ← parseClean a.text
  match c.evaluate .ofStore p with
  | (.ok v, c) => return { c with state := c.state.set a.name v }
  | (.error fault, _) => throw (.notSet a.name fault)

/-- The value of a parsed text. -/
def valueOf (c : Context Store) (p : Parsed) : Except Failure (Value × Store) :=
  match c.evaluateIn .ofStore none p with
  | (.ok (some v), c) => .ok (v, c.state)
  | (.ok none, _) => .error (.noValue p.text)
  | (.error m, _) => .error (.missing m)

/-- The symbols of a store, each in a line of its own. -/
def symbolLines (s : Store) : String :=
  String.join (s.globals.toList.map fun (name, v) => "\n  " ++ name ++ " = " ++ s.describe v)

/-- The value of a text, with the symbols if they are wanted. -/
def evaluate (text : String) (o : Options) : Except Failure String := do
  let c ← o.assignments.foldlM assign ⟨{}, none⟩
  let p ← parseClean text
  let (v, s) ← valueOf c p
  return s.describe v ++ (if o.listSymbols then symbolLines s else "")

end TargetView.Command
