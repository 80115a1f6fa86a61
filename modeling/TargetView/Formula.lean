import TargetView.Expr.FreeNames
import TargetView.Template

/-!
# Formulas

An attribute value that is evaluated is a formula: an expression, or a format text.  `Parsed` is
what its text says: the body, the findings about it, and, derived from the body, its constant, its
free identifiers and its listing.  A `Formula` is a text that is parsed when it is first needed;
once prepared it keeps the result.
-/
namespace TargetView

/-- What a text spells. -/
inductive Body where
  | expression (e : Expr)
  | template (segments : List Segment) (span : Span)
  deriving Inhabited

namespace Body

/-- The constant of a body; a format text is constant if it holds no conversion. -/
def constant? : Body → Option Constant
  | expression e => e.fold
  | template segments _ =>
    (Template.constantText? segments).map fun s => ⟨.text s, false⟩

/-- The constant that may stand for the evaluation of a body. -/
def pureConstant? (body : Body) : Option Scalar := body.constant?.bind Constant.pure?

/-- The findings about the operators of a body. -/
def survey : Body → List Diagnostic
  | expression e => e.survey.2
  | template segments _ => Template.survey segments

/-- The identifiers that the value of a body depends on. -/
def occurrences : Body → List String
  | expression e => e.occurrences
  | template segments _ =>
    segments.flatMap fun
      | .text _ => []
      | .format _ e => e.occurrences

/-- The number of nodes of a body, which itself is one. -/
def size : Body → Nat
  | expression e => e.size
  | template segments _ =>
    segments.foldl (fun n segment =>
      match segment with
      | .text _ => n
      | .format _ e => n + e.size) 1

/-- The nodes of a body, which itself is the last one. -/
def listing (body : Body) : Listing :=
  match body with
  | expression e => e.listing #[]
  | template segments span =>
    let (nodes, listed) := Template.listing #[] segments
    nodes.push ⟨.template listed, span, body.constant?⟩

end Body

/-- A text with what it spells and the findings about it, in the order in which they were made. -/
structure Parsed where
  text : String
  body : Body
  diagnostics : List Diagnostic
  deriving Inhabited

namespace Parsed

/-- Whether the text is a format text. -/
def isTemplate (p : Parsed) : Bool :=
  match p.body with
  | .template .. => true
  | .expression _ => false

/-- The errors among the findings. -/
def errors (p : Parsed) : List Diagnostic := p.diagnostics.filter (·.isError)

/-- The warnings among the findings. -/
def warnings (p : Parsed) : List Diagnostic := p.diagnostics.filter (·.isWarning)

/-- Whether one of the findings is an error. -/
def hasErrors (p : Parsed) : Bool := p.diagnostics.any (·.isError)

/-- The value of the text, if it follows from the text alone. -/
def constant? (p : Parsed) : Option Scalar := p.body.constant?.map (·.value)

/-- Whether the value is known and nothing is left to be done. -/
def isPure (p : Parsed) : Bool := p.body.constant?.any (!·.effectful)

/-- The identifiers that the value depends on, in ascending order. -/
def freeNames (p : Parsed) : List String := sortedNames p.body.occurrences

/-- The number of nodes of the text, which itself is one. -/
def size (p : Parsed) : Nat := p.body.size

/-- The nodes of the text, which itself is the last one. -/
def listing (p : Parsed) : Listing := p.body.listing

end Parsed

/-- Parses a text.  The findings about constants come behind all others. -/
def parse (text : String) : Parsed :=
  let cs := text.toList
  if Template.isFormat cs then
    let (segments, found) := Template.ofChars cs
    let body := Body.template segments (.ofRange 0 (Lexer.width cs))
    ⟨text, body, found ++ body.survey⟩
  else
    let (e, found) := Template.parseAt cs 0
    let body := Body.expression e
    ⟨text, body, found ++ body.survey⟩

/-- An attribute value that is parsed when it is first needed. -/
structure Formula where
  text : String
  /-- The parse result, once it has been needed. -/
  kept? : Option Parsed := none
  kept_eq : ∀ p ∈ kept?, p = parse text := by simp

namespace Formula

/-- The formula with a text, not parsed yet. -/
def ofText (text : String) : Formula := { text }

instance : Inhabited Formula := ⟨ofText ""⟩

/-- Whether the formula has been parsed. -/
def isPrepared (f : Formula) : Bool := f.kept?.isSome

/-- What the text spells. -/
def parsed (f : Formula) : Parsed :=
  match f.kept? with
  | some p => p
  | none => parse f.text

/-- The formula with its parse result kept. -/
def prepare (f : Formula) : Formula :=
  { text := f.text
    kept? := some f.parsed
    kept_eq := by
      intro p hp
      obtain rfl := Option.some.inj hp
      unfold parsed
      split
      · next h => exact f.kept_eq _ h
      · rfl }

theorem parsed_eq (f : Formula) : f.parsed = parse f.text := by
  unfold parsed
  split
  · next h => exact f.kept_eq _ h
  · rfl

@[simp] theorem text_prepare (f : Formula) : f.prepare.text = f.text := rfl

@[simp] theorem parsed_prepare (f : Formula) : f.prepare.parsed = f.parsed := rfl

@[simp] theorem isPrepared_prepare (f : Formula) : f.prepare.isPrepared = true := rfl

/-- Whether the text is a format text. -/
def isTemplate (f : Formula) : Bool := Template.isFormat f.text.toList

end Formula
end TargetView
