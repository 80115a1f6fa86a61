import TargetView.Span

/-!
# Diagnostics

A diagnostic is a finding about an expression text: a code, a severity, a message, labelled spans
and notes.  Findings are collected and never stop the parser; only an error makes a parse result
unusable.  The codes are grouped by their first digit: lexical findings, grammatical ones,
findings about constants, and findings about format texts.
-/
namespace TargetView

/-- What a diagnostic is about. -/
inductive ErrorCode where
  /-- A string literal without its closing quote. -/
  | e0001
  /-- A character that starts no token. -/
  | e0002
  /-- A number literal that does not denote a number. -/
  | e0003
  /-- An integer literal that does not fit in 64 bits. -/
  | e0004
  /-- A backslash before a character that needs none. -/
  | e0005
  /-- A token in a place where another was expected. -/
  | e1001
  /-- A place where an expression was expected. -/
  | e1002
  /-- A bracket without its counterpart. -/
  | e1003
  /-- A place where a member name was expected. -/
  | e1004
  /-- An assignment or update of something that cannot be assigned. -/
  | e1005
  /-- A text without tokens. -/
  | e1006
  /-- A constant division by zero. -/
  | e2001
  /-- A format bracket without its counterpart. -/
  | e3001
  deriving DecidableEq, Repr, Inhabited

namespace ErrorCode

/-- All codes with their written forms and short descriptions. -/
def table : List (ErrorCode × String × String) := [
  (.e0001, "E0001", "unterminated string literal"),
  (.e0002, "E0002", "invalid character"),
  (.e0003, "E0003", "invalid number literal"),
  (.e0004, "E0004", "inexact integer literal"),
  (.e0005, "E0005", "unknown escape sequence"),
  (.e1001, "E1001", "unexpected token"),
  (.e1002, "E1002", "expected expression"),
  (.e1003, "E1003", "unclosed delimiter"),
  (.e1004, "E1004", "expected identifier"),
  (.e1005, "E1005", "invalid assignment target"),
  (.e1006, "E1006", "empty expression"),
  (.e2001, "E2001", "constant division by zero"),
  (.e3001, "E3001", "unterminated format bracket")]

/-- The written form and the description of a code. -/
def entry (code : ErrorCode) : String × String :=
  ((table.find? (·.1 == code)).map (·.2)).getD ("", "")

/-- The written form of a code. -/
def display (code : ErrorCode) : String := code.entry.1

/-- A short name of the problem. -/
def title (code : ErrorCode) : String := code.entry.2

/-- The code with a written form. -/
def ofText? (s : String) : Option ErrorCode :=
  (table.find? (·.2.1 == s)).map (·.1)

end ErrorCode

/-- How serious a finding is, the most serious first. -/
inductive Severity where
  | error
  | warning
  | info
  deriving DecidableEq, Repr, Inhabited

namespace Severity

/-- The name of a severity. -/
def display : Severity → String
  | .error => "error"
  | .warning => "warning"
  | .info => "info"

/-- The position of a severity in the order of seriousness. -/
def rank : Severity → Nat
  | .error => 0
  | .warning => 1
  | .info => 2

end Severity

/-- A span with what there is to say about it.  The first primary label is the place of the
finding; the others point at related text. -/
structure Label where
  span : Span
  message : String
  primary : Bool
  deriving DecidableEq, Repr, Inhabited

/-- A finding about an expression text. -/
structure Diagnostic where
  code : ErrorCode
  severity : Severity
  message : String := ""
  labels : List Label := []
  notes : List String := []
  deriving DecidableEq, Repr, Inhabited

namespace Diagnostic

/-- A finding with one primary label. -/
def labelled (severity : Severity) (code : ErrorCode) (message : String) (span : Span)
    (label : String) : Diagnostic :=
  { code, severity, message, labels := [⟨span, label, true⟩] }

/-- The finding with a label on related text. -/
def relating (d : Diagnostic) (span : Span) (label : String) : Diagnostic :=
  { d with labels := d.labels ++ [⟨span, label, false⟩] }

/-- The finding with a further note. -/
def noting (d : Diagnostic) (note : String) : Diagnostic :=
  { d with notes := d.notes ++ [note] }

/-- The first primary label. -/
def primary? (d : Diagnostic) : Option Label :=
  d.labels.find? (·.primary)

/-- Whether the finding makes a parse result unusable. -/
def isError (d : Diagnostic) : Bool := d.severity == .error

/-- Whether the finding is a warning. -/
def isWarning (d : Diagnostic) : Bool := d.severity == .warning

/-- A text between backquotes. -/
def backquoted (s : String) : String := "`" ++ s ++ "`"

/-! ### The findings of the lexer -/

/-- A string literal without its closing quote. -/
def unterminatedString (span : Span) : Diagnostic :=
  labelled .error .e0001 "unterminated string literal" span "string starts here"

/-- A backslash before a character that needs none. -/
def unknownEscape (c : Char) (span : Span) : Diagnostic :=
  labelled .warning .e0005 ("unknown escape sequence " ++ backquoted (String.ofList ['\\', c])) span
    "escape kept as the literal character"

/-! ### The findings of the parser -/

/-- A token in a place where another was expected. -/
def unexpectedToken (span : Span) (expected found : String) : Diagnostic :=
  labelled .error .e1001
    ("unexpected token: expected " ++ expected ++ ", found " ++ backquoted found) span
    ("expected " ++ expected)

/-- A place where an expression was expected; an empty text stands for the end. -/
def expectedExpression (span : Span) (found : String) : Diagnostic :=
  let found := if found.isEmpty then "end of input" else found
  labelled .error .e1002 ("expected expression, found " ++ backquoted found) span
    "expected expression here"

/-- The counterpart of an opening bracket. -/
def closing : Char → Char
  | '(' => ')'
  | '[' => ']'
  | c => c

/-- A bracket without its counterpart. -/
def unclosedDelimiter (opened here : Span) (delimiter : Char) : Diagnostic :=
  (labelled .error .e1003 ("unclosed delimiter " ++ backquoted (String.singleton delimiter)) here
    ("expected " ++ backquoted (String.singleton (closing delimiter)))).relating opened
    "unclosed delimiter opened here"

/-- A place where a member name was expected. -/
def expectedMember (span : Span) (found : String) : Diagnostic :=
  labelled .error .e1004
    ("expected member name after " ++ backquoted "." ++ ", found " ++ backquoted found) span
    "expected identifier"

/-- An assignment or update of something that cannot be assigned. -/
def invalidTarget (span : Span) (symbol : String) : Diagnostic :=
  (labelled .error .e1005 ("invalid target for " ++ backquoted symbol) span
    "cannot assign to this expression").noting
    "only identifiers, member access and index expressions can be assigned"

/-- A text without tokens. -/
def emptyExpression (span : Span) : Diagnostic :=
  labelled .error .e1006 "empty expression" span "expected an expression"

/-- A character that starts no token. -/
def invalidCharacter (span : Span) (text : String) : Diagnostic :=
  labelled .error .e0002 ("invalid character " ++ backquoted text) span "not valid in an expression"

/-- A number literal that does not denote a number. -/
def invalidNumber (span : Span) (text reason : String) : Diagnostic :=
  labelled .error .e0003 ("invalid number literal " ++ backquoted text) span reason

/-- An integer literal that does not fit in 64 bits. -/
def inexactInteger (span : Span) (text : String) : Diagnostic :=
  labelled .info .e0004 ("integer literal " ++ backquoted text ++ " does not fit in 64 bits") span
    "evaluated as a rounded number"

/-! ### The findings about constants and format texts -/

/-- A constant division or remainder by zero. -/
def constantFault (span : Span) (fault symbol : String) : Diagnostic :=
  labelled .error .e2001 ("constant " ++ fault) span (backquoted symbol ++ " by a constant zero")

/-- A format bracket without its counterpart. -/
def unterminatedFormat (span : Span) (spec : String) : Diagnostic :=
  labelled .warning .e3001 ("unterminated " ++ backquoted (spec ++ "[") ++ " in format text") span
    "the rest of the text is used as the expression"

end Diagnostic
end TargetView
