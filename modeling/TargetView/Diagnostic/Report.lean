import TargetView.Diagnostic
import TargetView.Token.Lexer

/-!
# Reports

A diagnostic is shown with the line of the source that holds its primary span and with carets
under that span; `render` writes one diagnostic so, `renderAll` a list of them with a count at the
end.  `display` writes a diagnostic without its source.

The source is cut at byte offsets, which fails within a character (`slice?`): a diagnostic can be
shown only with the source that it is about (`render?`).
-/
namespace TargetView.Diagnostic

open Lexer (width)

/-! ### Places in a source -/

/-- The characters in the first `n` bytes, and those behind them; none if a character extends over
that place or the text ends before it. -/
def splitAt? : Nat → List Char → Option (List Char × List Char)
  | 0, cs => some ([], cs)
  | _ + 1, [] => none
  | n + 1, c :: rest =>
    if c.utf8Size ≤ n + 1 then
      (splitAt? (n + 1 - c.utf8Size) rest).map fun (before, after) => (c :: before, after)
    else none

/-- The characters from byte `i` up to byte `j`; none if these are not two places between
characters in this order. -/
def slice? (i j : Nat) (cs : List Char) : Option (List Char) :=
  if i ≤ j then do
    let (_, rest) ← splitAt? i cs
    let (inner, _) ← splitAt? (j - i) rest
    return inner
  else none

/-- A line of the source with the column and width of a marked part, in characters. -/
structure Excerpt where
  line : List Char
  column : Nat
  width : Nat
  deriving DecidableEq, Repr

/-- The line that holds the start of a span.  The marked part ends with the span or the line and
is at least one character wide.  There is no line if the span starts within a character. -/
def excerpt? (source : List Char) (span : Span) : Option Excerpt := do
  let offset := min span.start (width source)
  let before ← slice? 0 offset source
  let after ← slice? offset (width source) source
  let lineStart := offset - width (before.reverse.takeWhile (· != '\n'))
  let lineEnd := offset + width (after.takeWhile (· != '\n'))
  let line ← slice? lineStart lineEnd source
  let head ← slice? lineStart offset source
  let marked := slice? offset (min span.stop lineEnd) source
  return { line, column := head.length, width := max 1 (marked.elim 0 List.length) }

/-! ### Rendering -/

/-- The escape sequence that starts the colour of a severity. -/
def colour : Severity → String
  | .error => "\x1b[1;31m"
  | .warning => "\x1b[1;33m"
  | .info => "\x1b[1;36m"

/-- The escape sequence that ends a colour. -/
def plain : String := "\x1b[0m"

/-- A text in the colour of a severity, if colours are wanted. -/
def painted (colours : Bool) (severity : Severity) (text : String) : String :=
  if colours then colour severity ++ text ++ plain else text

/-- The severity with the code, as in the first line of every report. -/
def heading (d : Diagnostic) : String :=
  d.severity.display ++ "[" ++ d.code.display ++ "]"

/-- The excerpt below a report, with carets and the text of the label. -/
def Excerpt.display (e : Excerpt) (d : Diagnostic) (label : Label) (colours : Bool) : String :=
  let carets := painted colours d.severity (String.ofList (List.replicate e.width '^'))
  "\n  | " ++ String.ofList e.line ++ "\n  | " ++ String.ofList (List.replicate e.column ' ') ++
    carets ++ (if label.message.isEmpty then "" else " " ++ label.message)

/-- A report around what is shown of the source. -/
def report (d : Diagnostic) (snippet : String) (colours : Bool) : String :=
  let message := if d.message.isEmpty then d.code.title else d.message
  let notes := d.notes.map ("\n  = note: " ++ ·)
  painted colours d.severity d.heading ++ ": " ++ message ++ snippet ++ String.join notes

/-- One diagnostic with an excerpt of its source; none if there is no excerpt to show. -/
def render? (d : Diagnostic) (source : String) (colours : Bool) : Option String :=
  match d.primary? with
  | some label => do
    let e ← excerpt? source.toList label.span
    return d.report (e.display d label colours) colours
  | none => some (d.report "" colours)

/-- A count with its noun. -/
def counted (n : Nat) (noun : String) : String :=
  toString n ++ " " ++ noun ++ (if n = 1 then "" else "s")

/-- The counts of errors and warnings if there are any. -/
def summary (ds : List Diagnostic) : String :=
  let errors := ds.countP (·.isError)
  let warnings := ds.countP (·.isWarning)
  if errors + warnings = 0 then ""
  else counted errors "error" ++ ", " ++ counted warnings "warning"

/-- Some diagnostics with blank lines behind them, and the counts of errors and warnings if there
are any. -/
def renderAll? (ds : List Diagnostic) (source : String) (colours : Bool) : Option String := do
  let reports ← ds.mapM (·.render? source colours)
  return String.join (reports.map (· ++ "\n\n")) ++ summary ds

/-- The report, where the span of the diagnostic is one of the source. -/
def render (d : Diagnostic) (source : String) (colours : Bool) : String :=
  (d.render? source colours).getD ""

/-- The reports, where the spans of the diagnostics are some of the source. -/
def renderAll (ds : List Diagnostic) (source : String) (colours : Bool) : String :=
  (renderAll? ds source colours).getD ""

/-- A diagnostic without its source: the message, and a line for every label and note. -/
def display (d : Diagnostic) : String :=
  let label (l : Label) : String :=
    "\n  " ++ (if l.primary then "^" else "-") ++ " " ++ l.span.display ++ ": " ++ l.message
  d.heading ++ ": " ++ d.message ++ String.join (d.labels.map label) ++
    String.join (d.notes.map ("\n  note: " ++ ·))

end TargetView.Diagnostic
