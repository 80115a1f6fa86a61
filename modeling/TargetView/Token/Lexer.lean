import TargetView.Diagnostic
import TargetView.Number.Reading
import TargetView.Token

/-!
# Lexing

A text is cut into lexemes from left to right.  Spaces, tabs, line ends and form feeds between
lexemes are skipped; at every other character the longest lexeme of any form is taken, and a
character that starts none is a lexeme of its own.  `lexemes` does the cutting on characters,
`lex` turns the lexemes into tokens with spans and appends the mark of the end.
-/
namespace TargetView.Lexer

open TargetView.Number (isDigit)

/-! ### The characters of lexemes -/

/-- The characters that are skipped between lexemes. -/
def isGap (c : Char) : Bool :=
  c == ' ' || c == '\t' || c == '\r' || c == '\n' || c == '\x0c'

/-- A digit, or the underscore that separates groups of digits. -/
def isDigitMark (c : Char) : Bool := isDigit c || c == '_'

/-- A hexadecimal digit, or the underscore. -/
def isHexMark (c : Char) : Bool :=
  isDigitMark c || ('a' ≤ c && c ≤ 'f') || ('A' ≤ c && c ≤ 'F')

/-- A letter of an integer suffix. -/
def isSuffix (c : Char) : Bool :=
  c == 'u' || c == 'U' || c == 'l' || c == 'L'

/-- A letter or underscore. -/
def isNameStart (c : Char) : Bool :=
  ('a' ≤ c && c ≤ 'z') || ('A' ≤ c && c ≤ 'Z') || c == '_'

/-- A letter, digit or underscore. -/
def isNamePart (c : Char) : Bool := isNameStart c || isDigit c

/-- The number of leading characters in a class. -/
def run (p : Char → Bool) (cs : List Char) : Nat :=
  (cs.takeWhile p).length

/-! ### Numbers -/

/-- The length of a run of a class with the integer suffix behind it. -/
def suffixed (p : Char → Bool) (cs : List Char) : Nat :=
  run p cs + run isSuffix (cs.dropWhile p)

/-- The length of an exponent: `e`, an optional sign, and at least one digit; zero if there is
none. -/
def exponent : List Char → Nat
  | c :: rest =>
    if c == 'e' || c == 'E' then
      match rest with
      | '+' :: digits | '-' :: digits =>
        if run isDigit digits = 0 then 0 else run isDigit digits + 2
      | digits => if run isDigit digits = 0 then 0 else run isDigit digits + 1
    else 0
  | [] => 0

/-- The length of an integer with a base: a zero, a letter, marks of the base and a suffix. -/
def based : List Char → Nat
  | '0' :: c :: rest =>
    if c == 'x' || c == 'X' then 2 + suffixed isHexMark rest
    else if c == 'b' || c == 'B' || c == 'o' || c == 'O' then 2 + suffixed isDigitMark rest
    else 0
  | _ => 0

/-- The length of a number with a point: digits before it or a digit behind it, and an optional
exponent. -/
def fractional (cs : List Char) : Nat :=
  let whole := run isDigitMark cs
  match cs.dropWhile isDigitMark with
  | '.' :: rest =>
    let part := run isDigitMark rest
    if whole = 0 && (rest.takeWhile isDigit).isEmpty then 0
    else whole + 1 + part + exponent (rest.dropWhile isDigitMark)
  | _ => 0

/-- The length of a number with an exponent and no point. -/
def scientific (cs : List Char) : Nat :=
  let tail := exponent (cs.dropWhile isDigitMark)
  if tail = 0 then 0 else run isDigitMark cs + tail

/-- The length of the longest number at the head of the characters; zero if there is none. -/
def number (cs : List Char) : Nat :=
  match cs with
  | [] => 0
  | c :: _ =>
    if isDigit c then
      max (max (based cs) (suffixed isDigitMark cs)) (max (fractional cs) (scientific cs))
    else if c == '.' then fractional cs
    else 0

/-! ### Strings and punctuation -/

/-- The number of characters up to and including the closing quote, and whether there is one.  A
backslash takes away the meaning of the character behind it. -/
def closeQuote (quote : Char) : List Char → Nat × Bool
  | [] => (0, false)
  | '\\' :: _ :: rest => let (n, closed) := closeQuote quote rest; (n + 2, closed)
  | c :: rest =>
    if c == quote then (1, true)
    else let (n, closed) := closeQuote quote rest; (n + 1, closed)

/-- The operators and delimiters, the longest first. -/
def punctuation : List String := [
  ">>>=",
  ">>=", "<<=", ">>>",
  "+=", "-=", "*=", "/=", "%=", "&=", "^=", "|=", "++", "--", "&&", "||", "==", "!=", "<=", ">=",
  ">>", "<<",
  "=", "<", ">", "+", "-", "*", "/", "%", "&", "|", "^", "!", "~", "?", ":", ",", ".", ";", "(",
  ")", "[", "]"]

/-- The length of the longest punctuation at the head of the characters; zero if there is none. -/
def punctuationLength (cs : List Char) : Nat :=
  ((punctuation.map String.toList).find? fun p => p.isPrefixOf cs).elim 0 List.length

/-! ### Lexemes -/

/-- A lexeme: its kind, its characters and the byte offset of the first one. -/
structure Lexeme where
  kind : TokenKind
  chars : List Char
  offset : Nat
  /-- Whether a string reached its closing quote. -/
  closed : Bool := true
  deriving DecidableEq, Repr, Inhabited

/-- The kind of the lexeme at a character, the number of further characters it takes, and whether
it is complete. -/
def first (c : Char) (rest : List Char) : TokenKind × Nat × Bool :=
  let digits := number (c :: rest)
  if digits ≠ 0 then (.number, digits - 1, true)
  else if isNameStart c then (.identifier, run isNamePart rest, true)
  else if c == '"' || c == '\'' then (.string, closeQuote c rest)
  else
    let mark := punctuationLength (c :: rest)
    if mark ≠ 0 then (.punctuation, mark - 1, true) else (.unknown, 0, true)

/-- The number of bytes of some characters. -/
def width (cs : List Char) : Nat :=
  cs.foldr (fun c n => c.utf8Size + n) 0

/-- The lexemes of some characters of which the first has the given byte offset. -/
def lexemes (offset : Nat) : List Char → List Lexeme
  | [] => []
  | c :: rest =>
    if isGap c then lexemes (offset + c.utf8Size) rest
    else
      let (kind, more, closed) := first c rest
      let chars := c :: rest.take more
      ⟨kind, chars, offset, closed⟩ :: lexemes (offset + width chars) (rest.drop more)
termination_by cs => cs.length
decreasing_by
  all_goals simp only [List.length_cons, List.length_drop]; omega

namespace Lexeme

/-- The span of a lexeme in a text that starts at byte `base` of a larger one. -/
def span (l : Lexeme) (base : Nat) : Span :=
  (Span.ofRange l.offset (l.offset + width l.chars)).shift base

/-- The token of a lexeme. -/
def token (l : Lexeme) (base : Nat) : Token :=
  ⟨l.kind, String.ofList l.chars, l.span base⟩

/-- The finding about a lexeme, if there is one. -/
def diagnostic? (l : Lexeme) (base : Nat) : Option Diagnostic :=
  if l.closed then none else some (.unterminatedString (l.span base))

end Lexeme

/-- The tokens of a text, the mark of the end included, and the findings about them. -/
structure Output where
  tokens : List Token
  diagnostics : List Diagnostic
  deriving DecidableEq, Inhabited

/-- The tokens of a text that starts at byte `base` of a larger one. -/
def lexAt (text : List Char) (base : Nat) : Output :=
  let ls := lexemes 0 text
  let stop := min (min (width text) Span.limit + base) Span.limit
  { tokens := ls.map (·.token base) ++ [.endAt stop]
    diagnostics := ls.filterMap (·.diagnostic? base) }

/-- The tokens of a text. -/
def lex (text : String) : Output :=
  lexAt text.toList 0

end TargetView.Lexer
