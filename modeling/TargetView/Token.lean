import TargetView.Span

/-!
# Tokens

A token is a lexeme of an expression text with its kind and its place.  The kinds are coarse: all
operators and delimiters are punctuation, and the parser looks at their texts.  The text of a
token is the source as written, quotes and digit separators included.
-/
namespace TargetView

/-- The kind of a token. -/
inductive TokenKind where
  | end
  | identifier
  | number
  | string
  | punctuation
  | unknown
  deriving DecidableEq, Repr, Inhabited

/-- The name of a kind in token listings. -/
def TokenKind.name : TokenKind → String
  | .end => "End"
  | .identifier => "Identifier"
  | .number => "Number"
  | .string => "String"
  | .punctuation => "Punctuation"
  | .unknown => "Unknown"

/-- A lexeme with its kind and place. -/
structure Token where
  kind : TokenKind
  text : String
  span : Span
  deriving DecidableEq, Repr, Inhabited

namespace Token

/-- The mark of the end of a text. -/
def endAt (offset : Nat) : Token :=
  ⟨.end, "", .point offset⟩

/-- Whether the token marks the end of a text. -/
def isEnd (t : Token) : Bool := t.kind == .end

/-- Whether the token is the punctuation `p`. -/
def isPunctuation (t : Token) (p : String) : Bool :=
  t.kind == .punctuation && t.text == p

/-- The text of a punctuation token. -/
def punctuation? (t : Token) : Option String :=
  if t.kind == .punctuation then some t.text else none

end Token
end TargetView
