import TargetView.Token

/-!
# Token cursors

A cursor stands in a list of tokens that ends with the mark of the end.  It keeps the tokens
ahead, that mark, and the span of the token behind it.  It moves forward one token at a time and
never past the mark, which it shows again and again.
-/
namespace TargetView

/-- A place in a list of tokens. -/
structure Cursor where
  /-- The tokens ahead without the mark of the end. -/
  ahead : List Token
  /-- The mark of the end. -/
  mark : Token
  /-- The span of the token behind, or `Span.none` at the beginning. -/
  behind : Span := .none
  isEnd_mark : mark.isEnd = true
  deriving DecidableEq, Repr

namespace Cursor

instance : Inhabited Cursor := ⟨⟨[], .endAt 0, .none, rfl⟩⟩

/-- The cursor before the first of some tokens.  If the last one does not mark the end, a mark is
put behind it. -/
def ofTokens (tokens : List Token) : Cursor :=
  match tokens.getLast? with
  | none => ⟨[], .endAt 0, .none, rfl⟩
  | some last =>
    if h : last.isEnd then ⟨tokens.dropLast, last, .none, h⟩
    else ⟨tokens, .endAt last.span.stop, .none, rfl⟩

/-- The token at the cursor. -/
def current (c : Cursor) : Token := c.ahead.headD c.mark

/-- The span of the token at the cursor. -/
def span (c : Cursor) : Span := c.current.span

/-- The token `n` places ahead, or the mark of the end. -/
def peek (c : Cursor) (n : Nat) : Token := (c.ahead[n]?).getD c.mark

/-- Whether the cursor has reached the mark of the end. -/
def atEnd (c : Cursor) : Bool := c.current.isEnd

/-- The text of the token at the cursor if it is punctuation. -/
def punctuation? (c : Cursor) : Option String := c.current.punctuation?

/-- Whether the token at the cursor is the punctuation `p`. -/
def sees (c : Cursor) (p : String) : Bool := c.current.isPunctuation p

/-- Whether the token at the cursor is of a kind. -/
def seesKind (c : Cursor) (kind : TokenKind) : Bool := c.current.kind == kind

/-- The cursor behind the current token; it stays at the mark of the end. -/
def next (c : Cursor) : Cursor :=
  match c.ahead with
  | [] => c
  | t :: rest => { c with ahead := rest, behind := t.span }

/-- Whether the current token is the punctuation `p`, and the cursor behind it if so. -/
def eat (c : Cursor) (p : String) : Bool × Cursor :=
  if c.sees p then (true, c.next) else (false, c)

end Cursor
end TargetView
