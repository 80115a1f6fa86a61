/-!
# Quoted stretches

Brackets, semicolons and line ends have no meaning between quotes.  `QuoteState` says where a scan
over the characters of a text stands: outside, between quotes, or between quotes right behind a
backslash, which takes away the meaning of the next character.
-/
namespace TargetView

/-- The place of a scan with respect to string literals. -/
inductive QuoteState where
  | outside
  | inside (quote : Char)
  | escaped (quote : Char)
  deriving DecidableEq, Repr, Inhabited

namespace QuoteState

/-- The place behind a character. -/
def step : QuoteState → Char → QuoteState
  | outside, c => if c == '"' || c == '\'' then inside c else outside
  | inside quote, c =>
    if c == '\\' then escaped quote else if c == quote then outside else inside quote
  | escaped quote, _ => inside quote

/-- Whether characters have their own meaning at this place. -/
def isOutside : QuoteState → Bool
  | outside => true
  | _ => false

end QuoteState
end TargetView
