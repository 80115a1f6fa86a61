import TargetView.Text.Blank
import TargetView.Text.Quoting

/-!
# Calculations

A calculation is a text of several expressions, separated by semicolons and line ends that do not
stand between quotes.  `Calculation.split` gives the expressions without the blanks around them;
pieces of blanks alone do not count.
-/
namespace TargetView.Calculation

/-- Whether a character ends an expression. -/
def isSeparator (c : Char) : Bool := c == ';' || c == '\n' || c == '\r'

/-- The pieces between the separators. -/
def cut (state : QuoteState) : List Char → List (List Char)
  | [] => [[]]
  | c :: rest =>
    if state.isOutside && isSeparator c then [] :: cut state rest
    else
      match cut (state.step c) rest with
      | [] => [[c]]
      | piece :: more => (c :: piece) :: more

/-- The expressions of a calculation. -/
def split (text : String) : List String :=
  ((cut .outside text.toList).map Text.trim).filter (fun piece => !piece.isEmpty)
    |>.map String.ofList

end TargetView.Calculation
