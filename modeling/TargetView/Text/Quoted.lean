import TargetView.Text.Printable

/-!
# Quoted text

Listings show a text between double quotes.  Backslash, double quote and the four named controls
are written with a backslash, a character that does not stand on its own as its code point in
braces, and every other character as itself; a single quote needs no backslash.
-/
namespace TargetView.Text

/-- The way one character is written inside double quotes. -/
def quotedChar (c : Char) : List Char :=
  match c with
  | '\x00' => ['\\', '0']
  | '\t' => ['\\', 't']
  | '\r' => ['\\', 'r']
  | '\n' => ['\\', 'n']
  | '"' => ['\\', '"']
  | '\\' => ['\\', '\\']
  | c =>
    if stands c then [c]
    else ['\\', 'u', '\x7b'] ++ Nat.toDigits 16 c.toNat ++ ['\x7d']

/-- A text between double quotes. -/
def quoted (s : String) : String :=
  String.ofList (['"'] ++ s.toList.flatMap quotedChar ++ ['"'])

end TargetView.Text
