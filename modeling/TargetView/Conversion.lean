/-!
# Conversion letters

The letter behind the percent sign of a format text.  `d`, `u`, `x`, `t` and `T` have a built-in
rendering; the others (addresses, enumerators, network addresses and so on) are left to the host.
-/
namespace TargetView

/-- How the value of a format segment is rendered. -/
inductive Conversion where
  | decimal | unsigned | hex | text | natural
  | address | enumerator | ipv4 | ipv6 | name | mac | symbol | usb
  deriving DecidableEq, Repr, Inhabited

namespace Conversion

/-- All thirteen conversions. -/
def all : List Conversion :=
  [.decimal, .unsigned, .hex, .text, .natural, .address, .enumerator, .ipv4, .ipv6, .name, .mac,
    .symbol, .usb]

/-- The letter of a conversion. -/
def letter : Conversion → Char
  | .decimal => 'd'
  | .unsigned => 'u'
  | .hex => 'x'
  | .text => 't'
  | .natural => 'T'
  | .address => 'C'
  | .enumerator => 'E'
  | .ipv4 => 'I'
  | .ipv6 => 'J'
  | .name => 'N'
  | .mac => 'M'
  | .symbol => 'S'
  | .usb => 'U'

/-- The conversion with a letter. -/
def ofLetter? (c : Char) : Option Conversion :=
  all.find? (·.letter == c)

/-- Whether the conversion has a rendering of its own. -/
def isBuiltin : Conversion → Bool
  | .decimal | .unsigned | .hex | .text | .natural => true
  | _ => false

/-- The percent sign with the letter. -/
def display (spec : Conversion) : String :=
  String.ofList ['%', spec.letter]

theorem ofLetter?_letter (spec : Conversion) : ofLetter? spec.letter = some spec := by
  cases spec <;> decide

end Conversion
end TargetView
