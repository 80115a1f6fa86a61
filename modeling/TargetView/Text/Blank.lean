/-!
# Blanks

A blank is a character with the Unicode property `White_Space`: twenty-five code points, among
them the no-break space and the ideographic space, but neither the zero width space nor the byte
order mark.  Blanks separate the words of a type name and surround attribute values; `trim`
removes them at both ends and `words` splits at every run of them.
-/
namespace TargetView.Text

/-- Whether a character has the property `White_Space`. -/
def isBlank (c : Char) : Bool :=
  let n := c.toNat
  (9 ≤ n && n ≤ 13) || n == 32 || n == 0x85 || n == 0xA0 || n == 0x1680 ||
    (0x2000 ≤ n && n ≤ 0x200A) || n == 0x2028 || n == 0x2029 || n == 0x202F ||
    n == 0x205F || n == 0x3000

/-- The characters without the blanks at the end. -/
def trimEnd (cs : List Char) : List Char :=
  cs.foldr (fun c rest => if rest.isEmpty && isBlank c then [] else c :: rest) []

/-- The characters without the blanks at either end. -/
def trim (cs : List Char) : List Char :=
  trimEnd (cs.dropWhile isBlank)

/-- A text without the blanks at either end. -/
def trimmed (s : String) : String :=
  String.ofList (trim s.toList)

/-- The maximal runs of characters that are not blank, in order. -/
def words (cs : List Char) : List (List Char) :=
  cs.foldr step [[]] |>.filter (fun w => !w.isEmpty)
where
  /-- Puts a character in front of the first run, or closes that run at a blank. -/
  step (c : Char) : List (List Char) → List (List Char)
    | [] => if isBlank c then [[]] else [[c]]
    | w :: ws => if isBlank c then [] :: w :: ws else (c :: w) :: ws

/-- The words of a text with one space between neighbours. -/
def normalized (s : String) : String :=
  String.intercalate " " ((words s.toList).map String.ofList)

end TargetView.Text
