import TargetView.Diagnostic
import TargetView.Number.Reading

/-!
# Text literals

The text of a string literal is what stands between its quotes with the escapes replaced.  The
escapes are the named controls, the two quotes, the backslash, and `x` with two hexadecimal
digits.  A backslash before any other character is dropped with a warning, and one at the very end
of an unclosed literal stands for itself.
-/
namespace TargetView.Literal

/-- The character that a one-letter escape stands for. -/
def escape? : Char → Option Char
  | 'n' => some '\n'
  | 't' => some '\t'
  | 'r' => some '\r'
  | '0' => some '\x00'
  | '\\' => some '\\'
  | '\'' => some '\''
  | '"' => some '"'
  | _ => none

/-- The character with a code of two hexadecimal digits. -/
def hexChar? (high low : Char) : Option Char := do
  let h ← Number.digit? 16 high
  let l ← Number.digit? 16 low
  pure (Char.ofNat (16 * h + l))

/-- The text of a literal after its opening quote, and the warnings about it.  The first character
stands at byte `offset` of the literal, and the literal at byte `base` of the expression text. -/
def cookBody (quote : Char) (base offset : Nat) : List Char → List Char × List Diagnostic
  | [] => ([], [])
  | c :: rest =>
    if c == quote then ([], [])
    else if c != '\\' then
      let (text, warnings) := cookBody quote base (offset + c.utf8Size) rest
      (c :: text, warnings)
    else
      match rest with
      | [] => (['\\'], [])
      | e :: after =>
        match escape? e with
        | some resolved =>
          let (text, warnings) := cookBody quote base (offset + 1 + e.utf8Size) after
          (resolved :: text, warnings)
        | none =>
          match hexEscape e after with
          | some (resolved, n) =>
            let (text, warnings) := cookBody quote base (offset + 2 + n) (after.drop n)
            (resolved :: text, warnings)
          | none =>
            let span := (Span.ofRange offset (offset + 1 + e.utf8Size)).shift base
            let (text, warnings) := cookBody quote base (offset + 1 + e.utf8Size) after
            (e :: text, .unknownEscape e span :: warnings)
termination_by cs => cs.length
decreasing_by
  all_goals simp only [List.length_cons, List.length_drop]; omega
where
  /-- The character of a hexadecimal escape and the number of its digits. -/
  hexEscape (e : Char) : List Char → Option (Char × Nat)
    | h :: l :: _ => if e == 'x' then (hexChar? h l).map (·, 2) else none
    | _ => none

/-- The text of a literal whose first character is its quote, and the warnings about it. -/
def cook (raw : String) (base : Nat) : String × List Diagnostic :=
  match raw.toList with
  | [] => ("", [])
  | quote :: rest =>
    let (text, warnings) := cookBody quote base quote.utf8Size rest
    (String.ofList text, warnings)

end TargetView.Literal
