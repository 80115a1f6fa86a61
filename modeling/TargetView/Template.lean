import TargetView.Expr.Listing
import TargetView.Expr.Parser
import TargetView.Text.Blank
import TargetView.Text.Quoting
import TargetView.Token.Lexer

/-!
# Format texts

A text with `%%` in it, or with a percent sign, a conversion letter and an opening bracket, is a
format text.  `Template.pieces` cuts a text into literal characters, doubled percent signs and
conversions with the text between their brackets; `Template.ofChars` joins the literal characters
and parses the inner texts.  Brackets inside the inner text nest, and those between quotes do not
count.  A conversion without its closing bracket takes the rest of the text.
-/
namespace TargetView

/-- A segment of a format text. -/
inductive Segment where
  /-- Text that is shown as it is. -/
  | text (s : String)
  /-- An expression whose value is rendered by a conversion. -/
  | format (spec : Conversion) (expr : Expr)
  deriving Inhabited

namespace Template

/-! ### Pieces -/

/-- A stretch of a format text. -/
inductive Piece where
  /-- A character that stands for itself. -/
  | literal (c : Char)
  /-- A doubled percent sign. -/
  | percent
  /-- A conversion: its letter, the blanks before the bracket and the inner text. -/
  | conversion (spec : Conversion) (blanks inner : List Char) (closed : Bool)
  deriving DecidableEq, Repr

namespace Piece

/-- The characters of a conversion up to and including its opening bracket. -/
def opener (spec : Conversion) (blanks : List Char) : List Char :=
  '%' :: spec.letter :: blanks ++ ['[']

/-- The characters that a piece was cut from. -/
def source : Piece → List Char
  | literal c => [c]
  | percent => ['%', '%']
  | conversion spec blanks inner closed =>
    opener spec blanks ++ inner ++ (if closed then [']'] else [])

end Piece

/-- The conversion letter, the blanks and the characters behind the bracket, at the characters
behind a percent sign. -/
def opener? : List Char → Option (Conversion × List Char × List Char)
  | [] => none
  | letter :: rest =>
    (Conversion.ofLetter? letter).bind fun spec =>
      match rest.dropWhile isGap with
      | '[' :: body => some (spec, rest.takeWhile isGap, body)
      | _ => none
where
  /-- The characters that may stand before the bracket. -/
  isGap (c : Char) : Bool := Text.isBlank c

/-- Whether a text is a format text. -/
def isFormat : List Char → Bool
  | [] => false
  | '%' :: rest => rest.head? == some '%' || (opener? rest).isSome || isFormat rest
  | _ :: rest => isFormat rest

/-- The number of characters before the closing bracket, at the characters behind an opening one;
`depth` further brackets are open. -/
def bracketEnd (state : QuoteState) (depth : Nat) : List Char → Option Nat
  | [] => none
  | c :: rest =>
    let behind (depth : Nat) := (bracketEnd (state.step c) depth rest).map (· + 1)
    if state.isOutside && c == ']' then
      match depth with
      | 0 => some 0
      | depth + 1 => behind depth
    else if state.isOutside && c == '[' then behind (depth + 1)
    else behind depth

theorem length_of_opener? {cs : List Char} {spec : Conversion} {blanks body : List Char}
    (h : opener? cs = some (spec, blanks, body)) : body.length < cs.length := by
  cases cs with
  | nil => simp [opener?] at h
  | cons letter rest =>
    simp only [opener?, Option.bind_eq_some_iff] at h
    obtain ⟨spec', -, h⟩ := h
    split at h
    · next hd =>
      simp only [Option.some.injEq, Prod.mk.injEq] at h
      obtain ⟨-, -, rfl⟩ := h
      have hl := (List.dropWhile_suffix (p := opener?.isGap) (l := rest)).length_le
      rw [hd] at hl
      simp only [List.length_cons] at hl ⊢
      omega
    · simp at h

/-- The pieces of a text. -/
def pieces : List Char → List Piece
  | [] => []
  | '%' :: '%' :: rest => .percent :: pieces rest
  | '%' :: rest =>
    match _h : opener? rest with
    | some (spec, blanks, body) =>
      match bracketEnd .outside 0 body with
      | some n => .conversion spec blanks (body.take n) true :: pieces (body.drop (n + 1))
      | none => [.conversion spec blanks body false]
    | none => .literal '%' :: pieces rest
  | c :: rest => .literal c :: pieces rest
termination_by cs => cs.length
decreasing_by
  all_goals simp only [List.length_cons, List.length_drop]
  all_goals first
    | omega
    | (have hl := length_of_opener? _h; omega)

/-! ### Segments -/

/-- A text segment in front of others, unless it is empty. -/
def flush (literal : List Char) (segments : List Segment) : List Segment :=
  if literal.isEmpty then segments else .text (String.ofList literal.reverse) :: segments

/-- The expression that a text spells, which starts at byte `base` of a larger text, and the
findings about it. -/
def parseAt (text : List Char) (base : Nat) : Expr × List Diagnostic :=
  let lexed := Lexer.lexAt text base
  let (e, found) := Parser.parse lexed.tokens
  (e, lexed.diagnostics ++ found)

/-- The segments of some pieces of which the first starts at byte `offset`, and the findings about
them.  `literal` holds the literal characters read so far, the last one first. -/
def assemble (offset : Nat) (literal : List Char) : List Piece → List Segment × List Diagnostic
  | [] => (flush literal [], [])
  | piece :: rest =>
    let behind := offset + Lexer.width piece.source
    match piece with
    | .literal c => assemble behind (c :: literal) rest
    | .percent => assemble behind ('%' :: literal) rest
    | .conversion spec blanks inner closed =>
      let base := offset + Lexer.width (Piece.opener spec blanks)
      let unterminated :=
        if closed then []
        else [Diagnostic.unterminatedFormat (.ofRange offset base) spec.display]
      let (e, found) := parseAt inner (min base Span.limit)
      let (segments, more) := assemble behind [] rest
      (flush literal (.format spec e :: segments), unterminated ++ found ++ more)

/-- The segments of a format text, and the findings about it. -/
def ofChars (text : List Char) : List Segment × List Diagnostic :=
  assemble 0 [] (pieces text)

/-! ### What is known about segments -/

/-- The text of segments that hold no conversion. -/
def constantText? : List Segment → Option String
  | [] => some ""
  | .text s :: rest => (constantText? rest).map (s ++ ·)
  | .format .. :: _ => none

/-- The findings about the operators in the expressions of some segments. -/
def survey (segments : List Segment) : List Diagnostic :=
  segments.flatMap fun
    | .text _ => []
    | .format _ e => e.survey.2

/-- The listing with the nodes of some segments behind it, and the listed segments. -/
def listing (nodes : Listing) : List Segment → Listing × List ListedSegment
  | [] => (nodes, [])
  | .text s :: rest =>
    let (nodes, listed) := listing nodes rest
    (nodes, .text s :: listed)
  | .format spec e :: rest =>
    let nodes := e.listing nodes
    let first := nodes.last
    let (nodes, listed) := listing nodes rest
    (nodes, .format spec first :: listed)

end Template
end TargetView
