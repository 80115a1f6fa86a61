import TargetView.Diagnostic
import TargetView.Expr
import TargetView.Literal.Text
import TargetView.Token.Cursor

/-!
# Parsing expressions

The grammar, from the loosest to the tightest binding: assignment and conditional, which group to
the right; the binary operators by `BinaryOp.precedence`, which group to the left; the operators
before their operand; calls, members, elements and updates behind it; literals, names and
parentheses.  The arguments of an intrinsic may be paths of identifiers joined by colons.

The parser never fails.  Where the text does not fit it records a finding, leaves a malformed node
and goes on; a closing bracket, colon or comma is left for the construct that waits for it.

Each function takes the greatest number of nested calls it may still make.  Ten per token are
enough, because every cycle through the grammar takes a token; `parse` starts with that many, and
a parser that did run out would record an error.
-/
namespace TargetView.Parser

/-- The place in the tokens and the findings so far. -/
structure State where
  cursor : Cursor
  findings : Array Diagnostic := #[]

/-- A step of the parser. -/
abbrev Parse := StateM State

/-! ### Steps over the tokens -/

/-- The cursor. -/
def cursor : Parse Cursor := do return (← get).cursor

/-- The token at the cursor. -/
def current : Parse Token := do return (← cursor).current

/-- Takes the token at the cursor. -/
def advance : Parse Token :=
  modifyGet fun s => (s.cursor.current, { s with cursor := s.cursor.next })

/-- Takes the punctuation `p` if it is at the cursor. -/
def eat (p : String) : Parse Bool :=
  modifyGet fun s =>
    let (eaten, cursor) := s.cursor.eat p
    (eaten, { s with cursor })

/-- Records a finding. -/
def report (d : Diagnostic) : Parse Unit :=
  modify fun s => { s with findings := s.findings.push d }

/-- The operator at the cursor, if there is one of the wanted sort. -/
def operator? {α : Type} (ofSymbol? : String → Option α) : Parse (Option α) := do
  return (← cursor).punctuation?.bind ofSymbol?

/-- Takes a closing bracket, or records that it is missing.  The answer is its span. -/
def expectClosing (bracket : String) (opening : Char) (opened : Span) : Parse Span := do
  if (← cursor).sees bracket then return (← advance).span
  let here := (← current).span
  report (.unclosedDelimiter opened here opening)
  return .point here.start

/-- Records a finding if an expression cannot be assigned; malformed text has one already. -/
def checkTarget (target : Expr) (symbol : String) : Parse Unit :=
  if target.isAssignable || target.isMalformed then pure ()
  else report (.invalidTarget target.span symbol)

/-! ### Paths -/

/-- The number of tokens in the parts of a path behind its first identifier. -/
def pathTail : List Token → Nat
  | colon :: name :: rest =>
    if colon.isPunctuation ":" && name.kind == .identifier then pathTail rest + 2 else 0
  | _ => 0

/-- The number of tokens in a path of at least two identifiers that a comma or a closing
parenthesis follows; zero if there is none. -/
def pathLength : List Token → Nat
  | [] => 0
  | first :: rest =>
    let more := pathTail rest
    let follows := (rest.drop more).head?.any fun t => t.isPunctuation "," || t.isPunctuation ")"
    if first.kind == .identifier && more != 0 && follows then more + 1 else 0

/-- Takes `n` tokens and joins them. -/
def joined : Nat → String → Span → Parse Expr
  | 0, name, span => return .ident name span
  | n + 1, name, span => do
    let t ← advance
    joined n (name ++ t.text) (span.merge t.span)

/-! ### Literals and names -/

/-- The expression of a number token. -/
def numberNode (t : Token) : Parse Expr :=
  match Literal.decode t.text with
  | .ok value => do
    if value.isInexact t.text then report (.inexactInteger t.span t.text)
    return .number value t.span
  | .error fault => do
    report (.invalidNumber t.span t.text fault.message)
    return .malformed t.span

/-- The expression of a string token. -/
def textNode (t : Token) : Parse Expr := do
  let (value, warnings) := Literal.cook t.text t.span.start
  warnings.forM report
  return .text value t.span

/-- The expression of an identifier; `true` and `false` are the numbers one and zero. -/
def nameNode (t : Token) : Expr :=
  if t.text == "true" then .number (.float 1) t.span
  else if t.text == "false" then .number (.float 0) t.span
  else .ident t.text t.span

/-- Records that an expression is missing at a token. -/
def missing (t : Token) : Parse Expr := do
  report (.expectedExpression t.span t.text)
  return .malformed t.span

/-- Whether a construct around the current one may wait for the punctuation. -/
def isAwaited (p : String) : Bool := p == ")" || p == "]" || p == ":" || p == ","

/-- The intrinsic that a callee names. -/
def intrinsic? : Expr → Option Intrinsic
  | .ident name _ => Intrinsic.ofName? name
  | _ => none

/-- The node of a call, which is one of an intrinsic if the callee names one. -/
def callNode (callee : Expr) (args : List Expr) (span : Span) : Expr :=
  match intrinsic? callee with
  | some fn => .intrinsic fn callee.span args span
  | none => .call callee args span

/-- The member behind a base. -/
def member (base : Expr) : Parse Expr := do
  let _ ← advance
  let t ← current
  if t.kind == .identifier then
    let _ ← advance
    return .member base t.text (base.span.merge t.span)
  report (.expectedMember t.span t.text)
  return .unnamed base (base.span.merge (← cursor).behind)

/-! ### The grammar -/

mutual
/-- An expression: a conditional, or an assignment to one. -/
def expression : Nat → Parse Expr
  | 0 => do missing (← current)
  | n + 1 => do
    let target ← conditional n
    match ← operator? AssignOp.ofSymbol? with
    | none => return target
    | some op =>
      let _ ← advance
      checkTarget target op.symbol
      let value ← expression n
      return .assign op target value (target.span.merge value.span)

/-- A choice, or what may be its condition. -/
def conditional : Nat → Parse Expr
  | 0 => do missing (← current)
  | n + 1 => do
    let cond ← binary n 1
    if !(← eat "?") then return cond
    let yes ← expression n
    let no ←
      if ← eat ":" then conditional n
      else do
        let t ← current
        report (.unexpectedToken t.span "`:` in conditional expression" t.text)
        pure (.malformed t.span)
    return .conditional cond yes no (cond.span.merge no.span)

/-- Operands joined by operators that bind at least as tight as `least`. -/
def binary : Nat → Nat → Parse Expr
  | 0, _ => do missing (← current)
  | n + 1, least => do operators n least (← unary n)

/-- The operators behind a left operand. -/
def operators : Nat → Nat → Expr → Parse Expr
  | 0, _, _ => do missing (← current)
  | n + 1, least, left => do
    match ← operator? BinaryOp.ofSymbol? with
    | none => return left
    | some op =>
      if op.precedence < least then return left
      let _ ← advance
      let right ← binary n (op.precedence + 1)
      operators n least (.binary op left right (left.span.merge right.span))

/-- An operand with the operators before it. -/
def unary : Nat → Parse Expr
  | 0 => do missing (← current)
  | n + 1 => do
    let start := (← current).span
    match ← operator? UpdateOp.ofSymbol? with
    | some op =>
      let _ ← advance
      let target ← unary n
      checkTarget target op.symbol
      return .update op true target (start.merge target.span)
    | none =>
      match ← operator? UnaryOp.ofSymbol? with
      | some op =>
        let _ ← advance
        let operand ← unary n
        return .unary op operand (start.merge operand.span)
      | none => suffixes n (← primary n)

/-- The calls, members, elements and updates behind an operand. -/
def suffixes : Nat → Expr → Parse Expr
  | 0, _ => do missing (← current)
  | n + 1, e => do
    let c ← cursor
    if c.sees "(" then suffixes n (← call n e)
    else if c.sees "." then suffixes n (← member e)
    else if c.sees "[" then
      let opened := (← advance).span
      let key ← expression n
      let closed ← expectClosing "]" '[' opened
      suffixes n (.index e key (e.span.merge closed))
    else
      match ← operator? UpdateOp.ofSymbol? with
      | some op =>
        let t ← advance
        checkTarget e op.symbol
        suffixes n (.update op false e (e.span.merge t.span))
      | none => return e

/-- The arguments behind a callee.  A bare name of an intrinsic makes the call one of it. -/
def call : Nat → Expr → Parse Expr
  | 0, _ => do missing (← current)
  | n + 1, callee => do
    let opened := (← advance).span
    let args ←
      if ← eat ")" then pure []
      else do
        let args ← arguments n (intrinsic? callee).isSome
        let _ ← expectClosing ")" '(' opened
        pure args
    return callNode callee args (callee.span.merge (← cursor).behind)

/-- One or more arguments with commas between them. -/
def arguments : Nat → Bool → Parse (List Expr)
  | 0, _ => do return [← missing (← current)]
  | n + 1, paths => do
    let c ← cursor
    let length := if paths then pathLength c.ahead else 0
    let arg ← if length = 0 then expression n else joined length "" c.span
    if ← eat "," then return arg :: (← arguments n paths) else return [arg]

/-- A literal, a name or an expression in parentheses. -/
def primary : Nat → Parse Expr
  | 0 => do missing (← current)
  | n + 1 => do
    let t ← current
    match t.kind with
    | .number => do let _ ← advance; numberNode t
    | .string => do let _ ← advance; textNode t
    | .identifier => do let _ ← advance; return nameNode t
    | .unknown => do
      let _ ← advance
      report (.invalidCharacter t.span t.text)
      return .malformed t.span
    | .punctuation =>
      if t.text == "(" then
        let _ ← advance
        let inner ← expression n
        let _ ← expectClosing ")" '(' t.span
        return inner
      if !isAwaited t.text then let _ ← advance
      missing t
    | .end => missing t
end

/-- A whole text: one expression up to the mark of the end. -/
def whole (fuel : Nat) : Parse Expr := do
  let t ← current
  if t.isEnd then
    report (.emptyExpression t.span)
    return .malformed t.span
  let root ← expression fuel
  let t ← current
  if !t.isEnd then report (.unexpectedToken t.span "end of expression" t.text)
  return root

/-- The expression that some tokens spell, and the findings about them. -/
def parse (tokens : List Token) : Expr × List Diagnostic :=
  let (root, final) := (whole (10 * tokens.length + 10)).run ⟨.ofTokens tokens, #[]⟩
  (root, final.findings.toList)

end TargetView.Parser
