import TargetView.Proofs.Parts

/-! # Parsing into an arena

The parser returns a tree, and the nodes of a text are the listing of that tree.
Here is the parser that numbers its nodes as it goes: a node is put behind all
others at the moment at which it is complete, and from then on it is known by
its number alone, so that its span and its shape are read back from the arena.
The expressions of a format text share one arena.  When the text has been read,
a single sweep over the arena computes the constants, each from what it has
recorded of the nodes before.

The number of a node is its place in the arena as far as `number` can tell
places apart: a number has 32 bits (`Arena.recorded`).
-/
namespace TargetView

/-- Whether a node with a shape can be assigned. -/
def Shape.isAssignable : Shape → Bool
  | ident _ | member .. | index .. => true
  | _ => false

/-- The intrinsic that a callee of a shape names. -/
def Shape.intrinsic? : Shape → Option Intrinsic
  | ident name => Intrinsic.ofName? name
  | _ => none

/-- The shape of an expression without operands. -/
def Expr.leafShape : Expr → Shape
  | number value _ => .number value
  | text value _ => .text value
  | ident name _ => .ident name
  | _ => .malformed

/-- The node with a number. -/
def Listing.node (nodes : Listing) (i : Nat) : Node := nodes[i]?.getD ⟨.malformed, .none, none⟩

/-- The span of the node with a number. -/
def Listing.spanOf (nodes : Listing) (i : Nat) : Span := (nodes.node i).span

/-- The constant recorded of the node with a number. -/
def Listing.constantOf (nodes : Listing) (i : Nat) : Option Constant := (nodes.node i).constant

namespace Arena

/-- A step of the parser over an arena. -/
abbrev Alloc := StateT Listing Parser.Parse

/-- The place of a node in 32 bits. -/
def recorded (place : Nat) : Nat := min place Span.limit

theorem recorded_eq {place : Nat} (h : place < UInt32.size) : recorded place = place := by
  rw [recorded, Span.limit]
  omega

variable (number : Nat → Nat)

/-! ### Nodes -/

/-- Puts a node behind all others. -/
def alloc (shape : Shape) (span : Span) : Alloc Nat :=
  modifyGet fun nodes => (number nodes.size, nodes.push ⟨shape, span, none⟩)

/-- Puts the node of an expression without operands behind all others. -/
def store (leaf : Parser.Parse Expr) : Alloc Nat := do
  let e ← leaf
  alloc number e.leafShape e.span

/-- Puts a malformed node behind all others, and records that an expression is missing. -/
def missing : Alloc Nat := do
  let t ← Parser.current
  store number (Parser.missing t)

/-- Records a finding if a node cannot be assigned; malformed text has one already. -/
def checkTarget (target : Nat) (symbol : String) : Alloc Unit := do
  let n := (← get).node target
  if n.shape.isAssignable || n.shape.isMalformed then pure ()
  else Parser.report (.invalidTarget n.span symbol)

/-- The member behind a base. -/
def member (base : Nat) : Alloc Nat := do
  let _ ← Parser.advance
  let t ← Parser.current
  if t.kind == .identifier then
    let _ ← Parser.advance
    alloc number (.member base t.text) (((← get).spanOf base).merge t.span)
  else
    Parser.report (.expectedMember t.span t.text)
    let behind := (← Parser.cursor).behind
    alloc number .malformed (((← get).spanOf base).merge behind)

/-- The first argument: a path, or what `read` reads. -/
def argument (read : Alloc Nat) (paths : Bool) : Alloc Nat := do
  let c ← Parser.cursor
  let length := if paths then Parser.pathLength c.ahead else 0
  if length = 0 then read else store number (Parser.joined length "" c.span)

/-! ### The grammar -/

mutual
/-- An expression: a conditional, or an assignment to one. -/
def expression : Nat → Alloc Nat
  | 0 => missing number
  | n + 1 => do
    let target ← conditional n
    match ← Parser.operator? AssignOp.ofSymbol? with
    | none => return target
    | some op =>
      let _ ← Parser.advance
      checkTarget target op.symbol
      let value ← expression n
      let nodes ← get
      alloc number (.assign op target value) ((nodes.spanOf target).merge (nodes.spanOf value))

/-- A choice, or what may be its condition. -/
def conditional : Nat → Alloc Nat
  | 0 => missing number
  | n + 1 => do
    let cond ← binary n 1
    if !(← Parser.eat "?") then return cond
    let yes ← expression n
    let no ←
      if ← Parser.eat ":" then conditional n
      else do
        let t ← Parser.current
        Parser.report (.unexpectedToken t.span "`:` in conditional expression" t.text)
        alloc number .malformed t.span
    let nodes ← get
    alloc number (.conditional cond yes no) ((nodes.spanOf cond).merge (nodes.spanOf no))

/-- Operands joined by operators that bind at least as tight as `least`. -/
def binary : Nat → Nat → Alloc Nat
  | 0, _ => missing number
  | n + 1, least => do operators n least (← unary n)

/-- The operators behind a left operand. -/
def operators : Nat → Nat → Nat → Alloc Nat
  | 0, _, _ => missing number
  | n + 1, least, left => do
    match ← Parser.operator? BinaryOp.ofSymbol? with
    | none => return left
    | some op =>
      if op.precedence < least then return left
      let _ ← Parser.advance
      let right ← binary n (op.precedence + 1)
      let nodes ← get
      operators n least
        (← alloc number (.binary op left right)
          ((nodes.spanOf left).merge (nodes.spanOf right)))

/-- An operand with the operators before it. -/
def unary : Nat → Alloc Nat
  | 0 => missing number
  | n + 1 => do
    let start := (← Parser.current).span
    match ← Parser.operator? UpdateOp.ofSymbol? with
    | some op =>
      let _ ← Parser.advance
      let target ← unary n
      checkTarget target op.symbol
      alloc number (.update op true target) (start.merge ((← get).spanOf target))
    | none =>
      match ← Parser.operator? UnaryOp.ofSymbol? with
      | some op =>
        let _ ← Parser.advance
        let operand ← unary n
        alloc number (.unary op operand) (start.merge ((← get).spanOf operand))
      | none => suffixes n (← primary n)

/-- The calls, members, elements and updates behind an operand. -/
def suffixes : Nat → Nat → Alloc Nat
  | 0, _ => missing number
  | n + 1, e => do
    let c ← Parser.cursor
    if c.sees "(" then suffixes n (← call n e)
    else if c.sees "." then suffixes n (← member number e)
    else if c.sees "[" then
      let opened := (← Parser.advance).span
      let key ← expression n
      let closed ← Parser.expectClosing "]" '[' opened
      suffixes n (← alloc number (.index e key) (((← get).spanOf e).merge closed))
    else
      match ← Parser.operator? UpdateOp.ofSymbol? with
      | some op =>
        let t ← Parser.advance
        checkTarget e op.symbol
        suffixes n (← alloc number (.update op false e) (((← get).spanOf e).merge t.span))
      | none => return e

/-- The arguments behind a callee.  A bare name of an intrinsic makes the call one of it; the
node of the name is no operand then. -/
def call : Nat → Nat → Alloc Nat
  | 0, _ => missing number
  | n + 1, callee => do
    let opened := (← Parser.advance).span
    let fn := ((← get).node callee).shape.intrinsic?
    let args ←
      if ← Parser.eat ")" then pure []
      else do
        let args ← arguments n fn.isSome
        let _ ← Parser.expectClosing ")" '(' opened
        pure args
    let behind := (← Parser.cursor).behind
    let shape :=
      match fn with
      | some fn => Shape.intrinsic fn args
      | none => Shape.call callee args
    alloc number shape (((← get).spanOf callee).merge behind)

/-- One or more arguments with commas between them. -/
def arguments : Nat → Bool → Alloc (List Nat)
  | 0, _ => do return [← missing number]
  | n + 1, paths => do
    let arg ← argument number (expression n) paths
    if ← Parser.eat "," then return arg :: (← arguments n paths) else return [arg]

/-- A literal, a name or an expression in parentheses, which has no node of its own. -/
def primary : Nat → Alloc Nat
  | 0 => missing number
  | n + 1 => do
    let t ← Parser.current
    match t.kind with
    | .number => do
      let _ ← Parser.advance
      store number (Parser.numberNode t)
    | .string => do
      let _ ← Parser.advance
      store number (Parser.textNode t)
    | .identifier => do
      let _ ← Parser.advance
      store number (pure (Parser.nameNode t))
    | .unknown => do
      let _ ← Parser.advance
      Parser.report (.invalidCharacter t.span t.text)
      alloc number .malformed t.span
    | .punctuation =>
      if t.text == "(" then
        let _ ← Parser.advance
        let inner ← expression n
        let _ ← Parser.expectClosing ")" '(' t.span
        return inner
      if !Parser.isAwaited t.text then let _ ← Parser.advance
      store number (Parser.missing t)
    | .end => store number (Parser.missing t)
end

/-- A whole text: one expression up to the mark of the end. -/
def whole (fuel : Nat) : Alloc Nat := do
  let t ← Parser.current
  if t.isEnd then
    Parser.report (.emptyExpression t.span)
    alloc number .malformed t.span
  else
    let root ← expression number fuel
    let t ← Parser.current
    if !t.isEnd then Parser.report (.unexpectedToken t.span "end of expression" t.text)
    return root

/-! ### Texts -/

/-- What has been made of a stretch of text: a result, the arena and the findings. -/
structure Outcome (α : Type) where
  result : α
  nodes : Listing
  found : List Diagnostic

/-- Parses the expression that a text spells, which starts at byte `base` of a larger text, into
an arena. -/
def parseAt (nodes : Listing) (text : List Char) (base : Nat) : Outcome Nat :=
  let lexed := Lexer.lexAt text base
  let r := whole number (10 * lexed.tokens.length + 10) nodes ⟨.ofTokens lexed.tokens, #[]⟩
  ⟨r.1.1, r.1.2, lexed.diagnostics ++ r.2.findings.toList⟩

/-- A text segment in front of others, unless it is empty. -/
def flush (literal : List Char) (segments : List ListedSegment) : List ListedSegment :=
  if literal.isEmpty then segments else .text (String.ofList literal.reverse) :: segments

/-- The segments of some pieces of which the first starts at byte `offset`; their expressions are
parsed into one arena.  `literal` holds the literal characters read so far, the last one first. -/
def assemble (offset : Nat) (literal : List Char) (nodes : Listing) :
    List Template.Piece → Outcome (List ListedSegment)
  | [] => ⟨flush literal [], nodes, []⟩
  | piece :: rest =>
    let behind := offset + Lexer.width piece.source
    match piece with
    | .literal c => assemble behind (c :: literal) nodes rest
    | .percent => assemble behind ('%' :: literal) nodes rest
    | .conversion spec blanks inner closed =>
      let base := offset + Lexer.width (Template.Piece.opener spec blanks)
      let unterminated :=
        if closed then []
        else [Diagnostic.unterminatedFormat (.ofRange offset base) spec.display]
      let e := parseAt number nodes inner (min base Span.limit)
      let more := assemble behind [] e.nodes rest
      ⟨flush literal (.format spec e.result :: more.result), more.nodes,
        unterminated ++ e.found ++ more.found⟩

/-- The root of a text, the arena before the sweep, and the findings of the parser. -/
def raw (text : String) : Outcome Nat :=
  let cs := text.toList
  if Template.isFormat cs then
    let r := assemble number 0 [] #[] (Template.pieces cs)
    ⟨number r.nodes.size, r.nodes.push ⟨.template r.result, .ofRange 0 (Lexer.width cs), none⟩,
      r.found⟩
  else parseAt number #[] cs 0

/-! ### The sweep -/

/-- The text of listed segments that hold no conversion. -/
def constantText? : List ListedSegment → Option String
  | [] => some ""
  | .text s :: rest => (constantText? rest).map (s ++ ·)
  | .format .. :: _ => none

/-- The constant of a node from those that are recorded of its operands. -/
def foldNode (nodes : Listing) (shape : Shape) : Option Constant :=
  match shape with
  | .number value => some ⟨value.toScalar, false⟩
  | .text value => some ⟨.text value, false⟩
  | .unary op operand => Expr.foldUnary op (nodes.constantOf operand)
  | .binary op left right => Expr.foldBinary op (nodes.constantOf left) (nodes.constantOf right)
  | .conditional cond yes no =>
    Expr.foldConditional (nodes.constantOf cond) (nodes.constantOf yes) (nodes.constantOf no)
  | .assign op _ value => Expr.foldAssign op (nodes.constantOf value)
  | .template segments => (constantText? segments).map fun s => ⟨.text s, false⟩
  | .ident _ | .member .. | .index .. | .update .. | .call .. | .intrinsic .. | .malformed => none

/-- The finding about an operator that fails on the constants recorded of its operands. -/
def foldFindings (nodes : Listing) (n : Node) : List Diagnostic :=
  match n.shape with
  | .binary op left right =>
    (Expr.foldFault? op (nodes.constantOf left) (nodes.constantOf right)).toList.map
      fun fault => Diagnostic.constantFault n.span fault.message op.symbol
  | _ => []

/-- The sweep over one node: its constant is recorded behind those of the nodes before. -/
def sweepNode (swept : Listing × List Diagnostic) (n : Node) : Listing × List Diagnostic :=
  (swept.1.push { n with constant := foldNode swept.1 n.shape },
    swept.2 ++ foldFindings swept.1 n)

/-- The sweep over an arena, from the first node to the last. -/
def sweep (nodes : Listing) : Listing × List Diagnostic :=
  nodes.toList.foldl sweepNode (#[], [])

/-- The root, the arena and the findings of a text.  The findings about constants come behind all
others. -/
def parse (text : String) : Outcome Nat :=
  let r := raw number text
  let swept := sweep r.nodes
  ⟨r.result, swept.1, r.found ++ swept.2⟩

end Arena
end TargetView
