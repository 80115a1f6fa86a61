import TargetView.Expr.Parser

/-! # The parser, step by step

Every function of the parser is a state transformer.  The equations here say
what one call makes of a state, with the calls inside it applied to the states
they start from, so that the proofs about the grammar need not open the monad.
-/
namespace TargetView.Parser

/-! ### States -/

namespace State

/-- The token at the cursor. -/
def current (s : State) : Token := s.cursor.current

/-- The state behind the token at the cursor. -/
def next (s : State) : State := ⟨s.cursor.next, s.findings⟩

/-- The state with a further finding. -/
def push (s : State) (d : Diagnostic) : State := ⟨s.cursor, s.findings.push d⟩

/-- The operator at the cursor, if there is one of the wanted sort. -/
def operator? {α : Type} (ofSymbol? : String → Option α) (s : State) : Option α :=
  s.cursor.punctuation?.bind ofSymbol?

/-- The state after a target has been checked. -/
def checked (s : State) (target : Expr) (symbol : String) : State :=
  if target.isAssignable || target.isMalformed then s
  else s.push (.invalidTarget target.span symbol)

/-- The span of a closing bracket, and the state behind it. -/
def closed (s : State) (bracket : String) (opening : Char) (opened : Span) : Span × State :=
  if s.cursor.sees bracket then (s.current.span, s.next)
  else (.point s.current.span.start, s.push (.unclosedDelimiter opened s.current.span opening))

end State

/-! ### Single steps -/

variable {α β : Type}

theorem bind_apply (x : Parse α) (f : α → Parse β) (s : State) :
    (x >>= f) s = f (x s).1 (x s).2 := rfl

theorem pure_apply (a : α) (s : State) : (pure a : Parse α) s = (a, s) := rfl

theorem ite_apply {c : Prop} [Decidable c] (x y : Parse α) (s : State) :
    (if c then x else y) s = if c then x s else y s := by
  split <;> rfl

theorem advance_apply (s : State) : advance s = (s.current, s.next) := rfl

theorem current_apply (s : State) : current s = (s.current, s) := rfl

theorem cursor_apply (s : State) : cursor s = (s.cursor, s) := rfl

theorem report_apply (d : Diagnostic) (s : State) : report d s = ((), s.push d) := rfl

theorem operator?_apply (f : String → Option α) (s : State) :
    operator? f s = (s.operator? f, s) := rfl

theorem eat_apply (p : String) (s : State) :
    eat p s = if s.cursor.sees p then (true, s.next) else (false, s) := by
  unfold eat Cursor.eat State.next
  cases h : s.cursor.sees p <;>
    simp [modifyGet, MonadStateOf.modifyGet, StateT.modifyGet, h] <;> rfl

theorem checkTarget_apply (e : Expr) (symbol : String) (s : State) :
    checkTarget e symbol s = ((), s.checked e symbol) := by
  unfold checkTarget State.checked
  split <;> rfl

theorem expectClosing_apply (bracket : String) (opening : Char) (opened : Span) (s : State) :
    expectClosing bracket opening opened s = s.closed bracket opening opened := by
  unfold expectClosing State.closed
  simp only [bind_apply, ↓ite_apply, cursor_apply]
  rfl

theorem forM_report_apply (ds : List Diagnostic) (s : State) :
    ds.forM report s = ((), ds.foldl State.push s) := by
  induction ds generalizing s with
  | nil => rfl
  | cons d rest ih =>
    change (report d >>= fun _ => rest.forM report) s = _
    rw [bind_apply, report_apply]
    exact ih (s.push d)

/-! ### Literals, members and paths -/

theorem numberNode_apply (t : Token) (s : State) :
    numberNode t s =
      match Literal.decode t.text with
      | .ok value =>
        (.number value t.span,
          if value.isInexact t.text then s.push (.inexactInteger t.span t.text) else s)
      | .error fault =>
        (.malformed t.span, s.push (.invalidNumber t.span t.text fault.message)) := by
  unfold numberNode
  cases Literal.decode t.text with
  | ok value =>
    simp only [↓ite_apply, bind_apply]
    cases value.isInexact t.text <;> rfl
  | error fault => rfl

theorem textNode_apply (t : Token) (s : State) :
    textNode t s =
      let cooked := Literal.cook t.text t.span.start
      (.text cooked.1 t.span, cooked.2.foldl State.push s) := by
  unfold textNode
  simp only [bind_apply, forM_report_apply, pure_apply]

theorem member_apply (base : Expr) (s : State) :
    member base s =
      let t := s.next.current
      if t.kind == .identifier then
        (.member base t.text (base.span.merge t.span), s.next.next)
      else
        (.unnamed base (base.span.merge s.next.cursor.behind),
          s.next.push (.expectedMember t.span t.text)) := by
  rw [member, bind_apply, bind_apply, current_apply, advance_apply]
  dsimp only
  cases s.next.current.kind == .identifier <;> rfl

theorem joined_succ (n : Nat) (name : String) (span : Span) (s : State) :
    joined (n + 1) name span s =
      joined n (name ++ s.current.text) (span.merge s.current.span) s.next := rfl

/-! ### The grammar

A function that has run out of calls records a missing expression. -/

theorem expression_zero (s : State) : expression 0 s = missing s.current s := by
  rw [expression]; rfl

theorem conditional_zero (s : State) : conditional 0 s = missing s.current s := by
  rw [conditional]; rfl

theorem binary_zero (least : Nat) (s : State) : binary 0 least s = missing s.current s := by
  rw [binary]; rfl

theorem operators_zero (least : Nat) (left : Expr) (s : State) :
    operators 0 least left s = missing s.current s := by
  rw [operators]; rfl

theorem unary_zero (s : State) : unary 0 s = missing s.current s := by
  rw [unary]; rfl

theorem suffixes_zero (e : Expr) (s : State) : suffixes 0 e s = missing s.current s := by
  rw [suffixes]; rfl

theorem call_zero (callee : Expr) (s : State) : call 0 callee s = missing s.current s := by
  rw [call]; rfl

theorem arguments_zero (paths : Bool) (s : State) :
    arguments 0 paths s = ([(missing s.current s).1], (missing s.current s).2) := by
  rw [arguments]; rfl

theorem primary_zero (s : State) : primary 0 s = missing s.current s := by
  rw [primary]; rfl

theorem expression_succ (n : Nat) (s : State) :
    expression (n + 1) s =
      let r := conditional n s
      match r.2.operator? AssignOp.ofSymbol? with
      | none => r
      | some op =>
        let v := expression n (r.2.next.checked r.1 op.symbol)
        (.assign op r.1 v.1 (r.1.span.merge v.1.span), v.2) := by
  rw [expression]
  simp only [bind_apply, operator?_apply]
  cases (conditional n s).2.operator? AssignOp.ofSymbol? with
  | none => rfl
  | some op => simp only [bind_apply, advance_apply, checkTarget_apply, pure_apply]

theorem conditional_succ (n : Nat) (s : State) :
    conditional (n + 1) s =
      let c := binary n 1 s
      if c.2.cursor.sees "?" then
        let y := expression n c.2.next
        if y.2.cursor.sees ":" then
          let r := conditional n y.2.next
          (.conditional c.1 y.1 r.1 (c.1.span.merge r.1.span), r.2)
        else
          let t := y.2.current
          (.conditional c.1 y.1 (.malformed t.span) (c.1.span.merge t.span),
            y.2.push (.unexpectedToken t.span "`:` in conditional expression" t.text))
      else c := by
  rw [conditional]
  simp only [bind_apply, eat_apply]
  cases (binary n 1 s).2.cursor.sees "?" with
  | false => rfl
  | true =>
    simp only [if_true, bind_apply, Bool.not_true, Bool.false_eq_true, if_false, eat_apply]
    cases (expression n (binary n 1 s).2.next).2.cursor.sees ":" <;> rfl

theorem binary_succ (n least : Nat) (s : State) :
    binary (n + 1) least s = operators n least (unary n s).1 (unary n s).2 := by
  rw [binary]
  rfl

theorem operators_succ (n least : Nat) (left : Expr) (s : State) :
    operators (n + 1) least left s =
      match s.operator? BinaryOp.ofSymbol? with
      | none => (left, s)
      | some op =>
        if op.precedence < least then (left, s)
        else
          let r := binary n (op.precedence + 1) s.next
          operators n least (.binary op left r.1 (left.span.merge r.1.span)) r.2 := by
  rw [operators]
  simp only [bind_apply, operator?_apply]
  cases s.operator? BinaryOp.ofSymbol? with
  | none => rfl
  | some op =>
    by_cases h : op.precedence < least
    · simp only [h, if_true]
      rfl
    · simp only [h, if_false, bind_apply, advance_apply]

theorem unary_succ (n : Nat) (s : State) :
    unary (n + 1) s =
      match s.operator? UpdateOp.ofSymbol? with
      | some op =>
        let r := unary n s.next
        (.update op true r.1 (s.current.span.merge r.1.span), r.2.checked r.1 op.symbol)
      | none =>
        match s.operator? UnaryOp.ofSymbol? with
        | some op =>
          let r := unary n s.next
          (.unary op r.1 (s.current.span.merge r.1.span), r.2)
        | none => suffixes n (primary n s).1 (primary n s).2 := by
  rw [unary]
  simp only [bind_apply, operator?_apply, current_apply]
  cases s.operator? UpdateOp.ofSymbol? with
  | some op => simp only [bind_apply, advance_apply, checkTarget_apply, pure_apply]
  | none =>
    simp only [bind_apply, operator?_apply]
    cases s.operator? UnaryOp.ofSymbol? <;> rfl

theorem suffixes_succ (n : Nat) (e : Expr) (s : State) :
    suffixes (n + 1) e s =
      if s.cursor.sees "(" then suffixes n (call n e s).1 (call n e s).2
      else if s.cursor.sees "." then suffixes n (member e s).1 (member e s).2
      else if s.cursor.sees "[" then
        let k := expression n s.next
        let c := k.2.closed "]" '[' s.current.span
        suffixes n (.index e k.1 (e.span.merge c.1)) c.2
      else
        match s.operator? UpdateOp.ofSymbol? with
        | some op =>
          suffixes n (.update op false e (e.span.merge s.current.span))
            (s.next.checked e op.symbol)
        | none => (e, s) := by
  rw [suffixes]
  simp only [bind_apply, cursor_apply, ↓ite_apply, advance_apply, expectClosing_apply,
    operator?_apply]
  cases s.operator? UpdateOp.ofSymbol? with
  | none => rfl
  | some op => simp only [bind_apply, advance_apply, checkTarget_apply]

theorem call_succ (n : Nat) (callee : Expr) (s : State) :
    call (n + 1) callee s =
      if s.next.cursor.sees ")" then
        let t := s.next.next
        (callNode callee [] (callee.span.merge t.cursor.behind), t)
      else
        let a := arguments n (intrinsic? callee).isSome s.next
        let t := (a.2.closed ")" '(' s.current.span).2
        (callNode callee a.1 (callee.span.merge t.cursor.behind), t) := by
  rw [call]
  simp only [bind_apply, advance_apply, eat_apply]
  cases s.next.cursor.sees ")" with
  | true =>
    simp only [if_true]
    cases intrinsic? callee <;> rfl
  | false =>
    simp only [Bool.false_eq_true, if_false, bind_apply, expectClosing_apply, pure_apply]
    cases intrinsic? callee <;> rfl

/-- The first argument, and the state behind it. -/
def argument (n : Nat) (paths : Bool) (s : State) : Expr × State :=
  let length := if paths then pathLength s.cursor.ahead else 0
  if length = 0 then expression n s else joined length "" s.cursor.span s

theorem arguments_succ (n : Nat) (paths : Bool) (s : State) :
    arguments (n + 1) paths s =
      let a := argument n paths s
      if a.2.cursor.sees "," then
        let r := arguments n paths a.2.next
        (a.1 :: r.1, r.2)
      else ([a.1], a.2) := by
  rw [arguments]
  simp only [bind_apply, ↓ite_apply, cursor_apply, eat_apply, argument]
  by_cases h : (if paths then pathLength s.cursor.ahead else 0) = 0
  · simp only [if_pos h]
    cases (expression n s).2.cursor.sees "," <;> rfl
  · simp only [if_neg h]
    generalize joined _ "" s.cursor.span s = a
    cases a.2.cursor.sees "," <;> rfl

theorem primary_succ (n : Nat) (s : State) :
    primary (n + 1) s =
      let t := s.current
      match t.kind with
      | .number => numberNode t s.next
      | .string => textNode t s.next
      | .identifier => (nameNode t, s.next)
      | .unknown => (.malformed t.span, s.next.push (.invalidCharacter t.span t.text))
      | .punctuation =>
        if t.text == "(" then
          let r := expression n s.next
          (r.1, (r.2.closed ")" '(' t.span).2)
        else if isAwaited t.text then missing t s
        else missing t s.next
      | .end => missing t s := by
  rw [primary, bind_apply, current_apply]
  dsimp only
  cases s.current.kind with
  | punctuation =>
    simp only [↓ite_apply, bind_apply, advance_apply, expectClosing_apply, pure_apply]
    cases isAwaited s.current.text <;> rfl
  | _ => rfl

theorem whole_apply (fuel : Nat) (s : State) :
    whole fuel s =
      if s.current.isEnd then
        (.malformed s.current.span, s.push (.emptyExpression s.current.span))
      else
        let r := expression fuel s
        if r.2.current.isEnd then r
        else
          let t := r.2.current
          (r.1, r.2.push (.unexpectedToken t.span "end of expression" t.text)) := by
  rw [whole, bind_apply, current_apply]
  dsimp only
  cases s.current.isEnd with
  | true => rfl
  | false =>
    simp only [Bool.false_eq_true, if_false]
    rw [bind_apply, bind_apply, current_apply]
    dsimp only
    cases (expression fuel s).2.current.isEnd <;> rfl

end TargetView.Parser
