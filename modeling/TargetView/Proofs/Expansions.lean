import TargetView.Proofs.Completeness
import TargetView.Proofs.Folding
import TargetView.Proofs.FreeNames
import TargetView.Proofs.Runs

/-! # Compound assignments and updates by one

A compound assignment to a name and an update of it do what a plain assignment
of an operator does (`assignments_expand`): they ask the host for the same, in
the same order, and fail alike.  An update behind its target gives the old
number instead of the new one.

Texts are given by their words.  A text that is no format text and whose words
are a phrase of the grammar evaluates like the tree that they are derived from
(`run_of_spells`), since spans do not matter to evaluation (`walk_bare`).
-/
namespace TargetView

variable {σ : Type}

/-! ## Spans -/

theorem Expr.calleeName_bare (e : Expr) : e.bare.calleeName = e.calleeName := by
  cases e <;> simp only [bare, calleeName]

theorem Expr.nameFor?_bare (fn : Intrinsic) (e : Expr) : e.bare.nameFor? fn = e.nameFor? fn := by
  cases e <;> simp only [bare, nameFor?, name?]

/-! ## Operators of assignments -/

namespace BinaryOp

variable {op : BinaryOp}

theorem isAssignable_of_mem_all (h : AssignOp.compound op ∈ AssignOp.all) :
    op.isAssignable = true := by
  revert h
  cases op <;> decide

theorem isShortCircuit_of_isAssignable (h : op.isAssignable = true) :
    op.isShortCircuit = false := by
  cases op <;> first | rfl | cases h

theorem onValues_of_isAssignable (h : op.isAssignable = true) (l r : Value) :
    op.onValues l r = (do
      let l ← l.operand
      let r ← r.operand
      return .scalar (← op.apply l r) : Eval σ Value) := by
  cases op <;> first | rfl | cases h

end BinaryOp

namespace Eval

/-- The first evaluation does what the second one does and fails as it does.
Where the second one ends with a value, the first one gives the value that the
third one has in the state before. -/
def Echoes (x y before : Eval σ Value) : Prop :=
  ∀ s, match y.run.run s with
    | (.error fault, t) => x.run.run s = (.error fault, t)
    | (.ok _, t) => ∃ old, (before.run.run s).1 = .ok old ∧ x.run.run s = (.ok old, t)

end Eval

namespace Evaluation

variable (host : Host σ) (scope : Option Ref)

mutual
/-- The walk over an expression does not depend on its spans. -/
theorem walk_bare : ∀ e : Expr,
    evalWith host scope (fun _ => none) e.bare = evalWith host scope (fun _ => none) e
  | .number .. | .text .. | .ident .. | .malformed _ | .unnamed .. => by
    rw [Expr.bare, evalWith, evalWith]
  | .member base _ _ | .unary _ base _ => by
    rw [Expr.bare, evalWith, evalWith, walk_bare base]
  | .index base key _ => by
    rw [Expr.bare, evalWith, evalWith, walk_bare base, walk_bare key]
  | .binary _ left right _ => by
    rw [Expr.bare, evalWith, evalWith, walk_bare left, walk_bare right]
  | .conditional cond yes no _ => by
    rw [Expr.bare, evalWith, evalWith, walk_bare cond, walk_bare yes, walk_bare no]
  | .assign _ target value _ => by
    rw [Expr.bare, evalWith, evalWith, place_bare target, walk_bare value]
  | .update _ _ target _ => by
    rw [Expr.bare, evalWith, evalWith, place_bare target]
  | .call callee _ _ => by
    rw [Expr.bare, evalWith, evalWith, Expr.calleeName_bare]
  | .intrinsic fn _ args _ => by
    rw [Expr.bare, evalWith, evalWith, arguments_bare fn args]

theorem place_bare : ∀ e : Expr,
    placeWith host scope (fun _ => none) e.bare = placeWith host scope (fun _ => none) e
  | .ident .. => by rw [Expr.bare, placeWith, placeWith]
  | .member base _ _ => by rw [Expr.bare, placeWith, placeWith, place_bare base]
  | .index base key _ => by
    rw [Expr.bare, placeWith, placeWith, place_bare base, walk_bare key]
  | .number .. | .text .. | .unary .. | .binary .. | .conditional .. | .assign .. | .update ..
  | .call .. | .intrinsic .. | .malformed _ | .unnamed .. => by simp only [Expr.bare, placeWith]

theorem arguments_bare (fn : Intrinsic) : ∀ es : List Expr,
    argumentsWith host scope (fun _ => none) fn (Expr.bareAll es) =
      argumentsWith host scope (fun _ => none) fn es
  | [] => rfl
  | e :: rest => by
    rw [Expr.bareAll, argumentsWith, argumentsWith, Expr.nameFor?_bare, walk_bare e,
      arguments_bare fn rest]
end

/-! ## Texts by their words -/

/-- The text is an expression text and consists of some words. -/
def Spells (text : String) (words : List Word) : Prop :=
  Template.isFormat text.toList = false ∧ Lexer.wordsOf text.toList = words

instance (text : String) (words : List Word) : Decidable (Spells text words) :=
  inferInstanceAs (Decidable (_ ∧ _))

/-- A text of a derived phrase evaluates like the tree of the phrase. -/
theorem run_of_spells {text : String} {words : List Word} {e : Expr} (h : Spells text words)
    (he : Grammar.Expression e words) :
    run host scope (parse text) = evalWith host scope (fun _ => none) e := by
  obtain ⟨hformat, rfl⟩ := h
  have hbare := (Parser.parse_of_derivation 0 he).1
  rw [run_eq_walkAll, parse_of_not_isFormat hformat]
  change evalWith host scope _ (Parser.parse (Lexer.lexAt text.toList 0).tokens).1 = _
  rw [← walk_bare, hbare, walk_bare]

/-- A word of a text that is a name is no path. -/
theorem isPath_of_spells {text name : String} {words : List Word} (h : Spells text words)
    (hname : Word.name name ∈ words) : isPath name = false := by
  obtain ⟨-, rfl⟩ := h
  exact Lexer.isPath_of_mem_wordsOf hname

/-! ## Trees -/

section Names

variable {x : String} (hx : isPath x = false) {span target : Span}

theorem walk_ident :
    evalWith host scope (fun _ => none) (.ident x span) = host.readName scope x := by
  rw [evalWith]

theorem walk_plus :
    evalWith host scope (fun _ => none) (.unary .plus (.ident x target) span) = (do
      return .scalar (Scalar.unary .plus (← (← host.readName scope x).operand))) := by
  rw [evalWith, walk_ident]

theorem walk_strict {op : BinaryOp} (hop : op.isAssignable = true) (l r : Expr) :
    evalWith host scope (fun _ => none) (.binary op l r span) = (do
      let left ← evalWith host scope (fun _ => none) l
      let right ← evalWith host scope (fun _ => none) r
      let left ← left.operand
      let right ← right.operand
      return .scalar (← op.apply left right)) := by
  rw [evalWith_strict (BinaryOp.isShortCircuit_of_isAssignable hop) rfl]
  simp only [BinaryOp.onValues_of_isAssignable hop]

include hx

theorem place_ident :
    placeWith host scope (fun _ => none) (.ident x span) = pure (.symbol x) := by
  rw [placeWith, if_neg (by rw [hx]; exact Bool.false_ne_true)]

theorem walk_assign_ident (value : Expr) :
    evalWith host scope (fun _ => none) (.assign .assign (.ident x target) value span) = (do
      let result ← evalWith host scope (fun _ => none) value
      host.writePlace scope (.symbol x) result
      return result) := by
  rw [evalWith, place_ident host scope hx]
  rfl

theorem walk_compound_ident (op : BinaryOp) (value : Expr) :
    evalWith host scope (fun _ => none) (.assign (.compound op) (.ident x target) value span) = (do
      let current ← host.readName scope x
      let operand ← evalWith host scope (fun _ => none) value
      let left ← current.operand
      let right ← operand.operand
      let result := .scalar (← op.apply left right)
      host.writePlace scope (.symbol x) result
      return result) := by
  rw [evalWith, place_ident host scope hx]
  rfl

theorem walk_update_ident (op : UpdateOp) (before : Bool) :
    evalWith host scope (fun _ => none) (.update op before (.ident x target) span) = (do
      let old := Scalar.unary .plus (← (← host.readName scope x).operand)
      let new ← op.step.apply old (.number 1)
      host.writePlace scope (.symbol x) (.scalar new)
      return .scalar (if before then new else old)) := by
  rw [evalWith, place_ident host scope hx]
  rfl

end Names

section Expansions

variable {x : String} (hx : isPath x = false) {span span' target target' left right one : Span}
include hx

/-- A compound assignment to a name assigns what the operator makes of the name
and the value. -/
theorem walk_compound {op : BinaryOp} (hop : op.isAssignable = true) (value : Expr) :
    evalWith host scope (fun _ => none) (.assign (.compound op) (.ident x target) value span) =
      evalWith host scope (fun _ => none)
        (.assign .assign (.ident x target') (.binary op (.ident x left) value right) span') := by
  rw [walk_compound_ident host scope hx, walk_assign_ident host scope hx,
    walk_strict host scope hop, walk_ident]
  simp only [bind_assoc, pure_bind]

/-- An update before a name assigns what its step makes of the number that the
name holds. -/
theorem walk_update (op : UpdateOp) :
    evalWith host scope (fun _ => none) (.update op true (.ident x target) span) =
      evalWith host scope (fun _ => none)
        (.assign .assign (.ident x target') (.binary op.step (.unary .plus (.ident x left) one)
          (.number (.float 1) one) right) span') := by
  have hop : op.step.isAssignable = true := by cases op <;> rfl
  rw [walk_update_ident host scope hx, walk_assign_ident host scope hx,
    walk_strict host scope hop, walk_plus, evalWith]
  simp only [bind_assoc, pure_bind]
  rfl

/-- An update behind a name does what the one before it does, and gives the
number that the name held. -/
theorem walk_update_behind (op : UpdateOp) :
    Eval.Echoes (evalWith host scope (fun _ => none) (.update op false (.ident x target) span))
      (evalWith host scope (fun _ => none) (.update op true (.ident x target') span'))
      (evalWith host scope (fun _ => none) (.unary .plus (.ident x left) one)) := by
  intro s
  rw [walk_update_ident host scope hx, walk_update_ident host scope hx, walk_plus]
  -- All three read the name and take what it holds as a number.
  rcases hread : (host.readName scope x).run.run s with ⟨fault | current, t⟩
  · rw [run_bind_of_error hread, run_bind_of_error hread]
  rw [run_bind_of_ok hread, run_bind_of_ok hread, run_bind_of_ok hread]
  rcases hnumber : (current.operand : Eval σ Scalar).run.run t with ⟨fault | number, u⟩
  · rw [run_bind_of_error hnumber, run_bind_of_error hnumber]
  rw [run_bind_of_ok hnumber, run_bind_of_ok hnumber, run_bind_of_ok hnumber]
  -- The two updates go on alike up to what they give.
  rcases hstep : (op.step.apply (Scalar.unary .plus number) (.number 1) :
    Eval σ Scalar).run.run u with ⟨fault | new, v⟩
  · rw [run_bind_of_error hstep, run_bind_of_error hstep]
  rw [run_bind_of_ok hstep, run_bind_of_ok hstep]
  rcases hwrite : (host.writePlace scope (.symbol x) (.scalar new)).run.run v with ⟨fault | _, w⟩
  · rw [run_bind_of_error hwrite, run_bind_of_error hwrite]
  · rw [run_bind_of_ok hwrite, run_bind_of_ok hwrite]
    exact ⟨.scalar (Scalar.unary .plus number), rfl, rfl⟩

end Expansions

end Evaluation

/-! ## Phrases -/

namespace Grammar

variable {x : String}

/-- A name but for the two truth values is an operand. -/
theorem Suffixed.ident (ht : x ≠ "true") (hf : x ≠ "false") :
    Suffixed (.ident x .none) [Word.name x] :=
  .primary (.ident .none ht hf)

theorem Choice.ident (ht : x ≠ "true") (hf : x ≠ "false") :
    Choice (.ident x .none) [Word.name x] :=
  .chain (.operand (.suffixed (.ident ht hf)))

theorem Prefixed.plus (ht : x ≠ "true") (hf : x ≠ "false") :
    Prefixed (.unary .plus (.ident x .none) .none) [Word.mark "+", Word.name x] :=
  .unary .none (.suffixed (.ident ht hf))

/-- The step of an update. -/
theorem Prefixed.one : Prefixed (.number (.float 1) .none) [⟨.number, "1"⟩] :=
  .suffixed (.primary (.number .none rfl))

/-- A name before an operator and its right operand. -/
theorem Expression.assigned {op : BinaryOp} {left right : Expr} {ls rs : List Word}
    (ht : x ≠ "true") (hf : x ≠ "false") (hl : Prefixed left ls) (hr : Prefixed right rs) :
    Expression (.assign .assign (.ident x .none) (.binary op left right .none) .none)
      (Word.name x :: Word.mark "=" :: (ls ++ Word.mark op.symbol :: rs)) :=
  .assign .none (by decide) rfl (.ident ht hf)
    (.choice (.chain (.operator .none op.precedence_pos (.operand hl) (.operand hr))))

end Grammar

/-! ## The expansions -/

namespace Evaluation

/-- On every host, whatever is in scope, the two texts come to the same value or
fault and to the same state, with the same calls of the host. -/
def DoesAs (text text' : String) : Prop :=
  ∀ (σ : Type) (host : Host σ) (scope : Option Ref),
    run host scope (parse text) = run host scope (parse text') ∧
      run host.logged scope (parse text) = run host.logged scope (parse text')

/-- On every host, whatever is in scope, the first text echoes the second one
with the value of the third, the calls of the host included. -/
def Echoes (text text' before : String) : Prop :=
  ∀ (σ : Type) (host : Host σ) (scope : Option Ref),
    Eval.Echoes (run host scope (parse text)) (run host scope (parse text'))
        (run host scope (parse before)) ∧
      Eval.Echoes (run host.logged scope (parse text)) (run host.logged scope (parse text'))
        (run host.logged scope (parse before))

theorem doesAs_of_run {text text' : String}
    (h : ∀ {σ : Type} (host : Host σ) (scope : Option Ref),
      run host scope (parse text) = run host scope (parse text')) : DoesAs text text' :=
  fun _ host scope => ⟨h host scope, h host.logged scope⟩

/-- **Assignments and updates are their expansions.**  A compound assignment to
a name does as the assignment of the operator applied to the name and to the
value in parentheses.  An update before a name does as the assignment of its
step.  An update behind a name echoes the one before it with the number that the
name holds. -/
theorem assignments_expand {x : String} (ht : x ≠ "true") (hf : x ≠ "false") :
    (∀ op value compound expanded, AssignOp.compound op ∈ AssignOp.all →
      Template.isFormat value.toList = false →
      (∀ d ∈ (parse value).diagnostics, d.isSyntaxError = false) →
      Spells compound (Word.name x :: Word.mark (AssignOp.compound op).symbol ::
        Lexer.wordsOf value.toList) →
      Spells expanded (Word.name x :: Word.mark "=" :: Word.name x :: Word.mark op.symbol ::
        Word.mark "(" :: (Lexer.wordsOf value.toList ++ [Word.mark ")"])) →
      DoesAs compound expanded) ∧
    (∀ (op : UpdateOp) before expanded,
      Spells before [Word.mark op.symbol, Word.name x] →
      Spells expanded [Word.name x, Word.mark "=", Word.mark "+", Word.name x,
        Word.mark op.step.symbol, ⟨.number, "1"⟩] →
      DoesAs before expanded) ∧
    (∀ (op : UpdateOp) behind before number,
      Spells behind [Word.name x, Word.mark op.symbol] →
      Spells before [Word.mark op.symbol, Word.name x] →
      Spells number [Word.mark "+", Word.name x] →
      Echoes behind before number) := by
  refine ⟨fun op value compound expanded hop hformat hvalue hc he => ?_,
    fun op before expanded hb he => ?_, fun op behind before number ha hb hn => ?_⟩
  · have hx := isPath_of_spells hc List.mem_cons_self
    rw [parse_of_not_isFormat hformat] at hvalue
    have hv := Template.parseAt_derives value.toList 0 fun d hd =>
      hvalue d (List.mem_append_left _ hd)
    refine doesAs_of_run fun host scope => ?_
    rw [run_of_spells host scope hc (.assign .none hop rfl (.ident ht hf) hv),
      run_of_spells host scope he
        (.assigned ht hf (.suffixed (.ident ht hf)) (.suffixed (.primary (.parens hv))))]
    exact walk_compound host scope hx (BinaryOp.isAssignable_of_mem_all hop) _
  · have hx := isPath_of_spells hb (List.mem_cons_of_mem _ List.mem_cons_self)
    refine doesAs_of_run fun host scope => ?_
    rw [run_of_spells host scope hb
        (.choice (.chain (.operand (.update .none rfl (.suffixed (.ident ht hf)))))),
      run_of_spells host scope he (.assigned ht hf (.plus ht hf) .one)]
    exact walk_update host scope hx op
  · have hx := isPath_of_spells ha List.mem_cons_self
    have hecho {σ : Type} (host : Host σ) (scope : Option Ref) :
        Eval.Echoes (run host scope (parse behind)) (run host scope (parse before))
          (run host scope (parse number)) := by
      rw [run_of_spells host scope ha
          (.choice (.chain (.operand (.suffixed (.update .none rfl (.ident ht hf)))))),
        run_of_spells host scope hb
          (.choice (.chain (.operand (.update .none rfl (.suffixed (.ident ht hf)))))),
        run_of_spells host scope hn (.choice (.chain (.operand (.plus ht hf))))]
      exact walk_update_behind host scope hx op
    exact fun _ host scope => ⟨hecho host scope, hecho host.logged scope⟩

/-- A counter, on the right-hand side of whose assignment it is updated. -/
theorem assignments_expand_counter :
    DoesAs "n += n++ * 2" "n = n + (n++ * 2)" ∧ DoesAs "++n" "n = +n + 1" ∧
      Echoes "n--" "--n" "+n" := by
  obtain ⟨hcompound, hbefore, hbehind⟩ :=
    assignments_expand (x := "n") (by decide) (by decide)
  exact ⟨hcompound .add "n++ * 2" _ _ (by decide) (by decide +kernel) (by decide +kernel)
      (by decide +kernel) (by decide +kernel),
    hbefore .increment _ _ (by decide +kernel) (by decide +kernel),
    hbehind .decrement _ _ _ (by decide +kernel) (by decide +kernel) (by decide +kernel)⟩

end Evaluation
end TargetView
