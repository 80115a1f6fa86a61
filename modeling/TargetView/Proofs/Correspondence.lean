import TargetView.Proofs.Corresponding
import TargetView.Proofs.Leaves
import TargetView.Proofs.Lexing
import TargetView.Template

/-! # The parser moves with its tokens

The parser looks at the kinds and the texts of tokens and only carries their
spans around: it merges them, and puts empty spans at their beginnings.  So on
tokens that differ in spans only it does the same, and what it returns and
records differs in spans only, in the way in which those of the tokens differ.

A `Correspondence` says what this way is, for spans, tokens and findings, and
that it is kept by all that the parser does with spans.  Then it is kept by the
parser (`Template.parseAt_corresponds`), in every text and wherever the parser
recovers from errors.  One induction so serves for moving a text, for the limits
of spans, and for what the findings of one sort are about.
-/
namespace TargetView.Parser

/-- A relation between two readings of a text that all steps of the parser
keep. -/
structure Correspondence where
  Spans : Span → Span → Prop
  Tokens : Token → Token → Prop
  Findings : Diagnostic → Diagnostic → Prop
  kind : ∀ {t t' : Token}, Tokens t t' → t'.kind = t.kind
  text : ∀ {t t' : Token}, Tokens t t' → t'.text = t.text
  span : ∀ {t t' : Token}, Tokens t t' → Spans t.span t'.span
  merge : ∀ {s s' u u' : Span}, Spans s s' → Spans u u' → Spans (s.merge u) (s'.merge u')
  point : ∀ {s s' : Span}, Spans s s' → Spans (.point s.start) (.point s'.start)
  /-- Syntax errors are known from their labels. -/
  error : ∀ {d d' : Diagnostic}, d.Corresponds Spans d' → d.isSyntaxError = true → Findings d d'
  inexact : ∀ {t t' : Token} {value : Literal}, Tokens t t' → t.kind = .number →
    Literal.decode t.text = .ok value → value.isInexact t.text = true →
    Findings (.inexactInteger t.span t.text) (.inexactInteger t'.span t'.text)
  warnings : ∀ {t t' : Token}, Tokens t t' → t.kind = .string →
    List.Forall₂ Findings (Literal.cook t.text t.span.start).2
      (Literal.cook t'.text t'.span.start).2

variable {C : Correspondence}

/-! ### States -/

/-- The states are at the same place of two readings.  The token behind is known
to be related only if there is one, which `moved` says. -/
structure State.Corresponds (C : Correspondence) (moved : Prop) (s s' : State) : Prop where
  ahead : List.Forall₂ C.Tokens s.cursor.ahead s'.cursor.ahead
  mark : C.Tokens s.cursor.mark s'.cursor.mark
  behind : moved → C.Spans s.cursor.behind s'.cursor.behind
  findings : List.Forall₂ C.Findings s.findings.toList s'.findings.toList

theorem map_word_of_corresponds {ts ts' : List Token} (h : List.Forall₂ C.Tokens ts ts') :
    ts'.map Token.word = ts.map Token.word := by
  induction h with
  | nil => rfl
  | cons ht _ ih =>
    rw [List.map_cons, List.map_cons, ih, Token.word, Token.word, C.kind ht, C.text ht]

theorem isPunctuation_of_corresponds {t t' : Token} (h : C.Tokens t t') (p : String) :
    t'.isPunctuation p = t.isPunctuation p := by
  rw [Token.isPunctuation, Token.isPunctuation, C.kind h, C.text h]

theorem pathTail_of_corresponds {ts ts' : List Token} (h : List.Forall₂ C.Tokens ts ts') :
    pathTail ts' = pathTail ts := by
  fun_induction pathTail ts generalizing ts' with
  | case1 colon name rest hpath ih =>
    cases h with
    | cons hcolon h =>
      cases h with
      | cons hname hrest =>
        rw [pathTail, isPunctuation_of_corresponds hcolon, C.kind hname, if_pos hpath, ih hrest]
  | case2 colon name rest hpath =>
    cases h with
    | cons hcolon h =>
      cases h with
      | cons hname hrest =>
        rw [pathTail, isPunctuation_of_corresponds hcolon, C.kind hname, if_neg hpath]
  | case3 ts hshort =>
    cases h with
    | nil => rfl
    | cons _ h =>
      cases h with
      | nil => rfl
      | cons => exact absurd rfl (hshort _ _ _)

/-- A path is found by its words. -/
theorem pathLength_of_corresponds {ts ts' : List Token} (h : List.Forall₂ C.Tokens ts ts') :
    pathLength ts' = pathLength ts := by
  cases h with
  | nil => rfl
  | @cons t t' rest rest' ht hrest =>
    have hfollows {us us' : List Token} (h : List.Forall₂ C.Tokens us us') :
        (us'.head?.any fun t => t.isPunctuation "," || t.isPunctuation ")") =
          us.head?.any fun t => t.isPunctuation "," || t.isPunctuation ")" := by
      cases h with
      | nil => rfl
      | cons hu _ =>
        simp only [List.head?_cons, Option.any_some, isPunctuation_of_corresponds hu]
    simp only [pathLength]
    rw [pathTail_of_corresponds hrest, hfollows (List.forall₂_drop _ hrest), C.kind ht]

namespace State.Corresponds

variable {moved : Prop} {s s' : State} (h : s.Corresponds C moved s')
include h

theorem weaken {other : Prop} (hmoved : other → moved) : s.Corresponds C other s' :=
  ⟨h.ahead, h.mark, fun hother => h.behind (hmoved hother), h.findings⟩

theorem words : s'.words = s.words := map_word_of_corresponds h.ahead

theorem current : C.Tokens s.current s'.current := by
  have hahead := h.ahead
  unfold State.current Cursor.current
  cases ha : s.cursor.ahead with
  | nil =>
    rw [ha, List.forall₂_nil_left_iff] at hahead
    rw [hahead]
    exact h.mark
  | cons t rest =>
    rw [ha, List.forall₂_cons_left_iff] at hahead
    obtain ⟨t', rest', ht, -, ha'⟩ := hahead
    rw [ha']
    exact ht

theorem sees (p : String) : s'.cursor.sees p = s.cursor.sees p := by
  rw [State.sees_eq, State.sees_eq, h.words]

theorem operator? {α : Type} (ofSymbol? : String → Option α) :
    s'.operator? ofSymbol? = s.operator? ofSymbol? := by
  rw [State.operator?_eq, State.operator?_eq, h.words]

theorem isEnd : s'.current.isEnd = s.current.isEnd := by
  rw [Token.isEnd, Token.isEnd, C.kind h.current]

theorem next : s.next.Corresponds C moved s'.next := by
  have hahead := h.ahead
  unfold State.next Cursor.next
  cases ha : s.cursor.ahead with
  | nil =>
    rw [ha, List.forall₂_nil_left_iff] at hahead
    rw [hahead]
    exact h
  | cons t rest =>
    rw [ha, List.forall₂_cons_left_iff] at hahead
    obtain ⟨t', rest', ht, hrest, ha'⟩ := hahead
    rw [ha']
    exact ⟨hrest, h.mark, fun _ => C.span ht, h.findings⟩

/-- Behind a token there is a token behind. -/
theorem next_of_kind (hk : s.current.kind ≠ .end) : s.next.Corresponds C True s'.next := by
  refine ⟨h.next.ahead, h.next.mark, fun _ => ?_, h.findings⟩
  have hahead := h.ahead
  unfold State.next Cursor.next
  cases ha : s.cursor.ahead with
  | nil =>
    refine absurd (eq_of_beq s.cursor.isEnd_mark) ?_
    simpa [State.current, Cursor.current, ha] using hk
  | cons t rest =>
    rw [ha, List.forall₂_cons_left_iff] at hahead
    obtain ⟨t', rest', ht, -, ha'⟩ := hahead
    rw [ha']
    exact C.span ht

theorem next_of_sees {p : String} (hp : s.cursor.sees p = true) :
    s.next.Corresponds C True s'.next := by
  refine h.next_of_kind fun hk => ?_
  simp only [Cursor.sees, Token.isPunctuation, Bool.and_eq_true, beq_iff_eq] at hp
  cases hk.symm.trans hp.1

theorem push {d d' : Diagnostic} (hd : C.Findings d d') :
    (s.push d).Corresponds C moved (s'.push d') := by
  refine ⟨h.ahead, h.mark, h.behind, ?_⟩
  rw [State.push, State.push, Array.toList_push, Array.toList_push]
  exact List.rel_append h.findings (.cons hd .nil)

theorem pushError {d d' : Diagnostic} (hd : d.Corresponds C.Spans d')
    (he : d.isSyntaxError = true) : (s.push d).Corresponds C moved (s'.push d') :=
  h.push (C.error hd he)

theorem checked {e e' : Expr} (he : e.Corresponds C.Spans e') (symbol : String) :
    (s.checked e symbol).Corresponds C moved (s'.checked e' symbol) := by
  unfold State.checked
  rw [Expr.isAssignable_of_bare he.bare, he.isMalformed]
  split
  · exact h
  · exact h.pushError
      ((Diagnostic.labelled_corresponds he.span ..).noting _) rfl

theorem closed {opened opened' : Span} (ho : C.Spans opened opened') (bracket : String)
    (opening : Char) :
    C.Spans (s.closed bracket opening opened).1 (s'.closed bracket opening opened').1 ∧
      (s.closed bracket opening opened).2.Corresponds C moved
        (s'.closed bracket opening opened').2 := by
  unfold State.closed
  rw [h.sees]
  split
  · exact ⟨C.span h.current, h.next⟩
  · exact ⟨C.point (C.span h.current), h.pushError
      ((Diagnostic.labelled_corresponds (C.span h.current) ..).relating ho _) rfl⟩

end State.Corresponds

theorem State.Corresponds.foldl_push {moved : Prop} {ds ds' : List Diagnostic}
    (hd : List.Forall₂ C.Findings ds ds') : ∀ {s s' : State}, s.Corresponds C moved s' →
      (ds.foldl State.push s).Corresponds C moved (ds'.foldl State.push s') := by
  induction hd with
  | nil => exact fun h => h
  | cons hd _ ih => exact fun h => ih (h.push hd)

/-! ### Results -/

/-- The results are trees that correspond, in states that do. -/
structure Agree (C : Correspondence) (moved : Prop) (r r' : Expr × State) : Prop where
  tree : r.1.Corresponds C.Spans r'.1
  state : r.2.Corresponds C moved r'.2

variable {moved : Prop} {s s' : State}

theorem missing_corresponds {t t' : Token} (ht : C.Tokens t t')
    (h : s.Corresponds C moved s') : Agree C moved (missing t s) (missing t' s') := by
  refine ⟨.malformed (C.span ht), ?_⟩
  rw [missing, missing, bind_apply, bind_apply, C.text ht]
  exact h.pushError (Diagnostic.labelled_corresponds (C.span ht) ..) rfl

theorem numberNode_corresponds {t t' : Token} (ht : C.Tokens t t') (hk : t.kind = .number)
    (h : s.Corresponds C moved s') : Agree C moved (numberNode t s) (numberNode t' s') := by
  rw [numberNode_apply, numberNode_apply, C.text ht]
  cases hd : Literal.decode t.text with
  | ok value =>
    refine ⟨.number value (C.span ht), ?_⟩
    dsimp only
    split
    · next hi =>
      have hfinding := C.inexact ht hk hd hi
      rw [C.text ht] at hfinding
      exact h.push hfinding
    · exact h
  | error fault =>
    exact ⟨.malformed (C.span ht),
      h.pushError (Diagnostic.labelled_corresponds (C.span ht) ..) rfl⟩

theorem textNode_corresponds {t t' : Token} (ht : C.Tokens t t') (hk : t.kind = .string)
    (h : s.Corresponds C moved s') : Agree C moved (textNode t s) (textNode t' s') := by
  have hwarnings := C.warnings ht hk
  rw [textNode_apply, textNode_apply]
  refine ⟨?_, .foldl_push hwarnings h⟩
  dsimp only
  rw [C.text ht, Literal.cook_fst, Literal.cook_fst t.text t'.span.start]
  exact .text _ (C.span ht)

theorem nameNode_corresponds {t t' : Token} (ht : C.Tokens t t') :
    (nameNode t).Corresponds C.Spans (nameNode t') := by
  unfold nameNode
  rw [C.text ht]
  split
  · exact .number _ (C.span ht)
  · split
    · exact .number _ (C.span ht)
    · exact .ident _ (C.span ht)

theorem member_corresponds {base base' : Expr} (hb : base.Corresponds C.Spans base')
    (h : s.Corresponds C moved s') (hdot : s.cursor.sees "." = true) :
    Agree C moved (member base s) (member base' s') := by
  have hnext := h.next_of_sees hdot
  have ht := hnext.current
  rw [member_apply, member_apply]
  dsimp only
  rw [C.kind ht, C.text ht]
  split
  · exact ⟨.member _ hb (C.merge hb.span (C.span ht)), hnext.next.weaken fun _ => trivial⟩
  · refine ⟨.unnamed hb (C.merge hb.span (hnext.behind trivial)), ?_⟩
    exact (hnext.pushError (Diagnostic.labelled_corresponds (C.span ht) ..) rfl).weaken
      fun _ => trivial

theorem joined_corresponds {span span' : Span} (hspan : C.Spans span span') (n : Nat)
    (name : String) (h : s.Corresponds C moved s') :
    Agree C moved (joined n name span s) (joined n name span' s') := by
  induction n generalizing name span span' s s' with
  | zero => exact ⟨.ident name hspan, h⟩
  | succ n ih =>
    rw [joined_succ, joined_succ, C.text h.current]
    exact ih (C.merge hspan (C.span h.current)) _ h.next

/-! ### The grammar -/

/-- What the parser functions make of corresponding states when they may make `n`
nested calls. -/
structure Moves (C : Correspondence) (n : Nat) : Prop where
  expression : ∀ {moved s s'}, s.Corresponds C moved s' →
    Agree C moved (expression n s) (expression n s')
  conditional : ∀ {moved s s'}, s.Corresponds C moved s' →
    Agree C moved (conditional n s) (conditional n s')
  binary : ∀ {moved s s'} (least : Nat), s.Corresponds C moved s' →
    Agree C moved (binary n least s) (binary n least s')
  operators : ∀ {moved s s' left left'} (least : Nat), left.Corresponds C.Spans left' →
    s.Corresponds C moved s' → Agree C moved (operators n least left s) (operators n least left' s')
  unary : ∀ {moved s s'}, s.Corresponds C moved s' → Agree C moved (unary n s) (unary n s')
  suffixes : ∀ {moved s s' e e'}, e.Corresponds C.Spans e' → s.Corresponds C moved s' →
    Agree C moved (suffixes n e s) (suffixes n e' s')
  call : ∀ {moved s s' callee callee'}, callee.Corresponds C.Spans callee' →
    s.Corresponds C moved s' → s.cursor.sees "(" = true →
    Agree C moved (call n callee s) (call n callee' s')
  arguments : ∀ {moved s s'} (paths : Bool), s.Corresponds C moved s' →
    Expr.CorrespondAll C.Spans (arguments n paths s).1 (arguments n paths s').1 ∧
      (arguments n paths s).2.Corresponds C moved (arguments n paths s').2
  primary : ∀ {moved s s'}, s.Corresponds C moved s' → Agree C moved (primary n s) (primary n s')

theorem Moves.zero : Moves C 0 where
  expression h := by rw [expression_zero, expression_zero]; exact missing_corresponds h.current h
  conditional h := by rw [conditional_zero, conditional_zero]; exact missing_corresponds h.current h
  binary _ h := by rw [binary_zero, binary_zero]; exact missing_corresponds h.current h
  operators _ _ h := by rw [operators_zero, operators_zero]; exact missing_corresponds h.current h
  unary h := by rw [unary_zero, unary_zero]; exact missing_corresponds h.current h
  suffixes _ h := by rw [suffixes_zero, suffixes_zero]; exact missing_corresponds h.current h
  call _ h _ := by rw [call_zero, call_zero]; exact missing_corresponds h.current h
  arguments _ h := by
    rw [arguments_zero, arguments_zero]
    have hm := missing_corresponds h.current h
    exact ⟨.cons hm.tree .nil, hm.state⟩
  primary h := by rw [primary_zero, primary_zero]; exact missing_corresponds h.current h

namespace Moves

variable {n : Nat} (ih : Moves C n)
include ih

theorem expression_succ (h : s.Corresponds C moved s') :
    Agree C moved (Parser.expression (n + 1) s) (Parser.expression (n + 1) s') := by
  have hr := ih.conditional h
  rw [Parser.expression_succ, Parser.expression_succ]
  dsimp only
  rw [hr.state.operator?]
  cases (Parser.conditional n s).2.operator? AssignOp.ofSymbol? with
  | none => exact hr
  | some op =>
    have hv := ih.expression (hr.state.next.checked hr.tree op.symbol)
    exact ⟨.assign op hr.tree hv.tree (C.merge hr.tree.span hv.tree.span), hv.state⟩

theorem conditional_succ (h : s.Corresponds C moved s') :
    Agree C moved (Parser.conditional (n + 1) s) (Parser.conditional (n + 1) s') := by
  have hc := ih.binary 1 h
  rw [Parser.conditional_succ, Parser.conditional_succ]
  dsimp only
  rw [hc.state.sees]
  split
  · have hy := ih.expression hc.state.next
    rw [hy.state.sees]
    split
    · have hn := ih.conditional hy.state.next
      exact ⟨.conditional hc.tree hy.tree hn.tree (C.merge hc.tree.span hn.tree.span), hn.state⟩
    · have ht := hy.state.current
      rw [C.text ht]
      exact ⟨.conditional hc.tree hy.tree (.malformed (C.span ht))
        (C.merge hc.tree.span (C.span ht)),
        hy.state.pushError (Diagnostic.labelled_corresponds (C.span ht) ..) rfl⟩
  · exact hc

theorem binary_succ (least : Nat) (h : s.Corresponds C moved s') :
    Agree C moved (Parser.binary (n + 1) least s) (Parser.binary (n + 1) least s') := by
  have hu := ih.unary h
  rw [Parser.binary_succ, Parser.binary_succ]
  exact ih.operators least hu.tree hu.state

theorem operators_succ (least : Nat) {left left' : Expr} (hl : left.Corresponds C.Spans left')
    (h : s.Corresponds C moved s') :
    Agree C moved (Parser.operators (n + 1) least left s)
      (Parser.operators (n + 1) least left' s') := by
  rw [Parser.operators_succ, Parser.operators_succ, h.operator?]
  cases s.operator? BinaryOp.ofSymbol? with
  | none => exact ⟨hl, h⟩
  | some op =>
    dsimp only
    split
    · exact ⟨hl, h⟩
    · have hr := ih.binary (op.precedence + 1) h.next
      exact ih.operators least (.binary op hl hr.tree (C.merge hl.span hr.tree.span)) hr.state

theorem unary_succ (h : s.Corresponds C moved s') :
    Agree C moved (Parser.unary (n + 1) s) (Parser.unary (n + 1) s') := by
  rw [Parser.unary_succ, Parser.unary_succ, h.operator?]
  cases s.operator? UpdateOp.ofSymbol? with
  | some op =>
    have hr := ih.unary h.next
    exact ⟨.update op true hr.tree (C.merge (C.span h.current) hr.tree.span),
      hr.state.checked hr.tree op.symbol⟩
  | none =>
    dsimp only
    rw [h.operator?]
    cases s.operator? UnaryOp.ofSymbol? with
    | some op =>
      have hr := ih.unary h.next
      exact ⟨.unary op hr.tree (C.merge (C.span h.current) hr.tree.span), hr.state⟩
    | none =>
      have hp := ih.primary h
      exact ih.suffixes hp.tree hp.state

theorem suffixes_succ {e e' : Expr} (he : e.Corresponds C.Spans e')
    (h : s.Corresponds C moved s') :
    Agree C moved (Parser.suffixes (n + 1) e s) (Parser.suffixes (n + 1) e' s') := by
  rw [Parser.suffixes_succ, Parser.suffixes_succ, h.sees, h.sees, h.sees]
  split
  · next hopen =>
    have hc := ih.call he h hopen
    exact ih.suffixes hc.tree hc.state
  split
  · next hdot =>
    have hm := member_corresponds he h hdot
    exact ih.suffixes hm.tree hm.state
  split
  · have hk := ih.expression h.next
    obtain ⟨hspan, hclosed⟩ := hk.state.closed (C.span h.current) "]" '['
    exact ih.suffixes (.index he hk.tree (C.merge he.span hspan)) hclosed
  rw [h.operator?]
  cases s.operator? UpdateOp.ofSymbol? with
  | none => exact ⟨he, h⟩
  | some op =>
    exact ih.suffixes (.update op false he (C.merge he.span (C.span h.current)))
      (h.next.checked he op.symbol)

theorem call_succ {callee callee' : Expr} (hc : callee.Corresponds C.Spans callee')
    (h : s.Corresponds C moved s') (hopen : s.cursor.sees "(" = true) :
    Agree C moved (Parser.call (n + 1) callee s) (Parser.call (n + 1) callee' s') := by
  -- The span of a call reaches to the token behind the cursor, which is one of the call.
  have hnext := h.next_of_sees hopen
  rw [Parser.call_succ, Parser.call_succ, hnext.sees]
  dsimp only
  split
  · have hend := hnext.next
    exact ⟨.callNode hc .nil (C.merge hc.span (hend.behind trivial)),
      hend.weaken fun _ => trivial⟩
  · rw [Expr.intrinsic?_of_bare hc.bare]
    obtain ⟨hargs, hstate⟩ := ih.arguments (intrinsic? callee).isSome hnext
    obtain ⟨-, hend⟩ := hstate.closed (C.span h.current) ")" '('
    exact ⟨.callNode hc hargs (C.merge hc.span (hend.behind trivial)),
      hend.weaken fun _ => trivial⟩

theorem argument (paths : Bool) (h : s.Corresponds C moved s') :
    Agree C moved (Parser.argument n paths s) (Parser.argument n paths s') := by
  unfold Parser.argument
  rw [pathLength_of_corresponds h.ahead]
  dsimp only
  by_cases hl : (if paths then pathLength s.cursor.ahead else 0) = 0
  · rw [if_pos hl, if_pos hl]
    exact ih.expression h
  · rw [if_neg hl, if_neg hl]
    exact joined_corresponds (C.span h.current) _ "" h

theorem arguments_succ (paths : Bool) (h : s.Corresponds C moved s') :
    Expr.CorrespondAll C.Spans (Parser.arguments (n + 1) paths s).1
        (Parser.arguments (n + 1) paths s').1 ∧
      (Parser.arguments (n + 1) paths s).2.Corresponds C moved
        (Parser.arguments (n + 1) paths s').2 := by
  have ha := ih.argument paths h
  rw [Parser.arguments_succ, Parser.arguments_succ]
  dsimp only
  rw [ha.state.sees]
  split
  · obtain ⟨hrest, hend⟩ := ih.arguments paths ha.state.next
    exact ⟨.cons ha.tree hrest, hend⟩
  · exact ⟨.cons ha.tree .nil, ha.state⟩

theorem primary_succ (h : s.Corresponds C moved s') :
    Agree C moved (Parser.primary (n + 1) s) (Parser.primary (n + 1) s') := by
  have ht := h.current
  rw [Parser.primary_succ, Parser.primary_succ]
  dsimp only
  rw [C.kind ht, C.text ht]
  split
  · next hk => exact numberNode_corresponds ht hk h.next
  · next hk => exact textNode_corresponds ht hk h.next
  · exact ⟨nameNode_corresponds ht, h.next⟩
  · exact ⟨.malformed (C.span ht),
      h.next.pushError (Diagnostic.labelled_corresponds (C.span ht) ..) rfl⟩
  · split
    · have hr := ih.expression h.next
      exact ⟨hr.tree, (hr.state.closed (C.span ht) ")" '(').2⟩
    · split
      · exact missing_corresponds ht h
      · exact missing_corresponds ht h.next
  · exact missing_corresponds ht h

theorem succ : Moves C (n + 1) where
  expression := ih.expression_succ
  conditional := ih.conditional_succ
  binary := ih.binary_succ
  operators least hl h := ih.operators_succ least hl h
  unary := ih.unary_succ
  suffixes := ih.suffixes_succ
  call := ih.call_succ
  arguments := ih.arguments_succ
  primary := ih.primary_succ

end Moves

/-- **The parser moves with its tokens.** -/
theorem moves (C : Correspondence) : ∀ n, Moves C n
  | 0 => .zero
  | n + 1 => (moves C n).succ

theorem whole_corresponds (fuel : Nat) (h : s.Corresponds C moved s') :
    Agree C moved (whole fuel s) (whole fuel s') := by
  rw [whole_apply, whole_apply, h.isEnd]
  split
  · exact ⟨.malformed (C.span h.current),
      h.pushError (Diagnostic.labelled_corresponds (C.span h.current) ..) rfl⟩
  · have hr := (moves C fuel).expression h
    dsimp only
    rw [hr.state.isEnd]
    split
    · exact hr
    · have ht := hr.state.current
      rw [C.text ht]
      exact ⟨hr.tree,
        hr.state.pushError (Diagnostic.labelled_corresponds (C.span ht) ..) rfl⟩

end Parser

/-! ### Texts -/

namespace Lexer

/-- The mark of the end of a text. -/
def endMark (text : List Char) (base : Nat) : Token :=
  .endAt (min (min (width text) Span.limit + base) Span.limit)

end Lexer

namespace Template

open TargetView.Parser

/-- A text at two places has trees and findings that correspond if its tokens
do. -/
theorem parseAt_corresponds (C : Correspondence) (text : List Char) (base base' : Nat)
    (htokens : ∀ l ∈ Lexer.lexemes 0 text, C.Tokens (l.token base) (l.token base'))
    (hmark : C.Tokens (Lexer.endMark text base) (Lexer.endMark text base')) :
    (parseAt text base).1.Corresponds C.Spans (parseAt text base').1 ∧
      List.Forall₂ C.Findings (parseAt text base).2 (parseAt text base').2 := by
  have hstart (base : Nat) : (start text base).cursor =
      ⟨(Lexer.lexemes 0 text).map (·.token base), Lexer.endMark text base, .none, rfl⟩ := by
    simp [start, Cursor.ofTokens, Lexer.lexAt, Lexer.endMark, Token.isEnd, Token.endAt]
  have hstate : (start text base).Corresponds C False (start text base') := by
    refine ⟨?_, ?_, False.elim, .nil⟩
    · rw [hstart, hstart, List.forall₂_map_left_iff, List.forall₂_map_right_iff, List.forall₂_same]
      exact htokens
    · rw [hstart, hstart]
      exact hmark
  have hlexer : ∀ ls : List Lexer.Lexeme, (∀ l ∈ ls, C.Tokens (l.token base) (l.token base')) →
      List.Forall₂ C.Findings (ls.filterMap (·.diagnostic? base))
        (ls.filterMap (·.diagnostic? base')) := by
    intro ls
    induction ls with
    | nil => exact fun _ => .nil
    | cons l ls ih =>
      intro h
      obtain ⟨hl, hls⟩ := List.forall_mem_cons.mp h
      have hspan : C.Spans (l.span base) (l.span base') := C.span hl
      rw [List.filterMap_cons, List.filterMap_cons, Lexer.Lexeme.diagnostic?,
        Lexer.Lexeme.diagnostic?]
      cases l.closed with
      | true => exact ih hls
      | false => exact .cons (C.error (Diagnostic.labelled_corresponds hspan ..) rfl) (ih hls)
  have hlength :
      (Lexer.lexAt text base').tokens.length = (Lexer.lexAt text base).tokens.length := by
    simp [Lexer.lexAt]
  have hw := whole_corresponds (10 * (Lexer.lexAt text base).tokens.length + 10) hstate
  unfold parseAt Parser.parse
  dsimp only
  rw [hlength]
  exact ⟨hw.tree, List.rel_append (hlexer _ htokens) hw.state.findings⟩

end Template
end TargetView
