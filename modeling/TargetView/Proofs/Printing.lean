import TargetView.Proofs.Acceptance
import TargetView.Proofs.Completeness
import TargetView.Proofs.Spacing

/-! # Parsing undoes printing

A term is an abstract expression with the spellings of its literals.  It is
printed with single spaces between its words, and with parentheses only where
an operand binds looser than its place allows.  What is printed is derived in
the grammar at the level of the term, so by completeness the parser gives the
term back (`parse_printed`).
-/
namespace TargetView

/-- An abstract expression.  A path stands only among the arguments of an
intrinsic. -/
inductive Term where
  | number (value : Literal) (spelling : String)
  | text (value spelling : String)
  | ident (name : String)
  | path (first second : String) (rest : List String)
  | member (base : Term) (name : String)
  | index (base key : Term)
  | unary (op : UnaryOp) (operand : Term)
  | binary (op : BinaryOp) (left right : Term)
  | conditional (cond yes no : Term)
  | assign (op : AssignOp) (target value : Term)
  | update (op : UpdateOp) (before : Bool) (target : Term)
  | call (callee : Term) (args : List Term)
  | intrinsic (fn : Intrinsic) (args : List Term)

namespace Term

mutual
/-- The tree that a term stands for. -/
def tree : Term → Expr
  | number value _ => .number value .none
  | text value _ => .text value .none
  | ident name => .ident name .none
  | path first second rest => .ident (":".intercalate (first :: second :: rest)) .none
  | member base name => .member base.tree name .none
  | index base key => .index base.tree key.tree .none
  | unary op operand => .unary op operand.tree .none
  | binary op left right => .binary op left.tree right.tree .none
  | conditional cond yes no => .conditional cond.tree yes.tree no.tree .none
  | assign op target value => .assign op target.tree value.tree .none
  | update op before target => .update op before target.tree .none
  | call callee args => .call callee.tree (treeAll args) .none
  | intrinsic fn args => .intrinsic fn .none (treeAll args) .none

def treeAll : List Term → List Expr
  | [] => []
  | t :: rest => t.tree :: treeAll rest
end

mutual
/-- Whether a term can be written: literals denote their values and are, like
names, single tokens; only what can be assigned is assigned; a callee that is
no intrinsic is not spelled like one.  The flag says whether the term may be a
path. -/
def WellFormed : Term → Bool → Prop
  | number value spelling, _ =>
    Literal.decode spelling = .ok value ∧ Word.IsLexeme ⟨.number, spelling⟩
  | text value spelling, _ =>
    (Literal.cook spelling 0).1 = value ∧ Word.IsLexeme ⟨.string, spelling⟩
  | ident name, _ => name ≠ "true" ∧ name ≠ "false" ∧ (Word.name name).IsLexeme
  | path first second rest, paths =>
    paths = true ∧ ∀ s ∈ first :: second :: rest, (Word.name s).IsLexeme
  | member base name, _ => base.WellFormed false ∧ (Word.name name).IsLexeme
  | index base key, _ => base.WellFormed false ∧ key.WellFormed false
  | unary _ operand, _ => operand.WellFormed false
  | binary _ left right, _ => left.WellFormed false ∧ right.WellFormed false
  | conditional cond yes no, _ =>
    cond.WellFormed false ∧ yes.WellFormed false ∧ no.WellFormed false
  | assign op target value, _ => op ∈ AssignOp.all ∧ target.tree.isAssignable = true ∧
    target.WellFormed false ∧ value.WellFormed false
  | update _ _ target, _ => target.tree.isAssignable = true ∧ target.WellFormed false
  | call callee args, _ => Parser.intrinsic? callee.tree = none ∧
    callee.WellFormed false ∧ AllWellFormed args false
  | intrinsic _ args, _ => AllWellFormed args true

def AllWellFormed : List Term → Bool → Prop
  | [], _ => True
  | t :: rest, paths => t.WellFormed paths ∧ AllWellFormed rest paths
end

/-! ### Printing -/

/-- How tightly a term holds together: assignments and choices the loosest,
then the binary operators by precedence, the operators before an operand, and
all else. -/
def level : Term → Nat
  | assign .. => 0
  | conditional .. => 1
  | binary op .. => op.precedence + 1
  | unary .. | update _ true _ => 12
  | _ => 13

/-- The words of a term in a place that asks for a level. -/
def grouped (level least : Nat) (ws : List Word) : List Word :=
  if level < least then Word.mark "(" :: ws ++ [Word.mark ")"] else ws

mutual
/-- The words of a term.  Binary operators group to the left, choices and
assignments to the right. -/
def words : Term → List Word
  | number _ spelling => [⟨.number, spelling⟩]
  | text _ spelling => [⟨.string, spelling⟩]
  | ident name => [Word.name name]
  | path first second rest => Word.path first (second :: rest)
  | member base name => grouped base.level 13 base.words ++ [Word.mark ".", Word.name name]
  | index base key =>
    grouped base.level 13 base.words ++ Word.mark "[" :: key.words ++ [Word.mark "]"]
  | unary op operand => Word.mark op.symbol :: grouped operand.level 12 operand.words
  | binary op left right =>
    grouped left.level (op.precedence + 1) left.words ++
      Word.mark op.symbol :: grouped right.level (op.precedence + 2) right.words
  | conditional cond yes no =>
    grouped cond.level 2 cond.words ++ Word.mark "?" :: yes.words ++
      Word.mark ":" :: grouped no.level 1 no.words
  | assign op target value =>
    grouped target.level 1 target.words ++ Word.mark op.symbol :: value.words
  | update op true target => Word.mark op.symbol :: grouped target.level 12 target.words
  | update op false target => grouped target.level 13 target.words ++ [Word.mark op.symbol]
  | call callee args =>
    grouped callee.level 13 callee.words ++ Word.mark "(" :: wordsAll args ++ [Word.mark ")"]
  | intrinsic fn args =>
    [Word.name fn.name] ++ Word.mark "(" :: wordsAll args ++ [Word.mark ")"]

/-- The words of some arguments, with commas between them. -/
def wordsAll : List Term → List Word
  | [] => []
  | [t] => t.words
  | t :: rest => t.words ++ Word.mark "," :: wordsAll rest
end

/-- A term as a text. -/
def print (t : Term) : String := Word.joined t.words

/-! ### Printed terms are derived -/

/-- The phrases that words of a level are. -/
structure Derived (level : Nat) (e : Expr) (ws : List Word) : Prop where
  expression : Grammar.Expression e ws
  choice : 1 ≤ level → Grammar.Choice e ws
  chain : ∀ p, 1 ≤ p → p + 1 ≤ level → Grammar.Chain p e ws
  prefixed : 12 ≤ level → Grammar.Prefixed e ws
  suffixed : 13 ≤ level → Grammar.Suffixed e ws

namespace Derived

variable {level least : Nat} {e : Expr} {ws : List Word}

theorem mono (h : Derived level e ws) (hl : least ≤ level) : Derived least e ws where
  expression := h.expression
  choice h₁ := h.choice (Nat.le_trans h₁ hl)
  chain p hp hp' := h.chain p hp (Nat.le_trans hp' hl)
  prefixed h₁ := h.prefixed (Nat.le_trans h₁ hl)
  suffixed h₁ := h.suffixed (Nat.le_trans h₁ hl)

theorem of_suffixed (h : Grammar.Suffixed e ws) : Derived 13 e ws where
  expression := .choice (.chain (.operand (.suffixed h)))
  choice _ := .chain (.operand (.suffixed h))
  chain _ _ _ := .operand (.suffixed h)
  prefixed _ := .suffixed h
  suffixed _ := h

theorem of_primary (h : Grammar.Primary e ws) : Derived 13 e ws :=
  of_suffixed (.primary h)

theorem of_prefixed (h : Grammar.Prefixed e ws) : Derived 12 e ws where
  expression := .choice (.chain (.operand h))
  choice _ := .chain (.operand h)
  chain _ _ _ := .operand h
  prefixed _ := h
  suffixed hl := absurd hl (by decide)

theorem of_operator {op : BinaryOp} {left right : Expr} {ls rs : List Word} (span : Span)
    (hl : Grammar.Chain op.precedence left ls)
    (hr : Grammar.Chain (op.precedence + 1) right rs) :
    Derived (op.precedence + 1) (.binary op left right span)
      (ls ++ Word.mark op.symbol :: rs) where
  expression := .choice (.chain (.operator span op.precedence_pos hl hr))
  choice _ := .chain (.operator span op.precedence_pos hl hr)
  chain _ _ hp := .operator span (Nat.le_of_succ_le_succ hp) hl hr
  prefixed h := absurd h (by have := op.precedence_le; omega)
  suffixed h := absurd h (by have := op.precedence_le; omega)

theorem of_conditional {cond yes no : Expr} {cs ys ns : List Word} (span : Span)
    (hc : Grammar.Chain 1 cond cs) (hy : Grammar.Expression yes ys)
    (hn : Grammar.Choice no ns) :
    Derived 1 (.conditional cond yes no span)
      (cs ++ Word.mark "?" :: ys ++ Word.mark ":" :: ns) where
  expression := .choice (.conditional span hc hy hn)
  choice _ := .conditional span hc hy hn
  chain p hp hp' := absurd hp' (by omega)
  prefixed h := absurd h (by decide)
  suffixed h := absurd h (by decide)

theorem of_assign {op : AssignOp} {target value : Expr} {ts vs : List Word} (span : Span)
    (hop : op ∈ AssignOp.all) (ha : target.isAssignable = true) (ht : Grammar.Choice target ts)
    (hv : Grammar.Expression value vs) :
    Derived 0 (.assign op target value span) (ts ++ Word.mark op.symbol :: vs) where
  expression := .assign span hop ha ht hv
  choice h := absurd h (by decide)
  chain p hp hp' := absurd hp' (by omega)
  prefixed h := absurd h (by decide)
  suffixed h := absurd h (by decide)

/-- In parentheses every term stands in every place. -/
theorem grouped (h : Derived level e ws) (hl : least ≤ 13) :
    Derived least e (Term.grouped level least ws) := by
  unfold Term.grouped
  split
  · exact (of_primary (.parens h.expression)).mono hl
  · next hle => exact h.mono (Nat.le_of_not_lt hle)

end Derived

theorem tree_intrinsic (fn : Intrinsic) (args : List Expr) :
    Parser.callNode (.ident fn.name .none) args .none = .intrinsic fn .none args .none := by
  rw [Parser.callNode, Parser.intrinsic?, Intrinsic.ofName?_name]
  rfl

theorem suffixed_intrinsic (fn : Intrinsic) :
    Grammar.Suffixed (.ident fn.name .none) [Word.name fn.name] :=
  .primary (.ident _ (by cases fn <;> decide) (by cases fn <;> decide))

/-- The flag matters to paths only. -/
theorem argument {t : Term} {paths : Bool} (h : t.WellFormed paths)
    (hd : t.WellFormed false → Derived t.level t.tree t.words) :
    Grammar.Argument paths t.tree t.words := by
  cases t with
  | path first second rest =>
    rw [h.1]
    exact .path first second rest _
  | _ => exact .expression (hd h).expression

mutual
/-- The words of a term are a phrase of its level. -/
theorem derived : ∀ t : Term, t.WellFormed false → Derived t.level t.tree t.words
  | .number value spelling, h => .of_primary (.number _ h.1)
  | .text value spelling, h => by
    have ht := h.1
    rw [tree, words, ← ht]
    exact .of_primary (.text spelling _)
  | .ident name, h => .of_primary (.ident _ h.1 h.2.1)
  -- A path is an argument and never an operand.
  | .path .., h => absurd h.1 Bool.false_ne_true
  | .member base name, h =>
    have hb := (derived base h.1).grouped (Nat.le_refl 13)
    .of_suffixed (.member name _ (hb.suffixed (Nat.le_refl 13)))
  | .index base key, h =>
    have hb := (derived base h.1).grouped (Nat.le_refl 13)
    .of_suffixed (.index _ (hb.suffixed (Nat.le_refl 13)) (derived key h.2).expression)
  | .unary op operand, h =>
    have ho := (derived operand h).grouped (show 12 ≤ 13 by decide)
    .of_prefixed (.unary _ (ho.prefixed (Nat.le_refl 12)))
  | .binary op left right, h => by
    have hpos := op.precedence_pos
    have hle := op.precedence_le
    -- Binary operators group to the left: only the right operand has to bind tighter.
    have hl := (derived left h.1).grouped (show op.precedence + 1 ≤ 13 by omega)
    have hr := (derived right h.2).grouped (show op.precedence + 2 ≤ 13 by omega)
    exact .of_operator _ (hl.chain _ hpos (Nat.le_refl _)) (hr.chain _ (by omega) (Nat.le_refl _))
  | .conditional cond yes no, h =>
    have hc := (derived cond h.1).grouped (show 2 ≤ 13 by decide)
    have hn := (derived no h.2.2).grouped (show 1 ≤ 13 by decide)
    .of_conditional _ (hc.chain 1 (Nat.le_refl _) (Nat.le_refl _)) (derived yes h.2.1).expression
      (hn.choice (Nat.le_refl _))
  | .assign op target value, h =>
    have ht := (derived target h.2.2.1).grouped (show 1 ≤ 13 by decide)
    .of_assign _ h.1 h.2.1 (ht.choice (Nat.le_refl _)) (derived value h.2.2.2).expression
  | .update op true target, h =>
    have ht := (derived target h.2).grouped (show 12 ≤ 13 by decide)
    .of_prefixed (.update _ h.1 (ht.prefixed (Nat.le_refl 12)))
  | .update op false target, h =>
    have ht := (derived target h.2).grouped (Nat.le_refl 13)
    .of_suffixed (.update _ h.1 (ht.suffixed (Nat.le_refl 13)))
  | .call callee args, h => by
    have hc := ((derived callee h.2.1).grouped (Nat.le_refl 13)).suffixed (Nat.le_refl 13)
    have hnode : Parser.callNode callee.tree (treeAll args) .none = (call callee args).tree := by
      rw [Parser.callNode, h.1, tree]
    have ha := derivedAll args false h.2.2
    rw [← hnode, words]
    -- The grammar has a rule of its own for calls without arguments.
    cases args with
    | nil =>
      rw [treeAll, wordsAll, List.append_assoc]
      exact .of_suffixed (.call _ hc)
    | cons t rest =>
      refine .of_suffixed (.callWith _ hc ?_)
      rw [h.1]
      exact ha (List.cons_ne_nil t rest)
  | .intrinsic fn args, h => by
    have ha := derivedAll args true h
    rw [tree, words, ← tree_intrinsic]
    cases args with
    | nil => exact .of_suffixed (.call _ (suffixed_intrinsic fn))
    | cons t rest =>
      refine .of_suffixed (.callWith _ (suffixed_intrinsic fn) ?_)
      rw [Parser.intrinsic?, Intrinsic.ofName?_name]
      exact ha (List.cons_ne_nil t rest)

theorem derivedAll : ∀ (ts : List Term) (paths : Bool), AllWellFormed ts paths → ts ≠ [] →
    Grammar.Arguments paths (treeAll ts) (wordsAll ts)
  | [], _, _, hne => absurd rfl hne
  | [t], _, h, _ => .last (argument h.1 (derived t))
  | t :: u :: rest, paths, h, _ =>
    .more (argument h.1 (derived t)) (derivedAll (u :: rest) paths h.2 (List.cons_ne_nil u rest))
end

/-! ### Printed words are lexemes -/

section
open Word

theorem isLexeme_binary (op : BinaryOp) : (mark op.symbol).IsLexeme := by
  cases op <;> decide

theorem isLexeme_unary (op : UnaryOp) : (mark op.symbol).IsLexeme := by
  cases op <;> decide

theorem isLexeme_update (op : UpdateOp) : (mark op.symbol).IsLexeme := by
  cases op <;> decide

theorem isLexeme_assign : ∀ op ∈ AssignOp.all, (mark op.symbol).IsLexeme := by
  decide

/-- The words of two phrases and of a mark between them. -/
theorem isLexeme_between {p : String} {ls rs : List Word} (hp : (mark p).IsLexeme)
    (hl : ∀ w ∈ ls, w.IsLexeme) (hr : ∀ w ∈ rs, w.IsLexeme) :
    ∀ w ∈ ls ++ mark p :: rs, w.IsLexeme :=
  List.forall_mem_append.mpr ⟨hl, List.forall_mem_cons.mpr ⟨hp, hr⟩⟩

/-- The words of a phrase and of a mark behind it. -/
theorem isLexeme_before {p : String} {ls : List Word} (hp : (mark p).IsLexeme)
    (hl : ∀ w ∈ ls, w.IsLexeme) : ∀ w ∈ ls ++ [mark p], w.IsLexeme :=
  isLexeme_between hp hl nofun

theorem isLexeme_grouped {level least : Nat} {ws : List Word} (h : ∀ w ∈ ws, w.IsLexeme) :
    ∀ w ∈ grouped level least ws, w.IsLexeme := by
  unfold grouped
  split
  · exact isLexeme_before (by decide) (List.forall_mem_cons.mpr ⟨by decide, h⟩)
  · exact h

theorem isLexeme_path {first : String} {rest : List String}
    (h : ∀ s ∈ first :: rest, (name s).IsLexeme) :
    ∀ w ∈ Word.path first rest, w.IsLexeme := by
  have hcolon : (mark ":").IsLexeme := by decide
  rw [List.forall_mem_cons] at h
  refine List.forall_mem_cons.mpr ⟨h.1, fun w hw => ?_⟩
  obtain ⟨s, hs, hw⟩ := List.mem_flatMap.mp hw
  simp only [List.mem_cons, List.not_mem_nil, or_false] at hw
  rcases hw with rfl | rfl
  · exact hcolon
  · exact h.2 s hs

mutual
/-- Every word of a term is a lexeme. -/
theorem isLexeme_words : ∀ (t : Term) (paths : Bool), t.WellFormed paths →
    ∀ w ∈ t.words, w.IsLexeme
  | .number _ _, _, h | .text _ _, _, h => List.forall_mem_singleton.mpr h.2
  | .ident _, _, h => List.forall_mem_singleton.mpr h.2.2
  | .path .., _, h => isLexeme_path h.2
  | .member base _, _, h =>
    isLexeme_between (by decide) (isLexeme_grouped (isLexeme_words base false h.1))
      (List.forall_mem_singleton.mpr h.2)
  | .index base key, _, h =>
    isLexeme_before (by decide) (isLexeme_between (by decide)
      (isLexeme_grouped (isLexeme_words base false h.1)) (isLexeme_words key false h.2))
  | .unary op operand, _, h =>
    List.forall_mem_cons.mpr
      ⟨isLexeme_unary op, isLexeme_grouped (isLexeme_words operand false h)⟩
  | .binary op left right, _, h =>
    isLexeme_between (isLexeme_binary op) (isLexeme_grouped (isLexeme_words left false h.1))
      (isLexeme_grouped (isLexeme_words right false h.2))
  | .conditional cond yes no, _, h =>
    isLexeme_between (by decide) (isLexeme_between (by decide)
      (isLexeme_grouped (isLexeme_words cond false h.1)) (isLexeme_words yes false h.2.1))
      (isLexeme_grouped (isLexeme_words no false h.2.2))
  | .assign op target value, _, h =>
    isLexeme_between (isLexeme_assign op h.1)
      (isLexeme_grouped (isLexeme_words target false h.2.2.1))
      (isLexeme_words value false h.2.2.2)
  | .update op true target, _, h =>
    List.forall_mem_cons.mpr
      ⟨isLexeme_update op, isLexeme_grouped (isLexeme_words target false h.2)⟩
  | .update op false target, _, h =>
    isLexeme_before (isLexeme_update op) (isLexeme_grouped (isLexeme_words target false h.2))
  | .call callee args, _, h =>
    isLexeme_before (by decide) (isLexeme_between (by decide)
      (isLexeme_grouped (isLexeme_words callee false h.2.1))
      (isLexeme_wordsAll args false h.2.2))
  | .intrinsic fn args, _, h =>
    isLexeme_before (by decide) (isLexeme_between (by decide)
      (List.forall_mem_singleton.mpr (isLexeme_intrinsic fn)) (isLexeme_wordsAll args true h))

theorem isLexeme_wordsAll : ∀ (ts : List Term) (paths : Bool), AllWellFormed ts paths →
    ∀ w ∈ wordsAll ts, w.IsLexeme
  | [], _, _ => nofun
  | [t], paths, h => isLexeme_words t paths h.1
  | t :: u :: rest, paths, h =>
    isLexeme_between (by decide) (isLexeme_words t paths h.1)
      (isLexeme_wordsAll (u :: rest) paths h.2)
end

end

mutual
theorem bare_tree : ∀ t : Term, t.tree.bare = t.tree
  | .number .. | .text .. | .ident _ | .path .. => rfl
  | .member base _ | .unary _ base | .update _ _ base => by
    simp only [tree, Expr.bare, bare_tree base]
  | .index left right | .binary _ left right | .assign _ left right => by
    simp only [tree, Expr.bare, bare_tree left, bare_tree right]
  | .conditional cond yes no => by
    simp only [tree, Expr.bare, bare_tree cond, bare_tree yes, bare_tree no]
  | .call callee args => by simp only [tree, Expr.bare, bare_tree callee, bareAll_treeAll args]
  | .intrinsic _ args => by simp only [tree, Expr.bare, bareAll_treeAll args]

theorem bareAll_treeAll : ∀ ts : List Term, Expr.bareAll (treeAll ts) = treeAll ts
  | [] => rfl
  | t :: rest => by simp only [treeAll, Expr.bareAll, bare_tree t, bareAll_treeAll rest]
end

end Term

/-- **Parsing undoes printing.**  The text of a term that is no format text is
parsed without a syntax error and without a malformed node, and its tree is
the term up to spans. -/
theorem parse_printed (t : Term) (ht : t.WellFormed false)
    (hf : Template.isFormat t.print.toList = false) :
    ∃ root, (parse t.print).body = .expression root ∧ root.bare = t.tree ∧
      (∀ d ∈ (parse t.print).diagnostics, d.isSyntaxError = false) ∧
      ∀ n ∈ (parse t.print).listing, n.shape.isMalformed = false := by
  obtain ⟨hwords, hclosed⟩ := Word.lexemes_joined t.words (t.isLexeme_words false ht) 0
  have hd : Grammar.Expression t.tree _ := hwords.symm ▸ (t.derived ht).expression
  obtain ⟨root, hbody, hbare, herrors⟩ := parse_of_derivation hf hclosed hd
  refine ⟨root, hbody, hbare.trans t.bare_tree, herrors, fun n hn => ?_⟩
  cases hm : n.shape.isMalformed with
  | false => rfl
  | true =>
    obtain ⟨e, he, hme⟩ := (Body.exists_isMalformed_iff _).mp ⟨n, hn, hm⟩
    exact absurd (hme.symm.trans (parts_sound _ herrors e he).1) (by decide)

theorem parse_printed_product :
    let t : Term := .assign .assign (.ident "x") (.binary .mul
      (.binary .add (.ident "a") (.intrinsic .sizeOf [.path "T" "m" []]))
      (.number (.float 2) "2"))
    t.print = "x = ( a + __size_of ( T : m ) ) * 2" ∧
      ∃ root, (parse t.print).body = .expression root ∧ root.bare = t.tree ∧
        (∀ d ∈ (parse t.print).diagnostics, d.isSyntaxError = false) ∧
        ∀ n ∈ (parse t.print).listing, n.shape.isMalformed = false := by
  refine ⟨by decide, parse_printed _ ?_ (by decide)⟩
  refine ⟨by decide, rfl, ⟨by decide, by decide, by decide⟩,
    ⟨⟨by decide, by decide, by decide⟩, ⟨rfl, by decide⟩, trivial⟩, rfl, by decide⟩

end TargetView
