import TargetView.Proofs.Acceptance
import TargetView.Proofs.Consumption

/-! # Derived texts are accepted

What the grammar derives the parser reads: to the last word, without a syntax
error, and to the same tree (`parse_of_derivation`).
-/
namespace TargetView

namespace Grammar

/-! ### First words -/

mutual
theorem Expression.begins : ∀ {e ws}, Expression e ws → Word.Begins ws
  | _, _, .choice h => h.begins
  | _, _, .assign _ hop _ h _ => h.begins.append (Word.head?_assign_ne hop _)

theorem Choice.begins : ∀ {e ws}, Choice e ws → Word.Begins ws
  | _, _, .chain h => h.begins
  | _, _, .conditional _ h _ _ => by
    rw [List.append_assoc]
    exact h.begins.append (Word.head?_mark_ne (by decide) _)

theorem Chain.begins : ∀ {least e ws}, Chain least e ws → Word.Begins ws
  | _, _, _, .operand h => h.begins
  | _, _, _, .operator _ _ h _ => h.begins.append (Word.head?_binary_ne _ _)

theorem Prefixed.begins : ∀ {e ws}, Prefixed e ws → Word.Begins ws
  | _, _, .suffixed h => h.begins
  | _, _, .unary _ _ => Word.begins_unary _ _
  | _, _, .update _ _ _ => Word.begins_update _ _

theorem Suffixed.begins : ∀ {e ws}, Suffixed e ws → Word.Begins ws
  | _, _, .primary h => h.begins
  | _, _, .member _ _ h => h.begins.append (Word.head?_mark_ne (by decide) _)
  | _, _, .index _ h _ => by
    rw [List.append_assoc]
    exact h.begins.append (Word.head?_mark_ne (by decide) _)
  | _, _, .update _ _ h => h.begins.append (Word.head?_update_ne _ _)
  | _, _, .call _ h => h.begins.append (Word.head?_mark_ne (by decide) _)
  | _, _, .callWith _ h _ => by
    rw [List.append_assoc]
    exact h.begins.append (Word.head?_mark_ne (by decide) _)

theorem Primary.begins : ∀ {e ws}, Primary e ws → Word.Begins ws
  | _, _, .number .. | _, _, .text .. | _, _, .truth _ | _, _, .falsehood _
  | _, _, .ident .. => Word.begins_word _ nofun
  | _, _, .parens _ => Word.begins_mark (by decide) _
end

theorem Primary.lead : ∀ {e ws}, Primary e ws →
    ∀ more p, Word.lead (ws ++ more) = some p → p = "("
  | _, _, .number .., _, _, h | _, _, .text .., _, _, h | _, _, .truth _, _, _, h
  | _, _, .falsehood _, _, _, h | _, _, .ident .., _, _, h => nomatch h
  | _, _, .parens _, _, _, h => (Option.some.inj h).symm

/-- The only punctuation that an operand can start with is a parenthesis. -/
theorem Suffixed.lead : ∀ {e ws}, Suffixed e ws →
    ∀ more p, Word.lead (ws ++ more) = some p → p = "("
  | _, _, .primary h => h.lead
  | _, _, .member _ _ h | _, _, .update _ _ h | _, _, .call _ h => fun more p => by
    rw [List.append_assoc]
    exact h.lead _ p
  | _, _, .index _ h _ | _, _, .callWith _ h _ => fun more p => by
    rw [List.append_assoc, List.append_assoc]
    exact h.lead _ p

theorem Argument.lead_ne {paths : Bool} {e : Expr} {ws : List Word} (h : Argument paths e ws)
    (more : List Word) : Word.lead (ws ++ more) ≠ some ")" := by
  cases h with
  | expression h => exact h.begins.lead_ne more
  | path => nofun

theorem Arguments.lead_ne {paths : Bool} {es : List Expr} {ws : List Word}
    (h : Arguments paths es ws) (more : List Word) : Word.lead (ws ++ more) ≠ some ")" := by
  cases h with
  | last h => exact h.lead_ne more
  | more h _ =>
    rw [List.append_assoc]
    exact h.lead_ne _

/-! ### Phrases -/

open TargetView.Parser

mutual
theorem Expression.consumed : ∀ {e ws}, Expression e ws → ConsumesExpression e ws
  | _, _, .choice h => h.consumed.expression
  | _, _, .assign span hop ha ht hv => .assign span hop ha ht.consumed hv.consumed

theorem Choice.consumed : ∀ {e ws}, Choice e ws → ConsumesChoice e ws
  | _, _, .chain h => h.consumed.choice
  | _, _, .conditional span hc hy hn => .conditional span hc.consumed hy.consumed hn.consumed

theorem Chain.consumed : ∀ {least e ws}, Chain least e ws → ConsumesChain least e ws
  | least, _, _, .operand h => h.consumed.chain h.begins.ne_nil least
  | _, _, _, .operator span hp hl hr => .operator span hp hl.consumed hr.consumed

theorem Prefixed.consumed : ∀ {e ws}, Prefixed e ws → ConsumesPrefixed e ws
  | _, _, .suffixed h => h.consumed.prefixed h.lead
  | _, _, .unary span h => .unary span h.consumed
  | _, _, .update span ha h => .update span ha h.consumed

theorem Suffixed.consumed : ∀ {e ws}, Suffixed e ws → ConsumesSuffixed e ws
  | _, _, .primary h => h.consumed.suffixed h.begins.ne_nil
  | _, _, .member name span h => .member name span h.consumed
  | _, _, .index span h hk => .index span h.consumed hk.consumed
  | _, _, .update span ha h => .update span ha h.consumed
  | _, _, .call span h => .call span h.consumed
  | _, _, .callWith span h ha => .callWith span h.consumed ha.consumed ha.lead_ne

theorem Arguments.consumed :
    ∀ {paths es ws}, Arguments paths es ws → ConsumesArguments paths es ws
  | _, _, _, .last h => h.consumed.last
  | _, _, _, .more h hs => h.consumed.more hs.consumed

theorem Argument.consumed : ∀ {paths e ws}, Argument paths e ws → ConsumesArgument paths e ws
  | paths, _, _, .expression h => h.consumed.argument h.begins paths
  | _, _, _, .path first second rest span => consumesArgument_path first second rest span

theorem Primary.consumed : ∀ {e ws}, Primary e ws → ConsumesPrimary e ws
  | _, _, .number span h => consumesPrimary_number span h
  | _, _, .text spelling span => consumesPrimary_text spelling span
  | _, _, .truth _ | _, _, .falsehood _ => consumesPrimary_name fun t ht => by
    simp [nameNode, ht, Expr.bare]
  | _, _, .ident _ ht hf => consumesPrimary_name fun t h => by
    simp [nameNode, h, ht, hf, Expr.bare]
  | _, _, .parens h => h.consumed.parens
end

end Grammar
namespace Parser

/-! ### Whole texts -/

theorem State.isEnd_of_words {s : State} (h : s.words = []) : s.current.isEnd = true := by
  unfold State.words at h
  unfold State.current Cursor.current
  rw [List.map_eq_nil_iff.mp h]
  exact s.cursor.isEnd_mark

theorem whole_of_derivation {e : Expr} {ws : List Word} (h : Grammar.Expression e ws)
    (fuel : Nat) {s : State} (hs : s.Accepted) (hw : s.words = ws)
    (hk : ∀ w ∈ s.words, w.kind ≠ .end) (hn : 10 * s.words.length + 5 ≤ fuel) :
    Reads e [] (whole fuel s) := by
  obtain ⟨w, rest, hws, -, -⟩ := h.begins
  -- A phrase has a first word, and no word marks the end.
  have hfirst : s.current.isEnd = false := by
    have hword := State.current_word (hw.trans hws)
    have hmem : w ∈ s.words := by rw [hw, hws]; exact List.mem_cons_self
    refine beq_eq_false_iff_ne.mpr fun hend => hk w hmem ?_
    rw [← hword]
    exact hend
  have hr := h.consumed fuel s [] hs (by rw [hw, List.append_nil]) rfl hn
  rw [whole_apply, hfirst]
  simp only [Bool.false_eq_true, if_false, State.isEnd_of_words hr.words, if_true]
  exact hr

/-- A text whose words are derived is parsed without a syntax error, and to
the tree that they are derived from. -/
theorem parse_of_derivation {e : Expr} {text : List Char} (base : Nat)
    (h : Grammar.Expression e ((Lexer.lexemes 0 text).map Lexer.Lexeme.word)) :
    (Parser.parse (Lexer.lexAt text base).tokens).1.bare = e.bare ∧
      ∀ d ∈ (Parser.parse (Lexer.lexAt text base).tokens).2, d.isSyntaxError = false := by
  have hw := words_start text base
  have hlen : (start text base).words.length + 1 = (Lexer.lexAt text base).tokens.length := by
    rw [hw]
    simp [Lexer.lexAt]
  have hr := whole_of_derivation h (10 * (Lexer.lexAt text base).tokens.length + 10)
    (accepted_start text base) hw (kind_ne_end_of_mem_words text base) (by omega)
  exact ⟨hr.bare, fun d hd => hr.accepted d (Array.mem_toList_iff.mp hd)⟩

end Parser
/-! ### Parse results -/

namespace Expr

mutual
/-- The findings about constants have a code of their own. -/
theorem code_survey : ∀ e : Expr, ∀ d ∈ e.survey.2, d.code = .e2001
  | number .. | text .. | ident .. | malformed _ => by simp [survey]
  | member base _ _ | unnamed base _ => code_survey base
  | unary _ operand _ => code_survey operand
  | update _ _ target _ => code_survey target
  | index base key _ =>
    List.forall_mem_append.mpr ⟨code_survey base, code_survey key⟩
  | binary op left right _ => by
    refine List.forall_mem_append.mpr ⟨List.forall_mem_append.mpr
      ⟨code_survey left, code_survey right⟩, fun d hd => ?_⟩
    obtain ⟨fault, -, rfl⟩ := List.mem_map.mp hd
    rfl
  | conditional cond yes no _ =>
    List.forall_mem_append.mpr ⟨List.forall_mem_append.mpr
      ⟨code_survey cond, code_survey yes⟩, code_survey no⟩
  | assign _ target value _ =>
    List.forall_mem_append.mpr ⟨code_survey target, code_survey value⟩
  | call callee args _ =>
    List.forall_mem_append.mpr ⟨code_survey callee, code_surveyAll args⟩
  | intrinsic _ _ args _ => code_surveyAll args

theorem code_surveyAll : ∀ es : List Expr, ∀ d ∈ surveyAll es, d.code = .e2001
  | [] => by simp [surveyAll]
  | e :: rest => List.forall_mem_append.mpr ⟨code_survey e, code_surveyAll rest⟩
end

/-- The findings about constants are none of the grammar. -/
theorem isSyntaxError_survey (e : Expr) : ∀ d ∈ e.survey.2, d.isSyntaxError = false := by
  intro d hd
  rw [Diagnostic.isSyntaxError, e.code_survey d hd]
  exact Bool.and_false _

end Expr

theorem Lexer.diagnostics_eq_nil {text : List Char} {base : Nat}
    (h : ∀ l ∈ lexemes 0 text, l.closed = true) : (lexAt text base).diagnostics = [] := by
  refine List.filterMap_eq_nil_iff.mpr fun l hl => ?_
  rw [Lexeme.diagnostic?, h l hl, if_pos rfl]

/-- What is derived from the words of a text that is no format text is, up to
spans, the tree of the text. -/
theorem parse_of_derivation {e : Expr} {text : String}
    (hf : Template.isFormat text.toList = false)
    (hclosed : ∀ l ∈ Lexer.lexemes 0 text.toList, l.closed = true)
    (h : Grammar.Expression e ((Lexer.lexemes 0 text.toList).map Lexer.Lexeme.word)) :
    ∃ root, (parse text).body = .expression root ∧ root.bare = e.bare ∧
      ∀ d ∈ (parse text).diagnostics, d.isSyntaxError = false := by
  obtain ⟨hbare, hfound⟩ := Parser.parse_of_derivation 0 h
  rw [parse_of_not_isFormat hf]
  refine ⟨_, rfl, hbare, List.forall_mem_append.mpr
    ⟨List.forall_mem_append.mpr ⟨?_, hfound⟩, Expr.isSyntaxError_survey _⟩⟩
  rw [Lexer.diagnostics_eq_nil hclosed]
  exact nofun

end TargetView
