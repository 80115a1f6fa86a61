import TargetView.Proofs.Derivation
import TargetView.Proofs.Lexing

/-! # What an error-free parse accounts for

If neither the lexer nor the parser records an error, the tree of a text is
derived from all words of the text (`error_free_parse`).  Read the other way
round, a tree that is not sound comes with an error, in format texts too.
-/
namespace TargetView

open Grammar

namespace Parser

/-- A text without a syntax error is read to its end. -/
theorem words_whole (fuel : Nat) (s : State) (hk : ∀ w ∈ s.words, w.kind ≠ .end)
    (h : (whole fuel s).2.Accepted) : (whole fuel s).2.words = [] := by
  rw [whole_apply] at h ⊢
  split at h
  · exact (State.not_accepted_push rfl h).elim
  · dsimp only at h ⊢
    split at h
    · next he hend =>
      rw [if_neg he, if_pos hend]
      obtain ⟨-, ws, hws, -⟩ := (sound fuel).expression s h
      cases hr : (expression fuel s).2.words with
      | nil => rfl
      | cons w rest =>
        -- The mark of the end is not among the words.
        have hw := State.current_word hr
        have hmem : w ∈ s.words := by simp [hws, hr]
        exact absurd (by rw [← hw]; exact eq_of_beq hend) (hk w hmem)
    · exact (State.not_accepted_push rfl h).elim

/-- A whole text without a syntax error is an expression. -/
theorem whole_derives (fuel : Nat) (s : State) (hk : ∀ w ∈ s.words, w.kind ≠ .end)
    (h : (whole fuel s).2.Accepted) : Expression (whole fuel s).1 s.words := by
  have hrest := words_whole fuel s hk h
  rw [whole_apply] at h hrest ⊢
  split at h
  · exact (State.not_accepted_push rfl h).elim
  · dsimp only at h hrest ⊢
    split at h
    · next he hend =>
      rw [if_neg he, if_pos hend] at hrest ⊢
      obtain ⟨-, ws, hws, hd⟩ := (sound fuel).expression s h
      rwa [hws, hrest, List.append_nil]
    · exact (State.not_accepted_push rfl h).elim

end Parser

namespace Template

/-- An expression text without a syntax error is derived from all its words. -/
theorem parseAt_derives (text : List Char) (base : Nat)
    (h : ∀ d ∈ (parseAt text base).2, d.isSyntaxError = false) :
    Expression (parseAt text base).1 ((Lexer.lexemes 0 text).map Lexer.Lexeme.word) := by
  rw [← Parser.words_start text base]
  refine Parser.whole_derives _ _ (Parser.kind_ne_end_of_mem_words text base) fun d hd => ?_
  exact h d (List.mem_append_right _ (Array.mem_toList_iff.mpr hd))

theorem parts_flush (literal : List Char) (segments : List Segment) :
    parts (flush literal segments) = parts segments := by
  unfold flush
  split
  · rfl
  · rfl

/-- The expressions of a format text without a syntax error are derived from the
words between their brackets. -/
theorem assemble_derives : ∀ (pieces : List Piece) (offset : Nat) (literal : List Char),
    (∀ d ∈ (assemble offset literal pieces).2, d.isSyntaxError = false) →
      ∀ e ∈ parts (assemble offset literal pieces).1, ∃ inner root,
        Expression root ((Lexer.lexemes 0 inner).map Lexer.Lexeme.word) ∧ e ∈ root.parts
  | [], _, literal => by
    intro _ e he
    rw [assemble, parts_flush] at he
    cases he
  | .literal c :: rest, _, literal => by
    simpa [assemble] using assemble_derives rest _ (c :: literal)
  | .percent :: rest, _, literal => by
    simpa [assemble] using assemble_derives rest _ ('%' :: literal)
  | .conversion spec blanks inner closed :: rest, offset, literal => by
    intro h
    simp only [assemble, List.mem_append] at h
    rw [assemble]
    simp only [parts_flush]
    intro e he
    rcases List.mem_append.mp he with he | he
    · exact ⟨inner, _, parseAt_derives inner _ fun d hd => h d (.inl (.inr hd)), he⟩
    · exact assemble_derives rest _ [] (fun d hd => h d (.inr hd)) e he

end Template

/-- A text that is no format text is one expression. -/
theorem parse_of_not_isFormat {text : String} (h : Template.isFormat text.toList = false) :
    parse text =
      let r := Template.parseAt text.toList 0
      ⟨text, .expression r.1, r.2 ++ r.1.survey.2⟩ := by
  rw [parse]
  dsimp only
  rw [if_neg (by rw [h]; exact Bool.false_ne_true)]
  rfl

theorem isFormat_of_isTemplate {text : String} (h : (parse text).isTemplate = false) :
    Template.isFormat text.toList = false := by
  cases hf : Template.isFormat text.toList with
  | false => rfl
  | true => simp [parse, hf, Parsed.isTemplate] at h

/-- The parts of a text without a syntax error belong to expressions that are
derived from words. -/
theorem parts_derived (text : String)
    (h : ∀ d ∈ (parse text).diagnostics, d.isSyntaxError = false) :
    ∀ e ∈ (parse text).body.parts, ∃ inner root,
      Expression root ((Lexer.lexemes 0 inner).map Lexer.Lexeme.word) ∧ e ∈ root.parts := by
  unfold parse at h ⊢
  dsimp only at h ⊢
  split at h
  · next hf =>
    rw [if_pos hf]
    exact Template.assemble_derives _ _ _ fun d hd => h d (List.mem_append_left _ hd)
  · next hf =>
    rw [if_neg hf]
    intro e he
    exact ⟨_, _, Template.parseAt_derives _ _ fun d hd => h d (List.mem_append_left _ hd), he⟩

/-- A text without a syntax error has sound parts only. -/
theorem parts_sound (text : String)
    (h : ∀ d ∈ (parse text).diagnostics, d.isSyntaxError = false) :
    ∀ e ∈ (parse text).body.parts, e.IsSound := by
  intro e he
  obtain ⟨_, root, hroot, he⟩ := parts_derived text h e he
  exact hroot.parts_sound e he

/-- **An error-free parse accounts for the whole text.**  If a text that is no
format text records no syntax error, its tree is derived from the words of all
its tokens, the mark of the end excepted; no part of it is malformed, and all
that it assigns or updates can be.  Conversely, a listed malformed node comes
with an error. -/
theorem error_free_parse (text : String) :
    ((parse text).isTemplate = false →
      (∀ d ∈ (parse text).diagnostics, d.isSyntaxError = false) →
      ∃ root words, (parse text).body = .expression root ∧
        (Lexer.lex text).tokens.map Token.word = words ++ [⟨.end, ""⟩] ∧
        Grammar.Expression root words ∧ ∀ e ∈ root.parts, e.IsSound) ∧
    ((∃ n ∈ (parse text).listing, n.shape.isMalformed) → (parse text).hasErrors = true) := by
  constructor
  · intro ht h
    rw [parse_of_not_isFormat (isFormat_of_isTemplate ht)] at h ⊢
    have hd := Template.parseAt_derives text.toList 0 fun d hd => h d (List.mem_append_left _ hd)
    exact ⟨_, _, rfl, Lexer.map_word_tokens _ _, hd, hd.parts_sound⟩
  · intro hn
    obtain ⟨e, he, hm⟩ := (Body.exists_isMalformed_iff _).mp hn
    cases hc : (parse text).hasErrors with
    | true => rfl
    | false =>
      have h : ∀ d ∈ (parse text).diagnostics, d.isSyntaxError = false := by
        intro d hd
        have he := List.any_eq_false.mp hc d hd
        simp [Diagnostic.isSyntaxError, he]
      have hs := (parts_sound text h e he).1
      rw [hm] at hs
      cases hs

theorem error_free_parse_assignment :
    (∃ root words, (parse "x = f(1 + 2)").body = .expression root ∧
      (Lexer.lex "x = f(1 + 2)").tokens.map Token.word = words ++ [⟨.end, ""⟩] ∧
      Grammar.Expression root words ∧ ∀ e ∈ root.parts, e.IsSound) ∧
    (parse "1 + ").hasErrors = true :=
  ⟨(error_free_parse _).1 (by decide +kernel) (by decide +kernel),
    (error_free_parse _).2 (by decide +kernel)⟩

end TargetView
