import TargetView.Proofs.Words

/-! # The words of a text

The parser starts with the words of the lexemes ahead of it and with nothing
recorded.  No lexeme marks the end, so the mark of the end is met only behind
all of them.
-/
namespace TargetView

namespace Lexer

/-- The word of a lexeme. -/
def Lexeme.word (l : Lexeme) : Word := ⟨l.kind, String.ofList l.chars⟩

theorem first_kind_ne_end (c : Char) (rest : List Char) : (first c rest).1 ≠ .end := by
  unfold first
  dsimp only
  repeat' split
  all_goals simp

theorem kind_ne_end_of_mem_lexemes (offset : Nat) (cs : List Char) :
    ∀ l ∈ lexemes offset cs, l.kind ≠ .end := by
  fun_induction lexemes offset cs with
  | case1 => simp
  | case2 offset c rest _ ih => exact ih
  | case3 offset c rest _ kind more closed hf chars ih =>
    intro l hl
    rcases List.mem_cons.mp hl with rfl | hl
    · have := first_kind_ne_end c rest
      rw [hf] at this
      exact this
    · exact ih l hl

theorem map_word_tokens (text : List Char) (base : Nat) :
    (lexAt text base).tokens.map Token.word =
      (lexemes 0 text).map Lexeme.word ++ [⟨.end, ""⟩] := by
  simp [lexAt, Token.word, Token.endAt, Lexeme.token, Lexeme.word, Function.comp_def]

end Lexer

namespace Parser

/-- The state in which a text is parsed. -/
def start (text : List Char) (base : Nat) : State :=
  ⟨.ofTokens (Lexer.lexAt text base).tokens, #[]⟩

theorem words_start (text : List Char) (base : Nat) :
    (start text base).words = (Lexer.lexemes 0 text).map Lexer.Lexeme.word := by
  simp [start, State.words, Cursor.ofTokens, Lexer.lexAt, Token.isEnd, Token.endAt,
    Function.comp_def, Token.word, Lexer.Lexeme.token, Lexer.Lexeme.word]

theorem accepted_start (text : List Char) (base : Nat) : (start text base).Accepted := by
  intro d hd
  simp [start] at hd

theorem kind_ne_end_of_mem_words (text : List Char) (base : Nat) :
    ∀ w ∈ (start text base).words, w.kind ≠ .end := by
  rw [words_start]
  intro w hw
  obtain ⟨l, hl, rfl⟩ := List.mem_map.mp hw
  exact Lexer.kind_ne_end_of_mem_lexemes 0 text l hl

end Parser
end TargetView
