import TargetView.Proofs.Lexing
import TargetView.Proofs.LongestMatch

/-! # Respacing a text

A lexeme that is complete is one lexeme on its own too (`Lexer.isLexeme_word`),
since it is the longest match without what stands behind it.  So the gaps of a
text may be replaced by single spaces, one between any two of its lexemes
(`Lexer.lex_respaced`).  A string that is not closed is no such lexeme: it takes
the space and all that stands behind.
-/
namespace TargetView.Lexer

variable {cs : List Char} {l : Lexeme} {offset : Nat}

/-- Complete lexemes are lexemes on their own. -/
theorem isLexeme_word (hl : l ∈ lexemes offset cs) (hclosed : l.closed = true) :
    l.word.IsLexeme := by
  fun_induction lexemes offset cs with
  | case1 => cases hl
  | case2 offset c rest hc ih => exact ih hl
  | case3 offset c rest hc kind more closed hfirst chars ih =>
    rcases List.mem_cons.mp hl with rfl | hl
    · obtain rfl : closed = true := hclosed
      -- The lexeme is read again when nothing stands behind it.
      have htake := first_take c rest
      have hle := first_le c rest
      rw [hfirst] at htake hle
      refine (Word.isLexeme_iff _).mpr
        ⟨c, rest.take more, String.toList_ofList, Bool.eq_false_iff.mpr hc, ?_⟩
      rw [htake, List.length_take, Nat.min_eq_left hle]
      rfl
    · exact ih hl

/-- The findings of the lexer are the strings that are not closed. -/
theorem closed_of_lex {text : String}
    (h : ∀ d ∈ (lex text).diagnostics, d.code ≠ .e0001) :
    ∀ l ∈ lexemes 0 text.toList, l.closed = true := by
  intro l hl
  by_contra hopen
  refine h (.unterminatedString (l.span 0)) (List.mem_filterMap.mpr ⟨l, hl, ?_⟩) rfl
  rw [Lexeme.diagnostic?, if_neg hopen]

/-- The tokens of a text but for the mark of the end are its lexemes. -/
theorem filter_tokens (text : String) : ((lex text).tokens.filter (!·.isEnd)).map Token.word =
    (lexemes 0 text.toList).map Lexeme.word := by
  have hkept : ((lexemes 0 text.toList).map (·.token 0)).filter (!·.isEnd) =
      (lexemes 0 text.toList).map (·.token 0) := by
    refine List.filter_eq_self.mpr (List.forall_mem_map.mpr fun l hl => ?_)
    rw [Token.isEnd, Bool.not_eq_true', beq_eq_false_iff_ne]
    exact kind_ne_end_of_mem_lexemes 0 _ l hl
  rw [lex, lexAt, List.filter_append, hkept]
  simp [Token.isEnd, Token.endAt, Token.word, Lexeme.token, Lexeme.word, Function.comp_def]

/-- **Lexing is stable under respacing.**  If no string of a text is left open,
the texts of its tokens with single spaces between them have the same tokens, by
their kinds and texts, and no string is left open there either. -/
theorem lex_respaced (text : String) (h : ∀ d ∈ (lex text).diagnostics, d.code ≠ .e0001) :
    let respaced := " ".intercalate (((lex text).tokens.filter (!·.isEnd)).map Token.text)
    (lex respaced).tokens.map Token.word = (lex text).tokens.map Token.word ∧
      (lex respaced).diagnostics = [] := by
  intro respaced
  have hwords : ∀ w ∈ (lexemes 0 text.toList).map Lexeme.word, w.IsLexeme :=
    List.forall_mem_map.mpr fun l hl => isLexeme_word hl (closed_of_lex h l hl)
  have hrespaced : respaced = Word.joined ((lexemes 0 text.toList).map Lexeme.word) := by
    rw [Word.joined, ← filter_tokens, List.map_map]
    rfl
  obtain ⟨hsame, hclosed⟩ := Word.lexemes_joined _ hwords 0
  rw [← hrespaced] at hsame hclosed
  refine ⟨?_, List.filterMap_eq_nil_iff.mpr fun l hl => ?_⟩
  · rw [lex, lex, map_word_tokens, map_word_tokens, hsame]
  · rw [Lexeme.diagnostic?, if_pos (hclosed l hl)]

/-- Numbers that end before what they could go on with, and operators without
gaps. -/
theorem lex_respaced_numbers :
    let text := "1e+++x>>>=0x.5 1._2'a \\' b'0b1e"
    (∀ d ∈ (lex text).diagnostics, d.code ≠ .e0001) ∧
      " ".intercalate (((lex text).tokens.filter (!·.isEnd)).map Token.text) =
        "1 e ++ + x >>>= 0x .5 1._2 'a \\' b' 0b1 e" ∧
      (lex "1 e ++ + x >>>= 0x .5 1._2 'a \\' b' 0b1 e").tokens.map Token.word =
        (lex text).tokens.map Token.word := by
  intro text
  have h : ∀ d ∈ (lex text).diagnostics, d.code ≠ .e0001 := by decide +kernel
  have hrespaced : " ".intercalate (((lex text).tokens.filter (!·.isEnd)).map Token.text) =
      "1 e ++ + x >>>= 0x .5 1._2 'a \\' b' 0b1 e" := by decide +kernel
  refine ⟨h, hrespaced, ?_⟩
  rw [← hrespaced]
  exact (lex_respaced text h).1

end TargetView.Lexer
