import TargetView.Proofs.Spacing
import TargetView.Proofs.Stretches

/-! # Every text has a literal

A text is written as a literal by a backslash before every backslash and every
quote of the kind that encloses it (`Literal.written`).  Reading such a literal
takes one stretch for each character of the text, so neither the lexer nor the
reader of the literal stops early, and what is read is the text
(`Literal.written_denotes`).
-/
namespace TargetView.Literal

open Lexer (closeQuote isQuote width)

variable {quote : Char}

/-- Whether a character needs a backslash between these quotes. -/
def needsEscape (quote c : Char) : Bool := c == '\\' || c == quote

/-- The characters of a text with a backslash before each one that needs it. -/
def escaped (quote : Char) (cs : List Char) : List Char :=
  cs.flatMap fun c => if needsEscape quote c then ['\\', c] else [c]

/-- A text as a literal between two quotes. -/
def written (quote : Char) (s : String) : String :=
  String.ofList (quote :: escaped quote s.toList ++ [quote])

/-- The stretch in which a character is read back. -/
def stretch (quote c : Char) : Stretch :=
  if needsEscape quote c then .named c c else .plain c

/-! ## Single characters -/

/-- An escaped backslash or quote stands for itself. -/
theorem escape?_of_needsEscape (hquote : isQuote quote = true) {c : Char}
    (hc : needsEscape quote c = true) : escape? c = some c := by
  simp only [isQuote, needsEscape, Bool.or_eq_true, beq_iff_eq] at hquote hc
  rcases hc with rfl | rfl
  · rfl
  · rcases hquote with rfl | rfl <;> rfl

theorem char_stretch (quote c : Char) : (stretch quote c).char = c := by
  unfold stretch
  split <;> rfl

theorem source_stretch (quote c : Char) :
    (stretch quote c).source = if needsEscape quote c then ['\\', c] else [c] := by
  unfold stretch
  split <;> rfl

theorem warnings_stretch (quote c : Char) (base offset : Nat) :
    (stretch quote c).warnings base offset = [] := by
  unfold stretch
  split <;> rfl

/-! ## Texts -/

theorem escaped_cons (quote c : Char) (cs : List Char) :
    escaped quote (c :: cs) =
      (if needsEscape quote c then ['\\', c] else [c]) ++ escaped quote cs :=
  List.flatMap_cons

theorem source_stretches (quote : Char) (cs : List Char) :
    source (cs.map (stretch quote)) = escaped quote cs := by
  rw [source, escaped, List.flatMap_map]
  exact congrArg (cs.flatMap ·) (funext (source_stretch quote))

theorem warnings_stretches (quote : Char) (base offset : Nat) (cs : List Char) :
    warnings base offset (cs.map (stretch quote)) = [] := by
  induction cs generalizing offset with
  | nil => rfl
  | cons c cs ih => rw [List.map_cons, warnings, warnings_stretch, ih, List.append_nil]

/-- **Escaped characters are read one by one**, up to the quote behind them. -/
theorem stretches_escaped (hquote : isQuote quote = true) (cs rest : List Char) :
    stretches quote (escaped quote cs ++ quote :: rest) =
      (cs.map (stretch quote), quote :: rest) := by
  have hback : ¬('\\' == quote) = true := fun h =>
    Lexer.ne_backslash_of_isQuote hquote (eq_of_beq h).symm
  induction cs with
  | nil => exact stretches_quote (beq_self_eq_true quote)
  | cons c cs ih =>
    rw [escaped_cons, List.map_cons, stretch]
    by_cases hc : needsEscape quote c = true
    · -- The backslash is read together with the character behind it.
      rw [if_pos hc, if_pos hc]
      show stretches quote ('\\' :: c :: (escaped quote cs ++ quote :: rest)) = _
      rw [stretches_named hback (by decide) (escape?_of_needsEscape hquote hc), ih]
    · rw [if_neg hc, if_neg hc]
      show stretches quote (c :: (escaped quote cs ++ quote :: rest)) = _
      obtain ⟨hslash, hne⟩ : ¬(c == '\\') = true ∧ ¬(c == quote) = true := by
        simpa [needsEscape] using hc
      rw [stretches_plain hne (by simpa using hslash), ih]

/-- The lexer ends the literal at its last quote. -/
theorem closeQuote_escaped (hquote : isQuote quote = true) (cs : List Char) :
    closeQuote quote (escaped quote cs ++ [quote]) =
      ((escaped quote cs ++ [quote]).length, true) := by
  rw [closeQuote_eq hquote, stretches_escaped hquote, source_stretches, List.length_append]
  rfl

/-- A literal is cut into one lexeme. -/
theorem isLexeme_written (hquote : isQuote quote = true) (s : String) :
    Word.IsLexeme ⟨.string, written quote s⟩ := by
  refine (Word.isLexeme_iff _).mpr
    ⟨quote, escaped quote s.toList ++ [quote], String.toList_ofList, ?_, ?_⟩
  · simp only [isQuote, Bool.or_eq_true, beq_iff_eq] at hquote
    rcases hquote with rfl | rfl <;> rfl
  · rw [Lexer.first_of_isQuote hquote, closeQuote_escaped hquote]

theorem cook_written (hquote : isQuote quote = true) (s : String) (base : Nat) :
    cook (written quote s) base = (s, []) := by
  have hbody : stretches quote (escaped quote s.toList ++ [quote]) =
      (s.toList.map (stretch quote), [quote]) :=
    stretches_escaped hquote s.toList []
  have hchars : (s.toList.map (stretch quote)).map Stretch.char = s.toList := by
    rw [List.map_map]
    exact List.map_id'' (char_stretch quote) s.toList
  rw [cook, written, String.toList_ofList, List.cons_append]
  dsimp only
  rw [cookBody_eq, hbody]
  dsimp only
  rw [hchars, warnings_stretches, String.ofList_toList]

/-- **Every text has a literal between either kind of quotes.**  The text with a
backslash before every backslash and every enclosing quote is a single token
without findings, and it is read as the text without warnings. -/
theorem written_denotes (hquote : isQuote quote = true) (s : String) :
    (∃ span stop, Lexer.lex (written quote s) =
      ⟨[⟨.string, written quote s, span⟩, .endAt stop], []⟩) ∧
    ∀ base, cook (written quote s) base = (s, []) := by
  constructor
  · have hlexemes : Lexer.lexemes 0 (written quote s).toList = _ := isLexeme_written hquote s
    rw [Lexer.lex, Lexer.lexAt, hlexemes, List.map_singleton, Lexer.Lexeme.token,
      String.ofList_toList]
    exact ⟨_, _, rfl⟩
  · exact cook_written hquote s

/-- A text with both quotes, a backslash at its end, and what looks like an
escape. -/
theorem written_denotes_backslashes :
    isQuote '\'' = true ∧ written '\'' "\\x41'\"\\" = "'\\\\x41\\'\"\\\\'" ∧
    (∃ span stop, Lexer.lex (written '\'' "\\x41'\"\\") =
      ⟨[⟨.string, written '\'' "\\x41'\"\\", span⟩, .endAt stop], []⟩) ∧
    ∀ base, cook (written '\'' "\\x41'\"\\") base = ("\\x41'\"\\", []) :=
  ⟨by decide, by decide, written_denotes (by decide) _⟩

end TargetView.Literal
