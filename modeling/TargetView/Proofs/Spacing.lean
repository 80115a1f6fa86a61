import TargetView.Proofs.Lexing

/-! # Words between spaces

A word is a lexeme if its text is cut into nothing but itself.  A space behind
a lexeme ends it: no class of characters that a lexeme runs over holds the
space.  So lexemes with single spaces between them are cut into themselves
(`Lexer.lexemes_spaced`).
-/
namespace TargetView.Lexer

open TargetView.Number (isDigit)

/-! ### A lexeme stays within the text -/

theorem run_add_dropWhile (p : Char → Bool) (cs : List Char) :
    run p cs + (cs.dropWhile p).length = cs.length := by
  rw [run, ← List.length_append, List.takeWhile_append_dropWhile]

theorem run_le (p : Char → Bool) (cs : List Char) : run p cs ≤ cs.length := by
  have h := run_add_dropWhile p cs
  omega

theorem suffixed_le (p : Char → Bool) (cs : List Char) : suffixed p cs ≤ cs.length := by
  have h := run_add_dropWhile p cs
  have hs := run_le isSuffix (cs.dropWhile p)
  rw [suffixed]
  omega

theorem exponent_le (cs : List Char) : exponent cs ≤ cs.length := by
  unfold exponent
  split
  · next c rest =>
    split
    · split
      · next digits =>
        have h := run_le isDigit digits
        split <;> simp only [List.length_cons] <;> omega
      · next digits =>
        have h := run_le isDigit digits
        split <;> simp only [List.length_cons] <;> omega
      · have h := run_le isDigit rest
        split <;> simp only [List.length_cons] <;> omega
    · exact Nat.zero_le _
  · exact Nat.zero_le _

theorem based_le (cs : List Char) : based cs ≤ cs.length := by
  unfold based
  split
  · next c rest =>
    have hx := suffixed_le isHexMark rest
    have hd := suffixed_le isDigitMark rest
    split
    · simp only [List.length_cons]; omega
    · split <;> simp only [List.length_cons] <;> omega
  · exact Nat.zero_le _

theorem fractional_le (cs : List Char) : fractional cs ≤ cs.length := by
  unfold fractional
  have h := run_add_dropWhile isDigitMark cs
  dsimp only
  split
  · next rest hd =>
    have hr := run_add_dropWhile isDigitMark rest
    have he := exponent_le (rest.dropWhile isDigitMark)
    rw [hd, List.length_cons] at h
    split <;> omega
  · exact Nat.zero_le _

theorem scientific_le (cs : List Char) : scientific cs ≤ cs.length := by
  unfold scientific
  have h := run_add_dropWhile isDigitMark cs
  have he := exponent_le (cs.dropWhile isDigitMark)
  dsimp only
  split <;> omega

theorem number_le (cs : List Char) : number cs ≤ cs.length := by
  unfold number
  split
  · exact Nat.zero_le _
  · next c rest =>
    have hb := based_le (c :: rest)
    have hs := suffixed_le isDigitMark (c :: rest)
    have hf := fractional_le (c :: rest)
    have hc := scientific_le (c :: rest)
    split
    · omega
    · split <;> omega

theorem closeQuote_le (quote : Char) (cs : List Char) :
    (closeQuote quote cs).1 ≤ cs.length := by
  fun_induction closeQuote quote cs with
  | case1 => exact Nat.zero_le _
  | case2 _ rest n closed h ih =>
    rw [h] at ih
    simpa using ih
  | case3 c rest => simp
  | case4 c rest _ _ n closed h ih =>
    rw [h] at ih
    simpa using ih

theorem punctuationLength_le (cs : List Char) : punctuationLength cs ≤ cs.length := by
  unfold punctuationLength
  cases h : (punctuation.map String.toList).find? fun p => p.isPrefixOf cs with
  | none => exact Nat.zero_le _
  | some p =>
    have hp := List.find?_some (p := fun p : List Char => p.isPrefixOf cs) h
    exact (List.isPrefixOf_iff_prefix.mp hp).length_le

theorem first_le (c : Char) (rest : List Char) : (first c rest).2.1 ≤ rest.length := by
  have hn := number_le (c :: rest)
  have hp := punctuationLength_le (c :: rest)
  rw [List.length_cons] at hn hp
  unfold first
  dsimp only
  split
  · dsimp only; omega
  · split
    · exact run_le isNamePart rest
    · split
      · exact closeQuote_le c rest
      · split
        · dsimp only; omega
        · exact Nat.zero_le _

/-! ### A space ends a lexeme -/

/-- The characters with a space and others behind them. -/
abbrev spaced (cs more : List Char) : List Char := cs ++ ' ' :: more

theorem takeWhile_spaced {p : Char → Bool} (hp : p ' ' = false) (cs more : List Char) :
    (spaced cs more).takeWhile p = cs.takeWhile p := by
  induction cs with
  | nil => simp [spaced, hp]
  | cons c cs ih =>
    rw [spaced, List.cons_append, List.takeWhile_cons, List.takeWhile_cons, ih]

theorem run_spaced {p : Char → Bool} (hp : p ' ' = false) (cs more : List Char) :
    run p (spaced cs more) = run p cs := by
  rw [run, takeWhile_spaced hp, run]

theorem dropWhile_spaced {p : Char → Bool} (hp : p ' ' = false) (cs more : List Char) :
    (spaced cs more).dropWhile p = spaced (cs.dropWhile p) more := by
  induction cs with
  | nil => simp [spaced, hp]
  | cons c cs ih =>
    rw [spaced, List.cons_append, List.dropWhile_cons, List.dropWhile_cons, ih]
    split
    · rfl
    · rfl

theorem suffixed_spaced {p : Char → Bool} (hp : p ' ' = false) (cs more : List Char) :
    suffixed p (spaced cs more) = suffixed p cs := by
  rw [suffixed, run_spaced hp, dropWhile_spaced hp, run_spaced (by decide), suffixed]

theorem exponent_spaced (cs more : List Char) : exponent (spaced cs more) = exponent cs := by
  have hd := run_spaced (show isDigit ' ' = false by decide)
  have hspace : run isDigit (' ' :: more) = 0 := hd [] more
  match cs with
  | [] => rfl
  | [c] =>
    -- The space stands where a sign or a digit would.
    have hnone : run isDigit [] = 0 := rfl
    simp [spaced, exponent, hspace, hnone]
  | c :: d :: digits =>
    have hdigits := hd digits more
    have htail := hd (d :: digits) more
    simp only [spaced, List.cons_append] at hdigits htail ⊢
    by_cases hplus : d = '+'
    · subst hplus
      simp only [exponent, hdigits]
    · by_cases hminus : d = '-'
      · subst hminus
        simp only [exponent, hdigits]
      · simp [exponent, hplus, hminus, htail]

theorem based_spaced (cs more : List Char) : based (spaced cs more) = based cs := by
  match cs with
  | [] => rfl
  | [c] => by_cases hc : c = '0' <;> simp [spaced, based, hc]
  | c :: d :: digits =>
    have hx := suffixed_spaced (show isHexMark ' ' = false by decide) digits more
    have hd := suffixed_spaced (show isDigitMark ' ' = false by decide) digits more
    simp only [spaced, List.cons_append] at hx hd ⊢
    by_cases hc : c = '0'
    · subst hc
      simp only [based, hx, hd]
    · simp [based, hc]

theorem fractional_spaced (cs more : List Char) :
    fractional (spaced cs more) = fractional cs := by
  have hmark : isDigitMark ' ' = false := by decide
  rw [fractional, dropWhile_spaced hmark, run_spaced hmark, fractional]
  cases cs.dropWhile isDigitMark with
  | nil => rfl
  | cons c rest =>
    by_cases hc : c = '.'
    · subst hc
      simp only [spaced, List.cons_append]
      rw [← spaced, dropWhile_spaced hmark, run_spaced hmark, exponent_spaced,
        takeWhile_spaced (by decide)]
    · simp [spaced, hc]

theorem scientific_spaced (cs more : List Char) :
    scientific (spaced cs more) = scientific cs := by
  have hmark : isDigitMark ' ' = false := by decide
  rw [scientific, dropWhile_spaced hmark, run_spaced hmark, exponent_spaced, scientific]

theorem number_spaced (c : Char) (rest more : List Char) :
    number (c :: spaced rest more) = number (c :: rest) := by
  have hb := based_spaced (c :: rest) more
  have hs := suffixed_spaced (show isDigitMark ' ' = false by decide) (c :: rest) more
  have hf := fractional_spaced (c :: rest) more
  have hc := scientific_spaced (c :: rest) more
  simp only [spaced, List.cons_append] at hb hs hf hc ⊢
  simp only [number, hb, hs, hf, hc]

/-- A closed string ends at its quote, whatever stands behind. -/
theorem closeQuote_append {quote : Char} (hq : quote ≠ '\\') {cs : List Char}
    (h : (closeQuote quote cs).2 = true) (more : List Char) :
    closeQuote quote (cs ++ more) = closeQuote quote cs := by
  fun_induction closeQuote quote cs with
  | case1 => cases h
  | case2 e rest n closed hc ih =>
    rw [hc] at ih
    simp only [List.cons_append, closeQuote, ih h]
  | case3 c rest _ hc =>
    obtain rfl := eq_of_beq hc
    rw [List.cons_append, closeQuote, if_pos hc]
    exact fun _ _ hb => absurd hb hq
  | case4 c rest hne hc n closed he ih =>
    rw [he] at ih
    rw [List.cons_append, closeQuote, if_neg hc, ih h]
    intro d rest' hb hr
    subst hb
    cases rest with
    | nil =>
      -- A backslash at the end of the text leaves the string open.
      rw [closeQuote] at he
      cases he
      cases h
    | cons d rest => exact hne d rest rfl rfl

theorem isPrefixOf_spaced {p : List Char} (hp : ' ' ∉ p) (cs more : List Char) :
    p.isPrefixOf (spaced cs more) = p.isPrefixOf cs := by
  induction p generalizing cs with
  | nil => simp
  | cons q p ih =>
    rw [List.mem_cons, not_or] at hp
    cases cs with
    | nil => simp [spaced, List.isPrefixOf, Ne.symm hp.1]
    | cons c cs =>
      have hrest := ih hp.2 cs
      rw [spaced] at hrest
      simp [spaced, List.isPrefixOf, hrest]

theorem punctuationLength_spaced (cs more : List Char) :
    punctuationLength (spaced cs more) = punctuationLength cs := by
  have hp : ∀ p ∈ punctuation.map String.toList, ' ' ∉ p := by decide
  have hfind : ∀ ps : List (List Char), (∀ p ∈ ps, ' ' ∉ p) →
      (ps.find? fun p => p.isPrefixOf (spaced cs more)) =
        ps.find? fun p => p.isPrefixOf cs := by
    intro ps hps
    induction ps with
    | nil => rfl
    | cons p ps ih =>
      rw [List.find?_cons, List.find?_cons, isPrefixOf_spaced (hps p List.mem_cons_self),
        ih fun q hq => hps q (List.mem_cons_of_mem p hq)]
  rw [punctuationLength, hfind _ hp, punctuationLength]

/-- A complete lexeme at the head of a text is the same with a space behind
the text. -/
theorem first_spaced (c : Char) (rest more : List Char) (h : (first c rest).2.2 = true) :
    first c (spaced rest more) = first c rest := by
  have hpunct := punctuationLength_spaced (c :: rest) more
  rw [spaced, List.cons_append, ← spaced] at hpunct
  unfold first at h ⊢
  -- Only a string can hold the space, and a complete one has ended before it.
  rw [number_spaced, hpunct, run_spaced (by decide)]
  dsimp only at h ⊢
  by_cases hn : number (c :: rest) ≠ 0
  · rw [if_pos hn, if_pos hn]
  rw [if_neg hn] at h ⊢
  rw [if_neg hn]
  by_cases hname : isNameStart c = true
  · rw [if_pos hname, if_pos hname]
  rw [if_neg hname] at h ⊢
  rw [if_neg hname]
  by_cases hq : (c == '"' || c == '\'') = true
  · have hc : c ≠ '\\' := by
      rintro rfl
      exact absurd hq (by decide)
    rw [if_pos hq] at h
    rw [if_pos hq, if_pos hq, spaced, closeQuote_append hc h]
  · rw [if_neg hq, if_neg hq]

/-! ### Lexemes -/

theorem not_isGap_of_mem_lexemes (offset : Nat) (cs : List Char) :
    ∀ l ∈ lexemes offset cs, ∃ c rest, l.chars = c :: rest ∧ isGap c = false := by
  fun_induction lexemes offset cs with
  | case1 => simp
  | case2 offset c rest _ ih => exact ih
  | case3 offset c rest hc kind more closed hf chars ih =>
    intro l hl
    rcases List.mem_cons.mp hl with rfl | hl
    · exact ⟨c, rest.take more, rfl, Bool.eq_false_iff.mpr hc⟩
    · exact ih l hl

end TargetView.Lexer

namespace TargetView.Word

open Lexer

/-- The text of the word is cut into one lexeme, which is of its kind and
complete. -/
def IsLexeme (w : Word) : Prop :=
  lexemes 0 w.text.toList = [⟨w.kind, w.text.toList, 0, true⟩]

/-- A word is a lexeme if the first lexeme of its text is all of it. -/
theorem isLexeme_iff (w : Word) :
    w.IsLexeme ↔ ∃ c rest, w.text.toList = c :: rest ∧ isGap c = false ∧
      first c rest = (w.kind, rest.length, true) := by
  unfold IsLexeme
  constructor
  · intro h
    cases ht : w.text.toList with
    | nil => simp [ht, lexemes] at h
    | cons c rest =>
      rw [ht] at h
      obtain ⟨c', rest', hl, hgap⟩ :=
        not_isGap_of_mem_lexemes 0 (c :: rest) _ (h ▸ List.mem_cons_self)
      obtain ⟨rfl, rfl⟩ := List.cons.inj hl
      have hle := first_le c rest
      rcases hf : first c rest with ⟨kind, more, closed⟩
      rw [hf] at hle
      rw [lexemes, if_neg (by simp [hgap]), hf] at h
      obtain ⟨hhead, -⟩ := List.cons.inj h
      obtain ⟨rfl, hchars, -, rfl⟩ := Lexeme.mk.inj hhead
      -- The lexeme takes all of the text, so its length is that of the rest.
      have hmore := congrArg List.length (List.cons.inj hchars).2
      rw [List.length_take, Nat.min_eq_left hle] at hmore
      exact ⟨c, rest, rfl, hgap, by rw [hf, ← hmore]⟩
  · rintro ⟨c, rest, ht, hgap, hf⟩
    rw [ht, lexemes, if_neg (by simp [hgap]), hf]
    simp [lexemes]

/-- Whether the first lexeme of the text is all of it. -/
def check (w : Word) : Bool :=
  match w.text.toList with
  | [] => false
  | c :: rest => !isGap c && first c rest == (w.kind, rest.length, true)

theorem check_iff (w : Word) : w.check = true ↔ w.IsLexeme := by
  rw [isLexeme_iff, check]
  cases w.text.toList with
  | nil => simp
  | cons c rest =>
    constructor
    · intro h
      exact ⟨c, rest, rfl, by simpa using h⟩
    · rintro ⟨c', rest', hc, h⟩
      obtain ⟨rfl, rfl⟩ := List.cons.inj hc
      simpa using h

instance (w : Word) : Decidable w.IsLexeme := decidable_of_iff _ w.check_iff

theorem isLexeme_intrinsic (fn : Intrinsic) : (name fn.name).IsLexeme := by
  cases fn <;> decide

/-- Some words with single spaces between them. -/
def joined (ws : List Word) : String := " ".intercalate (ws.map text)

theorem toList_joined (w v : Word) (ws : List Word) :
    (joined (w :: v :: ws)).toList = spaced w.text.toList (joined (v :: ws)).toList := by
  simp [joined, spaced]

theorem IsLexeme.lexemes_self {w : Word} (h : w.IsLexeme) (offset : Nat) :
    lexemes offset w.text.toList = [⟨w.kind, w.text.toList, offset, true⟩] := by
  obtain ⟨c, rest, ht, hgap, hf⟩ := (isLexeme_iff w).mp h
  rw [ht, lexemes, if_neg (by simp [hgap]), hf]
  simp [lexemes]

theorem IsLexeme.lexemes_spaced {w : Word} (h : w.IsLexeme) (offset : Nat) (more : List Char) :
    ∃ offset', lexemes offset (spaced w.text.toList more) =
      ⟨w.kind, w.text.toList, offset, true⟩ :: lexemes offset' more := by
  obtain ⟨c, rest, ht, hgap, hf⟩ := (isLexeme_iff w).mp h
  have hs := first_spaced c rest more (by rw [hf])
  rw [hf] at hs
  refine ⟨offset + width (c :: rest) + ' '.utf8Size, ?_⟩
  rw [ht, spaced, List.cons_append, lexemes, if_neg (by simp [hgap]), ← spaced, hs]
  simp only [spaced, List.take_left, List.drop_left]
  rw [lexemes, if_pos (by decide)]

/-- **Words between single spaces are cut into themselves.** -/
theorem lexemes_joined (ws : List Word) (h : ∀ w ∈ ws, w.IsLexeme) (offset : Nat) :
    (lexemes offset (joined ws).toList).map Lexeme.word = ws ∧
      ∀ l ∈ lexemes offset (joined ws).toList, l.closed = true := by
  induction ws generalizing offset with
  | nil => simp [joined, lexemes]
  | cons w ws ih =>
    have hw := h w List.mem_cons_self
    have hword (o : Nat) : (⟨w.kind, w.text.toList, o, true⟩ : Lexeme).word = w := by
      simp [Lexeme.word]
    cases ws with
    | nil =>
      have hj : joined [w] = w.text := by simp [joined]
      rw [hj, hw.lexemes_self]
      exact ⟨congrArg ([·]) (hword offset), List.forall_mem_singleton.mpr rfl⟩
    | cons v ws =>
      obtain ⟨offset', hl⟩ := hw.lexemes_spaced offset (joined (v :: ws)).toList
      obtain ⟨hwords, hclosed⟩ := ih (fun u hu => h u (List.mem_cons_of_mem w hu)) offset'
      rw [toList_joined, hl, List.map_cons, hword, hwords]
      exact ⟨rfl, List.forall_mem_cons.mpr ⟨rfl, hclosed⟩⟩

end TargetView.Word
