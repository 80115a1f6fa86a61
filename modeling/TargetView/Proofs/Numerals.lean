import TargetView.Evaluation
import TargetView.Proofs.Layout
import TargetView.Proofs.Printing

/-! # Numerals

The digits that `Nat.toDigits` writes are read back as the number they were made
of (`Number.readDigits_toDigits`), whatever the case of the letters among them.
A decimal numeral, and a hexadecimal one behind `0x`, is a number literal and a
single lexeme, so as a text of its own it evaluates to that number, on every
host and without a step (`Evaluation.run_number`).
-/
namespace TargetView

/-! ## Digits -/

namespace Number

theorem digit?_digitChar_ten : ∀ d < 10, digit? 10 d.digitChar = some d := by decide

theorem digit?_digitChar_sixteen : ∀ d < 16, digit? 16 d.digitChar = some d := by decide

theorem toNat_toLower (c : Char) : c.toLower.toNat =
    if 65 ≤ c.toNat ∧ c.toNat ≤ 90 then c.toNat + 32 else c.toNat := by
  unfold Char.toLower
  split
  · next h =>
    have hc : 65 ≤ c.toNat ∧ c.toNat ≤ 90 := h
    rw [if_pos hc]
    change (c.val + 32).toNat = c.val.toNat + 32
    have hmax : c.val.toNat ≤ 90 := hc.2
    have hoffset : (32 : UInt32).toNat = 32 := rfl
    rw [UInt32.toNat_add, hoffset]
    omega
  · next h =>
    have hc : ¬ (65 ≤ c.toNat ∧ c.toNat ≤ 90) := h
    rw [if_neg hc]

/-- A capital is the same digit as the small letter. -/
theorem digit?_toLower (base : Nat) (c : Char) : digit? base c.toLower = digit? base c := by
  have hlower := toNat_toLower c
  have h (d : Char) : digit? base d =
      let value :=
        if 48 ≤ d.toNat ∧ d.toNat ≤ 57 then d.toNat - 48
        else if 97 ≤ d.toNat ∧ d.toNat ≤ 122 then d.toNat - 97 + 10
        else if 65 ≤ d.toNat ∧ d.toNat ≤ 90 then d.toNat - 65 + 10
        else base
      if value < base then some value else none := rfl
  rw [h, h, hlower]
  grind

theorem readDigits_append (base limit value : Nat) (xs ys : List Char) :
    readDigits base limit value (xs ++ ys) =
      (readDigits base limit value xs).bind fun n => readDigits base limit n ys := by
  induction xs generalizing value with
  | nil => rfl
  | cons c xs ih =>
    rw [List.cons_append, readDigits, readDigits]
    cases digit? base c with
    | none => rfl
    | some d =>
      dsimp only
      split
      · exact ih _
      · rfl

theorem readDigits_map_toLower (base limit value : Nat) (cs : List Char) :
    readDigits base limit value (cs.map Char.toLower) = readDigits base limit value cs := by
  induction cs generalizing value with
  | nil => rfl
  | cons c cs ih => simp only [List.map_cons, readDigits, digit?_toLower, ih]

/-- **Written digits are read back.** -/
theorem readDigits_toDigits {base limit n : Nat} (hbase : 1 < base)
    (hdigit : ∀ d < base, digit? base d.digitChar = some d) (hn : n < limit) :
    readDigits base limit 0 (Nat.toDigits base n) = .ok n := by
  induction n using Nat.strongRecOn with
  | ind n ih =>
    by_cases hlt : n < base
    · rw [Nat.toDigits_of_lt_base hlt, readDigits, hdigit n hlt]
      simp [hn, readDigits]
    · have hdiv : n / base < n := Nat.div_lt_self (by omega) hbase
      rw [Nat.toDigits_of_base_le hbase (Nat.le_of_not_lt hlt), readDigits_append,
        ih _ hdiv (Nat.lt_trans hdiv hn)]
      simp only [Except.bind, readDigits, hdigit _ (Nat.mod_lt n (by omega)), Nat.div_add_mod', hn,
        if_true]

/-- What is read as digits consists of digits. -/
theorem digit_of_readDigits {base limit value n : Nat} {cs : List Char}
    (h : readDigits base limit value cs = .ok n) : ∀ c ∈ cs, ∃ d, digit? base c = some d := by
  induction cs generalizing value with
  | nil => nofun
  | cons c cs ih =>
    rw [readDigits] at h
    cases hd : digit? base c with
    | none => rw [hd] at h; cases h
    | some d =>
      rw [hd] at h
      dsimp only at h
      split at h
      · exact List.forall_mem_cons.mpr ⟨⟨d, hd⟩, ih h⟩
      · cases h

theorem ne_of_digit? {base d : Nat} {c x : Char} (h : digit? base c = some d)
    (hx : digit? base x = none) : c ≠ x := by
  rintro rfl
  rw [h] at hx
  cases hx

theorem readUnsigned_eq {base limit : Nat} {cs : List Char} {n : Nat} (hne : cs ≠ [])
    (hplus : digit? base '+' = none) (h : readDigits base limit 0 cs = .ok n) :
    readUnsigned base limit cs = .ok n := by
  obtain ⟨c, rest, rfl⟩ := List.exists_cons_of_ne_nil hne
  obtain ⟨d, hd⟩ := digit_of_readDigits h c List.mem_cons_self
  have hc : c ≠ '+' := ne_of_digit? hd hplus
  unfold readUnsigned
  split <;> simp_all

/-- A digit is one in every greater base. -/
theorem digit?_of_le {base base' d : Nat} {c : Char} (hle : base ≤ base')
    (h : digit? base c = some d) : digit? base' c = some d := by
  unfold digit? at h ⊢
  grind

theorem isDigit_of_digit? {c : Char} {d : Nat} (h : digit? 10 c = some d) :
    isDigit c = true := by
  unfold digit? at h
  unfold isDigit
  grind

end Number

/-! ## Literals -/

open Number (readDigits digit? ne_of_digit? digit_of_readDigits readUnsigned_eq)

namespace Literal

theorem isSuffix_of_digit? {c : Char} {d : Nat} (h : digit? 16 c = some d) :
    isSuffix c = false := by
  have hu : c ≠ 'u' := ne_of_digit? h (by decide)
  have hU : c ≠ 'U' := ne_of_digit? h (by decide)
  have hl : c ≠ 'l' := ne_of_digit? h (by decide)
  have hL : c ≠ 'L' := ne_of_digit? h (by decide)
  simp [isSuffix, hu, hU, hl, hL]

/-! ### Suffixes and separators -/

theorem mem_of_mem_clean {cs : List Char} {c : Char} (h : c ∈ clean cs) : c ∈ cs := by
  have hreverse := (List.mem_filter.mp h).1
  exact List.mem_reverse.mp ((List.dropWhile_sublist _).mem (List.mem_reverse.mp hreverse))

/-- A suffix is taken away. -/
theorem clean_append_suffix (cs : List Char) {suffix : List Char}
    (h : ∀ c ∈ suffix, isSuffix c = true) : clean (cs ++ suffix) = clean cs := by
  rw [clean, List.reverse_append, List.dropWhile_append_of_pos fun c hc =>
    h c (List.mem_reverse.mp hc)]
  rfl

/-- Before a character that is no suffix only separators are taken away. -/
theorem clean_append (front : List Char) {cs : List Char} (h : ∃ c ∈ cs, isSuffix c = false) :
    clean (front ++ cs) = front.filter (· != '_') ++ clean cs := by
  have hne : (cs.reverse.dropWhile isSuffix).isEmpty = false := by
    obtain ⟨c, hc, hsuffix⟩ := h
    refine Bool.eq_false_iff.mpr fun hempty => ?_
    have htake := List.takeWhile_append_dropWhile (p := isSuffix) (l := cs.reverse)
    rw [List.isEmpty_iff.mp hempty, List.append_nil] at htake
    have hmem : c ∈ cs.reverse.takeWhile isSuffix := htake.symm ▸ List.mem_reverse.mpr hc
    rw [List.all_eq_true.mp List.all_takeWhile c hmem] at hsuffix
    cases hsuffix
  rw [clean, List.reverse_append, List.dropWhile_append, hne, if_neg Bool.false_ne_true,
    List.reverse_append, List.reverse_reverse, List.filter_append]
  rfl

theorem clean_eq_filter {cs : List Char} (h : ∀ c ∈ cs, isSuffix c = false) :
    clean cs = cs.filter (· != '_') := by
  have hdrop : cs.reverse.dropWhile isSuffix = cs.reverse := by
    cases hr : cs.reverse with
    | nil => rfl
    | cons c rest =>
      have hc : c ∈ cs := List.mem_reverse.mp (hr ▸ List.mem_cons_self)
      rw [List.dropWhile_cons, h c hc]
      rfl
  rw [clean, hdrop, List.reverse_reverse]

/-- A character that is no suffix and no separator stays in front. -/
theorem clean_cons {c : Char} (hsuffix : isSuffix c = false) (hmark : c ≠ '_')
    (cs : List Char) : clean (c :: cs) = c :: clean cs := by
  have hkept : [c].filter (· != '_') = [c] := List.filter_cons_of_pos (bne_iff_ne.mpr hmark)
  by_cases h : ∃ d ∈ cs, isSuffix d = false
  · exact (clean_append [c] h).trans (by rw [hkept]; rfl)
  · have hall : ∀ d ∈ cs, isSuffix d = true := fun d hd =>
      Bool.not_eq_false _ ▸ fun hd' => h ⟨d, hd, hd'⟩
    have hnil : clean cs = [] := clean_append_suffix [] hall
    have hone : clean [c] = [c] := by
      rw [clean_eq_filter (List.forall_mem_singleton.mpr hsuffix), hkept]
    rw [hnil, ← hone]
    exact clean_append_suffix [c] hall

theorem mem_clean {cs : List Char} {c : Char} (hc : c ∈ cs) (hsuffix : isSuffix c = false)
    (hmark : c ≠ '_') : c ∈ clean cs := by
  obtain ⟨front, behind, rfl⟩ := List.append_of_mem hc
  rw [clean_append front ⟨c, List.mem_cons_self, hsuffix⟩, clean_cons hsuffix hmark]
  exact List.mem_append_right _ List.mem_cons_self

/-- Digits have neither suffix nor separators. -/
theorem clean_of_digits {cs : List Char} (h : ∀ c ∈ cs, isSuffix c = false ∧ c ≠ '_') :
    clean cs = cs := by
  rw [clean_eq_filter fun c hc => (h c hc).1]
  exact List.filter_eq_self.mpr fun c hc => bne_iff_ne.mpr (h c hc).2

/-! ### Numerals -/

/-- A decimal numeral is the literal of its number. -/
theorem decodeChars_decimal {cs : List Char} {n : Nat} (hne : cs ≠ [])
    (h : readDigits 10 UInt64.size 0 cs = .ok n) : decodeChars cs = .ok (ofNat n) := by
  have hdigit := digit_of_readDigits h
  have hclean : clean cs = cs := by
    refine clean_of_digits fun c hc => ?_
    obtain ⟨d, hd⟩ := hdigit c hc
    exact ⟨isSuffix_of_digit? (Number.digit?_of_le (by decide) hd), ne_of_digit? hd (by decide)⟩
  have hbase : splitBase cs = none := by
    unfold splitBase
    split
    · next c digits =>
      obtain ⟨d, hd⟩ := hdigit c (by simp)
      have hx : c ≠ 'x' := ne_of_digit? hd (by decide)
      have hX : c ≠ 'X' := ne_of_digit? hd (by decide)
      have hb : c ≠ 'b' := ne_of_digit? hd (by decide)
      have hB : c ≠ 'B' := ne_of_digit? hd (by decide)
      have ho : c ≠ 'o' := ne_of_digit? hd (by decide)
      have hO : c ≠ 'O' := ne_of_digit? hd (by decide)
      simp [hx, hX, hb, hB, ho, hO]
    · rfl
  have hfraction : cs.any isFractionMark = false := by
    refine List.any_eq_false.mpr fun c hc => ?_
    obtain ⟨d, hd⟩ := hdigit c hc
    have hpoint : c ≠ '.' := ne_of_digit? hd (by decide)
    have he : c ≠ 'e' := ne_of_digit? hd (by decide)
    have hE : c ≠ 'E' := ne_of_digit? hd (by decide)
    simp [isFractionMark, hpoint, he, hE]
  unfold decodeChars
  dsimp only
  rw [hclean, hbase]
  dsimp only
  rw [ofDecimal, hfraction, readUnsigned_eq hne (by decide) h]
  rfl

/-- A hexadecimal numeral behind `0x` is the literal of its number. -/
theorem decodeChars_hex {cs : List Char} {n : Nat} (hne : cs ≠ [])
    (h : readDigits 16 UInt64.size 0 cs = .ok n) :
    decodeChars ('0' :: 'x' :: cs) = .ok (ofNat n) := by
  have hclean : clean ('0' :: 'x' :: cs) = '0' :: 'x' :: cs := by
    refine clean_of_digits (List.forall_mem_cons.mpr ⟨by decide, List.forall_mem_cons.mpr
      ⟨by decide, fun c hc => ?_⟩⟩)
    obtain ⟨d, hd⟩ := digit_of_readDigits h c hc
    exact ⟨isSuffix_of_digit? hd, ne_of_digit? hd (by decide)⟩
  unfold decodeChars
  dsimp only
  rw [hclean, splitBase, if_pos (by decide)]
  dsimp only
  rw [ofBased, readUnsigned_eq hne (by decide) h]

end Literal

/-! ## Lexemes -/

namespace Lexer

theorem isHexMark_of_digit? {c : Char} {d : Nat} (h : digit? 16 c = some d) :
    isHexMark c = true := by
  have hle (a b : Char) : a ≤ b ↔ a.toNat ≤ b.toNat := Iff.rfl
  simp only [digit?, hle] at h
  simp only [isHexMark, isDigitMark, Number.isDigit, hle]
  grind

theorem isGap_of_isDigit {c : Char} (h : Number.isDigit c = true) : isGap c = false := by
  have hne (x : Char) (hx : Number.isDigit x = false) : (c == x) = false :=
    beq_eq_false_iff_ne.mpr fun hc => absurd (hc ▸ h) (by rw [hx]; exact Bool.false_ne_true)
  rw [isGap, hne ' ' rfl, hne '\t' rfl, hne '\r' rfl, hne '\n' rfl, hne '\x0c' rfl]
  rfl

theorem run_eq_length {p : Char → Bool} {cs : List Char} (h : ∀ c ∈ cs, p c = true) :
    run p cs = cs.length := by
  induction cs with
  | nil => rfl
  | cons c cs ih =>
    obtain ⟨hc, hcs⟩ := List.forall_mem_cons.mp h
    rw [run, List.takeWhile_cons, if_pos hc, List.length_cons, ← run, ih hcs, List.length_cons]

/-- A number that takes all characters is one lexeme. -/
theorem isLexeme_of_number {c : Char} {rest : List Char} (hgap : isGap c = false)
    (h : rest.length + 1 ≤ number (c :: rest)) :
    Word.IsLexeme ⟨.number, String.ofList (c :: rest)⟩ := by
  have hall : number (c :: rest) = rest.length + 1 := Nat.le_antisymm (number_le _) h
  refine (Word.isLexeme_iff _).mpr ⟨c, rest, String.toList_ofList, hgap, ?_⟩
  unfold first
  dsimp only
  rw [hall, if_pos (Nat.succ_ne_zero _), Nat.add_sub_cancel]

theorem isLexeme_decimal {cs : List Char} {n : Nat} (hne : cs ≠ [])
    (h : readDigits 10 UInt64.size 0 cs = .ok n) :
    Word.IsLexeme ⟨.number, String.ofList cs⟩ := by
  obtain ⟨c, rest, rfl⟩ := List.exists_cons_of_ne_nil hne
  have hdigit : ∀ d ∈ c :: rest, Number.isDigit d = true := fun d hd => by
    obtain ⟨v, hv⟩ := digit_of_readDigits h d hd
    exact Number.isDigit_of_digit? hv
  have hmark : ∀ d ∈ c :: rest, isDigitMark d = true := fun d hd => by
    rw [isDigitMark, hdigit d hd, Bool.true_or]
  have hc := hdigit c List.mem_cons_self
  have hsuffixed : rest.length + 1 ≤ suffixed isDigitMark (c :: rest) := by
    rw [suffixed, run_eq_length hmark]
    exact Nat.le_add_right _ _
  refine isLexeme_of_number (isGap_of_isDigit hc) ?_
  unfold number
  dsimp only
  rw [if_pos hc]
  omega

theorem isLexeme_hex {cs : List Char} {n : Nat} (h : readDigits 16 UInt64.size 0 cs = .ok n) :
    Word.IsLexeme ⟨.number, String.ofList ('0' :: 'x' :: cs)⟩ := by
  have hmark : ∀ c ∈ cs, isHexMark c = true := fun c hc => by
    obtain ⟨d, hd⟩ := digit_of_readDigits h c hc
    exact isHexMark_of_digit? hd
  have hbased : cs.length + 2 ≤ based ('0' :: 'x' :: cs) := by
    rw [based, if_pos (by decide), suffixed, run_eq_length hmark]
    omega
  refine isLexeme_of_number (by decide) ?_
  unfold number
  dsimp only
  rw [if_pos (by decide), List.length_cons]
  omega

theorem number_of_first {c : Char} {rest : List Char} {more : Nat} {closed : Bool}
    (h : first c rest = (.number, more, closed)) : number (c :: rest) = more + 1 := by
  unfold first at h
  dsimp only at h
  split at h
  · next hn =>
    cases h
    omega
  · repeat' split at h
    all_goals cases h

theorem isNumberPart_of_isLexeme {spelling : String} (h : Word.IsLexeme ⟨.number, spelling⟩) :
    ∀ c ∈ spelling.toList, isNumberPart c = true := by
  obtain ⟨c, rest, hchars, -, hfirst⟩ := (Word.isLexeme_iff _).mp h
  have hwithin := within_number (c :: rest)
  rw [number_of_first hfirst, ← List.length_cons] at hwithin
  rw [hchars]
  intro d hd
  exact hwithin d (by rwa [List.take_length])

end Lexer

/-! ## Evaluation -/

theorem Template.isFormat_eq_false {cs : List Char} (h : '%' ∉ cs) : isFormat cs = false := by
  induction cs with
  | nil => rfl
  | cons c cs ih =>
    rw [List.mem_cons, not_or] at h
    obtain ⟨hc, hcs⟩ := h
    rw [isFormat]
    · exact ih hcs
    · exact fun hp => absurd hp.symm hc

namespace Evaluation

variable {σ : Type} (host : Host σ) (scope : Option Ref)

/-- **A number literal evaluates to its number**, on every host and without a
step. -/
theorem run_number {spelling : String} {value : Literal}
    (hlexeme : Word.IsLexeme ⟨.number, spelling⟩) (hvalue : Literal.decode spelling = .ok value) :
    run host scope (parse spelling) = pure (.scalar value.toScalar) := by
  have hf : '%' ∉ spelling.toList := fun hp =>
    absurd (Lexer.isNumberPart_of_isLexeme hlexeme _ hp) (by decide)
  have hprint : (Term.number value spelling).print = spelling := by
    simp [Term.print, Term.words, Word.joined]
  obtain ⟨root, hbody, hbare, -⟩ := parse_printed (.number value spelling) ⟨hvalue, hlexeme⟩
    (by rw [hprint]; exact Template.isFormat_eq_false hf)
  rw [hprint] at hbody
  have hfold : root.fold = some ⟨value.toScalar, false⟩ := by
    cases root with
    | number v span =>
      cases hbare
      rfl
    | _ => cases hbare
  have hpure : (parse spelling).body.pureConstant? = some value.toScalar := by
    rw [hbody, Body.pureConstant?, Body.constant?, hfold]
    rfl
  rw [run, hpure]

end Evaluation

end TargetView
