import TargetView.Proofs.Numerals

/-! # The forms of number lexemes

The lexer takes the longest of four lengths for a number; each of them is the
length of one form (`NumberForm`).  So a number lexeme is an integer with a base,
a decimal integer, a number with a point or one with an exponent only
(`form_of_mem_lexemes`).
-/
namespace TargetView.Lexer

open TargetView.Number (isDigit)
open TargetView.Literal (splitBase)

variable {cs : List Char} {c : Char}

/-- An exponent: `e`, perhaps a sign, and digits. -/
inductive IsExponent : List Char → Prop
  | plain {mark : Char} {digits : List Char} (hmark : mark = 'e' ∨ mark = 'E')
      (hne : digits ≠ []) (hdigits : ∀ d ∈ digits, isDigit d = true) :
      IsExponent (mark :: digits)
  | signed {mark sign : Char} {digits : List Char} (hmark : mark = 'e' ∨ mark = 'E')
      (hsign : sign = '+' ∨ sign = '-') (hne : digits ≠ [])
      (hdigits : ∀ d ∈ digits, isDigit d = true) : IsExponent (mark :: sign :: digits)

theorem isDigit_or_mark_of_isExponent {tail : List Char} (h : tail = [] ∨ IsExponent tail) :
    ∀ c ∈ tail, isDigit c = true ∨ c ∈ ['e', 'E', '+', '-'] := by
  rcases h with rfl | h
  · nofun
  · cases h with
    | plain hmark _ hdigits =>
      refine List.forall_mem_cons.mpr ⟨.inr ?_, fun c hc => .inl (hdigits c hc)⟩
      rcases hmark with rfl | rfl <;> decide
    | signed hmark hsign _ hdigits =>
      refine List.forall_mem_cons.mpr ⟨.inr ?_, List.forall_mem_cons.mpr
        ⟨.inr ?_, fun c hc => .inl (hdigits c hc)⟩⟩
      · rcases hmark with rfl | rfl <;> decide
      · rcases hsign with rfl | rfl <;> decide

/-- What number lexemes consist of. -/
inductive NumberForm : List Char → Prop
  /-- Digits behind a base, and a suffix. -/
  | based {c : Char} {marks suffix : List Char} {base : Nat}
      (hbase : splitBase ['0', c] = some (base, [])) (hmarks : ∀ d ∈ marks, isHexMark d = true)
      (hsuffix : ∀ d ∈ suffix, isSuffix d = true) : NumberForm ('0' :: c :: (marks ++ suffix))
  /-- Decimal digits, and a suffix. -/
  | decimal {c : Char} {marks suffix : List Char} (hc : isDigit c = true)
      (hmarks : ∀ d ∈ marks, isDigitMark d = true)
      (hsuffix : ∀ d ∈ suffix, isSuffix d = true) : NumberForm (c :: (marks ++ suffix))
  /-- Digits before or behind a point, and perhaps an exponent. -/
  | pointed {whole part tail : List Char} (hwhole : ∀ d ∈ whole, isDigitMark d = true)
      (hpart : ∀ d ∈ part, isDigitMark d = true) (hdigit : ∃ d ∈ whole ++ part, isDigit d = true)
      (htail : tail = [] ∨ IsExponent tail) :
      NumberForm (whole ++ '.' :: (part ++ tail))
  /-- Digits and an exponent. -/
  | scientific {c : Char} {marks tail : List Char} (hc : isDigit c = true)
      (hmarks : ∀ d ∈ marks, isDigitMark d = true) (htail : IsExponent tail) :
      NumberForm (c :: (marks ++ tail))

/-! ### Lengths -/

theorem of_mem_takeWhile {p : Char → Bool} : ∀ d ∈ cs.takeWhile p, p d = true :=
  List.all_eq_true.mp List.all_takeWhile

theorem take_suffixed (p : Char → Bool) (cs : List Char) :
    cs.take (suffixed p cs) = cs.takeWhile p ++ (cs.dropWhile p).takeWhile isSuffix := by
  rw [suffixed, List.take_add, take_run, drop_run, take_run]

/-- A run that is not empty, behind the mark of an exponent. -/
theorem IsExponent.of_run {mark : Char} {digits : List Char} (hmark : mark = 'e' ∨ mark = 'E')
    (h : run isDigit digits ≠ 0) : IsExponent (mark :: digits.take (run isDigit digits)) := by
  rw [take_run]
  exact .plain hmark (List.ne_nil_of_length_pos (Nat.pos_of_ne_zero h)) of_mem_takeWhile

theorem IsExponent.of_signed_run {mark sign : Char} {digits : List Char}
    (hmark : mark = 'e' ∨ mark = 'E') (hsign : sign = '+' ∨ sign = '-')
    (h : run isDigit digits ≠ 0) :
    IsExponent (mark :: sign :: digits.take (run isDigit digits)) := by
  rw [take_run]
  exact .signed hmark hsign (List.ne_nil_of_length_pos (Nat.pos_of_ne_zero h)) of_mem_takeWhile

theorem isExponent_take (h : exponent cs ≠ 0) : IsExponent (cs.take (exponent cs)) := by
  unfold exponent at h ⊢
  split at h
  · next c rest =>
    split at h
    · next he =>
      rw [if_pos he]
      rw [Bool.or_eq_true, beq_iff_eq, beq_iff_eq] at he
      split at h
      · next digits =>
        split at h
        · exact absurd rfl h
        · next hrun =>
          rw [if_neg hrun]
          exact .of_signed_run he (.inl rfl) hrun
      · next digits =>
        split at h
        · exact absurd rfl h
        · next hrun =>
          rw [if_neg hrun]
          exact .of_signed_run he (.inr rfl) hrun
      · split at h
        · exact absurd rfl h
        · next hrun =>
          rw [if_neg hrun]
          exact .of_run he hrun
    · exact absurd rfl h
  · exact absurd rfl h

/-- What there is of an exponent. -/
theorem take_exponent (cs : List Char) :
    cs.take (exponent cs) = [] ∨ IsExponent (cs.take (exponent cs)) := by
  by_cases h : exponent cs = 0
  · rw [h]
    exact .inl rfl
  · exact .inr (isExponent_take h)

theorem isDigitMark_of_isDigit (h : isDigit c = true) : isDigitMark c = true := by
  rw [isDigitMark, h, Bool.true_or]

theorem isHexMark_of_isDigitMark (h : isDigitMark c = true) : isHexMark c = true := by
  rw [isHexMark, h, Bool.true_or, Bool.true_or]

theorem form_suffixed {p : Char → Bool} {base : Nat} (hbase : splitBase ['0', c] = some (base, []))
    (hp : ∀ d, p d = true → isHexMark d = true) (rest : List Char) :
    NumberForm (('0' :: c :: rest).take (2 + suffixed p rest)) := by
  rw [Nat.add_comm, List.take_succ_cons, List.take_succ_cons, take_suffixed]
  exact .based hbase (fun d hd => hp d (of_mem_takeWhile d hd)) of_mem_takeWhile

theorem form_based (h : based cs ≠ 0) : NumberForm (cs.take (based cs)) := by
  unfold based at h ⊢
  split at h
  · next c rest =>
    split at h
    · next hx =>
      rw [if_pos hx]
      have hbase : splitBase ['0', c] = some (16, []) := by rw [splitBase, if_pos hx]
      exact form_suffixed hbase (fun _ hd => hd) rest
    · next hx =>
      split at h
      · next hb =>
        rw [if_neg hx, if_pos hb]
        have hbase : ∃ base, splitBase ['0', c] = some (base, []) := by
          simp only [Bool.or_eq_true, beq_iff_eq] at hb
          rcases hb with ((rfl | rfl) | rfl) | rfl
          · exact ⟨2, rfl⟩
          · exact ⟨2, rfl⟩
          · exact ⟨8, rfl⟩
          · exact ⟨8, rfl⟩
        obtain ⟨base, hbase⟩ := hbase
        exact form_suffixed hbase (fun _ => isHexMark_of_isDigitMark) rest
      · exact absurd rfl h
  · exact absurd rfl h

theorem form_decimal {rest : List Char} (hc : isDigit c = true) :
    NumberForm ((c :: rest).take (suffixed isDigitMark (c :: rest))) := by
  rw [take_suffixed, List.takeWhile_cons, if_pos (isDigitMark_of_isDigit hc)]
  exact .decimal hc of_mem_takeWhile of_mem_takeWhile

/-- Marks that do not start with an underscore hold a digit. -/
theorem exists_digit_of_run (hfirst : cs.head? ≠ some '_') (h : run isDigitMark cs ≠ 0) :
    ∃ d ∈ cs.takeWhile isDigitMark, isDigit d = true := by
  cases cs with
  | nil => exact absurd rfl h
  | cons c rest =>
    by_cases hc : isDigitMark c = true
    · rcases Bool.or_eq_true_iff.mp hc with hdigit | hunder
      · rw [List.takeWhile_cons, if_pos hc]
        exact ⟨c, List.mem_cons_self, hdigit⟩
      · exact absurd (congrArg some (eq_of_beq hunder)) hfirst
    · rw [run, List.takeWhile_cons, if_neg hc] at h
      exact absurd rfl h

theorem exists_digit_of_takeWhile (h : cs.takeWhile isDigit ≠ []) :
    ∃ d ∈ cs.takeWhile isDigitMark, isDigit d = true := by
  cases cs with
  | nil => exact absurd rfl h
  | cons c rest =>
    by_cases hc : isDigit c = true
    · rw [List.takeWhile_cons, if_pos (isDigitMark_of_isDigit hc)]
      exact ⟨c, List.mem_cons_self, hc⟩
    · rw [List.takeWhile_cons, if_neg hc] at h
      exact absurd rfl h

theorem form_fractional (hfirst : cs.head? ≠ some '_') (h : fractional cs ≠ 0) :
    NumberForm (cs.take (fractional cs)) := by
  unfold fractional at h ⊢
  dsimp only at h ⊢
  split at h
  · next rest hd =>
    split at h
    · exact absurd rfl h
    · next hsome =>
      rw [if_neg hsome, Nat.add_assoc, Nat.add_assoc, List.take_add, take_run, drop_run, hd,
        Nat.add_comm 1, List.take_succ_cons, List.take_add, take_run, drop_run]
      refine .pointed of_mem_takeWhile of_mem_takeWhile ?_ (take_exponent _)
      by_cases hwhole : run isDigitMark cs = 0
      · rw [hwhole, decide_eq_true rfl, Bool.true_and, List.isEmpty_iff] at hsome
        obtain ⟨d, hd, hdigit⟩ := exists_digit_of_takeWhile hsome
        exact ⟨d, List.mem_append_right _ hd, hdigit⟩
      · obtain ⟨d, hd, hdigit⟩ := exists_digit_of_run hfirst hwhole
        exact ⟨d, List.mem_append_left _ hd, hdigit⟩
  · exact absurd rfl h

theorem form_scientific {rest : List Char} (hc : isDigit c = true)
    (h : scientific (c :: rest) ≠ 0) :
    NumberForm ((c :: rest).take (scientific (c :: rest))) := by
  unfold scientific at h ⊢
  dsimp only at h ⊢
  split at h
  · exact absurd rfl h
  · next htail =>
    rw [if_neg htail, List.take_add, take_run, drop_run, List.takeWhile_cons,
      if_pos (isDigitMark_of_isDigit hc)]
    exact .scientific hc of_mem_takeWhile (isExponent_take htail)

/-- The length of a number is the length of one of its forms. -/
theorem form_take_number (h : number cs ≠ 0) : NumberForm (cs.take (number cs)) := by
  unfold number at h ⊢
  split at h
  · exact absurd rfl h
  · next c rest =>
    split at h
    · next hc =>
      rw [if_pos hc]
      have hunder : (c :: rest).head? ≠ some '_' := by
        rintro ⟨⟩
        cases hc
      have hlongest : ∀ a b d e : Nat, max (max a b) (max d e) = a ∨ max (max a b) (max d e) = b ∨
          max (max a b) (max d e) = d ∨ max (max a b) (max d e) = e := by omega
      rcases hlongest (based (c :: rest)) (suffixed isDigitMark (c :: rest))
        (fractional (c :: rest)) (scientific (c :: rest)) with hmax | hmax | hmax | hmax
      · rw [hmax] at h ⊢
        exact form_based h
      · rw [hmax]
        exact form_decimal hc
      · rw [hmax] at h ⊢
        exact form_fractional hunder h
      · rw [hmax] at h ⊢
        exact form_scientific hc h
    · next hc =>
      rw [if_neg hc]
      split at h
      · next hpoint =>
        rw [if_pos hpoint]
        refine form_fractional ?_ h
        rintro ⟨⟩
        cases hpoint
      · exact absurd rfl h

/-- **A number lexeme has one of the forms.** -/
theorem form_of_mem_lexemes {l : Lexeme} {offset : Nat} (hl : l ∈ lexemes offset cs)
    (hkind : l.kind = .number) : NumberForm l.chars := by
  fun_induction lexemes offset cs with
  | case1 => cases hl
  | case2 offset c rest hc ih => exact ih hl
  | case3 offset c rest hc kind more closed hfirst chars ih =>
    rcases List.mem_cons.mp hl with rfl | hl
    · obtain rfl : kind = .number := hkind
      have hnumber := number_of_first hfirst
      have hform : NumberForm ((c :: rest).take (number (c :: rest))) :=
        form_take_number (by omega)
      rw [hnumber] at hform
      exact hform
    · exact ih hl

end TargetView.Lexer
