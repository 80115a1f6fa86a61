import TargetView.Proofs.NumberForms
import TargetView.Proofs.Rounding

/-! # What number lexemes decode to

The decoder takes the suffix and the separators away and looks for a base then.
On a number lexeme that is the base it starts with (`Literal.splitBase_clean`),
so that its digits are what is left behind the base, or the whole of it.  Digits
of a base are read as the integer they stand for, as long as it fits
(`Number.readDigits_eq`), and a number with a point or an exponent can always be
read (`Literal.isSome_readDecimal_of_form`).
-/
namespace TargetView

open Lexer (IsExponent NumberForm isDigitMark isHexMark)
open Number (isDigit digit?)

/-! ## Digits -/

namespace Number

variable {base limit : Nat} {cs : List Char}

/-- The integer that digits of a base stand for. -/
def valueIn (base : Nat) (digits : List Char) : Nat :=
  Nat.ofDigits base (digits.reverse.map fun c => (digit? base c).getD 0)

theorem valueIn_cons {d : Nat} {c : Char} (hd : digit? base c = some d) (rest : List Char) :
    valueIn base (c :: rest) = d * base ^ rest.length + valueIn base rest := by
  rw [valueIn, List.reverse_cons, List.map_append, Nat.ofDigits_append, List.map_singleton, hd,
    Nat.ofDigits_singleton, List.length_map, List.length_reverse, Nat.add_comm, Nat.mul_comm]
  rfl

/-- Digits continue an integer, as long as it fits. -/
theorem readDigits_eq (hbase : 0 < base) (hcs : ∀ c ∈ cs, (digit? base c).isSome = true)
    {value : Nat} (hvalue : value < limit) : readDigits base limit value cs =
      if value * base ^ cs.length + valueIn base cs < limit then
        .ok (value * base ^ cs.length + valueIn base cs)
      else .error .overflow := by
  induction cs generalizing value with
  | nil =>
    have hnil : value * base ^ 0 + valueIn base [] = value := by simp [valueIn]
    rw [readDigits, List.length_nil, hnil, if_pos hvalue]
  | cons c rest ih =>
    obtain ⟨hc, hrest⟩ := List.forall_mem_cons.mp hcs
    obtain ⟨d, hd⟩ := Option.isSome_iff_exists.mp hc
    have htotal : value * base ^ (c :: rest).length + valueIn base (c :: rest) =
        (value * base + d) * base ^ rest.length + valueIn base rest := by
      rw [valueIn_cons hd, List.length_cons, Nat.pow_succ]
      ring
    rw [readDigits, hd, htotal]
    dsimp only
    split
    · next hnext => exact ih hrest hnext
    · next hnext =>
      -- What follows makes the integer no smaller.
      have hle : value * base + d ≤ (value * base + d) * base ^ rest.length :=
        Nat.le_mul_of_pos_right _ (Nat.pow_pos hbase)
      rw [if_neg (by omega)]

/-- Digits without a sign are read as such. -/
theorem readUnsigned_of_head? (hne : cs ≠ []) (hplus : cs.head? ≠ some '+') :
    readUnsigned base limit cs = readDigits base limit 0 cs := by
  cases cs with
  | nil => exact absurd rfl hne
  | cons c rest =>
    unfold readUnsigned
    split
    · next h => cases h
    · next h =>
      cases h
      exact absurd rfl hplus
    · next h =>
      cases h
      exact absurd rfl hplus
    · rfl

/-- **Digits are read as the integer they stand for.** -/
theorem readUnsigned_of_digits (hbase : 0 < base) (hplus : digit? base '+' = none)
    (hlimit : 0 < limit) (hne : cs ≠ []) (hcs : ∀ c ∈ cs, (digit? base c).isSome = true) :
    readUnsigned base limit cs =
      if valueIn base cs < limit then .ok (valueIn base cs) else .error .overflow := by
  have hhead : cs.head? ≠ some '+' := by
    intro h
    have hmem := hcs '+' (List.mem_of_mem_head? h)
    rw [hplus] at hmem
    cases hmem
  have hzero : 0 * base ^ cs.length + valueIn base cs = valueIn base cs := by
    rw [Nat.zero_mul, Nat.zero_add]
  rw [readUnsigned_of_head? hne hhead, readDigits_eq hbase hcs hlimit, hzero]

theorem readDigits_ne_empty {value : Nat} : readDigits base limit value cs ≠ .error .empty := by
  induction cs generalizing value with
  | nil => simp [readDigits]
  | cons c rest ih =>
    rw [readDigits]
    cases digit? base c with
    | none => simp
    | some d =>
      dsimp only
      split
      · exact ih
      · simp

/-- Only where there is nothing nothing is read. -/
theorem readUnsigned_eq_empty_iff : readUnsigned base limit cs = .error .empty ↔ cs = [] := by
  refine ⟨fun h => ?_, fun h => h ▸ rfl⟩
  unfold readUnsigned at h
  split at h
  · rfl
  · cases h
  · exact absurd h readDigits_ne_empty
  · exact absurd h readDigits_ne_empty

theorem digit?_of_isDigit {c : Char} (h : isDigit c = true) :
    digit? 10 c = some (c.toNat - '0'.toNat) := by
  obtain ⟨hlo, hhi⟩ := Bool.and_eq_true_iff.mp h
  have hrange : '0' ≤ c ∧ c ≤ '9' := ⟨of_decide_eq_true hlo, of_decide_eq_true hhi⟩
  have hmax : c.toNat ≤ '9'.toNat := hrange.2
  have hvalue : c.toNat - '0'.toNat < 10 := Nat.sub_lt_left_of_lt_add hrange.1 (by
    exact Nat.lt_succ_of_le hmax)
  unfold digit?
  rw [if_pos hrange]
  exact if_pos hvalue

theorem isSome_digit?_of_isDigit {c : Char} (h : isDigit c = true) :
    (digit? 10 c).isSome = true := by
  rw [digit?_of_isDigit h]
  rfl

/-! ### Rounded digits -/

/-- The value of decimal digits behind others. -/
theorem foldl_digits (hcs : ∀ c ∈ cs, isDigit c = true) (n : Nat) :
    cs.foldl (fun n c => n * 10 + (c.toNat - '0'.toNat)) n =
      n * 10 ^ cs.length + valueIn 10 cs := by
  induction cs generalizing n with
  | nil => simp [valueIn]
  | cons c rest ih =>
    obtain ⟨hc, hrest⟩ := List.forall_mem_cons.mp hcs
    rw [List.foldl_cons, ih hrest, valueIn_cons (digit?_of_isDigit hc), List.length_cons,
      Nat.pow_succ]
    ring

theorem ofDigits_eq (hcs : ∀ c ∈ cs, isDigit c = true) : ofDigits cs = valueIn 10 cs := by
  rw [ofDigits, foldl_digits hcs, Nat.zero_mul, Nat.zero_add]

/-- Leading zeros have no value. -/
theorem valueIn_dropWhile (cs : List Char) :
    valueIn 10 (cs.dropWhile (· == '0')) = valueIn 10 cs := by
  induction cs with
  | nil => rfl
  | cons c rest ih =>
    rw [List.dropWhile_cons]
    split
    · next hc =>
      obtain rfl := eq_of_beq hc
      have hzero : digit? 10 '0' = some 0 := rfl
      rw [ih, valueIn_cons hzero, Nat.zero_mul, Nat.zero_add]
    · rfl

/-- **Digits of an integer beyond 64 bits are not rounded below that.** -/
theorem two_pow_64_le_rounded (hcs : ∀ c ∈ cs, isDigit c = true) (h : 2 ^ 64 ≤ valueIn 10 cs) :
    18446744073709551616 ≤ rounded cs 0 := by
  have hsignificant : ∀ c ∈ cs.dropWhile (· == '0'), isDigit c = true := fun c hc =>
    hcs c ((List.dropWhile_sublist _).mem hc)
  have hvalue : ofDigits (cs.dropWhile (· == '0')) = valueIn 10 cs := by
    rw [ofDigits_eq hsignificant, valueIn_dropWhile]
  unfold rounded
  dsimp only
  split
  · next hempty =>
    rw [List.isEmpty_iff.mp hempty] at hvalue
    rw [← hvalue] at h
    exact absurd h (by decide)
  · split
    · decide +kernel
    · rw [if_neg (by omega), if_pos (Int.le_refl 0), hvalue]
      exact Binary64.two_pow_64_le_ofNat h

/-! ### Decimal numbers -/

variable {whole fraction tail : List Char}

theorem not_isDigit_of_isExponent {c : Char} {rest : List Char} (h : IsExponent (c :: rest)) :
    isDigit c = false ∧ c ≠ '.' := by
  have hmark : c = 'e' ∨ c = 'E' := by cases h <;> assumption
  rcases hmark with rfl | rfl <;> decide

/-- Digits end before an exponent. -/
theorem takeWhile_digits (hwhole : ∀ c ∈ whole, isDigit c = true)
    (htail : tail = [] ∨ IsExponent tail) :
    (whole ++ tail).takeWhile isDigit = whole ∧ (whole ++ tail).dropWhile isDigit = tail := by
  rw [List.takeWhile_append_of_pos hwhole, List.dropWhile_append_of_pos hwhole]
  cases tail with
  | nil => exact ⟨List.append_nil _, rfl⟩
  | cons c rest =>
    have hc := (not_isDigit_of_isExponent (htail.resolve_left nofun)).1
    rw [List.takeWhile_cons, List.dropWhile_cons, hc]
    exact ⟨List.append_nil _, rfl⟩

theorem splitSign_append {rest : List Char} (hwhole : ∀ c ∈ whole, isDigit c = true)
    (hrest : splitSign rest = (false, rest)) :
    splitSign (whole ++ rest) = (false, whole ++ rest) := by
  cases whole with
  | nil => exact hrest
  | cons c more =>
    have hc := hwhole c List.mem_cons_self
    rw [List.cons_append]
    unfold splitSign
    split
    · next h =>
      cases h
      cases hc
    · next h =>
      cases h
      cases hc
    · rfl

theorem isSome_readExponent (h : tail = [] ∨ IsExponent tail) :
    (readExponent tail).isSome = true := by
  rcases h with rfl | h
  · rfl
  · cases h with
    | @plain mark digits hmark hne hdigits =>
      have hsign : splitSign (digits ++ []) = (false, digits ++ []) := splitSign_append hdigits rfl
      rw [List.append_nil] at hsign
      rw [readExponent, hsign]
      simp [hmark, hne, List.all_eq_true.mpr hdigits]
    | signed hmark hsign hne hdigits =>
      rcases hsign with rfl | rfl
      · simp [readExponent, splitSign, hmark, hne, List.all_eq_true.mpr hdigits]
      · simp [readExponent, splitSign, hmark, hne, List.all_eq_true.mpr hdigits]

/-- Digits without a point are read with their exponent. -/
theorem readDecimal_whole (hne : whole ≠ []) (hwhole : ∀ c ∈ whole, isDigit c = true)
    (htail : tail = [] ∨ IsExponent tail) :
    readDecimal (whole ++ tail) = (readExponent tail).map (rounded whole) := by
  obtain ⟨htake, hdrop⟩ := takeWhile_digits hwhole htail
  have hsign : splitSign tail = (false, tail) := by
    rcases htail with rfl | h
    · rfl
    · cases h with
      | plain hmark => rcases hmark with rfl | rfl <;> rfl
      | signed hmark => rcases hmark with rfl | rfl <;> rfl
  unfold readDecimal
  rw [splitSign_append hwhole hsign]
  dsimp only
  rw [htake, hdrop]
  split
  · exact absurd rfl (not_isDigit_of_isExponent (htail.resolve_left nofun)).2
  · simp [hne]

/-- Digits with a point among or around them are read with their exponent. -/
theorem readDecimal_pointed (hne : whole ++ fraction ≠ []) (hwhole : ∀ c ∈ whole, isDigit c = true)
    (hfraction : ∀ c ∈ fraction, isDigit c = true) (htail : tail = [] ∨ IsExponent tail) :
    readDecimal (whole ++ '.' :: (fraction ++ tail)) = (readExponent tail).map fun exponent =>
      rounded (whole ++ fraction) (exponent - fraction.length) := by
  obtain ⟨htake, hdrop⟩ := takeWhile_digits hfraction htail
  have hpoint : isDigit '.' = false := rfl
  unfold readDecimal
  rw [splitSign_append hwhole rfl]
  dsimp only
  rw [List.takeWhile_append_of_pos hwhole, List.dropWhile_append_of_pos hwhole,
    List.takeWhile_cons, List.dropWhile_cons, hpoint]
  simp only [Bool.false_eq_true, if_false, List.append_nil]
  rw [htake, hdrop, if_neg]
  rw [Bool.and_eq_true, List.isEmpty_iff, List.isEmpty_iff]
  rintro ⟨rfl, rfl⟩
  exact hne rfl

end Number

/-! ## Bases -/

namespace Literal

variable {cs body : List Char} {base : Nat}

theorem of_splitBase {base : Nat} {body : List Char} (h : splitBase cs = some (base, body)) :
    ∃ c, cs = '0' :: c :: body ∧
      (c = 'x' ∨ c = 'X' ∨ c = 'b' ∨ c = 'B' ∨ c = 'o' ∨ c = 'O') ∧
      (base = 16 ∨ base = 2 ∨ base = 8) := by
  unfold splitBase at h
  split at h
  · next c digits =>
    refine ⟨c, ?_⟩
    grind
  · cases h

/-- The digits stand behind the two characters of their base. -/
theorem splitBase_cons {c : Char} (h : splitBase ['0', c] = some (base, [])) (body : List Char) :
    splitBase ('0' :: c :: body) = some (base, body) := by
  unfold splitBase at h ⊢
  grind

/-- A base is still in front without suffix and separators. -/
theorem splitBase_clean {base : Nat} {body : List Char} (h : splitBase cs = some (base, body)) :
    splitBase (clean cs) = some (base, clean body) := by
  obtain ⟨c, rfl, hc, -⟩ := of_splitBase h
  have hmark : isSuffix c = false ∧ c ≠ '_' := by
    rcases hc with rfl | rfl | rfl | rfl | rfl | rfl <;> decide
  rw [clean_cons (by decide) (by decide), clean_cons hmark.1 hmark.2]
  unfold splitBase at h ⊢
  grind


/-- The characters of numbers without a base. -/
def isDecimalMark (c : Char) : Bool :=
  isDigitMark c || isSuffix c || isFractionMark c || c == '+' || c == '-'

theorem splitBase_eq_none (h : ∀ c ∈ cs, isDecimalMark c = true) : splitBase cs = none := by
  cases hsplit : splitBase cs with
  | none => rfl
  | some split =>
    obtain ⟨c, rfl, hc, -⟩ := of_splitBase hsplit
    have hmark := h c (by simp)
    rcases hc with rfl | rfl | rfl | rfl | rfl | rfl <;> cases hmark

theorem isDecimalMark_of_isDigit {c : Char} (h : isDigit c = true) : isDecimalMark c = true := by
  simp [isDecimalMark, Lexer.isDigitMark_of_isDigit h]

theorem isDecimalMark_of_isExponent {tail : List Char} (h : tail = [] ∨ IsExponent tail) :
    ∀ c ∈ tail, isDecimalMark c = true := fun c hc =>
  (Lexer.isDigit_or_mark_of_isExponent h c hc).elim isDecimalMark_of_isDigit
    (List.all_eq_true.mp (by decide : ['e', 'E', '+', '-'].all isDecimalMark = true) c)

/-- A number has a base with marks of digits and a suffix behind it, or it
consists of the characters of numbers without one. -/
theorem splitBase_of_form (h : NumberForm cs) :
    (∃ base body, splitBase cs = some (base, body) ∧
      ∀ c ∈ body, isHexMark c = true ∨ isSuffix c = true) ∨
    ∀ c ∈ cs, isDecimalMark c = true := by
  have hdigit (c : Char) (hc : isDigitMark c = true) : isDecimalMark c = true := by
    simp [isDecimalMark, hc]
  have hsuffix (c : Char) (hc : isSuffix c = true) : isDecimalMark c = true := by
    simp [isDecimalMark, hc]
  cases h with
  | @based c marks suffix base hbase hmarks hsuffix =>
    exact .inl ⟨base, marks ++ suffix, splitBase_cons hbase _, fun c hc =>
      (List.mem_append.mp hc).imp (hmarks c) (hsuffix c)⟩
  | @decimal c marks suffix hc hmarks hends =>
    refine .inr (List.forall_mem_cons.mpr ⟨isDecimalMark_of_isDigit hc, fun d hd => ?_⟩)
    exact (List.mem_append.mp hd).elim (fun h => hdigit d (hmarks d h))
      fun h => hsuffix d (hends d h)
  | @pointed whole part tail hwhole hpart _ htail =>
    refine .inr fun d hd => ?_
    rcases List.mem_append.mp hd with hd | hd
    · exact hdigit d (hwhole d hd)
    rcases List.mem_cons.mp hd with rfl | hd
    · rfl
    exact (List.mem_append.mp hd).elim (fun h => hdigit d (hpart d h))
      (isDecimalMark_of_isExponent htail d)
  | @scientific c marks tail hc hmarks htail =>
    refine .inr (List.forall_mem_cons.mpr ⟨isDecimalMark_of_isDigit hc, fun d hd => ?_⟩)
    exact (List.mem_append.mp hd).elim (fun h => hdigit d (hmarks d h))
      (isDecimalMark_of_isExponent (.inr htail) d)

/-! ## The digits of number lexemes -/

theorem isDigit_of_isDigitMark {c : Char} (h : isDigitMark c = true) (hc : c ≠ '_') :
    isDigit c = true :=
  (Bool.or_eq_true_iff.mp h).resolve_right fun hmark => hc (eq_of_beq hmark)

/-- What is left of marks are digits. -/
theorem isDigit_of_mem_filter {marks : List Char} (h : ∀ c ∈ marks, isDigitMark c = true) :
    ∀ c ∈ marks.filter (· != '_'), isDigit c = true := fun c hc =>
  isDigit_of_isDigitMark (h c (List.mem_filter.mp hc).1) (bne_iff_ne.mp (List.mem_filter.mp hc).2)

theorem isSuffix_of_isDigitMark {c : Char} (h : isDigitMark c = true) :
    isSuffix c = false := by
  refine Bool.eq_false_iff.mpr fun hsuffix => ?_
  simp only [isSuffix, Bool.or_eq_true, beq_iff_eq] at hsuffix
  rcases hsuffix with ((rfl | rfl) | rfl) | rfl <;> cases h

theorem ne_of_isDigit {c d : Char} (h : isDigit c = true) (hd : isDigit d = false) : c ≠ d := by
  rintro rfl
  rw [h] at hd
  cases hd

/-- A digit is left of marks that hold one. -/
theorem filter_ne_nil {marks : List Char} (h : ∃ d ∈ marks, isDigit d = true) :
    marks.filter (· != '_') ≠ [] := by
  obtain ⟨d, hd, hdigit⟩ := h
  exact List.ne_nil_of_mem (List.mem_filter.mpr ⟨hd, bne_iff_ne.mpr (ne_of_isDigit hdigit rfl)⟩)

/-- An exponent has neither suffix nor separators. -/
theorem plain_of_isExponent {tail : List Char} (h : tail = [] ∨ IsExponent tail) :
    ∀ c ∈ tail, isSuffix c = false ∧ c ≠ '_' := fun c hc =>
  (Lexer.isDigit_or_mark_of_isExponent h c hc).elim
    (fun hdigit => ⟨isSuffix_of_isDigitMark (Lexer.isDigitMark_of_isDigit hdigit),
      ne_of_isDigit hdigit rfl⟩)
    fun hmark => by
      simp only [List.mem_cons, List.not_mem_nil, or_false] at hmark
      rcases hmark with rfl | rfl | rfl | rfl <;> decide

/-- Only separators are taken away before an exponent. -/
theorem clean_append_exponent {front tail : List Char} (hfront : ∀ c ∈ front, isSuffix c = false)
    (htail : tail = [] ∨ IsExponent tail) :
    clean (front ++ tail) = front.filter (· != '_') ++ tail := by
  have hplain := plain_of_isExponent htail
  have hall : ∀ c ∈ front ++ tail, isSuffix c = false := fun c hc =>
    (List.mem_append.mp hc).elim (hfront c) fun h => (hplain c h).1
  rw [clean_eq_filter hall, List.filter_append,
    List.filter_eq_self.mpr fun c hc => bne_iff_ne.mpr (hplain c hc).2]

theorem clean_pointed {whole part tail : List Char} (hwhole : ∀ c ∈ whole, isDigitMark c = true)
    (hpart : ∀ c ∈ part, isDigitMark c = true) (htail : tail = [] ∨ IsExponent tail) :
    clean (whole ++ '.' :: (part ++ tail)) =
      whole.filter (· != '_') ++ '.' :: (part.filter (· != '_') ++ tail) := by
  have hfront : ∀ c ∈ whole ++ '.' :: part, isSuffix c = false := by
    intro c hc
    rcases List.mem_append.mp hc with hc | hc
    · exact isSuffix_of_isDigitMark (hwhole c hc)
    · rcases List.mem_cons.mp hc with rfl | hc
      · rfl
      · exact isSuffix_of_isDigitMark (hpart c hc)
  have h := clean_append_exponent hfront htail
  rw [List.filter_append, List.append_assoc, List.append_assoc] at h
  exact h

theorem isFractionMark_cases {c : Char} (h : isFractionMark c = true) :
    c = '.' ∨ c = 'e' ∨ c = 'E' := by
  simpa [isFractionMark, or_assoc] using h

theorem any_isFractionMark {tail : List Char} (h : IsExponent tail) :
    tail.any isFractionMark = true := by
  cases h with
  | plain hmark => rcases hmark with rfl | rfl <;> rfl
  | signed hmark => rcases hmark with rfl | rfl <;> rfl

/-- The digits of a decimal integer. -/
theorem digits_of_form (hform : NumberForm cs) (hbase : splitBase cs = none)
    (hintegral : cs.any isFractionMark = false) :
    clean cs ≠ [] ∧ ∀ c ∈ clean cs, isDigit c = true := by
  cases hform with
  | based hsplit =>
    rw [splitBase_cons hsplit] at hbase
    cases hbase
  | @decimal c marks suffix hc hmarks hsuffix =>
    have hall : ∀ d ∈ c :: marks, isDigitMark d = true :=
      List.forall_mem_cons.mpr ⟨Lexer.isDigitMark_of_isDigit hc, hmarks⟩
    have hclean : clean (c :: (marks ++ suffix)) = (c :: marks).filter (· != '_') := by
      rw [← List.cons_append, clean_append_suffix _ hsuffix,
        clean_eq_filter fun d hd => isSuffix_of_isDigitMark (hall d hd)]
    rw [hclean]
    exact ⟨filter_ne_nil ⟨c, List.mem_cons_self, hc⟩, isDigit_of_mem_filter hall⟩
  | pointed => exact absurd rfl (List.any_eq_false.mp hintegral '.' (by simp))
  | scientific _ _ htail =>
    rw [List.any_cons, List.any_append, any_isFractionMark htail, Bool.or_true,
      Bool.or_true] at hintegral
    cases hintegral

/-- A number with a point or an exponent is read. -/
theorem isSome_readDecimal_of_form (hform : NumberForm cs) (hbase : splitBase cs = none)
    (hfraction : cs.any isFractionMark = true) :
    (Number.readDecimal (clean cs)).isSome = true := by
  cases hform with
  | based hsplit =>
    rw [splitBase_cons hsplit] at hbase
    cases hbase
  | @decimal c marks suffix hc hmarks hsuffix =>
    obtain ⟨d, hd, hmark⟩ := List.any_eq_true.mp hfraction
    have hclass : isDigitMark d = true ∨ isSuffix d = true := by
      rcases List.mem_cons.mp hd with rfl | hd
      · exact .inl (Lexer.isDigitMark_of_isDigit hc)
      · exact (List.mem_append.mp hd).imp (hmarks d) (hsuffix d)
    rcases isFractionMark_cases hmark with rfl | rfl | rfl <;> rcases hclass with h | h <;> cases h
  | @pointed whole part tail hwhole hpart hdigit htail =>
    rw [clean_pointed hwhole hpart htail, Number.readDecimal_pointed, Option.isSome_map]
    · exact Number.isSome_readExponent htail
    · rw [← List.filter_append]
      exact filter_ne_nil hdigit
    · exact isDigit_of_mem_filter hwhole
    · exact isDigit_of_mem_filter hpart
    · exact htail
  | @scientific c marks tail hc hmarks htail =>
    have hall : ∀ d ∈ c :: marks, isDigitMark d = true :=
      List.forall_mem_cons.mpr ⟨Lexer.isDigitMark_of_isDigit hc, hmarks⟩
    have hclean : clean (c :: (marks ++ tail)) = (c :: marks).filter (· != '_') ++ tail :=
      clean_append_exponent (fun d hd => isSuffix_of_isDigitMark (hall d hd)) (.inr htail)
    rw [hclean, Number.readDecimal_whole, Option.isSome_map]
    · exact Number.isSome_readExponent (.inr htail)
    · exact filter_ne_nil ⟨c, List.mem_cons_self, hc⟩
    · exact isDigit_of_mem_filter hall
    · exact .inr htail

/-! ## What is decoded -/

/-- Behind a base its digits are decoded. -/
theorem decodeChars_based (h : splitBase cs = some (base, body)) :
    decodeChars cs = ofBased base (clean body) := by
  unfold decodeChars
  dsimp only
  rw [splitBase_clean h]

/-- A number without a base is decoded as a decimal one. -/
theorem decodeChars_unbased (hform : NumberForm cs) (h : splitBase cs = none) :
    decodeChars cs = ofDecimal (clean cs) := by
  have hmarks : ∀ c ∈ cs, isDecimalMark c = true := by
    refine (splitBase_of_form hform).resolve_left ?_
    rintro ⟨_, _, hsplit, -⟩
    rw [h] at hsplit
    cases hsplit
  have hclean : splitBase (clean cs) = none :=
    splitBase_eq_none fun c hc => hmarks c (mem_of_mem_clean hc)
  unfold decodeChars
  dsimp only
  rw [hclean]

end Literal
end TargetView
