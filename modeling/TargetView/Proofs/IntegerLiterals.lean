import TargetView.Proofs.Decoding
import TargetView.Proofs.Notes

/-! # Integer literals are exact

A number token without a base always has a value, and one with a base has one if
there is a digit, all its digits are of the base and their value fits in 64 bits.
An integer up to `2 ^ 53` is then that number, a greater one below `2 ^ 64` keeps
its bits, and what does not fit is a fault behind a base, and rounded otherwise
(`Token.DecodesExactly`).  Only the rounded integers are noted
(`Token.note?_eq_some_iff`).
-/
namespace TargetView

open Lexer (NumberForm)
open Number (isDigit digit? valueIn)
open Literal (splitBase clean isFractionMark)

namespace Literal

variable {cs ds body : List Char} {base n : Nat}

/-- A decimal integer: there is no base, no point and no exponent. -/
structure IsDecimal (cs : List Char) (n : Nat) : Prop where
  unbased : splitBase cs = none
  integral : cs.any isFractionMark = false
  value : valueIn 10 (clean cs) = n

/-- An integer behind a base: there are digits, and all of them are of the base. -/
structure IsBased (cs : List Char) (base : Nat) (body : List Char) (n : Nat) : Prop where
  split : splitBase cs = some (base, body)
  nonempty : clean body ≠ []
  digits : ∀ c ∈ clean body, (digit? base c).isSome = true
  value : valueIn base (clean body) = n

/-- An integer in any base. -/
def IsInteger (cs : List Char) (n : Nat) : Prop :=
  IsDecimal cs n ∨ ∃ base body, IsBased cs base body n

/-! ## Integers behind a base -/

theorem ofBased_eq_missing_iff : ofBased base ds = .error .missingDigits ↔ ds = [] := by
  have hempty := @Number.readUnsigned_eq_empty_iff base UInt64.size ds
  rw [← hempty, ofBased]
  cases Number.readUnsigned base UInt64.size ds with
  | ok n => simp
  | error fault => cases fault <;> simp

theorem ofBased_of_digits (hbase : base = 16 ∨ base = 2 ∨ base = 8) (hne : ds ≠ [])
    (hds : ∀ c ∈ ds, (digit? base c).isSome = true) : ofBased base ds =
      if valueIn base ds < 2 ^ 64 then .ok (ofNat (valueIn base ds)) else .error .overflow := by
  have hplus : digit? base '+' = none := by rcases hbase with rfl | rfl | rfl <;> decide
  have hsize : UInt64.size = 2 ^ 64 := rfl
  rw [ofBased, Number.readUnsigned_of_digits (by omega) hplus (by decide) hne hds, hsize]
  by_cases h : valueIn base ds < 2 ^ 64
  · rw [if_pos h, if_pos h]
  · rw [if_neg h, if_neg h]

theorem digits_of_ofBased {v : Literal} (hplus : '+' ∉ ds) (h : ofBased base ds = .ok v) :
    ds ≠ [] ∧ ∀ c ∈ ds, (digit? base c).isSome = true := by
  have hne : ds ≠ [] := by
    rintro rfl
    cases h
  refine ⟨hne, fun c hc => Option.isSome_iff_exists.mpr ?_⟩
  rw [ofBased, Number.readUnsigned_of_head? hne fun hhead =>
    hplus (List.mem_of_mem_head? hhead)] at h
  cases hread : Number.readDigits base UInt64.size 0 ds with
  | ok n => exact Number.digit_of_readDigits hread c hc
  | error fault =>
    rw [hread] at h
    cases fault <;> cases h

/-- An integer behind a base has its value, if it fits. -/
theorem IsBased.decodeChars (h : IsBased cs base body n) : decodeChars cs =
    if n < 2 ^ 64 then .ok (ofNat n) else .error .overflow := by
  obtain ⟨-, -, -, hbase⟩ := of_splitBase h.split
  rw [decodeChars_based h.split, ofBased_of_digits hbase h.nonempty h.digits, h.value]

/-! ## Decimal integers -/

theorem readDecimal_digits (hne : ds ≠ []) (hds : ∀ c ∈ ds, isDigit c = true) :
    Number.readDecimal ds = some (Number.rounded ds 0) := by
  rw [← List.append_nil ds, Number.readDecimal_whole hne hds (.inl rfl), List.append_nil]
  rfl

theorem ofDecimal_of_digits (hne : ds ≠ []) (hds : ∀ c ∈ ds, isDigit c = true) :
    ofDecimal ds = .ok (if valueIn 10 ds < 2 ^ 64 then ofNat (valueIn 10 ds)
      else .float (Number.rounded ds 0)) := by
  have hfraction : ds.any isFractionMark = false := by
    refine List.any_eq_false.mpr fun c hc hmark => ?_
    have hdigit := hds c hc
    rcases isFractionMark_cases hmark with rfl | rfl | rfl <;> cases hdigit
  have hsize : UInt64.size = 2 ^ 64 := rfl
  rw [ofDecimal, hfraction, if_neg Bool.false_ne_true, Number.readUnsigned_of_digits (by decide) rfl
    (by decide) hne fun c hc => Number.isSome_digit?_of_isDigit (hds c hc), hsize]
  by_cases h : valueIn 10 ds < 2 ^ 64
  · rw [if_pos h, if_pos h]
  · rw [if_neg h, if_neg h]
    dsimp only
    rw [ofRounded, readDecimal_digits hne hds]

/-- A decimal integer has its value, or is rounded. -/
theorem IsDecimal.decodeChars (hform : NumberForm cs) (h : IsDecimal cs n) : decodeChars cs =
    .ok (if n < 2 ^ 64 then ofNat n else .float (Number.rounded (clean cs) 0)) := by
  obtain ⟨hne, hdigits⟩ := digits_of_form hform h.unbased h.integral
  rw [decodeChars_unbased hform h.unbased, ofDecimal_of_digits hne hdigits, h.value]

/-- **A number without a base has a value.** -/
theorem exists_decodeChars (hform : NumberForm cs) (hbase : splitBase cs = none) :
    ∃ v, decodeChars cs = .ok v := by
  by_cases hfraction : cs.any isFractionMark = true
  · have hclean : (clean cs).any isFractionMark = true := by
      obtain ⟨c, hc, hmark⟩ := List.any_eq_true.mp hfraction
      refine List.any_eq_true.mpr ⟨c, mem_clean hc ?_ ?_, hmark⟩
      · rcases isFractionMark_cases hmark with rfl | rfl | rfl <;> rfl
      · rcases isFractionMark_cases hmark with rfl | rfl | rfl <;> decide
    obtain ⟨x, hx⟩ := Option.isSome_iff_exists.mp
      (isSome_readDecimal_of_form hform hbase hfraction)
    refine ⟨.float x, ?_⟩
    rw [decodeChars_unbased hform hbase, ofDecimal, if_pos hclean, ofRounded, hx]
  · rw [Bool.not_eq_true] at hfraction
    exact ⟨_, IsDecimal.decodeChars hform ⟨hbase, hfraction, rfl⟩⟩

/-! ## Three representations -/

theorem ofNat_of_le (h : n ≤ 2 ^ 53) : ofNat n = .float (Binary64.ofNat n) := if_pos h

theorem ofNat_of_gt (h : 2 ^ 53 < n) : ofNat n = .int (Int64.ofNat n) := if_neg (Nat.not_le.mpr h)

theorem toNat_toUInt64_ofNat (h : n < 2 ^ 64) : (Int64.ofNat n).toUInt64.toNat = n :=
  Nat.mod_eq_of_lt h

/-- An integer below `2 ^ 64` is no rounded one. -/
theorem isInexact_ofNat (n : Nat) (text : String) : isInexact (ofNat n) text = false := by
  rcases Nat.lt_or_ge (2 ^ 53) n with hgt | hle
  · rw [ofNat_of_gt hgt]
    rfl
  · rw [ofNat_of_le hle]
    unfold isInexact
    dsimp only
    rw [decide_eq_false (Binary64.not_two_pow_64_le_ofNat hle), Bool.false_and]

/-- An integer in any base has its value below `2 ^ 64`. -/
theorem IsInteger.decodeChars (hform : NumberForm cs) (h : IsInteger cs n) (hn : n < 2 ^ 64) :
    decodeChars cs = .ok (ofNat n) := by
  rcases h with h | ⟨base, body, h⟩
  · rw [h.decodeChars hform, if_pos hn]
  · rw [h.decodeChars, if_pos hn]

/-! ## Separators and suffixes -/

/-- A separator before a character of the number is ignored. -/
theorem decodeChars_separator {c : Char} (hc : isSuffix c = false) (front behind : List Char) :
    decodeChars (front ++ '_' :: c :: behind) = decodeChars (front ++ c :: behind) := by
  have hcell : clean ('_' :: c :: behind) = clean (c :: behind) :=
    clean_append ['_'] ⟨c, List.mem_cons_self, hc⟩
  have hclean : clean (front ++ '_' :: c :: behind) = clean (front ++ c :: behind) := by
    rw [clean_append front ⟨c, List.mem_cons_of_mem _ List.mem_cons_self, hc⟩,
      clean_append front ⟨c, List.mem_cons_self, hc⟩, hcell]
  unfold decodeChars
  rw [hclean]

theorem decodeChars_suffix (cs : List Char) {suffix : List Char}
    (h : ∀ c ∈ suffix, isSuffix c = true) : decodeChars (cs ++ suffix) = decodeChars cs := by
  unfold decodeChars
  rw [clean_append_suffix cs h]

end Literal

/-! ## Tokens -/

open Literal (decode decodeChars IsDecimal IsBased IsInteger)

variable {t : Token}

/-- What is decoded from a number token. -/
structure Token.DecodesExactly (t : Token) : Prop where
  /-- Without a base there is a value. -/
  unbased : splitBase t.text.toList = none → ∃ v, decode t.text = .ok v
  /-- Digits are missing where nothing but separators and a suffix follows a base. -/
  missing : ∀ base body, splitBase t.text.toList = some (base, body) →
    (decode t.text = .error .missingDigits ↔ clean body = [])
  /-- Digits of a base have a value if it fits in 64 bits. -/
  based : ∀ base body, splitBase t.text.toList = some (base, body) →
    ((∃ v, decode t.text = .ok v) ↔ clean body ≠ [] ∧
      (∀ c ∈ clean body, (digit? base c).isSome = true) ∧ valueIn base (clean body) < 2 ^ 64)
  /-- A small integer is the number with its value. -/
  number : ∀ n, IsInteger t.text.toList n → n ≤ 2 ^ 53 →
    decode t.text = .ok (.float (Binary64.ofNat n)) ∧
      Binary64.integer? (Binary64.ofNat n) = some (n : Int)
  /-- A greater one keeps its 64 bits. -/
  bits : ∀ n, IsInteger t.text.toList n → 2 ^ 53 < n → n < 2 ^ 64 →
    ∃ v : Int64, decode t.text = .ok (.int v) ∧ v.toUInt64.toNat = n
  /-- Behind a base there are no more than 64 bits. -/
  overflow : ∀ base body n, IsBased t.text.toList base body n → 2 ^ 64 ≤ n →
    decode t.text = .error .overflow
  /-- A decimal integer with more of them is read as a rounded number. -/
  rounded : ∀ n, IsDecimal t.text.toList n → 2 ^ 64 ≤ n →
    ∃ x, Number.readDecimal (clean t.text.toList) = some x ∧ decode t.text = .ok (.float x)

theorem Lexer.form_of_mem_tokens {text : List Char} {base : Nat}
    (ht : t ∈ (lexAt text base).tokens) (hkind : t.kind = .number) :
    NumberForm t.text.toList := by
  rcases List.mem_append.mp ht with ht | ht
  · obtain ⟨l, hl, rfl⟩ := List.mem_map.mp ht
    rw [Lexeme.token, String.toList_ofList]
    exact form_of_mem_lexemes hl hkind
  · obtain rfl := List.mem_singleton.mp ht
    cases hkind

/-- Behind a base of a number there are no signs. -/
theorem Literal.plus_not_mem {cs body : List Char} {base : Nat} (hform : NumberForm cs)
    (h : splitBase cs = some (base, body)) : '+' ∉ clean body := by
  intro hplus
  rcases splitBase_of_form hform with ⟨_, _, hsplit, hbody⟩ | hmarks
  · obtain ⟨rfl, rfl⟩ := Prod.mk.inj (Option.some.inj (h.symm.trans hsplit))
    rcases hbody '+' (mem_of_mem_clean hplus) with hmark | hmark <;> cases hmark
  · rw [splitBase_eq_none hmarks] at h
    cases h

theorem Token.decodesExactly (hform : NumberForm t.text.toList) : t.DecodesExactly where
  unbased h := Literal.exists_decodeChars hform h
  missing base body h := by
    rw [decode, Literal.decodeChars_based h, Literal.ofBased_eq_missing_iff]
  based base body h := by
    rw [decode]
    constructor
    · rintro ⟨v, hv⟩
      rw [Literal.decodeChars_based h] at hv
      obtain ⟨hne, hdigits⟩ := Literal.digits_of_ofBased (Literal.plus_not_mem hform h) hv
      refine ⟨hne, hdigits, Nat.lt_of_not_le fun hle => ?_⟩
      have hvalue := IsBased.decodeChars ⟨h, hne, hdigits, rfl⟩
      rw [if_neg (Nat.not_lt.mpr hle), Literal.decodeChars_based h, hv] at hvalue
      cases hvalue
    · rintro ⟨hne, hdigits, hlt⟩
      have hvalue := IsBased.decodeChars ⟨h, hne, hdigits, rfl⟩
      rw [if_pos hlt] at hvalue
      exact ⟨_, hvalue⟩
  number n h hn := by
    rw [decode, h.decodeChars hform (Nat.lt_of_le_of_lt hn (by decide)), Literal.ofNat_of_le hn]
    exact ⟨rfl, Binary64.integer?_ofNat hn⟩
  bits n h hgt hlt := by
    rw [decode, h.decodeChars hform hlt, Literal.ofNat_of_gt hgt]
    exact ⟨_, rfl, Literal.toNat_toUInt64_ofNat hlt⟩
  overflow base body n h hn := by
    rw [decode, h.decodeChars, if_neg (Nat.not_lt.mpr hn)]
  rounded n h hn := by
    obtain ⟨hne, hdigits⟩ := Literal.digits_of_form hform h.unbased h.integral
    rw [decode, h.decodeChars hform, if_neg (Nat.not_lt.mpr hn)]
    exact ⟨_, Literal.readDecimal_digits hne hdigits, rfl⟩

/-! ## Notes -/

namespace Literal

/-- A decimal integer that does not fit in 64 bits is rounded to a number that does
not fit either. -/
theorem isInexact_rounded (hform : NumberForm t.text.toList) {n : Nat}
    (h : IsDecimal t.text.toList n) (hn : 2 ^ 64 ≤ n) :
    isInexact (.float (Number.rounded (clean t.text.toList) 0)) t.text = true := by
  obtain ⟨-, hdigits⟩ := digits_of_form hform h.unbased h.integral
  have hlarge := Number.two_pow_64_le_rounded hdigits (h.value ▸ hn)
  unfold isInexact
  dsimp only
  rw [decide_eq_true hlarge, h.integral]
  rfl

theorem integral_of_isInexact {v : Literal} (h : v.isInexact t.text = true) :
    t.text.toList.any isFractionMark = false := by
  cases v with
  | float x => exact (Bool.not_eq_true' _).mp (Bool.and_eq_true_iff.mp h).2
  | int i => cases h

/-- What is rounded does not fit in 64 bits. -/
theorem le_of_isInexact (hform : NumberForm t.text.toList) {n : Nat} {v : Literal}
    (h : IsInteger t.text.toList n) (hv : decode t.text = .ok v)
    (hinexact : v.isInexact t.text = true) : 2 ^ 64 ≤ n := by
  refine Nat.le_of_not_lt fun hlt => ?_
  rw [decode, h.decodeChars hform hlt] at hv
  obtain rfl := Except.ok.inj hv
  rw [isInexact_ofNat] at hinexact
  cases hinexact

end Literal

/-- **The note about a token is due exactly if it is a decimal integer that does
not fit in 64 bits.** -/
theorem Token.note?_eq_some_iff {d : Diagnostic} (hform : NumberForm t.text.toList)
    (hkind : t.kind = .number) : t.note? = some d ↔
      (∃ n, IsDecimal t.text.toList n ∧ 2 ^ 64 ≤ n) ∧ d = .inexactInteger t.span t.text := by
  rw [Token.note?, if_pos hkind]
  constructor
  · intro h
    cases hv : decode t.text with
    | error fault =>
      rw [hv] at h
      cases h
    | ok v =>
      rw [hv] at h
      obtain ⟨hinexact, hd⟩ := Option.ite_none_right_eq_some.mp h
      refine ⟨?_, (Option.some.inj hd).symm⟩
      cases hsplit : splitBase t.text.toList with
      | none =>
        have hinteger : IsDecimal t.text.toList _ :=
          ⟨hsplit, Literal.integral_of_isInexact hinexact, rfl⟩
        exact ⟨_, hinteger, Literal.le_of_isInexact hform (.inl hinteger) hv hinexact⟩
      | some split =>
        obtain ⟨base, body⟩ := split
        obtain ⟨hne, hdigits, hlt⟩ :=
          ((Token.decodesExactly hform).based base body hsplit).mp ⟨v, hv⟩
        have hle := Literal.le_of_isInexact hform (.inr ⟨base, body, hsplit, hne, hdigits, rfl⟩) hv
          hinexact
        exact absurd hlt (Nat.not_lt.mpr hle)
  · rintro ⟨⟨n, h, hn⟩, rfl⟩
    rw [decode, h.decodeChars hform, if_neg (Nat.not_lt.mpr hn)]
    exact if_pos (Literal.isInexact_rounded hform h hn)

open Template (locatedFragments parseAt)

/-- What is noted about the integers of a text. -/
structure NotesExactly (text : String) : Prop where
  /-- A note is about a decimal integer that does not fit in 64 bits. -/
  sound : ∀ d ∈ (parse text).diagnostics, d.code = .e0004 →
    ∃ f ∈ locatedFragments text, ∃ t ∈ (Lexer.lexAt f.1 f.2).tokens, t.kind = .number ∧
      (∃ n, IsDecimal t.text.toList n ∧ 2 ^ 64 ≤ n) ∧ d = .inexactInteger t.span t.text
  /-- Where the syntax is right there is one about each of them. -/
  complete : ∀ f ∈ locatedFragments text, (∀ d ∈ (parseAt f.1 f.2).2, d.isSyntaxError = false) →
    ∀ t ∈ (Lexer.lexAt f.1 f.2).tokens, t.kind = .number →
      ∀ n, IsDecimal t.text.toList n → 2 ^ 64 ≤ n →
        .inexactInteger t.span t.text ∈ (parse text).diagnostics

theorem notesExactly (text : String) : NotesExactly text where
  sound d hd hcode := by
    have hnote : d ∈ notes (parse text).diagnostics :=
      List.mem_filter.mpr ⟨hd, beq_iff_eq.mpr hcode⟩
    rw [notes_parse] at hnote
    obtain ⟨f, hf, hnote⟩ := List.mem_flatMap.mp hnote
    obtain ⟨t, ht, hdue⟩ := List.mem_filterMap.mp ((Template.notes_parseAt f.1 f.2).1.subset hnote)
    have ht : t ∈ (Lexer.lexAt f.1 f.2).tokens := List.mem_append_left _ ht
    have hkind : t.kind = .number := by
      by_contra h
      rw [Token.note?_eq_none h] at hdue
      cases hdue
    exact ⟨f, hf, t, ht, hkind,
      (Token.note?_eq_some_iff (Lexer.form_of_mem_tokens ht hkind) hkind).mp hdue⟩
  complete f hf hclean t ht hkind n hn hlarge := by
    have hdue : Diagnostic.inexactInteger t.span t.text ∈ Template.due f.1 f.2 := by
      refine List.mem_filterMap.mpr ⟨t, ?_, (Token.note?_eq_some_iff
        (Lexer.form_of_mem_tokens ht hkind) hkind).mpr ⟨⟨n, hn, hlarge⟩, rfl⟩⟩
      rcases List.mem_append.mp ht with ht | ht
      · exact ht
      · obtain rfl := List.mem_singleton.mp ht
        cases hkind
    rw [← (Template.notes_parseAt f.1 f.2).2 hclean] at hdue
    have hnote : Diagnostic.inexactInteger t.span t.text ∈ notes (parse text).diagnostics := by
      rw [notes_parse]
      exact List.mem_flatMap.mpr ⟨f, hf, hdue⟩
    exact (List.mem_filter.mp hnote).1

/-- **Integer literals have their exact value.**  It is what every number token
decodes to, and the notes tell of the integers that are rounded, and of no
others.  Separators among the digits and suffixes do not change what is decoded. -/
theorem integer_literals_exact :
    (∀ (text : List Char) (base : Nat), ∀ t ∈ (Lexer.lexAt text base).tokens,
      t.kind = .number → t.DecodesExactly) ∧
    (∀ text, NotesExactly text) ∧
    (∀ (c : Char) (front behind : List Char), Literal.isSuffix c = false →
      decodeChars (front ++ '_' :: c :: behind) = decodeChars (front ++ c :: behind)) ∧
    ∀ cs suffix : List Char, (∀ c ∈ suffix, Literal.isSuffix c = true) →
      decodeChars (cs ++ suffix) = decodeChars cs :=
  ⟨fun _ _ _ ht hkind => Token.decodesExactly (Lexer.form_of_mem_tokens ht hkind), notesExactly,
    fun _ front behind hc => Literal.decodeChars_separator hc front behind,
    fun cs _ h => Literal.decodeChars_suffix cs h⟩

/-- The greatest word keeps its bits, and the next integer is rounded with a
note. -/
theorem integer_literals_exact_at_64_bits :
    let text := "0xFFFF_FFFF_FFFF_FFFFu + 18_446744073709551616"
    let word : Token := ⟨.number, "0xFFFF_FFFF_FFFF_FFFFu", ⟨0, 22⟩⟩
    let next : Token := ⟨.number, "18_446744073709551616", ⟨25, 46⟩⟩
    word ∈ (Lexer.lexAt text.toList 0).tokens ∧ next ∈ (Lexer.lexAt text.toList 0).tokens ∧
      (∃ v : Int64, decode word.text = .ok (.int v) ∧ v.toUInt64.toNat = 2 ^ 64 - 1) ∧
      (∃ x, Number.readDecimal "18446744073709551616".toList = some x ∧
        decode next.text = .ok (.float x)) ∧
      .inexactInteger next.span next.text ∈ (parse text).diagnostics ∧
      decode "0xFFFFFFFFFFFFFFFF" = decode "0xFFFFFFFF_FFFFFFFFuLL" := by
  intro text word next
  obtain ⟨hdecodes, hnotes, hseparator, hsuffix⟩ := integer_literals_exact
  have hword : word ∈ (Lexer.lexAt text.toList 0).tokens := by decide +kernel
  have hnext : next ∈ (Lexer.lexAt text.toList 0).tokens := by decide +kernel
  have hbased : IsBased word.text.toList 16 "FFFF_FFFF_FFFF_FFFFu".toList (2 ^ 64 - 1) :=
    ⟨by decide, by decide, List.all_eq_true.mp (by decide), by decide⟩
  have hdecimal : IsDecimal next.text.toList (2 ^ 64) := ⟨by decide, by decide, by decide⟩
  have hfragment : (text.toList, 0) ∈ locatedFragments text := by decide +kernel
  have hclean : ∀ d ∈ (parseAt text.toList 0).2, d.isSyntaxError = false := by decide +kernel
  refine ⟨hword, hnext, ?_, ?_, ?_, ?_⟩
  · exact (hdecodes _ _ _ hword rfl).bits _ (.inr ⟨_, _, hbased⟩) (by decide) (by decide)
  · have hdigits : clean next.text.toList = "18446744073709551616".toList := by decide
    rw [← hdigits]
    exact (hdecodes _ _ _ hnext rfl).rounded _ hdecimal (Nat.le_refl _)
  · exact (hnotes text).complete _ hfragment hclean _ hnext rfl _ hdecimal (Nat.le_refl _)
  · have hfront := hseparator 'F' "0xFFFFFFFF".toList "FFFFFFF".toList rfl
    have hends := hsuffix "0xFFFFFFFF_FFFFFFFF".toList "uLL".toList
      (List.all_eq_true.mp (by decide))
    exact hfront.symm.trans hends.symm

end TargetView
