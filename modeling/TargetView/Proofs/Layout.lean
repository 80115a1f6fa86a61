import TargetView.Proofs.Spacing
import TargetView.Text.Quoting

/-! # How a text is laid out

A text is a sequence of gaps and lexemes (`Lexer.Layout`).  A lexeme that is no
string is bare (`Lexeme.IsBare`): it has neither gaps nor quotes in it, and a
bracket or a semicolon only if it is nothing else.  A string starts with a quote
and ends with the next such quote that no backslash stands before, or with the
text (`Lexeme.IsQuoted`).
-/
namespace TargetView.Lexer

open TargetView.Number (isDigit)

/-! ## Classes of characters -/

/-- The leading characters are all of a class. -/
def Within (p : Char → Prop) (n : Nat) (cs : List Char) : Prop := ∀ c ∈ cs.take n, p c

section Within

variable {p q : Char → Prop} {n m : Nat} {cs : List Char}

theorem within_zero : Within p 0 cs := nofun

theorem Within.imp (h : Within p n cs) (hpq : ∀ c, p c → q c) : Within q n cs :=
  fun c hc => hpq c (h c hc)

theorem Within.succ {c : Char} (hc : p c) (h : Within p n cs) : Within p (n + 1) (c :: cs) :=
  List.forall_mem_cons.mpr ⟨hc, h⟩

theorem Within.add (h : Within p n cs) (h' : Within p m (cs.drop n)) : Within p (n + m) cs := by
  intro c hc
  rw [List.take_add] at hc
  exact (List.mem_append.mp hc).elim (h c) (h' c)

theorem Within.max (h : Within p n cs) (h' : Within p m cs) : Within p (max n m) cs := by
  rcases Nat.le_total n m with hle | hle
  · rw [Nat.max_eq_right hle]
    exact h'
  · rw [Nat.max_eq_left hle]
    exact h

theorem take_run (f : Char → Bool) (cs : List Char) : cs.take (run f cs) = cs.takeWhile f := by
  have h : (cs.takeWhile f ++ cs.dropWhile f).take (run f cs) = cs.takeWhile f := List.take_left
  rw [List.takeWhile_append_dropWhile] at h
  exact h

theorem drop_run (f : Char → Bool) (cs : List Char) : cs.drop (run f cs) = cs.dropWhile f := by
  have h : (cs.takeWhile f ++ cs.dropWhile f).drop (run f cs) = cs.dropWhile f := List.drop_left
  rw [List.takeWhile_append_dropWhile] at h
  exact h

theorem within_run (f : Char → Bool) (cs : List Char) : Within (f · = true) (run f cs) cs := by
  intro c hc
  rw [take_run] at hc
  exact List.all_eq_true.mp List.all_takeWhile c hc

theorem Within.run_behind {f : Char → Bool} (hf : ∀ c, f c = true → p c)
    (h : Within p m (cs.dropWhile f)) : Within p (run f cs + m) cs :=
  ((within_run f cs).imp hf).add (drop_run f cs ▸ h)

end Within

/-! ## Numbers -/

/-- The characters that occur in numbers. -/
def isNumberPart (c : Char) : Bool := isNamePart c || c == '.' || c == '+' || c == '-'

theorem isNumberPart_of_isNamePart {c : Char} (h : isNamePart c = true) :
    isNumberPart c = true := by
  simp [isNumberPart, h]

theorem isNumberPart_of_isDigit {c : Char} (h : isDigit c = true) : isNumberPart c = true := by
  simp [isNumberPart, isNamePart, h]

theorem isNumberPart_of_isDigitMark {c : Char} (h : isDigitMark c = true) :
    isNumberPart c = true := by
  rcases Bool.or_eq_true_iff.mp h with h | h
  · exact isNumberPart_of_isDigit h
  · obtain rfl := eq_of_beq h
    rfl

theorem isNumberPart_of_isSuffix {c : Char} (h : isSuffix c = true) : isNumberPart c = true := by
  simp only [isSuffix, Bool.or_eq_true, beq_iff_eq] at h
  rcases h with ((rfl | rfl) | rfl) | rfl <;> rfl

theorem isNumberPart_of_isHexMark {c : Char} (h : isHexMark c = true) :
    isNumberPart c = true := by
  simp only [isHexMark, Bool.or_eq_true, Bool.and_eq_true, decide_eq_true_eq] at h
  rcases h with (h | h) | h
  · exact isNumberPart_of_isDigitMark h
  · have hz : c ≤ 'z' := Char.le_trans h.2 (by decide)
    simp [isNumberPart, isNamePart, isNameStart, h.1, hz]
  · have hz : c ≤ 'Z' := Char.le_trans h.2 (by decide)
    simp [isNumberPart, isNamePart, isNameStart, h.1, hz]

theorem within_suffixed {f : Char → Bool} (hf : ∀ c, f c = true → isNumberPart c = true)
    (cs : List Char) : Within (isNumberPart · = true) (suffixed f cs) cs :=
  Within.run_behind hf ((within_run isSuffix _).imp fun _ => isNumberPart_of_isSuffix)

theorem within_digits (cs : List Char) : Within (isNumberPart · = true) (run isDigit cs) cs :=
  (within_run isDigit cs).imp fun _ => isNumberPart_of_isDigit

theorem within_exponent (cs : List Char) : Within (isNumberPart · = true) (exponent cs) cs := by
  unfold exponent
  split
  · next c rest =>
    split
    · next he =>
      have hc : isNumberPart c = true := by
        rcases Bool.or_eq_true_iff.mp he with h | h <;> obtain rfl := eq_of_beq h
        · rfl
        · rfl
      split
      · next digits =>
        split
        · exact within_zero
        · exact .succ hc (.succ rfl (within_digits digits))
      · next digits =>
        split
        · exact within_zero
        · exact .succ hc (.succ rfl (within_digits digits))
      · split
        · exact within_zero
        · exact .succ hc (within_digits rest)
    · exact within_zero
  · exact within_zero

theorem within_based (cs : List Char) : Within (isNumberPart · = true) (based cs) cs := by
  unfold based
  split
  · next c rest =>
    have hzero : isNumberPart '0' = true := rfl
    split
    · next hx =>
      have hc : isNumberPart c = true := by
        rcases Bool.or_eq_true_iff.mp hx with h | h <;> obtain rfl := eq_of_beq h
        · rfl
        · rfl
      rw [Nat.add_comm]
      exact .succ hzero (.succ hc (within_suffixed (fun _ => isNumberPart_of_isHexMark) rest))
    · split
      · next hb =>
        have hc : isNumberPart c = true := by
          simp only [Bool.or_eq_true, beq_iff_eq] at hb
          rcases hb with ((rfl | rfl) | rfl) | rfl <;> rfl
        rw [Nat.add_comm]
        exact .succ hzero
          (.succ hc (within_suffixed (fun _ => isNumberPart_of_isDigitMark) rest))
      · exact within_zero
  · exact within_zero

theorem within_fractional (cs : List Char) : Within (isNumberPart · = true) (fractional cs) cs := by
  unfold fractional
  dsimp only
  split
  · next rest hd =>
    split
    · exact within_zero
    · rw [Nat.add_assoc, Nat.add_assoc]
      refine .run_behind (fun _ => isNumberPart_of_isDigitMark) ?_
      rw [hd, Nat.add_comm]
      exact .succ rfl
        (.run_behind (fun _ => isNumberPart_of_isDigitMark) (within_exponent _))
  · exact within_zero

theorem within_scientific (cs : List Char) : Within (isNumberPart · = true) (scientific cs) cs := by
  unfold scientific
  dsimp only
  split
  · exact within_zero
  · exact .run_behind (fun _ => isNumberPart_of_isDigitMark) (within_exponent _)

theorem within_number (cs : List Char) : Within (isNumberPart · = true) (number cs) cs := by
  unfold number
  split
  · exact within_zero
  · split
    · exact ((within_based _).max (within_suffixed (fun _ => isNumberPart_of_isDigitMark) _)).max
        ((within_fractional _).max (within_scientific _))
    · split
      · exact within_fractional _
      · exact within_zero

/-! ## Lexemes without quotes -/

/-- The characters that start a string. -/
def isQuote (c : Char) : Bool := c == '"' || c == '\''

/-- The brackets and the semicolon, which form no longer lexeme. -/
def isAlone (c : Char) : Bool := c == '[' || c == ']' || c == ';'

/-- The lexeme is a single punctuation character. -/
def Lexeme.IsMark (l : Lexeme) (c : Char) : Prop := l.kind = .punctuation ∧ l.chars = [c]

instance (l : Lexeme) (c : Char) : Decidable (l.IsMark c) :=
  inferInstanceAs (Decidable (_ ∧ _))

/-- The lexeme is no string: it has neither gaps nor quotes in it, and brackets
and semicolons stand alone. -/
structure Lexeme.IsBare (l : Lexeme) : Prop where
  kind : l.kind ≠ .string
  nonempty : l.chars ≠ []
  free : ∀ c ∈ l.chars, isGap c = false ∧ isQuote c = false
  alone : ∀ c ∈ l.chars, isAlone c = true → l.IsMark c

/-- A gap is no quote, and no lexeme by itself. -/
theorem not_special_of_isGap {c : Char} (h : isGap c = true) :
    isQuote c = false ∧ isAlone c = false := by
  simp only [isGap, Bool.or_eq_true, beq_iff_eq] at h
  rcases h with (((rfl | rfl) | rfl) | rfl) | rfl <;> exact ⟨rfl, rfl⟩

/-- A quote is no lexeme by itself. -/
theorem not_alone_of_isQuote {c : Char} (h : isQuote c = true) : isAlone c = false := by
  simp only [isQuote, Bool.or_eq_true, beq_iff_eq] at h
  rcases h with rfl | rfl <;> rfl

/-- What occurs in numbers and names is neither a gap nor a quote, and does not
stand alone. -/
theorem not_special_of_isNumberPart {c : Char} (h : isNumberPart c = true) :
    isGap c = false ∧ isQuote c = false ∧ isAlone c = false := by
  refine ⟨?_, ?_, ?_⟩
  all_goals
    refine Bool.eq_false_iff.mpr fun hc => ?_
    simp only [isGap, isQuote, isAlone, Bool.or_eq_true, beq_iff_eq] at hc
  · rcases hc with (((rfl | rfl) | rfl) | rfl) | rfl <;> cases h
  · rcases hc with rfl | rfl <;> cases h
  · rcases hc with (rfl | rfl) | rfl <;> cases h

theorem isBare_of_isNumberPart {l : Lexeme} (hkind : l.kind ≠ .string) (hne : l.chars ≠ [])
    (h : ∀ c ∈ l.chars, isNumberPart c = true) : l.IsBare where
  kind := hkind
  nonempty := hne
  free c hc := (not_special_of_isNumberPart (h c hc)).imp_right And.left
  alone c hc halone := by
    rw [(not_special_of_isNumberPart (h c hc)).2.2] at halone
    cases halone

theorem punctuation_bare : ∀ p ∈ punctuation.map String.toList,
    p ≠ [] ∧ (∀ c ∈ p, isGap c = false ∧ isQuote c = false) ∧
      ∀ c ∈ p, isAlone c = true → p = [c] := by
  have hall : (punctuation.map String.toList).all (fun p => !p.isEmpty &&
      p.all fun c => !isGap c && !isQuote c && (!isAlone c || p == [c])) = true := by
    decide
  intro p hp
  have h := List.all_eq_true.mp hall p hp
  simp only [Bool.and_eq_true, Bool.not_eq_true', List.all_eq_true, Bool.or_eq_true,
    List.isEmpty_eq_false_iff, beq_iff_eq] at h
  refine ⟨h.1, fun c hc => (h.2 c hc).1, fun c hc halone => (h.2 c hc).2.resolve_left ?_⟩
  rw [halone]
  exact Bool.noConfusion

/-- The longest punctuation at the head of some characters. -/
theorem take_punctuationLength {cs : List Char} (h : punctuationLength cs ≠ 0) :
    cs.take (punctuationLength cs) ∈ punctuation.map String.toList := by
  unfold punctuationLength at h ⊢
  cases hp : (punctuation.map String.toList).find? fun p => p.isPrefixOf cs with
  | none =>
    rw [hp] at h
    exact absurd rfl h
  | some p =>
    have hprefix : p <+: cs := List.isPrefixOf_iff_prefix.mp
      (List.find?_some (p := fun p : List Char => p.isPrefixOf cs) hp)
    have htake : cs.take p.length = p := (List.prefix_iff_eq_take.mp hprefix).symm
    rw [Option.elim_some, htake]
    exact List.mem_of_find?_eq_some hp

theorem punctuationLength_ne_zero {c : Char} (h : isAlone c = true) (rest : List Char) :
    punctuationLength (c :: rest) ≠ 0 := by
  have hmem : [c] ∈ punctuation.map String.toList := by
    simp only [isAlone, Bool.or_eq_true, beq_iff_eq] at h
    rcases h with (rfl | rfl) | rfl <;> decide
  unfold punctuationLength
  cases hp : (punctuation.map String.toList).find? fun p => p.isPrefixOf (c :: rest) with
  | none =>
    have hnot := List.find?_eq_none.mp hp [c] hmem
    exact absurd (List.isPrefixOf_iff_prefix.mpr ⟨rest, rfl⟩) hnot
  | some p =>
    rw [Option.elim_some]
    exact fun h => (punctuation_bare p (List.mem_of_find?_eq_some hp)).1
      (List.eq_nil_of_length_eq_zero h)

/-- A lexeme that does not start with a quote is bare. -/
theorem isBare_first {c : Char} (rest : List Char) (hgap : isGap c = false)
    (hquote : isQuote c = false) (offset : Nat) :
    (⟨(first c rest).1, c :: rest.take (first c rest).2.1, offset,
      (first c rest).2.2⟩ : Lexeme).IsBare := by
  have hquote' : ¬(c == '"' || c == '\'') = true := Bool.eq_false_iff.mp hquote
  unfold first
  dsimp only
  by_cases hnumber : number (c :: rest) ≠ 0
  · rw [if_pos hnumber]
    refine isBare_of_isNumberPart nofun (List.cons_ne_nil _ _) ?_
    have hwithin := within_number (c :: rest)
    obtain ⟨n, hn⟩ := Nat.exists_eq_succ_of_ne_zero hnumber
    rw [hn] at hwithin ⊢
    exact hwithin
  rw [if_neg hnumber]
  by_cases hname : isNameStart c = true
  · rw [if_pos hname]
    refine isBare_of_isNumberPart nofun (List.cons_ne_nil _ _) ?_
    have hc : isNamePart c = true := by rw [isNamePart, hname, Bool.true_or]
    exact List.forall_mem_cons.mpr ⟨isNumberPart_of_isNamePart hc,
      (within_run isNamePart rest).imp fun _ => isNumberPart_of_isNamePart⟩
  rw [if_neg hname, if_neg hquote']
  by_cases hmark : punctuationLength (c :: rest) ≠ 0
  · rw [if_pos hmark]
    have hmem := take_punctuationLength hmark
    obtain ⟨n, hn⟩ := Nat.exists_eq_succ_of_ne_zero hmark
    rw [hn] at hmem ⊢
    obtain ⟨hne, hfree, halone⟩ := punctuation_bare _ hmem
    exact ⟨nofun, hne, hfree, fun d hd h => ⟨rfl, halone d hd h⟩⟩
  · rw [if_neg hmark]
    refine ⟨nofun, List.cons_ne_nil _ _, ?_, ?_⟩
    · exact List.forall_mem_singleton.mpr ⟨hgap, hquote⟩
    · exact List.forall_mem_singleton.mpr fun h => absurd (punctuationLength_ne_zero h rest) hmark

/-! ## Strings -/

/-- The lexeme is a string with a quote and what stands behind it, up to and
including the closing quote if there is one. -/
structure Lexeme.IsQuoted (l : Lexeme) (quote : Char) (body : List Char) : Prop where
  kind : l.kind = .string
  chars : l.chars = quote :: body
  opens : isQuote quote = true
  close : closeQuote quote body = (body.length, l.closed)

theorem ne_backslash_of_isQuote {c : Char} (h : isQuote c = true) : c ≠ '\\' := by
  rintro rfl
  cases h

/-- Where a string ends does not depend on what stands behind it. -/
theorem closeQuote_take (quote : Char) (cs : List Char) :
    closeQuote quote (cs.take (closeQuote quote cs).1) = closeQuote quote cs := by
  fun_induction closeQuote quote cs with
  | case1 => rfl
  | case2 e rest n closed h ih =>
    rw [h] at ih
    rw [List.take_succ_cons, List.take_succ_cons, closeQuote, ih]
  | case3 c rest hne hc =>
    rw [List.take_succ_cons, List.take_zero, closeQuote, if_pos hc]
    exact fun _ _ _ h => by cases h
  | case4 c rest hne hc n closed h ih =>
    rw [h] at ih
    rw [List.take_succ_cons, closeQuote, if_neg hc, ih]
    intro e rest' hb hr
    refine hne e (rest' ++ rest.drop n) hb ?_
    rw [← List.cons_append, ← hr, List.take_append_drop]

theorem first_of_isQuote {c : Char} (h : isQuote c = true) (rest : List Char) :
    first c rest = (.string, closeQuote c rest) := by
  simp only [isQuote, Bool.or_eq_true, beq_iff_eq] at h
  rcases h with rfl | rfl <;> rfl

theorem isQuoted_first {c : Char} (hquote : isQuote c = true) (rest : List Char)
    (offset : Nat) :
    (⟨(first c rest).1, c :: rest.take (first c rest).2.1, offset,
      (first c rest).2.2⟩ : Lexeme).IsQuoted c (rest.take (first c rest).2.1) := by
  rw [first_of_isQuote hquote]
  refine ⟨rfl, rfl, hquote, ?_⟩
  rw [closeQuote_take, List.length_take, Nat.min_eq_left (closeQuote_le c rest)]

theorem closeQuote_of_open {quote : Char} {cs : List Char} (h : (closeQuote quote cs).2 = false) :
    (closeQuote quote cs).1 = cs.length := by
  fun_induction closeQuote quote cs with
  | case1 => rfl
  | case2 e rest n closed hc ih =>
    rw [hc] at ih
    exact congrArg (· + 2) (ih h)
  | case3 c rest => cases h
  | case4 c rest _ _ n closed hc ih =>
    rw [hc] at ih
    exact congrArg (· + 1) (ih h)

theorem Lexeme.IsQuoted.not_isMark {l : Lexeme} {quote : Char} {body : List Char}
    (hl : l.IsQuoted quote body) (c : Char) : ¬l.IsMark c := by
  rintro ⟨hmark, -⟩
  rw [hl.kind] at hmark
  cases hmark

/-! ## Texts -/

theorem width_cons (c : Char) (cs : List Char) : width (c :: cs) = c.utf8Size + width cs := rfl

theorem width_append (cs ds : List Char) : width (cs ++ ds) = width cs + width ds := by
  induction cs with
  | nil => exact (Nat.zero_add _).symm
  | cons c cs ih => rw [List.cons_append, width_cons, ih, width_cons, Nat.add_assoc]

/-- A place in a text is known by the width of what stands before it. -/
theorem eq_of_width_take {cs : List Char} {n m : Nat} (hn : n ≤ cs.length) (hm : m ≤ cs.length)
    (h : width (cs.take n) = width (cs.take m)) : n = m := by
  induction cs generalizing n m with
  | nil =>
    rw [List.length_nil, Nat.le_zero] at hn hm
    rw [hn, hm]
  | cons c cs ih =>
    have hpos := c.utf8Size_pos
    have hwidth (k : Nat) : width ((c :: cs).take (k + 1)) = c.utf8Size + width (cs.take k) := rfl
    have hzero : width ((c :: cs).take 0) = 0 := rfl
    rw [List.length_cons] at hn hm
    cases n with
    | zero =>
      cases m with
      | zero => rfl
      | succ m =>
        rw [hwidth, hzero] at h
        omega
    | succ n =>
      cases m with
      | zero =>
        rw [hwidth, hzero] at h
        omega
      | succ m =>
        rw [hwidth, hwidth] at h
        exact congrArg (· + 1)
          (ih (Nat.le_of_succ_le_succ hn) (Nat.le_of_succ_le_succ hm) (Nat.add_left_cancel h))

/-- The text, of which the first character has the given byte offset, consists of
the lexemes and of gaps between them. -/
inductive Layout : Nat → List Char → List Lexeme → Prop
  | nil (offset : Nat) : Layout offset [] []
  | gap {offset : Nat} {c : Char} {rest : List Char} {ls : List Lexeme} (hc : isGap c = true)
      (h : Layout (offset + c.utf8Size) rest ls) : Layout offset (c :: rest) ls
  | bare {l : Lexeme} {rest : List Char} {ls : List Lexeme} (hl : l.IsBare)
      (h : Layout (l.offset + width l.chars) rest ls) :
      Layout l.offset (l.chars ++ rest) (l :: ls)
  | quoted {l : Lexeme} {quote : Char} {body rest : List Char} {ls : List Lexeme}
      (hl : l.IsQuoted quote body) (hopen : l.closed = false → rest = [])
      (h : Layout (l.offset + width l.chars) rest ls) :
      Layout l.offset (l.chars ++ rest) (l :: ls)

/-- **Every text is laid out as its lexemes.** -/
theorem layout_lexemes (offset : Nat) (cs : List Char) : Layout offset cs (lexemes offset cs) := by
  fun_induction lexemes offset cs with
  | case1 offset => exact .nil offset
  | case2 offset c rest hc ih => exact .gap hc ih
  | case3 offset c rest hc kind more closed hfirst chars ih =>
    have htext : c :: rest = chars ++ rest.drop more := by
      rw [List.cons_append, List.take_append_drop]
    rw [htext]
    by_cases hquote : isQuote c = true
    · have hl := isQuoted_first hquote rest offset
      rw [hfirst] at hl
      refine .quoted hl (fun hopen => ?_) ih
      have hclose : closeQuote c rest = (more, closed) :=
        (Prod.mk.inj ((first_of_isQuote hquote rest).symm.trans hfirst)).2
      have hlength : (closeQuote c rest).1 = rest.length :=
        closeQuote_of_open (by rw [hclose]; exact hopen)
      rw [hclose] at hlength
      exact List.drop_eq_nil_of_le (Nat.le_of_eq hlength.symm)
    · have hl := isBare_first rest (Bool.eq_false_iff.mpr hc) (Bool.eq_false_iff.mpr hquote) offset
      rw [hfirst] at hl
      exact .bare hl ih

/-- The lexemes of a text stand in it. -/
theorem Layout.le_offset {offset : Nat} {cs : List Char} {ls : List Lexeme}
    (h : Layout offset cs ls) : ∀ l ∈ ls, offset ≤ l.offset := by
  induction h with
  | nil => nofun
  | gap hc h ih => exact fun l hl => Nat.le_trans (Nat.le_add_right _ _) (ih l hl)
  | bare hl h ih | quoted hl hopen h ih =>
    refine List.forall_mem_cons.mpr ⟨Nat.le_refl _, fun l hl => ?_⟩
    exact Nat.le_trans (Nat.le_add_right _ _) (ih l hl)

end TargetView.Lexer
