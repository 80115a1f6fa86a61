import Mathlib.Computability.Language
import TargetView.Proofs.Layout

/-! # The longest match

What a lexeme may be is a matter of languages: one for each form of a number, one
of the identifiers, and one of the operators and delimiters (`Lexer.Table`).  The
lexer tries them by scans of its own.  Each of these gives the length of the
longest prefix in its language (`Lexer.IsLongest`), and so does the lexer for all
languages together (`Lexer.longest_first`).

A longest match is the longest one still when all that stands behind it is cut
off (`Lexer.first_take`): a form that fails behind a lexeme cannot succeed within
it.
-/
namespace TargetView.Lexer

open Computability
open TargetView.Number (isDigit)

/-! ## Languages -/

/-- The words of one character of a class. -/
def single (p : Char → Bool) : Language Char := fun w => ∃ c, p c = true ∧ w = [c]

/-- The mark of an exponent. -/
def isPower (c : Char) : Bool := c == 'e' || c == 'E'

/-- The sign of an exponent. -/
def isSign (c : Char) : Bool := c == '+' || c == '-'

namespace Table

def digits : Language Char := single isDigit * (single isDigit)∗

def suffix : Language Char := (single isSuffix)∗

def exponent : Language Char := single isPower * ((1 + single isSign) * digits)

/-- An integer with a base: a zero, a letter, marks of the base and a suffix. -/
def based (letter : Char) (capital : Char) (mark : Char → Bool) : Language Char :=
  single (· == '0') * (single (fun c => c == letter || c == capital) * ((single mark)∗ * suffix))

def decimal : Language Char := single isDigit * ((single isDigitMark)∗ * suffix)

def pointed : Language Char :=
  single isDigit * ((single isDigitMark)∗ *
    (single (· == '.') * ((single isDigitMark)∗ * (1 + exponent))))

def scientific : Language Char := single isDigit * ((single isDigitMark)∗ * exponent)

def fraction : Language Char :=
  single (· == '.') * (single isDigit * ((single isDigitMark)∗ * (1 + exponent)))

/-- The numbers that start with a digit. -/
def numeral : Language Char :=
  based 'x' 'X' isHexMark + (based 'b' 'B' isDigitMark + based 'o' 'O' isDigitMark) +
    decimal + (pointed + scientific)

def number : Language Char := numeral + fraction

def identifier : Language Char := single isNameStart * (single isNamePart)∗

def punctuation : Language Char := fun w => w ∈ Lexer.punctuation.map String.toList

end Table

theorem mem_single_kstar {p : Char → Bool} {w : List Char} :
    w ∈ (single p)∗ ↔ ∀ c ∈ w, p c = true := by
  rw [Language.mem_kstar]
  constructor
  · rintro ⟨words, rfl, hwords⟩ c hc
    obtain ⟨word, hword, hc⟩ := List.mem_flatten.mp hc
    obtain ⟨d, hd, rfl⟩ := hwords word hword
    rw [List.mem_singleton.mp hc]
    exact hd
  · intro h
    refine ⟨w.map fun c => [c], ?_, List.forall_mem_map.mpr fun c hc => ⟨c, h c hc, rfl⟩⟩
    induction w with
    | nil => rfl
    | cons c w ih =>
      rw [List.map_cons, List.flatten_cons, ← ih (List.forall_mem_cons.mp h).2]
      rfl

/-- A word of a class and a language is a character in front of a word. -/
theorem mem_single_mul {p : Char → Bool} {l : Language Char} {w : List Char} :
    w ∈ single p * l ↔ ∃ c v, p c = true ∧ v ∈ l ∧ w = c :: v := by
  rw [Language.mem_mul]
  constructor
  · rintro ⟨_, ⟨c, hc, rfl⟩, v, hv, rfl⟩
    exact ⟨c, v, hc, hv, rfl⟩
  · rintro ⟨c, v, hc, hv, rfl⟩
    exact ⟨[c], ⟨c, hc, rfl⟩, v, hv, rfl⟩

theorem nil_mem_of_mul {l m : Language Char} (h : [] ∈ l * m) : [] ∈ m := by
  obtain ⟨_, -, word, hword, happend⟩ := Language.mem_mul.mp h
  rw [(List.append_eq_nil_iff.mp happend).2] at hword
  exact hword

theorem nil_not_mem_single_mul {p : Char → Bool} {l : Language Char} : [] ∉ single p * l := by
  intro h
  obtain ⟨c, v, -, -, hnil⟩ := mem_single_mul.mp h
  cases hnil

/-! ## The longest prefix in a language -/

/-- The number of characters of the longest prefix in a language; zero if there
is none but perhaps the empty one. -/
structure IsLongest (l : Language Char) (cs : List Char) (n : Nat) : Prop where
  le : n ≤ cs.length
  mem : n ≠ 0 → cs.take n ∈ l
  longest : ∀ w, w <+: cs → w ∈ l → w.length ≤ n

namespace IsLongest

variable {l l' : Language Char} {p : Char → Bool} {cs rest : List Char} {c : Char} {n m : Nat}

theorem unique (h : IsLongest l cs n) (h' : IsLongest l cs m) : n = m := by
  have hle {n m : Nat} (h : IsLongest l cs n) (h' : IsLongest l cs m) : n ≤ m := by
    by_cases hn : n = 0
    · rw [hn]
      exact Nat.zero_le m
    · have hlength := h'.longest _ (List.take_prefix n cs) (h.mem hn)
      rw [List.length_take, Nat.min_eq_left h.le] at hlength
      exact hlength
  exact Nat.le_antisymm (hle h h') (hle h' h)

/-- What stands behind the longest prefix may be cut off. -/
theorem take (h : IsLongest l cs n) (hm : n ≤ m) : IsLongest l (cs.take m) n where
  le := by
    rw [List.length_take]
    exact Nat.le_min.mpr ⟨hm, h.le⟩
  mem hn := by
    rw [List.take_take, Nat.min_eq_left hm]
    exact h.mem hn
  longest w hw := h.longest w (hw.trans (List.take_prefix m cs))

theorem sup (h : IsLongest l cs n) (h' : IsLongest l' cs m) :
    IsLongest (l + l') cs (max n m) where
  le := Nat.max_le.mpr ⟨h.le, h'.le⟩
  mem hne := by
    rw [Language.mem_add]
    rcases Nat.le_total n m with hle | hle
    · rw [Nat.max_eq_right hle] at hne ⊢
      exact .inr (h'.mem hne)
    · rw [Nat.max_eq_left hle] at hne ⊢
      exact .inl (h.mem hne)
  longest w hw hmem := by
    rcases hmem with hmem | hmem
    · exact Nat.le_trans (h.longest w hw hmem) (Nat.le_max_left n m)
    · exact Nat.le_trans (h'.longest w hw hmem) (Nat.le_max_right n m)

theorem of_forall_not_mem (h : ∀ w, w <+: cs → w ∉ l) : IsLongest l cs 0 :=
  ⟨Nat.zero_le _, fun h => absurd rfl h, fun w hw hmem => absurd hmem (h w hw)⟩

/-- The empty word may be added. -/
theorem optional (h : IsLongest l cs n) : IsLongest (1 + l) cs n where
  le := h.le
  mem hn := .inr (h.mem hn)
  longest w hw hmem := by
    rcases hmem with hmem | hmem
    · rw [(Language.mem_one w).mp hmem]
      exact Nat.zero_le n
    · exact h.longest w hw hmem

theorem run (p : Char → Bool) (cs : List Char) : IsLongest (single p)∗ cs (Lexer.run p cs) where
  le := run_le p cs
  mem _ := by
    rw [take_run, mem_single_kstar]
    exact List.all_eq_true.mp List.all_takeWhile
  longest w hw hmem := by
    obtain ⟨rest, rfl⟩ := hw
    rw [mem_single_kstar] at hmem
    rw [Lexer.run, List.takeWhile_append_of_pos hmem, List.length_append]
    exact Nat.le_add_right _ _

/-- A character of a class, and what matches behind it. -/
theorem cons (hc : p c = true) (h : IsLongest l rest n) (hn : n ≠ 0 ∨ [] ∈ l) :
    IsLongest (single p * l) (c :: rest) (n + 1) where
  le := Nat.succ_le_succ h.le
  mem _ := by
    rw [List.take_succ_cons, mem_single_mul]
    refine ⟨c, rest.take n, hc, ?_, rfl⟩
    by_cases hzero : n = 0
    · rw [hzero, List.take_zero]
      exact hn.resolve_left fun hne => hne hzero
    · exact h.mem hzero
  longest w hw hmem := by
    obtain ⟨d, v, -, hv, rfl⟩ := mem_single_mul.mp hmem
    exact Nat.succ_le_succ (h.longest v (List.cons_prefix_cons.mp hw).2 hv)

/-- A character of a class, and something that must match behind it. -/
theorem cons_of_nil_not_mem (hc : p c = true) (h : IsLongest l rest n) (hnil : [] ∉ l) :
    IsLongest (single p * l) (c :: rest) (if n = 0 then 0 else n + 1) := by
  split
  · next hn =>
    subst hn
    refine of_forall_not_mem fun w hw hmem => ?_
    obtain ⟨d, v, -, hv, rfl⟩ := mem_single_mul.mp hmem
    have hlength := h.longest v (List.cons_prefix_cons.mp hw).2 hv
    exact hnil (List.eq_nil_of_length_eq_zero (Nat.le_zero.mp hlength) ▸ hv)
  · next hn => exact .cons hc h (.inl hn)

/-- No character of the class, or nothing that must stand behind it. -/
theorem none (h : ∀ c rest, cs = c :: rest → p c = true → IsLongest l rest 0 ∧ [] ∉ l) :
    IsLongest (single p * l) cs 0 := by
  refine of_forall_not_mem fun w hw hmem => ?_
  obtain ⟨c, v, hc, hv, rfl⟩ := mem_single_mul.mp hmem
  obtain ⟨rest, rfl⟩ := hw
  obtain ⟨hlongest, hnil⟩ := h c (v ++ rest) rfl hc
  have hlength := hlongest.longest v (List.prefix_append v rest) hv
  exact hnil (List.eq_nil_of_length_eq_zero (Nat.le_zero.mp hlength) ▸ hv)

theorem none_cons (hc : p c = false) : IsLongest (single p * l) (c :: rest) 0 := by
  refine .none fun d rest' hcs hd => ?_
  obtain ⟨rfl, -⟩ := List.cons.inj hcs
  rw [hc] at hd
  cases hd

/-- Behind a run of a class a word that starts with another character is found
where the run ends. -/
theorem prefix_dropWhile {front word : List Char} (hw : front ++ c :: word <+: cs)
    (hfront : front ∈ (single p)∗) (hc : p c = false) : c :: word <+: cs.dropWhile p := by
  obtain ⟨rest, rfl⟩ := hw
  rw [mem_single_kstar] at hfront
  rw [List.append_assoc, List.dropWhile_append_of_pos hfront, List.cons_append,
    List.dropWhile_cons_of_neg (Bool.eq_false_iff.mp hc)]
  exact List.prefix_append (c :: word) rest

/-- A run of a class, and what matches behind it, where words start with another
character. -/
theorem behind (hl : ∀ w ∈ l, ∀ c ∈ w.head?, p c = false)
    (h : IsLongest l (cs.dropWhile p) n) (hn : n ≠ 0 ∨ [] ∈ l) :
    IsLongest ((single p)∗ * l) cs (Lexer.run p cs + n) where
  le := by
    have hrun := run_add_dropWhile p cs
    have hle := h.le
    omega
  mem _ := by
    rw [List.take_add, drop_run]
    refine Language.append_mem_mul ?_ ?_
    · rw [take_run, mem_single_kstar]
      exact List.all_eq_true.mp List.all_takeWhile
    · by_cases hzero : n = 0
      · rw [hzero, List.take_zero]
        exact hn.resolve_left fun hne => hne hzero
      · exact h.mem hzero
  longest w hw hmem := by
    obtain ⟨front, hfront, word, hword, rfl⟩ := Language.mem_mul.mp hmem
    have hle := (IsLongest.run p cs).longest front ((List.prefix_append _ _).trans hw) hfront
    rw [List.length_append]
    cases word with
    | nil => exact Nat.le_trans hle (Nat.le_add_right _ _)
    | cons c word =>
      -- Its first character ends the run, so it starts where the run ends.
      have hbehind := prefix_dropWhile hw hfront (hl _ hword c rfl)
      exact Nat.add_le_add hle (h.longest _ hbehind hword)

/-- A run of a class, and something that must match behind it. -/
theorem behind_of_nil_not_mem (hl : ∀ w ∈ l, ∀ c ∈ w.head?, p c = false)
    (h : IsLongest l (cs.dropWhile p) n) (hnil : [] ∉ l) :
    IsLongest ((single p)∗ * l) cs (if n = 0 then 0 else Lexer.run p cs + n) := by
  split
  · next hn =>
    subst hn
    refine of_forall_not_mem fun w hw hmem => ?_
    obtain ⟨front, hfront, word, hword, rfl⟩ := Language.mem_mul.mp hmem
    cases word with
    | nil => exact hnil hword
    | cons c word =>
      have hbehind := prefix_dropWhile hw hfront (hl _ hword c rfl)
      exact absurd (h.longest _ hbehind hword) (Nat.not_succ_le_zero _)
  · next hn => exact behind hl h (.inl hn)

end IsLongest

/-! ## The scans -/

section Scans

variable {p : Char → Bool} {cs rest : List Char} {c : Char}

theorem head_of_mem_single_mul {q : Char → Bool} {l : Language Char}
    (h : ∀ c, q c = true → p c = false) : ∀ w ∈ single q * l, ∀ c ∈ w.head?, p c = false := by
  intro w hw c hc
  obtain ⟨d, v, hd, -, rfl⟩ := mem_single_mul.mp hw
  obtain rfl := Option.some.inj hc
  exact h d hd

theorem head_of_mem_optional {l : Language Char} (h : ∀ w ∈ l, ∀ c ∈ w.head?, p c = false) :
    ∀ w ∈ 1 + l, ∀ c ∈ w.head?, p c = false := by
  intro w hw
  rcases hw with hw | hw
  · rw [(Language.mem_one w).mp hw]
    nofun
  · exact h w hw

/-- Marks of a number are no letters of a suffix. -/
theorem not_mark_of_isSuffix (h : isSuffix c = true) :
    isDigitMark c = false ∧ isHexMark c = false := by
  simp only [isSuffix, Bool.or_eq_true, beq_iff_eq] at h
  rcases h with ((rfl | rfl) | rfl) | rfl <;> exact ⟨rfl, rfl⟩

theorem longest_suffixed (hp : ∀ c, isSuffix c = true → p c = false) (cs : List Char) :
    IsLongest ((single p)∗ * Table.suffix) cs (suffixed p cs) := by
  refine .behind ?_ (.run isSuffix _) (.inr (Language.nil_mem_kstar _))
  intro w hw c hc
  exact hp c (mem_single_kstar.mp hw c (List.mem_of_mem_head? hc))

theorem longest_digits (cs : List Char) : IsLongest Table.digits cs (run isDigit cs) := by
  cases cs with
  | nil => exact .none nofun
  | cons c rest =>
    by_cases hc : isDigit c = true
    · have hrun : run isDigit (c :: rest) = run isDigit rest + 1 := by
        rw [run, List.takeWhile_cons_of_pos hc, List.length_cons, run]
      rw [hrun]
      exact .cons hc (.run isDigit rest) (.inr (Language.nil_mem_kstar _))
    · have hrun : run isDigit (c :: rest) = 0 := by
        rw [run, List.takeWhile_cons_of_neg hc, List.length_nil]
      rw [hrun]
      exact .none_cons (Bool.eq_false_iff.mpr hc)

theorem not_mark_of_isPower (h : isPower c = true) : isDigitMark c = false := by
  rw [isPower, Bool.or_eq_true, beq_iff_eq, beq_iff_eq] at h
  rcases h with rfl | rfl <;> rfl

theorem not_digit_of_isSign (h : isSign c = true) : isDigit c = false := by
  rw [isSign, Bool.or_eq_true, beq_iff_eq, beq_iff_eq] at h
  rcases h with rfl | rfl <;> rfl

/-- The number of characters of the digits, perhaps behind a sign. -/
def signed (cs : List Char) : Nat :=
  match cs with
  | '+' :: digits | '-' :: digits => if run isDigit digits = 0 then 0 else run isDigit digits + 1
  | digits => run isDigit digits

theorem longest_signed (cs : List Char) :
    IsLongest ((1 + single isSign) * Table.digits) cs (signed cs) := by
  rw [add_mul, one_mul]
  have hsigned {sign : Char} (hsign : isSign sign = true) (rest : List Char) :
      IsLongest (Table.digits + single isSign * Table.digits) (sign :: rest)
        (if run isDigit rest = 0 then 0 else run isDigit rest + 1) := by
    have h := (longest_digits (sign :: rest)).sup
      (.cons_of_nil_not_mem hsign (longest_digits rest) nil_not_mem_single_mul)
    have hnone : run isDigit (sign :: rest) = 0 := by
      rw [run, List.takeWhile_cons_of_neg (Bool.eq_false_iff.mp (not_digit_of_isSign hsign)),
        List.length_nil]
    rw [hnone, Nat.zero_max] at h
    exact h
  unfold signed
  split
  · exact hsigned rfl _
  · exact hsigned rfl _
  · next hplus hminus =>
    have hnone : IsLongest (single isSign * Table.digits) cs 0 := by
      refine .none fun c rest hcs hc => ?_
      rw [isSign, Bool.or_eq_true, beq_iff_eq, beq_iff_eq] at hc
      rcases hc with rfl | rfl
      · exact absurd hcs (hplus rest)
      · exact absurd hcs (hminus rest)
    have h := (longest_digits cs).sup hnone
    rw [Nat.max_zero] at h
    exact h

theorem exponent_cons (c : Char) (rest : List Char) : exponent (c :: rest) =
    if isPower c then if signed rest = 0 then 0 else signed rest + 1 else 0 := by
  have hsigned (digits : List Char) :
      (if run isDigit digits = 0 then 0 else run isDigit digits + 2) =
        let n := if run isDigit digits = 0 then 0 else run isDigit digits + 1
        if n = 0 then 0 else n + 1 := by
    by_cases h : run isDigit digits = 0 <;> simp [h]
  unfold exponent isPower
  dsimp only
  by_cases hc : (c == 'e' || c == 'E') = true
  · rw [if_pos hc, if_pos hc]
    split
    · exact hsigned _
    · exact hsigned _
    · next hplus hminus => rw [signed] <;> assumption
  · rw [if_neg hc, if_neg hc]

theorem longest_exponent (cs : List Char) : IsLongest Table.exponent cs (exponent cs) := by
  cases cs with
  | nil => exact .none nofun
  | cons c rest =>
    rw [exponent_cons]
    by_cases hc : isPower c = true
    · rw [if_pos hc]
      exact .cons_of_nil_not_mem hc (longest_signed rest)
        fun hnil => nil_not_mem_single_mul (nil_mem_of_mul hnil)
    · rw [if_neg hc]
      exact .none_cons (Bool.eq_false_iff.mpr hc)

/-! ### Numbers -/

/-- The length of an integer with the base of a letter. -/
def basedOn (letter capital : Char) (mark : Char → Bool) : List Char → Nat
  | '0' :: c :: rest => if c == letter || c == capital then 2 + suffixed mark rest else 0
  | _ => 0

theorem longest_basedOn {mark : Char → Bool} (letter capital : Char)
    (hmark : ∀ c, isSuffix c = true → mark c = false) (cs : List Char) :
    IsLongest (Table.based letter capital mark) cs (basedOn letter capital mark cs) := by
  have hnone (h : ∀ c rest, cs = '0' :: c :: rest → ¬(c == letter || c == capital) = true) :
      IsLongest (Table.based letter capital mark) cs 0 := by
    refine .none fun d rest hcs hd => ⟨.none fun c rest' hrest hc => ?_, nil_not_mem_single_mul⟩
    rw [eq_of_beq hd, hrest] at hcs
    exact (h c rest' hcs hc).elim
  unfold basedOn
  split
  · next c rest =>
    split
    · next hc =>
      have hnil : [] ∈ (single mark)∗ * Table.suffix :=
        Language.append_mem_mul (Language.nil_mem_kstar _) (Language.nil_mem_kstar _)
      rw [Nat.add_comm]
      exact .cons rfl (.cons hc (longest_suffixed hmark rest) (.inr hnil))
        (.inl (Nat.succ_ne_zero _))
    · next hc =>
      refine hnone fun d rest' hcs => ?_
      obtain ⟨-, hcs⟩ := List.cons.inj hcs
      obtain ⟨rfl, -⟩ := List.cons.inj hcs
      exact hc
  · next hcs => exact hnone fun c rest h => absurd h (hcs c rest)

/-- At most one of the letters stands behind a zero. -/
theorem based_eq (cs : List Char) : based cs = max (basedOn 'x' 'X' isHexMark cs)
    (max (basedOn 'b' 'B' isDigitMark cs) (basedOn 'o' 'O' isDigitMark cs)) := by
  unfold based
  split
  · next c rest =>
    by_cases hx : (c == 'x' || c == 'X') = true
    · have hletters : (c == 'b' || c == 'B') = false ∧ (c == 'o' || c == 'O') = false := by
        rw [Bool.or_eq_true, beq_iff_eq, beq_iff_eq] at hx
        rcases hx with rfl | rfl <;> exact ⟨rfl, rfl⟩
      simp [basedOn, hx, hletters]
    by_cases hb : (c == 'b' || c == 'B') = true
    · have hletter : (c == 'o' || c == 'O') = false := by
        rw [Bool.or_eq_true, beq_iff_eq, beq_iff_eq] at hb
        rcases hb with rfl | rfl <;> rfl
      simp [basedOn, hx, hb, hletter]
    · simp [basedOn, hx, hb]
  · next hcs =>
    have hnone (letter capital : Char) (mark : Char → Bool) :
        basedOn letter capital mark cs = 0 := by
      unfold basedOn
      split
      · exact absurd rfl (hcs _ _)
      · rfl
    rw [hnone, hnone, hnone]
    rfl

theorem longest_based (cs : List Char) :
    IsLongest (Table.based 'x' 'X' isHexMark +
      (Table.based 'b' 'B' isDigitMark + Table.based 'o' 'O' isDigitMark)) cs (based cs) := by
  rw [based_eq]
  exact (longest_basedOn _ _ (fun _ hc => (not_mark_of_isSuffix hc).2) cs).sup
    ((longest_basedOn _ _ (fun _ hc => (not_mark_of_isSuffix hc).1) cs).sup
      (longest_basedOn _ _ (fun _ hc => (not_mark_of_isSuffix hc).1) cs))

theorem run_digit_cons (hc : isDigit c = true) (rest : List Char) :
    run isDigitMark (c :: rest) = run isDigitMark rest + 1 ∧
      (c :: rest).dropWhile isDigitMark = rest.dropWhile isDigitMark := by
  have hmark : isDigitMark c = true := by rw [isDigitMark, hc, Bool.true_or]
  rw [run, List.takeWhile_cons_of_pos hmark, List.dropWhile_cons_of_pos hmark]
  exact ⟨rfl, rfl⟩

theorem longest_decimal (hc : isDigit c = true) (rest : List Char) :
    IsLongest Table.decimal (c :: rest) (suffixed isDigitMark (c :: rest)) := by
  obtain ⟨hrun, hdrop⟩ := run_digit_cons hc rest
  have hnil : [] ∈ (single isDigitMark)∗ * Table.suffix :=
    Language.append_mem_mul (Language.nil_mem_kstar _) (Language.nil_mem_kstar _)
  have h := IsLongest.cons hc
    (longest_suffixed (fun c hc => (not_mark_of_isSuffix hc).1) rest) (.inr hnil)
  rw [suffixed, hrun, hdrop, Nat.add_right_comm, ← suffixed]
  exact h

/-- Digits behind a point, and perhaps an exponent. -/
theorem longest_part (cs : List Char) :
    IsLongest ((single isDigitMark)∗ * (1 + Table.exponent)) cs
      (run isDigitMark cs + exponent (cs.dropWhile isDigitMark)) :=
  .behind (head_of_mem_optional (head_of_mem_single_mul fun _ => not_mark_of_isPower))
    (longest_exponent _).optional (.inr (.inl (Language.nil_mem_one)))

theorem longest_scientific (hc : isDigit c = true) (rest : List Char) :
    IsLongest Table.scientific (c :: rest) (scientific (c :: rest)) := by
  obtain ⟨hrun, hdrop⟩ := run_digit_cons hc rest
  have hhead : ∀ w ∈ Table.exponent, ∀ c ∈ w.head?, isDigitMark c = false :=
    head_of_mem_single_mul fun _ => not_mark_of_isPower
  have h := IsLongest.cons_of_nil_not_mem hc (.behind_of_nil_not_mem hhead
    (longest_exponent (rest.dropWhile isDigitMark)) nil_not_mem_single_mul)
    fun hnil => nil_not_mem_single_mul (nil_mem_of_mul hnil)
  unfold scientific
  dsimp only
  rw [hrun, hdrop]
  by_cases htail : exponent (rest.dropWhile isDigitMark) = 0
  · rw [if_pos htail, if_pos rfl] at h
    rw [if_pos htail]
    exact h
  · rw [if_neg htail, if_neg (by omega)] at h
    rw [if_neg htail, Nat.add_right_comm]
    exact h

theorem longest_pointed (hc : isDigit c = true) (rest : List Char) :
    IsLongest Table.pointed (c :: rest) (fractional (c :: rest)) := by
  obtain ⟨hrun, hdrop⟩ := run_digit_cons hc rest
  have hhead : ∀ w ∈ single (· == '.') * ((single isDigitMark)∗ * (1 + Table.exponent)),
      ∀ c ∈ w.head?, isDigitMark c = false :=
    head_of_mem_single_mul fun c hc => by rw [eq_of_beq hc]; rfl
  have hnil : [] ∈ (single isDigitMark)∗ * (1 + Table.exponent) :=
    Language.append_mem_mul (Language.nil_mem_kstar _) (.inl Language.nil_mem_one)
  unfold fractional
  dsimp only
  rw [hrun, hdrop]
  split
  · next behind hpoint =>
    have hpart : IsLongest (single (· == '.') * ((single isDigitMark)∗ * (1 + Table.exponent)))
        (rest.dropWhile isDigitMark)
        (run isDigitMark behind + exponent (behind.dropWhile isDigitMark) + 1) := by
      rw [hpoint]
      exact .cons rfl (longest_part behind) (.inr hnil)
    have h := IsLongest.cons hc (.behind hhead hpart (.inl (Nat.succ_ne_zero _)))
      (.inl (by omega))
    have hlength : run isDigitMark rest + 1 + 1 + run isDigitMark behind +
        exponent (behind.dropWhile isDigitMark) = run isDigitMark rest +
        (run isDigitMark behind + exponent (behind.dropWhile isDigitMark) + 1) + 1 := by omega
    rw [if_neg (by simp), hlength]
    exact h
  · next hpoint =>
    refine .none fun d rest' hcs _ => ?_
    obtain ⟨-, rfl⟩ := List.cons.inj hcs
    refine ⟨?_, fun hnil => nil_not_mem_single_mul (nil_mem_of_mul hnil)⟩
    refine .behind_of_nil_not_mem hhead (n := 0) (.none fun d behind hd hpoint' => ?_)
      nil_not_mem_single_mul
    rw [eq_of_beq hpoint'] at hd
    exact absurd hd (hpoint behind)

theorem longest_fraction (rest : List Char) :
    IsLongest Table.fraction ('.' :: rest) (fractional ('.' :: rest)) := by
  have hnil : [] ∈ (single isDigitMark)∗ * (1 + Table.exponent) :=
    Language.append_mem_mul (Language.nil_mem_kstar _) (.inl Language.nil_mem_one)
  have hfractional : fractional ('.' :: rest) =
      if (rest.takeWhile isDigit).isEmpty then 0
      else run isDigitMark rest + exponent (rest.dropWhile isDigitMark) + 1 := by
    have hcomm : 0 + 1 + run isDigitMark rest + exponent (rest.dropWhile isDigitMark) =
        run isDigitMark rest + exponent (rest.dropWhile isDigitMark) + 1 := by omega
    rw [← hcomm]
    rfl
  rw [hfractional]
  cases rest with
  | nil =>
    refine .none fun d rest' hcs _ => ?_
    obtain ⟨-, rfl⟩ := List.cons.inj hcs
    exact ⟨.none nofun, nil_not_mem_single_mul⟩
  | cons c rest =>
    by_cases hc : isDigit c = true
    · obtain ⟨hrun, hdrop⟩ := run_digit_cons hc rest
      have h := IsLongest.cons (p := (· == '.')) (c := '.') rfl
        (.cons hc (longest_part rest) (.inr hnil)) (.inl (Nat.succ_ne_zero _))
      have hlength : run isDigitMark rest + 1 + exponent (rest.dropWhile isDigitMark) + 1 =
          run isDigitMark rest + exponent (rest.dropWhile isDigitMark) + 1 + 1 := by omega
      rw [List.takeWhile_cons_of_pos hc, hrun, hdrop, hlength]
      exact h
    · rw [List.takeWhile_cons_of_neg hc]
      refine .none fun d rest' hcs _ => ⟨?_, nil_not_mem_single_mul⟩
      obtain ⟨-, rfl⟩ := List.cons.inj hcs
      exact .none_cons (Bool.eq_false_iff.mpr hc)

theorem longest_numeral (hc : isDigit c = true) (rest : List Char) :
    IsLongest Table.numeral (c :: rest)
      (max (max (based (c :: rest)) (suffixed isDigitMark (c :: rest)))
        (max (fractional (c :: rest)) (scientific (c :: rest)))) :=
  ((longest_based (c :: rest)).sup (longest_decimal hc rest)).sup
    ((longest_pointed hc rest).sup (longest_scientific hc rest))

theorem longest_numeral_none (h : ∀ c rest, cs = c :: rest → isDigit c = false) :
    IsLongest Table.numeral cs 0 := by
  have hdigit {l : Language Char} : IsLongest (single isDigit * l) cs 0 := by
    refine .none fun c rest hcs hc => ?_
    rw [h c rest hcs] at hc
    cases hc
  have hzero {l : Language Char} : IsLongest (single (· == '0') * l) cs 0 := by
    refine .none fun c rest hcs hc => ?_
    have hc' := h c rest hcs
    rw [eq_of_beq hc] at hc'
    cases hc'
  exact ((hzero.sup (hzero.sup hzero)).sup hdigit).sup (hdigit.sup hdigit)

/-- The lexer reads the longest number. -/
theorem longest_number (cs : List Char) : IsLongest Table.number cs (number cs) := by
  unfold number
  split
  · have hfraction : IsLongest Table.fraction [] 0 := .none fun _ _ h => by cases h
    exact (longest_numeral_none fun _ _ h => by cases h).sup hfraction
  · next c rest =>
    split
    · next hc =>
      have hpoint : (c == '.') = false := by
        refine Bool.eq_false_iff.mpr fun h => ?_
        rw [eq_of_beq h] at hc
        cases hc
      have hfraction : IsLongest Table.fraction (c :: rest) 0 := .none_cons hpoint
      have h := (longest_numeral hc rest).sup hfraction
      rw [Nat.max_zero] at h
      exact h
    · next hc =>
      have hnone : IsLongest Table.numeral (c :: rest) 0 :=
        longest_numeral_none fun d rest' hcs => by
          obtain ⟨rfl, -⟩ := List.cons.inj hcs
          exact Bool.eq_false_iff.mpr hc
      split
      · next hpoint =>
        obtain rfl := eq_of_beq hpoint
        have h := hnone.sup (longest_fraction rest)
        rw [Nat.zero_max] at h
        exact h
      · next hpoint =>
        have hfraction : IsLongest Table.fraction (c :: rest) 0 :=
          .none_cons (Bool.eq_false_iff.mpr hpoint)
        exact hnone.sup hfraction

/-! ### Punctuation and identifiers -/

/-- No operator or delimiter stands behind a longer one in the list. -/
theorem punctuation_sorted : (Lexer.punctuation.map String.toList).Pairwise
    fun p q => q.length ≤ p.length := by
  decide

theorem longest_punctuation (cs : List Char) :
    IsLongest Table.punctuation cs (punctuationLength cs) := by
  unfold punctuationLength
  cases hfind : (Lexer.punctuation.map String.toList).find? fun p => p.isPrefixOf cs with
  | none =>
    refine .of_forall_not_mem fun w hw hmem => ?_
    exact List.find?_eq_none.mp hfind w hmem (List.isPrefixOf_iff_prefix.mpr hw)
  | some p =>
    obtain ⟨hp, before, after, hlist, hbefore⟩ := List.find?_eq_some_iff_append.mp hfind
    have hp : p <+: cs := List.isPrefixOf_iff_prefix.mp hp
    refine ⟨hp.length_le, fun _ => ?_, fun w hw hmem => ?_⟩
    · rw [Option.elim_some, ← List.prefix_iff_eq_take.mp hp]
      exact List.mem_of_find?_eq_some hfind
    · have hsorted := punctuation_sorted
      have hmem : w ∈ Lexer.punctuation.map String.toList := hmem
      rw [hlist] at hsorted hmem
      rcases List.mem_append.mp hmem with hmem | hmem
      · -- What stands before the hit in the list is no prefix.
        have hnot := hbefore w hmem
        rw [List.isPrefixOf_iff_prefix.mpr hw] at hnot
        cases hnot
      · rcases List.mem_cons.mp hmem with rfl | hmem
        · exact Nat.le_refl _
        · exact (List.pairwise_cons.mp (List.pairwise_append.mp hsorted).2.1).1 w hmem

theorem longest_identifier (hc : isNameStart c = true) (rest : List Char) :
    IsLongest Table.identifier (c :: rest) (run isNamePart rest + 1) :=
  .cons hc (.run isNamePart rest) (.inr (Language.nil_mem_kstar _))

theorem longest_identifier_none (hc : isNameStart c = false) (rest : List Char) :
    IsLongest Table.identifier (c :: rest) 0 :=
  .none_cons hc

/-- Operators and delimiters hold no characters of names, and the point stands
alone. -/
theorem punctuation_chars : ∀ p ∈ Lexer.punctuation.map String.toList,
    p ≠ [] ∧ p.any isNamePart = false ∧ ('.' ∈ p → p = ['.']) := by
  decide

theorem longest_punctuation_none (hc : isNamePart c = true) (rest : List Char) :
    IsLongest Table.punctuation (c :: rest) 0 := by
  refine .of_forall_not_mem fun w hw hmem => ?_
  obtain ⟨hne, hchars, -⟩ := punctuation_chars w hmem
  obtain ⟨d, v, rfl⟩ := List.exists_cons_of_ne_nil hne
  refine List.any_eq_false.mp hchars d List.mem_cons_self ?_
  rw [(List.cons_prefix_cons.mp hw).1, hc]

/-! ### Lexemes -/

/-- A number starts with a digit or a point. -/
theorem start_of_number (h : number (c :: rest) ≠ 0) : isDigit c = true ∨ c = '.' := by
  unfold number at h
  dsimp only at h
  split at h
  · next hc => exact .inl hc
  · split at h
    · next hpoint => exact .inr (eq_of_beq hpoint)
    · exact absurd rfl h

theorem not_nameStart_of_isDigit (h : isDigit c = true) : isNameStart c = false := by
  simp only [isDigit, Bool.and_eq_true, decide_eq_true_eq] at h
  refine Bool.eq_false_iff.mpr fun hc => ?_
  simp only [isNameStart, Bool.or_eq_true, Bool.and_eq_true, decide_eq_true_eq, beq_iff_eq] at hc
  rcases hc with (hc | hc) | rfl
  · exact absurd (Char.le_trans hc.1 h.2) (by decide)
  · exact absurd (Char.le_trans hc.1 h.2) (by decide)
  · exact absurd h.2 (by decide)

/-- Operators and delimiters are no longer than a number that starts with the
same character. -/
theorem punctuationLength_le_number (h : number (c :: rest) ≠ 0) :
    punctuationLength (c :: rest) ≤ number (c :: rest) := by
  have hpunct := longest_punctuation (c :: rest)
  rcases start_of_number h with hc | rfl
  · have hpart : isNamePart c = true := by rw [isNamePart, hc, Bool.or_true]
    rw [hpunct.unique (longest_punctuation_none hpart rest)]
    exact Nat.zero_le _
  · have hle : punctuationLength ('.' :: rest) ≤ 1 := by
      by_cases hzero : punctuationLength ('.' :: rest) = 0
      · rw [hzero]
        exact Nat.zero_le 1
      · obtain ⟨n, hn⟩ := Nat.exists_eq_succ_of_ne_zero hzero
        have hmem := hpunct.mem hzero
        rw [hn, List.take_succ_cons] at hmem
        have hpoint := (punctuation_chars _ hmem).2.2 List.mem_cons_self
        have hlength := congrArg List.length hpoint
        have hle := hpunct.le
        rw [List.length_cons, List.length_take, List.length_singleton] at hlength
        rw [List.length_cons] at hle
        omega
    exact Nat.le_trans hle (Nat.pos_of_ne_zero h)

/-- The words of the lexemes of a kind; strings are not read by the table. -/
def Table.ofKind : TokenKind → Language Char
  | .number => number
  | .identifier => identifier
  | .punctuation => punctuation
  | _ => 0

/-- **The lexer takes the longest match.**  A lexeme that is no string is the
longest word at its place, of the kind it is said to be; a character that starts
no word is a lexeme of its own. -/
theorem longest_first (hquote : isQuote c = false) (rest : List Char) :
    let lexeme := first c rest
    IsLongest (Table.number + (Table.identifier + Table.punctuation)) (c :: rest)
        (if lexeme.1 = .unknown then 0 else lexeme.2.1 + 1) ∧
      (lexeme.1 ≠ .unknown → (c :: rest).take (lexeme.2.1 + 1) ∈ Table.ofKind lexeme.1) ∧
      (lexeme.1 = .unknown → lexeme.2.1 = 0) := by
  have hnumber := longest_number (c :: rest)
  have hpunct := longest_punctuation (c :: rest)
  have hquote : ¬(c == '"' || c == '\'') = true := Bool.eq_false_iff.mp hquote
  unfold first
  dsimp only
  by_cases hn : number (c :: rest) ≠ 0
  · obtain ⟨n, hn'⟩ := Nat.exists_eq_succ_of_ne_zero hn
    have hname : isNameStart c = false := by
      rcases start_of_number hn with hc | rfl
      · exact not_nameStart_of_isDigit hc
      · rfl
    have h := hnumber.sup ((longest_identifier_none hname rest).sup hpunct)
    rw [Nat.zero_max, Nat.max_eq_left (punctuationLength_le_number hn)] at h
    rw [if_pos hn]
    rw [hn'] at h hnumber ⊢
    exact ⟨h, fun _ => hnumber.mem (Nat.succ_ne_zero _), fun h => TokenKind.noConfusion h⟩
  rw [if_neg hn]
  rw [not_not.mp hn] at hnumber
  by_cases hname : isNameStart c = true
  · rw [if_pos hname]
    have hpart : isNamePart c = true := by rw [isNamePart, hname, Bool.true_or]
    have hid := longest_identifier hname rest
    have h := hnumber.sup (hid.sup (longest_punctuation_none hpart rest))
    rw [Nat.zero_max, Nat.max_zero] at h
    exact ⟨h, fun _ => hid.mem (Nat.succ_ne_zero _), fun h => TokenKind.noConfusion h⟩
  rw [if_neg hname, if_neg hquote]
  have hid := longest_identifier_none (Bool.eq_false_iff.mpr hname) rest
  have h := hnumber.sup (hid.sup hpunct)
  rw [Nat.zero_max, Nat.zero_max] at h
  by_cases hmark : punctuationLength (c :: rest) ≠ 0
  · rw [if_pos hmark]
    obtain ⟨n, hn'⟩ := Nat.exists_eq_succ_of_ne_zero hmark
    rw [hn'] at h hpunct ⊢
    exact ⟨h, fun _ => hpunct.mem (Nat.succ_ne_zero _), fun h => TokenKind.noConfusion h⟩
  · rw [if_neg hmark]
    rw [not_not.mp hmark] at h
    exact ⟨h, fun hne => absurd rfl hne, fun _ => rfl⟩

/-- **A lexeme does not depend on what stands behind it.** -/
theorem first_take (c : Char) (rest : List Char) :
    first c (rest.take (first c rest).2.1) = first c rest := by
  by_cases hquote : isQuote c = true
  · rw [first_of_isQuote hquote, first_of_isQuote hquote, closeQuote_take]
  have hquote' : ¬(c == '"' || c == '\'') = true := hquote
  have hnumber {n : Nat} (h : number (c :: rest) ≤ n + 1) :
      number (c :: rest.take n) = number (c :: rest) := by
    rw [← List.take_succ_cons]
    exact (longest_number _).unique ((longest_number _).take h)
  have hpunct {n : Nat} (h : punctuationLength (c :: rest) ≤ n + 1) :
      punctuationLength (c :: rest.take n) = punctuationLength (c :: rest) := by
    rw [← List.take_succ_cons]
    exact (longest_punctuation _).unique ((longest_punctuation _).take h)
  unfold first
  dsimp only
  by_cases hn : number (c :: rest) ≠ 0
  · rw [if_pos hn, hnumber (by dsimp only; omega), if_pos hn]
  rw [if_neg hn]
  by_cases hname : isNameStart c = true
  · rw [if_pos hname, hnumber (by omega), if_neg hn, if_pos hname]
    rw [(IsLongest.run isNamePart _).unique ((IsLongest.run isNamePart rest).take (Nat.le_refl _))]
  rw [if_neg hname, if_neg hquote']
  by_cases hmark : punctuationLength (c :: rest) ≠ 0
  · rw [if_pos hmark, hnumber (by omega), if_neg hn, if_neg hname, if_neg hquote',
      hpunct (by dsimp only; omega), if_pos hmark]
  · rw [if_neg hmark, hnumber (by omega), if_neg hn, if_neg hname, if_neg hquote',
      hpunct (by omega), if_neg hmark]

end Scans

end TargetView.Lexer
