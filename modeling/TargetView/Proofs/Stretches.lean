import TargetView.Literal.Text
import TargetView.Proofs.Layout

/-! # What is read of a string literal

The text of a literal is read in stretches: characters that stand for themselves,
and escapes.  `Literal.stretches` gives them together with what is left of the
literal, so that it can be said how far reading goes: up to the closing quote
that the lexer finds (`closeQuote_eq`).  What a literal means, and the warnings
about it, are those of its stretches (`cookBody_eq`).
-/
namespace TargetView.Literal

open Lexer (closeQuote isQuote width)

/-- What is read of a literal in one go. -/
inductive Stretch where
  /-- A character that stands for itself. -/
  | plain (c : Char)
  /-- A backslash and a letter, and what they stand for. -/
  | named (e resolved : Char)
  /-- A backslash, a letter and digits, and what they stand for. -/
  | coded (e : Char) (digits : List Char) (resolved : Char)
  /-- A backslash before a character that it means nothing to. -/
  | unknown (e : Char)
  /-- A backslash at the end. -/
  | lone

namespace Stretch

/-- The characters that are read. -/
def source : Stretch → List Char
  | plain c => [c]
  | named e _ | unknown e => ['\\', e]
  | coded e digits _ => '\\' :: e :: digits
  | lone => ['\\']

/-- The character that they stand for. -/
def char : Stretch → Char
  | plain c | unknown c | named _ c | coded _ _ c => c
  | lone => '\\'

/-- The warning about a stretch at a byte offset. -/
def warnings (base offset : Nat) : Stretch → List Diagnostic
  | unknown e => [.unknownEscape e ((Span.ofRange offset (offset + 1 + e.utf8Size)).shift base)]
  | plain _ | named .. | coded .. | lone => []

end Stretch

/-- The stretches of a literal behind its opening quote, and what is left. -/
def stretches (quote : Char) : List Char → List Stretch × List Char
  | [] => ([], [])
  | c :: rest =>
    if c == quote then ([], c :: rest)
    else if c != '\\' then
      let (read, left) := stretches quote rest
      (.plain c :: read, left)
    else
      match rest with
      | [] => ([.lone], [])
      | e :: after =>
        match escape? e with
        | some resolved =>
          let (read, left) := stretches quote after
          (.named e resolved :: read, left)
        | none =>
          match cookBody.hexEscape e after with
          | some (resolved, n) =>
            let (read, left) := stretches quote (after.drop n)
            (.coded e (after.take n) resolved :: read, left)
          | none =>
            let (read, left) := stretches quote after
            (.unknown e :: read, left)
termination_by cs => cs.length
decreasing_by
  all_goals simp only [List.length_cons, List.length_drop]; omega

/-- The characters of some stretches. -/
def source (read : List Stretch) : List Char := read.flatMap Stretch.source

/-- The warnings about some stretches of which the first stands at a byte offset. -/
def warnings (base offset : Nat) : List Stretch → List Diagnostic
  | [] => []
  | s :: rest => s.warnings base offset ++ warnings base (offset + width s.source) rest

/-! ## Digits -/

theorem hexEscape_eq_some {e resolved : Char} {after : List Char} {n : Nat}
    (h : cookBody.hexEscape e after = some (resolved, n)) :
    e = 'x' ∧ n = 2 ∧ ∃ high low rest, after = high :: low :: rest ∧
      (Number.digit? 16 high).isSome ∧ (Number.digit? 16 low).isSome := by
  unfold cookBody.hexEscape at h
  split at h
  · next high low rest =>
    split at h
    · next he =>
      obtain ⟨c, hc, hn⟩ := Option.map_eq_some_iff.mp h
      obtain ⟨a, ha, hc⟩ := Option.bind_eq_some_iff.mp hc
      obtain ⟨b, hb, -⟩ := Option.bind_eq_some_iff.mp hc
      exact ⟨eq_of_beq he, (Prod.mk.inj hn).2.symm, high, low, rest, rfl,
        Option.isSome_of_eq_some ha, Option.isSome_of_eq_some hb⟩
    · cases h
  · cases h

/-! ## Stretches -/

variable {quote : Char}

/-- Nothing is skipped. -/
theorem source_append_left (quote : Char) (cs : List Char) :
    source (stretches quote cs).1 ++ (stretches quote cs).2 = cs := by
  fun_induction stretches quote cs with
  | case1 => rfl
  | case2 => rfl
  | case3 c rest hc he read left hs ih =>
    rw [hs] at ih
    exact congrArg (c :: ·) ih
  | case4 c hc he =>
    obtain rfl : c = '\\' := by simpa using he
    rfl
  | case5 c hc he e after resolved hr read left hs ih
  | case7 c hc he e after hr hx read left hs ih =>
    obtain rfl : c = '\\' := by simpa using he
    rw [hs] at ih
    exact congrArg (fun cs => '\\' :: e :: cs) ih
  | case6 c hc he e after hr resolved n hx read left hs ih =>
    obtain rfl : c = '\\' := by simpa using he
    rw [hs] at ih
    dsimp only at ih ⊢
    rw [source, List.flatMap_cons, List.append_assoc, ← source, ih]
    exact congrArg (fun cs => '\\' :: e :: cs) (List.take_append_drop n after)

/-- What is left starts with the quote. -/
theorem left_eq (quote : Char) (cs : List Char) :
    (stretches quote cs).2 = [] ∨ ∃ more, (stretches quote cs).2 = quote :: more := by
  fun_induction stretches quote cs with
  | case1 => exact .inl rfl
  | case2 c rest hc =>
    obtain rfl := eq_of_beq hc
    exact .inr ⟨rest, rfl⟩
  | case4 => exact .inl rfl
  | case3 c rest hc he read left hs ih =>
    rw [hs] at ih
    exact ih
  | case5 c hc he e after resolved hr read left hs ih
  | case7 c hc he e after hr hx read left hs ih =>
    rw [hs] at ih
    exact ih
  | case6 c hc he e after hr resolved n hx read left hs ih =>
    rw [hs] at ih
    exact ih

/-! ## Where reading stops -/

theorem closeQuote_cons {c : Char} (hquote : c ≠ quote) (hback : c ≠ '\\') (rest : List Char) :
    closeQuote quote (c :: rest) =
      ((closeQuote quote rest).1 + 1, (closeQuote quote rest).2) := by
  rw [closeQuote, if_neg fun h => hquote (eq_of_beq h)]
  exact fun _ _ h _ => hback h

theorem closeQuote_escape (e : Char) (rest : List Char) :
    closeQuote quote ('\\' :: e :: rest) =
      ((closeQuote quote rest).1 + 2, (closeQuote quote rest).2) := by
  rw [closeQuote]

/-- A hexadecimal digit ends no string. -/
theorem closeQuote_digit (hquote : isQuote quote = true) {c : Char}
    (hc : (Number.digit? 16 c).isSome) (rest : List Char) :
    closeQuote quote (c :: rest) =
      ((closeQuote quote rest).1 + 1, (closeQuote quote rest).2) := by
  refine closeQuote_cons ?_ ?_ rest
  · rintro rfl
    simp only [isQuote, Bool.or_eq_true, beq_iff_eq] at hquote
    rcases hquote with rfl | rfl <;> revert hc <;> decide
  · rintro rfl
    revert hc
    decide

/-- **Reading stops where the lexer ends the string**: in front of the closing
quote, or, if there is none, at the end of the text. -/
theorem closeQuote_eq (hquote : isQuote quote = true) (cs : List Char) :
    closeQuote quote cs =
      ((source (stretches quote cs).1).length + ((stretches quote cs).2.take 1).length,
        !(stretches quote cs).2.isEmpty) := by
  fun_induction stretches quote cs with
  | case1 => rfl
  | case2 c rest hc =>
    obtain rfl := eq_of_beq hc
    rw [closeQuote, if_pos hc]
    · rfl
    · exact fun _ _ h _ => Lexer.ne_backslash_of_isQuote hquote h
  | case3 c rest hc he read left hs ih =>
    rw [hs] at ih
    rw [closeQuote_cons (by simpa using hc) (by simpa using he), ih]
    simp only [source, List.flatMap_cons, Stretch.source, List.length_append,
      List.length_singleton]
    congr 1
    omega
  | case4 c hc he =>
    obtain rfl : c = '\\' := by simpa using he
    rw [closeQuote, if_neg hc]
    · rfl
    · exact fun _ _ _ h => by cases h
  | case5 c hc he e after resolved hr read left hs ih
  | case7 c hc he e after hr hx read left hs ih =>
    obtain rfl : c = '\\' := by simpa using he
    rw [hs] at ih
    rw [closeQuote_escape, ih]
    simp only [source, List.flatMap_cons, Stretch.source, List.length_append, List.length_cons,
      List.length_nil]
    congr 1
    omega
  | case6 c hc he e after hr resolved n hx read left hs ih =>
    obtain rfl : c = '\\' := by simpa using he
    obtain ⟨rfl, rfl, high, low, rest, rfl, hhigh, hlow⟩ := hexEscape_eq_some hx
    rw [hs] at ih
    have ih : closeQuote quote rest = _ := ih
    rw [closeQuote_escape, closeQuote_digit hquote hhigh, closeQuote_digit hquote hlow, ih]
    simp only [source, List.flatMap_cons, Stretch.source, List.length_append, List.length_cons,
      List.length_nil, List.take_succ_cons, List.take_zero]
    congr 1
    omega

/-- Of a literal that the lexer has cut out, the closing quote alone is left. -/
theorem left_of_closeQuote (hquote : isQuote quote = true) {body : List Char} {closed : Bool}
    (h : closeQuote quote body = (body.length, closed)) :
    (stretches quote body).2 = if closed then [quote] else [] := by
  rw [closeQuote_eq hquote] at h
  obtain ⟨hlength, hclosed⟩ := Prod.mk.inj h
  have hbody := congrArg List.length (source_append_left quote body)
  rw [List.length_append] at hbody
  rcases left_eq quote body with hleft | ⟨more, hleft⟩
  · rw [hleft] at hclosed ⊢
    obtain rfl : closed = false := hclosed.symm
    rfl
  · rw [hleft] at hlength hbody hclosed ⊢
    obtain rfl : closed = true := hclosed.symm
    have hmore : more = [] := by
      simp only [List.take_succ_cons, List.take_zero, List.length_cons, List.length_nil]
        at hlength hbody
      exact List.eq_nil_of_length_eq_zero (by omega)
    rw [hmore]
    rfl

/-! ## What a literal means -/

section Equations

variable {c e : Char} {rest after : List Char}

theorem stretches_quote (hc : (c == quote) = true) :
    stretches quote (c :: rest) = ([], c :: rest) := by
  rw [stretches.eq_def quote (c :: rest)]
  simp [hc]

theorem stretches_plain (hc : ¬(c == quote) = true) (he : (c != '\\') = true) :
    stretches quote (c :: rest) =
      (.plain c :: (stretches quote rest).1, (stretches quote rest).2) := by
  rw [stretches.eq_def quote (c :: rest)]
  simp [hc, he]

theorem stretches_lone (hc : ¬(c == quote) = true) (he : ¬(c != '\\') = true) :
    stretches quote [c] = ([.lone], []) := by
  rw [stretches.eq_def quote [c]]
  simp [hc, he]

theorem stretches_named (hc : ¬(c == quote) = true) (he : ¬(c != '\\') = true)
    {resolved : Char} (hr : escape? e = some resolved) :
    stretches quote (c :: e :: after) =
      (.named e resolved :: (stretches quote after).1, (stretches quote after).2) := by
  rw [stretches.eq_def quote (c :: e :: after)]
  simp [hc, he, hr]

theorem stretches_coded (hc : ¬(c == quote) = true) (he : ¬(c != '\\') = true)
    (hr : escape? e = none) {resolved : Char} {n : Nat}
    (hx : cookBody.hexEscape e after = some (resolved, n)) :
    stretches quote (c :: e :: after) =
      (.coded e (after.take n) resolved :: (stretches quote (after.drop n)).1,
        (stretches quote (after.drop n)).2) := by
  rw [stretches.eq_def quote (c :: e :: after)]
  simp [hc, he, hr, hx]

theorem stretches_unknown (hc : ¬(c == quote) = true) (he : ¬(c != '\\') = true)
    (hr : escape? e = none) (hx : cookBody.hexEscape e after = none) :
    stretches quote (c :: e :: after) =
      (.unknown e :: (stretches quote after).1, (stretches quote after).2) := by
  rw [stretches.eq_def quote (c :: e :: after)]
  simp [hc, he, hr, hx]

end Equations

/-- A hexadecimal digit takes one byte. -/
theorem utf8Size_digit {c : Char} (h : (Number.digit? 16 c).isSome) : c.utf8Size = 1 := by
  have hle : c ≤ 'z' := by
    by_cases hdigit : '0' ≤ c ∧ c ≤ '9'
    · exact Char.le_trans hdigit.2 (by decide)
    by_cases hlower : 'a' ≤ c ∧ c ≤ 'z'
    · exact hlower.2
    by_cases hupper : 'A' ≤ c ∧ c ≤ 'Z'
    · exact Char.le_trans hupper.2 (by decide)
    · unfold Number.digit? at h
      rw [if_neg hdigit, if_neg hlower, if_neg hupper] at h
      cases h
  exact Char.utf8Size_eq_one_iff.mpr (UInt32.le_trans hle (by decide))

theorem add_width_escape (offset : Nat) (e : Char) :
    offset + width ['\\', e] = offset + 1 + e.utf8Size := by
  have hback : '\\'.utf8Size = 1 := rfl
  rw [width, List.foldr_cons, List.foldr_cons, List.foldr_nil, hback]
  omega

theorem add_width_hexEscape (offset : Nat) {e resolved : Char} {after : List Char} {n : Nat}
    (h : cookBody.hexEscape e after = some (resolved, n)) :
    offset + width ('\\' :: e :: after.take n) = offset + 2 + n := by
  obtain ⟨rfl, rfl, high, low, rest, rfl, hhigh, hlow⟩ := hexEscape_eq_some h
  have hx : 'x'.utf8Size = 1 := rfl
  have hback : '\\'.utf8Size = 1 := rfl
  simp only [List.take_succ_cons, List.take_zero, width, List.foldr_cons, List.foldr_nil,
    utf8Size_digit hhigh, utf8Size_digit hlow, hx, hback]

/-- **The meaning of a literal is that of its stretches**, and so are the
warnings about it. -/
theorem cookBody_eq (quote : Char) (base offset : Nat) (cs : List Char) :
    cookBody quote base offset cs =
      ((stretches quote cs).1.map Stretch.char, warnings base offset (stretches quote cs).1) := by
  fun_induction cookBody quote base offset cs with
  | case1 => rw [stretches]; rfl
  | case2 offset c rest hc => rw [stretches_quote hc]; rfl
  | case3 offset c rest hc he text found h ih =>
    obtain ⟨rfl, rfl⟩ := Prod.mk.inj (h.symm.trans ih)
    rw [stretches_plain hc he]
    rfl
  | case4 offset c hc he => rw [stretches_lone hc he]; rfl
  | case5 offset c hc he e after resolved hr text found h ih =>
    obtain ⟨rfl, rfl⟩ := Prod.mk.inj (h.symm.trans ih)
    rw [stretches_named hc he hr, ← add_width_escape]
    rfl
  | case6 offset c hc he e after hr resolved n hx text found h ih =>
    obtain ⟨rfl, rfl⟩ := Prod.mk.inj (h.symm.trans ih)
    rw [stretches_coded hc he hr hx, ← add_width_hexEscape offset hx]
    rfl
  | case7 offset c hc he e after hr hx span text found h ih =>
    obtain ⟨rfl, rfl⟩ := Prod.mk.inj (h.symm.trans ih)
    rw [stretches_unknown hc he hr hx, ← add_width_escape]
    rfl

/-- The warnings about literals have a code of their own. -/
theorem code_cook (raw : String) (base : Nat) : ∀ d ∈ (cook raw base).2, d.code = .e0005 := by
  have hwarnings (read : List Stretch) : ∀ offset, ∀ d ∈ warnings base offset read,
      d.code = .e0005 := by
    induction read with
    | nil => exact fun _ => nofun
    | cons stretch read ih =>
      refine fun offset => List.forall_mem_append.mpr ⟨?_, ih _⟩
      cases stretch with
      | unknown e => exact List.forall_mem_singleton.mpr rfl
      | _ => nofun
  unfold cook
  cases raw.toList with
  | nil => nofun
  | cons quote rest =>
    dsimp only
    rw [cookBody_eq]
    exact hwarnings _ _

end TargetView.Literal
