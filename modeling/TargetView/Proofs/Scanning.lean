import TargetView.Calculation
import TargetView.Template
import TargetView.Proofs.Stretches

/-! # Scans that agree with the lexer

The closing bracket of a conversion, the ends of the expressions of a calculation
and the text of a literal are found by scans of their own, which follow the
quotes character by character.  All of them agree with the lexer about where
strings are (`scans_agree`).

What such a scan sees of a text are the characters outside quotes
(`QuoteState.unquoted`).  Along the layout of the text these are the characters
of gaps and of bare lexemes, and the opening quotes.
-/
namespace TargetView

open Lexer

variable {offset depth n : Nat} {c quote : Char} {cs body rest : List Char} {ls : List Lexeme}
  {l : Lexeme}

/-! ## Characters outside quotes -/

namespace QuoteState

/-- The characters that have their own meaning. -/
def unquoted : QuoteState → List Char → List (Option Char)
  | _, [] => []
  | state, c :: rest =>
    (if state.isOutside then some c else none) :: unquoted (state.step c) rest

theorem length_unquoted (state : QuoteState) (cs : List Char) :
    (state.unquoted cs).length = cs.length := by
  induction cs generalizing state with
  | nil => rfl
  | cons c cs ih => exact congrArg (· + 1) (ih _)

theorem step_outside (h : isQuote c = false) : outside.step c = outside :=
  if_neg (Bool.eq_false_iff.mp h)

theorem unquoted_free (h : ∀ c ∈ cs, isQuote c = false) (rest : List Char) :
    outside.unquoted (cs ++ rest) = cs.map some ++ outside.unquoted rest := by
  induction cs with
  | nil => rfl
  | cons c cs ih =>
    obtain ⟨hc, hcs⟩ := List.forall_mem_cons.mp h
    rw [List.cons_append, unquoted, step_outside hc, ih hcs]
    rfl

/-- Between quotes nothing has its own meaning. -/
theorem unquoted_body (hquote : isQuote quote = true) {closed : Bool}
    (h : closeQuote quote body = (body.length, closed)) (hopen : closed = false → rest = []) :
    (inside quote).unquoted (body ++ rest) =
      List.replicate body.length none ++ outside.unquoted rest := by
  fun_induction closeQuote quote body with
  | case1 =>
    obtain rfl := hopen (Prod.mk.inj h).2.symm
    rfl
  | case2 e body n closed' hc ih =>
    obtain ⟨hn, rfl⟩ := Prod.mk.inj h
    have hbody : n = body.length := Nat.add_right_cancel hn
    exact congrArg (none :: none :: ·) (ih (hc.trans (congrArg (·, closed') hbody)))
  | case3 c body hne hc =>
    have hback : ¬(c == '\\') = true := by
      rw [eq_of_beq hc]
      simpa using ne_backslash_of_isQuote hquote
    obtain ⟨hlength, -⟩ := Prod.mk.inj h
    obtain rfl : body = [] := List.eq_nil_of_length_eq_zero (Nat.succ.inj hlength).symm
    rw [List.singleton_append, unquoted, step, if_neg hback, if_pos hc]
    rfl
  | case4 c body hne hc n closed' hclose ih =>
    obtain ⟨hn, rfl⟩ := Prod.mk.inj h
    have hbody : n = body.length := Nat.add_right_cancel hn
    by_cases hback : c = '\\'
    · -- A backslash at the end of the text leaves the string open.
      obtain rfl : body = [] := by
        cases body with
        | nil => rfl
        | cons e body => exact (hne e body hback rfl).elim
      cases hclose
      obtain rfl := hopen rfl
      rfl
    · have hback' : ¬(c == '\\') = true := by simpa using hback
      rw [List.cons_append, unquoted, step, if_neg hback', if_neg hc,
        ih (hclose.trans (congrArg (·, closed') hbody))]
      rfl

/-- Of a string, the opening quote alone is seen. -/
theorem unquoted_quoted (hl : l.IsQuoted quote body) (hopen : l.closed = false → rest = []) :
    outside.unquoted (l.chars ++ rest) =
      (some quote :: List.replicate body.length none) ++ outside.unquoted rest := by
  have hstep : outside.step quote = inside quote := if_pos hl.opens
  rw [hl.chars, List.cons_append, unquoted, hstep, unquoted_body hl.opens hl.close hopen]
  rfl

end QuoteState

/-! ## Brackets -/

namespace Template

/-- The lexemes hold no brackets but such that match each other. -/
inductive Balanced : List Lexeme → Prop
  | nil : Balanced []
  | other {l : Lexeme} {ls : List Lexeme} (hopen : ¬l.IsMark '[') (hclose : ¬l.IsMark ']')
      (h : Balanced ls) : Balanced (l :: ls)
  | group {first last : Lexeme} {inner ls : List Lexeme} (hopen : first.IsMark '[')
      (hinner : Balanced inner) (hclose : last.IsMark ']') (h : Balanced ls) :
      Balanced (first :: inner ++ last :: ls)

/-- The lexemes close brackets that were opened before them, as many as are
given, and all that they open themselves. -/
inductive Closes : Nat → List Lexeme → Prop
  | nil : Closes 0 []
  | other {depth : Nat} {l : Lexeme} {ls : List Lexeme} (hopen : ¬l.IsMark '[')
      (hclose : ¬l.IsMark ']') (h : Closes depth ls) : Closes depth (l :: ls)
  | bracket {depth : Nat} {l : Lexeme} {ls : List Lexeme} (hopen : l.IsMark '[')
      (h : Closes (depth + 1) ls) : Closes depth (l :: ls)
  | close {depth : Nat} {l : Lexeme} {ls : List Lexeme} (hclose : l.IsMark ']')
      (h : Closes depth ls) : Closes (depth + 1) (l :: ls)

theorem not_isMark {c d : Char} (h : l.IsMark c) (hcd : c ≠ d) : ¬l.IsMark d := by
  intro h'
  have heq : [c] = [d] := h.2.symm.trans h'.2
  exact hcd (List.singleton_inj.mp heq)

theorem Balanced.closes_append (h : Balanced ls) {more : List Lexeme}
    (hmore : Closes depth more) : Closes depth (ls ++ more) := by
  induction h generalizing depth more with
  | nil => exact hmore
  | other hopen hclose _ ih => exact .other hopen hclose (ih hmore)
  | group hopen _ hclose _ ihinner ih =>
    rw [List.append_assoc]
    exact .bracket hopen (ihinner (.close hclose (ih hmore)))

/-- Lexemes that close some brackets, cut behind each of these. -/
def ClosesGroups : Nat → List Lexeme → Prop
  | 0, ls => Balanced ls
  | depth + 1, ls => ∃ inner last more, ls = inner ++ last :: more ∧ Balanced inner ∧
      last.IsMark ']' ∧ ClosesGroups depth more

theorem Closes.groups (h : Closes depth ls) : ClosesGroups depth ls := by
  induction h with
  | nil => exact .nil
  | @other depth _ _ hopen hclose _ ih =>
    cases depth with
    | zero => exact .other hopen hclose ih
    | succ depth =>
      obtain ⟨inner, last, more, rfl, hinner, hlast, hmore⟩ := ih
      exact ⟨_ :: inner, last, more, rfl, .other hopen hclose hinner, hlast, hmore⟩
  | @bracket depth _ _ hopen _ ih =>
    obtain ⟨inner, last, more, rfl, hinner, hlast, hmore⟩ := ih
    cases depth with
    | zero => exact .group hopen hinner hlast hmore
    | succ depth =>
      obtain ⟨inner', last', more', rfl, hinner', hlast', hmore'⟩ := hmore
      exact ⟨_ :: inner ++ last :: inner', last', more', by simp,
        .group hopen hinner hlast hinner', hlast', hmore'⟩
  | close hclose _ ih => exact ⟨[], _, _, rfl, .nil, hclose, ih⟩

theorem closes_zero_iff : Closes 0 ls ↔ Balanced ls := by
  constructor
  · exact fun h => h.groups
  · intro h
    have hcloses := h.closes_append .nil
    rw [List.append_nil] at hcloses
    exact hcloses

/-- The first closing bracket behind all that matches, if some brackets are
open. -/
def unmatched? : Nat → List Lexeme → Option Lexeme
  | _, [] => none
  | depth, l :: ls =>
    if l.IsMark ']' then
      match depth with
      | 0 => some l
      | depth + 1 => unmatched? depth ls
    else if l.IsMark '[' then unmatched? (depth + 1) ls
    else unmatched? depth ls

theorem unmatched?_eq_some : unmatched? depth ls = some l ↔
    ∃ before after, ls = before ++ l :: after ∧ Closes depth before ∧ l.IsMark ']' := by
  induction ls generalizing depth with
  | nil => simp [unmatched?]
  | cons l' ls ih =>
    unfold unmatched?
    constructor
    · intro h
      split at h
      · next hclose =>
        cases depth with
        | zero =>
          obtain rfl := Option.some.inj h
          exact ⟨[], ls, rfl, .nil, hclose⟩
        | succ depth =>
          obtain ⟨before, after, rfl, hbefore, hl⟩ := ih.mp h
          exact ⟨l' :: before, after, rfl, .close hclose hbefore, hl⟩
      · next hclose =>
        split at h
        · next hopen =>
          obtain ⟨before, after, rfl, hbefore, hl⟩ := ih.mp h
          exact ⟨l' :: before, after, rfl, .bracket hopen hbefore, hl⟩
        · next hopen =>
          obtain ⟨before, after, rfl, hbefore, hl⟩ := ih.mp h
          exact ⟨l' :: before, after, rfl, .other hopen hclose hbefore, hl⟩
    · rintro ⟨before, after, heq, hbefore, hl⟩
      cases hbefore with
      | nil =>
        obtain ⟨rfl, rfl⟩ := List.cons.inj heq
        rw [if_pos hl]
      | other hopen hclose hrest =>
        obtain ⟨rfl, rfl⟩ := List.cons.inj heq
        rw [if_neg hclose, if_neg hopen]
        exact ih.mpr ⟨_, after, rfl, hrest, hl⟩
      | bracket hopen hrest =>
        obtain ⟨rfl, rfl⟩ := List.cons.inj heq
        rw [if_neg (not_isMark hopen (by decide)), if_pos hopen]
        exact ih.mpr ⟨_, after, rfl, hrest, hl⟩
      | close hclose hrest =>
        obtain ⟨rfl, rfl⟩ := List.cons.inj heq
        rw [if_pos hclose]
        exact ih.mpr ⟨_, after, rfl, hrest, hl⟩

/-- The number of characters in front of the first closing bracket that none of
them opens. -/
def closing? : Nat → List (Option Char) → Option Nat
  | _, [] => none
  | depth, c? :: rest =>
    if c? = some ']' then
      match depth with
      | 0 => some 0
      | depth + 1 => (closing? depth rest).map (1 + ·)
    else if c? = some '[' then (closing? (depth + 1) rest).map (1 + ·)
    else (closing? depth rest).map (1 + ·)

section Equations

variable {seen : List (Option Char)}

theorem closing?_open :
    closing? depth (some '[' :: seen) = (closing? (depth + 1) seen).map (1 + ·) := by
  rw [closing?.eq_def]
  exact (if_neg nofun).trans (if_pos rfl)

theorem closing?_other {c? : Option Char} (hclose : c? ≠ some ']') (hopen : c? ≠ some '[') :
    closing? depth (c? :: seen) = (closing? depth seen).map (1 + ·) := by
  rw [closing?.eq_def]
  exact (if_neg hclose).trans (if_neg hopen)

end Equations

/-- The scan for the closing bracket looks at the characters outside quotes. -/
theorem bracketEnd_eq (state : QuoteState) (depth : Nat) (cs : List Char) :
    bracketEnd state depth cs = closing? depth (state.unquoted cs) := by
  induction cs generalizing state depth with
  | nil => rfl
  | cons c cs ih =>
    have hsucc (x : Option Nat) : x.map (· + 1) = x.map (1 + ·) := by simp [Nat.add_comm]
    rw [bracketEnd.eq_def, QuoteState.unquoted]
    dsimp only
    simp only [ih, hsucc]
    by_cases hout : state.isOutside = true
    · rw [if_pos hout, hout, Bool.true_and, Bool.true_and]
      by_cases hclose : c = ']'
      · subst hclose
        cases depth with
        | zero => rfl
        | succ depth => rfl
      · by_cases hopen : c = '['
        · subst hopen
          exact closing?_open.symm
        · rw [if_neg (by simpa using hclose), if_neg (by simpa using hopen),
            closing?_other (by simpa using hclose) (by simpa using hopen)]
    · rw [if_neg hout, Bool.eq_false_iff.mpr hout, Bool.false_and, Bool.false_and]
      exact (closing?_other (Option.some_ne_none _).symm (Option.some_ne_none _).symm).symm

theorem closing?_lt {seen : List (Option Char)} (h : closing? depth seen = some n) :
    n < seen.length := by
  induction seen generalizing depth n with
  | nil => cases h
  | cons c? seen ih =>
    have hbehind {depth : Nat} (h : (closing? depth seen).map (1 + ·) = some n) :
        n < (c? :: seen).length := by
      obtain ⟨m, hm, rfl⟩ := Option.map_eq_some_iff.mp h
      rw [List.length_cons, Nat.add_comm]
      exact Nat.succ_lt_succ (ih hm)
    by_cases hclose : c? = some ']'
    · subst hclose
      cases depth with
      | zero =>
        obtain rfl := Option.some.inj h
        exact Nat.succ_pos _
      | succ depth => exact hbehind h
    · by_cases hopen : c? = some '['
      · subst hopen
        exact hbehind (closing?_open.symm.trans h)
      · exact hbehind ((closing?_other hclose hopen).symm.trans h)

/-- Where there are no brackets, the scan goes on. -/
theorem closing?_append {front : List (Option Char)}
    (hfront : ∀ c? ∈ front, c? ≠ some ']' ∧ c? ≠ some '[') (seen : List (Option Char)) :
    closing? depth (front ++ seen) = (closing? depth seen).map (front.length + ·) := by
  induction front with
  | nil => simp
  | cons c? front ih =>
    obtain ⟨⟨hclose, hopen⟩, hfront⟩ := List.forall_mem_cons.mp hfront
    rw [List.cons_append, closing?_other hclose hopen, ih hfront, Option.map_map]
    congr 1
    funext n
    rw [Function.comp_apply, List.length_cons]
    omega

/-- A place behind some characters. -/
theorem map_behind (front rest : List Char) (offset : Nat) (x : Option Nat) :
    (x.map (front.length + ·)).map (fun n => offset + width ((front ++ rest).take n)) =
      x.map fun n => offset + width front + width (rest.take n) := by
  rw [Option.map_map]
  congr 1
  funext n
  rw [Function.comp_apply, List.take_length_add_append, width_append, Nat.add_assoc]

/-- **The scan for the closing bracket finds the first one among the lexemes that
has no opening one.** -/
theorem closing?_layout (h : Layout offset cs ls) (depth : Nat) :
    (closing? depth (QuoteState.outside.unquoted cs)).map (fun n => offset + width (cs.take n)) =
      (unmatched? depth ls).map (·.offset) := by
  induction h generalizing depth with
  | nil => rfl
  | @gap offset c rest ls hc h ih =>
    have hother : ∀ c? ∈ [some c], c? ≠ some ']' ∧ c? ≠ some '[' := by
      refine List.forall_mem_singleton.mpr ⟨?_, ?_⟩
      all_goals
        rintro ⟨⟩
        cases hc
    rw [← List.singleton_append, QuoteState.unquoted_free
      (List.forall_mem_singleton.mpr (not_special_of_isGap hc).1), List.map_singleton,
      closing?_append hother]
    exact (map_behind [c] rest offset _).trans (ih depth)
  | @bare l rest ls hl h ih =>
    rw [QuoteState.unquoted_free fun c hc => (hl.free c hc).2]
    unfold unmatched?
    by_cases hclose : l.IsMark ']'
    · rw [if_pos hclose, hclose.2]
      rw [hclose.2] at ih
      cases depth with
      | zero => rfl
      | succ depth => exact (map_behind [']'] rest l.offset _).trans (ih depth)
    · rw [if_neg hclose]
      by_cases hopen : l.IsMark '['
      · rw [if_pos hopen, hopen.2]
        rw [hopen.2] at ih
        refine (congrArg (Option.map _) closing?_open).trans ?_
        exact (map_behind ['['] rest l.offset _).trans (ih (depth + 1))
      · rw [if_neg hopen, closing?_append]
        · rw [List.length_map]
          exact (map_behind l.chars rest l.offset _).trans (ih depth)
        · intro c? hc?
          obtain ⟨c, hc, rfl⟩ := List.mem_map.mp hc?
          refine ⟨?_, ?_⟩
          · rintro ⟨⟩
            exact hclose (hl.alone _ hc rfl)
          · rintro ⟨⟩
            exact hopen (hl.alone _ hc rfl)
  | @quoted l quote body rest ls hl hopen h ih =>
    rw [QuoteState.unquoted_quoted hl hopen, closing?_append]
    · unfold unmatched?
      rw [if_neg (hl.not_isMark _), if_neg (hl.not_isMark _)]
      have hlength : (some quote :: List.replicate body.length none).length = l.chars.length := by
        rw [hl.chars, List.length_cons, List.length_replicate, List.length_cons]
      rw [hlength]
      exact (map_behind l.chars rest l.offset _).trans (ih depth)
    · have hquote := not_alone_of_isQuote hl.opens
      refine List.forall_mem_cons.mpr ⟨⟨?_, ?_⟩, fun c? hc? => ?_⟩
      · rintro ⟨⟩
        cases hquote
      · rintro ⟨⟩
        cases hquote
      · rw [List.eq_of_mem_replicate hc?]
        exact ⟨nofun, nofun⟩

/-- The scan stops at the first bracket without an opening one. -/
theorem bracketEnd_eq_some (cs : List Char) (n : Nat) :
    bracketEnd .outside 0 cs = some n ↔
      ∃ before l after, lexemes 0 cs = before ++ l :: after ∧ Balanced before ∧
        l.IsMark ']' ∧ n < cs.length ∧ l.offset = width (cs.take n) := by
  have hlayout := closing?_layout (layout_lexemes 0 cs) 0
  rw [← bracketEnd_eq] at hlayout
  simp only [Nat.zero_add] at hlayout
  constructor
  · intro h
    rw [h] at hlayout
    obtain ⟨l, hl, hoffset⟩ := Option.map_eq_some_iff.mp hlayout.symm
    obtain ⟨before, after, hls, hbefore, hmark⟩ := unmatched?_eq_some.mp hl
    rw [bracketEnd_eq] at h
    have hlt := closing?_lt h
    rw [QuoteState.length_unquoted] at hlt
    exact ⟨before, l, after, hls, closes_zero_iff.mp hbefore, hmark, hlt, hoffset⟩
  · rintro ⟨before, l, after, hls, hbefore, hmark, hlt, hoffset⟩
    rw [unmatched?_eq_some.mpr ⟨before, after, hls, closes_zero_iff.mpr hbefore, hmark⟩]
      at hlayout
    obtain ⟨m, hm, hwidth⟩ := Option.map_eq_some_iff.mp hlayout
    have hm' := hm
    rw [bracketEnd_eq] at hm'
    have hmlt := closing?_lt hm'
    rw [QuoteState.length_unquoted] at hmlt
    rw [hm, eq_of_width_take (Nat.le_of_lt hmlt) (Nat.le_of_lt hlt) (hwidth.trans hoffset)]

/-- The scan finds nothing only if every bracket has an opening one. -/
theorem bracketEnd_eq_none (cs : List Char) :
    bracketEnd .outside 0 cs = none ↔
      ¬∃ before l after, lexemes 0 cs = before ++ l :: after ∧ Balanced before ∧
        l.IsMark ']' := by
  have hlayout := closing?_layout (layout_lexemes 0 cs) 0
  rw [← bracketEnd_eq] at hlayout
  constructor
  · rintro h ⟨before, l, after, hls, hbefore, hmark⟩
    rw [h, unmatched?_eq_some.mpr ⟨before, after, hls, closes_zero_iff.mpr hbefore, hmark⟩]
      at hlayout
    cases hlayout
  · intro h
    cases hn : bracketEnd .outside 0 cs with
    | none => rfl
    | some n =>
      obtain ⟨before, l, after, hls, hbefore, hmark, -⟩ := (bracketEnd_eq_some cs n).mp hn
      exact absurd ⟨before, l, after, hls, hbefore, hmark⟩ h

end Template

/-! ## The ends of expressions -/

namespace Lexer

/-- The characters with their byte offsets. -/
def placed (offset : Nat) : List Char → List (Char × Nat)
  | [] => []
  | c :: rest => (c, offset) :: placed (offset + c.utf8Size) rest

theorem map_fst_placed (offset : Nat) (cs : List Char) :
    (placed offset cs).map Prod.fst = cs := by
  induction cs generalizing offset with
  | nil => rfl
  | cons c cs ih => exact congrArg (c :: ·) (ih _)

theorem placed_append (offset : Nat) (cs ds : List Char) :
    placed offset (cs ++ ds) = placed offset cs ++ placed (offset + width cs) ds := by
  induction cs generalizing offset with
  | nil => rfl
  | cons c cs ih =>
    rw [List.cons_append, placed, placed, ih, List.cons_append, Nat.add_assoc]
    rfl

theorem mem_placed {p : Char × Nat} (h : p ∈ placed offset cs) :
    p.1 ∈ cs ∧ offset ≤ p.2 ∧ p.2 < offset + width cs := by
  induction cs generalizing offset with
  | nil => cases h
  | cons c cs ih =>
    have hpos := c.utf8Size_pos
    have hwidth : width (c :: cs) = c.utf8Size + width cs := rfl
    rcases List.mem_cons.mp h with rfl | h
    · refine ⟨List.mem_cons_self, Nat.le_refl _, ?_⟩
      omega
    · obtain ⟨hmem, hle, hlt⟩ := ih h
      refine ⟨List.mem_cons_of_mem _ hmem, ?_, ?_⟩
      · omega
      · omega

/-- The byte is one of the lexeme. -/
def Lexeme.Covers (l : Lexeme) (pos : Nat) : Prop :=
  l.offset ≤ pos ∧ pos < l.offset + width l.chars

instance (l : Lexeme) (pos : Nat) : Decidable (l.Covers pos) :=
  inferInstanceAs (Decidable (_ ∧ _))

end Lexer

namespace Calculation

/-- The character with the given byte offset ends an expression: it is a semicolon
by itself, or a line end within no string. -/
def IsCut (ls : List Lexeme) (pos : Nat) (c : Char) : Prop :=
  (∃ l ∈ ls, l.IsMark ';' ∧ l.offset = pos) ∨
    ((c = '\n' ∨ c = '\r') ∧ ∀ l ∈ ls, l.kind = .string → ¬l.Covers pos)

instance (ls : List Lexeme) (pos : Nat) (c : Char) : Decidable (IsCut ls pos c) :=
  inferInstanceAs (Decidable (_ ∨ _))

variable {pos : Nat}

/-- A lexeme ends no expression behind itself. -/
theorem isCut_cons_of_le (h : l.offset + width l.chars ≤ pos) :
    IsCut (l :: ls) pos c ↔ IsCut ls pos c := by
  have hcovers : ¬l.Covers pos := fun hl => Nat.not_lt.mpr h hl.2
  have hmark : ¬(l.IsMark ';' ∧ l.offset = pos) := by
    rintro ⟨⟨-, hchars⟩, rfl⟩
    rw [hchars] at h
    exact absurd h (Nat.not_le.mpr (Nat.lt_succ_self _))
  unfold IsCut
  simp [hcovers, hmark]

/-- In front of all lexemes only line ends end an expression. -/
theorem isCut_of_lt (h : ∀ l ∈ ls, pos < l.offset) : IsCut ls pos c ↔ c = '\n' ∨ c = '\r' := by
  constructor
  · rintro (⟨l, hl, -, rfl⟩ | ⟨hc, -⟩)
    · exact absurd (h l hl) (Nat.lt_irrefl _)
    · exact hc
  · exact fun hc => .inr ⟨hc, fun l hl _ hcovers => absurd hcovers.1 (Nat.not_le.mpr (h l hl))⟩

theorem isSeparator_eq_true : isSeparator c = true ↔ c = ';' ∨ c = '\n' ∨ c = '\r' := by
  simp [isSeparator, or_assoc]

theorem isCut_gap (hc : isGap c = true) (h : ∀ l ∈ ls, pos < l.offset) :
    IsCut ls pos c ↔ isSeparator c = true := by
  rw [isCut_of_lt h, isSeparator_eq_true]
  refine ⟨.inr, fun hsep => hsep.resolve_left ?_⟩
  rintro rfl
  cases hc

/-- In a bare lexeme a character ends an expression if it is a semicolon. -/
theorem isCut_bare (hl : l.IsBare) (h : ∀ l' ∈ ls, l.offset + width l.chars ≤ l'.offset)
    (hc : (c, pos) ∈ placed l.offset l.chars) :
    IsCut (l :: ls) pos c ↔ isSeparator c = true := by
  obtain ⟨hmem, hle, hlt⟩ := mem_placed hc
  have hgap := (hl.free c hmem).1
  have hline : ¬(c = '\n' ∨ c = '\r') := by
    rintro (rfl | rfl)
    · cases hgap
    · cases hgap
  rw [isSeparator_eq_true]
  constructor
  · rintro (⟨l', hl', hmark, hpos⟩ | ⟨hc, -⟩)
    · rcases List.mem_cons.mp hl' with rfl | hl'
      · rw [hmark.2] at hmem
        exact .inl (List.mem_singleton.mp hmem)
      · have hoffset := h l' hl'
        omega
    · exact absurd hc hline
  · rintro (rfl | hc')
    · have hmark := hl.alone _ hmem rfl
      refine .inl ⟨l, List.mem_cons_self, hmark, ?_⟩
      rw [hmark.2] at hlt
      exact Nat.le_antisymm hle (Nat.le_of_lt_succ hlt)
    · exact absurd hc' hline

/-- In a string nothing ends an expression. -/
theorem not_isCut_quoted (hl : l.IsQuoted quote body)
    (h : ∀ l' ∈ ls, l.offset + width l.chars ≤ l'.offset)
    (hc : (c, pos) ∈ placed l.offset l.chars) : ¬IsCut (l :: ls) pos c := by
  obtain ⟨-, hle, hlt⟩ := mem_placed hc
  rintro (⟨l', hl', hmark, hpos⟩ | ⟨-, hstrings⟩)
  · rcases List.mem_cons.mp hl' with rfl | hl'
    · exact hl.not_isMark _ hmark
    · have hoffset := h l' hl'
      omega
  · exact hstrings l List.mem_cons_self hl.kind ⟨hle, hlt⟩

theorem map_isCut_quoted (hl : l.IsQuoted quote body)
    (h : ∀ l' ∈ ls, l.offset + width l.chars ≤ l'.offset) :
    (placed l.offset l.chars).map (fun p => decide (IsCut (l :: ls) p.2 p.1)) =
      List.replicate l.chars.length false := by
  refine List.eq_replicate_iff.mpr ⟨?_, fun b hb => ?_⟩
  · rw [List.length_map, ← List.length_map Prod.fst, map_fst_placed]
  · obtain ⟨p, hp, rfl⟩ := List.mem_map.mp hb
    exact decide_eq_false (not_isCut_quoted hl h hp)

theorem not_isSeparator_of_isQuote (h : isQuote c = true) : isSeparator c = false := by
  simp only [isQuote, Bool.or_eq_true, beq_iff_eq] at h
  rcases h with rfl | rfl <;> rfl

theorem map_isCut_behind (offset : Nat) (cs : List Char) (h : l.offset + width l.chars ≤ offset) :
    (placed offset cs).map (fun p => decide (IsCut (l :: ls) p.2 p.1)) =
      (placed offset cs).map (fun p => decide (IsCut ls p.2 p.1)) :=
  List.map_congr_left fun _ hp =>
    decide_eq_decide.mpr (isCut_cons_of_le (Nat.le_trans h (mem_placed hp).2.1))

/-- **The characters that end expressions are the separators outside quotes.** -/
theorem map_isCut (h : Layout offset cs ls) :
    (placed offset cs).map (fun p => decide (IsCut ls p.2 p.1)) =
      (QuoteState.outside.unquoted cs).map fun c? => c?.any isSeparator := by
  induction h with
  | nil => rfl
  | @gap offset c rest ls hc h ih =>
    have hlt : ∀ l ∈ ls, offset < l.offset := fun l hl =>
      Nat.lt_of_lt_of_le (Nat.lt_add_of_pos_right c.utf8Size_pos) (h.le_offset l hl)
    have hstep := QuoteState.step_outside (not_special_of_isGap hc).1
    rw [placed, List.map_cons, QuoteState.unquoted, List.map_cons, hstep, ih]
    exact congrArg (· :: _) (Bool.eq_iff_iff.mpr (decide_eq_true_iff.trans (isCut_gap hc hlt)))
  | @bare l rest ls hl h ih =>
    rw [placed_append, List.map_append, map_isCut_behind _ _ (Nat.le_refl _), ih,
      QuoteState.unquoted_free fun c hc => (hl.free c hc).2, List.map_append]
    congr 1
    rw [← map_fst_placed l.offset l.chars, List.map_map, List.map_map, map_fst_placed]
    refine List.map_congr_left fun p hp => ?_
    exact Bool.eq_iff_iff.mpr (decide_eq_true_iff.trans (isCut_bare hl h.le_offset hp))
  | @quoted l quote body rest ls hl hopen h ih =>
    rw [placed_append, List.map_append, map_isCut_behind _ _ (Nat.le_refl _), ih,
      QuoteState.unquoted_quoted hl hopen, List.map_append]
    congr 1
    rw [map_isCut_quoted hl h.le_offset, hl.chars, List.map_cons, List.map_replicate,
      Option.any_some, not_isSeparator_of_isQuote hl.opens]
    rfl

theorem any_unquoted (state : QuoteState) (c : Char) :
    (if state.isOutside then some c else none : Option Char).any isSeparator =
      (state.isOutside && isSeparator c) := by
  cases state.isOutside <;> rfl

/-- A separator leaves the scan outside quotes. -/
theorem step_of_isSeparator {state : QuoteState} (h : (state.isOutside && isSeparator c) = true) :
    state.step c = state := by
  obtain ⟨hout, hc⟩ := Bool.and_eq_true_iff.mp h
  cases state with
  | outside =>
    rcases isSeparator_eq_true.mp hc with rfl | rfl | rfl <;> rfl
  | inside quote => cases hout
  | escaped quote => cases hout

/-- The scan cuts at the separators outside quotes. -/
theorem cut_eq (state : QuoteState) {seen : List (Char × Nat)} {isEnd : Char × Nat → Bool}
    (h : seen.map isEnd =
      (state.unquoted (seen.map Prod.fst)).map fun c? => c?.any isSeparator) :
    cut state (seen.map Prod.fst) = (seen.splitOnP isEnd).map (·.map Prod.fst) := by
  induction seen generalizing state with
  | nil => rfl
  | cons p seen ih =>
    obtain ⟨hp, hseen⟩ := List.cons.inj h
    have ih := ih (state.step p.1) hseen
    have hp := hp.trans (any_unquoted state p.1)
    rw [List.map_cons, cut, List.splitOnP_cons_eq_if_modifyHead, hp]
    by_cases hend : (state.isOutside && isSeparator p.1) = true
    · rw [if_pos hend, if_pos hend, List.map_cons, ← ih, step_of_isSeparator hend]
      rfl
    · rw [if_neg hend, if_neg hend, ih]
      cases hpieces : seen.splitOnP isEnd with
      | nil => exact absurd hpieces (List.splitOnP_ne_nil _ _)
      | cons piece more => rfl

/-- **A calculation is split where the lexer sees ends of expressions.** -/
theorem split_eq (cs : List Char) :
    split (String.ofList cs) =
      ((((placed 0 cs).splitOnP fun p => decide (IsCut (lexemes 0 cs) p.2 p.1)).map
        fun piece => Text.trim (piece.map Prod.fst)).filter
          fun piece => !piece.isEmpty).map String.ofList := by
  have hcuts := map_isCut (layout_lexemes 0 cs)
  have hcut := cut_eq .outside (hcuts.trans (by rw [map_fst_placed]))
  rw [map_fst_placed] at hcut
  rw [split, String.toList_ofList, hcut, List.map_map]
  rfl

end Calculation

/-! ## Strings -/

/-- **Reading a literal takes in what the lexer has cut out**: of a string the
closing quote alone is left. -/
theorem Lexer.Layout.cook_strings (h : Layout offset cs ls) :
    ∀ l ∈ ls, l.kind = .string → ∃ quote body, l.chars = quote :: body ∧
      Literal.source (Literal.stretches quote body).1 ++ (if l.closed then [quote] else []) =
        body ∧
      (Literal.stretches quote body).2 = (if l.closed then [quote] else []) ∧
      ∀ base, Literal.cook (String.ofList l.chars) base =
        (String.ofList ((Literal.stretches quote body).1.map Literal.Stretch.char),
          Literal.warnings base quote.utf8Size (Literal.stretches quote body).1) := by
  induction h with
  | nil => nofun
  | gap hc h ih => exact ih
  | bare hl h ih => exact List.forall_mem_cons.mpr ⟨fun hkind => absurd hkind hl.kind, ih⟩
  | @quoted l quote body rest ls hl hopen h ih =>
    refine List.forall_mem_cons.mpr ⟨fun _ => ⟨quote, body, hl.chars, ?_, ?_, fun base => ?_⟩, ih⟩
    · rw [← Literal.left_of_closeQuote hl.opens hl.close, Literal.source_append_left]
    · exact Literal.left_of_closeQuote hl.opens hl.close
    · rw [Literal.cook, String.toList_ofList, hl.chars]
      dsimp only
      rw [Literal.cookBody_eq]

/-- **The scans agree with the lexer on strings.**  The closing bracket of a
conversion is the first one among the lexemes behind the opening bracket that has
no opening one among them, and there is none only if there is no such lexeme.  A
calculation is split at the semicolons that are lexemes, and at the line ends
within no string; what counts are the pieces that are not blank.  Of a string,
the literal is read up to the closing quote that the lexer found, or to the
end. -/
theorem scans_agree (cs : List Char) :
    (∀ n, Template.bracketEnd .outside 0 cs = some n ↔
      ∃ before l after, lexemes 0 cs = before ++ l :: after ∧ Template.Balanced before ∧
        l.IsMark ']' ∧ n < cs.length ∧ l.offset = width (cs.take n)) ∧
    (Template.bracketEnd .outside 0 cs = none ↔
      ¬∃ before l after, lexemes 0 cs = before ++ l :: after ∧ Template.Balanced before ∧
        l.IsMark ']') ∧
    Calculation.split (String.ofList cs) =
      ((((placed 0 cs).splitOnP fun p => decide (Calculation.IsCut (lexemes 0 cs) p.2 p.1)).map
        fun piece => Text.trim (piece.map Prod.fst)).filter
          fun piece => !piece.isEmpty).map String.ofList ∧
    ∀ l ∈ lexemes 0 cs, l.kind = .string → ∃ quote body, l.chars = quote :: body ∧
      Literal.source (Literal.stretches quote body).1 ++ (if l.closed then [quote] else []) =
        body ∧
      (Literal.stretches quote body).2 = (if l.closed then [quote] else []) ∧
      ∀ base, Literal.cook (String.ofList l.chars) base =
        (String.ofList ((Literal.stretches quote body).1.map Literal.Stretch.char),
          Literal.warnings base quote.utf8Size (Literal.stretches quote body).1) :=
  ⟨Template.bracketEnd_eq_some cs, Template.bracketEnd_eq_none cs, Calculation.split_eq cs,
    (layout_lexemes 0 cs).cook_strings⟩

end TargetView
