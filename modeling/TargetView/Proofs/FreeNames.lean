import TargetView.Proofs.Origins

/-! # The free names of a text

The free names of a text stand in ascending order, and no truth value is among
them.  A name with a colon is among them only as a path in a text that names the
intrinsic for the memory in use, and the name of an intrinsic only as an
identifier that is not called (`free_names_identified`).

Neither exception can be dropped (`free_names_not_only_identifiers`).
-/
namespace TargetView

/-! ## Identifiers are no paths -/

namespace Lexer

/-- The words of a text. -/
def wordsOf (text : List Char) : List Word := (lexemes 0 text).map Lexeme.word

theorem isNamePart_of_first {c : Char} {rest : List Char} {more : Nat} {closed : Bool}
    (h : first c rest = (.identifier, more, closed)) :
    ∀ d ∈ c :: rest.take more, isNamePart d = true := by
  unfold first at h
  dsimp only at h
  split at h
  · cases h
  · split at h
    · next hc =>
      cases h
      have hstart : isNamePart c = true := by rw [isNamePart, hc, Bool.true_or]
      refine List.forall_mem_cons.mpr ⟨hstart, fun d hd => ?_⟩
      rw [run, ← List.prefix_iff_eq_take.mp (List.takeWhile_prefix isNamePart)] at hd
      exact List.all_eq_true.mp List.all_takeWhile d hd
    · repeat' split at h
      all_goals cases h

theorem isNamePart_of_mem_lexemes (offset : Nat) (cs : List Char) :
    ∀ l ∈ lexemes offset cs, l.kind = .identifier → ∀ c ∈ l.chars, isNamePart c = true := by
  fun_induction lexemes offset cs with
  | case1 =>
    intro l hl
    cases hl
  | case2 offset c rest _ ih => exact ih
  | case3 offset c rest _ kind more closed hf chars ih =>
    intro l hl hk
    rcases List.mem_cons.mp hl with rfl | hl
    · obtain rfl : kind = .identifier := hk
      exact isNamePart_of_first hf
    · exact ih l hl hk

theorem isPath_of_mem_wordsOf {text : List Char} {name : String}
    (h : Word.name name ∈ wordsOf text) : isPath name = false := by
  obtain ⟨l, hl, hw⟩ := List.mem_map.mp h
  obtain ⟨hk, hname⟩ := Word.mk.inj hw
  rw [isPath, ← hname, String.toList_ofList]
  cases hc : l.chars.contains ':' with
  | false => rfl
  | true =>
    have hpart := isNamePart_of_mem_lexemes 0 text l hl hk ':' (List.contains_iff_mem.mp hc)
    exact absurd hpart (by decide)

end Lexer

namespace Word.Origin

variable {ws : List Word} {name : String}

/-- A name that is no path comes from an identifier. -/
theorem of_not_isPath (h : Origin ws name) (hpath : isPath name = false) :
    name ≠ "true" ∧ name ≠ "false" ∧ ∃ before after, ws = before ++ Word.name name :: after ∧
      ((Intrinsic.ofName? name).isSome = true → lead after ≠ some "(") := by
  cases h with
  | identifier hws ht hf hcall => exact ⟨ht, hf, _, _, hws, hcall⟩
  | path =>
    rw [isPath_intercalate] at hpath
    cases hpath

theorem ne_true (h : Origin ws name) : name ≠ "true" := by
  rintro rfl
  exact (h.of_not_isPath (by decide)).1 rfl

theorem ne_false (h : Origin ws name) : name ≠ "false" := by
  rintro rfl
  exact (h.of_not_isPath (by decide)).2.1 rfl

/-- The name of an intrinsic is an identifier that is not called. -/
theorem not_called {fn : Intrinsic} (h : Origin ws fn.name) :
    ∃ before after, ws = before ++ Word.name fn.name :: after ∧ lead after ≠ some "(" := by
  obtain ⟨-, -, before, after, hws, hcall⟩ := h.of_not_isPath (isPath_intrinsic fn)
  refine ⟨before, after, hws, hcall ?_⟩
  rw [Intrinsic.ofName?_name]
  rfl

/-- A path stands in a text that names the intrinsic for the memory in use. -/
theorem spelled {text : List Char} (h : Origin (Lexer.wordsOf text) name)
    (hpath : isPath name = true) :
    Word.name Intrinsic.calcMemUsed.name ∈ Lexer.wordsOf text ∧
      ∃ first second rest, name = ":".intercalate (first :: second :: rest) ∧
        Word.path first (second :: rest) <:+: Lexer.wordsOf text := by
  cases h with
  | @identifier _ before after hws =>
    have hmem : Word.name name ∈ Lexer.wordsOf text := by
      rw [hws]
      exact List.mem_append_right _ List.mem_cons_self
    rw [Lexer.isPath_of_mem_wordsOf hmem] at hpath
    cases hpath
  | @path first second rest hspelled hname =>
    exact ⟨hname, first, second, rest, rfl, hspelled⟩

end Word.Origin

/-! ## The expressions in a text -/

namespace Template

/-- The text between the brackets of a conversion. -/
def Piece.inner? : Piece → Option (List Char)
  | literal _ | percent => none
  | conversion _ _ inner _ => some inner

theorem parseAt_rooted (text : List Char) (base : Nat) :
    Parser.Rooted (Lexer.wordsOf text) (parseAt text base).1 := by
  rw [Lexer.wordsOf, ← Parser.words_start text base]
  exact Parser.whole_rooted _ (List.suffix_refl _)

theorem occurrences_flush (literal : List Char) (segments : List Segment) (span : Span) :
    (Body.template (flush literal segments) span).occurrences =
      (Body.template segments span).occurrences := by
  unfold flush
  split
  · rfl
  · rfl

/-- The names in a format text come from its conversions. -/
theorem assemble_rooted (span : Span) : ∀ (pieces : List Piece) (offset : Nat)
    (literal : List Char),
    ∀ name ∈ (Body.template (assemble offset literal pieces).1 span).occurrences,
      ∃ inner ∈ pieces.filterMap Piece.inner?, Word.Origin (Lexer.wordsOf inner) name
  | [], _, literal => by
    rw [assemble, occurrences_flush]
    intro name hname
    cases hname
  | .literal c :: rest, _, literal => assemble_rooted span rest _ (c :: literal)
  | .percent :: rest, _, literal => assemble_rooted span rest _ ('%' :: literal)
  | .conversion spec blanks inner closed :: rest, offset, literal => by
    rw [assemble]
    dsimp only
    rw [occurrences_flush]
    intro name hname
    rcases List.mem_append.mp hname with hname | hname
    · exact ⟨inner, List.mem_cons_self, parseAt_rooted inner _ name hname⟩
    · obtain ⟨i, hi, horigin⟩ := assemble_rooted span rest _ [] name hname
      exact ⟨i, List.mem_cons_of_mem _ hi, horigin⟩

/-- The texts of the expressions in a text: those between the brackets of the
conversions of a format text, and any other text itself. -/
def fragments (text : String) : List (List Char) :=
  if isFormat text.toList then (pieces text.toList).filterMap Piece.inner? else [text.toList]

end Template

theorem origin_of_mem_freeNames (text : String) :
    ∀ name ∈ (parse text).freeNames,
      ∃ fragment ∈ Template.fragments text, Word.Origin (Lexer.wordsOf fragment) name := by
  intro name hname
  have hoccurs : name ∈ (parse text).body.occurrences := mem_sortedNames.mp hname
  unfold parse at hoccurs
  unfold Template.fragments
  cases hf : Template.isFormat text.toList with
  | true =>
    rw [if_pos hf] at hoccurs
    rw [if_pos rfl]
    exact Template.assemble_rooted _ _ _ _ name hoccurs
  | false =>
    rw [if_neg (by rw [hf]; exact Bool.false_ne_true)] at hoccurs
    rw [if_neg Bool.false_ne_true]
    exact ⟨_, List.mem_singleton_self _, Template.parseAt_rooted _ 0 name hoccurs⟩

/-! ## Ascending names -/

theorem ascending_sortedNames (names : List String) : (sortedNames names).Pairwise (· < ·) := by
  have h : (sortedNames names).Pairwise fun a b => compare a b = .lt :=
    Std.ExtTreeSet.ordered_toList
  exact h.imp fun hlt => compareOfLessAndEq_eq_lt.mp hlt

/-- **What is among the free names.**  The free names of a text ascend, and
neither truth value is one of them.  A path is one only if it stands in an
expression that names the intrinsic for the memory in use, and the name of an
intrinsic only if it stands in an expression without being called. -/
theorem free_names_identified (text : String) :
    (parse text).freeNames.Pairwise (· < ·) ∧
    ∀ name ∈ (parse text).freeNames, name ≠ "true" ∧ name ≠ "false" ∧
      ∃ fragment ∈ Template.fragments text,
        (isPath name = true →
          Word.name Intrinsic.calcMemUsed.name ∈ Lexer.wordsOf fragment ∧
          ∃ first second rest, name = ":".intercalate (first :: second :: rest) ∧
            Word.path first (second :: rest) <:+: Lexer.wordsOf fragment) ∧
        (∀ fn : Intrinsic, name = fn.name →
          ∃ before after, Lexer.wordsOf fragment = before ++ Word.name fn.name :: after ∧
            Word.lead after ≠ some "(") := by
  refine ⟨ascending_sortedNames _, fun name hname => ?_⟩
  obtain ⟨fragment, hfragment, horigin⟩ := origin_of_mem_freeNames text name hname
  refine ⟨horigin.ne_true, horigin.ne_false, fragment, hfragment, horigin.spelled, ?_⟩
  rintro fn rfl
  exact horigin.not_called

/-- A path and the name of an intrinsic can be among the free names. -/
theorem free_names_not_only_identifiers :
    ¬ ∀ text : String, (parse text).freeNames.Pairwise (· < ·) ∧
      ∀ name ∈ (parse text).freeNames, isPath name = false ∧
        (∀ fn : Intrinsic, name ≠ fn.name) ∧ name ≠ "true" ∧ name ≠ "false" := by
  intro h
  have hmem : "a:b" ∈ (parse "__CalcMemUsed(a:b)").freeNames :=
    mem_sortedNames.mpr (by decide +kernel)
  exact absurd ((h _).2 _ hmem).1 (by decide)

end TargetView
