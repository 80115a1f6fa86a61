import TargetView.Proofs.Boundaries
import TargetView.Proofs.Completeness

/-! # How a format text is segmented

Whether a text is a format text is found out at each percent sign by itself, and
the text is cut from left to right.  Both agree, and cutting loses nothing
(`segmentation`): the pieces make up the text, the segments hold what the pieces
contribute, and the one finding about brackets says that the last piece was left
open.

The parser cannot make a finding about brackets, since it sees the inner text of
a conversion only (`Template.code_parseAt`).
-/
namespace TargetView

/-- No step of the parser reports a bracket of a conversion. -/
def Parser.withoutBrackets : Correspondence where
  Spans _ _ := True
  Tokens t t' := t' = t
  Findings d _ := d.code ≠ .e3001
  kind h := congrArg Token.kind h
  text h := congrArg Token.text h
  span _ := trivial
  merge _ _ := trivial
  point _ := trivial
  error _ he hcode := by
    rw [Diagnostic.isSyntaxError, hcode, ErrorCode.isSyntactic, Bool.and_false] at he
    cases he
  inexact _ _ _ _ := nofun
  warnings h _ := by
    rw [h]
    refine List.forall₂_same.mpr fun d hd => ?_
    rw [Literal.code_cook _ _ d hd]
    nofun

namespace Template

variable {cs : List Char} {ps : List Piece}

theorem code_parseAt (text : List Char) (base : Nat) :
    ∀ d ∈ (parseAt text base).2, d.code ≠ .e3001 := by
  obtain ⟨-, hfindings⟩ := parseAt_corresponds Parser.withoutBrackets text base base
    (fun _ _ => rfl) rfl
  exact List.forall₂_same.mp hfindings

/-! ## Findings about brackets -/

/-- The findings about the brackets of conversions. -/
def bracketFindings (ds : List Diagnostic) : List Diagnostic := ds.filter (·.code == .e3001)

theorem bracketFindings_eq_nil {ds : List Diagnostic} (h : ∀ d ∈ ds, d.code ≠ .e3001) :
    bracketFindings ds = [] := by
  refine List.filter_eq_nil_iff.mpr fun d hd => ?_
  rw [beq_iff_eq]
  exact h d hd

theorem code_survey (segments : List Segment) : ∀ d ∈ survey segments, d.code = .e2001 := by
  intro d hd
  obtain ⟨segment, -, hd⟩ := List.mem_flatMap.mp hd
  cases segment with
  | text s => cases hd
  | format spec e => exact e.code_survey d hd

/-- Of the findings about a piece, those about its brackets are that it is left
open. -/
theorem bracketFindings_findings (offset : Nat) (piece : Piece) :
    bracketFindings (piece.findings offset) = piece.unterminated offset := by
  cases piece with
  | literal c => rfl
  | percent => rfl
  | conversion spec blanks inner closed =>
    have hinner := bracketFindings_eq_nil
      (code_parseAt inner (min (Piece.base offset spec blanks) Span.limit))
    unfold bracketFindings at hinner ⊢
    rw [Piece.findings, List.filter_append, hinner, List.append_nil]
    cases closed <;> rfl

theorem bracketFindings_assemble (ps : List Piece) :
    bracketFindings (assemble 0 [] ps).2 =
      (located 0 ps).flatMap fun p => p.2.unterminated p.1 := by
  rw [findings_assemble, bracketFindings, List.filter_flatMap]
  exact congrArg (List.flatMap · _) (funext fun p => bracketFindings_findings p.1 p.2)

theorem unterminated_of_isClosed {piece : Piece} (h : piece.isClosed = true) (offset : Nat) :
    piece.unterminated offset = [] := by
  cases piece with
  | literal c => rfl
  | percent => rfl
  | conversion spec blanks inner closed =>
    obtain rfl : closed = true := h
    rfl

theorem unterminated_eq_nil (h : ∀ piece ∈ ps, piece.isClosed = true) (offset : Nat) :
    ((located offset ps).flatMap fun p => p.2.unterminated p.1) = [] := by
  induction ps generalizing offset with
  | nil => rfl
  | cons piece rest ih =>
    obtain ⟨hpiece, hrest⟩ := List.forall_mem_cons.mp h
    rw [located, List.flatMap_cons, ih hrest, List.append_nil]
    exact unterminated_of_isClosed hpiece offset

theorem located_append (ps qs : List Piece) (offset : Nat) :
    located offset (ps ++ qs) =
      located offset ps ++ located (offset + Lexer.width (ps.flatMap Piece.source)) qs := by
  induction ps generalizing offset with
  | nil => rfl
  | cons piece rest ih =>
    rw [List.cons_append, located, located, ih, List.cons_append, List.flatMap_cons,
      Lexer.width_append, Nat.add_assoc]

/-- The findings about brackets, whether the text is a format text or not. -/
theorem bracketFindings_parse (text : String) :
    bracketFindings (parse text).diagnostics =
      (located 0 (pieces text.toList)).flatMap fun p => p.2.unterminated p.1 := by
  by_cases hf : isFormat text.toList = true
  · rw [parse_of_isFormat hf]
    have hsurvey : bracketFindings (survey (ofChars text.toList).1) = [] := by
      refine bracketFindings_eq_nil fun d hd => ?_
      rw [code_survey _ d hd]
      nofun
    unfold bracketFindings at hsurvey
    dsimp only
    rw [bracketFindings, List.filter_append, Body.survey, hsurvey, List.append_nil]
    exact bracketFindings_assemble _
  · rw [Bool.not_eq_true] at hf
    have hpieces := (cut_pieces text.toList).eq_literals hf
    have hclosed : ∀ piece ∈ pieces text.toList, piece.isClosed = true := by
      rw [hpieces]
      exact List.forall_mem_map.mpr fun _ _ => rfl
    rw [unterminated_eq_nil hclosed, parse_of_not_isFormat hf]
    refine bracketFindings_eq_nil (List.forall_mem_append.mpr ⟨code_parseAt _ _, fun d hd => ?_⟩)
    rw [Expr.code_survey _ d hd]
    nofun

/-! ## Texts without conversions -/

theorem length_located (ps : List Piece) (offset : Nat) :
    (located offset ps).length = ps.length := by
  induction ps generalizing offset with
  | nil => rfl
  | cons piece rest ih => exact congrArg (· + 1) (ih _)

/-- Literal characters are kept until a segment ends. -/
theorem assemble_literals (cs : List Char) (ps : List Piece) (offset : Nat) (literal : List Char) :
    assemble offset literal (cs.map .literal ++ ps) =
      assemble (offset + Lexer.width cs) (cs.reverse ++ literal) ps := by
  induction cs generalizing offset literal with
  | nil => rfl
  | cons c cs ih =>
    have hwidth : offset + c.utf8Size + Lexer.width cs = offset + Lexer.width (c :: cs) :=
      Nat.add_assoc _ _ _
    rw [List.reverse_cons, List.append_assoc, ← hwidth]
    exact ih _ _

/-- A piece is a literal character, or it is longer than one. -/
theorem Piece.eq_literal_or (piece : Piece) :
    (∃ c, piece = .literal c) ∨ 1 < piece.source.length := by
  cases piece with
  | literal c => exact .inl ⟨c, rfl⟩
  | percent => exact .inr (Nat.lt_succ_self 1)
  | conversion spec blanks inner closed =>
    refine .inr ?_
    rw [Piece.source, Piece.opener]
    simp only [List.cons_append, List.length_cons]
    omega

theorem length_le_source (ps : List Piece) : ps.length ≤ (ps.flatMap Piece.source).length := by
  induction ps with
  | nil => exact Nat.le_refl _
  | cons piece rest ih =>
    rw [List.flatMap_cons, List.length_append, List.length_cons]
    rcases piece.eq_literal_or with ⟨c, rfl⟩ | hlong
    · rw [Piece.source, List.length_singleton]
      omega
    · omega

/-- Pieces that are as many as their characters are these characters. -/
theorem eq_literals_of_length (h : (ps.flatMap Piece.source).length ≤ ps.length) :
    ps = (ps.flatMap Piece.source).map .literal := by
  induction ps with
  | nil => rfl
  | cons piece rest ih =>
    have hrest := length_le_source rest
    rw [List.flatMap_cons, List.length_append, List.length_cons] at h
    rcases piece.eq_literal_or with ⟨c, rfl⟩ | hlong
    · rw [Piece.source, List.length_singleton] at h
      exact congrArg (_ :: ·) (ih (by omega))
    · omega

/-- **A text is no format text exactly if it is its only segment.** -/
theorem isFormat_eq_false_iff (text : String) : isFormat text.toList = false ↔
    (ofChars text.toList).1 = if text = "" then [] else [.text text] := by
  have hcut := cut_pieces text.toList
  constructor
  · intro h
    rw [ofChars, hcut.eq_literals h, ← List.append_nil (List.map _ _), assemble_literals,
      List.append_nil, assemble, flush, List.isEmpty_reverse, List.reverse_reverse,
      String.ofList_toList]
    by_cases hempty : text = ""
    · rw [if_pos hempty, hempty]
      rfl
    · rw [if_neg hempty, if_neg]
      rwa [List.isEmpty_iff, String.toList_eq_nil_iff]
  · intro h
    have hitems : (ofChars text.toList).1.flatMap Segment.items = text.toList.map .char := by
      rw [h]
      split
      · next hempty =>
        rw [hempty]
        rfl
      · exact List.append_nil _
    rw [ofChars, items_assemble] at hitems
    have hlength := congrArg List.length hitems
    rw [List.length_append, List.length_map, List.length_map, length_located, List.length_map,
      List.length_reverse, List.length_nil, Nat.zero_add] at hlength
    have hfew : ((pieces text.toList).flatMap Piece.source).length ≤ (pieces text.toList).length :=
      by rw [hcut.flatMap_source, hlength]
    have hliterals := eq_literals_of_length hfew
    rw [hcut.flatMap_source] at hliterals
    exact hcut.isFormat_eq_false hliterals

/-! ## Segmentation -/

/-- The last piece alone may be left open, and that is what the findings about
brackets say. -/
theorem bracketFindings_of_open (text : String) {before after : List Piece} {piece : Piece}
    (hps : pieces text.toList = before ++ piece :: after) (hopen : piece.isClosed = false) :
    after = [] ∧ bracketFindings (parse text).diagnostics =
      piece.unterminated (Lexer.width (before.flatMap Piece.source)) := by
  have hcut := cut_pieces text.toList
  have hafter : after = [] := by
    by_contra hne
    rw [hcut.isClosed hps hne] at hopen
    cases hopen
  subst hafter
  have hbefore : ∀ p ∈ before, p.isClosed = true := by
    intro p hp
    obtain ⟨front, back, rfl⟩ := List.append_of_mem hp
    have hsplit : pieces text.toList = front ++ p :: (back ++ [piece]) := by simp [hps]
    exact hcut.isClosed hsplit (by simp)
  refine ⟨rfl, ?_⟩
  rw [bracketFindings_parse, hps, located_append, List.flatMap_append, unterminated_eq_nil hbefore,
    List.nil_append, Nat.zero_add]
  exact List.append_nil _

end Template

/-- The spans of an expression's nodes in the listing. -/
theorem Expr.span_of_mem_listing {e : Expr} {n : Node} (h : n ∈ e.listing #[]) :
    ∃ p ∈ e.parts, n.span = p.span := by
  have hbody : n ∈ (Body.expression e).listing := h
  rcases Body.span_of_mem_listing hbody with hspan | ⟨segments, hbody⟩
  · exact hspan
  · cases hbody

open Template in
/-- **Format texts are detected where they are cut, and cutting loses nothing.**
A text is a format text exactly if a doubled percent sign or a conversion begins
somewhere in it, and exactly if it is not its own only segment.  Its pieces make
it up; the blanks of a conversion are blanks, its closing bracket is the first
one that matches, and the last piece alone may be left open, which makes the only
finding about brackets.  The segments hold what the pieces contribute, and are
divided by conversions only; the spans of an expression lie between the brackets
of its conversion. -/
theorem segmentation (text : String) :
    let cs := text.toList
    let segments := (ofChars cs).1
    let found := (parse text).diagnostics.filter (·.code == .e3001)
    (isFormat cs = true ↔ ∃ before after, cs = before ++ after ∧ Begins after) ∧
    (isFormat cs = false ↔ segments = if text = "" then [] else [.text text]) ∧
    (pieces cs).flatMap Piece.source = cs ∧
    (∀ spec blanks inner closed, .conversion spec blanks inner closed ∈ pieces cs →
      (∀ c ∈ blanks, Text.isBlank c = true) ∧
      (closed = true → bracketEnd .outside 0 (inner ++ [']']) = some inner.length) ∧
      (closed = false → bracketEnd .outside 0 inner = none)) ∧
    (∀ before spec blanks inner after,
      pieces cs = before ++ .conversion spec blanks inner false :: after →
      let start := Lexer.width (before.flatMap Piece.source)
      let opened := Span.ofRange start (Piece.base start spec blanks)
      after = [] ∧ found = [.unterminatedFormat opened spec.display]) ∧
    ((∀ piece ∈ pieces cs, piece.isClosed = true) → found = []) ∧
    segments.flatMap Segment.items = (located 0 (pieces cs)).map (fun p => p.2.item p.1) ∧
    (∀ s, .text s ∈ segments → s ≠ "") ∧
    (segments.IsChain fun a b => (a.isText && b.isText) = false) ∧
    ∀ offset spec blanks inner closed,
      (offset, .conversion spec blanks inner closed) ∈ located 0 (pieces cs) →
      let base := Piece.base offset spec blanks
      ∀ n ∈ (parseAt inner (min base Span.limit)).1.listing #[],
        min base Span.limit ≤ n.span.start ∧ n.span.start ≤ n.span.stop ∧
          n.span.stop ≤ min (base + Lexer.width inner) Span.limit := by
  intro cs segments found
  have hcut := cut_pieces cs
  obtain ⟨hnonempty, hchain⟩ := divided_assemble (pieces cs) 0 []
  refine ⟨isFormat_iff cs, isFormat_eq_false_iff text, hcut.flatMap_source,
    fun spec blanks inner closed => hcut.conversion, ?_, ?_, ?_, hnonempty, hchain, ?_⟩
  · intro before spec blanks inner after hps
    exact bracketFindings_of_open text hps rfl
  · intro hclosed
    exact (bracketFindings_parse text).trans (unterminated_eq_nil hclosed 0)
  · exact items_assemble (pieces cs) 0 []
  · intro offset spec blanks inner closed _ base n hn
    obtain ⟨p, hp, hspan⟩ := Expr.span_of_mem_listing hn
    rw [hspan]
    exact ((parseAt_fits inner base).1 p hp).between

end TargetView
