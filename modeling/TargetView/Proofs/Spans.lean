import TargetView.Proofs.Boundaries
import TargetView.Proofs.Numbering
import TargetView.Proofs.Slicing
import TargetView.Proofs.Targets

/-! # The spans of a text

In a text whose offsets can be recorded, all spans of nodes and findings are cut
out of the text between characters, so that every finding can be shown with its
line; and in a text without an error, each node encloses its operands
(`spans_sound`).

That holds of an expression as its parser reads it.  In a format text there is
one step more: the expressions stand in their pieces, and the pieces one behind
the other.
-/
namespace TargetView

open Lexer (width width_append width_toList)

variable {text : String} {cs : List Char} {s : Span}

/-! ## Spans between characters -/

/-- The span lies in the text, and begins and ends between its characters. -/
structure Span.LiesIn (text : String) (s : Span) : Prop where
  ordered : s.start ≤ s.stop
  within : s.stop ≤ text.utf8ByteSize
  start : String.Pos.Raw.IsValid text ⟨s.start⟩
  stop : String.Pos.Raw.IsValid text ⟨s.stop⟩

namespace Span.Fits

/-- What is recorded of a text without further offsets is exact. -/
theorem exists_append (h : s.Fits 0 cs) (hsize : width cs ≤ limit) :
    ∃ before inner after, cs = before ++ inner ++ after ∧ s.start = width before ∧
      s.stop = s.start + width inner := by
  obtain ⟨before, after, hcs, hstart⟩ := h.start
  obtain ⟨before', after', hcs', hstop⟩ := h.stop
  have hordered := h.ordered
  have hwidth : width cs = width before + width after := by rw [hcs, width_append]
  have hwidth' : width cs = width before' + width after' := by rw [hcs', width_append]
  rcases List.append_eq_append_iff.mp (hcs.symm.trans hcs') with
    ⟨inner, rfl, -⟩ | ⟨inner, rfl, -⟩
  · rw [width_append] at hstop hwidth'
    exact ⟨before, inner, after', hcs', by omega, by omega⟩
  · -- The span does not end before it starts, so it is empty.
    have hnil : width [] = 0 := rfl
    rw [width_append] at hstart hwidth
    refine ⟨before' ++ inner, [], after, by rw [hcs, List.append_nil], ?_, ?_⟩
    · rw [width_append]
      omega
    · omega

theorem isValid {before after : List Char} (h : text.toList = before ++ after) :
    String.Pos.Raw.IsValid text ⟨width before⟩ := by
  refine String.Pos.Raw.isValid_iff_exists_append.mpr
    ⟨String.ofList before, String.ofList after, ?_, ?_⟩
  · rw [← String.ofList_append, ← h, String.ofList_toList]
  · rw [String.rawEndPos, ← width_toList, String.toList_ofList]

theorem liesIn (h : s.Fits 0 text.toList) (hsize : text.utf8ByteSize ≤ limit) :
    s.LiesIn text := by
  rw [← width_toList] at hsize
  obtain ⟨before, inner, after, htext, hstart, hstop⟩ := h.exists_append hsize
  have hwidth : width text.toList = width before + width inner + width after := by
    rw [htext, width_append, width_append]
  have hend : s.stop = width (before ++ inner) := by rw [hstop, hstart, width_append]
  refine ⟨h.ordered, ?_, ?_, ?_⟩
  · rw [← width_toList]
    omega
  · rw [hstart]
    exact isValid (by rw [htext, List.append_assoc])
  · rw [hend]
    exact isValid htext

end Span.Fits

namespace Diagnostic

/-- A finding about spans between characters can be shown. -/
theorem isSome_render? {d : Diagnostic} (h : ∀ l ∈ d.labels, l.span.Fits 0 text.toList)
    (hsize : text.utf8ByteSize ≤ Span.limit) (colours : Bool) :
    (d.render? text colours).isSome = true := by
  unfold render?
  cases hl : d.primary? with
  | none => rfl
  | some l =>
    rw [← width_toList] at hsize
    obtain ⟨before, inner, after, htext, hstart, hstop⟩ :=
      (h l (List.mem_of_find?_eq_some hl)).exists_append hsize
    dsimp only
    rw [excerpt?_eq htext hstart hstop]
    rfl

theorem isSome_renderAll? {ds : List Diagnostic}
    (h : ∀ d ∈ ds, ∀ l ∈ d.labels, l.span.Fits 0 text.toList)
    (hsize : text.utf8ByteSize ≤ Span.limit) (colours : Bool) :
    (renderAll? ds text colours).isSome = true := by
  have hreports : (ds.mapM fun d : Diagnostic => d.render? text colours).isSome = true := by
    induction ds with
    | nil => rfl
    | cons d rest ih =>
      obtain ⟨hd, hrest⟩ := List.forall_mem_cons.mp h
      obtain ⟨report, hreport⟩ := Option.isSome_iff_exists.mp (isSome_render? hd hsize colours)
      obtain ⟨reports, hreports⟩ := Option.isSome_iff_exists.mp (ih hrest)
      rw [List.mapM_cons, hreport, hreports]
      rfl
  obtain ⟨reports, hreports⟩ := Option.isSome_iff_exists.mp hreports
  rw [renderAll?, hreports]
  rfl

end Diagnostic

/-! ## Operands -/

namespace Template

/-- A piece reaches to where the next one starts. -/
theorem pairwise_located (ps : List Piece) (offset : Nat) :
    (located offset ps).Pairwise fun p q => p.1 + width p.2.source ≤ q.1 := by
  induction ps generalizing offset with
  | nil => exact .nil
  | cons piece rest ih =>
    refine List.pairwise_cons.mpr ⟨fun q hq => ?_, ih _⟩
    obtain ⟨before, -, -, hoffset⟩ := exists_of_mem_located hq
    exact hoffset ▸ Nat.le_add_right _ _

/-- The expression of a piece stands within it. -/
theorem span_of_mem_collect {p : Nat × Piece} {e : Expr}
    (h : e ∈ (p.2.item p.1).collect fun e => [e]) :
    min p.1 Span.limit ≤ e.span.start ∧ e.span.start ≤ e.span.stop ∧
      e.span.stop ≤ min (p.1 + width p.2.source) Span.limit := by
  obtain ⟨offset, piece⟩ := p
  cases piece with
  | literal c => cases h
  | percent => cases h
  | conversion spec blanks inner closed =>
    obtain rfl := List.mem_singleton.mp h
    have hfits := (parseAt_fits inner (Piece.base offset spec blanks)).1 _ (Expr.mem_parts_self _)
    obtain ⟨hstart, hle, hstop⟩ := hfits.between
    have hbase : Piece.base offset spec blanks = offset + width (Piece.opener spec blanks) := rfl
    have hsource : width (Piece.conversion spec blanks inner closed).source =
        width (Piece.opener spec blanks) + width inner + width (if closed then [']'] else []) := by
      rw [Piece.source, width_append, width_append]
    dsimp only
    omega

theorem filterMap_expr? (segments : List Segment) :
    segments.filterMap Segment.expr? = segments.flatMap fun
      | .text _ => []
      | .format _ e => [e] := by
  induction segments with
  | nil => rfl
  | cons segment rest ih =>
    cases segment with
    | text s => exact ih
    | format spec e => exact congrArg (e :: ·) ih

/-- The expressions that a text renders come from its pieces. -/
theorem exprs_ofChars (cs : List Char) : (ofChars cs).1.filterMap Segment.expr? =
    (located 0 (pieces cs)).flatMap fun p => (p.2.item p.1).collect fun e => [e] :=
  (filterMap_expr? _).trans (flatMap_ofChars (fun e => [e]) cs)

/-- A text encloses the expressions that it renders. -/
theorem encloses_ofChars (cs : List Char) : (Span.ofRange 0 (width cs)).Encloses
    (((ofChars cs).1.filterMap Segment.expr?).map Expr.span) := by
  rw [exprs_ofChars]
  refine ⟨List.forall_mem_map.mpr fun e he => ?_, List.pairwise_map.mpr ?_⟩
  · obtain ⟨p, hp, he⟩ := List.mem_flatMap.mp he
    obtain ⟨-, -, hstop⟩ := span_of_mem_collect he
    obtain ⟨before, after, hsource, hoffset⟩ := exists_of_mem_located hp
    rw [(cut_pieces cs).flatMap_source] at hsource
    have hwidth : width cs = width before + width p.2.source + width after := by
      rw [hsource, width_append, width_append]
    show min 0 _ ≤ _ ∧ _ ≤ min (width cs) _
    omega
  · refine List.pairwise_flatMap.mpr ⟨fun p _ => ?_, (pairwise_located _ 0).imp ?_⟩
    · cases p.2.item p.1 with
      | char c => exact .nil
      | value spec e => exact List.pairwise_singleton _ _
    · intro p q hpq e he e' he'
      obtain ⟨-, -, hstop⟩ := span_of_mem_collect he
      obtain ⟨hstart, -, -⟩ := span_of_mem_collect he'
      omega

end Template

/-- In a text without a syntax error every node encloses its operands. -/
theorem parts_nested (h : ∀ d ∈ (parse text).diagnostics, d.isSyntaxError = false) :
    ∀ e ∈ (parse text).body.parts, e.IsNested := by
  by_cases hf : Template.isFormat text.toList = true
  · rw [parse_of_isFormat hf] at h ⊢
    intro e he
    have he : e ∈ Template.parts (Template.ofChars text.toList).1 := he
    rw [Template.parts_ofChars] at he
    obtain ⟨⟨offset, piece⟩, hp, he⟩ := List.mem_flatMap.mp he
    cases piece with
    | literal c => cases he
    | percent => cases he
    | conversion spec blanks inner closed =>
      refine Template.parseAt_nested _ _ (fun d hd => h d (List.mem_append_left _ ?_)) e he
      show d ∈ (Template.assemble 0 [] (Template.pieces text.toList)).2
      rw [Template.findings_assemble]
      exact List.mem_flatMap.mpr ⟨_, hp, List.mem_append_right _ hd⟩
  · rw [parse_of_not_isFormat (Bool.eq_false_iff.mpr hf)] at h ⊢
    exact Template.parseAt_nested _ _ fun d hd => h d (List.mem_append_left _ hd)

/-- In a text without an error every listed node encloses its operands. -/
theorem listing_nested (h : (parse text).hasErrors = false) : ∀ n ∈ (parse text).listing,
    ∃ spans, n.shape.operands.map (parse text).listing.span? = spans.map some ∧
      n.span.Encloses spans := by
  intro n hn
  have hmem : n.spans (parse text).listing ∈ (parse text).body.nodes.map Body.spans := by
    rw [← Body.map_spans_listing]
    exact List.mem_map_of_mem (Array.mem_toList_iff.mpr hn)
  obtain ⟨b, hb, hspans⟩ := List.mem_map.mp hmem
  obtain ⟨hspan, hoperands⟩ := Prod.mk.inj hspans
  refine ⟨b.operands.map Expr.span, ?_, ?_⟩
  · rw [← hoperands, List.map_map]
    rfl
  rw [← hspan]
  rcases List.mem_append.mp hb with hb | hb
  · obtain ⟨e, he, rfl⟩ := List.mem_map.mp hb
    exact parts_nested (isSyntaxError_of_hasErrors h) e he
  · by_cases hf : Template.isFormat text.toList = true
    · rw [parse_of_isFormat hf] at hb
      obtain rfl := List.mem_singleton.mp hb
      exact Template.encloses_ofChars text.toList
    · rw [parse_of_not_isFormat (Bool.eq_false_iff.mpr hf)] at hb
      cases hb

/-- **All spans of a text are spans of it.**  In a text of less than 4 GiB the
spans of all nodes and findings lie in the text and begin and end between its
characters; all findings can be shown, one by one and together; and in a text
without an error each node encloses the nodes that are its operands, which stand
one behind the other. -/
theorem spans_sound (text : String) (hsize : text.utf8ByteSize < UInt32.size) :
    (∀ n ∈ (parse text).listing, n.span.LiesIn text) ∧
      (∀ d ∈ (parse text).diagnostics, ∀ l ∈ d.labels, l.span.LiesIn text) ∧
      (∀ colours, ∀ d ∈ (parse text).diagnostics, (d.render? text colours).isSome = true) ∧
      (∀ colours,
        (Diagnostic.renderAll? (parse text).diagnostics text colours).isSome = true) ∧
      ((parse text).hasErrors = false → ∀ n ∈ (parse text).listing,
        ∃ spans, n.shape.operands.map (parse text).listing.span? = spans.map some ∧
          n.span.Encloses spans) := by
  have hlimit : text.utf8ByteSize ≤ Span.limit := Nat.le_of_lt_succ hsize
  obtain ⟨hnodes, hlabels⟩ := parse_fits text
  exact ⟨fun n hn => (hnodes n hn).liesIn hlimit,
    fun d hd l hl => (hlabels d hd l hl).liesIn hlimit,
    fun colours d hd => Diagnostic.isSome_render? (hlabels d hd) hlimit colours,
    fun colours => Diagnostic.isSome_renderAll? hlabels hlimit colours, listing_nested⟩

/-- A finding on the second line of a text that is not of single bytes. -/
theorem spans_sound_accented :
    let text := "ü\n%x[a[\"é\\q\"] + f(b, -1)]"
    text.utf8ByteSize < UInt32.size ∧ (parse text).hasErrors = false ∧
      (parse text).diagnostics.map (·.render? text false) =
        [some ("warning[E0005]: unknown escape sequence `\\q`\n  | %x[a[\"é\\q\"] + f(b, -1)]\n" ++
          "  |        ^^ escape kept as the literal character")] ∧
      (∀ n ∈ (parse text).listing, n.span.LiesIn text) ∧
      ∀ n ∈ (parse text).listing,
        ∃ spans, n.shape.operands.map (parse text).listing.span? = spans.map some ∧
          n.span.Encloses spans := by
  intro text
  have hsize : text.utf8ByteSize < UInt32.size := by decide
  have herrors : (parse text).hasErrors = false := by decide +kernel
  obtain ⟨hnodes, -, -, -, hnested⟩ := spans_sound text hsize
  exact ⟨hsize, herrors, by decide +kernel, hnodes, hnested herrors⟩

end TargetView
