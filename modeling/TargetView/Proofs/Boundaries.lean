import TargetView.Proofs.Acceptance
import TargetView.Proofs.Correspondence
import TargetView.Proofs.Lossless
import TargetView.Proofs.Pieces

/-! # Where spans begin and end

The ends of a span lie between two characters of the text, or at one of its ends
(`Span.Fits`).  The parser keeps that of the tokens it is given, so it holds of
the nodes and the findings of every expression (`Template.parseAt_fits`) and, as
a conversion parses a stretch of the text, of those of every text (`parse_fits`).

Offsets beyond the limit are recorded at the limit.  A place is therefore one
that is recorded, and in a text whose places can all be recorded it is a place
between characters.
-/
namespace TargetView

open Lexer (width width_append)

variable {base : Nat} {cs before after : List Char} {s t : Span}

/-- The offset is recorded for a place between the characters of a text, of which
the first one has the given offset. -/
def Template.IsPlace (base : Nat) (cs : List Char) (n : Nat) : Prop :=
  ∃ before after, cs = before ++ after ∧ n = min (base + width before) Span.limit

open Template (IsPlace)

/-- The span begins and ends between characters of the text. -/
structure Span.Fits (base : Nat) (cs : List Char) (s : Span) : Prop where
  ordered : s.start ≤ s.stop
  start : IsPlace base cs s.start
  stop : IsPlace base cs s.stop

namespace Span

/-- The span of some characters of a text. -/
def around (base : Nat) (before inner : List Char) : Span :=
  ⟨min (base + width before) limit, min (base + width before + width inner) limit⟩

namespace Fits

theorem of_around {inner : List Char} (h : cs = before ++ inner ++ after) :
    (around base before inner).Fits base cs where
  ordered := by
    show min _ _ ≤ min _ _
    omega
  start := ⟨before, inner ++ after, by rw [h, List.append_assoc], rfl⟩
  stop := ⟨before ++ inner, after, h, by rw [width_append, ← Nat.add_assoc]; rfl⟩

theorem merge (hs : s.Fits base cs) (ht : t.Fits base cs) : (s.merge t).Fits base cs where
  ordered := Nat.le_trans (Nat.min_le_left _ _) (Nat.le_trans hs.ordered (Nat.le_max_left _ _))
  start := by
    show IsPlace base cs (min _ _)
    rcases Nat.le_total s.start t.start with h | h
    · rw [Nat.min_eq_left h]
      exact hs.start
    · rw [Nat.min_eq_right h]
      exact ht.start
  stop := by
    show IsPlace base cs (max _ _)
    rcases Nat.le_total s.stop t.stop with h | h
    · rw [Nat.max_eq_right h]
      exact ht.stop
    · rw [Nat.max_eq_left h]
      exact hs.stop

theorem point (hs : s.Fits base cs) : (Span.point s.start).Fits base cs :=
  ⟨Nat.le_refl _, hs.start, hs.start⟩

/-- A span of a stretch of a text is one of the text. -/
theorem embed {base' : Nat} {inner : List Char} (hs : s.Fits base inner)
    (hcs : cs = before ++ inner ++ after) (hbase : base = base' + width before) :
    s.Fits base' cs := by
  have hplace {n : Nat} (hn : IsPlace base inner n) : IsPlace base' cs n := by
    obtain ⟨front, back, rfl, rfl⟩ := hn
    refine ⟨before ++ front, back ++ after, ?_, ?_⟩
    · rw [hcs]
      simp only [List.append_assoc]
    · rw [width_append, hbase, Nat.add_assoc]
  exact ⟨hs.ordered, hplace hs.start, hplace hs.stop⟩

/-- A span stays within the text. -/
theorem between (hs : s.Fits base cs) :
    min base limit ≤ s.start ∧ s.start ≤ s.stop ∧ s.stop ≤ min (base + width cs) limit := by
  obtain ⟨front, _, -, hstart⟩ := hs.start
  obtain ⟨front', back', rfl, hstop⟩ := hs.stop
  rw [width_append]
  refine ⟨?_, hs.ordered, ?_⟩
  · omega
  · omega

end Fits
end Span

/-! ## Tokens and literals -/

/-- The token stands in the text. -/
def Token.Stands (base : Nat) (cs : List Char) (t : Token) : Prop :=
  ∃ before after, cs = before ++ t.text.toList ++ after ∧
    t.span = .around base before t.text.toList

theorem Token.Stands.fits {t : Token} (h : t.Stands base cs) : t.span.Fits base cs := by
  obtain ⟨before, after, hcs, hspan⟩ := h
  rw [hspan]
  exact .of_around hcs

namespace Lexer

theorem Lexeme.span_around (l : Lexeme) (base : Nat) :
    l.span (min base Span.limit) =
      ⟨min (base + l.offset) Span.limit, min (base + (l.offset + width l.chars)) Span.limit⟩ := by
  have hend (n : Nat) : min (min n Span.limit + min base Span.limit) Span.limit =
      min (base + n) Span.limit := by omega
  rw [Lexeme.span, Span.ofRange, Span.shift, hend, hend]

/-- The tokens of a text stand in it. -/
theorem stands_token {l : Lexeme} (hl : l ∈ lexemes 0 cs) (base : Nat) :
    (l.token (min base Span.limit)).Stands base cs := by
  obtain ⟨before, after, hcs, hoffset⟩ := (layout_lexemes 0 cs).placed l hl
  have htext : (l.token (min base Span.limit)).text.toList = l.chars := String.toList_ofList
  refine ⟨before, after, by rw [htext]; exact hcs, ?_⟩
  show l.span _ = _
  rw [htext, Lexeme.span_around, hoffset, Nat.zero_add, ← Nat.add_assoc]
  rfl

theorem stands_endMark (cs : List Char) (base : Nat) :
    (endMark cs (min base Span.limit)).Stands base cs := by
  have hend : min (min (width cs) Span.limit + min base Span.limit) Span.limit =
      min (base + width cs) Span.limit := by omega
  refine ⟨cs, [], by simp [endMark, Token.endAt], ?_⟩
  rw [endMark, hend]
  rfl

end Lexer

namespace Literal

/-- The warnings about a literal point at backslashes and the characters behind
them. -/
theorem fits_warnings {read : List Stretch} {offset : Nat}
    (hcs : cs = before ++ source read ++ after) :
    ∀ d ∈ warnings (min base Span.limit) offset read, ∀ l ∈ d.labels,
      base + width before = base + offset → l.span.Fits base cs := by
  induction read generalizing before offset with
  | nil => nofun
  | cons stretch read ih =>
    intro d hd l hl hoffset
    rcases List.mem_append.mp hd with hd | hd
    · cases stretch with
      | unknown e =>
        obtain rfl := List.mem_singleton.mp hd
        obtain rfl := List.mem_singleton.mp hl
        have hspan : (Span.ofRange offset (offset + 1 + e.utf8Size)).shift (min base Span.limit) =
            .around base before ['\\', e] := by
          have hend (n : Nat) : min (min n Span.limit + min base Span.limit) Span.limit =
              min (base + n) Span.limit := by omega
          rw [Span.ofRange, Span.shift, hend, hend, Span.around, hoffset, Nat.add_assoc base,
            add_width_escape]
        show (Span.shift _ _).Fits base cs
        rw [hspan]
        have hrest : cs = before ++ ['\\', e] ++ (source read ++ after) := by
          rw [hcs, source, List.flatMap_cons, List.append_assoc, List.append_assoc,
            List.append_assoc]
          rfl
        exact .of_around hrest
      | _ => cases hd
    · have hrest : cs = (before ++ stretch.source) ++ source read ++ after := by
        rw [hcs, source, List.flatMap_cons]
        simp only [List.append_assoc]
        rfl
      refine ih hrest d hd l hl ?_
      rw [width_append]
      omega

/-- The warnings about a token point into it. -/
theorem fits_cook {t : Token} (ht : t.Stands base cs) :
    ∀ d ∈ (cook t.text t.span.start).2, ∀ l ∈ d.labels, l.span.Fits base cs := by
  obtain ⟨before, after, hcs, hspan⟩ := ht
  unfold cook
  cases hchars : t.text.toList with
  | nil => nofun
  | cons quote rest =>
    rw [hchars] at hcs hspan
    have hstart : t.span.start = min (base + width before) Span.limit := by rw [hspan]; rfl
    rw [hstart]
    dsimp only
    rw [cookBody_eq]
    intro d hd l hl
    have hcook : l.span.Fits (base + width before) (quote :: rest) := by
      have hquote : quote :: rest =
          [quote] ++ source (stretches quote rest).1 ++ (stretches quote rest).2 := by
        rw [List.append_assoc, source_append_left]
        rfl
      exact fits_warnings hquote d hd l hl rfl
    exact hcook.embed hcs rfl

end Literal

/-! ## Expressions -/

/-- The parser keeps spans within a text. -/
def Parser.fitting (base : Nat) (cs : List Char) : Correspondence where
  Spans s _ := s.Fits base cs
  Tokens t t' := t' = t ∧ t.Stands base cs
  Findings d _ := ∀ l ∈ d.labels, l.span.Fits base cs
  kind h := congrArg Token.kind h.1
  text h := congrArg Token.text h.1
  span h := h.2.fits
  merge hs hu := hs.merge hu
  point hs := hs.point
  error hd _ l hl := by
    obtain ⟨_, -, hspan⟩ := hd.exists_label l hl
    exact hspan
  inexact h _ _ _ := List.forall_mem_singleton.mpr h.2.fits
  warnings h _ := by
    rw [h.1]
    exact List.forall₂_same.mpr (Literal.fits_cook h.2)

namespace Template

/-- **The spans of an expression and of the findings about it begin and end
between characters of its text.** -/
theorem parseAt_fits (text : List Char) (base : Nat) :
    (∀ p ∈ (parseAt text (min base Span.limit)).1.parts, p.span.Fits base text) ∧
      (∀ d ∈ (parseAt text (min base Span.limit)).2, ∀ l ∈ d.labels, l.span.Fits base text) ∧
      ∀ d ∈ (parseAt text (min base Span.limit)).1.survey.2, ∀ l ∈ d.labels,
        l.span.Fits base text := by
  obtain ⟨htree, hfindings⟩ := parseAt_corresponds (Parser.fitting base text) text
    (min base Span.limit) (min base Span.limit)
    (fun l hl => ⟨rfl, Lexer.stands_token hl base⟩) ⟨rfl, Lexer.stands_endMark text base⟩
  refine ⟨List.forall₂_same.mp htree.parts, List.forall₂_same.mp hfindings, fun d hd l hl => ?_⟩
  obtain ⟨_, -, hspan⟩ := (List.forall₂_same.mp htree.survey d hd).exists_label l hl
  exact hspan

/-! ## Format texts -/

/-- A piece stands in the text at its offset. -/
theorem exists_of_mem_located {offset : Nat} {ps : List Piece} {p : Nat × Piece}
    (h : p ∈ located offset ps) : ∃ before after,
      ps.flatMap Piece.source = before ++ p.2.source ++ after ∧ p.1 = offset + width before := by
  induction ps generalizing offset with
  | nil => cases h
  | cons piece rest ih =>
    rcases List.mem_cons.mp h with rfl | h
    · exact ⟨[], rest.flatMap Piece.source, rfl, rfl⟩
    · obtain ⟨before, after, hsource, hp⟩ := ih h
      refine ⟨piece.source ++ before, after, ?_, ?_⟩
      · rw [List.flatMap_cons, hsource]
        simp only [List.append_assoc]
      · rw [hp, width_append, Nat.add_assoc]

end Template

/-- What there is to collect from an item: nothing from a character. -/
def Item.collect {α : Type} (f : Expr → List α) : Item → List α
  | char _ => []
  | value _ e => f e

namespace Template

theorem flatMap_items {α : Type} (f : Expr → List α) (segments : List Segment) :
    (segments.flatMap fun
      | .text _ => []
      | .format _ e => f e) = (segments.flatMap Segment.items).flatMap (Item.collect f) := by
  induction segments with
  | nil => rfl
  | cons segment rest ih =>
    rw [List.flatMap_cons, List.flatMap_cons, List.flatMap_append, ih]
    congr 1
    cases segment with
    | text s => simp [Segment.items, Item.collect]
    | format spec e => exact (List.append_nil _).symm

/-- What is collected from the segments of a text comes from its pieces. -/
theorem flatMap_ofChars {α : Type} (f : Expr → List α) (cs : List Char) :
    ((ofChars cs).1.flatMap fun
      | .text _ => []
      | .format _ e => f e) =
      (located 0 (pieces cs)).flatMap fun p => (p.2.item p.1).collect f := by
  rw [flatMap_items, ofChars, items_assemble, List.reverse_nil, List.map_nil, List.nil_append,
    List.flatMap_map]

theorem parts_ofChars (cs : List Char) : parts (ofChars cs).1 =
    (located 0 (pieces cs)).flatMap fun p => (p.2.item p.1).collect Expr.parts :=
  flatMap_ofChars Expr.parts cs

theorem survey_ofChars (cs : List Char) : survey (ofChars cs).1 =
    (located 0 (pieces cs)).flatMap fun p => (p.2.item p.1).collect (·.survey.2) :=
  flatMap_ofChars (fun e => e.survey.2) cs

/-- **The spans of a piece and of the findings about it begin and end between
characters of the text.** -/
theorem located_fits {p : Nat × Piece} (h : p ∈ located 0 (pieces cs)) :
    (∀ e ∈ (p.2.item p.1).collect Expr.parts, e.span.Fits 0 cs) ∧
      (∀ d ∈ p.2.findings p.1, ∀ l ∈ d.labels, l.span.Fits 0 cs) ∧
      ∀ d ∈ (p.2.item p.1).collect (·.survey.2), ∀ l ∈ d.labels, l.span.Fits 0 cs := by
  obtain ⟨before, after, hcs, hoffset⟩ := exists_of_mem_located h
  rw [(cut_pieces cs).flatMap_source, Nat.zero_add] at *
  obtain ⟨offset, piece⟩ := p
  cases piece with
  | literal c => exact ⟨nofun, nofun, nofun⟩
  | percent => exact ⟨nofun, nofun, nofun⟩
  | conversion spec blanks inner closed =>
    obtain ⟨hparts, hfindings, hsurvey⟩ := parseAt_fits inner (Piece.base offset spec blanks)
    have hsource : cs = (before ++ Piece.opener spec blanks) ++ inner ++
        ((if closed then [']'] else []) ++ after) := by
      rw [hcs, Piece.source]
      simp only [List.append_assoc]
    have hbase : Piece.base offset spec blanks =
        0 + width (before ++ Piece.opener spec blanks) := by
      rw [Piece.base, width_append, Nat.zero_add, ← hoffset]
    have hinner {s : Span} (hs : s.Fits (Piece.base offset spec blanks) inner) : s.Fits 0 cs :=
      hs.embed hsource hbase
    refine ⟨fun e he => hinner (hparts e he), fun d hd l hl => ?_,
      fun d hd l hl => hinner (hsurvey d hd l hl)⟩
    rcases List.mem_append.mp hd with hd | hd
    · cases closed with
      | true => cases hd
      | false =>
        obtain rfl := List.mem_singleton.mp hd
        obtain rfl := List.mem_singleton.mp hl
        have hopener : Span.ofRange offset (Piece.base offset spec blanks) =
            .around 0 before (Piece.opener spec blanks) := by
          rw [Span.around, Nat.zero_add, ← hoffset]
          rfl
        show (Span.ofRange _ _).Fits 0 cs
        rw [hopener]
        have hbehind : cs = before ++ Piece.opener spec blanks ++ (inner ++ after) := by
          rw [hsource]
          simp
        exact .of_around hbehind
    · exact hinner (hfindings d hd l hl)

end Template

/-! ## Whole texts -/

/-- A node of a text is one of its parts or, in a format text, the text itself. -/
theorem Body.span_of_mem_listing {body : Body} {n : Node} (h : n ∈ body.listing) :
    (∃ e ∈ body.parts, n.span = e.span) ∨
      ∃ segments, body = .template segments n.span := by
  have hfacts : n.facts ∈ body.nodes.map Body.facts := by
    rw [← body.map_facts_listing]
    exact List.mem_map_of_mem (Array.mem_toList_iff.mpr h)
  obtain ⟨b, hb, hfacts⟩ := List.mem_map.mp hfacts
  rcases List.mem_append.mp hb with hb | hb
  · obtain ⟨e, he, rfl⟩ := List.mem_map.mp hb
    exact .inl ⟨e, he, (congrArg Prod.fst hfacts).symm⟩
  · cases body with
    | expression e => cases hb
    | template segments span =>
      obtain rfl := List.mem_singleton.mp hb
      have hspan : span = n.span := congrArg Prod.fst hfacts
      exact .inr ⟨segments, by rw [hspan]⟩

theorem parse_fits_of_isFormat {text : String} (hf : Template.isFormat text.toList = true) :
    (∀ n ∈ (parse text).listing, n.span.Fits 0 text.toList) ∧
      ∀ d ∈ (parse text).diagnostics, ∀ l ∈ d.labels, l.span.Fits 0 text.toList := by
  rw [parse_of_isFormat hf]
  constructor
  · intro n hn
    rcases Body.span_of_mem_listing hn with ⟨e, he, hspan⟩ | ⟨segments, hbody⟩
    · have he : e ∈ Template.parts (Template.ofChars text.toList).1 := he
      rw [Template.parts_ofChars] at he
      obtain ⟨p, hp, he⟩ := List.mem_flatMap.mp he
      rw [hspan]
      exact (Template.located_fits hp).1 e he
    · have hspan : n.span = .around 0 [] text.toList := by
        have hnil : width [] = 0 := rfl
        rw [← (Body.template.inj hbody).2, Span.around, hnil, Nat.zero_add, Nat.zero_add]
        rfl
      rw [hspan]
      have hwhole : text.toList = [] ++ text.toList ++ [] := (List.append_nil _).symm
      exact .of_around hwhole
  · intro d hd l hl
    rcases List.mem_append.mp hd with hd | hd
    · have hd : d ∈ (Template.assemble 0 [] (Template.pieces text.toList)).2 := hd
      rw [Template.findings_assemble] at hd
      obtain ⟨p, hp, hd⟩ := List.mem_flatMap.mp hd
      exact (Template.located_fits hp).2.1 d hd l hl
    · have hd : d ∈ Template.survey (Template.ofChars text.toList).1 := hd
      rw [Template.survey_ofChars] at hd
      obtain ⟨p, hp, hd⟩ := List.mem_flatMap.mp hd
      exact (Template.located_fits hp).2.2 d hd l hl

/-- **The spans of the nodes of a text and of the findings about it begin and end
between its characters.** -/
theorem parse_fits (text : String) :
    (∀ n ∈ (parse text).listing, n.span.Fits 0 text.toList) ∧
      ∀ d ∈ (parse text).diagnostics, ∀ l ∈ d.labels, l.span.Fits 0 text.toList := by
  by_cases hf : Template.isFormat text.toList = true
  · exact parse_fits_of_isFormat hf
  · rw [parse_of_not_isFormat (Bool.eq_false_iff.mpr hf)]
    obtain ⟨hparts, hfindings, hsurvey⟩ := Template.parseAt_fits text.toList 0
    rw [Nat.zero_min] at hparts hfindings hsurvey
    constructor
    · intro n hn
      rcases Body.span_of_mem_listing hn with ⟨e, he, hspan⟩ | ⟨segments, hbody⟩
      · rw [hspan]
        exact hparts e he
      · cases hbody
    · intro d hd
      rcases List.mem_append.mp hd with hd | hd
      · exact hfindings d hd
      · exact hsurvey d hd

end TargetView
