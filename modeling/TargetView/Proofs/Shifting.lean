import TargetView.Proofs.Expansions
import TargetView.Proofs.Segmentation

/-! # An expression in a format text

The inner text of a conversion is parsed as it is on its own, at the place where
it stands: the nodes and the findings are the same, with all spans moved by the
number of bytes in front (`Template.parseAt_shift`).  Evaluation does not look at
spans, so a format text with one conversion shows what the expression alone
evaluates to (`conversion_parses_alone`).
-/
namespace TargetView

variable {σ : Type} {k : Nat}

/-! ## Moving spans -/

namespace Span

theorem shift_merge (s t : Span) (k : Nat) :
    (s.merge t).shift k = (s.shift k).merge (t.shift k) := by
  have hstart : min (min s.start t.start + k) limit =
      min (min (s.start + k) limit) (min (t.start + k) limit) := by omega
  have hstop : min (max s.stop t.stop + k) limit =
      max (min (s.stop + k) limit) (min (t.stop + k) limit) := by omega
  rw [merge, merge, shift, shift, shift, hstart, hstop]

/-- Moving twice is moving once, also beyond the limit. -/
theorem shift_shift (s : Span) (j k : Nat) : (s.shift j).shift k = s.shift (min (j + k) limit) := by
  have hend (n : Nat) : min (min (n + j) limit + k) limit =
      min (n + min (j + k) limit) limit := by omega
  rw [shift, shift, shift, hend, hend]

end Span

/-- The node with its span moved up. -/
def Node.shift (n : Node) (k : Nat) : Node := { n with span := n.span.shift k }

/-- The finding with its labels moved up. -/
def Diagnostic.shift (d : Diagnostic) (k : Nat) : Diagnostic :=
  { d with labels := d.labels.map fun l => { l with span := l.span.shift k } }

theorem Diagnostic.Corresponds.eq_shift {d d' : Diagnostic}
    (h : d.Corresponds (fun s s' => s' = s.shift k) d') : d' = d.shift k := by
  have hlabels : d'.labels = d.labels.map fun l => { l with span := l.span.shift k } := by
    have hforall := h.labels
    generalize d'.labels = labels', d.labels = labels at hforall
    induction hforall with
    | nil => rfl
    | @cons l l' _ _ hl _ ih =>
      obtain ⟨span', message', primary'⟩ := l'
      obtain ⟨rfl, rfl, rfl⟩ := hl
      rw [List.map_cons, ih]
  obtain ⟨code', severity', message', labels', notes'⟩ := d'
  obtain ⟨rfl, rfl, rfl, -, rfl⟩ := h
  subst hlabels
  rfl

theorem eq_map_shift {ds ds' : List Diagnostic}
    (h : List.Forall₂ (Diagnostic.Corresponds fun s s' => s' = s.shift k) ds ds') :
    ds' = ds.map (·.shift k) := by
  induction h with
  | nil => rfl
  | cons hd _ ih => rw [List.map_cons, ih, hd.eq_shift]

/-- The findings about the operators of an expression move with it. -/
theorem Expr.Corresponds.survey_shift {e e' : Expr}
    (h : e.Corresponds (fun s s' => s' = s.shift k) e') :
    e'.survey.2 = e.survey.2.map (·.shift k) :=
  eq_map_shift h.survey

namespace Expr.Corresponds

theorem last_map (nodes : Listing) (k : Nat) :
    Listing.last (nodes.map (·.shift k)) = nodes.last := by
  rw [Listing.last, Array.size_map, Listing.last]

theorem map_push_shift (nodes : Listing) (shape : Shape) (s : Span) (c : Option Constant) :
    (nodes.push ⟨shape, s, c⟩).map (·.shift k) =
      (nodes.map (·.shift k)).push ⟨shape, s.shift k, c⟩ :=
  Array.map_push

mutual
/-- The nodes of an expression move with it. -/
theorem listing_shift {e e' : Expr} (nodes : Listing) :
    e.Corresponds (fun s s' => s' = s.shift k) e' →
      e'.listing (nodes.map (·.shift k)) = (e.listing nodes).map (·.shift k)
  | .number _ rfl | .text _ rfl | .ident _ rfl | .malformed rfl => by
    simp only [listing, map_push_shift, Expr.fold]
  | .member _ hb rfl | .update _ _ hb rfl | .unnamed hb rfl => by
    simp only [listing, listing_shift nodes hb, last_map, map_push_shift]
  | .unary _ ho rfl => by
    simp only [listing, listing_shift nodes ho, last_map, map_push_shift, Expr.fold,
      ho.fold]
  | .index hl hr rfl => by
    simp only [listing, listing_shift _ hl, listing_shift _ hr, last_map, map_push_shift]
  | .binary _ hl hr rfl | .assign _ hl hr rfl => by
    simp only [listing, listing_shift _ hl, listing_shift _ hr, last_map, map_push_shift,
      Expr.fold, hl.fold, hr.fold]
  | .conditional hc hy hn rfl => by
    simp only [listing, listing_shift _ hc, listing_shift _ hy, listing_shift _ hn, last_map,
      map_push_shift, Expr.fold, hc.fold, hy.fold, hn.fold]
  | .call hc ha rfl => by
    simp only [listing, listing_shift _ hc, listingAll_shift _ ha, last_map, map_push_shift]
  | .intrinsic fn rfl ha rfl => by
    simp only [listing, ← map_push_shift, listingAll_shift _ ha]

/-- The nodes of some expressions move with them, and their numbers stay. -/
theorem listingAll_shift {es es' : List Expr} (nodes : Listing) :
    CorrespondAll (fun s s' => s' = s.shift k) es es' →
      listingAll (nodes.map (·.shift k)) es' =
        ((listingAll nodes es).1.map (·.shift k), (listingAll nodes es).2)
  | .nil => rfl
  | .cons he hrest => by
    simp only [listingAll, listing_shift _ he, last_map, listingAll_shift _ hrest]
end

end Expr.Corresponds

/-! ## Moving texts -/

/-- The warnings about a literal move with it. -/
theorem Literal.cook_shift (raw : String) (base k : Nat) :
    List.Forall₂ (Diagnostic.Corresponds fun s s' => s' = s.shift k)
      (cook raw base).2 (cook raw (min (base + k) Span.limit)).2 := by
  have hwarnings (read : List Stretch) : ∀ offset,
      List.Forall₂ (Diagnostic.Corresponds fun s s' => s' = s.shift k)
        (warnings base offset read) (warnings (min (base + k) Span.limit) offset read) := by
    induction read with
    | nil => exact fun _ => .nil
    | cons stretch read ih =>
      intro offset
      refine List.rel_append ?_ (ih _)
      cases stretch with
      | unknown e =>
        refine .cons (Diagnostic.labelled_corresponds (R := fun s s' => s' = s.shift k) ?_ ..) .nil
        exact (Span.shift_shift _ base k).symm
      | _ => exact .nil
  unfold cook
  cases raw.toList with
  | nil => exact .nil
  | cons quote rest =>
    dsimp only
    rw [cookBody_eq, cookBody_eq]
    exact hwarnings _ _

/-- The parser moves spans as far as its tokens. -/
def Parser.shifting (k : Nat) : Correspondence where
  Spans s s' := s' = s.shift k
  Tokens t t' := t' = { t with span := t.span.shift k }
  Findings := Diagnostic.Corresponds fun s s' => s' = s.shift k
  kind h := by rw [h]
  text h := by rw [h]
  span h := by rw [h]
  merge {s _ u _} hs hu := by rw [hs, hu, Span.shift_merge]
  point hs := by
    rw [hs]
    rfl
  error h _ := h
  inexact h _ _ _ := by
    rw [h]
    exact Diagnostic.labelled_corresponds (R := fun s s' => s' = s.shift k) rfl ..
  warnings {t _} h _ := by
    rw [h]
    exact Literal.cook_shift t.text t.span.start k

namespace Template

/-- **A text at another place** has the same tree and the same findings, moved. -/
theorem parseAt_shift (text : List Char) (k : Nat) :
    (parseAt text 0).1.Corresponds (fun s s' => s' = s.shift k)
        (parseAt text (min k Span.limit)).1 ∧
      (parseAt text (min k Span.limit)).2 = (parseAt text 0).2.map (·.shift k) := by
  have hspan (s : Span) : s.shift (min k Span.limit) = (s.shift 0).shift k := by
    rw [Span.shift_shift, Nat.zero_add]
  obtain ⟨htree, hfindings⟩ := parseAt_corresponds (Parser.shifting k) text 0 (min k Span.limit)
    (fun l _ => by
      show Lexer.Lexeme.token _ _ = _
      rw [Lexer.Lexeme.token, Lexer.Lexeme.span, hspan]
      rfl)
    (by
      have hend : min (min (Lexer.width text) Span.limit + min k Span.limit) Span.limit =
          min (min (min (Lexer.width text) Span.limit + 0) Span.limit + k) Span.limit := by omega
      show Lexer.endMark _ _ = _
      rw [Lexer.endMark, hend]
      rfl)
  exact ⟨htree, eq_map_shift hfindings⟩

/-! ## Texts with one conversion -/

variable {p e : List Char} {spec : Conversion}

theorem cut_append_of_free {cs : List Char} {ps : List Piece} (hp : '%' ∉ p) (h : Cut cs ps) :
    Cut (p ++ cs) (p.map .literal ++ ps) := by
  induction p with
  | nil => exact h
  | cons c p ih =>
    rw [List.mem_cons, not_or] at hp
    exact .literal (not_begins (Ne.symm hp.1) _) (ih hp.2)

theorem width_opener (spec : Conversion) : Lexer.width (Piece.opener spec []) = 3 := by
  cases spec <;> rfl

/-- The segments of a text with one conversion, and the findings about it. -/
theorem ofChars_conversion (hp : '%' ∉ p)
    (hclose : bracketEnd .outside 0 (e ++ [']']) = some e.length) :
    ofChars (p ++ (Piece.opener spec [] ++ e ++ [']'])) =
      let r := parseAt e (min (Lexer.width p + 3) Span.limit)
      (flush p.reverse [.format spec r.1], r.2) := by
  have hcut : Cut (Piece.opener spec [] ++ e ++ [']']) [.conversion spec [] e true] := by
    rw [← List.append_nil (_ ++ [']'])]
    exact .closed nofun hclose .nil
  rw [ofChars, (cut_append_of_free hp hcut).eq_pieces, assemble_literals, List.append_nil,
    Nat.zero_add, assemble, width_opener]
  show (_, [] ++ _ ++ []) = _
  rw [List.append_nil]
  rfl

theorem isFormat_conversion :
    isFormat (p ++ (Piece.opener spec [] ++ e ++ [']'])) = true := by
  refine (isFormat_iff _).mpr ⟨p, _, rfl, .inr ⟨spec, [], e ++ [']'], nofun, ?_⟩⟩
  rw [List.append_assoc]

/-- The segments with one conversion behind some text. -/
def behindText (p : String) (spec : Conversion) (e : Expr) : List Segment :=
  (if p = "" then [] else [.text p]) ++ [.format spec e]

theorem flush_eq_behindText (p : String) (spec : Conversion) (e : Expr) :
    flush p.toList.reverse [.format spec e] = behindText p spec e := by
  rw [flush, List.isEmpty_reverse, List.reverse_reverse, String.ofList_toList, behindText]
  by_cases hempty : p = ""
  · rw [if_pos hempty, hempty]
    rfl
  · rw [if_neg hempty, if_neg]
    · rfl
    · rwa [List.isEmpty_iff, String.toList_eq_nil_iff]

theorem listing_behindText (p : String) (spec : Conversion) (e : Expr) (nodes : Listing) :
    listing nodes (behindText p spec e) = (e.listing nodes,
      (if p = "" then [] else [.text p]) ++ [.format spec (e.listing nodes).last]) := by
  unfold behindText
  split <;> rfl

theorem constantText?_behindText (p : String) (spec : Conversion) (e : Expr) :
    constantText? (behindText p spec e) = none := by
  unfold behindText
  split <;> rfl

theorem survey_behindText (p : String) (spec : Conversion) (e : Expr) :
    survey (behindText p spec e) = e.survey.2 := by
  unfold behindText
  split <;> exact List.append_nil _

end Template

namespace Evaluation

variable (host : Host σ) (scope : Option Ref) (known : Expr → Option Scalar)

/-- Evaluation does not look at spans. -/
theorem walk_of_corresponds {R : Span → Span → Prop} {e e' : Expr} (h : e.Corresponds R e') :
    evalWith host scope (fun _ => none) e' = evalWith host scope (fun _ => none) e := by
  rw [← walk_bare, h.bare, walk_bare]

theorem renderWith_behindText (p : String) (spec : Conversion) (e : Expr) :
    renderWith host scope known (Template.behindText p spec e) = do
      let v ← evalWith host scope known e
      let shown ← rendered host spec v
      return p ++ shown := by
  unfold Template.behindText
  split
  · next hempty =>
    rw [List.nil_append, renderWith, renderWith]
    simp [hempty]
  · rw [List.singleton_append, renderWith, renderWith, renderWith]
    simp

end Evaluation

/-- **An expression in a format text is parsed and evaluated as on its own.**  Let
`p` hold no percent sign, let `e` be no format text, and let the bracket behind
`e` be the one that closes its conversion.  Then the nodes of the format text are
those of `e`, moved, with the text itself behind them; the findings are those of
`e`, moved; and its evaluation, on whatever host, is that of `e` with the value
rendered behind `p`. -/
theorem conversion_parses_alone (p e : String) (spec : Conversion) (hp : '%' ∉ p.toList)
    (he : Template.isFormat e.toList = false)
    (hclose : Template.bracketEnd .outside 0 (e.toList ++ [']']) = some e.toList.length) :
    let text := p ++ spec.display ++ "[" ++ e ++ "]"
    let whole := parse text
    let alone := parse e
    let k := p.utf8ByteSize + 3
    whole.listing = (alone.listing.map (·.shift k)).push
      ⟨.template ((if p = "" then [] else [.text p]) ++ [.format spec alone.listing.last]),
        .ofRange 0 text.utf8ByteSize, none⟩ ∧
    whole.diagnostics = alone.diagnostics.map (·.shift k) ∧
    ∀ {σ : Type} (host : Host σ) (scope : Option Ref),
      Evaluation.run host scope whole = do
        let v ← Evaluation.run host scope alone
        let shown ← Evaluation.rendered host spec v
        return .text (p ++ shown) := by
  intro text whole alone k
  have htext : text.toList =
      p.toList ++ (Template.Piece.opener spec [] ++ e.toList ++ [']']) := by
    simp [text, Conversion.display, Template.Piece.opener]
  obtain ⟨htree, hfound⟩ := Template.parseAt_shift e.toList k
  have halone : alone = _ := parse_of_not_isFormat he
  have hwhole : whole = _ := parse_of_isFormat (by rw [htext]; exact Template.isFormat_conversion)
  have hsegments : Template.ofChars text.toList =
      (Template.behindText p spec (Template.parseAt e.toList (min k Span.limit)).1,
        (Template.parseAt e.toList (min k Span.limit)).2) := by
    rw [htext, Template.ofChars_conversion hp hclose, Lexer.width_toList]
    exact Prod.ext (Template.flush_eq_behindText ..) rfl
  rw [hsegments, Lexer.width_toList] at hwhole
  generalize Template.parseAt e.toList 0 = r at htree hfound halone
  generalize Template.parseAt e.toList (min k Span.limit) = r' at htree hfound hwhole
  rw [hwhole, halone]
  refine ⟨?_, ?_, fun host scope => ?_⟩
  · have hlisting := htree.listing_shift #[]
    rw [Array.map_empty] at hlisting
    show Array.push (Template.listing _ _).1 _ = _
    rw [Template.listing_behindText, hlisting, Expr.Corresponds.last_map, Body.constant?,
      Template.constantText?_behindText]
    rfl
  · show _ ++ Template.survey _ = List.map _ (_ ++ _)
    rw [Template.survey_behindText, htree.survey_shift, hfound, List.map_append]
  · rw [Evaluation.run_eq_walkAll, Evaluation.run_eq_walkAll]
    show (do return Value.text (← Evaluation.renderWith _ _ _ _)) = _
    rw [Evaluation.renderWith_behindText, Evaluation.walk_of_corresponds host scope htree,
      bind_assoc]
    refine bind_congr fun v => ?_
    rw [bind_assoc]
    refine bind_congr fun shown => ?_
    rw [pure_bind]

/-- An unknown escape and a missing parenthesis behind a bracket between quotes,
and a text that is not of single bytes in front of them. -/
theorem conversion_parses_alone_nested :
    let p := "ü: "
    let e := "a[\"]\"] / 0 + '\\q' * (b"
    '%' ∉ p.toList ∧ Template.isFormat e.toList = false ∧
      Template.bracketEnd .outside 0 (e.toList ++ [']']) = some e.toList.length ∧
      (parse e).diagnostics.map (fun d => (d.code, d.labels.map (·.span))) =
        [(.e0005, [⟨14, 16⟩]), (.e1003, [⟨22, 22⟩, ⟨20, 21⟩])] ∧
      (parse (p ++ Conversion.hex.display ++ "[" ++ e ++ "]")).diagnostics =
        (parse e).diagnostics.map (·.shift (p.utf8ByteSize + 3)) := by
  intro p e
  have hp : '%' ∉ p.toList := by decide
  have he : Template.isFormat e.toList = false := by decide
  have hclose : Template.bracketEnd .outside 0 (e.toList ++ [']']) = some e.toList.length := by
    decide
  exact ⟨hp, he, hclose, by decide +kernel, (conversion_parses_alone p e .hex hp he hclose).2.1⟩

end TargetView
