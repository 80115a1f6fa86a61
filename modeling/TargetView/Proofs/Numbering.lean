import TargetView.Proofs.Nesting
import TargetView.Proofs.Parts

/-! # The numbers of operands

A listing grows at its end only, so that a number that has been given to a node
keeps to it (`Listing.Extends`).  What the operands of a listed node number are
therefore the operands of the part that it was listed for
(`Body.map_spans_listing`); of these only the spans are of interest here.
-/
namespace TargetView

namespace Listing

/-- The span of the node with a number. -/
def span? (nodes : Listing) (i : Nat) : Option Span := nodes[i]?.map (·.span)

/-- The listing starts with the nodes of another one. -/
def Extends (all nodes : Listing) : Prop := nodes.toList <+: all.toList

variable {nodes more all : Listing}

theorem Extends.refl (nodes : Listing) : nodes.Extends nodes := List.prefix_refl _

theorem Extends.trans (h : all.Extends more) (h' : more.Extends nodes) : all.Extends nodes :=
  List.IsPrefix.trans h' h

theorem extends_push (nodes : Listing) (n : Node) : Extends (nodes.push n) nodes := by
  rw [Extends, Array.toList_push]
  exact List.prefix_append _ _

/-- The number of the node that was listed last. -/
theorem Extends.span?_last {n : Node} (h : all.Extends (nodes.push n)) :
    all.span? (last (nodes.push n)) = some n.span := by
  have hlast : last (nodes.push n) = nodes.size := by
    rw [last, Array.size_push, Nat.add_sub_cancel]
  obtain ⟨rest, hrest⟩ := h
  rw [hlast, span?, ← Array.getElem?_toList, ← hrest, Array.toList_push, List.append_assoc,
    ← Array.length_toList, List.getElem?_append_right (Nat.le_refl _), Nat.sub_self]
  rfl

end Listing

/-- The span of a node, and those of its operands in a listing. -/
def Node.spans (all : Listing) (n : Node) : Span × List (Option Span) :=
  (n.span, n.shape.operands.map all.span?)

namespace Expr

/-- The span of an expression and those of its operands. -/
def spans (e : Expr) : Span × List (Option Span) := (e.span, e.operands.map fun o => some o.span)

/-- An expression is listed behind everything else. -/
theorem exists_listing_eq_push (e : Expr) (nodes : Listing) : ∃ (before : Listing) (n : Node),
    e.listing nodes = before.push n ∧ n.span = e.span := by
  cases e <;> exact ⟨_, _, rfl, rfl⟩

theorem span?_last {all : Listing} {e : Expr} {nodes : Listing}
    (h : all.Extends (e.listing nodes)) : all.span? (e.listing nodes).last = some e.span := by
  obtain ⟨before, n, hpush, hspan⟩ := e.exists_listing_eq_push nodes
  rw [hpush] at h ⊢
  rw [h.span?_last, hspan]

mutual
theorem extends_listing : ∀ (e : Expr) (nodes : Listing), (e.listing nodes).Extends nodes
  | number .., _ | text .., _ | ident .., _ | malformed _, _ => Listing.extends_push _ _
  | member base _ _, nodes | unary _ base _, nodes | update _ _ base _, nodes
  | unnamed base _, nodes =>
    (Listing.extends_push _ _).trans (extends_listing base nodes)
  | index left right _, nodes | binary _ left right _, nodes | assign _ left right _, nodes =>
    ((Listing.extends_push _ _).trans
      (extends_listing right _)).trans (extends_listing left nodes)
  | conditional cond yes no _, nodes =>
    (((Listing.extends_push _ _).trans
      (extends_listing no _)).trans (extends_listing yes _)).trans (extends_listing cond nodes)
  | call callee args _, nodes =>
    ((Listing.extends_push _ _).trans
      (extends_listingAll args _)).trans (extends_listing callee nodes)
  | intrinsic _ _ args _, _ =>
    ((Listing.extends_push _ _).trans
      (extends_listingAll args _)).trans (Listing.extends_push _ _)

theorem extends_listingAll : ∀ (es : List Expr) (nodes : Listing),
    (listingAll nodes es).1.Extends nodes
  | [], nodes => .refl nodes
  | e :: rest, nodes => (extends_listingAll rest _).trans (extends_listing e nodes)
end

mutual
/-- The nodes of an expression are listed with the spans of their operands. -/
theorem map_spans_listing {all : Listing} : ∀ (e : Expr) (nodes : Listing),
    all.Extends (e.listing nodes) →
      (e.listing nodes).toList.map (Node.spans all) =
        nodes.toList.map (Node.spans all) ++ e.parts.map spans
  | number .., nodes, _ | text .., nodes, _ | ident .., nodes, _ | malformed _, nodes, _ => by
    simp [listing, parts, spans, Node.spans, Shape.operands, operands, span]
  | unnamed base _, nodes, h => by
    have hb := h.trans (Listing.extends_push _ _)
    simp [listing, parts, spans, Node.spans, Shape.operands, operands, span,
      map_spans_listing base nodes hb]
  | member base _ _, nodes, h | unary _ base _, nodes, h | update _ _ base _, nodes, h => by
    have hb := h.trans (Listing.extends_push _ _)
    simp [listing, parts, spans, Node.spans, Shape.operands, operands, span,
      map_spans_listing base nodes hb, span?_last hb]
  | index left right _, nodes, h | binary _ left right _, nodes, h
  | assign _ left right _, nodes, h => by
    have hr := h.trans (Listing.extends_push _ _)
    have hl := hr.trans (extends_listing right _)
    simp [listing, parts, spans, Node.spans, Shape.operands, operands, span,
      map_spans_listing left nodes hl, map_spans_listing right _ hr, span?_last hl, span?_last hr]
  | conditional cond yes no _, nodes, h => by
    have hn := h.trans (Listing.extends_push _ _)
    have hy := hn.trans (extends_listing no _)
    have hc := hy.trans (extends_listing yes _)
    simp [listing, parts, spans, Node.spans, Shape.operands, operands, span,
      map_spans_listing cond nodes hc, map_spans_listing yes _ hy, map_spans_listing no _ hn,
      span?_last hc, span?_last hy, span?_last hn]
  | call callee args _, nodes, h => by
    have ha := h.trans (Listing.extends_push _ _)
    have hc := ha.trans (extends_listingAll args _)
    obtain ⟨hnodes, hids⟩ := map_spans_listingAll args _ ha
    simp [listing, parts, spans, Node.spans, Shape.operands, operands, span,
      map_spans_listing callee nodes hc, hnodes, hids, span?_last hc]
  | intrinsic fn name args _, nodes, h => by
    obtain ⟨hnodes, hids⟩ := map_spans_listingAll args (nodes.push ⟨.ident fn.name, name, none⟩)
      (h.trans (Listing.extends_push _ _))
    simp [listing, parts, spans, Node.spans, Shape.operands, operands, span, hnodes, hids]

theorem map_spans_listingAll {all : Listing} : ∀ (es : List Expr) (nodes : Listing),
    all.Extends (listingAll nodes es).1 →
      (listingAll nodes es).1.toList.map (Node.spans all) =
        nodes.toList.map (Node.spans all) ++ (partsAll es).map spans ∧
      (listingAll nodes es).2.map all.span? = es.map fun e => some e.span
  | [], nodes, _ => by simp [listingAll, partsAll]
  | e :: rest, nodes, h => by
    have he := h.trans (extends_listingAll rest (e.listing nodes))
    obtain ⟨hnodes, hids⟩ := map_spans_listingAll rest (e.listing nodes) h
    simp [listingAll, partsAll, map_spans_listing e nodes he, hnodes, hids, span?_last he]
end

end Expr

namespace Segment

/-- The expression that is rendered in a segment. -/
def expr? : Segment → Option Expr
  | text _ => none
  | format _ e => some e

end Segment

namespace Template

theorem extends_listing : ∀ (segments : List Segment) (nodes : Listing),
    (listing nodes segments).1.Extends nodes
  | [], nodes => .refl nodes
  | .text _ :: rest, nodes => extends_listing rest nodes
  | .format _ e :: rest, nodes => (extends_listing rest _).trans (e.extends_listing nodes)

/-- The nodes of some segments are listed with the spans of their operands, and
the segments number the expressions that they render. -/
theorem map_spans_listing {all : Listing} : ∀ (segments : List Segment) (nodes : Listing),
    all.Extends (listing nodes segments).1 →
      (listing nodes segments).1.toList.map (Node.spans all) =
        nodes.toList.map (Node.spans all) ++ (parts segments).map Expr.spans ∧
      (Shape.template (listing nodes segments).2).operands.map all.span? =
        (segments.filterMap Segment.expr?).map fun e => some e.span
  | [], nodes, _ => by simp [listing, parts, Shape.operands]
  | .text _ :: rest, nodes, h => by
    obtain ⟨hnodes, hids⟩ := map_spans_listing rest nodes h
    simp only [Shape.operands] at hids
    simp [listing, parts, Shape.operands, Segment.expr?, List.filterMap_cons, hnodes, hids]
  | .format _ e :: rest, nodes, h => by
    have he := h.trans (extends_listing rest (e.listing nodes))
    obtain ⟨hnodes, hids⟩ := map_spans_listing rest (e.listing nodes) h
    simp only [Shape.operands] at hids
    simp [listing, parts, Shape.operands, Segment.expr?, hnodes, hids, Expr.span?_last he,
      e.map_spans_listing nodes he]

end Template

/-- The operands of a body: those of the expression or, in a format text, the
expressions that are rendered. -/
def Body.operands : Body → List Expr
  | expression e => e.operands
  | template segments _ => segments.filterMap Segment.expr?

/-- The span of a body and those of its operands. -/
def Body.spans (body : Body) : Span × List (Option Span) :=
  (body.facts.1, body.operands.map fun e => some e.span)

/-- **The operands of a listed node number those of the part it is listed for.** -/
theorem Body.map_spans_listing (body : Body) :
    body.listing.toList.map (Node.spans body.listing) = body.nodes.map Body.spans := by
  cases body with
  | expression e =>
    rw [listing, nodes, parts, e.map_spans_listing #[] (.refl _), List.append_nil, List.map_map]
    rfl
  | template segments span =>
    obtain ⟨hnodes, hids⟩ := Template.map_spans_listing segments #[] (Listing.extends_push _ _)
    simp only [listing, nodes, parts, Array.toList_push, List.map_append, List.map_map]
    rw [List.map_singleton, List.map_singleton, Node.spans, hids]
    exact congrArg (· ++ _) hnodes

end TargetView
