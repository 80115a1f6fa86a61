import TargetView.Formula

/-! # The nodes of a text

A listing numbers the nodes of a text, whereas folding, evaluation and the
parser work on trees.  `Expr.parts` walks a tree in the order of its listing,
and `map_facts_listing` says that a node of the listing and the part with the
same number agree on everything that does not refer to other nodes by number:
the span, the constant, and whether the node stands for malformed text.  A
statement about all nodes of a text is therefore one about `Body.nodes`.
-/
namespace TargetView

/-- Whether a listed node stands for malformed text. -/
def Shape.isMalformed : Shape → Bool
  | malformed => true
  | _ => false

/-- What a node says without referring to other nodes. -/
def Node.facts (n : Node) : Span × Option Constant × Bool :=
  (n.span, n.constant, n.shape.isMalformed)

namespace Expr

/-- What an expression says of itself as a node. -/
def facts (e : Expr) : Span × Option Constant × Bool :=
  (e.span, e.fold, e.isMalformed)

mutual
/-- The nodes of an expression, every one behind its operands; itself is the
last.  The name of an intrinsic is a node, and so is what stands before a
member access without a name. -/
def parts (e : Expr) : List Expr :=
  match e with
  | number .. | text .. | ident .. | malformed _ => [e]
  | member base _ _ | unnamed base _ => base.parts ++ [e]
  | unary _ operand _ => operand.parts ++ [e]
  | update _ _ target _ => target.parts ++ [e]
  | index base key _ => base.parts ++ key.parts ++ [e]
  | binary _ left right _ => left.parts ++ right.parts ++ [e]
  | assign _ target value _ => target.parts ++ value.parts ++ [e]
  | conditional cond yes no _ => cond.parts ++ yes.parts ++ no.parts ++ [e]
  | call callee args _ => callee.parts ++ partsAll args ++ [e]
  | intrinsic fn nameSpan args _ => .ident fn.name nameSpan :: partsAll args ++ [e]

/-- The nodes of some expressions. -/
def partsAll : List Expr → List Expr
  | [] => []
  | e :: rest => e.parts ++ partsAll rest
end

theorem mem_parts_self (e : Expr) : e ∈ e.parts := by
  cases e <;> simp [parts]

mutual
theorem map_facts_listing : ∀ (e : Expr) (nodes : Listing),
    (e.listing nodes).toList.map Node.facts = nodes.toList.map Node.facts ++ e.parts.map facts
  | number .., nodes | text .., nodes | ident .., nodes | malformed _, nodes => by
    simp [listing, parts, facts, Node.facts, Shape.isMalformed, isMalformed, span, fold]
  | member base _ _, nodes | unary _ base _, nodes | update _ _ base _, nodes
  | unnamed base _, nodes => by
    simp [listing, parts, facts, Node.facts, Shape.isMalformed, isMalformed, span, fold,
      map_facts_listing base]
  | index left right _, nodes | binary _ left right _, nodes | assign _ left right _, nodes => by
    simp [listing, parts, facts, Node.facts, Shape.isMalformed, isMalformed, span, fold,
      map_facts_listing left, map_facts_listing right]
  | conditional cond yes no _, nodes => by
    simp [listing, parts, facts, Node.facts, Shape.isMalformed, isMalformed, span,
      map_facts_listing cond, map_facts_listing yes, map_facts_listing no]
  | call callee args _, nodes => by
    simp [listing, parts, facts, Node.facts, Shape.isMalformed, isMalformed, span, fold,
      map_facts_listing callee, map_facts_listingAll args]
  | intrinsic _ _ args _, nodes => by
    simp [listing, parts, facts, Node.facts, Shape.isMalformed, isMalformed, span, fold,
      map_facts_listingAll args]

theorem map_facts_listingAll : ∀ (es : List Expr) (nodes : Listing),
    (listingAll nodes es).1.toList.map Node.facts =
      nodes.toList.map Node.facts ++ (partsAll es).map facts
  | [], nodes => by simp [listingAll, partsAll]
  | e :: rest, nodes => by
    simp [listingAll, partsAll, map_facts_listing e, map_facts_listingAll rest]
end

end Expr

namespace Template

/-- The nodes of the expressions in some segments. -/
def parts (segments : List Segment) : List Expr :=
  segments.flatMap fun
    | .text _ => []
    | .format _ e => e.parts

theorem map_facts_listing : ∀ (segments : List Segment) (nodes : Listing),
    (listing nodes segments).1.toList.map Node.facts =
      nodes.toList.map Node.facts ++ (parts segments).map Expr.facts
  | [], nodes => by simp [listing, parts]
  | .text _ :: rest, nodes => by
    simpa [listing, parts] using map_facts_listing rest nodes
  | .format _ e :: rest, nodes => by
    simpa [listing, parts, Expr.map_facts_listing e] using map_facts_listing rest (e.listing nodes)

end Template

namespace Body

/-- The expressions among the nodes of a body. -/
def parts : Body → List Expr
  | expression e => e.parts
  | template segments _ => Template.parts segments

/-- The nodes of a body: its expressions, and behind them itself if it is a
format text. -/
def nodes (body : Body) : List Body :=
  body.parts.map expression ++
    match body with
    | expression _ => []
    | template .. => [body]

theorem mem_nodes_self (body : Body) : body ∈ body.nodes := by
  cases body with
  | expression e =>
    exact List.mem_append_left _ (List.mem_map_of_mem e.mem_parts_self)
  | template segments span => exact List.mem_append_right _ List.mem_cons_self

/-- What a body says of itself as a node. -/
def facts : Body → Span × Option Constant × Bool
  | expression e => e.facts
  | template segments span => (span, (template segments span).constant?, false)

/-- **The listing is the walk over the tree.** -/
theorem map_facts_listing (body : Body) :
    body.listing.toList.map Node.facts = body.nodes.map facts := by
  cases body with
  | expression e =>
    rw [listing, nodes, parts, Expr.map_facts_listing]
    simp [Function.comp_def, facts]
  | template segments span =>
    have h := Template.map_facts_listing segments #[]
    simp only [listing, nodes, parts, Array.toList_push, List.map_append, h]
    simp [Function.comp_def, facts, Node.facts, Shape.isMalformed]

theorem map_constant_listing (body : Body) :
    body.listing.toList.map (·.constant) = body.nodes.map (·.constant?) := by
  have h := congrArg (List.map fun f => f.2.1) body.map_facts_listing
  rw [List.map_map, List.map_map] at h
  refine h.trans (List.map_congr_left fun b _ => ?_)
  cases b <;> rfl

/-- A malformed node is listed exactly if the tree holds one. -/
theorem exists_isMalformed_iff (body : Body) :
    (∃ n ∈ body.listing, n.shape.isMalformed) ↔ ∃ e ∈ body.parts, e.isMalformed := by
  have h := congrArg (List.map fun f => f.2.2) body.map_facts_listing
  rw [List.map_map, List.map_map] at h
  have hmem : true ∈ body.listing.toList.map (·.shape.isMalformed) ↔
      true ∈ body.nodes.map (·.facts.2.2) := iff_of_eq (congrArg (true ∈ ·) h)
  simp only [List.mem_map, Array.mem_toList_iff] at hmem
  refine hmem.trans ⟨?_, ?_⟩
  · rintro ⟨b, hb, hf⟩
    rcases List.mem_append.mp hb with hb | hb
    · obtain ⟨e, he, rfl⟩ := List.mem_map.mp hb
      exact ⟨e, he, hf⟩
    · cases body with
      | expression _ => cases hb
      | template _ _ =>
        obtain rfl := List.mem_singleton.mp hb
        cases hf
  · rintro ⟨e, he, hf⟩
    exact ⟨.expression e, List.mem_append_left _ (List.mem_map_of_mem he), hf⟩

end Body
end TargetView
