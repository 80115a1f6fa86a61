import TargetView.Proofs.ArenaListing

/-! # One sweep computes the constants

The constants of a tree are defined by recursion.  Over an arena they are
computed in one pass from the first node to the last, which reads what it has
recorded of the operands of a node.  Since the operands stand before the node,
the pass ends with the constants of the tree, and its findings are those of the
tree in the same order (`Arena.parse_eq`).
-/
namespace TargetView.Arena

theorem sweep_push (nodes : Listing) (n : Node) :
    sweep (nodes.push n) = sweepNode (sweep nodes) n := by
  rw [sweep, Array.toList_push, List.foldl_append]
  rfl

/-- The sweep over an arena without constants ends with the listing and the
findings. -/
def Sweeps (nodes : Listing) (found : List Diagnostic) : Prop := sweep nodes.bare = (nodes, found)

theorem sweeps_empty : Sweeps #[] [] := by
  rw [Sweeps, bare_empty]
  rfl

/-- One node more, whose constant is what the sweep makes of those before. -/
theorem Sweeps.push {nodes : Listing} {found : List Diagnostic} (h : Sweeps nodes found) (n : Node)
    (hconstant : n.constant = foldNode nodes n.shape) :
    Sweeps (nodes.push n) (found ++ foldFindings nodes n) := by
  rw [Sweeps, Listing.bare_push, sweep_push, h, sweepNode]
  have hnode : { n.bare with constant := foldNode nodes n.bare.shape } = n := by
    rw [Node.bare, ← hconstant]
  rw [hnode]
  rfl

/-- The same for a node without findings of its own. -/
theorem Sweeps.push_silent {nodes : Listing} {found : List Diagnostic} (h : Sweeps nodes found)
    (n : Node) (hconstant : n.constant = foldNode nodes n.shape)
    (hsilent : foldFindings nodes n = []) : Sweeps (nodes.push n) found := by
  have hpush := h.push n hconstant
  rwa [hsilent, List.append_nil] at hpush

/-! ### Expressions -/

mutual
theorem sweeps_listing : ∀ (e : Expr) {nodes : Listing} {found : List Diagnostic},
    Sweeps nodes found → Sweeps (e.listing nodes) (found ++ e.survey.2)
  | .number .., _, _, h | .text .., _, _, h | .ident .., _, _, h | .malformed _, _, _, h => by
    simp only [Expr.survey, List.append_nil]
    exact h.push_silent _ rfl rfl
  | .member base _ _, _, _, h | .unnamed base _, _, _, h | .update _ _ base _, _, _, h => by
    simp only [Expr.survey]
    exact (sweeps_listing base h).push_silent _ rfl rfl
  | .index base key _, _, _, h => by
    simp only [Expr.survey, ← List.append_assoc]
    exact (sweeps_listing key (sweeps_listing base h)).push_silent _ rfl rfl
  | .unary op operand _, nodes, _, h => by
    have hoperand := Expr.constantOf_last (.refl (operand.listing nodes))
    simp only [Expr.survey]
    exact (sweeps_listing operand h).push_silent _ (by rw [foldNode, hoperand, Expr.fold]) rfl
  | .binary op left right span, nodes, found, h => by
    have hleft := Expr.constantOf_last (right.extends_listing (left.listing nodes))
    have hright := Expr.constantOf_last (.refl (right.listing (left.listing nodes)))
    have hboth := (sweeps_listing right (sweeps_listing left h)).push
      ⟨.binary op (left.listing nodes).last (right.listing (left.listing nodes)).last, span,
        Expr.foldBinary op left.fold right.fold⟩ (by rw [foldNode, hleft, hright])
    simp only [foldFindings, hleft, hright] at hboth
    simp only [Expr.survey, Expr.survey_fst, ← List.append_assoc]
    exact hboth
  | .conditional cond yes no _, nodes, _, h => by
    have hcond := Expr.constantOf_last ((no.extends_listing _).trans
      (yes.extends_listing (cond.listing nodes)))
    have hyes := Expr.constantOf_last (no.extends_listing (yes.listing (cond.listing nodes)))
    have hno := Expr.constantOf_last (.refl (no.listing (yes.listing (cond.listing nodes))))
    simp only [Expr.survey, ← List.append_assoc]
    exact (sweeps_listing no (sweeps_listing yes (sweeps_listing cond h))).push_silent _
      (by rw [foldNode, hcond, hyes, hno, Expr.fold]) rfl
  | .assign op target value _, nodes, _, h => by
    have hvalue := Expr.constantOf_last (.refl (value.listing (target.listing nodes)))
    simp only [Expr.survey, ← List.append_assoc]
    exact (sweeps_listing value (sweeps_listing target h)).push_silent _
      (by rw [foldNode, hvalue, Expr.fold]) rfl
  | .call callee args _, _, _, h => by
    simp only [Expr.survey, ← List.append_assoc]
    exact (sweeps_listingAll args (sweeps_listing callee h)).push_silent _ rfl rfl
  | .intrinsic fn nameSpan args _, _, _, h => by
    simp only [Expr.survey]
    have hname := h.push_silent ⟨.ident fn.name, nameSpan, none⟩ rfl rfl
    exact (sweeps_listingAll args hname).push_silent _ rfl rfl

theorem sweeps_listingAll : ∀ (es : List Expr) {nodes : Listing} {found : List Diagnostic},
    Sweeps nodes found → Sweeps (Expr.listingAll nodes es).1 (found ++ Expr.surveyAll es)
  | [], _, _, h => by
    simp only [Expr.surveyAll, List.append_nil]
    exact h
  | e :: rest, _, _, h => by
    simp only [Expr.surveyAll, ← List.append_assoc]
    exact sweeps_listingAll rest (sweeps_listing e h)
end

/-! ### Texts -/

theorem sweeps_segments : ∀ (segments : List Segment) {nodes : Listing} {found : List Diagnostic},
    Sweeps nodes found →
      Sweeps (Template.listing nodes segments).1 (found ++ Template.survey segments)
  | [], _, _, h => by
    simp only [Template.survey, List.flatMap_nil, List.append_nil]
    exact h
  | .text _ :: rest, _, _, h => sweeps_segments rest h
  | .format _ e :: rest, _, _, h => by
    have hrest := sweeps_segments rest (sweeps_listing e h)
    rw [List.append_assoc] at hrest
    exact hrest

theorem constantText?_listing : ∀ (segments : List Segment) (nodes : Listing),
    constantText? (Template.listing nodes segments).2 = Template.constantText? segments
  | [], _ => rfl
  | .text s :: rest, nodes => congrArg (Option.map (s ++ ·)) (constantText?_listing rest nodes)
  | .format .. :: _, _ => rfl

theorem sweeps_body (body : Body) : Sweeps body.listing body.survey := by
  cases body with
  | expression e => exact sweeps_listing e sweeps_empty
  | template segments span =>
    refine (sweeps_segments segments sweeps_empty).push_silent _ ?_ rfl
    rw [foldNode, constantText?_listing]
    rfl

/-- **Parsing into an arena ends with the listing of the tree and with its
findings**, as far as numbers tell places apart. -/
theorem parse_eq (number : Nat → Nat) (text : String)
    (hnumber : ∀ i < 3 * text.utf8ByteSize + 1, number i = i) :
    parse number text =
      ⟨(TargetView.parse text).listing.last, (TargetView.parse text).listing,
        (TargetView.parse text).diagnostics⟩ := by
  obtain ⟨hroot, hnodes, hfound⟩ := raw_eq hnumber text (Nat.le_refl _)
  have hsweep : sweep (raw number text).nodes = _ :=
    (congrArg sweep hnodes).trans (sweeps_body (TargetView.parse text).body)
  rw [parse, hsweep, ← hroot, ← hfound]
  rfl

/-- Below a third of what 32 bits can count, the numbers of 32 bits are the
places of the nodes. -/
theorem parse_recorded {text : String} (h : 3 * (text.utf8ByteSize + 1) < UInt32.size) :
    parse recorded text = parse id text := by
  rw [parse_eq recorded text fun i hi => recorded_eq (by omega), parse_eq id text fun _ _ => rfl]

end TargetView.Arena
