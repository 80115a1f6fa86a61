import TargetView.Proofs.Evaluation
import TargetView.Proofs.HostCalls
import TargetView.Proofs.Parts

/-! # Folding is invisible

Folding reads a value off the text; evaluation finds one on a host.  A constant
without effects is what the plain walk over the expression comes to, without
asking the host for anything (`walk_of_fold`).  An effectful constant is the
only value that the walk can end with (`yields_of_fold`); whether it ends with
one is up to the assignments on the way.

An evaluation may therefore take pure constants for known wherever it likes:
`evalWith_eq_walk` compares the walk with an evaluation under any `known` that
knows nothing else.
-/
namespace TargetView
namespace Expr

variable {op : BinaryOp} {left right cond yes no : Option Constant} {c : Constant}

/-! ## What a folded operator says of its operands -/

theorem foldLogical_eq_some {decides : Bool} (h : foldLogical decides left right = some c) :
    c.effectful = (Constant.isEffectful left || Constant.isEffectful right) ∧
      ∃ l, left = some l ∧
        ((l.value.isTrue = decides ∧ c.value = .ofBool decides) ∨
          (l.value.isTrue ≠ decides ∧ ∃ r, right = some r ∧ c.value = .ofBool r.value.isTrue)) := by
  simp only [foldLogical, Option.bind_eq_some_iff] at h
  obtain ⟨l, rfl, h⟩ := h
  split at h
  · next hl =>
    cases h
    exact ⟨rfl, l, rfl, .inl ⟨eq_of_beq hl, rfl⟩⟩
  · next hl =>
    obtain ⟨r, rfl, rfl⟩ := Option.map_eq_some_iff.mp h
    exact ⟨rfl, l, rfl, .inr ⟨fun he => hl (beq_iff_eq.mpr he), r, rfl, rfl⟩⟩

theorem foldStrict_eq_some (h : foldStrict op left right = some c) :
    ∃ l r, left = some l ∧ right = some r ∧ Scalar.binary op l.value r.value = .ok c.value ∧
      c.effectful = (l.effectful || r.effectful) := by
  unfold foldStrict at h
  split at h
  · next l r =>
    split at h
    · next value hv =>
      cases h
      exact ⟨l, r, rfl, rfl, hv, rfl⟩
    · cases h
  · cases h

theorem foldBinary_of_strict (hop : op.isShortCircuit = false) :
    foldBinary op left right = foldStrict op left right := by
  cases op <;> first | rfl | cases hop

theorem foldConditional_eq_some (h : foldConditional cond yes no = some c) :
    ∃ d chosen, cond = some d ∧ (if d.value.isTrue then yes else no) = some chosen ∧
      c.value = chosen.value ∧
      c.effectful = (d.effectful || Constant.isEffectful yes || Constant.isEffectful no) := by
  simp only [foldConditional, Option.bind_eq_some_iff, Option.map_eq_some_iff] at h
  obtain ⟨d, rfl, chosen, hc, rfl⟩ := h
  exact ⟨d, chosen, rfl, hc, rfl, rfl⟩

/-- The chosen branch of a choice without effects has none. -/
theorem effectful_of_branch {b : Bool} (hy : Constant.isEffectful yes = false)
    (hn : Constant.isEffectful no = false) (h : (if b then yes else no) = some c) :
    c.effectful = false := by
  cases b
  · cases h
    exact hn
  · cases h
    exact hy

theorem pureConstant?_eq_some {e : Expr} {s : Scalar} (h : e.pureConstant? = some s) :
    e.fold = some ⟨s, false⟩ := by
  obtain ⟨⟨value, effectful⟩, hc, hp⟩ := Option.bind_eq_some_iff.mp h
  cases effectful
  · cases hp
    exact hc
  · cases hp

end Expr

namespace Evaluation

variable {σ : Type} {host : Host σ} {scope : Option Ref} {known : Expr → Option Scalar}

/-! ## Constants without effects -/

theorem logical_of_fold {decides : Bool} {left right : Option Constant} {c : Constant}
    {x y : Eval σ Value} (h : Expr.foldLogical decides left right = some c)
    (hc : c.effectful = false)
    (hx : ∀ d, left = some d → d.effectful = false → x = pure (.scalar d.value))
    (hy : ∀ d, right = some d → d.effectful = false → y = pure (.scalar d.value)) :
    logical decides x y = pure (.scalar c.value) := by
  obtain ⟨he, l, rfl, hcase⟩ := Expr.foldLogical_eq_some h
  obtain ⟨hle, hre⟩ := Bool.or_eq_false_iff.mp (he.symm.trans hc)
  rw [hx l rfl hle]
  rcases hcase with ⟨hl, hv⟩ | ⟨hl, r, rfl, hv⟩
  · rw [logical_decided (v := .scalar l.value) _ hl, hv]
    rfl
  · rw [hy r rfl hre, logical_undecided (v := .scalar l.value) _ hl, hv]
    rfl

/-- The walk over an expression with a pure constant comes to that constant and
leaves the host alone. -/
theorem walk_of_fold : ∀ {e : Expr} {c : Constant}, e.fold = some c → c.effectful = false →
    evalWith host scope (fun _ => none) e = pure (.scalar c.value)
  | .number .., c, h, _ | .text .., c, h, _ => by
    simp only [Expr.fold] at h
    cases h
    rfl
  | .unary op operand _, c, h, hc => by
    simp only [Expr.fold, Expr.foldUnary, Option.map_eq_some_iff] at h
    obtain ⟨d, hd, rfl⟩ := h
    rw [evalWith, walk_of_fold hd hc]
    rfl
  | .binary op left right _, c, h, hc => by
    simp only [Expr.fold] at h
    rcases op.logical_or_strict with rfl | rfl | hop
    · rw [evalWith_and rfl]
      exact logical_of_fold h hc (fun _ => walk_of_fold) (fun _ => walk_of_fold)
    · rw [evalWith_or rfl]
      exact logical_of_fold h hc (fun _ => walk_of_fold) (fun _ => walk_of_fold)
    · rw [Expr.foldBinary_of_strict hop] at h
      obtain ⟨l, r, hl, hr, hv, he⟩ := Expr.foldStrict_eq_some h
      obtain ⟨hle, hre⟩ := Bool.or_eq_false_iff.mp (he.symm.trans hc)
      rw [evalWith_strict hop rfl, walk_of_fold hl hle, pure_bind, walk_of_fold hr hre, pure_bind,
        BinaryOp.onValues_scalar, BinaryOp.apply_of_ok hv, pure_bind]
  | .conditional cond yes no _, c, h, hc => by
    simp only [Expr.fold] at h
    obtain ⟨d, chosen, hd, hch, hv, he⟩ := Expr.foldConditional_eq_some h
    obtain ⟨hcy, hn⟩ := Bool.or_eq_false_iff.mp (he.symm.trans hc)
    obtain ⟨hde, hy⟩ := Bool.or_eq_false_iff.mp hcy
    -- An effect in the branch that is not chosen counts too, so neither has one.
    have hce := Expr.effectful_of_branch hy hn hch
    rw [evalWith]
    simp only [walk_of_fold hd hde, pure_bind]
    split at hch
    · next ht =>
      rw [if_pos (show (Value.scalar d.value).isTrue = true from ht), walk_of_fold hch hce, hv]
    · next ht =>
      rw [if_neg (show ¬(Value.scalar d.value).isTrue = true from ht), walk_of_fold hch hce, hv]
  | .assign op target value _, c, h, hc => by
    cases op with
    | assign =>
      simp only [Expr.fold, Expr.foldAssign, Option.map_eq_some_iff] at h
      obtain ⟨d, hd, rfl⟩ := h
      cases hc
    | compound op => cases h
  | .ident .., c, h, _ | .member .., c, h, _ | .index .., c, h, _ | .update .., c, h, _
  | .call .., c, h, _ | .intrinsic .., c, h, _ | .malformed _, c, h, _
  | .unnamed .., c, h, _ => by cases h

/-! ## Constants with effects -/

theorem yields_logical {decides : Bool} {left right : Option Constant} {c : Constant}
    {x y : Eval σ Value} (h : Expr.foldLogical decides left right = some c)
    (hx : ∀ d, left = some d → x.Yields (· = .scalar d.value))
    (hy : ∀ d, right = some d → y.Yields (· = .scalar d.value)) :
    Eval.Yields (logical decides x y) (· = .scalar c.value) := by
  obtain ⟨-, l, rfl, hcase⟩ := Expr.foldLogical_eq_some h
  refine Eval.yields_bind (hx l rfl) ?_
  rintro _ rfl
  rcases hcase with ⟨hl, hv⟩ | ⟨hl, r, rfl, hv⟩
  · rw [if_pos (show (Value.scalar l.value).isTrue = decides from hl), hv]
    exact Eval.yields_pure rfl
  · rw [if_neg (show (Value.scalar l.value).isTrue ≠ decides from hl), hv]
    refine Eval.yields_bind (hy r rfl) ?_
    rintro _ rfl
    exact Eval.yields_pure rfl

/-- The walk over an expression with a constant ends with that constant if it
ends with a value. -/
theorem yields_of_fold : ∀ {e : Expr} {c : Constant}, e.fold = some c →
    Eval.Yields (evalWith host scope (fun _ => none) e) (· = .scalar c.value)
  | .number .., c, h | .text .., c, h => by
    simp only [Expr.fold] at h
    cases h
    exact Eval.yields_pure rfl
  | .unary op operand _, c, h => by
    simp only [Expr.fold, Expr.foldUnary, Option.map_eq_some_iff] at h
    obtain ⟨d, hd, rfl⟩ := h
    rw [evalWith]
    refine Eval.yields_bind (yields_of_fold hd) ?_
    rintro _ rfl
    exact Eval.yields_pure rfl
  | .binary op left right _, c, h => by
    simp only [Expr.fold] at h
    rcases op.logical_or_strict with rfl | rfl | hop
    · rw [evalWith_and rfl]
      exact yields_logical h (fun _ => yields_of_fold) (fun _ => yields_of_fold)
    · rw [evalWith_or rfl]
      exact yields_logical h (fun _ => yields_of_fold) (fun _ => yields_of_fold)
    · rw [Expr.foldBinary_of_strict hop] at h
      obtain ⟨l, r, hl, hr, hv, -⟩ := Expr.foldStrict_eq_some h
      rw [evalWith_strict hop rfl]
      refine Eval.yields_bind (yields_of_fold hl) ?_
      rintro _ rfl
      refine Eval.yields_bind (yields_of_fold hr) ?_
      rintro _ rfl
      rw [BinaryOp.onValues_scalar, BinaryOp.apply_of_ok hv, pure_bind]
      exact Eval.yields_pure rfl
  | .conditional cond yes no _, c, h => by
    simp only [Expr.fold] at h
    obtain ⟨d, chosen, hd, hch, hv, -⟩ := Expr.foldConditional_eq_some h
    rw [evalWith, hv]
    refine Eval.yields_bind (yields_of_fold hd) ?_
    rintro _ rfl
    split at hch
    · next ht =>
      rw [if_pos (show (Value.scalar d.value).isTrue = true from ht)]
      exact yields_of_fold hch
    · next ht =>
      rw [if_neg (show ¬(Value.scalar d.value).isTrue = true from ht)]
      exact yields_of_fold hch
  | .assign op target value _, c, h => by
    cases op with
    | assign =>
      simp only [Expr.fold, Expr.foldAssign, Option.map_eq_some_iff] at h
      obtain ⟨d, hd, rfl⟩ := h
      rw [evalWith]
      -- The place and the write may fail; the value in between is the constant.
      refine Eval.yields_bind (Eval.yields_trivial _) fun place _ => ?_
      refine Eval.yields_bind (yields_of_fold hd) ?_
      rintro _ rfl
      exact Eval.yields_bind (Eval.yields_trivial _) fun _ _ => Eval.yields_pure rfl
    | compound op => cases h
  | .ident .., c, h | .member .., c, h | .index .., c, h | .update .., c, h
  | .call .., c, h | .intrinsic .., c, h | .malformed _, c, h | .unnamed .., c, h => by cases h

/-! ## Evaluation with known constants -/

/-- What an evaluation may take for known: nothing but pure constants. -/
def KnowsPure (known : Expr → Option Scalar) : Prop :=
  ∀ e s, known e = some s → e.pureConstant? = some s

theorem knowsPure_pureConstant? : KnowsPure Expr.pureConstant? :=
  fun _ _ h => h

/-- Where an expression is known, its constant is what the walk comes to. -/
theorem evalWith_eq_of_unknown (hk : KnowsPure known) {e : Expr}
    (h : known e = none → evalWith host scope known e = evalWith host scope (fun _ => none) e) :
    evalWith host scope known e = evalWith host scope (fun _ => none) e := by
  cases hke : known e with
  | none => exact h hke
  | some s =>
    rw [evalWith_known hke, walk_of_fold (Expr.pureConstant?_eq_some (hk e s hke)) rfl]

mutual
theorem evalWith_eq_walk (hk : KnowsPure known) :
    ∀ e : Expr, evalWith host scope known e = evalWith host scope (fun _ => none) e
  | .number .. | .text .. | .ident .. | .call .. | .malformed _ | .unnamed .. =>
    evalWith_eq_of_unknown hk fun h => by rw [evalWith, h, evalWith]
  | .member base _ _ | .unary _ base _ =>
    evalWith_eq_of_unknown hk fun h => by rw [evalWith, h, evalWith, evalWith_eq_walk hk base]
  | .index base key _ => evalWith_eq_of_unknown hk fun h => by
    rw [evalWith, h, evalWith, evalWith_eq_walk hk base, evalWith_eq_walk hk key]
  | .binary _ left right _ => evalWith_eq_of_unknown hk fun h => by
    rw [evalWith, h, evalWith, evalWith_eq_walk hk left, evalWith_eq_walk hk right]
  | .conditional cond yes no _ => evalWith_eq_of_unknown hk fun h => by
    rw [evalWith, h, evalWith, evalWith_eq_walk hk cond, evalWith_eq_walk hk yes,
      evalWith_eq_walk hk no]
  | .assign _ target value _ => evalWith_eq_of_unknown hk fun h => by
    rw [evalWith, h, evalWith, placeWith_eq_walk hk target, evalWith_eq_walk hk value]
  | .update _ _ target _ => evalWith_eq_of_unknown hk fun h => by
    rw [evalWith, h, evalWith, placeWith_eq_walk hk target]
  | .intrinsic fn _ args _ => evalWith_eq_of_unknown hk fun h => by
    rw [evalWith, h, evalWith, argumentsWith_eq_walk hk fn args]

theorem placeWith_eq_walk (hk : KnowsPure known) :
    ∀ e : Expr, placeWith host scope known e = placeWith host scope (fun _ => none) e
  | .ident .. => by rw [placeWith, placeWith]
  | .member base _ _ => by rw [placeWith, placeWith, placeWith_eq_walk hk base]
  | .index base key _ => by
    rw [placeWith, placeWith, placeWith_eq_walk hk base, evalWith_eq_walk hk key]
  | .number .. | .text .. | .unary .. | .binary .. | .conditional .. | .assign .. | .update ..
  | .call .. | .intrinsic .. | .malformed _ | .unnamed .. => by simp only [placeWith]

theorem argumentsWith_eq_walk (hk : KnowsPure known) (fn : Intrinsic) :
    ∀ es : List Expr, argumentsWith host scope known fn es =
      argumentsWith host scope (fun _ => none) fn es
  | [] => by rw [argumentsWith, argumentsWith]
  | e :: rest => by
    rw [argumentsWith, argumentsWith, evalWith_eq_walk hk e, argumentsWith_eq_walk hk fn rest]
end

/-! ## Format texts -/

theorem renderWith_eq_walk (hk : KnowsPure known) (segments : List Segment) :
    renderWith host scope known segments = renderWith host scope (fun _ => none) segments := by
  induction segments with
  | nil => rw [renderWith, renderWith]
  | cons segment rest ih =>
    cases segment with
    | text s => rw [renderWith, renderWith, ih]
    | format spec e => rw [renderWith, renderWith, ih, evalWith_eq_walk hk e]

theorem bodyWith_eq_walk (hk : KnowsPure known) (b : Body) :
    bodyWith host scope known b = bodyWith host scope (fun _ => none) b := by
  cases b with
  | expression e => exact evalWith_eq_walk hk e
  | template segments _ => rw [bodyWith, bodyWith, renderWith_eq_walk hk]

/-- Segments without a conversion are rendered as they are. -/
theorem renderWith_of_constantText? {segments : List Segment} {s : String}
    (h : Template.constantText? segments = some s) :
    renderWith host scope known segments = pure s := by
  induction segments generalizing s with
  | nil =>
    cases h
    rw [renderWith]
  | cons segment rest ih =>
    cases segment with
    | text first =>
      obtain ⟨more, hm, rfl⟩ := Option.map_eq_some_iff.mp h
      rw [renderWith, ih hm, pure_bind]
    | format => cases h

theorem bodyWith_of_constant {b : Body} {c : Constant} (h : b.constant? = some c)
    (hc : c.effectful = false) :
    bodyWith host scope (fun _ => none) b = pure (.scalar c.value) := by
  cases b with
  | expression e => exact walk_of_fold h hc
  | template segments _ =>
    obtain ⟨s, hs, rfl⟩ := Option.map_eq_some_iff.mp h
    rw [bodyWith, renderWith_of_constantText? hs, pure_bind]
    rfl

theorem yields_of_constant {b : Body} {c : Constant} (h : b.constant? = some c) :
    Eval.Yields (bodyWith host scope (fun _ => none) b) (· = .scalar c.value) := by
  cases b with
  | expression e => exact yields_of_fold h
  | template segments _ =>
    obtain ⟨s, hs, rfl⟩ := Option.map_eq_some_iff.mp h
    rw [bodyWith, renderWith_of_constantText? hs, pure_bind]
    exact Eval.yields_pure rfl

/-! ## The shortcut as a whole -/

theorem run_eq_walkAll (p : Parsed) : run host scope p = walkAll host scope p := by
  unfold run walkAll
  split
  · next s h =>
    obtain ⟨⟨value, effectful⟩, hc, hp⟩ := Option.bind_eq_some_iff.mp h
    cases effectful
    · cases hp
      rw [bodyWith_of_constant hc rfl]
    · cases hp
  · exact bodyWith_eq_walk knowsPure_pureConstant? p.body

/-- **Folding is invisible to evaluation.**  The listed constants are those of
the nodes of the tree.  At a node with a pure constant the plain walk comes to
that constant, calls nothing and changes nothing; at a node with an effectful
one every evaluation that ends with a value ends with it.  So a text evaluates
alike with and without the shortcut, the calls of the host included. -/
theorem folding_is_invisible (host : Host σ) (scope : Option Ref) (text : String) :
    (parse text).listing.toList.map (·.constant) = (parse text).body.nodes.map (·.constant?) ∧
      (∀ b ∈ (parse text).body.nodes, ∀ c, b.constant? = some c →
        (c.effectful = false →
          bodyWith host scope (fun _ => none) b = pure (.scalar c.value) ∧
            ∀ s calls, (bodyWith host.logged scope (fun _ => none) b).run.run (s, calls) =
              (.ok (.scalar c.value), s, calls)) ∧
        (c.effectful = true → ∀ known, KnowsPure known →
          Eval.Yields (bodyWith host scope known b) (· = .scalar c.value))) ∧
      run host scope (parse text) = walkAll host scope (parse text) ∧
      run host.logged scope (parse text) = walkAll host.logged scope (parse text) := by
  refine ⟨Body.map_constant_listing _, ?_, run_eq_walkAll _, run_eq_walkAll _⟩
  intro b _ c hb
  refine ⟨fun hc => ⟨bodyWith_of_constant hb hc, fun s calls => ?_⟩, fun _ known hk => ?_⟩
  · rw [bodyWith_of_constant hb hc]
    rfl
  · rw [bodyWith_eq_walk hk]
    exact yields_of_constant hb

theorem folding_is_invisible_assignment :
    (parse "x = 'a'").body.constant? = some ⟨.text "a", true⟩ ∧
      Eval.Yields (bodyWith Host.ofStore none (fun _ => none) (parse "x = 'a'").body)
        (· = .text "a") ∧
      run Host.ofStore none (parse "x = 'a'") = walkAll Host.ofStore none (parse "x = 'a'") := by
  have hc : (parse "x = 'a'").body.constant? = some ⟨.text "a", true⟩ := by decide +kernel
  obtain ⟨-, hnodes, hrun, -⟩ := folding_is_invisible Host.ofStore none "x = 'a'"
  exact ⟨hc, (hnodes _ (Body.mem_nodes_self _) _ hc).2 rfl _ nofun, hrun⟩

end Evaluation
end TargetView
