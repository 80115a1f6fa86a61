import TargetView.Context
import TargetView.Proofs.Evaluation
import TargetView.Proofs.Grammar

/-! # What evaluations inherit from their steps

A property of evaluations is *inherited* if every value has it, every fault that
it permits has it, and a sequence has it if both parts have (`Inherited`).  An
evaluation then has the property if the steps at its nodes do
(`Inherited.holds_evalWith`, `Inherited.holds_run`).

Which steps are taken depends on the nodes that evaluation can reach: an
assignment and an update write, an intrinsic asks the host, malformed text
fails.  `Inherited.Steps` demands of the steps what the nodes need that
`Admits` lets pass.
-/
namespace TargetView

/-! ## Nodes that are reached -/

namespace Expr

mutual
/-- An expression and the nodes below it, those of malformed text excepted. -/
def reachable (e : Expr) : List Expr :=
  match e with
  | number .. | text .. | ident .. | malformed _ | unnamed .. => [e]
  | member base _ _ => e :: base.reachable
  | unary _ operand _ => e :: operand.reachable
  | update _ _ target _ => e :: target.reachable
  | index base key _ => e :: (base.reachable ++ key.reachable)
  | binary _ left right _ => e :: (left.reachable ++ right.reachable)
  | assign _ target value _ => e :: (target.reachable ++ value.reachable)
  | conditional cond yes no _ => e :: (cond.reachable ++ (yes.reachable ++ no.reachable))
  | call callee args _ => e :: (callee.reachable ++ reachableAll args)
  | intrinsic _ _ args _ => e :: reachableAll args

/-- The nodes that are reached in some expressions. -/
def reachableAll : List Expr → List Expr
  | [] => []
  | e :: rest => e.reachable ++ reachableAll rest
end

theorem mem_reachable_self (e : Expr) : e ∈ e.reachable := by
  cases e <;> simp [reachable]

mutual
theorem mem_parts_of_mem_reachable : ∀ (e : Expr), ∀ p ∈ e.reachable, p ∈ e.parts
  | .number .., p, h | .text .., p, h | .ident .., p, h | .malformed _, p, h => h
  | .unnamed .., p, h => List.mem_append_right _ h
  | .member base _ _, p, h | .unary _ base _, p, h | .update _ _ base _, p, h => by
    have ih := mem_parts_of_mem_reachable base p
    simp only [reachable, List.mem_cons] at h
    simp only [parts, List.mem_append, List.mem_singleton]
    grind
  | .index left right _, p, h | .binary _ left right _, p, h | .assign _ left right _, p, h => by
    have ihl := mem_parts_of_mem_reachable left p
    have ihr := mem_parts_of_mem_reachable right p
    simp only [reachable, List.mem_cons, List.mem_append] at h
    simp only [parts, List.mem_append, List.mem_singleton]
    grind
  | .conditional cond yes no _, p, h => by
    have ihc := mem_parts_of_mem_reachable cond p
    have ihy := mem_parts_of_mem_reachable yes p
    have ihn := mem_parts_of_mem_reachable no p
    simp only [reachable, List.mem_cons, List.mem_append] at h
    simp only [parts, List.mem_append, List.mem_singleton]
    grind
  | .call callee args _, p, h => by
    have ihc := mem_parts_of_mem_reachable callee p
    have iha := mem_partsAll_of_mem_reachableAll args p
    simp only [reachable, List.mem_cons, List.mem_append] at h
    simp only [parts, List.mem_append, List.mem_singleton]
    grind
  | .intrinsic _ _ args _, p, h => by
    have iha := mem_partsAll_of_mem_reachableAll args p
    simp only [reachable, List.mem_cons] at h
    simp only [parts, List.mem_append, List.mem_cons]
    grind

theorem mem_partsAll_of_mem_reachableAll :
    ∀ (es : List Expr), ∀ p ∈ reachableAll es, p ∈ partsAll es
  | [], _, h => h
  | e :: rest, p, h =>
    List.mem_append.mpr ((List.mem_append.mp h).imp (mem_parts_of_mem_reachable e p)
      (mem_partsAll_of_mem_reachableAll rest p))
end

/-- The identifier at the bottom of members and elements. -/
def root? : Expr → Option String
  | ident name _ => some name
  | member base _ _ | index base _ _ => base.root?
  | _ => none

/-- The expression is an identifier that is no path, or members and elements of
one. -/
def IsRooted (e : Expr) : Prop := ∃ name, e.root? = some name ∧ isPath name = false

end Expr

namespace Body

/-- The expressions that the evaluation of a body can reach. -/
def reachable : Body → List Expr
  | expression e => e.reachable
  | template segments _ => segments.flatMap fun
    | .text _ => []
    | .format _ e => e.reachable

theorem mem_parts_of_mem_reachable (body : Body) : ∀ p ∈ body.reachable, p ∈ body.parts := by
  intro p h
  cases body with
  | expression e => exact e.mem_parts_of_mem_reachable p h
  | template segments _ =>
    obtain ⟨segment, hmem, hp⟩ := List.mem_flatMap.mp h
    refine List.mem_flatMap.mpr ⟨segment, hmem, ?_⟩
    cases segment with
    | text _ => cases hp
    | format _ e => exact e.mem_parts_of_mem_reachable p hp

end Body

/-! ## Inherited properties -/

/-- A property of evaluations that all values and some faults have, and that a
sequence has if its parts do. -/
structure Inherited (σ : Type) where
  Holds : {α : Type} → Eval σ α → Prop
  /-- The faults that an evaluation with the property may throw. -/
  Permits : Fault → Prop
  holds_pure : ∀ {α : Type} (a : α), Holds (pure a : Eval σ α)
  holds_throw : ∀ {α : Type} {f : Fault}, Permits f → Holds (throw f : Eval σ α)
  holds_bind : ∀ {α β : Type} {x : Eval σ α} {f : α → Eval σ β},
    Holds x → (∀ a, Holds (f a)) → Holds (x >>= f)

namespace Inherited

open Evaluation

variable {σ α : Type} (I : Inherited σ)

/-- The steps of evaluations that reach admitted nodes only have the property. -/
structure Steps (host : Host σ) (scope : Option Ref) (Admits : Expr → Prop) : Prop where
  operator : ∀ fault, I.Permits (.operator fault)
  operand : I.Permits .containerInArithmetic
  call : ∀ name, I.Permits (.notCallable name)
  malformed : ∀ e, Admits e → e.isMalformed = true → I.Permits .malformed
  readName : ∀ name, I.Holds (host.readName scope name)
  readMember : ∀ base key, I.Holds (host.readMember base key)
  intrinsic : ∀ fn nameSpan args span, Admits (.intrinsic fn nameSpan args span) →
    ∀ values, I.Holds (host.callIntrinsic scope fn values)
  rendered : ∀ spec v, I.Holds (rendered host spec v)
  target : ∀ e target, Admits e → e.target? = some target →
    (target.IsRooted ∨ I.Permits .invalidTarget) ∧
      (∀ place key, I.Holds (host.containerAt scope place key)) ∧
      ∀ place v, I.Holds (host.writePlace scope place v)

variable {I} {host : Host σ} {scope : Option Ref} {Admits : Expr → Prop}
  {known : Expr → Option Scalar}

theorem holds_logical {decides : Bool} {x y : Eval σ Value} (hx : I.Holds x) (hy : I.Holds y) :
    I.Holds (logical decides x y) := by
  refine I.holds_bind hx fun v => ?_
  split
  · exact I.holds_pure _
  · exact I.holds_bind hy fun _ => I.holds_pure _

namespace Steps

section Operators

variable (hsteps : I.Steps host scope Admits)
include hsteps

theorem holds_operand (v : Value) : I.Holds (v.operand : Eval σ Scalar) := by
  unfold Value.operand
  split
  · exact I.holds_pure _
  · exact I.holds_throw hsteps.operand

theorem holds_apply (op : BinaryOp) (l r : Scalar) : I.Holds (op.apply l r : Eval σ Scalar) := by
  unfold BinaryOp.apply
  split
  · exact I.holds_pure _
  · exact I.holds_throw (hsteps.operator _)

theorem holds_onValues (op : BinaryOp) (l r : Value) :
    I.Holds (op.onValues l r : Eval σ Value) := by
  unfold BinaryOp.onValues
  split
  · exact I.holds_pure _
  · exact I.holds_pure _
  · exact I.holds_bind (hsteps.holds_operand _) fun x =>
      I.holds_bind (hsteps.holds_operand _) fun y =>
        I.holds_bind (hsteps.holds_apply _ x y) fun _ => I.holds_pure _

theorem holds_readPlace (place : Place) : I.Holds (host.readPlace scope place) := by
  cases place with
  | symbol name => exact hsteps.readName name
  | key ref key => exact hsteps.readMember (.container ref) key

end Operators

/-! ### Expressions -/

mutual
/-- **An evaluation has an inherited property if the steps at its nodes have it.** -/
theorem holds_evalWith (hsteps : I.Steps host scope Admits) :
    ∀ e : Expr, (∀ p ∈ e.reachable, Admits p) → I.Holds (evalWith host scope known e)
  | e, h => by
    have hself : Admits e := h e e.mem_reachable_self
    cases hknown : known e with
    | some x =>
      rw [evalWith_known hknown]
      exact I.holds_pure _
    | none =>
      match e with
      | .number .. | .text .. =>
        rw [evalWith, hknown]
        exact I.holds_pure _
      | .call .. =>
        rw [evalWith, hknown]
        exact I.holds_throw (hsteps.call _)
      | .malformed _ | .unnamed .. =>
        rw [evalWith, hknown]
        exact I.holds_throw (hsteps.malformed _ hself rfl)
      | .ident name _ =>
        rw [evalWith, hknown]
        exact hsteps.readName name
      | .member base name _ =>
        obtain ⟨-, hb⟩ := List.forall_mem_cons.mp h
        rw [evalWith, hknown]
        exact I.holds_bind (holds_evalWith hsteps base hb) fun v => hsteps.readMember v _
      | .index base key _ =>
        obtain ⟨-, hp⟩ := List.forall_mem_cons.mp h
        obtain ⟨hb, hk⟩ := List.forall_mem_append.mp hp
        rw [evalWith, hknown]
        exact I.holds_bind (holds_evalWith hsteps base hb) fun v =>
          I.holds_bind (holds_evalWith hsteps key hk) fun k => hsteps.readMember v _
      | .unary op operand _ =>
        obtain ⟨-, ho⟩ := List.forall_mem_cons.mp h
        rw [evalWith, hknown]
        exact I.holds_bind (holds_evalWith hsteps operand ho) fun v =>
          I.holds_bind (hsteps.holds_operand v) fun _ => I.holds_pure _
      | .binary op left right _ =>
        obtain ⟨-, hp⟩ := List.forall_mem_cons.mp h
        obtain ⟨hl, hr⟩ := List.forall_mem_append.mp hp
        rcases op.logical_or_strict with rfl | rfl | hop
        · rw [evalWith_and hknown]
          exact holds_logical (holds_evalWith hsteps left hl) (holds_evalWith hsteps right hr)
        · rw [evalWith_or hknown]
          exact holds_logical (holds_evalWith hsteps left hl) (holds_evalWith hsteps right hr)
        · rw [evalWith_strict hop hknown]
          exact I.holds_bind (holds_evalWith hsteps left hl) fun l =>
            I.holds_bind (holds_evalWith hsteps right hr) fun r => hsteps.holds_onValues op l r
      | .conditional cond yes no _ =>
        obtain ⟨-, hp⟩ := List.forall_mem_cons.mp h
        obtain ⟨hc, hp⟩ := List.forall_mem_append.mp hp
        obtain ⟨hy, hn⟩ := List.forall_mem_append.mp hp
        rw [evalWith, hknown]
        refine I.holds_bind (holds_evalWith hsteps cond hc) fun v => ?_
        split
        · exact holds_evalWith hsteps yes hy
        · exact holds_evalWith hsteps no hn
      | .assign op target value _ =>
        obtain ⟨-, hp⟩ := List.forall_mem_cons.mp h
        obtain ⟨ht, hv⟩ := List.forall_mem_append.mp hp
        obtain ⟨hrooted, hcontainer, hwrite⟩ := hsteps.target _ target hself rfl
        rw [evalWith, hknown]
        refine I.holds_bind (holds_placeWith hsteps target ht hrooted hcontainer) fun place => ?_
        have hend (v : Value) : I.Holds (do
            host.writePlace scope place v
            return v) := I.holds_bind (hwrite place v) fun _ => I.holds_pure _
        cases op with
        | assign => exact I.holds_bind (holds_evalWith hsteps value hv) fun v => hend v
        | compound op =>
          refine I.holds_bind (hsteps.holds_readPlace place) fun current =>
            I.holds_bind (holds_evalWith hsteps value hv) fun operand => ?_
          exact I.holds_bind (hsteps.holds_operand current) fun l =>
            I.holds_bind (hsteps.holds_operand operand) fun r =>
              I.holds_bind (hsteps.holds_apply op l r) fun v => hend (.scalar v)
      | .update op before target _ =>
        obtain ⟨-, ht⟩ := List.forall_mem_cons.mp h
        obtain ⟨hrooted, hcontainer, hwrite⟩ := hsteps.target _ target hself rfl
        rw [evalWith, hknown]
        refine I.holds_bind (holds_placeWith hsteps target ht hrooted hcontainer) fun place =>
          I.holds_bind (hsteps.holds_readPlace place) fun current => ?_
        refine I.holds_bind (hsteps.holds_operand current) fun old => ?_
        exact I.holds_bind (hsteps.holds_apply op.step _ _) fun new =>
          I.holds_bind (hwrite place _) fun _ => I.holds_pure _
      | .intrinsic fn nameSpan args _ =>
        obtain ⟨-, hargs⟩ := List.forall_mem_cons.mp h
        rw [evalWith, hknown]
        exact I.holds_bind (holds_argumentsWith hsteps fn args hargs) fun values =>
          hsteps.intrinsic fn _ _ _ hself values

/-- The same of the place that an expression denotes. -/
theorem holds_placeWith (hsteps : I.Steps host scope Admits) :
    ∀ e : Expr, (∀ p ∈ e.reachable, Admits p) → (e.IsRooted ∨ I.Permits .invalidTarget) →
    (∀ place key, I.Holds (host.containerAt scope place key)) →
    I.Holds (placeWith host scope known e)
  | .ident name _, _, hrooted, _ => by
    rw [placeWith]
    split
    · next hpath =>
      refine I.holds_throw (hrooted.resolve_left ?_)
      rintro ⟨_, ⟨⟩, hname⟩
      exact Bool.false_ne_true (hname.symm.trans hpath)
    · exact I.holds_pure _
  | .member base name _, h, hrooted, hcontainer => by
    obtain ⟨-, hb⟩ := List.forall_mem_cons.mp h
    rw [placeWith]
    exact I.holds_bind (holds_placeWith hsteps base hb hrooted hcontainer) fun place =>
      I.holds_bind (hcontainer place _) fun _ => I.holds_pure _
  | .index base key _, h, hrooted, hcontainer => by
    obtain ⟨-, hp⟩ := List.forall_mem_cons.mp h
    obtain ⟨hb, hk⟩ := List.forall_mem_append.mp hp
    rw [placeWith]
    exact I.holds_bind (holds_evalWith hsteps key hk) fun v =>
      I.holds_bind (holds_placeWith hsteps base hb hrooted hcontainer) fun place =>
        I.holds_bind (hcontainer place _) fun _ => I.holds_pure _
  | .number .., _, hrooted, _ | .text .., _, hrooted, _ | .unary .., _, hrooted, _
  | .binary .., _, hrooted, _ | .conditional .., _, hrooted, _ | .assign .., _, hrooted, _
  | .update .., _, hrooted, _ | .call .., _, hrooted, _ | .intrinsic .., _, hrooted, _
  | .malformed _, _, hrooted, _ | .unnamed .., _, hrooted, _ => by
    rw [placeWith]
    · refine I.holds_throw (hrooted.resolve_left ?_)
      rintro ⟨_, ⟨⟩, -⟩
    all_goals nofun

theorem holds_argumentsWith (hsteps : I.Steps host scope Admits) (fn : Intrinsic) :
    ∀ es : List Expr, (∀ p ∈ Expr.reachableAll es, Admits p) →
      I.Holds (argumentsWith host scope known fn es)
  | [], _ => by
    rw [argumentsWith]
    exact I.holds_pure _
  | e :: rest, h => by
    obtain ⟨he, hrest⟩ := List.forall_mem_append.mp h
    have hcons (v : Value) : I.Holds (do
        return v :: (← argumentsWith host scope known fn rest)) :=
      I.holds_bind (holds_argumentsWith hsteps fn rest hrest) fun _ => I.holds_pure _
    rw [argumentsWith]
    cases e.nameFor? fn with
    | some name => exact I.holds_bind (I.holds_pure _) hcons
    | none => exact I.holds_bind (holds_evalWith hsteps e he) hcons
end

/-! ### Texts -/

section Texts

variable (hsteps : I.Steps host scope Admits)
include hsteps

theorem holds_renderWith (segments : List Segment)
    (h : ∀ spec e, Segment.format spec e ∈ segments → ∀ p ∈ e.reachable, Admits p) :
    I.Holds (renderWith host scope known segments) := by
  induction segments with
  | nil =>
    rw [renderWith]
    exact I.holds_pure _
  | cons segment rest ih =>
    have hrest := ih fun spec e hmem => h spec e (List.mem_cons_of_mem _ hmem)
    cases segment with
    | text s =>
      rw [renderWith]
      exact I.holds_bind hrest fun _ => I.holds_pure _
    | format spec e =>
      rw [renderWith]
      exact I.holds_bind (hsteps.holds_evalWith e (h spec e List.mem_cons_self)) fun v =>
        I.holds_bind (hsteps.rendered spec v) fun _ =>
          I.holds_bind hrest fun _ => I.holds_pure _

theorem holds_run (p : Parsed) (h : ∀ e ∈ p.body.reachable, Admits e) :
    I.Holds (run host scope p) := by
  unfold run
  split
  · exact I.holds_pure _
  · cases hbody : p.body with
    | expression e =>
      rw [hbody] at h
      exact hsteps.holds_evalWith e h
    | template segments span =>
      rw [hbody] at h
      rw [bodyWith]
      refine I.holds_bind (hsteps.holds_renderWith segments fun spec e hmem p hp => h p ?_)
        fun _ => I.holds_pure _
      exact List.mem_flatMap.mpr ⟨_, hmem, hp⟩

end Texts

end Steps
end Inherited
end TargetView
