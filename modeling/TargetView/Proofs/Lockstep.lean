import TargetView.Proofs.Coupling
import TargetView.Proofs.Folding

/-! # Evaluations on hosts in step

An evaluation learns of its host only through the operations of the host.  On
two hosts in step it therefore gives the same and leaves related states
(`inStep_attempt`): nothing but the answers of the host enters into it.  The
proof goes over the forms of expressions once, with the places and arguments
among them; the walk is enough, as the shortcut for constants does not show.
-/
namespace TargetView

variable {σ τ : Type} {C : Coupling Fault σ τ} {h : Host σ} {k : Host τ}

open Coupling

namespace Host.InStep

variable (hk : Host.InStep C.Corresponds h k) (scope : Option Ref)
include hk

theorem couples_readName (name : String) :
    C.Couples (h.readName scope name) (k.readName scope name) := by
  unfold readName
  split
  · refine (couples_lift (hk.resolvePath name)).bind fun v? => ?_
    cases v? with
    | some v => exact couples_pure v
    | none => exact couples_throw _
  · refine (couples_lift (hk.symbolExists scope name)).bind fun known => ?_
    cases known with
    | true =>
      exact (couples_lift (hk.readSymbol scope name)).bind fun v? => couples_pure _
    | false =>
      refine (couples_lift (hk.writeSymbol scope name .zero)).bind fun written => ?_
      cases written with
      | true => exact couples_pure _
      | false => exact couples_throw _

theorem couples_readMember (base : Value) (key : Key) :
    C.Couples (h.readMember base key) (k.readMember base key) := by
  cases base with
  | container ref => exact (couples_lift (hk.readKey ref key)).bind fun _ => couples_pure _
  | scalar | undefined => exact couples_pure _

theorem couples_readPlace (place : Place) :
    C.Couples (h.readPlace scope place) (k.readPlace scope place) := by
  cases place with
  | symbol name => exact hk.couples_readName scope name
  | key ref key => exact (couples_lift (hk.readKey ref key)).bind fun _ => couples_pure _

theorem couples_writePlace (place : Place) (v : Value) :
    C.Couples (h.writePlace scope place v) (k.writePlace scope place v) := by
  cases place with
  | symbol name =>
    refine (couples_lift (hk.writeSymbol scope name v)).bind fun written => ?_
    cases written with
    | true => exact couples_pure _
    | false => exact couples_throw _
  | key ref key =>
    refine (couples_lift (hk.writeKey ref key v)).bind fun written => ?_
    cases written with
    | true => exact couples_pure _
    | false => exact couples_throw _

theorem couples_held? (place : Place) :
    C.Couples (h.held? scope place) (k.held? scope place) := by
  cases place with
  | symbol name => exact couples_lift (hk.readSymbol scope name)
  | key ref key => exact couples_lift (hk.readKey ref key)

theorem couples_containerAt (place : Place) (key : Key) :
    C.Couples (h.containerAt scope place key) (k.containerAt scope place key) := by
  refine (hk.couples_held? scope place).bind fun held => ?_
  have hnew {x : Eval σ Ref} {y : Eval τ Ref} (hxy : C.Couples x y) :
      C.Couples
        (do
          let ref ← x
          h.writePlace scope place (.container ref)
          return ref)
        (do
          let ref ← y
          k.writePlace scope place (.container ref)
          return ref) :=
    hxy.bind fun ref => (hk.couples_writePlace scope place _).bind fun _ => couples_pure ref
  split
  · exact couples_pure _
  · dsimp only
    split
    · exact hnew (couples_lift hk.newArray)
    · exact hnew (couples_lift hk.newObject)

/-! ## Intrinsics -/

omit hk in
theorem couples_answerOr (answer? : Option Answer) {x : Eval σ Value} {y : Eval τ Value}
    (hxy : C.Couples x y) : C.Couples (answerOr answer? x) (answerOr answer? y) := by
  match answer? with
  | none => exact hxy
  | some (.ok v) => exact couples_pure v
  | some (.error fault) => exact couples_throw fault

theorem couples_builtinMemoryInUse :
    C.Couples h.builtinMemoryInUse k.builtinMemoryInUse := by
  refine (couples_lift hk.bytesUsed).bind fun bytes? => ?_
  cases bytes? with
  | some bytes => exact couples_pure _
  | none => exact couples_throw _

omit hk in
theorem couples_registerAnswer (name : String) (v? : Option Value) :
    C.Couples
      (match v? with
        | some v => pure v
        | none => throw (.registerUnavailable name))
      (match v? with
        | some v => pure v
        | none => throw (.registerUnavailable name)) := by
  cases v? with
  | some v => exact couples_pure v
  | none => exact couples_throw _

theorem couples_builtinRegister (name : String) :
    C.Couples (h.builtinRegister name) (k.builtinRegister name) := by
  refine (couples_lift hk.hasRegisters).bind fun has => ?_
  cases has with
  | false => exact couples_throw _
  | true =>
    dsimp only
    rw [if_pos rfl, if_pos rfl]
    split
    · exact (couples_throw _).bind fun _ =>
        (couples_lift (hk.registerValue name)).bind (couples_registerAnswer name)
    · exact (couples_lift (hk.registerValue name)).bind (couples_registerAnswer name)

theorem couples_builtinExists (name : String) :
    C.Couples (h.builtinExists scope name) (k.builtinExists scope name) := by
  unfold builtinExists
  split
  · exact (couples_lift (hk.resolvePath name)).bind fun _ => couples_pure _
  · refine (couples_lift (hk.symbolExists scope name)).bind fun known => ?_
    cases known with
    | true => exact couples_pure _
    | false =>
      refine Couples.bind ?_ fun _ => couples_pure _
      exact (hk.couples_readName scope name).bind fun _ => couples_pure _

theorem couples_builtin (fn : Intrinsic) (name : String) :
    C.Couples (h.builtin scope fn name) (k.builtin scope fn name) := by
  cases fn with
  | calcMemUsed => exact hk.couples_builtinMemoryInUse
  | findSymbol => exact hk.couples_readName scope name
  | getRegVal => exact hk.couples_builtinRegister name
  | offsetOf => exact couples_pure _
  | sizeOf =>
    unfold builtin
    dsimp only
    split
    · exact couples_pure _
    · exact couples_throw _
  | symbolExists => exact hk.couples_builtinExists scope name

theorem couples_callIntrinsic (fn : Intrinsic) (args : List Value) :
    C.Couples (h.callIntrinsic scope fn args) (k.callIntrinsic scope fn args) := by
  refine (couples_lift (hk.dispatch fn args)).bind fun answer? => couples_answerOr answer? ?_
  split
  · exact (couples_lift (hk.memoryInUse args)).bind fun answer? =>
      couples_answerOr answer? hk.couples_builtinMemoryInUse
  · exact (couples_lift (hk.answerFor _ _)).bind fun answer? =>
      couples_answerOr answer? (hk.couples_builtin scope _ _)
  · exact couples_throw _

end Host.InStep

namespace Evaluation

theorem couples_operand (v : Value) :
    C.Couples (v.operand : Eval σ Scalar) (v.operand : Eval τ Scalar) := by
  unfold Value.operand
  split
  · exact couples_pure _
  · exact couples_throw _

theorem couples_apply (op : BinaryOp) (l r : Scalar) :
    C.Couples (op.apply l r : Eval σ Scalar) (op.apply l r : Eval τ Scalar) := by
  unfold BinaryOp.apply
  split
  · exact couples_pure _
  · exact couples_throw _

theorem couples_onValues (op : BinaryOp) (l r : Value) :
    C.Couples (op.onValues l r : Eval σ Value) (op.onValues l r : Eval τ Value) := by
  unfold BinaryOp.onValues
  split
  · exact couples_pure _
  · exact couples_pure _
  · exact (couples_operand _).bind fun x => (couples_operand _).bind fun y =>
      (couples_apply _ x y).bind fun _ => couples_pure _

theorem couples_logical {decides : Bool} {x x' : Eval σ Value} {y y' : Eval τ Value}
    (hx : C.Couples x y) (hx' : C.Couples x' y') :
    C.Couples (logical decides x x') (logical decides y y') := by
  refine hx.bind fun v => ?_
  split
  · exact couples_pure _
  · exact hx'.bind fun _ => couples_pure _

mutual
theorem couples_walk (hk : Host.InStep C.Corresponds h k) (scope : Option Ref) : ∀ e : Expr,
    C.Couples (evalWith h scope (fun _ => none) e) (evalWith k scope (fun _ => none) e)
  | .number .. | .text .. => by
    rw [evalWith, evalWith]
    exact couples_pure _
  | .call .. | .malformed _ | .unnamed .. => by
    rw [evalWith, evalWith]
    exact couples_throw _
  | .ident name _ => by
    rw [evalWith, evalWith]
    exact hk.couples_readName scope name
  | .member base name _ => by
    rw [evalWith, evalWith]
    exact (couples_walk hk scope base).bind fun v => hk.couples_readMember v _
  | .index base key _ => by
    rw [evalWith, evalWith]
    exact (couples_walk hk scope base).bind fun v => (couples_walk hk scope key).bind fun i =>
      hk.couples_readMember v _
  | .unary op operand _ => by
    rw [evalWith, evalWith]
    exact (couples_walk hk scope operand).bind fun v => (couples_operand v).bind fun _ => couples_pure _
  | .binary op left right _ => by
    rcases op.logical_or_strict with rfl | rfl | hop
    · rw [evalWith_and rfl, evalWith_and rfl]
      exact couples_logical (couples_walk hk scope left) (couples_walk hk scope right)
    · rw [evalWith_or rfl, evalWith_or rfl]
      exact couples_logical (couples_walk hk scope left) (couples_walk hk scope right)
    · rw [evalWith_strict hop rfl, evalWith_strict hop rfl]
      exact (couples_walk hk scope left).bind fun l => (couples_walk hk scope right).bind fun r =>
        couples_onValues op l r
  | .conditional cond yes no _ => by
    rw [evalWith, evalWith]
    refine (couples_walk hk scope cond).bind fun v => ?_
    split
    · exact couples_walk hk scope yes
    · exact couples_walk hk scope no
  | .assign op target value _ => by
    rw [evalWith, evalWith]
    refine (couples_place hk scope target).bind fun place => ?_
    have hwrite (v : Value) : C.Couples
        (do
          h.writePlace scope place v
          return v)
        (do
          k.writePlace scope place v
          return v) :=
      (hk.couples_writePlace scope place v).bind fun _ => couples_pure v
    cases op with
    | assign => exact (couples_walk hk scope value).bind fun v => hwrite v
    | compound op =>
      refine (hk.couples_readPlace scope place).bind fun current =>
        (couples_walk hk scope value).bind fun operand => ?_
      exact (couples_operand current).bind fun l => (couples_operand operand).bind fun r =>
        (couples_apply op l r).bind fun v => hwrite (.scalar v)
  | .update op before target _ => by
    rw [evalWith, evalWith]
    refine (couples_place hk scope target).bind fun place =>
      (hk.couples_readPlace scope place).bind fun current => ?_
    refine (couples_operand current).bind fun old => ?_
    exact (couples_apply op.step _ _).bind fun new =>
      (hk.couples_writePlace scope place _).bind fun _ => couples_pure _
  | .intrinsic fn nameSpan args _ => by
    rw [evalWith, evalWith]
    exact (couples_arguments hk scope fn args).bind fun values => hk.couples_callIntrinsic scope fn values

theorem couples_place (hk : Host.InStep C.Corresponds h k) (scope : Option Ref) : ∀ e : Expr,
    C.Couples (placeWith h scope (fun _ => none) e) (placeWith k scope (fun _ => none) e)
  | .ident name _ => by
    rw [placeWith, placeWith]
    split
    · exact couples_throw _
    · exact couples_pure _
  | .member base name _ => by
    rw [placeWith, placeWith]
    exact (couples_place hk scope base).bind fun place =>
      (hk.couples_containerAt scope place _).bind fun _ => couples_pure _
  | .index base key _ => by
    rw [placeWith, placeWith]
    exact (couples_walk hk scope key).bind fun v => (couples_place hk scope base).bind fun place =>
      (hk.couples_containerAt scope place _).bind fun _ => couples_pure _
  | .number .. | .text .. | .unary .. | .binary .. | .conditional .. | .assign .. | .update ..
  | .call .. | .intrinsic .. | .malformed _ | .unnamed .. => by
    rw [placeWith, placeWith]
    · exact couples_throw _
    all_goals nofun

theorem couples_arguments (hk : Host.InStep C.Corresponds h k) (scope : Option Ref)
    (fn : Intrinsic) : ∀ es : List Expr,
    C.Couples (argumentsWith h scope (fun _ => none) fn es)
      (argumentsWith k scope (fun _ => none) fn es)
  | [] => by
    rw [argumentsWith, argumentsWith]
    exact couples_pure _
  | e :: rest => by
    rw [argumentsWith, argumentsWith]
    have hcons (v : Value) : C.Couples
        (do return v :: (← argumentsWith h scope (fun _ => none) fn rest))
        (do return v :: (← argumentsWith k scope (fun _ => none) fn rest)) :=
      (couples_arguments hk scope fn rest).bind fun _ => couples_pure _
    cases e.nameFor? fn with
    | some name => exact hcons _
    | none => exact (couples_walk hk scope e).bind fun v => hcons v
end

/-! ## Texts -/

section Texts

variable (hk : Host.InStep C.Corresponds h k) (scope : Option Ref)
include hk

theorem couples_rendered (spec : Conversion) (v : Value) :
    C.Couples (rendered h spec v) (rendered k spec v) :=
  (couples_lift (hk.formatValue spec v)).bind fun _ => couples_pure _

theorem couples_render (segments : List Segment) :
    C.Couples (renderWith h scope (fun _ => none) segments)
      (renderWith k scope (fun _ => none) segments) := by
  induction segments with
  | nil =>
    rw [renderWith, renderWith]
    exact couples_pure _
  | cons segment rest ih =>
    cases segment with
    | text s =>
      rw [renderWith, renderWith]
      exact ih.bind fun _ => couples_pure _
    | format spec e =>
      rw [renderWith, renderWith]
      exact (couples_walk hk scope e).bind fun v => (couples_rendered hk spec v).bind fun _ =>
        ih.bind fun _ => couples_pure _

theorem couples_run (p : Parsed) : C.Couples (run h scope p) (run k scope p) := by
  rw [run_eq_walkAll, run_eq_walkAll, walkAll, walkAll]
  cases p.body with
  | expression e => exact couples_walk hk scope e
  | template segments span =>
    rw [bodyWith, bodyWith]
    exact (couples_render hk scope segments).bind fun _ => couples_pure _

end Texts

/-- **Hosts in step evaluate a text in step.** -/
theorem inStep_attempt {R : σ → τ → Prop} (hk : Host.InStep R h k) (scope : Option Ref)
    (p : Parsed) :
    InStep R (attempt h scope p).run (attempt k scope p).run := by
  have hrun : InStep R (run h scope p).run (run k scope p).run := by
    intro s t hst
    -- Nothing is excused here, so the two runs agree.
    obtain ⟨e, t', -, hex⟩ | hst' := couples_run (C := ⟨R, fun _ _ => False⟩) hk scope p s t hst
    · exact hex.elim
    · exact hst'
  refine hrun.bind fun r => ?_
  split <;> exact InStep.pure _

end Evaluation
end TargetView
