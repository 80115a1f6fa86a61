import TargetView.Proofs.Contract
import TargetView.Proofs.Evaluation

/-! # Evaluations keep what their host keeps

On a host that honours a contract every evaluation keeps it, and gives known
containers only (`keeps_evalWith`, `keeps_run`).  The proof goes over the forms
of expressions once, with the places and arguments among them; what is known of
a subexpression beforehand is a scalar and does not matter.
-/
namespace TargetView

open Contract

variable {σ α : Type} {C : HostContract σ} {h : Host σ} {s : σ}

namespace Host.Honours

variable (hh : h.Honours C) (scope : Option Ref)
include hh

theorem keeps_readName (name : String) : C.Keeps s (h.readName scope name) C.Known := by
  unfold readName
  split
  · refine (keeps_lift (hh.resolvePath s name)).bind fun t v? _ hv => ?_
    cases v? with
    | some v => exact keeps_pure (hv v rfl)
    | none => exact keeps_throw (C.excuses_plain rfl)
  · refine (keeps_lift (hh.symbolExists s scope name)).bind fun t known _ _ => ?_
    cases known with
    | true =>
      exact (keeps_lift (hh.readSymbol t scope name)).bind fun _ _ _ hv =>
        keeps_pure (HostContract.known_getD hv)
    | false =>
      refine (keeps_lift (hh.writeSymbol t scope name .zero
        (HostContract.known_scalar _))).bind fun _ written _ _ => ?_
      cases written with
      | true => exact keeps_pure (HostContract.known_scalar _)
      | false => exact keeps_throw (C.excuses_plain rfl)

theorem keeps_readMember (base : Value) (key : Key) :
    C.Keeps s (h.readMember base key) C.Known := by
  cases base with
  | container ref =>
    exact (keeps_lift (hh.readKey s ref key)).bind fun _ _ _ hv =>
      keeps_pure (HostContract.known_getD hv)
  | scalar | undefined => exact keeps_pure HostContract.known_undefined

theorem keeps_readPlace (place : Place) : C.Keeps s (h.readPlace scope place) C.Known := by
  cases place with
  | symbol name => exact hh.keeps_readName scope name
  | key ref key => exact hh.keeps_readMember (.container ref) key

theorem keeps_writePlace (place : Place) {v : Value} (hv : C.Known s v) :
    C.Keeps s (h.writePlace scope place v) fun _ _ => True := by
  cases place with
  | symbol name =>
    refine (keeps_lift (hh.writeSymbol s scope name v hv)).bind fun _ written _ _ => ?_
    cases written with
    | true => exact keeps_pure trivial
    | false => exact keeps_throw (C.excuses_plain rfl)
  | key ref key =>
    refine (keeps_lift (hh.writeKey s ref key v hv)).bind fun _ written _ _ => ?_
    cases written with
    | true => exact keeps_pure trivial
    | false => exact keeps_throw (C.excuses_plain rfl)

theorem keeps_held? (place : Place) :
    C.Keeps s (h.held? scope place) fun t v? => ∀ v ∈ v?, C.Known t v := by
  cases place with
  | symbol name => exact keeps_lift (hh.readSymbol s scope name)
  | key ref key => exact keeps_lift (hh.readKey s ref key)

theorem keeps_containerAt (place : Place) (key : Key) :
    C.Keeps s (h.containerAt scope place key) fun _ _ => True := by
  refine (hh.keeps_held? scope place).bind fun t held _ _ => ?_
  have hnew {x : Eval σ Ref} (hx : C.Keeps t x C.Knows) :
      C.Keeps t
        (do
          let ref ← x
          h.writePlace scope place (.container ref)
          return ref) fun _ _ => True :=
    hx.bind fun _ ref _ href =>
      (hh.keeps_writePlace scope place (HostContract.known_container href)).bind
        fun _ _ _ _ => keeps_pure trivial
  split
  · exact keeps_pure trivial
  · dsimp only
    split
    · exact hnew (keeps_lift (hh.newArray t))
    · exact hnew (keeps_lift (hh.newObject t))

/-! ## Intrinsics -/

omit hh in
theorem keeps_answerOr {answer? : Option Answer} {x : Eval σ Value}
    (ha : ∀ answer ∈ answer?, C.Ends C.Known s answer) (hx : C.Keeps s x C.Known) :
    C.Keeps s (answerOr answer? x) C.Known := by
  cases answer? with
  | none => exact hx
  | some answer => exact keeps_liftExcept (ha answer rfl)

theorem keeps_builtinMemoryInUse : C.Keeps s h.builtinMemoryInUse C.Known := by
  refine (keeps_lift (hh.bytesUsed s)).bind fun t bytes? _ hnone => ?_
  cases bytes? with
  | some bytes => exact keeps_pure (HostContract.known_scalar _)
  | none => exact keeps_throw (hnone rfl)

omit hh in
theorem keeps_registerAnswer (name : String) {v? : Option Value}
    (hv : ∀ v ∈ v?, C.Known s v) :
    C.Keeps s
      (match v? with
        | some v => pure v
        | none => throw (.registerUnavailable name)) C.Known := by
  cases v? with
  | some v => exact keeps_pure (hv v rfl)
  | none => exact keeps_throw (C.excuses_plain rfl)

theorem keeps_builtinRegister (name : String) : C.Keeps s (h.builtinRegister name) C.Known := by
  refine (keeps_lift (hh.hasRegisters s)).bind fun t has _ hnone => ?_
  cases has with
  | false => exact keeps_throw (hnone rfl)
  | true =>
    dsimp only
    rw [if_pos rfl]
    by_cases hpath : isPath name = true
    · rw [if_pos hpath]
      exact keeps_throw (C.excuses_plain rfl)
    · rw [if_neg hpath]
      exact (keeps_lift (hh.registerValue t name)).bind fun _ _ _ hv =>
        keeps_registerAnswer name hv

theorem keeps_builtinExists (name : String) :
    C.Keeps s (h.builtinExists scope name) C.Known := by
  unfold builtinExists
  split
  · exact (keeps_lift (hh.resolvePath s name)).bind fun _ _ _ _ =>
      keeps_pure (HostContract.known_scalar _)
  · refine (keeps_lift (hh.symbolExists s scope name)).bind fun t known _ _ => ?_
    cases known with
    | true => exact keeps_pure (HostContract.known_scalar _)
    | false =>
      refine Keeps.bind (P := fun _ _ => True) ?_ fun _ _ _ _ =>
        keeps_pure (HostContract.known_scalar _)
      exact (hh.keeps_readName scope name).bind fun _ _ _ _ => keeps_pure trivial

theorem keeps_builtin (fn : Intrinsic) (name : String) :
    C.Keeps s (h.builtin scope fn name) C.Known := by
  cases fn with
  | calcMemUsed => exact hh.keeps_builtinMemoryInUse
  | findSymbol => exact hh.keeps_readName scope name
  | getRegVal => exact hh.keeps_builtinRegister name
  | offsetOf => exact keeps_pure (HostContract.known_scalar _)
  | sizeOf =>
    unfold builtin
    dsimp only
    split
    · exact keeps_pure (HostContract.known_scalar _)
    · exact keeps_throw (C.excuses_plain rfl)
  | symbolExists => exact hh.keeps_builtinExists scope name

theorem keeps_callIntrinsic (fn : Intrinsic) {args : List Value}
    (hargs : ∀ v ∈ args, C.Known s v) :
    C.Keeps s (h.callIntrinsic scope fn args) C.Known := by
  refine (keeps_lift (hh.dispatch s fn args hargs)).bind fun t _ hst ha => keeps_answerOr ha ?_
  have hargs' : ∀ v ∈ args, C.Known t v := fun v hv => (hargs v hv).of_becomes hst
  split
  · exact (keeps_lift (hh.memoryInUse t _ hargs')).bind fun _ _ _ ha =>
      keeps_answerOr ha hh.keeps_builtinMemoryInUse
  · exact (keeps_lift (hh.answerFor t _ _)).bind fun _ _ _ ha =>
      keeps_answerOr ha (hh.keeps_builtin scope _ _)
  · exact keeps_throw (C.excuses_plain rfl)

end Host.Honours

namespace Evaluation

/-! ## Operators -/

theorem keeps_operand (v : Value) : C.Keeps s v.operand fun _ _ => True := by
  unfold Value.operand
  split
  · exact keeps_pure trivial
  · exact keeps_throw (C.excuses_plain rfl)

theorem keeps_apply (op : BinaryOp) (l r : Scalar) : C.Keeps s (op.apply l r) fun _ _ => True := by
  unfold BinaryOp.apply
  split
  · exact keeps_pure trivial
  · exact keeps_throw (C.excuses_plain rfl)

theorem keeps_onValues (op : BinaryOp) (l r : Value) : C.Keeps s (op.onValues l r) C.Known := by
  unfold BinaryOp.onValues
  split
  · exact keeps_pure (HostContract.known_scalar _)
  · exact keeps_pure (HostContract.known_scalar _)
  · exact (keeps_operand _).bind fun _ x _ _ => (keeps_operand _).bind fun _ y _ _ =>
      (keeps_apply _ x y).bind fun _ _ _ _ => keeps_pure (HostContract.known_scalar _)

theorem keeps_logical {decides : Bool} {x y : Eval σ Value} (hx : C.Keeps s x C.Known)
    (hy : ∀ t, C.Keeps t y C.Known) : C.Keeps s (logical decides x y) C.Known := by
  refine hx.bind fun t v _ _ => ?_
  split
  · exact keeps_pure (HostContract.known_scalar _)
  · exact (hy t).bind fun _ _ _ _ => keeps_pure (HostContract.known_scalar _)

/-! ## Expressions -/

variable {known : Expr → Option Scalar}

mutual
/-- **Every evaluation keeps what its host keeps**, and its value is no unknown
container. -/
theorem keeps_evalWith (hh : h.Honours C) (scope : Option Ref) :
    ∀ (e : Expr) (s : σ), C.Keeps s (evalWith h scope known e) C.Known
  | e, s => by
    cases hknown : known e with
    | some x =>
      rw [evalWith_known hknown]
      exact keeps_pure (HostContract.known_scalar x)
    | none =>
      match e with
      | .number .. | .text .. =>
        rw [evalWith, hknown]
        exact keeps_pure (HostContract.known_scalar _)
      | .call .. | .malformed _ | .unnamed .. =>
        rw [evalWith, hknown]
        exact keeps_throw (C.excuses_plain rfl)
      | .ident name _ =>
        rw [evalWith, hknown]
        exact hh.keeps_readName scope name
      | .member base name _ =>
        rw [evalWith, hknown]
        exact (keeps_evalWith hh scope base s).bind fun _ v _ _ => hh.keeps_readMember v _
      | .index base key _ =>
        rw [evalWith, hknown]
        exact (keeps_evalWith hh scope base s).bind fun t v _ _ =>
          (keeps_evalWith hh scope key t).bind fun _ _ _ _ => hh.keeps_readMember v _
      | .unary op operand _ =>
        rw [evalWith, hknown]
        exact (keeps_evalWith hh scope operand s).bind fun _ v _ _ =>
          (keeps_operand v).bind fun _ _ _ _ => keeps_pure (HostContract.known_scalar _)
      | .binary op left right _ =>
        rcases op.logical_or_strict with rfl | rfl | hop
        · rw [evalWith_and hknown]
          exact keeps_logical (keeps_evalWith hh scope left s) (keeps_evalWith hh scope right)
        · rw [evalWith_or hknown]
          exact keeps_logical (keeps_evalWith hh scope left s) (keeps_evalWith hh scope right)
        · rw [evalWith_strict hop hknown]
          exact (keeps_evalWith hh scope left s).bind fun t l _ _ =>
            (keeps_evalWith hh scope right t).bind fun _ r _ _ => keeps_onValues op l r
      | .conditional cond yes no _ =>
        rw [evalWith, hknown]
        refine (keeps_evalWith hh scope cond s).bind fun t _ _ _ => ?_
        split
        · exact keeps_evalWith hh scope yes t
        · exact keeps_evalWith hh scope no t
      | .assign op target value _ =>
        rw [evalWith, hknown]
        refine (keeps_placeWith hh scope target s).bind fun t place _ _ => ?_
        have hwrite {u : σ} {v : Value} (hv : C.Known u v) :
            C.Keeps u
              (do
                h.writePlace scope place v
                return v) C.Known :=
          (hh.keeps_writePlace scope place hv).bind fun _ _ huw _ =>
            keeps_pure (hv.of_becomes huw)
        cases op with
        | assign => exact (keeps_evalWith hh scope value t).bind fun _ _ _ hv => hwrite hv
        | compound op =>
          refine (hh.keeps_readPlace scope place).bind fun u current _ _ =>
            (keeps_evalWith hh scope value u).bind fun _ operand _ _ => ?_
          exact (keeps_operand current).bind fun _ l _ _ =>
            (keeps_operand operand).bind fun _ r _ _ =>
              (keeps_apply op l r).bind fun _ v _ _ => hwrite (HostContract.known_scalar v)
      | .update op before target _ =>
        rw [evalWith, hknown]
        refine (keeps_placeWith hh scope target s).bind fun t place _ _ =>
          (hh.keeps_readPlace scope place).bind fun _ current _ _ => ?_
        refine (keeps_operand current).bind fun _ old _ _ => ?_
        exact (keeps_apply op.step _ _).bind fun _ new _ _ =>
          (hh.keeps_writePlace scope place (HostContract.known_scalar new)).bind
            fun _ _ _ _ => keeps_pure (HostContract.known_scalar _)
      | .intrinsic fn nameSpan args _ =>
        rw [evalWith, hknown]
        exact (keeps_argumentsWith hh scope fn args s).bind fun _ _ _ hargs =>
          hh.keeps_callIntrinsic scope fn hargs

theorem keeps_placeWith (hh : h.Honours C) (scope : Option Ref) :
    ∀ (e : Expr) (s : σ), C.Keeps s (placeWith h scope known e) fun _ _ => True
  | .ident name _, s => by
    rw [placeWith]
    split
    · exact keeps_throw (C.excuses_plain rfl)
    · exact keeps_pure trivial
  | .member base name _, s => by
    rw [placeWith]
    exact (keeps_placeWith hh scope base s).bind fun _ place _ _ =>
      (hh.keeps_containerAt scope place _).bind fun _ _ _ _ => keeps_pure trivial
  | .index base key _, s => by
    rw [placeWith]
    exact (keeps_evalWith hh scope key s).bind fun t _ _ _ =>
      (keeps_placeWith hh scope base t).bind fun _ place _ _ =>
        (hh.keeps_containerAt scope place _).bind fun _ _ _ _ => keeps_pure trivial
  | .number .., _ | .text .., _ | .unary .., _ | .binary .., _ | .conditional .., _
  | .assign .., _ | .update .., _ | .call .., _ | .intrinsic .., _ | .malformed _, _
  | .unnamed .., _ => by
    rw [placeWith]
    · exact keeps_throw (C.excuses_plain rfl)
    all_goals nofun

theorem keeps_argumentsWith (hh : h.Honours C) (scope : Option Ref) (fn : Intrinsic) :
    ∀ (es : List Expr) (s : σ),
      C.Keeps s (argumentsWith h scope known fn es) fun t vs => ∀ v ∈ vs, C.Known t v
  | [], s => by
    rw [argumentsWith]
    exact keeps_pure nofun
  | e :: rest, s => by
    rw [argumentsWith]
    have hcons {t : σ} {v : Value} (hv : C.Known t v) :
        C.Keeps t (do return v :: (← argumentsWith h scope known fn rest))
          fun u vs => ∀ v ∈ vs, C.Known u v :=
      (keeps_argumentsWith hh scope fn rest t).bind fun _ _ htu hvs =>
        keeps_pure (List.forall_mem_cons.mpr ⟨hv.of_becomes htu, hvs⟩)
    cases e.nameFor? fn with
    | some name => exact hcons (HostContract.known_scalar _)
    | none => exact (keeps_evalWith hh scope e s).bind fun _ _ _ hv => hcons hv
end

/-! ## Texts -/

section Texts

variable (hh : h.Honours C) (scope : Option Ref)
include hh

theorem keeps_rendered (spec : Conversion) {v : Value} (hv : C.Known s v) :
    C.Keeps s (rendered h spec v) fun _ _ => True :=
  (keeps_lift (hh.formatValue s spec v hv)).bind fun _ _ _ _ => keeps_pure trivial

theorem keeps_renderWith (segments : List Segment) (s : σ) :
    C.Keeps s (renderWith h scope known segments) fun _ _ => True := by
  induction segments generalizing s with
  | nil =>
    rw [renderWith]
    exact keeps_pure trivial
  | cons segment rest ih =>
    cases segment with
    | text text =>
      rw [renderWith]
      exact (ih s).bind fun _ _ _ _ => keeps_pure trivial
    | format spec e =>
      rw [renderWith]
      exact (keeps_evalWith hh scope e s).bind fun _ _ _ hv =>
        (keeps_rendered hh spec hv).bind fun t _ _ _ =>
          (ih t).bind fun _ _ _ _ => keeps_pure trivial

theorem keeps_run (p : Parsed) : C.Keeps s (run h scope p) C.Known := by
  unfold run
  split
  · exact keeps_pure (HostContract.known_scalar _)
  · cases p.body with
    | expression e => exact keeps_evalWith hh scope e s
    | template segments span =>
      rw [bodyWith]
      exact (keeps_renderWith hh scope segments s).bind fun _ _ _ _ =>
        keeps_pure (HostContract.known_scalar _)

/-- What an evaluation leaves to those who can do without a value: a known
container at most, or the capability that is missing. -/
theorem steady_attempt (p : Parsed) : C.Steady s (attempt h scope p).run fun t r =>
    (∀ v, r = .ok (some v) → C.Known t v) ∧ ∀ m, r = .error m → C.Excuses (.missing m) t := by
  refine Steady.bind (keeps_run hh scope p) fun t r _ hr => ?_
  split
  · refine steady_pure ⟨?_, nofun⟩
    rintro v ⟨⟩
    exact hr
  · refine steady_pure ⟨nofun, ?_⟩
    rintro m ⟨⟩
    exact hr
  · exact steady_pure ⟨nofun, nofun⟩

end Texts

end Evaluation
end TargetView
