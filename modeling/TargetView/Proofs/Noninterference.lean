import TargetView.Context
import TargetView.Proofs.Apart
import TargetView.Proofs.Folding
import TargetView.Proofs.Parts

/-! # What an expression sees of a store

Two evaluations of one text, on stores that differ in one global, are run side
by side.  If the text does not name the global, or the active object has a
member of that name, they answer alike and end in stores that differ as
before; neither touches the global (`external_names_bound`).

`Blind` states this of an evaluation together with what holds of the values it
ends with.  It is closed under sequencing, so it is enough to know it of the
operations of the host that an expression without a symbol intrinsic uses.
-/
namespace TargetView

open Store (AgreeBut Shadows)

/-- Two stores that agree but for a global; if the global is named, the
active object has a member of its name. -/
structure Twins (g : String) (scope : Option Ref) (named : Prop) (s t : Store) : Prop where
  agree : AgreeBut g s t
  shadows : named → s.Shadows scope g

namespace Eval

variable {g : String} {scope : Option Ref} {named : Prop} {α β : Type}

/-- Runs on twins answer alike, with a value that satisfies a predicate, and
end in twins that have the global as it was. -/
structure AlikeOn (g : String) (scope : Option Ref) (named : Prop) (P : α → Prop)
    (s t : Store) (r q : Except Fault α × Store) : Prop where
  answer : r.1 = q.1
  value : ∀ v, r.1 = .ok v → P v
  twins : Twins g scope named r.2 q.2
  left : r.2.get? g = s.get? g
  right : q.2.get? g = t.get? g

/-- The evaluation does not depend on a global and does not touch it. -/
def Blind (g : String) (scope : Option Ref) (named : Prop) (x : Eval Store α)
    (P : α → Prop) : Prop :=
  ∀ s t, Twins g scope named s t → AlikeOn g scope named P s t (x.run.run s) (x.run.run t)

variable {P : α → Prop} {Q : β → Prop}

theorem blind_pure {a : α} (h : P a) : Blind g scope named (pure a) P := by
  intro s t hst
  refine ⟨rfl, fun v hv => ?_, hst, rfl, rfl⟩
  cases hv
  exact h

theorem blind_throw (f : Fault) : Blind g scope named (throw f) P := by
  intro s t hst
  refine ⟨rfl, fun v hv => ?_, hst, rfl, rfl⟩
  cases hv

theorem Blind.bind {x : Eval Store α} {f : α → Eval Store β} (hx : Blind g scope named x P)
    (hf : ∀ a, P a → Blind g scope named (f a) Q) : Blind g scope named (x >>= f) Q := by
  intro s t hst
  have h := hx s t hst
  rw [ExceptT.run_bind, StateT.run_bind, StateT.run_bind]
  rcases hs : x.run.run s with ⟨r, s₁⟩
  rcases ht : x.run.run t with ⟨q, t₁⟩
  rw [hs, ht] at h
  obtain ⟨ha, hv, htw, hl, hr⟩ := h
  dsimp only at ha hv htw hl hr
  -- Both runs have the same answer, so they go on alike or stop alike.
  subst ha
  cases r with
  | error fault => exact ⟨rfl, nofun, htw, hl, hr⟩
  | ok v =>
    obtain ⟨ha', hv', htw', hl', hr'⟩ := hf v (hv v rfl) s₁ t₁ htw
    exact ⟨ha', hv', htw', hl'.trans hl, hr'.trans hr⟩

/-- An operation of the host that answers alike and keeps twins. -/
theorem blind_lift {act : StateM Store α}
    (h : ∀ s t, Twins g scope named s t →
      (act s).1 = (act t).1 ∧ Twins g scope named (act s).2 (act t).2 ∧
        (act s).2.get? g = s.get? g ∧ (act t).2.get? g = t.get? g) :
    Blind g scope named (liftM act) fun _ => True := by
  intro s t hst
  obtain ⟨ha, htw, hl, hr⟩ := h s t hst
  exact ⟨congrArg Except.ok ha, fun _ _ => trivial, htw, hl, hr⟩

end Eval

/-! ### The operations of a store -/

namespace Host

open Eval

variable {g : String} {scope : Option Ref} {named : Prop}

/-- A place that is not the global, unless it is shadowed. -/
def IsClear (g : String) (named : Prop) : Place → Prop
  | .symbol name => name = g → named
  | .key .. => True

/-- What a store knows nothing of it answers by default. -/
theorem blind_default {α : Type} (a : α) :
    Blind g scope named (liftM (pure a : StateM Store α)) (· = a) := by
  intro s t hst
  refine ⟨rfl, fun v hv => ?_, hst, rfl, rfl⟩
  cases hv
  rfl

theorem blind_readKey (ref : Ref) (key : Key) :
    Blind g scope named (liftM (ofStore.readKey ref key)) fun _ => True :=
  blind_lift fun _ _ hst => ⟨hst.agree.readKey ref key, hst, rfl, rfl⟩

theorem blind_push {act : StateM Store Ref} (c : Container) (h : ∀ s, act s = s.push c) :
    Blind g scope named (liftM act) fun _ => True := by
  refine blind_lift fun s t hst => ?_
  rw [h, h]
  have hsize : s.containers.size = t.containers.size := by rw [hst.agree.containers]
  exact ⟨hsize, ⟨hst.agree.push c, fun hn => (hst.shadows hn).push c⟩, rfl, rfl⟩

theorem blind_writeKey (ref : Ref) (key : Key) (v : Value) :
    Blind g scope named (liftM (ofStore.writeKey ref key v)) fun _ => True := by
  refine blind_lift fun s t hst => ?_
  change (s.writeKey ref key v).1 = (t.writeKey ref key v).1 ∧
    Twins g scope named (s.writeKey ref key v).2 (t.writeKey ref key v).2 ∧
    (s.writeKey ref key v).2.get? g = s.get? g ∧ (t.writeKey ref key v).2.get? g = t.get? g
  rw [Store.writeKey, Store.writeKey, ← hst.agree.acceptsKey]
  split
  · exact ⟨rfl, ⟨hst.agree.modify ref key v, fun hn => (hst.shadows hn).modify _ ref key v⟩,
      rfl, rfl⟩
  · exact ⟨rfl, hst, rfl, rfl⟩

section Names

variable {name : String} (hn : name = g → named)
include hn

theorem shadows_of_named {s t : Store} (hst : Twins g scope named s t) (h : name = g) :
    s.Shadows scope name :=
  h ▸ hst.shadows (hn h)

theorem blind_symbolExists :
    Blind g scope named (liftM (ofStore.symbolExists scope name)) fun _ => True :=
  blind_lift fun _ _ hst =>
    ⟨hst.agree.symbolExists (shadows_of_named hn hst), hst, rfl, rfl⟩

theorem blind_readSymbol :
    Blind g scope named (liftM (ofStore.readSymbol scope name)) fun _ => True :=
  blind_lift fun _ _ hst =>
    ⟨hst.agree.readSymbol (shadows_of_named hn hst), hst, rfl, rfl⟩

theorem blind_writeSymbol (v : Value) :
    Blind g scope named (liftM (ofStore.writeSymbol scope name v)) fun _ => True := by
  refine blind_lift fun s t hst => ⟨rfl, ⟨hst.agree.writeSymbol scope name v, fun h =>
    (hst.shadows h).writeSymbol name v⟩, ?_, ?_⟩
  · exact Store.get?_writeSymbol (shadows_of_named hn hst) v
  · refine Store.get?_writeSymbol (fun h => ?_) v
    exact hst.agree.shadows_iff.mp (shadows_of_named hn hst h)

theorem blind_readName : Blind g scope named (ofStore.readName scope name) fun _ => True := by
  unfold readName
  split
  · refine (blind_default none).bind ?_
    rintro _ rfl
    exact blind_throw _
  · refine (blind_symbolExists hn).bind fun known _ => ?_
    cases known with
    | true => exact (blind_readSymbol hn).bind fun v _ => blind_pure trivial
    | false =>
      refine (blind_writeSymbol hn .zero).bind fun written _ => ?_
      cases written with
      | true => exact blind_pure trivial
      | false => exact blind_throw _

end Names

/-! ### Places -/

section Places

variable {place : Place} (hp : IsClear g named place)
include hp

theorem blind_readPlace : Blind g scope named (ofStore.readPlace scope place) fun _ => True := by
  cases place with
  | symbol name => exact blind_readName hp
  | key ref key => exact (blind_readKey ref key).bind fun v _ => blind_pure trivial

theorem blind_writePlace (v : Value) :
    Blind g scope named (ofStore.writePlace scope place v) fun _ => True := by
  cases place with
  | symbol name =>
    refine (blind_writeSymbol hp v).bind fun written _ => ?_
    cases written with
    | true => exact blind_pure trivial
    | false => exact blind_throw _
  | key ref key =>
    refine (blind_writeKey ref key v).bind fun written _ => ?_
    cases written with
    | true => exact blind_pure trivial
    | false => exact blind_throw _

theorem blind_held? : Blind g scope named (ofStore.held? scope place) fun _ => True := by
  cases place with
  | symbol name => exact blind_readSymbol hp
  | key ref key => exact blind_readKey ref key

theorem blind_containerAt (key : Key) :
    Blind g scope named (ofStore.containerAt scope place key) fun _ => True := by
  refine (blind_held? hp).bind fun v _ => ?_
  have hnew (x : Eval Store Ref) (hx : Blind g scope named x fun _ => True) :
      Blind g scope named (do
        let ref ← x
        ofStore.writePlace scope place (.container ref)
        return ref) fun _ => True :=
    hx.bind fun _ _ => (blind_writePlace hp _).bind fun _ _ => blind_pure trivial
  split
  · exact blind_pure trivial
  · dsimp only
    split
    · exact hnew _ (blind_push (.array #[]) fun _ => rfl)
    · exact hnew _ (blind_push (.object ∅) fun _ => rfl)

end Places

/-! ### Intrinsics -/

theorem blind_builtinMemoryInUse :
    Blind g scope named ofStore.builtinMemoryInUse fun _ => True := by
  refine (blind_default none).bind ?_
  rintro _ rfl
  exact blind_throw _

theorem blind_builtinRegister (name : String) :
    Blind g scope named (ofStore.builtinRegister name) fun _ => True := by
  refine (blind_default false).bind ?_
  rintro _ rfl
  exact blind_throw _

/-- Only two intrinsics ask for a symbol. -/
theorem blind_builtin {fn : Intrinsic} (hf : fn ≠ .findSymbol) (he : fn ≠ .symbolExists)
    (name : String) : Blind g scope named (ofStore.builtin scope fn name) fun _ => True := by
  cases fn with
  | calcMemUsed => exact blind_builtinMemoryInUse
  | findSymbol => exact absurd rfl hf
  | getRegVal => exact blind_builtinRegister name
  | offsetOf => exact blind_pure trivial
  | sizeOf =>
    unfold builtin
    dsimp only
    split
    · exact blind_pure trivial
    · exact blind_throw _
  | symbolExists => exact absurd rfl he

theorem blind_callIntrinsic {fn : Intrinsic} (hf : fn ≠ .findSymbol) (he : fn ≠ .symbolExists)
    (args : List Value) :
    Blind g scope named (ofStore.callIntrinsic scope fn args) fun _ => True := by
  refine (blind_default none).bind ?_
  rintro _ rfl
  rw [answerOr]
  split
  · refine (blind_default none).bind ?_
    rintro _ rfl
    exact blind_builtinMemoryInUse
  · refine (blind_default none).bind ?_
    rintro _ rfl
    exact blind_builtin hf he _
  · exact blind_throw _

end Host

/-! ### Expressions -/

namespace Expr

/-- Whether an expression is the call of an intrinsic that asks for a symbol. -/
def asksForSymbol : Expr → Bool
  | intrinsic .findSymbol .. | intrinsic .symbolExists .. => true
  | _ => false

/-- An expression that asks for no symbol, and in which the global does not
occur unless it counts as named. -/
structure Avoids (g : String) (named : Prop) (e : Expr) : Prop where
  occurs : g ∈ e.occurrences → named
  quiet : ∀ p ∈ e.parts, p.asksForSymbol = false

namespace Avoids

variable {g : String} {named : Prop} {e a b c : Expr}

theorem of_subset (h : e.Avoids g named) (ho : a.occurrences ⊆ e.occurrences)
    (hp : a.parts ⊆ e.parts) : a.Avoids g named :=
  ⟨fun hg => h.occurs (ho hg), fun p hmem => h.quiet p (hp hmem)⟩

theorem operand (h : e.Avoids g named) (ho : e.occurrences = a.occurrences)
    (hp : e.parts = a.parts ++ [e]) : a.Avoids g named := by
  refine h.of_subset (fun name hn => ?_) (fun p hmem => ?_)
  · rw [ho]
    exact hn
  · rw [hp]
    exact List.mem_append_left _ hmem

theorem operands (h : e.Avoids g named) (ho : e.occurrences = a.occurrences ++ b.occurrences)
    (hp : e.parts = a.parts ++ b.parts ++ [e]) : a.Avoids g named ∧ b.Avoids g named := by
  refine ⟨h.of_subset ?_ ?_, h.of_subset ?_ ?_⟩ <;> intro x hx
  · simp [ho, hx]
  · rw [hp]
    simp [hx]
  · simp [ho, hx]
  · rw [hp]
    simp [hx]

theorem branches {span : Span} (h : (conditional a b c span).Avoids g named) :
    a.Avoids g named ∧ b.Avoids g named ∧ c.Avoids g named := by
  refine ⟨h.of_subset ?_ ?_, h.of_subset ?_ ?_, h.of_subset ?_ ?_⟩ <;> intro x hx <;>
    simp [occurrences, parts, hx]

end Avoids

end Expr

namespace Evaluation

open Eval Host

variable {g : String} {scope : Option Ref} {named : Prop}

theorem blind_operand (v : Value) :
    Blind g scope named (v.operand : Eval Store Scalar) fun _ => True := by
  unfold Value.operand
  split
  · exact blind_pure trivial
  · exact blind_throw _

theorem blind_apply (op : BinaryOp) (l r : Scalar) :
    Blind g scope named (op.apply l r : Eval Store Scalar) fun _ => True := by
  unfold BinaryOp.apply
  split
  · exact blind_pure trivial
  · exact blind_throw _

theorem blind_onValues (op : BinaryOp) (l r : Value) :
    Blind g scope named (op.onValues l r : Eval Store Value) fun _ => True := by
  unfold BinaryOp.onValues
  split
  · exact blind_pure trivial
  · exact blind_pure trivial
  · exact (blind_operand l).bind fun x _ => (blind_operand r).bind fun y _ =>
      (blind_apply op x y).bind fun _ _ => blind_pure trivial

theorem blind_logical {decides : Bool} {x y : Eval Store Value}
    (hx : Blind g scope named x fun _ => True) (hy : Blind g scope named y fun _ => True) :
    Blind g scope named (logical decides x y) fun _ => True := by
  refine hx.bind fun v _ => ?_
  split
  · exact blind_pure trivial
  · exact hy.bind fun _ _ => blind_pure trivial

theorem blind_readMember (base : Value) (key : Key) :
    Blind g scope named (ofStore.readMember base key) fun _ => True := by
  cases base with
  | container ref => exact (blind_readKey ref key).bind fun _ _ => blind_pure trivial
  | scalar | undefined => exact blind_pure trivial

mutual
theorem blind_walk : ∀ {e : Expr}, e.Avoids g named →
    Blind g scope named (evalWith ofStore scope (fun _ => none) e) fun _ => True
  | .number .., _ | .text .., _ => by
    rw [evalWith]
    exact blind_pure trivial
  | .call .., _ | .malformed _, _ | .unnamed .., _ => by
    rw [evalWith]
    exact blind_throw _
  | .ident name _, h => by
    rw [evalWith]
    exact blind_readName fun hn => h.occurs (by simp [Expr.occurrences, hn])
  | .member base name _, h => by
    have hb : base.Avoids g named := h.operand rfl rfl
    rw [evalWith]
    exact (blind_walk hb).bind fun v _ => blind_readMember v _
  | .index base key _, h => by
    obtain ⟨hb, hk⟩ := h.operands rfl rfl
    rw [evalWith]
    exact (blind_walk hb).bind fun v _ => (blind_walk hk).bind fun k _ => blind_readMember v _
  | .unary op operand _, h => by
    have ho : operand.Avoids g named := h.operand rfl rfl
    rw [evalWith]
    exact (blind_walk ho).bind fun v _ => (blind_operand v).bind fun _ _ => blind_pure trivial
  | .binary op left right _, h => by
    obtain ⟨hl, hr⟩ := h.operands rfl rfl
    rcases op.logical_or_strict with rfl | rfl | hop
    · rw [evalWith_and rfl]
      exact blind_logical (blind_walk hl) (blind_walk hr)
    · rw [evalWith_or rfl]
      exact blind_logical (blind_walk hl) (blind_walk hr)
    · rw [evalWith_strict hop rfl]
      exact (blind_walk hl).bind fun l _ => (blind_walk hr).bind fun r _ => blind_onValues op l r
  | .conditional cond yes no _, h => by
    obtain ⟨hc, hy, hn⟩ := h.branches
    rw [evalWith]
    refine (blind_walk hc).bind fun v _ => ?_
    split
    · exact blind_walk hy
    · exact blind_walk hn
  | .assign op target value _, h => by
    obtain ⟨ht, hv⟩ := h.operands rfl rfl
    rw [evalWith]
    -- What the place is stays known until the write at the end.
    refine (blind_place ht).bind fun place hp => ?_
    have hwrite (v : Value) : Blind g scope named (do
        ofStore.writePlace scope place v
        return v) fun _ => True :=
      (blind_writePlace hp v).bind fun _ _ => blind_pure trivial
    cases op with
    | assign => exact (blind_walk hv).bind fun v _ => hwrite v
    | compound op =>
      refine (blind_readPlace hp).bind fun current _ => (blind_walk hv).bind fun operand _ => ?_
      exact (blind_operand current).bind fun l _ => (blind_operand operand).bind fun r _ =>
        (blind_apply op l r).bind fun v _ => hwrite (.scalar v)
  | .update op before target _, h => by
    have ht : target.Avoids g named := h.operand rfl rfl
    rw [evalWith]
    refine (blind_place ht).bind fun place hp => (blind_readPlace hp).bind fun current _ => ?_
    refine (blind_operand current).bind fun old _ => ?_
    exact (blind_apply op.step _ _).bind fun new _ =>
      (blind_writePlace hp _).bind fun _ _ => blind_pure trivial
  | .intrinsic fn nameSpan args _, h => by
    have hask := h.quiet _ (Expr.mem_parts_self _)
    have hf : fn ≠ .findSymbol := by
      rintro rfl
      cases hask
    have he : fn ≠ .symbolExists := by
      rintro rfl
      cases hask
    rw [evalWith]
    -- Names for the intrinsic do not occur, and are handed over as texts.
    refine (blind_arguments fn h.occurs fun p hp => h.quiet p ?_).bind fun values _ => ?_
    · simp [Expr.parts, hp]
    · exact blind_callIntrinsic hf he values

theorem blind_place : ∀ {e : Expr}, e.Avoids g named →
    Blind g scope named (placeWith ofStore scope (fun _ => none) e) (IsClear g named)
  | .ident name _, h => by
    rw [placeWith]
    split
    · exact blind_throw _
    · refine blind_pure fun hn => h.occurs ?_
      simp [Expr.occurrences, hn]
  | .member base name _, h => by
    have hb : base.Avoids g named := h.operand rfl rfl
    rw [placeWith]
    exact (blind_place hb).bind fun place hp =>
      (blind_containerAt hp _).bind fun _ _ => blind_pure trivial
  | .index base key _, h => by
    obtain ⟨hb, hk⟩ := h.operands rfl rfl
    rw [placeWith]
    exact (blind_walk hk).bind fun v _ => (blind_place hb).bind fun place hp =>
      (blind_containerAt hp _).bind fun _ _ => blind_pure trivial
  | .number .., _ | .text .., _ | .unary .., _ | .binary .., _ | .conditional .., _
  | .assign .., _ | .update .., _ | .call .., _ | .intrinsic .., _ | .malformed _, _
  | .unnamed .., _ => by
    rw [placeWith]
    · exact blind_throw _
    all_goals nofun

theorem blind_arguments (fn : Intrinsic) : ∀ {es : List Expr},
    (g ∈ Expr.occurrencesIn fn es → named) →
    (∀ p ∈ Expr.partsAll es, p.asksForSymbol = false) →
    Blind g scope named (argumentsWith ofStore scope (fun _ => none) fn es) fun _ => True
  | [], _, _ => by
    rw [argumentsWith]
    exact blind_pure trivial
  | e :: rest, ho, hq => by
    rw [argumentsWith]
    have hrest : Blind g scope named
        (argumentsWith ofStore scope (fun _ => none) fn rest) fun _ => True :=
      blind_arguments fn (fun hg => ho (by simp [Expr.occurrencesIn, hg]))
        fun p hp => hq p (by simp [Expr.partsAll, hp])
    have hcons (v : Value) : Blind g scope named (do
        return v :: (← argumentsWith ofStore scope (fun _ => none) fn rest)) fun _ => True :=
      hrest.bind fun _ _ => blind_pure trivial
    cases hname : e.nameFor? fn with
    | some name => exact hcons _
    | none =>
      have he : e.Avoids g named :=
        ⟨fun hg => ho (by simp [Expr.occurrencesIn, hname, hg]),
          fun p hp => hq p (by simp [Expr.partsAll, hp])⟩
      exact (blind_walk he).bind fun v _ => hcons v
end

/-! ### Texts -/

theorem blind_rendered (spec : Conversion) (v : Value) :
    Blind g scope named (rendered ofStore spec v) fun _ => True := by
  refine (blind_default none).bind ?_
  rintro _ rfl
  exact blind_pure trivial

theorem blind_render {segments : List Segment}
    (h : ∀ spec e, Segment.format spec e ∈ segments → e.Avoids g named) :
    Blind g scope named (renderWith ofStore scope (fun _ => none) segments) fun _ => True := by
  induction segments with
  | nil =>
    rw [renderWith]
    exact blind_pure trivial
  | cons segment rest ih =>
    have hrest := ih fun spec e hmem => h spec e (List.mem_cons_of_mem _ hmem)
    cases segment with
    | text s =>
      rw [renderWith]
      exact hrest.bind fun _ _ => blind_pure trivial
    | format spec e =>
      rw [renderWith]
      exact (blind_walk (h spec e List.mem_cons_self)).bind fun v _ =>
        (blind_rendered spec v).bind fun _ _ => hrest.bind fun _ _ => blind_pure trivial

theorem blind_body {body : Body} (ho : g ∈ body.occurrences → named)
    (hq : ∀ p ∈ body.parts, p.asksForSymbol = false) :
    Blind g scope named (bodyWith ofStore scope (fun _ => none) body) fun _ => True := by
  cases body with
  | expression e => exact blind_walk ⟨ho, hq⟩
  | template segments span =>
    rw [bodyWith]
    refine (blind_render fun spec e hmem => ?_).bind fun _ _ => blind_pure trivial
    refine ⟨fun hg => ho ?_, fun p hp => hq p ?_⟩
    · exact List.mem_flatMap.mpr ⟨_, hmem, hg⟩
    · exact List.mem_flatMap.mpr ⟨_, hmem, hp⟩

theorem evaluate_eq (p : Parsed) (s : Store) :
    Context.evaluate ofStore p ⟨s, scope⟩ =
      (((run ofStore scope p).run.run s).1, ⟨((run ofStore scope p).run.run s).2, scope⟩) :=
  rfl

/-- **The free names bound what a text sees and changes.**  A text that asks
for no symbol answers alike on two stores that differ in one global, if the
global is no free name of it or the active object has a member of that name.
Both stores still differ in nothing else, and have the global as it was. -/
theorem external_names_bound (text : String) {g : String} {scope : Option Ref} {s t : Store}
    (hq : ∀ e ∈ (parse text).body.parts, e.asksForSymbol = false)
    (hst : s.erase g = t.erase g)
    (hg : g ∉ (parse text).freeNames ∨ s.Shadows scope g) :
    ∃ answer s' t',
      Context.evaluate ofStore (parse text) ⟨s, scope⟩ = (answer, ⟨s', scope⟩) ∧
      Context.evaluate ofStore (parse text) ⟨t, scope⟩ = (answer, ⟨t', scope⟩) ∧
      s'.erase g = t'.erase g ∧ s'.get? g = s.get? g ∧ t'.get? g = t.get? g := by
  have htwins : Twins g scope (g ∈ (parse text).freeNames) s t := by
    refine ⟨Store.agreeBut_iff.mpr hst, fun hmem => ?_⟩
    rcases hg with hg | hg
    · exact absurd hmem hg
    · exact hg
  -- The shortcut for constants does not matter, so the walk is enough.
  have hrun : Blind g scope (g ∈ (parse text).freeNames) (run ofStore scope (parse text))
      fun _ => True := by
    rw [run_eq_walkAll]
    exact blind_body mem_sortedNames.mpr hq
  obtain ⟨ha, -, htw, hl, hr⟩ := hrun s t htwins
  refine ⟨_, _, _, evaluate_eq _ s, ?_, Store.agreeBut_iff.mp htw.agree, hl, hr⟩
  rw [evaluate_eq, ha]

/-- A counter of the active object is advanced, whatever the global of its
name holds. -/
theorem external_names_bound_shadowed :
    ∃ answer s' t',
      Context.evaluate ofStore (parse "count += 1")
        ⟨⟨(∅ : Fields).insert "count" (.int 5),
          #[.object ((∅ : Fields).insert "count" .zero)]⟩, some 0⟩ =
          (answer, ⟨s', some 0⟩) ∧
      Context.evaluate ofStore (parse "count += 1")
        ⟨⟨∅, #[.object ((∅ : Fields).insert "count" .zero)]⟩, some 0⟩ =
          (answer, ⟨t', some 0⟩) ∧
      s'.erase "count" = t'.erase "count" ∧ s'.get? "count" = some (.int 5) ∧
      t'.get? "count" = none := by
  have hst : Store.AgreeBut "count"
      ⟨(∅ : Fields).insert "count" (.int 5), #[.object ((∅ : Fields).insert "count" .zero)]⟩
      ⟨∅, #[.object ((∅ : Fields).insert "count" .zero)]⟩ := by
    refine ⟨rfl, fun name hn => ?_⟩
    simp [Store.get?, Ne.symm hn]
  obtain ⟨answer, s', t', hs, ht, he, hl, hr⟩ := external_names_bound "count += 1"
    (by decide +kernel) (Store.agreeBut_iff.mp hst)
    (.inr (show Shadows _ (some 0) "count" by simp [Shadows, Store.member?, Container.fields?]))
  refine ⟨answer, s', t', hs, ht, he, hl.trans ?_, hr.trans ?_⟩
  · simp [Store.get?]
  · simp [Store.get?]

end Evaluation
end TargetView
