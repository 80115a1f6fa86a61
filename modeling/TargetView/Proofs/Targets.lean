import TargetView.Proofs.FreeNames
import TargetView.Proofs.Inheritance
import TargetView.Proofs.Runs

/-! # What the check of targets rules out

The parser checks by its form whether what is assigned or updated can be: an
identifier, a member or an element.  A text without an error therefore never
fails for being malformed.  Nor does it write to what is no place, as long as
each target is an identifier, or members and elements behind one
(`error_free_text_keeps_form`); the check does not look below a member or an
element, so a text may assign to a member of a number and be free of errors
(`error_free_text_blames_form`).

On the way it turns out that no such identifier is a path.  A path is read in
one place only, as a whole argument of an intrinsic, and every other identifier
of a derived tree is a word by itself (`Grammar.Expression.spelled`).
-/
namespace TargetView

/-! ## The identifiers below targets -/

namespace Expr

/-- If there is an identifier at the bottom of an expression, it is among the
words. -/
def NamedIn (ws : List Word) (e : Expr) : Prop := ∀ name, e.root? = some name → Word.name name ∈ ws

/-- So is the one at the bottom of what a node changes. -/
def ChangesIn (ws : List Word) (e : Expr) : Prop := ∀ target ∈ e.target?, target.NamedIn ws

/-- The identifiers at the bottom of an expression and of all targets in it are
among the words. -/
structure SpelledIn (ws : List Word) (e : Expr) : Prop where
  root : e.NamedIn ws
  parts : ∀ p ∈ e.parts, p.ChangesIn ws

variable {ws : List Word} {e target : Expr}

theorem namedIn_of_root? (h : e.root? = none) : e.NamedIn ws := by
  intro name hname
  rw [h] at hname
  cases hname

theorem changesIn_of_target? (h : e.target? = none) : e.ChangesIn ws := by
  intro target ht
  rw [h] at ht
  cases ht

theorem NamedIn.changesIn (h : target.NamedIn ws) (ht : e.target? = some target) :
    e.ChangesIn ws := by
  intro target' ht'
  obtain rfl := Option.some.inj (ht.symm.trans ht')
  exact h

/-- A node behind the parts of its operands. -/
theorem changesIn_behind {operands : List Expr} (h : ∀ p ∈ operands, p.ChangesIn ws)
    (he : e.ChangesIn ws) : ∀ p ∈ operands ++ [e], p.ChangesIn ws :=
  List.forall_mem_append.mpr ⟨h, List.forall_mem_singleton.mpr he⟩

theorem spelledIn_callNode {callee : Expr} {args : List Expr} (span : Span)
    (hc : ∀ p ∈ callee.parts, p.ChangesIn ws) (ha : ∀ p ∈ partsAll args, p.ChangesIn ws) :
    (Parser.callNode callee args span).SpelledIn ws := by
  unfold Parser.callNode
  split
  · exact ⟨namedIn_of_root? rfl, changesIn_behind
      (List.forall_mem_cons.mpr ⟨changesIn_of_target? rfl, ha⟩) (changesIn_of_target? rfl)⟩
  · exact ⟨namedIn_of_root? rfl, changesIn_behind (List.forall_mem_append.mpr ⟨hc, ha⟩)
      (changesIn_of_target? rfl)⟩

end Expr

namespace Grammar

open TargetView.Expr (SpelledIn ChangesIn namedIn_of_root? changesIn_of_target? changesIn_behind
  spelledIn_callNode)

variable {all : List Word}

mutual
/-- **A derived tree spells its targets.**  An identifier at the bottom of a
target is a word of its own, and so is one at the bottom of the whole tree. -/
theorem Expression.spelled : ∀ {e ws}, Expression e ws → ws ⊆ all → e.SpelledIn all
  | _, _, .choice h, hws => h.spelled hws
  | _, _, .assign _ _ _ ht hv, hws => by
    obtain ⟨hts, hvs⟩ := List.append_subset.mp hws
    have htarget := ht.spelled hts
    have hvalue := hv.spelled (List.cons_subset.mp hvs).2
    exact ⟨namedIn_of_root? rfl, changesIn_behind
      (List.forall_mem_append.mpr ⟨htarget.parts, hvalue.parts⟩) (htarget.root.changesIn rfl)⟩

theorem Choice.spelled : ∀ {e ws}, Choice e ws → ws ⊆ all → e.SpelledIn all
  | _, _, .chain h, hws => h.spelled hws
  | _, _, .conditional _ hc hy hn, hws => by
    obtain ⟨hcy, hns⟩ := List.append_subset.mp hws
    obtain ⟨hcs, hys⟩ := List.append_subset.mp hcy
    have hcond := hc.spelled hcs
    have hyes := hy.spelled (List.cons_subset.mp hys).2
    have hno := hn.spelled (List.cons_subset.mp hns).2
    have hbranches := List.forall_mem_append.mpr ⟨hcond.parts, hyes.parts⟩
    exact ⟨namedIn_of_root? rfl, changesIn_behind
      (List.forall_mem_append.mpr ⟨hbranches, hno.parts⟩) (changesIn_of_target? rfl)⟩

theorem Chain.spelled : ∀ {least e ws}, Chain least e ws → ws ⊆ all → e.SpelledIn all
  | _, _, _, .operand h, hws => h.spelled hws
  | _, _, _, .operator _ _ hl hr, hws => by
    obtain ⟨hls, hrs⟩ := List.append_subset.mp hws
    have hleft := hl.spelled hls
    have hright := hr.spelled (List.cons_subset.mp hrs).2
    exact ⟨namedIn_of_root? rfl, changesIn_behind
      (List.forall_mem_append.mpr ⟨hleft.parts, hright.parts⟩) (changesIn_of_target? rfl)⟩

theorem Prefixed.spelled : ∀ {e ws}, Prefixed e ws → ws ⊆ all → e.SpelledIn all
  | _, _, .suffixed h, hws => h.spelled hws
  | _, _, .unary _ h, hws =>
    ⟨namedIn_of_root? rfl, changesIn_behind (h.spelled (List.cons_subset.mp hws).2).parts
      (changesIn_of_target? rfl)⟩
  | _, _, .update _ _ h, hws => by
    have htarget := h.spelled (List.cons_subset.mp hws).2
    exact ⟨namedIn_of_root? rfl, changesIn_behind htarget.parts (htarget.root.changesIn rfl)⟩

theorem Suffixed.spelled : ∀ {e ws}, Suffixed e ws → ws ⊆ all → e.SpelledIn all
  | _, _, .primary h, hws => h.spelled hws
  | _, _, .member _ _ h, hws => by
    have hbase := h.spelled (List.append_subset.mp hws).1
    exact ⟨hbase.root, changesIn_behind hbase.parts (changesIn_of_target? rfl)⟩
  | _, _, .index _ hb hk, hws => by
    obtain ⟨hbs, hks⟩ := List.append_subset.mp (List.append_subset.mp hws).1
    have hbase := hb.spelled hbs
    have hkey := hk.spelled (List.cons_subset.mp hks).2
    exact ⟨hbase.root, changesIn_behind
      (List.forall_mem_append.mpr ⟨hbase.parts, hkey.parts⟩) (changesIn_of_target? rfl)⟩
  | _, _, .update _ _ h, hws => by
    have htarget := h.spelled (List.append_subset.mp hws).1
    exact ⟨namedIn_of_root? rfl, changesIn_behind htarget.parts (htarget.root.changesIn rfl)⟩
  | _, _, .call span h, hws =>
    spelledIn_callNode span (h.spelled (List.append_subset.mp hws).1).parts nofun
  | _, _, .callWith span h ha, hws => by
    obtain ⟨hcs, has⟩ := List.append_subset.mp (List.append_subset.mp hws).1
    exact spelledIn_callNode span (h.spelled hcs).parts
      (ha.spelled (List.cons_subset.mp has).2)

theorem Arguments.spelled : ∀ {paths es ws}, Arguments paths es ws → ws ⊆ all →
    ∀ p ∈ Expr.partsAll es, p.ChangesIn all
  | _, _, _, .last h, hws => List.forall_mem_append.mpr ⟨h.spelled hws, nofun⟩
  | _, _, _, .more h hs, hws => by
    obtain ⟨hfirst, hrest⟩ := List.append_subset.mp hws
    exact List.forall_mem_append.mpr
      ⟨h.spelled hfirst, hs.spelled (List.cons_subset.mp hrest).2⟩

theorem Argument.spelled : ∀ {paths e ws}, Argument paths e ws → ws ⊆ all →
    ∀ p ∈ e.parts, p.ChangesIn all
  | _, _, _, .expression h, hws => (h.spelled hws).parts
  | _, _, _, .path .., _ => List.forall_mem_singleton.mpr (changesIn_of_target? rfl)

theorem Primary.spelled : ∀ {e ws}, Primary e ws → ws ⊆ all → e.SpelledIn all
  | _, _, .number .., _ | _, _, .text .., _ | _, _, .truth _, _ | _, _, .falsehood _, _ =>
    ⟨namedIn_of_root? rfl, List.forall_mem_singleton.mpr (changesIn_of_target? rfl)⟩
  | _, _, .ident _ _ _, hws => by
    refine ⟨?_, List.forall_mem_singleton.mpr (changesIn_of_target? rfl)⟩
    rintro _ ⟨⟩
    exact hws List.mem_cons_self
  | _, _, .parens h, hws =>
    h.spelled (List.cons_subset.mp (List.append_subset.mp hws).1).2
end

end Grammar

/-- A text without an error has no syntax error. -/
theorem isSyntaxError_of_hasErrors {text : String} (h : (parse text).hasErrors = false) :
    ∀ d ∈ (parse text).diagnostics, d.isSyntaxError = false := by
  intro d hd
  have he := List.any_eq_false.mp h d hd
  simp [Diagnostic.isSyntaxError, he]

/-- The identifier at the bottom of a target in a text without an error is no
path. -/
theorem isRooted_of_root? {text : String} (h : (parse text).hasErrors = false) {e target : Expr}
    (he : e ∈ (parse text).body.parts) (ht : e.target? = some target)
    (hroot : target.root?.isSome = true) : target.IsRooted := by
  obtain ⟨name, hname⟩ := Option.isSome_iff_exists.mp hroot
  obtain ⟨inner, root, hderived, he⟩ := parts_derived text (isSyntaxError_of_hasErrors h) e he
  have hspelled : Word.name name ∈ Lexer.wordsOf inner :=
    (hderived.spelled (List.Subset.refl _)).parts e he target ht name hname
  exact ⟨name, hname, Lexer.isPath_of_mem_wordsOf hspelled⟩

/-! ## Faults that are never thrown -/

namespace Eval

variable {σ α β : Type} {f : Fault}

/-- The evaluation does not fail with a certain fault. -/
def Avoids (f : Fault) (x : Eval σ α) : Prop := ∀ s t, x.run.run s ≠ (.error f, t)

theorem avoids_lift (act : StateM σ α) : Avoids f (liftM act : Eval σ α) := nofun

theorem avoids_pure (a : α) : Avoids f (pure a : Eval σ α) := nofun

theorem avoids_throw {fault : Fault} (h : fault ≠ f) : Avoids f (throw fault : Eval σ α) := by
  rintro s t ⟨⟩
  exact h rfl

theorem Avoids.bind {x : Eval σ α} {next : α → Eval σ β} (hx : Avoids f x)
    (hnext : ∀ a, Avoids f (next a)) : Avoids f (x >>= next) := by
  intro s t h
  rcases run_bind_eq_error h with h | ⟨a, u, -, h⟩
  · exact hx s t h
  · exact hnext a u t h

end Eval

/-- That a fault is avoided, as a property that sequences inherit. -/
def Inherited.avoids (σ : Type) (f : Fault) : Inherited σ where
  Holds := Eval.Avoids f
  Permits fault := fault ≠ f
  holds_pure := Eval.avoids_pure
  holds_throw := Eval.avoids_throw
  holds_bind := Eval.Avoids.bind

namespace Host

variable {σ : Type}

/-- The host does not answer with a certain fault. -/
structure Withholds (host : Host σ) (f : Fault) : Prop where
  dispatch : ∀ fn args s, ((host.dispatch fn args).run s).1 ≠ some (.error f)
  memoryInUse : ∀ args s, ((host.memoryInUse args).run s).1 ≠ some (.error f)
  answerFor : ∀ fn name s, ((host.answerFor fn name).run s).1 ≠ some (.error f)

theorem withholds_ofStore (f : Fault) : Host.ofStore.Withholds f := ⟨nofun, nofun, nofun⟩

end Host

/-- The faults that blame the form of a text. -/
def Fault.blamesForm (f : Fault) : Bool := f == .malformed || f == .invalidTarget

namespace Evaluation

open Eval Host

variable {σ : Type} {host : Host σ} {f : Fault}

theorem avoids_answerOr {act : StateM σ (Option Answer)} {x : Eval σ Value}
    (hact : ∀ s, (act.run s).1 ≠ some (.error f)) (hx : Avoids f x) :
    Avoids f (do answerOr (← (liftM act : Eval σ (Option Answer))) x) := by
  intro s t h
  rw [run_bind_of_ok (run_liftM act s)] at h
  have hanswer := hact s
  generalize act.run s = r at h hanswer
  obtain ⟨answer?, u⟩ := r
  rcases answer? with _ | fault | v
  · exact hx u t h
  · cases h
    exact hanswer rfl
  · cases h

theorem avoids_readMember (base : Value) (key : Key) : Avoids f (host.readMember base key) := by
  cases base with
  | container ref => exact (avoids_lift _).bind fun _ => avoids_pure _
  | scalar | undefined => exact avoids_pure _

section Steps

variable (hf : f.blamesForm = true)
include hf

theorem ne_of_blamesForm {fault : Fault} (h : fault.blamesForm = false) : fault ≠ f := by
  rintro rfl
  exact Bool.false_ne_true (h.symm.trans hf)

theorem avoids_throw_plain {α : Type} {fault : Fault} (h : fault.blamesForm = false) :
    Avoids f (throw fault : Eval σ α) :=
  avoids_throw (ne_of_blamesForm hf h)

theorem avoids_readName (scope : Option Ref) (name : String) :
    Avoids f (host.readName scope name) := by
  unfold readName
  split
  · refine (avoids_lift _).bind fun v? => ?_
    cases v? with
    | some v => exact avoids_pure v
    | none => exact avoids_throw_plain hf rfl
  · refine (avoids_lift _).bind fun known => ?_
    cases known with
    | true => exact (avoids_lift _).bind fun _ => avoids_pure _
    | false =>
      refine (avoids_lift _).bind fun written => ?_
      cases written with
      | true => exact avoids_pure _
      | false => exact avoids_throw_plain hf rfl

theorem avoids_writePlace (scope : Option Ref) (place : Place) (v : Value) :
    Avoids f (host.writePlace scope place v) := by
  cases place with
  | symbol name =>
    refine (avoids_lift _).bind fun written => ?_
    cases written with
    | true => exact avoids_pure _
    | false => exact avoids_throw_plain hf rfl
  | key ref key =>
    refine (avoids_lift _).bind fun written => ?_
    cases written with
    | true => exact avoids_pure _
    | false => exact avoids_throw_plain hf rfl

theorem avoids_containerAt (scope : Option Ref) (place : Place) (key : Key) :
    Avoids f (host.containerAt scope place key) := by
  have hheld : Avoids f (host.held? scope place) := by
    cases place <;> exact avoids_lift _
  refine hheld.bind fun held => ?_
  have hnew (act : StateM σ Ref) : Avoids f (do
      let ref ← (liftM act : Eval σ Ref)
      host.writePlace scope place (.container ref)
      return ref) :=
    (avoids_lift act).bind fun ref =>
      (avoids_writePlace hf scope place _).bind fun _ => avoids_pure ref
  split
  · exact avoids_pure _
  · dsimp only
    split
    · exact hnew host.newArray
    · exact hnew host.newObject

theorem avoids_builtin (scope : Option Ref) (fn : Intrinsic) (name : String) :
    Avoids f (host.builtin scope fn name) := by
  cases fn with
  | calcMemUsed =>
    refine (avoids_lift _).bind fun bytes? => ?_
    cases bytes? with
    | some bytes => exact avoids_pure _
    | none => exact avoids_throw_plain hf rfl
  | findSymbol => exact avoids_readName hf scope name
  | getRegVal =>
    refine (avoids_lift _).bind fun has => ?_
    cases has with
    | false => exact avoids_throw_plain hf rfl
    | true =>
      dsimp only
      rw [if_pos rfl]
      split
      · exact avoids_throw_plain hf rfl
      · refine (avoids_lift _).bind fun v? => ?_
        cases v? with
        | some v => exact avoids_pure v
        | none => exact avoids_throw_plain hf rfl
  | offsetOf => exact avoids_pure _
  | sizeOf =>
    unfold builtin
    dsimp only
    split
    · exact avoids_pure _
    · exact avoids_throw_plain hf rfl
  | symbolExists =>
    unfold builtin builtinExists
    dsimp only
    split
    · exact (avoids_lift _).bind fun _ => avoids_pure _
    · refine (avoids_lift _).bind fun known => ?_
      cases known with
      | true => exact avoids_pure _
      | false =>
        refine Avoids.bind ?_ fun _ => avoids_pure _
        exact (avoids_readName hf scope name).bind fun _ => avoids_pure _

theorem avoids_callIntrinsic (hhost : host.Withholds f) (scope : Option Ref) (fn : Intrinsic)
    (args : List Value) : Avoids f (host.callIntrinsic scope fn args) := by
  refine avoids_answerOr (hhost.dispatch fn args) ?_
  split
  · exact avoids_answerOr (hhost.memoryInUse _) (avoids_builtin hf scope .calcMemUsed "")
  · exact avoids_answerOr (hhost.answerFor _ _) (avoids_builtin hf scope _ _)
  · exact avoids_throw_plain hf rfl

/-- A step blames the form of a text only at a malformed node, or at a target
that is not rooted. -/
theorem steps_avoid (hhost : host.Withholds f) (scope : Option Ref) :
    (Inherited.avoids σ f).Steps host scope fun e =>
      (f = .malformed → e.isMalformed = false) ∧
        (f = .invalidTarget → ∀ target ∈ e.target?, target.IsRooted) where
  operator _ := ne_of_blamesForm hf rfl
  operand := ne_of_blamesForm hf rfl
  call _ := ne_of_blamesForm hf rfl
  malformed e h hm heq := Bool.false_ne_true ((h.1 heq.symm).symm.trans hm)
  readName := avoids_readName hf scope
  readMember := avoids_readMember
  intrinsic fn _ _ _ _ := avoids_callIntrinsic hf hhost scope fn
  rendered _ _ := (avoids_lift _).bind fun _ => avoids_pure _
  target e target h ht := by
    refine ⟨?_, avoids_containerAt hf scope, avoids_writePlace hf scope⟩
    by_cases heq : f = .invalidTarget
    · exact .inl (h.2 heq target ht)
    · exact .inr (Ne.symm heq)

end Steps

/-- **A text without an error keeps its form.**  On a host that does not answer
so itself, its evaluation never fails for malformed text; and if every target in
the text is an identifier, or members and elements behind one, it never fails for
a target that is no place. -/
theorem error_free_text_keeps_form (text : String) (h : (parse text).hasErrors = false)
    (host : Host σ) (scope : Option Ref) (s : σ) :
    (host.Withholds .malformed →
      (Context.evaluate host (parse text) ⟨s, scope⟩).1 ≠ .error .malformed) ∧
    (host.Withholds .invalidTarget →
      (∀ e ∈ (parse text).body.reachable, ∀ target ∈ e.target?, target.root?.isSome = true) →
      (Context.evaluate host (parse text) ⟨s, scope⟩).1 ≠ .error .invalidTarget) := by
  have hsound := parts_sound text (isSyntaxError_of_hasErrors h)
  have hparts := (parse text).body.mem_parts_of_mem_reachable
  constructor
  · intro hhost hanswer
    have hrun := (steps_avoid rfl hhost scope).holds_run (parse text) fun e he =>
      ⟨fun _ => (hsound e (hparts e he)).1, nofun⟩
    exact hrun s _ (Prod.ext hanswer rfl)
  · intro hhost htargets hanswer
    have hrun := (steps_avoid rfl hhost scope).holds_run (parse text) fun e he =>
      ⟨nofun, fun _ target ht =>
        isRooted_of_root? h (hparts e he) ht (htargets e he target ht)⟩
    exact hrun s _ (Prod.ext hanswer rfl)

/-- The targets of an assignment and of an update in an index. -/
theorem error_free_text_keeps_form_update :
    (Context.evaluate ofStore (parse "rows[i++].count = 1") ⟨{}, none⟩).1 ≠ .error .malformed ∧
      (Context.evaluate ofStore (parse "rows[i++].count = 1") ⟨{}, none⟩).1 ≠
        .error .invalidTarget := by
  obtain ⟨hmalformed, htarget⟩ :=
    error_free_text_keeps_form "rows[i++].count = 1" (by decide +kernel) ofStore none {}
  exact ⟨hmalformed (withholds_ofStore _), htarget (withholds_ofStore _) (by decide +kernel)⟩

/-- The fault of an answer, which can be decided. -/
theorem eq_error_of_fault {answer : Answer} {fault : Fault}
    (h : (match answer with
      | .error f => some f
      | .ok _ => none) = some fault) : answer = .error fault := by
  cases answer with
  | error f => exact congrArg Except.error (Option.some.inj h)
  | ok v => cases h

/-- A member of a number passes the check and is no place; and a host may answer
any fault. -/
theorem error_free_text_blames_form :
    (¬ ∀ (text : String), (parse text).hasErrors = false → ∀ (scope : Option Ref) (s : Store),
      (Context.evaluate ofStore (parse text) ⟨s, scope⟩).1 ≠ .error .invalidTarget) ∧
    ¬ ∀ (text : String), (parse text).hasErrors = false → ∀ (host : Host Store)
      (scope : Option Ref) (s : Store),
      (Context.evaluate host (parse text) ⟨s, scope⟩).1 ≠ .error .malformed := by
  constructor
  · intro h
    exact h "(1).a = 2" (by decide +kernel) none {} (eq_error_of_fault (by decide +kernel))
  · intro h
    exact h "__CalcMemUsed()" (by decide +kernel)
      { ofStore with dispatch := fun _ _ => pure (some (.error .malformed)) } none {}
      (eq_error_of_fault (by decide +kernel))

end Evaluation
end TargetView
