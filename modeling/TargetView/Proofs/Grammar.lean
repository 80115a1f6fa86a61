import TargetView.Proofs.Parts

/-! # The grammar of expressions

The phrases of the language as derivations: a phrase relates a tree to the
words it spells, from the first to the last.  The rules follow the levels of
binding strength and know nothing of cursors, findings or recovery.  Spans are
left open, and parentheses leave no node.

A derived tree is sound: no part of it stands for malformed text, and whatever
is assigned or updated can be (`Grammar.Expression.parts_sound`).
-/
namespace TargetView

/-- What the grammar sees of a token. -/
structure Word where
  kind : TokenKind
  text : String
  deriving DecidableEq, Repr

namespace Word

/-- The word of an operator or delimiter. -/
def mark (p : String) : Word := ⟨.punctuation, p⟩

/-- The word of an identifier. -/
def name (s : String) : Word := ⟨.identifier, s⟩

/-- The words of a path of identifiers. -/
def path (first : String) (rest : List String) : List Word :=
  name first :: rest.flatMap fun s => [mark ":", name s]

end Word

/-- The word of a token. -/
def Token.word (t : Token) : Word := ⟨t.kind, t.text⟩

namespace Grammar

mutual
/-- A choice, or an assignment to one. -/
inductive Expression : Expr → List Word → Prop
  | choice {e ws} : Choice e ws → Expression e ws
  | assign {op target value ts vs} (span : Span) : op ∈ AssignOp.all →
      target.isAssignable = true → Choice target ts → Expression value vs →
      Expression (.assign op target value span) (ts ++ Word.mark op.symbol :: vs)

/-- A conditional expression, or what may be its condition. -/
inductive Choice : Expr → List Word → Prop
  | chain {e ws} : Chain 1 e ws → Choice e ws
  | conditional {cond yes no cs ys ns} (span : Span) :
      Chain 1 cond cs → Expression yes ys → Choice no ns →
      Choice (.conditional cond yes no span)
        (cs ++ Word.mark "?" :: ys ++ Word.mark ":" :: ns)

/-- Operands joined by operators that bind at least as tight as the number
says.  The left operand may bind just as tight, the right one binds tighter. -/
inductive Chain : Nat → Expr → List Word → Prop
  | operand {least e ws} : Prefixed e ws → Chain least e ws
  | operator {least op left right ls rs} (span : Span) : least ≤ op.precedence →
      Chain op.precedence left ls → Chain (op.precedence + 1) right rs →
      Chain least (.binary op left right span) (ls ++ Word.mark op.symbol :: rs)

/-- An operand with the operators before it. -/
inductive Prefixed : Expr → List Word → Prop
  | suffixed {e ws} : Suffixed e ws → Prefixed e ws
  | unary {op operand ws} (span : Span) : Prefixed operand ws →
      Prefixed (.unary op operand span) (Word.mark op.symbol :: ws)
  | update {op target ws} (span : Span) : target.isAssignable = true → Prefixed target ws →
      Prefixed (.update op true target span) (Word.mark op.symbol :: ws)

/-- An operand with the calls, members, elements and updates behind it.  A
call is one of an intrinsic if its callee is the name of one. -/
inductive Suffixed : Expr → List Word → Prop
  | primary {e ws} : Primary e ws → Suffixed e ws
  | member {base ws} (name : String) (span : Span) : Suffixed base ws →
      Suffixed (.member base name span) (ws ++ [Word.mark ".", Word.name name])
  | index {base key bs ks} (span : Span) : Suffixed base bs → Expression key ks →
      Suffixed (.index base key span) (bs ++ Word.mark "[" :: ks ++ [Word.mark "]"])
  | update {op target ws} (span : Span) : target.isAssignable = true → Suffixed target ws →
      Suffixed (.update op false target span) (ws ++ [Word.mark op.symbol])
  | call {callee ws} (span : Span) : Suffixed callee ws →
      Suffixed (Parser.callNode callee [] span) (ws ++ [Word.mark "(", Word.mark ")"])
  | callWith {callee args ws vs} (span : Span) : Suffixed callee ws →
      Arguments (Parser.intrinsic? callee).isSome args vs →
      Suffixed (Parser.callNode callee args span)
        (ws ++ Word.mark "(" :: vs ++ [Word.mark ")"])

/-- One or more arguments with commas between them. -/
inductive Arguments : Bool → List Expr → List Word → Prop
  | last {paths e ws} : Argument paths e ws → Arguments paths [e] ws
  | more {paths e es ws vs} : Argument paths e ws → Arguments paths es vs →
      Arguments paths (e :: es) (ws ++ Word.mark "," :: vs)

/-- An expression or, where paths are allowed, a path of at least two
identifiers. -/
inductive Argument : Bool → Expr → List Word → Prop
  | expression {paths e ws} : Expression e ws → Argument paths e ws
  | path (first second : String) (rest : List String) (span : Span) :
      Argument true (.ident (":".intercalate (first :: second :: rest)) span)
        (Word.path first (second :: rest))

/-- A literal, a name, or an expression in parentheses. -/
inductive Primary : Expr → List Word → Prop
  | number {value spelling} (span : Span) : Literal.decode spelling = .ok value →
      Primary (.number value span) [⟨.number, spelling⟩]
  | text (spelling : String) (span : Span) :
      Primary (.text (Literal.cook spelling 0).1 span) [⟨.string, spelling⟩]
  | truth (span : Span) : Primary (.number (.float 1) span) [Word.name "true"]
  | falsehood (span : Span) : Primary (.number (.float 0) span) [Word.name "false"]
  | ident {name : String} (span : Span) : name ≠ "true" → name ≠ "false" →
      Primary (.ident name span) [Word.name name]
  | parens {e ws} : Expression e ws →
      Primary e (Word.mark "(" :: ws ++ [Word.mark ")"])
end

end Grammar

/-! ### Derived trees -/

namespace Expr

/-- What an assignment or update changes. -/
def target? : Expr → Option Expr
  | assign _ target _ _ | update _ _ target _ => some target
  | _ => none

/-- Whether a node stands for well-formed text and changes only what can be
assigned. -/
def IsSound (e : Expr) : Prop :=
  e.isMalformed = false ∧ ∀ target ∈ e.target?, target.isAssignable = true

/-- Where nothing is malformed, a checked target can be assigned. -/
theorem IsSound.isAssignable {e : Expr} (h : e.IsSound)
    (ht : e.isAssignable = true ∨ e.isMalformed = true) : e.isAssignable = true := by
  rcases ht with ht | ht
  · exact ht
  · exact absurd (h.1.symm.trans ht) Bool.false_ne_true

theorem isSound_of_target? {e : Expr} (hm : e.isMalformed = false) (ht : e.target? = none) :
    e.IsSound := by
  refine ⟨hm, fun target h => ?_⟩
  rw [ht] at h
  cases h

theorem isSound_of_isAssignable {e target : Expr} (hm : e.isMalformed = false)
    (ht : e.target? = some target) (ha : target.isAssignable = true) : e.IsSound := by
  refine ⟨hm, fun target' h => ?_⟩
  obtain rfl := Option.some.inj (ht.symm.trans h)
  exact ha

/-- A node behind the parts of its operands. -/
theorem parts_sound_behind {operands : List Expr} {e : Expr}
    (h : ∀ p ∈ operands, p.IsSound) (he : e.IsSound) : ∀ p ∈ operands ++ [e], p.IsSound :=
  List.forall_mem_append.mpr ⟨h, List.forall_mem_singleton.mpr he⟩

theorem parts_sound_callNode {callee : Expr} {args : List Expr} (span : Span)
    (hc : ∀ p ∈ callee.parts, p.IsSound) (ha : ∀ p ∈ partsAll args, p.IsSound) :
    ∀ p ∈ (Parser.callNode callee args span).parts, p.IsSound := by
  unfold Parser.callNode
  split
  · -- The callee is no operand of an intrinsic; the name stands in its place.
    exact parts_sound_behind
      (List.forall_mem_cons.mpr ⟨isSound_of_target? rfl rfl, ha⟩) (isSound_of_target? rfl rfl)
  · exact parts_sound_behind (List.forall_mem_append.mpr ⟨hc, ha⟩) (isSound_of_target? rfl rfl)

end Expr

namespace Grammar

open TargetView.Expr (isSound_of_target? isSound_of_isAssignable parts_sound_behind
  parts_sound_callNode)

mutual
theorem Expression.parts_sound : ∀ {e ws}, Expression e ws → ∀ p ∈ e.parts, p.IsSound
  | _, _, .choice h => h.parts_sound
  | _, _, .assign _ _ ha ht hv =>
    parts_sound_behind (List.forall_mem_append.mpr ⟨ht.parts_sound, hv.parts_sound⟩)
      (isSound_of_isAssignable rfl rfl ha)

theorem Choice.parts_sound : ∀ {e ws}, Choice e ws → ∀ p ∈ e.parts, p.IsSound
  | _, _, .chain h => h.parts_sound
  | _, _, .conditional _ hc hy hn => by
    have hbranches := List.forall_mem_append.mpr ⟨hc.parts_sound, hy.parts_sound⟩
    exact parts_sound_behind (List.forall_mem_append.mpr ⟨hbranches, hn.parts_sound⟩)
      (isSound_of_target? rfl rfl)

theorem Chain.parts_sound : ∀ {least e ws}, Chain least e ws → ∀ p ∈ e.parts, p.IsSound
  | _, _, _, .operand h => h.parts_sound
  | _, _, _, .operator _ _ hl hr =>
    parts_sound_behind (List.forall_mem_append.mpr ⟨hl.parts_sound, hr.parts_sound⟩)
      (isSound_of_target? rfl rfl)

theorem Prefixed.parts_sound : ∀ {e ws}, Prefixed e ws → ∀ p ∈ e.parts, p.IsSound
  | _, _, .suffixed h => h.parts_sound
  | _, _, .unary _ h => parts_sound_behind h.parts_sound (isSound_of_target? rfl rfl)
  | _, _, .update _ ha h => parts_sound_behind h.parts_sound (isSound_of_isAssignable rfl rfl ha)

theorem Suffixed.parts_sound : ∀ {e ws}, Suffixed e ws → ∀ p ∈ e.parts, p.IsSound
  | _, _, .primary h => h.parts_sound
  | _, _, .member _ _ h => parts_sound_behind h.parts_sound (isSound_of_target? rfl rfl)
  | _, _, .index _ hb hk =>
    parts_sound_behind (List.forall_mem_append.mpr ⟨hb.parts_sound, hk.parts_sound⟩)
      (isSound_of_target? rfl rfl)
  | _, _, .update _ ha h => parts_sound_behind h.parts_sound (isSound_of_isAssignable rfl rfl ha)
  | _, _, .call span h => parts_sound_callNode span h.parts_sound nofun
  | _, _, .callWith span h ha => parts_sound_callNode span h.parts_sound ha.parts_sound

theorem Arguments.parts_sound :
    ∀ {paths es ws}, Arguments paths es ws → ∀ p ∈ Expr.partsAll es, p.IsSound
  | _, _, _, .last h => List.forall_mem_append.mpr ⟨h.parts_sound, nofun⟩
  | _, _, _, .more h hs => List.forall_mem_append.mpr ⟨h.parts_sound, hs.parts_sound⟩

theorem Argument.parts_sound :
    ∀ {paths e ws}, Argument paths e ws → ∀ p ∈ e.parts, p.IsSound
  | _, _, _, .expression h => h.parts_sound
  | _, _, _, .path .. => List.forall_mem_singleton.mpr (isSound_of_target? rfl rfl)

theorem Primary.parts_sound : ∀ {e ws}, Primary e ws → ∀ p ∈ e.parts, p.IsSound
  | _, _, .number .. | _, _, .text .. | _, _, .truth _ | _, _, .falsehood _
  | _, _, .ident .. => List.forall_mem_singleton.mpr (isSound_of_target? rfl rfl)
  | _, _, .parens h => h.parts_sound
end

end Grammar
end TargetView
