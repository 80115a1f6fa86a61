import TargetView.Evaluation
import TargetView.Proofs.Acceptance

/-! # Where free names come from

A free name of a text is either an identifier that stands in the text as a value,
or a path that stands there behind the name of the one intrinsic whose arguments
are values (`Word.Origin`).  It is never a truth value, and it names an intrinsic
only where no parenthesis makes a call of it.

The parser keeps this whatever the text is, recovery from errors included
(`Parser.sourced`): an identifier that it has just read is undecided until the
next word shows whether it is called, and every other name of a tree has its
origin among the words of the text.
-/
namespace TargetView

namespace Word

/-- Some words from which a name can come as a value. -/
inductive Origin (ws : List Word) : String → Prop
  /-- An identifier that is no truth value, nor the name of an intrinsic that is
  called. -/
  | identifier {name : String} {before after : List Word}
      (hws : ws = before ++ Word.name name :: after) (ht : name ≠ "true") (hf : name ≠ "false")
      (hcall : (Intrinsic.ofName? name).isSome = true → lead after ≠ some "(") : Origin ws name
  /-- A path in a text that names the intrinsic for the memory in use. -/
  | path {first second : String} {rest : List String}
      (hpath : Word.path first (second :: rest) <:+: ws)
      (hname : Word.name Intrinsic.calcMemUsed.name ∈ ws) :
      Origin ws (":".intercalate (first :: second :: rest))

end Word

theorem isPath_append (s t : String) : isPath (s ++ t) = (isPath s || isPath t) := by
  rw [isPath, String.toList_append, List.contains_append]
  rfl

theorem isPath_intercalate (first second : String) (rest : List String) :
    isPath (":".intercalate (first :: second :: rest)) = true := by
  have hcolon : isPath ":" = true := by decide
  rw [String.intercalate_cons_cons, isPath_append, isPath_append, hcolon, Bool.or_true,
    Bool.true_or]

theorem isPath_intrinsic (fn : Intrinsic) : isPath fn.name = false := by
  cases fn <;> decide

theorem Intrinsic.name_of_ofName? {s : String} {fn : Intrinsic} (h : ofName? s = some fn) :
    fn.name = s := by
  simpa using List.find?_some h

namespace Parser

variable {ws : List Word}

/-- Every name of an expression has its origin in some words. -/
def Rooted (ws : List Word) (e : Expr) : Prop := ∀ name ∈ e.occurrences, Word.Origin ws name

/-- An operand as it has been read: the words behind an identifier decide whether
it is a value. -/
inductive Operand (ws : List Word) : Expr → State → Prop
  | rooted {e : Expr} {s : State} (h : Rooted ws e) : Operand ws e s
  | name {name : String} {span : Span} {before : List Word} {s : State}
      (hws : ws = before ++ Word.name name :: s.words) (ht : name ≠ "true")
      (hf : name ≠ "false") : Operand ws (.ident name span) s

/-- An argument: an expression, or a path if the callee is an intrinsic. -/
inductive IsArgument (ws : List Word) (paths : Bool) : Expr → Prop
  | rooted {e : Expr} (h : Rooted ws e) : IsArgument ws paths e
  | path {first second : String} {rest : List String} (span : Span) (hpaths : paths = true)
      (hpath : Word.path first (second :: rest) <:+: ws) :
      IsArgument ws paths (.ident (":".intercalate (first :: second :: rest)) span)

/-- A result with its state in the text. -/
def Finds {α : Type} (ws : List Word) (P : α → State → Prop) (r : α × State) : Prop :=
  r.2.words <:+ ws ∧ P r.1 r.2

/-- A result whose names have their origins in the text. -/
abbrev FindsRooted (ws : List Word) (r : Expr × State) : Prop :=
  Finds ws (fun e _ => Rooted ws e) r

/-- What the parser functions make of a place in the text when they may make `n`
nested calls. -/
structure Sourced (ws : List Word) (n : Nat) : Prop where
  expression : ∀ s, s.words <:+ ws → FindsRooted ws (expression n s)
  conditional : ∀ s, s.words <:+ ws → FindsRooted ws (conditional n s)
  binary : ∀ least s, s.words <:+ ws → FindsRooted ws (binary n least s)
  operators : ∀ least left s, s.words <:+ ws → Rooted ws left →
    FindsRooted ws (operators n least left s)
  unary : ∀ s, s.words <:+ ws → FindsRooted ws (unary n s)
  suffixes : ∀ e s, s.words <:+ ws → Operand ws e s → FindsRooted ws (suffixes n e s)
  call : ∀ callee s, s.words <:+ ws →
    (∀ fn, intrinsic? callee = some fn → Word.name fn.name ∈ ws) →
    FindsRooted ws (call n callee s)
  arguments : ∀ paths s, s.words <:+ ws →
    Finds ws (fun args _ => ∀ a ∈ args, IsArgument ws paths a) (arguments n paths s)
  primary : ∀ s, s.words <:+ ws → Finds ws (Operand ws) (primary n s)

/-! ### Names of single nodes -/

theorem rooted_of_nil {e : Expr} (h : e.occurrences = []) : Rooted ws e := by
  intro name hname
  rw [h] at hname
  cases hname

theorem rooted_append {e : Expr} {xs ys : List String} (h : e.occurrences = xs ++ ys)
    (hx : ∀ name ∈ xs, Word.Origin ws name) (hy : ∀ name ∈ ys, Word.Origin ws name) :
    Rooted ws e := by
  intro name hname
  rw [h] at hname
  exact (List.mem_append.mp hname).elim (hx name) (hy name)

/-- An operand that is not called has its names in the text. -/
theorem Operand.rooted_of_lead {e : Expr} {s : State} (h : Operand ws e s)
    (hlead : Word.lead s.words ≠ some "(") : Rooted ws e := by
  cases h with
  | rooted h => exact h
  | name hws ht hf =>
    intro name hname
    rw [Expr.occurrences, List.mem_singleton] at hname
    subst hname
    exact .identifier hws ht hf fun _ => hlead

/-- The intrinsic that an operand names is named in the text. -/
theorem Operand.name_mem {e : Expr} {s : State} (h : Operand ws e s) {fn : Intrinsic}
    (hfn : intrinsic? e = some fn) : Word.name fn.name ∈ ws := by
  cases h with
  | name hws =>
    rw [Intrinsic.name_of_ofName? hfn, hws]
    exact List.mem_append_right _ List.mem_cons_self
  | rooted h =>
    cases e with
    | ident name span =>
      have hname := Intrinsic.name_of_ofName? hfn
      cases h name (by rw [Expr.occurrences]; exact List.mem_cons_self) with
      | identifier hws =>
        rw [hname, hws]
        exact List.mem_append_right _ List.mem_cons_self
      | @path first second rest =>
        have hpath := isPath_intercalate first second rest
        rw [← hname, isPath_intrinsic] at hpath
        cases hpath
    | _ => cases hfn

theorem occurrencesAll_rooted {args : List Expr} (h : ∀ a ∈ args, IsArgument ws false a) :
    ∀ name ∈ Expr.occurrencesAll args, Word.Origin ws name := by
  induction args with
  | nil => nofun
  | cons a rest ih =>
    obtain ⟨ha, hrest⟩ := List.forall_mem_cons.mp h
    intro name hname
    rw [Expr.occurrencesAll, List.mem_append] at hname
    rcases hname with hname | hname
    · cases ha with
      | rooted ha => exact ha name hname
      | path span hpaths => cases hpaths
    · exact ih hrest name hname

/-- A path is a value only for the intrinsic that takes no names. -/
theorem occurrencesIn_rooted {fn : Intrinsic} {args : List Expr}
    (h : ∀ a ∈ args, IsArgument ws true a) (hfn : Word.name fn.name ∈ ws) :
    ∀ name ∈ Expr.occurrencesIn fn args, Word.Origin ws name := by
  induction args with
  | nil => nofun
  | cons a rest ih =>
    obtain ⟨ha, hrest⟩ := List.forall_mem_cons.mp h
    intro name hname
    rw [Expr.occurrencesIn, List.mem_append] at hname
    rcases hname with hname | hname
    · split at hname
      · cases hname
      · next hvalue =>
        cases ha with
        | rooted ha => exact ha name hname
        | path span hpaths hpath =>
          rw [Expr.occurrences, List.mem_singleton] at hname
          subst hname
          cases fn with
          | calcMemUsed => exact .path hpath hfn
          | _ => exact absurd rfl hvalue
    · exact ih hrest name hname

theorem rooted_callNode {callee : Expr} {args : List Expr} (span : Span)
    (hargs : ∀ a ∈ args, IsArgument ws (intrinsic? callee).isSome a)
    (hcallee : ∀ fn, intrinsic? callee = some fn → Word.name fn.name ∈ ws) :
    Rooted ws (callNode callee args span) := by
  unfold callNode
  cases hfn : intrinsic? callee with
  | none =>
    rw [hfn] at hargs
    intro name hname
    rw [Expr.occurrences] at hname
    exact occurrencesAll_rooted hargs name hname
  | some fn =>
    rw [hfn] at hargs
    intro name hname
    rw [Expr.occurrences] at hname
    exact occurrencesIn_rooted hargs (hcallee fn hfn) name hname

/-! ### Steps within the text -/

namespace State

variable {s : State}

theorem next_within (h : s.words <:+ ws) : s.next.words <:+ ws := by
  rw [words_next]
  exact (List.tail_suffix _).trans h

theorem closed_within (bracket : String) (opening : Char) (opened : Span)
    (h : s.words <:+ ws) : (s.closed bracket opening opened).2.words <:+ ws := by
  unfold closed
  split
  · exact next_within h
  · exact h

end State

theorem missing_finds {s : State} (t : Token) (h : s.words <:+ ws) :
    FindsRooted ws (missing t s) :=
  ⟨h, rooted_of_nil rfl⟩

theorem numberNode_finds {s : State} (t : Token) (h : s.words <:+ ws) :
    FindsRooted ws (numberNode t s) := by
  rw [numberNode_apply]
  split
  · refine ⟨?_, rooted_of_nil rfl⟩
    dsimp only
    split <;> exact h
  · exact ⟨h, rooted_of_nil rfl⟩

theorem textNode_finds {s : State} (t : Token) (h : s.words <:+ ws) :
    FindsRooted ws (textNode t s) := by
  rw [textNode_apply]
  refine ⟨?_, rooted_of_nil rfl⟩
  dsimp only
  rw [State.words_foldl_push]
  exact h

theorem member_finds {base : Expr} {s : State} (h : s.words <:+ ws) (hb : Rooted ws base) :
    FindsRooted ws (member base s) := by
  rw [member_apply]
  dsimp only
  split
  · exact ⟨State.next_within (State.next_within h), hb⟩
  · exact ⟨State.next_within h, rooted_of_nil rfl⟩

/-- An identifier is a truth value or a name that is undecided. -/
theorem nameNode_finds {s : State} (h : s.words <:+ ws) (hk : s.current.kind = .identifier) :
    Finds ws (Operand ws) (nameNode s.current, s.next) := by
  refine ⟨State.next_within h, ?_⟩
  have hw := State.words_of_kind (s := s) (by rw [hk]; nofun)
  obtain ⟨before, hbefore⟩ := h
  unfold nameNode
  split
  · exact .rooted (rooted_of_nil rfl)
  · next ht =>
    split
    · exact .rooted (rooted_of_nil rfl)
    · next hf =>
      have hhere : ws = before ++ Word.name s.current.text :: s.next.words := by
        rw [← hbefore, hw]
        simp only [Token.word, Word.name, hk]
      exact .name hhere (by simpa using ht) (by simpa using hf)

/-! ### The grammar -/

theorem Sourced.zero : Sourced ws 0 where
  expression s h := by rw [expression_zero]; exact missing_finds _ h
  conditional s h := by rw [conditional_zero]; exact missing_finds _ h
  binary least s h := by rw [binary_zero]; exact missing_finds _ h
  operators least left s h _ := by rw [operators_zero]; exact missing_finds _ h
  unary s h := by rw [unary_zero]; exact missing_finds _ h
  suffixes e s h _ := by rw [suffixes_zero]; exact missing_finds _ h
  call callee s h _ := by rw [call_zero]; exact missing_finds _ h
  arguments paths s h := by
    rw [arguments_zero]
    exact ⟨h, List.forall_mem_singleton.mpr (.rooted (missing_finds _ h).2)⟩
  primary s h := by
    rw [primary_zero]
    exact ⟨h, .rooted (missing_finds _ h).2⟩

namespace Sourced

variable {n : Nat} (ih : Sourced ws n)
include ih

theorem expression_succ {s : State} (h : s.words <:+ ws) :
    FindsRooted ws (Parser.expression (n + 1) s) := by
  obtain ⟨hr, htarget⟩ := ih.conditional s h
  rw [Parser.expression_succ]
  dsimp only
  cases (Parser.conditional n s).2.operator? AssignOp.ofSymbol? with
  | none => exact ⟨hr, htarget⟩
  | some op =>
    obtain ⟨hv, hvalue⟩ := ih.expression
      ((Parser.conditional n s).2.next.checked (Parser.conditional n s).1 op.symbol)
      (by rw [State.words_checked]; exact State.next_within hr)
    exact ⟨hv, rooted_append rfl htarget hvalue⟩

theorem conditional_succ {s : State} (h : s.words <:+ ws) :
    FindsRooted ws (Parser.conditional (n + 1) s) := by
  obtain ⟨hc, hcond⟩ := ih.binary 1 s h
  rw [Parser.conditional_succ]
  dsimp only
  split
  · obtain ⟨hy, hyes⟩ := ih.expression _ (State.next_within hc)
    split
    · obtain ⟨hn, hno⟩ := ih.conditional _ (State.next_within hy)
      exact ⟨hn, rooted_append rfl (fun name hname =>
        (List.mem_append.mp hname).elim (hcond name) (hyes name)) hno⟩
    · exact ⟨hy, rooted_append rfl (fun name hname =>
        (List.mem_append.mp hname).elim (hcond name) (hyes name)) nofun⟩
  · exact ⟨hc, hcond⟩

theorem binary_succ (least : Nat) {s : State} (h : s.words <:+ ws) :
    FindsRooted ws (Parser.binary (n + 1) least s) := by
  obtain ⟨hu, hleft⟩ := ih.unary s h
  rw [Parser.binary_succ]
  exact ih.operators least _ _ hu hleft

theorem operators_succ (least : Nat) {left : Expr} {s : State} (h : s.words <:+ ws)
    (hleft : Rooted ws left) : FindsRooted ws (Parser.operators (n + 1) least left s) := by
  rw [Parser.operators_succ]
  cases s.operator? BinaryOp.ofSymbol? with
  | none => exact ⟨h, hleft⟩
  | some op =>
    dsimp only
    split
    · exact ⟨h, hleft⟩
    · obtain ⟨hr, hright⟩ := ih.binary (op.precedence + 1) _ (State.next_within h)
      exact ih.operators least _ _ hr (rooted_append rfl hleft hright)

theorem unary_succ {s : State} (h : s.words <:+ ws) :
    FindsRooted ws (Parser.unary (n + 1) s) := by
  rw [Parser.unary_succ]
  cases s.operator? UpdateOp.ofSymbol? with
  | some op =>
    obtain ⟨hr, htarget⟩ := ih.unary _ (State.next_within h)
    exact ⟨by dsimp only; rw [State.words_checked]; exact hr, htarget⟩
  | none =>
    dsimp only
    cases s.operator? UnaryOp.ofSymbol? with
    | some op => exact ih.unary _ (State.next_within h)
    | none =>
      obtain ⟨hp, hoperand⟩ := ih.primary s h
      exact ih.suffixes _ _ hp hoperand

theorem suffixes_succ {e : Expr} {s : State} (h : s.words <:+ ws) (he : Operand ws e s) :
    FindsRooted ws (Parser.suffixes (n + 1) e s) := by
  rw [Parser.suffixes_succ]
  split
  · obtain ⟨hc, hcall⟩ := ih.call e s h fun fn => he.name_mem
    exact ih.suffixes _ _ hc (.rooted hcall)
  · next hcall =>
    have he : Rooted ws e := by
      refine he.rooted_of_lead fun hlead => hcall ?_
      rw [State.sees_eq, hlead]
      rfl
    split
    · obtain ⟨hm, hmember⟩ := member_finds h he
      exact ih.suffixes _ _ hm (.rooted hmember)
    · split
      · obtain ⟨hk, hkey⟩ := ih.expression _ (State.next_within h)
        exact ih.suffixes _ _ (State.closed_within _ _ _ hk) (.rooted (rooted_append rfl he hkey))
      · cases s.operator? UpdateOp.ofSymbol? with
        | none => exact ⟨h, he⟩
        | some op =>
          refine ih.suffixes _ _ ?_ (.rooted he)
          rw [State.words_checked]
          exact State.next_within h

theorem call_succ {callee : Expr} {s : State} (h : s.words <:+ ws)
    (hcallee : ∀ fn, intrinsic? callee = some fn → Word.name fn.name ∈ ws) :
    FindsRooted ws (Parser.call (n + 1) callee s) := by
  rw [Parser.call_succ]
  split
  · exact ⟨State.next_within (State.next_within h), rooted_callNode _ nofun hcallee⟩
  · obtain ⟨ha, hargs⟩ := ih.arguments (intrinsic? callee).isSome _ (State.next_within h)
    exact ⟨State.closed_within _ _ _ ha, rooted_callNode _ hargs hcallee⟩

theorem argument (paths : Bool) {s : State} (h : s.words <:+ ws) :
    Finds ws (fun e _ => IsArgument ws paths e) (Parser.argument n paths s) := by
  unfold Parser.argument
  dsimp only
  by_cases hl : (if paths then pathLength s.cursor.ahead else 0) = 0
  · rw [if_pos hl]
    obtain ⟨he, harg⟩ := ih.expression s h
    exact ⟨he, .rooted harg⟩
  · -- A length other than zero says that paths are wanted and that one is found.
    rw [if_neg hl]
    cases paths with
    | false => exact absurd rfl hl
    | true =>
      obtain ⟨first, second, rest, span, he, hw, -⟩ := joined_pathLength hl s.cursor.span
      obtain ⟨before, hbefore⟩ := h
      rw [hw, ← List.append_assoc] at hbefore
      refine ⟨⟨_, hbefore⟩, ?_⟩
      rw [if_pos rfl, he]
      exact .path span rfl ⟨_, _, hbefore⟩

theorem arguments_succ (paths : Bool) {s : State} (h : s.words <:+ ws) :
    Finds ws (fun args _ => ∀ a ∈ args, IsArgument ws paths a)
      (Parser.arguments (n + 1) paths s) := by
  obtain ⟨ha, harg⟩ := ih.argument paths h
  rw [Parser.arguments_succ]
  dsimp only
  split
  · obtain ⟨hr, hrest⟩ := ih.arguments paths _ (State.next_within ha)
    exact ⟨hr, List.forall_mem_cons.mpr ⟨harg, hrest⟩⟩
  · exact ⟨ha, List.forall_mem_singleton.mpr harg⟩

theorem primary_succ {s : State} (h : s.words <:+ ws) :
    Finds ws (Operand ws) (Parser.primary (n + 1) s) := by
  have hnext := State.next_within h
  have hmissing (t : Token) {u : State} (hu : u.words <:+ ws) :
      Finds ws (Operand ws) (missing t u) := ⟨hu, .rooted (missing_finds t hu).2⟩
  rw [Parser.primary_succ]
  dsimp only
  split
  · obtain ⟨hw, hnumber⟩ := numberNode_finds s.current hnext
    exact ⟨hw, .rooted hnumber⟩
  · obtain ⟨hw, htext⟩ := textNode_finds s.current hnext
    exact ⟨hw, .rooted htext⟩
  · next hk => exact nameNode_finds h hk
  · exact ⟨hnext, .rooted (rooted_of_nil rfl)⟩
  · split
    · obtain ⟨hr, hinner⟩ := ih.expression _ hnext
      exact ⟨State.closed_within _ _ _ hr, .rooted hinner⟩
    · split
      · exact hmissing _ h
      · exact hmissing _ hnext
  · exact hmissing _ h

theorem succ : Sourced ws (n + 1) where
  expression _ := ih.expression_succ
  conditional _ := ih.conditional_succ
  binary least _ := ih.binary_succ least
  operators least _ _ := ih.operators_succ least
  unary _ := ih.unary_succ
  suffixes _ _ := ih.suffixes_succ
  call _ _ := ih.call_succ
  arguments paths _ := ih.arguments_succ paths
  primary _ := ih.primary_succ

end Sourced

/-- **Every name comes from the text.** -/
theorem sourced (ws : List Word) : ∀ n, Sourced ws n
  | 0 => .zero
  | n + 1 => (sourced ws n).succ

theorem whole_rooted (fuel : Nat) {s : State} (h : s.words <:+ ws) :
    Rooted ws (whole fuel s).1 := by
  have he := ((sourced ws fuel).expression s h).2
  rw [whole_apply]
  split
  · exact rooted_of_nil rfl
  · dsimp only
    split <;> exact he

end Parser
end TargetView
