import TargetView.Proofs.Bare
import TargetView.Proofs.Follow

/-! # Reading phrase by phrase

For every rule of the grammar, what the parser does with the words of the
rule, given that it reads the parts.  Chains of operators and of suffixes grow
to the left, so about them the statement is where the loop that reads them has
got to, and not yet that it stops.
-/
namespace TargetView.Parser

/-! ### What the parser reads -/

/-- The parser has read a tree up to some words. -/
structure Reads (e : Expr) (rest : List Word) (r : Expr × State) : Prop where
  accepted : r.2.Accepted
  words : r.2.words = rest
  bare : r.1.bare = e.bare

/-- Given `spare` calls beyond ten for every word ahead, a parser function
reads a phrase wherever `follow` holds of the words behind it. -/
def Consumes (run : Nat → State → Expr × State) (spare : Nat) (follow : List Word → Prop)
    (e : Expr) (ws : List Word) : Prop :=
  ∀ n s rest, s.Accepted → s.words = ws ++ rest → follow rest →
    10 * s.words.length + spare ≤ n → Reads e rest (run n s)

/-- No phrase is read without a call. -/
theorem Consumes.of_succ {run : Nat → State → Expr × State} {spare : Nat}
    {follow : List Word → Prop} {e : Expr} {ws : List Word} (hspare : 0 < spare)
    (h : ∀ m s rest, s.Accepted → s.words = ws ++ rest → follow rest →
      10 * s.words.length + spare ≤ m + 1 → Reads e rest (run (m + 1) s)) :
    Consumes run spare follow e ws := by
  intro n s rest hs hw hf hn
  cases n with
  | zero => omega
  | succ m => exact h m s rest hs hw hf hn

def ConsumesExpression : Expr → List Word → Prop :=
  Consumes expression 5 fun rest => Word.pull rest = 0

def ConsumesChoice : Expr → List Word → Prop :=
  Consumes conditional 4 fun rest => Word.pull rest ≤ 1

/-- The loop over the operators gets to the end of the chain, and there goes
on with what is left of its calls. -/
def ConsumesChain (p : Nat) (e : Expr) (ws : List Word) : Prop :=
  ∀ n least s rest, s.Accepted → s.words = ws ++ rest → Word.pull rest < 13 →
    Word.pull rest ≤ p + 2 → least ≤ p → 10 * s.words.length + 3 ≤ n →
    ∃ m r, binary n least s = operators m least r.1 r.2 ∧ Reads e rest r ∧
      10 * rest.length + 1 ≤ m

def ConsumesPrefixed : Expr → List Word → Prop :=
  Consumes unary 2 fun rest => Word.pull rest < 13

/-- The loop over the suffixes gets to the end of the operand, and there goes
on with what is left of its calls. -/
def ConsumesSuffixed (e : Expr) (ws : List Word) : Prop :=
  ∀ n s rest, s.Accepted → s.words = ws ++ rest → 10 * s.words.length + 1 ≤ n →
    ∃ m r, suffixes n (primary n s).1 (primary n s).2 = suffixes m r.1 r.2 ∧ Reads e rest r ∧
      10 * rest.length + 2 ≤ m

def ConsumesArguments (paths : Bool) (es : List Expr) (ws : List Word) : Prop :=
  ∀ n s rest, s.Accepted → s.words = ws ++ rest → Word.lead rest = some ")" →
    10 * s.words.length + 6 ≤ n →
    (arguments n paths s).2.Accepted ∧ (arguments n paths s).2.words = rest ∧
      Expr.bareAll (arguments n paths s).1 = Expr.bareAll es

def ConsumesArgument (paths : Bool) : Expr → List Word → Prop :=
  Consumes (argument · paths) 5 fun rest =>
    Word.lead rest = some "," ∨ Word.lead rest = some ")"

def ConsumesPrimary : Expr → List Word → Prop :=
  Consumes primary 1 fun _ => True

/-! ### Expressions and choices -/

theorem ConsumesChoice.expression {e : Expr} {ws : List Word} (h : ConsumesChoice e ws) :
    ConsumesExpression e ws := by
  refine Consumes.of_succ (by decide) fun m s rest hs hw hf hn => ?_
  have hr := h m s rest hs hw (by omega) (by omega)
  have hop : (conditional m s).2.operator? AssignOp.ofSymbol? = none :=
    State.operator?_of_pull (fun _ _ hp => Nat.le_of_eq (Word.strength_of_assign hp).symm)
      (by rw [hr.words]; omega)
  rw [expression_succ]
  simpa only [hop] using hr

theorem ConsumesExpression.assign {op : AssignOp} {target value : Expr} {ts vs : List Word}
    (span : Span) (hop : op ∈ AssignOp.all) (ha : target.isAssignable = true)
    (ht : ConsumesChoice target ts) (hv : ConsumesExpression value vs) :
    ConsumesExpression (.assign op target value span) (ts ++ Word.mark op.symbol :: vs) := by
  refine Consumes.of_succ (by decide) fun m s rest hs hw hf hn => ?_
  have hw' : s.words = ts ++ Word.mark op.symbol :: (vs ++ rest) := by rw [hw]; simp
  have hlen := congrArg List.length hw'
  simp only [List.length_append, List.length_cons] at hlen
  -- An assignment is too weak to continue the choice, so the target ends there.
  have hr := ht m s _ hs hw' (Nat.le_of_eq (Word.strength_assign op hop)) (by omega)
  have hsome : (conditional m s).2.operator? AssignOp.ofSymbol? = some op := by
    rw [State.operator?_mark hr.words, Word.ofSymbol?_assign op hop]
  have ha' : (conditional m s).1.isAssignable = true := by
    rw [Expr.isAssignable_of_bare hr.bare, ha]
  have hnext := State.words_next_of hr.words
  have hr' := hv m (conditional m s).2.next rest hr.accepted hnext hf
    (by rw [hnext, List.length_append]; omega)
  rw [expression_succ]
  simp only [hsome, State.checked_of_isAssignable ha']
  refine ⟨hr'.accepted, hr'.words, ?_⟩
  simp only [Expr.bare, hr.bare, hr'.bare]

/-- The operators behind an operand stop where the next one binds too loosely. -/
theorem operators_stop {m least : Nat} {r : Expr × State} (hm : 1 ≤ m)
    (hp : Word.pull r.2.words ≤ least + 1) : operators m least r.1 r.2 = r := by
  cases m with
  | zero => omega
  | succ m =>
    rw [operators_succ]
    cases hop : r.2.operator? BinaryOp.ofSymbol? with
    | none => rfl
    | some op =>
      obtain ⟨p, hp', hw⟩ := State.words_of_operator? hop
      rw [hw, Word.pull_mark, Word.strength_of_binary hp'] at hp
      have hlt : op.precedence < least := by omega
      simp only [if_pos hlt]

theorem ConsumesChain.choice {e : Expr} {ws : List Word} (h : ConsumesChain 1 e ws) :
    ConsumesChoice e ws := by
  refine Consumes.of_succ (by decide) fun m s rest hs hw hf hn => ?_
  obtain ⟨k, r, he, hr, hk⟩ := h m 1 s rest hs hw (by omega) (by omega) (by omega) (by omega)
  rw [operators_stop (by omega) (by rw [hr.words]; omega)] at he
  have hq : r.2.cursor.sees "?" = false :=
    State.sees_of_pull (by rw [hr.words]; exact Nat.lt_succ_of_le hf)
  rw [conditional_succ, he]
  simpa only [hq, Bool.false_eq_true, if_false] using hr

theorem ConsumesChoice.conditional {cond yes no : Expr} {cs ys ns : List Word} (span : Span)
    (hc : ConsumesChain 1 cond cs) (hy : ConsumesExpression yes ys)
    (hno : ConsumesChoice no ns) :
    ConsumesChoice (.conditional cond yes no span)
      (cs ++ Word.mark "?" :: ys ++ Word.mark ":" :: ns) := by
  refine Consumes.of_succ (by decide) fun m s rest hs hw hf hn => ?_
  have hw' : s.words =
      cs ++ Word.mark "?" :: (ys ++ Word.mark ":" :: (ns ++ rest)) := by rw [hw]; simp
  have hlen := congrArg List.length hw'
  simp only [List.length_append, List.length_cons] at hlen
  -- The loop over the operators stops at the question mark.
  have hpull := Word.strength_question
  obtain ⟨k, r, he, hr, hk⟩ := hc m 1 s _ hs hw' (by rw [Word.pull_mark]; omega)
    (by rw [Word.pull_mark]; omega) (by omega) (by omega)
  rw [operators_stop (by omega) (by rw [hr.words, Word.pull_mark]; omega)] at he
  have hq : r.2.cursor.sees "?" = true := State.sees_mark hr.words "?"
  have hnext := State.words_next_of hr.words
  have hry := hy m r.2.next _ hr.accepted hnext Word.strength_colon
    (by rw [hnext]; simp only [List.length_append, List.length_cons]; omega)
  have hcolon : (Parser.expression m r.2.next).2.cursor.sees ":" = true :=
    State.sees_mark hry.words ":"
  have hnext' := State.words_next_of hry.words
  have hrn := hno m (Parser.expression m r.2.next).2.next rest hry.accepted hnext' hf
    (by rw [hnext', List.length_append]; omega)
  rw [conditional_succ, he]
  simp only [hq, hcolon, if_true]
  refine ⟨hrn.accepted, hrn.words, ?_⟩
  simp only [Expr.bare, hr.bare, hry.bare, hrn.bare]

/-! ### Operators -/

theorem ConsumesPrefixed.chain {e : Expr} {ws : List Word} (h : ConsumesPrefixed e ws)
    (hne : ws ≠ []) (p : Nat) : ConsumesChain p e ws := by
  intro n least s rest hs hw hf _ _ hn
  cases n with
  | zero => omega
  | succ m =>
    have hlen := congrArg List.length hw
    rw [List.length_append] at hlen
    have hpos := List.length_pos_iff.mpr hne
    exact ⟨m, unary m s, binary_succ .., h m s rest hs hw hf (by omega), by omega⟩

theorem ConsumesChain.operator {p : Nat} {op : BinaryOp} {left right : Expr}
    {ls rs : List Word} (span : Span) (hp : p ≤ op.precedence)
    (hl : ConsumesChain op.precedence left ls)
    (hr : ConsumesChain (op.precedence + 1) right rs) :
    ConsumesChain p (.binary op left right span) (ls ++ Word.mark op.symbol :: rs) := by
  intro n least s rest hs hw hf hf' hleast hn
  have hw' : s.words = ls ++ Word.mark op.symbol :: (rs ++ rest) := by rw [hw]; simp
  have hlen := congrArg List.length hw'
  simp only [List.length_append, List.length_cons] at hlen
  -- The left operand may bind as tight as `op`, so its loop arrives at `op`.
  have hpull : Word.pull (Word.mark op.symbol :: (rs ++ rest)) = op.precedence + 2 :=
    Word.strength_binary op
  have htight := op.precedence_le
  obtain ⟨m, r, he, hread, hm⟩ :=
    hl n least s _ hs hw' (by omega) (by omega) (by omega) hn
  simp only [List.length_append, List.length_cons] at hm
  cases m with
  | zero => omega
  | succ m =>
    have hop : r.2.operator? BinaryOp.ofSymbol? = some op := by
      rw [State.operator?_mark hread.words, BinaryOp.ofSymbol?_symbol]
    have hnext := State.words_next_of hread.words
    obtain ⟨k, q, he', hread', hk⟩ := hr m (op.precedence + 1) r.2.next rest hread.accepted
      hnext hf (by omega) (Nat.le_refl _) (by rw [hnext, List.length_append]; omega)
    -- What follows may bind as tight as `op`, so the right operand is over.
    rw [operators_stop (by omega) (by rw [hread'.words]; omega)] at he'
    refine ⟨m, (.binary op r.1 q.1 (r.1.span.merge q.1.span), q.2), ?_, ?_, by omega⟩
    · rw [he, operators_succ, hop]
      simp only [if_neg (show ¬ op.precedence < least by omega), he']
    · refine ⟨hread'.accepted, hread'.words, ?_⟩
      simp only [Expr.bare, hread.bare, hread'.bare]

theorem suffixes_stop {m : Nat} {r : Expr × State} (hm : 1 ≤ m)
    (hp : Word.pull r.2.words < 13) : suffixes m r.1 r.2 = r := by
  cases m with
  | zero => omega
  | succ m =>
    have hcall : r.2.cursor.sees "(" = false := State.sees_of_pull hp
    have hdot : r.2.cursor.sees "." = false := State.sees_of_pull hp
    have hidx : r.2.cursor.sees "[" = false := State.sees_of_pull hp
    have hup : r.2.operator? UpdateOp.ofSymbol? = none :=
      State.operator?_of_pull (fun _ _ h => Nat.le_of_eq (Word.strength_of_update h).symm) hp
    rw [suffixes_succ, hcall, hdot, hidx, hup]
    simp only [Bool.false_eq_true, if_false]

theorem ConsumesSuffixed.prefixed {e : Expr} {ws : List Word} (h : ConsumesSuffixed e ws)
    (hlead : ∀ rest p, Word.lead (ws ++ rest) = some p → p = "(") : ConsumesPrefixed e ws := by
  refine Consumes.of_succ (by decide) fun m s rest hs hw hf hn => ?_
  -- The only punctuation at the head of an operand is a parenthesis.
  have hup : s.operator? UpdateOp.ofSymbol? = none := by
    rw [State.operator?_eq, hw, Option.bind_eq_none_iff]
    intro p hp
    rw [hlead rest p hp]
    decide
  have hop : s.operator? UnaryOp.ofSymbol? = none := by
    rw [State.operator?_eq, hw, Option.bind_eq_none_iff]
    intro p hp
    rw [hlead rest p hp]
    decide
  obtain ⟨k, r, he, hr, hk⟩ := h m s rest hs hw (by omega)
  have hstop : suffixes k r.1 r.2 = r := suffixes_stop (by omega) (by rw [hr.words]; exact hf)
  rw [unary_succ, hup, hop]
  simpa only [he, hstop] using hr

theorem ConsumesPrefixed.unary {op : UnaryOp} {operand : Expr} {ws : List Word} (span : Span)
    (h : ConsumesPrefixed operand ws) :
    ConsumesPrefixed (.unary op operand span) (Word.mark op.symbol :: ws) := by
  refine Consumes.of_succ (by decide) fun m s rest hs hw hf hn => ?_
  have hup : s.operator? UpdateOp.ofSymbol? = none := by
    rw [State.operator?_mark hw]
    cases op <;> decide
  have hop : s.operator? UnaryOp.ofSymbol? = some op := by
    rw [State.operator?_mark hw, UnaryOp.ofSymbol?_symbol]
  have hlen := congrArg List.length hw
  simp only [List.length_append, List.length_cons] at hlen
  have hnext : s.next.words = ws ++ rest := State.words_next_of hw
  have hr := h m s.next rest hs hnext hf (by rw [hnext, List.length_append]; omega)
  rw [unary_succ, hup, hop]
  refine ⟨hr.accepted, hr.words, ?_⟩
  simp only [Expr.bare, hr.bare]

theorem ConsumesPrefixed.update {op : UpdateOp} {target : Expr} {ws : List Word} (span : Span)
    (ha : target.isAssignable = true) (h : ConsumesPrefixed target ws) :
    ConsumesPrefixed (.update op true target span) (Word.mark op.symbol :: ws) := by
  refine Consumes.of_succ (by decide) fun m s rest hs hw hf hn => ?_
  have hup : s.operator? UpdateOp.ofSymbol? = some op := by
    rw [State.operator?_mark hw, UpdateOp.ofSymbol?_symbol]
  have hlen := congrArg List.length hw
  simp only [List.length_append, List.length_cons] at hlen
  have hnext : s.next.words = ws ++ rest := State.words_next_of hw
  have hr := h m s.next rest hs hnext hf (by rw [hnext, List.length_append]; omega)
  have ha' : (Parser.unary m s.next).1.isAssignable = true := by
    rw [Expr.isAssignable_of_bare hr.bare, ha]
  rw [unary_succ, hup]
  simp only [State.checked_of_isAssignable ha']
  refine ⟨hr.accepted, hr.words, ?_⟩
  simp only [Expr.bare, hr.bare]

/-! ### Suffixes -/

theorem ConsumesPrimary.suffixed {e : Expr} {ws : List Word} (h : ConsumesPrimary e ws)
    (hne : ws ≠ []) : ConsumesSuffixed e ws := by
  intro n s rest hs hw hn
  have hlen := congrArg List.length hw
  rw [List.length_append] at hlen
  have hpos := List.length_pos_iff.mpr hne
  exact ⟨n, primary n s, rfl, h n s rest hs hw trivial hn, by omega⟩

theorem ConsumesSuffixed.member {base : Expr} {ws : List Word} (name : String) (span : Span)
    (h : ConsumesSuffixed base ws) :
    ConsumesSuffixed (.member base name span) (ws ++ [Word.mark ".", Word.name name]) := by
  intro n s rest hs hw hn
  have hw' : s.words = ws ++ Word.mark "." :: Word.name name :: rest := by rw [hw]; simp
  obtain ⟨m, r, he, hr, hm⟩ := h n s _ hs hw' hn
  simp only [List.length_cons] at hm
  cases m with
  | zero => omega
  | succ m =>
    have hcall : r.2.cursor.sees "(" = false := State.sees_mark hr.words "("
    have hdot : r.2.cursor.sees "." = true := State.sees_mark hr.words "."
    have hnext := State.words_next_of hr.words
    have hname := State.current_word hnext
    have hk : (r.2.next.current.kind == .identifier) = true :=
      beq_iff_eq.mpr (congrArg Word.kind hname)
    have ht : r.2.next.current.text = name := congrArg Word.text hname
    have hmem := member_apply r.1 r.2
    simp only [hk, ht, if_true] at hmem
    refine ⟨m, Parser.member r.1 r.2, ?_, ?_, by omega⟩
    · rw [he, suffixes_succ, hcall, hdot]
      rfl
    · rw [hmem]
      refine ⟨hr.accepted, State.words_next_of hnext, ?_⟩
      simp only [Expr.bare, hr.bare]

theorem ConsumesSuffixed.index {base key : Expr} {bs ks : List Word} (span : Span)
    (h : ConsumesSuffixed base bs) (hkey : ConsumesExpression key ks) :
    ConsumesSuffixed (.index base key span)
      (bs ++ Word.mark "[" :: ks ++ [Word.mark "]"]) := by
  intro n s rest hs hw hn
  have hw' : s.words = bs ++ Word.mark "[" :: (ks ++ Word.mark "]" :: rest) := by
    rw [hw]; simp
  obtain ⟨m, r, he, hr, hm⟩ := h n s _ hs hw' hn
  simp only [List.length_append, List.length_cons] at hm
  cases m with
  | zero => omega
  | succ m =>
    have hcall : r.2.cursor.sees "(" = false := State.sees_mark hr.words "("
    have hdot : r.2.cursor.sees "." = false := State.sees_mark hr.words "."
    have hidx : r.2.cursor.sees "[" = true := State.sees_mark hr.words "["
    have hnext := State.words_next_of hr.words
    have hk := hkey m r.2.next _ hr.accepted hnext Word.strength_closing
      (by rw [hnext]; simp only [List.length_append, List.length_cons]; omega)
    have hclosed := State.closed_of_words hk.words '[' r.2.current.span
    have hnext' := State.words_next_of hk.words
    rw [he, suffixes_succ, hcall, hdot, hidx]
    simp only [Bool.false_eq_true, if_false, if_true, hclosed]
    refine ⟨m, (_, _), rfl, ⟨hk.accepted, hnext', ?_⟩, by omega⟩
    simp only [Expr.bare, hr.bare, hk.bare]

theorem ConsumesSuffixed.update {op : UpdateOp} {target : Expr} {ws : List Word} (span : Span)
    (ha : target.isAssignable = true) (h : ConsumesSuffixed target ws) :
    ConsumesSuffixed (.update op false target span) (ws ++ [Word.mark op.symbol]) := by
  intro n s rest hs hw hn
  have hw' : s.words = ws ++ Word.mark op.symbol :: rest := by rw [hw]; simp
  obtain ⟨m, r, he, hr, hm⟩ := h n s _ hs hw' hn
  simp only [List.length_cons] at hm
  cases m with
  | zero => omega
  | succ m =>
    have hsees (q : String) (hq : (op.symbol == q) = false) : r.2.cursor.sees q = false := by
      rw [State.sees_mark hr.words, hq]
    have hcall := hsees "(" (by cases op <;> decide)
    have hdot := hsees "." (by cases op <;> decide)
    have hidx := hsees "[" (by cases op <;> decide)
    have hup : r.2.operator? UpdateOp.ofSymbol? = some op := by
      rw [State.operator?_mark hr.words, UpdateOp.ofSymbol?_symbol]
    have ha' : r.1.isAssignable = true := by rw [Expr.isAssignable_of_bare hr.bare, ha]
    rw [he, suffixes_succ, hcall, hdot, hidx, hup]
    simp only [Bool.false_eq_true, if_false, State.checked_of_isAssignable ha']
    refine ⟨m, (_, _), rfl, ⟨hr.accepted, State.words_next_of hr.words, ?_⟩, by omega⟩
    simp only [Expr.bare, hr.bare]

theorem ConsumesSuffixed.call {callee : Expr} {ws : List Word} (span : Span)
    (h : ConsumesSuffixed callee ws) :
    ConsumesSuffixed (callNode callee [] span)
      (ws ++ [Word.mark "(", Word.mark ")"]) := by
  intro n s rest hs hw hn
  have hw' : s.words = ws ++ Word.mark "(" :: Word.mark ")" :: rest := by rw [hw]; simp
  obtain ⟨m, r, he, hr, hm⟩ := h n s _ hs hw' hn
  simp only [List.length_cons] at hm
  obtain ⟨m, rfl⟩ : ∃ k, m = k + 2 := ⟨m - 2, by omega⟩
  have hcall : r.2.cursor.sees "(" = true := State.sees_mark hr.words "("
  have hnext := State.words_next_of hr.words
  have hclose : r.2.next.cursor.sees ")" = true := State.sees_mark hnext ")"
  have happ := call_succ m r.1 r.2
  simp only [hclose, if_true] at happ
  refine ⟨m + 1, Parser.call (m + 1) r.1 r.2, ?_, ?_, by omega⟩
  · rw [he, suffixes_succ, hcall]
    rfl
  · rw [happ]
    exact ⟨hr.accepted, State.words_next_of hnext, Expr.bare_callNode _ _ hr.bare rfl⟩

theorem ConsumesSuffixed.callWith {callee : Expr} {args : List Expr} {ws vs : List Word}
    (span : Span) (h : ConsumesSuffixed callee ws)
    (ha : ConsumesArguments (intrinsic? callee).isSome args vs)
    (hlead : ∀ rest, Word.lead (vs ++ rest) ≠ some ")") :
    ConsumesSuffixed (callNode callee args span)
      (ws ++ Word.mark "(" :: vs ++ [Word.mark ")"]) := by
  intro n s rest hs hw hn
  have hw' : s.words = ws ++ Word.mark "(" :: (vs ++ Word.mark ")" :: rest) := by
    rw [hw]; simp
  obtain ⟨m, r, he, hr, hm⟩ := h n s _ hs hw' hn
  simp only [List.length_append, List.length_cons] at hm
  obtain ⟨m, rfl⟩ : ∃ k, m = k + 2 := ⟨m - 2, by omega⟩
  have hcall : r.2.cursor.sees "(" = true := State.sees_mark hr.words "("
  have hnext := State.words_next_of hr.words
  have hclose : r.2.next.cursor.sees ")" = false := by
    rw [State.sees_eq, hnext, beq_eq_false_iff_ne]
    exact hlead _
  obtain ⟨hacc, hargs, hbare⟩ := ha m r.2.next _ hr.accepted hnext rfl
    (by rw [hnext]; simp only [List.length_append, List.length_cons]; omega)
  have happ := call_succ m r.1 r.2
  -- What was read for the callee names the same intrinsic as the callee.
  rw [← Expr.intrinsic?_of_bare hr.bare] at hacc hargs hbare
  simp only [hclose, Bool.false_eq_true, if_false, State.closed_of_words hargs] at happ
  refine ⟨m + 1, Parser.call (m + 1) r.1 r.2, ?_, ?_, by omega⟩
  · rw [he, suffixes_succ, hcall]
    rfl
  · rw [happ]
    exact ⟨hacc, State.words_next_of hargs, Expr.bare_callNode _ _ hr.bare hbare⟩

/-! ### Arguments -/

theorem ConsumesArgument.last {paths : Bool} {e : Expr} {ws : List Word}
    (h : ConsumesArgument paths e ws) : ConsumesArguments paths [e] ws := by
  intro n s rest hs hw hf hn
  cases n with
  | zero => omega
  | succ m =>
    have hr := h m s rest hs hw (.inr hf) (by omega)
    have hcomma : (argument m paths s).2.cursor.sees "," = false := by
      rw [State.sees_eq, hr.words, hf]
      decide
    rw [arguments_succ]
    simp only [hcomma, Bool.false_eq_true, if_false]
    exact ⟨hr.accepted, hr.words, by simp only [Expr.bareAll, hr.bare]⟩

theorem ConsumesArgument.more {paths : Bool} {e : Expr} {es : List Expr} {ws vs : List Word}
    (h : ConsumesArgument paths e ws) (hs : ConsumesArguments paths es vs) :
    ConsumesArguments paths (e :: es) (ws ++ Word.mark "," :: vs) := by
  intro n s rest hacc hw hf hn
  cases n with
  | zero => omega
  | succ m =>
    have hw' : s.words = ws ++ Word.mark "," :: (vs ++ rest) := by rw [hw]; simp
    have hlen := congrArg List.length hw'
    simp only [List.length_append, List.length_cons] at hlen
    have hr := h m s _ hacc hw' (.inl rfl) (by omega)
    have hcomma : (argument m paths s).2.cursor.sees "," = true :=
      State.sees_mark hr.words ","
    have hnext := State.words_next_of hr.words
    obtain ⟨hacc', hargs, hbare⟩ := hs m (argument m paths s).2.next rest hr.accepted hnext hf
      (by rw [hnext, List.length_append]; omega)
    rw [arguments_succ]
    simp only [hcomma, if_true]
    exact ⟨hacc', hargs, by simp only [Expr.bareAll, hr.bare, hbare]⟩

theorem pull_of_argument_end {rest : List Word}
    (h : Word.lead rest = some "," ∨ Word.lead rest = some ")") : Word.pull rest = 0 := by
  unfold Word.pull
  rcases h with h | h
  · rw [h]; decide
  · rw [h]; decide

theorem ConsumesExpression.argument {e : Expr} {ws : List Word} (h : ConsumesExpression e ws)
    (hb : Word.Begins ws) (paths : Bool) : ConsumesArgument paths e ws := by
  intro n s rest hs hw hf hn
  -- No path starts here: an expression does not begin with one.
  have hlength : (if paths then pathLength s.cursor.ahead else 0) = 0 := by
    obtain ⟨w, more, hws, -, hcolon⟩ := hb.append (Word.head?_of_argument_end hf)
    cases paths with
    | false => rfl
    | true => exact pathLength_eq_zero (hw.trans hws) hcolon
  dsimp only
  rw [Parser.argument, hlength]
  exact h n s rest hs hw (pull_of_argument_end hf) hn

theorem consumesArgument_path (first second : String) (rest : List String) (span : Span) :
    ConsumesArgument true (.ident (":".intercalate (first :: second :: rest)) span)
      (Word.path first (second :: rest)) := by
  intro n s more hs hw hf _
  have hlength := pathLength_of_path hw hf
  obtain ⟨span', he, hr, ha⟩ := joined_words _ _ "" s.cursor.span s hw
  dsimp only
  rw [Parser.argument, if_pos rfl, hlength, Word.length_path, if_neg (by omega),
    ← Word.length_path first]
  refine ⟨ha.mpr hs, hr, ?_⟩
  rw [he, Word.spelled_path, String.empty_append]
  rfl

/-! ### Operands -/

theorem consumesPrimary_number {value : Literal} {spelling : String} (span : Span)
    (h : Literal.decode spelling = .ok value) :
    ConsumesPrimary (.number value span) [⟨.number, spelling⟩] := by
  refine Consumes.of_succ (by decide) fun m s rest hs hw _ hn => ?_
  have hword := State.current_word hw
  have hk : s.current.kind = .number := congrArg Word.kind hword
  have ht : s.current.text = spelling := congrArg Word.text hword
  rw [primary_succ]
  simp only [hk, numberNode_apply, ht, h]
  refine ⟨?_, ?_, rfl⟩
  · split
    · exact (State.accepted_push _).mpr ⟨hs, rfl⟩
    · exact hs
  · split
    · exact State.words_next_of hw
    · exact State.words_next_of hw

theorem consumesPrimary_text (spelling : String) (span : Span) :
    ConsumesPrimary (.text (Literal.cook spelling 0).1 span) [⟨.string, spelling⟩] := by
  refine Consumes.of_succ (by decide) fun m s rest hs hw _ hn => ?_
  have hword := State.current_word hw
  have hk : s.current.kind = .string := congrArg Word.kind hword
  have ht : s.current.text = spelling := congrArg Word.text hword
  rw [primary_succ]
  simp only [hk, textNode_apply, ht, Literal.cook_fst]
  refine ⟨?_, ?_, rfl⟩
  · exact (State.accepted_foldl_push _).mpr ⟨hs, Literal.isSyntaxError_cook _ _⟩
  · rw [State.words_foldl_push]
    exact State.words_next_of hw

theorem consumesPrimary_name {name : String} {e : Expr}
    (he : ∀ t : Token, t.text = name → (nameNode t).bare = e.bare) :
    ConsumesPrimary e [Word.name name] := by
  refine Consumes.of_succ (by decide) fun m s rest hs hw _ hn => ?_
  have hword := State.current_word hw
  have hk : s.current.kind = .identifier := congrArg Word.kind hword
  rw [primary_succ]
  simp only [hk]
  exact ⟨hs, State.words_next_of hw, he _ (congrArg Word.text hword)⟩

theorem ConsumesExpression.parens {e : Expr} {ws : List Word} (h : ConsumesExpression e ws) :
    ConsumesPrimary e (Word.mark "(" :: ws ++ [Word.mark ")"]) := by
  refine Consumes.of_succ (by decide) fun m s rest hs hw _ hn => ?_
  have hw' : s.words = Word.mark "(" :: (ws ++ Word.mark ")" :: rest) := by rw [hw]; simp
  have hlen := congrArg List.length hw'
  simp only [List.length_append, List.length_cons] at hlen
  have hword := State.current_word hw'
  have hk : s.current.kind = .punctuation := congrArg Word.kind hword
  have ht : s.current.text = "(" := congrArg Word.text hword
  have hnext := State.words_next_of hw'
  have hr := h m s.next _ hs hnext rfl
    (by rw [hnext]; simp only [List.length_append, List.length_cons]; omega)
  rw [primary_succ]
  simp only [hk, ht, beq_self_eq_true, if_true, State.closed_of_words hr.words]
  exact ⟨hr.accepted, State.words_next_of hr.words, hr.bare⟩

end TargetView.Parser
