import TargetView.Proofs.Lexing
import TargetView.Proofs.Numbering
import TargetView.Proofs.Segmentation

/-! # How far the parser gets

Error recovery leaves nodes behind without taking a token, and some of its
branches leave several.  That this stays linear in the text is a matter of
credit: every token pays for three nodes.  What starts an operand has one node
to spend on top of that, since it may find nothing to take; what continues an
operand has none (`Parser.Spends`).  In both cases a call that has taken no
token has nothing to show but a missing expression, or the operand it was
given.

The cursor makes single steps, and none at the mark of the end
(`State.Takes`).  The bounds hold for any number of calls that the parser may
make, so they do not depend on how many it is given.
-/
namespace TargetView

namespace Cursor

theorem ahead_next (c : Cursor) : c.next.ahead = c.ahead.tail := by
  unfold next
  cases h : c.ahead <;> simp [h]

theorem ahead_iterate_next (k : Nat) (c : Cursor) : (next^[k] c).ahead = c.ahead.drop k := by
  induction k generalizing c with
  | zero => rfl
  | succ k ih => rw [Function.iterate_succ_apply, ih, ahead_next, List.drop_tail]

end Cursor

namespace Expr

theorem size_callNode (callee : Expr) (args : List Expr) (span : Span) :
    (Parser.callNode callee args span).size = callee.size + sizeAll args + 1 := by
  unfold Parser.callNode
  cases h : Parser.intrinsic? callee with
  | none => rfl
  | some fn =>
    cases callee with
    | ident name span => rfl
    | _ => cases h

end Expr

namespace Parser

namespace State

/-- From the first state to the second one the cursor makes `k` single steps,
each of them from a token before the mark of the end. -/
structure Takes (s : State) (k : Nat) (t : State) : Prop where
  steps : t.cursor = Cursor.next^[k] s.cursor
  within : k ≤ s.cursor.ahead.length

/-- The number of tokens ahead. -/
def left (s : State) : Nat := s.cursor.ahead.length

variable {s t u : State} {k l : Nat}

theorem takes_zero (h : t.cursor = s.cursor) : s.Takes 0 t := ⟨h, Nat.zero_le _⟩

theorem Takes.congr (h : s.Takes k t) (hu : u.cursor = t.cursor) : s.Takes k u :=
  ⟨hu.trans h.steps, h.within⟩

theorem Takes.left_add (h : s.Takes k t) : t.left + k = s.left := by
  rw [left, h.steps, Cursor.ahead_iterate_next, List.length_drop]
  exact Nat.sub_add_cancel h.within

theorem Takes.trans (h : s.Takes k t) (h' : t.Takes l u) : s.Takes (k + l) u where
  steps := by rw [h'.steps, h.steps, Nat.add_comm, Function.iterate_add_apply]
  within := by
    have ht := h.left_add
    have hl := h'.within
    rw [left, left] at ht
    omega

theorem takes_next {w : Word} {ws : List Word} (h : s.words = w :: ws) : s.Takes 1 s.next where
  steps := rfl
  within := by
    have hlength := congrArg List.length h
    rw [words, List.length_map, List.length_cons] at hlength
    omega

theorem takes_of_sees {p : String} (h : s.cursor.sees p = true) : s.Takes 1 s.next :=
  takes_next (words_of_sees h)

theorem takes_of_operator? {α : Type} {ofSymbol? : String → Option α} {op : α}
    (h : s.operator? ofSymbol? = some op) : s.Takes 1 s.next :=
  have ⟨_, _, hw⟩ := words_of_operator? h
  takes_next hw

theorem takes_of_kind (h : s.current.kind ≠ .end) : s.Takes 1 s.next :=
  takes_next (words_of_kind h)

/-- A closing bracket is taken or missed. -/
theorem takes_closed (s : State) (bracket : String) (opening : Char) (opened : Span) :
    ∃ k, s.Takes k (s.closed bracket opening opened).2 := by
  unfold closed
  split
  · next h => exact ⟨1, takes_of_sees h⟩
  · exact ⟨0, takes_zero rfl⟩

end State

/-! ### What a call spends -/

/-- A call has taken some tokens, and its result has three nodes for each of them
and `credit` further ones at most; if it has taken none, the result is `idle`. -/
def Spends (credit : Nat) (idle : Expr → Prop) (s : State) (r : Expr × State) : Prop :=
  ∃ k, s.Takes k r.2 ∧ r.1.size ≤ credit + 3 * k ∧ (k = 0 → idle r.1)

/-- A call that starts an operand. -/
abbrev Opens : State → Expr × State → Prop := Spends 1 fun e => e.isMalformed = true

/-- A call that continues an operand. -/
abbrev Continues (operand : Expr) : State → Expr × State → Prop :=
  Spends operand.size fun e => e = operand ∨ e.isMalformed = true

/-- A call that reads arguments. -/
def Lists (s : State) (r : List Expr × State) : Prop :=
  ∃ k, s.Takes k r.2 ∧ Expr.sizeAll r.1 ≤ 1 + 3 * k

variable {s t : State}

theorem spends_missing {credit : Nat} {idle : Expr → Prop} (hcredit : 0 < credit) (u : Token)
    (hidle : idle (.malformed u.span)) (hs : t.cursor = s.cursor) :
    Spends credit idle s (missing u t) :=
  ⟨0, State.takes_zero hs, hcredit, fun _ => hidle⟩

theorem opens_missing (u : Token) : Opens s (missing u s) :=
  spends_missing Nat.one_pos u rfl rfl

theorem continues_missing (operand : Expr) (u : Token) : Continues operand s (missing u s) :=
  spends_missing operand.size_pos u (.inr rfl) rfl

theorem continues_refl (e : Expr) : Continues e s (e, s) :=
  ⟨0, State.takes_zero rfl, Nat.le_add_right _ _, fun _ => .inl rfl⟩

/-- A single node for at least one token. -/
theorem opens_leaf {k : Nat} {r : Expr × State} (h : s.Takes (k + 1) r.2) (hsize : r.1.size = 1) :
    Opens s r :=
  ⟨k + 1, h, by omega, nofun⟩

/-- What continues the result of a call continues its operand. -/
theorem Spends.continues {credit : Nat} {idle : Expr → Prop} {r r' : Expr × State}
    (h : Spends credit idle s r) (h' : Continues r.1 r.2 r')
    (hidle : ∀ e : Expr, e.isMalformed = true → idle e) : Spends credit idle s r' := by
  obtain ⟨k, hk, hsize, hnone⟩ := h
  obtain ⟨l, hl, hsize', hnone'⟩ := h'
  -- The credit is spent once: the second call has the first result for its own.
  refine ⟨k + l, hk.trans hl, by omega, fun hzero => ?_⟩
  rcases hnone' (by omega) with heq | hbad
  · rw [heq]
    exact hnone (by omega)
  · exact hidle _ hbad

/-- What is left after a call, if every token ahead is worth three nodes. -/
theorem Spends.potential {credit : Nat} {idle : Expr → Prop} {r : Expr × State}
    (h : Spends credit idle s r) :
    r.1.size + 3 * r.2.left ≤ credit + 3 * s.left ∧ r.2.left ≤ s.left := by
  obtain ⟨k, hk, hsize, -⟩ := h
  have hleft := hk.left_add
  omega

theorem Lists.potential {r : List Expr × State} (h : Lists s r) :
    Expr.sizeAll r.1 + 3 * r.2.left ≤ 1 + 3 * s.left ∧ r.2.left ≤ s.left := by
  obtain ⟨k, hk, hsize⟩ := h
  have hleft := hk.left_add
  omega

/-! ### Literals, members and paths -/

theorem takes_joined : ∀ (n : Nat) (name : String) (span : Span) (s : State), n ≤ s.left →
    s.Takes n (joined n name span s).2 ∧ (joined n name span s).1.size = 1
  | 0, _, _, _, _ => ⟨State.takes_zero rfl, rfl⟩
  | n + 1, name, span, s, h => by
    rw [joined_succ]
    have hnext : s.Takes 1 s.next := ⟨rfl, Nat.le_trans (Nat.le_add_left 1 n) h⟩
    have hleft := hnext.left_add
    obtain ⟨htakes, hsize⟩ := takes_joined n _ (span.merge s.current.span) s.next (by omega)
    exact ⟨Nat.add_comm 1 n ▸ hnext.trans htakes, hsize⟩

theorem cursor_numberNode (u : Token) (s : State) :
    (numberNode u s).2.cursor = s.cursor ∧ (numberNode u s).1.size = 1 := by
  rw [numberNode_apply]
  cases Literal.decode u.text with
  | ok value => exact ⟨by dsimp only; split <;> rfl, rfl⟩
  | error fault => exact ⟨rfl, rfl⟩

theorem cursor_textNode (u : Token) (s : State) :
    (textNode u s).2.cursor = s.cursor ∧ (textNode u s).1.size = 1 := by
  rw [textNode_apply]
  exact ⟨State.cursor_foldl_push _, rfl⟩

theorem size_nameNode (u : Token) : (nameNode u).size = 1 := by
  unfold nameNode
  split
  · rfl
  · split <;> rfl

/-- The name of a member may be missing, but the point before it is taken. -/
theorem spends_member (base : Expr) (hdot : s.cursor.sees "." = true) :
    ∃ k, s.Takes (k + 1) (member base s).2 ∧ (member base s).1.size = base.size + 1 := by
  rw [member_apply]
  have hpoint := State.takes_of_sees hdot
  by_cases hk : (s.next.current.kind == .identifier) = true
  · have hname : s.next.Takes 1 s.next.next :=
      State.takes_of_kind (by rw [eq_of_beq hk]; decide)
    simp only [if_pos hk]
    exact ⟨1, hpoint.trans hname, rfl⟩
  · simp only [if_neg hk]
    exact ⟨0, hpoint.congr rfl, rfl⟩

/-! ### The functions of the parser -/

/-- What the parser functions spend when they may make `n` nested calls. -/
structure Progress (n : Nat) : Prop where
  expression : ∀ s, Opens s (expression n s)
  conditional : ∀ s, Opens s (conditional n s)
  binary : ∀ least s, Opens s (binary n least s)
  operators : ∀ least left s, Continues left s (operators n least left s)
  unary : ∀ s, Opens s (unary n s)
  suffixes : ∀ e s, Continues e s (suffixes n e s)
  call : ∀ callee s, s.cursor.sees "(" = true →
    Spends callee.size (fun e => e.isMalformed = true) s (call n callee s)
  arguments : ∀ paths s, Lists s (arguments n paths s)
  primary : ∀ s, Opens s (primary n s)

theorem Progress.zero : Progress 0 where
  expression s := by rw [expression_zero]; exact opens_missing _
  conditional s := by rw [conditional_zero]; exact opens_missing _
  binary least s := by rw [binary_zero]; exact opens_missing _
  operators least left s := by rw [operators_zero]; exact continues_missing left _
  unary s := by rw [unary_zero]; exact opens_missing _
  suffixes e s := by rw [suffixes_zero]; exact continues_missing e _
  call callee s _ := by rw [call_zero]; exact spends_missing callee.size_pos _ rfl rfl
  arguments _ _ := by
    rw [arguments_zero]
    exact ⟨0, State.takes_zero rfl, Nat.le_refl _⟩
  primary s := by rw [primary_zero]; exact opens_missing _

/-! ### The rounds of the loops

Operators, suffixes and arguments are read in loops.  A round of the first two
says where the next one starts, unless the loop ends; a round over the
arguments reads one, and says whether a comma promises another. -/

/-- A round over the operators behind an operand. -/
def operatorRound (n least : Nat) (left : Expr) (s : State) : Option (Expr × State) :=
  match s.operator? BinaryOp.ofSymbol? with
  | none => none
  | some op =>
    if op.precedence < least then none
    else
      let r := binary n (op.precedence + 1) s.next
      some (.binary op left r.1 (left.span.merge r.1.span), r.2)

/-- A round over the suffixes of an operand. -/
def suffixRound (n : Nat) (e : Expr) (s : State) : Option (Expr × State) :=
  if s.cursor.sees "(" then some (call n e s)
  else if s.cursor.sees "." then some (member e s)
  else if s.cursor.sees "[" then
    let k := expression n s.next
    let c := k.2.closed "]" '[' s.current.span
    some (.index e k.1 (e.span.merge c.1), c.2)
  else
    (s.operator? UpdateOp.ofSymbol?).map fun op =>
      (.update op false e (e.span.merge s.current.span), s.next.checked e op.symbol)

/-- A round over the arguments of a call. -/
def argumentRound (n : Nat) (paths : Bool) (s : State) : Expr × State × Bool :=
  let a := argument n paths s
  if a.2.cursor.sees "," then (a.1, a.2.next, true) else (a.1, a.2, false)

/-- The loop over the operators. -/
theorem operators_round (n least : Nat) (left : Expr) (s : State) :
    operators (n + 1) least left s =
      match operatorRound n least left s with
      | none => (left, s)
      | some r => operators n least r.1 r.2 := by
  rw [operators_succ, operatorRound]
  cases s.operator? BinaryOp.ofSymbol? with
  | none => rfl
  | some op =>
    dsimp only
    split <;> rfl

/-- The loop over the suffixes. -/
theorem suffixes_round (n : Nat) (e : Expr) (s : State) :
    suffixes (n + 1) e s =
      match suffixRound n e s with
      | none => (e, s)
      | some r => suffixes n r.1 r.2 := by
  rw [suffixes_succ, suffixRound]
  split
  · rfl
  split
  · rfl
  split
  · rfl
  cases s.operator? UpdateOp.ofSymbol? <;> rfl

/-- The loop over the arguments. -/
theorem arguments_round (n : Nat) (paths : Bool) (s : State) :
    arguments (n + 1) paths s =
      let r := argumentRound n paths s
      if r.2.2 then (r.1 :: (arguments n paths r.2.1).1, (arguments n paths r.2.1).2)
      else ([r.1], r.2.1) := by
  rw [arguments_succ, argumentRound]
  dsimp only
  cases (argument n paths s).2.cursor.sees "," <;> rfl

namespace Progress

variable {n : Nat} (ih : Progress n)
include ih

/-- A round over the operators that does not end the loop takes the operator. -/
theorem operatorRound {least : Nat} {left : Expr} {r : Expr × State}
    (h : Parser.operatorRound n least left s = some r) :
    ∃ k, s.Takes (k + 1) r.2 ∧ r.1.size ≤ left.size + 3 * (k + 1) := by
  unfold Parser.operatorRound at h
  cases hop : s.operator? BinaryOp.ofSymbol? with
  | none =>
    rw [hop] at h
    cases h
  | some op =>
    rw [hop] at h
    dsimp only at h
    split at h
    · cases h
    · obtain rfl := Option.some.inj h
      obtain ⟨k, hk, hsize, -⟩ := ih.binary (op.precedence + 1) s.next
      refine ⟨k, Nat.add_comm 1 k ▸ (State.takes_of_operator? hop).trans hk, ?_⟩
      rw [Expr.size]
      omega

/-- A round over the suffixes that does not end the loop spends what it takes. -/
theorem suffixRound {e : Expr} {r : Expr × State} (h : Parser.suffixRound n e s = some r) :
    Continues e s r := by
  unfold Parser.suffixRound at h
  split at h
  · next hcall =>
    obtain rfl := Option.some.inj h
    obtain ⟨k, hk, hsize, hidle⟩ := ih.call e s hcall
    exact ⟨k, hk, hsize, fun hzero => .inr (hidle hzero)⟩
  split at h
  · next hdot =>
    obtain rfl := Option.some.inj h
    obtain ⟨k, hk, hsize⟩ := spends_member e hdot
    exact ⟨k + 1, hk, by omega, fun h => absurd h (Nat.succ_ne_zero _)⟩
  split at h
  · next hopen =>
    obtain rfl := Option.some.inj h
    obtain ⟨k, hk, hsize, -⟩ := ih.expression s.next
    obtain ⟨c, hc⟩ := State.takes_closed (Parser.expression n s.next).2 "]" '[' s.current.span
    refine ⟨1 + k + c, ((State.takes_of_sees hopen).trans hk).trans hc, ?_, fun h => ?_⟩
    · rw [Expr.size]
      omega
    · omega
  · obtain ⟨op, hop, rfl⟩ := Option.map_eq_some_iff.mp h
    refine ⟨1, (State.takes_of_operator? hop).congr (State.cursor_checked _ _), ?_,
      fun h => absurd h (Nat.succ_ne_zero _)⟩
    rw [Expr.size]
    omega

theorem argument (paths : Bool) (s : State) : Opens s (Parser.argument n paths s) := by
  unfold Parser.argument
  dsimp only
  by_cases hl : (if paths then pathLength s.cursor.ahead else 0) = 0
  · rw [if_pos hl]
    exact ih.expression s
  · rw [if_neg hl]
    cases paths with
    | false => exact absurd rfl hl
    | true =>
      obtain ⟨-, -, -, -, hlength⟩ := map_word_pathLength hl
      obtain ⟨htakes, hsize⟩ := takes_joined _ "" s.cursor.span s hlength
      obtain ⟨k, hk⟩ := Nat.exists_eq_succ_of_ne_zero hl
      simp only [if_true] at hk ⊢
      rw [hk] at htakes hsize ⊢
      exact opens_leaf htakes hsize

/-- A round over the arguments takes a token unless the argument is missing and
the loop ends. -/
theorem argumentRound (paths : Bool) (s : State) :
    ∃ k, s.Takes k (Parser.argumentRound n paths s).2.1 ∧
      (Parser.argumentRound n paths s).1.size + 2 * (Parser.argumentRound n paths s).2.2.toNat ≤
        1 + 3 * k ∧
      (k = 0 → (Parser.argumentRound n paths s).2.2 = false ∧
        (Parser.argumentRound n paths s).1.isMalformed = true) := by
  obtain ⟨k, hk, hsize, hidle⟩ := ih.argument paths s
  unfold Parser.argumentRound
  dsimp only
  by_cases hcomma : (Parser.argument n paths s).2.cursor.sees "," = true
  · rw [if_pos hcomma]
    refine ⟨k + 1, hk.trans (State.takes_of_sees hcomma), ?_, nofun⟩
    simp only [Bool.toNat_true]
    omega
  · rw [if_neg hcomma]
    exact ⟨k, hk, hsize, fun hzero => ⟨rfl, hidle hzero⟩⟩

theorem expression_succ (s : State) : Opens s (Parser.expression (n + 1) s) := by
  rw [Parser.expression_succ]
  have ⟨k, hk, hsize, _⟩ := ih.conditional s
  dsimp only
  cases hop : (Parser.conditional n s).2.operator? AssignOp.ofSymbol? with
  | none => exact ih.conditional s
  | some op =>
    have hnext := (State.takes_of_operator? hop).congr
      (State.cursor_checked (Parser.conditional n s).1 op.symbol)
    obtain ⟨l, hl, hsize', -⟩ := ih.expression _
    refine ⟨k + 1 + l, (hk.trans hnext).trans hl, ?_, fun h => ?_⟩
    · dsimp only
      rw [Expr.size]
      omega
    · omega

theorem conditional_succ (s : State) : Opens s (Parser.conditional (n + 1) s) := by
  rw [Parser.conditional_succ]
  have ⟨k, hk, hsize, _⟩ := ih.binary 1 s
  dsimp only
  by_cases hq : (Parser.binary n 1 s).2.cursor.sees "?" = true
  · rw [if_pos hq]
    obtain ⟨l, hl, hsize', -⟩ := ih.expression (Parser.binary n 1 s).2.next
    have hyes := (hk.trans (State.takes_of_sees hq)).trans hl
    by_cases hc : (Parser.expression n (Parser.binary n 1 s).2.next).2.cursor.sees ":" = true
    · rw [if_pos hc]
      obtain ⟨m, hm, hsize'', -⟩ :=
        ih.conditional (Parser.expression n (Parser.binary n 1 s).2.next).2.next
      refine ⟨k + 1 + l + 1 + m, (hyes.trans (State.takes_of_sees hc)).trans hm, ?_, fun h => ?_⟩
      · dsimp only
        rw [Expr.size]
        omega
      · omega
    · -- The mark of the choice pays for itself, the missing branch and the choice.
      rw [if_neg hc]
      refine ⟨k + 1 + l, hyes.congr rfl, ?_, fun h => ?_⟩
      · dsimp only
        rw [Expr.size, Expr.size]
        omega
      · omega
  · rw [if_neg hq]
    exact ih.binary 1 s

theorem binary_succ (least : Nat) (s : State) : Opens s (Parser.binary (n + 1) least s) := by
  rw [Parser.binary_succ]
  exact (ih.unary s).continues (ih.operators _ _ _) fun _ h => h

theorem operators_succ (least : Nat) (left : Expr) (s : State) :
    Continues left s (Parser.operators (n + 1) least left s) := by
  rw [operators_round]
  cases hround : Parser.operatorRound n least left s with
  | none => exact continues_refl left
  | some r =>
    -- A token has been taken, so nothing is asked of an idle result.
    obtain ⟨k, hk, hsize⟩ := ih.operatorRound hround
    have hcontinues : Continues left s r := ⟨k + 1, hk, hsize, nofun⟩
    exact hcontinues.continues (ih.operators _ _ _) fun _ h => .inr h

theorem unary_succ (s : State) : Opens s (Parser.unary (n + 1) s) := by
  rw [Parser.unary_succ]
  dsimp only
  obtain ⟨k, hk, hsize, -⟩ := ih.unary s.next
  cases hup : s.operator? UpdateOp.ofSymbol? with
  | some op =>
    have htakes := ((State.takes_of_operator? hup).trans hk).congr
      (State.cursor_checked (Parser.unary n s.next).1 op.symbol)
    refine ⟨1 + k, htakes, ?_, fun h => ?_⟩
    · dsimp only
      rw [Expr.size]
      omega
    · omega
  | none =>
    cases hop : s.operator? UnaryOp.ofSymbol? with
    | some op =>
      refine ⟨1 + k, (State.takes_of_operator? hop).trans hk, ?_, fun h => ?_⟩
      · dsimp only
        rw [Expr.size]
        omega
      · omega
    | none => exact (ih.primary s).continues (ih.suffixes _ _) fun _ h => h

theorem suffixes_succ (e : Expr) (s : State) :
    Continues e s (Parser.suffixes (n + 1) e s) := by
  rw [suffixes_round]
  cases hround : Parser.suffixRound n e s with
  | none => exact continues_refl e
  | some r =>
    exact (ih.suffixRound hround).continues (ih.suffixes _ _) fun _ h => .inr h

/-- A call takes the opening bracket. -/
theorem takes_call (callee : Expr) (hopen : s.cursor.sees "(" = true) :
    ∃ k, s.Takes (k + 1) (Parser.call (n + 1) callee s).2 ∧
      (Parser.call (n + 1) callee s).1.size ≤ callee.size + 3 * (k + 1) := by
  rw [Parser.call_succ]
  dsimp only
  have hnext := State.takes_of_sees hopen
  by_cases hclose : s.next.cursor.sees ")" = true
  · rw [if_pos hclose]
    refine ⟨1, hnext.trans (State.takes_of_sees hclose), ?_⟩
    rw [Expr.size_callNode, Expr.sizeAll]
    omega
  · rw [if_neg hclose]
    obtain ⟨k, hk, hsize⟩ := ih.arguments (intrinsic? callee).isSome s.next
    obtain ⟨c, hc⟩ := State.takes_closed
      (Parser.arguments n (intrinsic? callee).isSome s.next).2 ")" '(' s.current.span
    have hall := (hnext.trans hk).trans hc
    rw [Nat.add_assoc, Nat.add_comm 1] at hall
    refine ⟨k + c, hall, ?_⟩
    rw [Expr.size_callNode]
    omega

theorem arguments_succ (paths : Bool) (s : State) :
    Lists s (Parser.arguments (n + 1) paths s) := by
  rw [arguments_round]
  obtain ⟨k, hk, hsize, -⟩ := ih.argumentRound paths s
  dsimp only
  cases hmore : (Parser.argumentRound n paths s).2.2 with
  | true =>
    rw [hmore] at hsize
    obtain ⟨l, hl, hsize'⟩ := ih.arguments paths (Parser.argumentRound n paths s).2.1
    refine ⟨k + l, hk.trans hl, ?_⟩
    simp only [if_true, Expr.sizeAll, Bool.toNat_true] at hsize ⊢
    omega
  | false =>
    rw [hmore] at hsize
    refine ⟨k, hk, ?_⟩
    simpa [Expr.sizeAll] using hsize

theorem primary_succ (s : State) : Opens s (Parser.primary (n + 1) s) := by
  rw [Parser.primary_succ]
  dsimp only
  have hkind (h : s.current.kind ≠ .end) : s.Takes 1 s.next := State.takes_of_kind h
  cases hk : s.current.kind with
  | number =>
    obtain ⟨hcursor, hsize⟩ := cursor_numberNode s.current s.next
    exact opens_leaf ((hkind (by rw [hk]; decide)).congr hcursor) hsize
  | string =>
    obtain ⟨hcursor, hsize⟩ := cursor_textNode s.current s.next
    exact opens_leaf ((hkind (by rw [hk]; decide)).congr hcursor) hsize
  | identifier => exact opens_leaf (hkind (by rw [hk]; decide)) (size_nameNode _)
  | unknown => exact opens_leaf ((hkind (by rw [hk]; decide)).congr rfl) rfl
  | «end» => exact opens_missing _
  | punctuation =>
    have hnext := hkind (by rw [hk]; decide)
    dsimp only
    split
    · obtain ⟨k, hk', hsize, -⟩ := ih.expression s.next
      obtain ⟨c, hc⟩ := State.takes_closed (Parser.expression n s.next).2 ")" '(' s.current.span
      exact ⟨1 + k + c, (hnext.trans hk').trans hc, by dsimp only; omega, fun h => by omega⟩
    · split
      · exact opens_missing _
      · exact opens_leaf (hnext.congr rfl) rfl

theorem succ : Progress (n + 1) where
  expression := ih.expression_succ
  conditional := ih.conditional_succ
  binary := ih.binary_succ
  operators := ih.operators_succ
  unary := ih.unary_succ
  suffixes := ih.suffixes_succ
  call callee _ hopen :=
    have ⟨k, hk, hsize⟩ := ih.takes_call callee hopen
    ⟨k + 1, hk, hsize, nofun⟩
  arguments := ih.arguments_succ
  primary := ih.primary_succ

end Progress

/-- **However many calls the parser may make, it spends no more than it takes.** -/
theorem progress : ∀ n, Progress n
  | 0 => .zero
  | n + 1 => (progress n).succ

/-- A call that may be read takes its opening bracket at least. -/
theorem left_call_lt {n : Nat} (hn : 0 < n) (callee : Expr) (hopen : s.cursor.sees "(" = true) :
    (call n callee s).2.left < s.left := by
  cases n with
  | zero => omega
  | succ m =>
    obtain ⟨k, hk, -⟩ := (progress m).takes_call callee hopen
    have hleft := hk.left_add
    omega

/-- So does a round over the suffixes that does not end the loop. -/
theorem left_suffixRound_lt {n : Nat} (hn : 0 < n) {e : Expr} {r : Expr × State}
    (h : suffixRound n e s = some r) : r.2.left < s.left := by
  unfold suffixRound at h
  split at h
  · next hcall =>
    obtain rfl := Option.some.inj h
    exact left_call_lt hn e hcall
  split at h
  · next hdot =>
    obtain rfl := Option.some.inj h
    obtain ⟨k, hk, -⟩ := spends_member e hdot
    have hleft := hk.left_add
    omega
  split at h
  · next hopen =>
    obtain rfl := Option.some.inj h
    have hnext := (State.takes_of_sees hopen).left_add
    have hkey := ((progress n).expression s.next).potential
    obtain ⟨c, hc⟩ := State.takes_closed (expression n s.next).2 "]" '[' s.current.span
    have hclosed := hc.left_add
    dsimp only
    omega
  · obtain ⟨op, hop, rfl⟩ := Option.map_eq_some_iff.mp h
    have hnext := ((State.takes_of_operator? hop).congr
      (State.cursor_checked e op.symbol)).left_add
    dsimp only
    omega

/-- The whole text is read with one node to spare. -/
theorem opens_whole (fuel : Nat) (s : State) : Opens s (whole fuel s) := by
  rw [whole_apply]
  dsimp only
  split
  · exact ⟨0, State.takes_zero rfl, Nat.le_refl _, fun _ => rfl⟩
  · split
    · exact (progress fuel).expression s
    · obtain ⟨k, hk, hsize⟩ := (progress fuel).expression s
      exact ⟨k, hk.congr rfl, hsize⟩

end Parser

/-! ### The size of a text -/

namespace Expr

mutual
theorem length_parts : ∀ e : Expr, e.parts.length = e.size
  | number .. | text .. | ident .. | malformed _ => rfl
  | member base _ _ | unnamed base _ | unary _ base _ | update _ _ base _ => by
    simp [parts, size, length_parts base]
  | index left right _ | binary _ left right _ | assign _ left right _ => by
    simp [parts, size, length_parts left, length_parts right, Nat.add_assoc]
  | conditional cond yes no _ => by
    simp [parts, size, length_parts cond, length_parts yes, length_parts no, Nat.add_assoc]
  | call callee args _ => by
    simp [parts, size, length_parts callee, length_partsAll args, Nat.add_assoc]
  | intrinsic _ _ args _ => by
    simp [parts, size, length_partsAll args, Nat.add_comm]

theorem length_partsAll : ∀ es : List Expr, (partsAll es).length = sizeAll es
  | [] => rfl
  | e :: rest => by simp [partsAll, sizeAll, length_parts e, length_partsAll rest]
end

theorem size_listing (e : Expr) (nodes : Listing) :
    (e.listing nodes).size = nodes.size + e.size := by
  have h := congrArg List.length (e.map_facts_listing nodes)
  simpa [length_parts] using h

theorem size_listingAll (es : List Expr) (nodes : Listing) :
    (listingAll nodes es).1.size = nodes.size + sizeAll es := by
  have h := congrArg List.length (map_facts_listingAll es nodes)
  simpa [length_partsAll] using h

end Expr

namespace Lexer

/-- A lexeme takes at least one byte. -/
theorem length_lexemes_le (offset : Nat) (cs : List Char) :
    (lexemes offset cs).length ≤ width cs := by
  have hlayout := layout_lexemes offset cs
  generalize lexemes offset cs = ls at hlayout
  induction hlayout with
  | nil => exact Nat.le_refl 0
  | @gap _ c rest _ _ _ ih =>
    rw [width_cons]
    exact Nat.le_add_left_of_le ih
  | bare hl _ ih =>
    have hpos := width_pos hl.nonempty
    rw [List.length_cons, width_append]
    omega
  | quoted hl _ _ ih =>
    have hpos := width_pos (hl.chars ▸ List.cons_ne_nil _ _)
    rw [List.length_cons, width_append]
    omega

end Lexer

namespace Parser

theorem left_start (text : List Char) (base : Nat) :
    (start text base).left = (Lexer.lexemes 0 text).length := by
  have h := congrArg List.length (words_start text base)
  rwa [State.words, List.length_map, List.length_map] at h

theorem left_start_le (text : List Char) (base : Nat) :
    (start text base).left ≤ Lexer.width text :=
  left_start text base ▸ Lexer.length_lexemes_le 0 text

end Parser

namespace Template

theorem size_parseAt_le (text : List Char) (base : Nat) :
    (parseAt text base).1.size ≤ 1 + 3 * Lexer.width text := by
  obtain ⟨k, hk, hsize, -⟩ := Parser.opens_whole
    (10 * (Lexer.lexAt text base).tokens.length + 10) (Parser.start text base)
  have hleft := hk.left_add
  have hwidth := Parser.left_start_le text base
  exact Nat.le_trans hsize (by omega)

/-- A conversion is longer than what stands between its brackets. -/
theorem Piece.width_lt_source (spec : Conversion) (blanks inner : List Char) (closed : Bool) :
    Lexer.width inner < Lexer.width (conversion spec blanks inner closed).source := by
  have hopener : 0 < Lexer.width (opener spec blanks) := Lexer.width_pos (List.cons_ne_nil _ _)
  rw [source, Lexer.width_append, Lexer.width_append]
  omega

/-- The opening of a conversion pays for the first node of its expression. -/
theorem length_located_le (ps : List Piece) (offset : Nat) :
    ((located offset ps).flatMap fun p => (p.2.item p.1).collect Expr.parts).length ≤
      3 * Lexer.width (ps.flatMap Piece.source) := by
  induction ps generalizing offset with
  | nil => exact Nat.zero_le _
  | cons piece rest ih =>
    rw [located, List.flatMap_cons, List.flatMap_cons, List.length_append, Lexer.width_append]
    have hrest := ih (offset + Lexer.width piece.source)
    have hpiece : ((piece.item offset).collect Expr.parts).length ≤
        3 * Lexer.width piece.source := by
      cases piece with
      | literal c => exact Nat.zero_le _
      | percent => exact Nat.zero_le _
      | conversion spec blanks inner closed =>
        have hsize := size_parseAt_le inner (min (Piece.base offset spec blanks) Span.limit)
        have hsource := Piece.width_lt_source spec blanks inner closed
        rw [Piece.item, Item.collect, Expr.length_parts]
        omega
    dsimp only
    omega

end Template

/-- **A text of some bytes has at most three nodes for each of them and one more.** -/
theorem size_listing_parse_le (text : String) :
    (parse text).listing.size ≤ 3 * text.utf8ByteSize + 1 := by
  have hnodes : (parse text).listing.size = (parse text).body.nodes.length := by
    have h := congrArg List.length (parse text).body.map_facts_listing
    rwa [List.length_map, List.length_map, Array.length_toList] at h
  rw [hnodes, ← Lexer.width_toList]
  by_cases hf : Template.isFormat text.toList = true
  · have hparts := Template.length_located_le (Template.pieces text.toList) 0
    rw [(Template.cut_pieces _).flatMap_source, ← Template.parts_ofChars] at hparts
    rw [parse_of_isFormat hf]
    simpa [Body.nodes, Body.parts] using hparts
  · have hsize := Template.size_parseAt_le text.toList 0
    rw [parse_of_not_isFormat (Bool.eq_false_iff.mpr hf)]
    simp only [Body.nodes, Body.parts, List.append_nil, List.length_map, Expr.length_parts]
    omega

end TargetView
