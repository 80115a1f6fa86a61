import TargetView.Proofs.Progress

/-! # Ten calls for a token are enough

The functions of the parser are given a number of nested calls.  Every cycle of
calls takes a token, so a parser that may make ten calls for each token ahead,
and a few more for the way down to the first one, never runs out of them: one
call more makes no difference (`Parser.Steady`), and so the result is that of a
parser without a limit (`Parser.expression_eq`).
-/
namespace TargetView.Parser

/-- Of the calls that a function may make beyond `n`, none is needed. -/
structure Steady (n : Nat) : Prop where
  expression : ∀ s, 10 * s.left + 5 ≤ n → expression (n + 1) s = expression n s
  conditional : ∀ s, 10 * s.left + 4 ≤ n → conditional (n + 1) s = conditional n s
  binary : ∀ least s, 10 * s.left + 3 ≤ n → binary (n + 1) least s = binary n least s
  operators : ∀ least left s, 10 * s.left + 1 ≤ n →
    operators (n + 1) least left s = operators n least left s
  unary : ∀ s, 10 * s.left + 2 ≤ n → unary (n + 1) s = unary n s
  suffixes : ∀ e s, 10 * s.left + 1 ≤ n → suffixes (n + 1) e s = suffixes n e s
  call : ∀ callee s, s.cursor.sees "(" = true → 10 * s.left ≤ n →
    call (n + 1) callee s = call n callee s
  arguments : ∀ paths s, 10 * s.left + 6 ≤ n → arguments (n + 1) paths s = arguments n paths s
  primary : ∀ s, 10 * s.left + 1 ≤ n → primary (n + 1) s = primary n s

theorem Steady.zero : Steady 0 where
  expression _ h := absurd h (by omega)
  conditional _ h := absurd h (by omega)
  binary _ _ h := absurd h (by omega)
  operators _ _ _ h := absurd h (by omega)
  unary _ h := absurd h (by omega)
  suffixes _ _ h := absurd h (by omega)
  call _ s hopen h := by
    -- The bracket is ahead.
    have hleft := (State.takes_of_sees hopen).left_add
    omega
  arguments _ _ h := absurd h (by omega)
  primary _ h := absurd h (by omega)

/-- A round over the suffixes needs a token. -/
theorem left_pos_of_suffixRound {n : Nat} {e : Expr} {s : State} {r : Expr × State}
    (h : suffixRound n e s = some r) : 0 < s.left := by
  unfold suffixRound at h
  split at h
  · next hcall => exact (State.takes_of_sees hcall).within
  split at h
  · next hdot => exact (State.takes_of_sees hdot).within
  split at h
  · next hindex => exact (State.takes_of_sees hindex).within
  · obtain ⟨op, hop, -⟩ := Option.map_eq_some_iff.mp h
    exact (State.takes_of_operator? hop).within

namespace Steady

variable {n : Nat} (ih : Steady n) {s : State}
include ih

theorem expression_succ (h : 10 * s.left + 5 ≤ n + 1) :
    Parser.expression (n + 2) s = Parser.expression (n + 1) s := by
  have htarget := ((progress n).conditional s).potential
  rw [Parser.expression_succ (n + 1) s, Parser.expression_succ n s, ih.conditional s (by omega)]
  dsimp only
  cases hop : (Parser.conditional n s).2.operator? AssignOp.ofSymbol? with
  | none => rfl
  | some op =>
    have hnext := ((State.takes_of_operator? hop).congr
      (State.cursor_checked (Parser.conditional n s).1 op.symbol)).left_add
    dsimp only
    rw [ih.expression _ (by omega)]

theorem conditional_succ (h : 10 * s.left + 4 ≤ n + 1) :
    Parser.conditional (n + 2) s = Parser.conditional (n + 1) s := by
  have hcond := ((progress n).binary 1 s).potential
  rw [Parser.conditional_succ (n + 1) s, Parser.conditional_succ n s, ih.binary 1 s (by omega)]
  dsimp only
  by_cases hq : (Parser.binary n 1 s).2.cursor.sees "?" = true
  · have hnext := (State.takes_of_sees hq).left_add
    have hyes := ((progress n).expression (Parser.binary n 1 s).2.next).potential
    rw [if_pos hq, if_pos hq, ih.expression _ (by omega)]
    by_cases hc : (Parser.expression n (Parser.binary n 1 s).2.next).2.cursor.sees ":" = true
    · have hnext' := (State.takes_of_sees hc).left_add
      rw [if_pos hc, if_pos hc, ih.conditional _ (by omega)]
    · rw [if_neg hc, if_neg hc]
  · rw [if_neg hq, if_neg hq]

theorem binary_succ {least : Nat} (h : 10 * s.left + 3 ≤ n + 1) :
    Parser.binary (n + 2) least s = Parser.binary (n + 1) least s := by
  have hoperand := ((progress n).unary s).potential
  rw [Parser.binary_succ, Parser.binary_succ, ih.unary s (by omega), ih.operators _ _ _ (by omega)]

theorem operators_succ {least : Nat} {left : Expr} (h : 10 * s.left + 1 ≤ n + 1) :
    Parser.operators (n + 2) least left s = Parser.operators (n + 1) least left s := by
  rw [Parser.operators_succ, Parser.operators_succ]
  cases hop : s.operator? BinaryOp.ofSymbol? with
  | none => rfl
  | some op =>
    have hnext := (State.takes_of_operator? hop).left_add
    have hright := ((progress n).binary (op.precedence + 1) s.next).potential
    dsimp only
    rw [ih.binary _ _ (by omega), ih.operators _ _ _ (by omega)]

theorem unary_succ (h : 10 * s.left + 2 ≤ n + 1) :
    Parser.unary (n + 2) s = Parser.unary (n + 1) s := by
  rw [Parser.unary_succ (n + 1) s, Parser.unary_succ n s]
  cases hup : s.operator? UpdateOp.ofSymbol? with
  | some op =>
    have hnext := (State.takes_of_operator? hup).left_add
    rw [ih.unary s.next (by omega)]
  | none =>
    cases hop : s.operator? UnaryOp.ofSymbol? with
    | some op =>
      have hnext := (State.takes_of_operator? hop).left_add
      rw [ih.unary s.next (by omega)]
    | none =>
      have hprimary := ((progress n).primary s).potential
      dsimp only
      rw [ih.primary s (by omega), ih.suffixes _ _ (by omega)]

theorem suffixRound_succ {e : Expr} (h : 10 * s.left + 1 ≤ n + 1) :
    suffixRound (n + 1) e s = suffixRound n e s := by
  unfold suffixRound
  split
  · next hcall => rw [ih.call e s hcall (by omega)]
  split
  · rfl
  split
  · next hindex =>
    have hnext := (State.takes_of_sees hindex).left_add
    rw [ih.expression _ (by omega)]
  · rfl

theorem suffixes_succ {e : Expr} (h : 10 * s.left + 1 ≤ n + 1) :
    Parser.suffixes (n + 2) e s = Parser.suffixes (n + 1) e s := by
  rw [suffixes_round, suffixes_round, ih.suffixRound_succ h]
  cases hround : suffixRound n e s with
  | none => rfl
  | some r =>
    -- With a token ahead there are calls enough for the round to take it.
    have hpos := left_pos_of_suffixRound hround
    have hlt := left_suffixRound_lt (by omega) hround
    exact ih.suffixes _ _ (by omega)

theorem call_succ {callee : Expr} (hopen : s.cursor.sees "(" = true) (h : 10 * s.left ≤ n + 1) :
    Parser.call (n + 2) callee s = Parser.call (n + 1) callee s := by
  have hnext := (State.takes_of_sees hopen).left_add
  rw [Parser.call_succ (n + 1), Parser.call_succ n, ih.arguments _ _ (by omega)]

theorem argument (paths : Bool) (h : 10 * s.left + 5 ≤ n) :
    Parser.argument (n + 1) paths s = Parser.argument n paths s := by
  unfold Parser.argument
  rw [ih.expression s h]

theorem arguments_succ {paths : Bool} (h : 10 * s.left + 6 ≤ n + 1) :
    Parser.arguments (n + 2) paths s = Parser.arguments (n + 1) paths s := by
  have harg := ((progress n).argument paths s).potential
  rw [Parser.arguments_succ (n + 1) paths s, Parser.arguments_succ n paths s,
    ih.argument paths (by omega)]
  dsimp only
  split
  · next hcomma =>
    have hnext := (State.takes_of_sees hcomma).left_add
    rw [ih.arguments _ _ (by omega)]
  · rfl

theorem primary_succ (h : 10 * s.left + 1 ≤ n + 1) :
    Parser.primary (n + 2) s = Parser.primary (n + 1) s := by
  rw [Parser.primary_succ (n + 1) s, Parser.primary_succ n s]
  dsimp only
  cases hk : s.current.kind with
  | punctuation =>
    have hnext := (State.takes_of_kind (s := s) (by rw [hk]; decide)).left_add
    rw [ih.expression _ (by omega)]
  | _ => rfl

theorem succ : Steady (n + 1) where
  expression _ := ih.expression_succ
  conditional _ := ih.conditional_succ
  binary _ _ := ih.binary_succ
  operators _ _ _ := ih.operators_succ
  unary _ := ih.unary_succ
  suffixes _ _ := ih.suffixes_succ
  call _ _ := ih.call_succ
  arguments _ _ := ih.arguments_succ
  primary _ := ih.primary_succ

end Steady

theorem steady : ∀ n, Steady n
  | 0 => .zero
  | n + 1 => (steady n).succ

/-- **With ten calls for each token ahead the parser does not run out of calls.** -/
theorem expression_eq {m n : Nat} (s : State) (hm : 10 * s.left + 5 ≤ m) (hmn : m ≤ n) :
    expression n s = expression m s := by
  induction n, hmn using Nat.le_induction with
  | base => rfl
  | succ n hmn ih => rw [(steady n).expression s (by omega), ih]

theorem whole_eq {m n : Nat} (s : State) (hm : 10 * s.left + 5 ≤ m) (hmn : m ≤ n) :
    whole n s = whole m s := by
  rw [whole_apply, whole_apply, expression_eq s hm hmn]

end TargetView.Parser
