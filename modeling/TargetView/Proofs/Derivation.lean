import TargetView.Proofs.Leaves

/-! # Accepted texts are derived

Error recovery skips and keeps tokens in many places.  Each of them records a
syntax error, so a result without one accounts for every word: the words that
a parser function took are a derivation of the tree it returns.  The proof
goes backwards: from an accepted state after a call it concludes that the
state before was accepted, and only then what was taken in between.
-/
namespace TargetView.Parser

open Grammar

variable {α : Type}

/-- A call that ends in an accepted state started in one, and the words that
it took are related to its result. -/
def Derives (phrase : α → List Word → Prop) (s : State) (r : α × State) : Prop :=
  r.2.Accepted → s.Accepted ∧ ∃ ws, s.words = ws ++ r.2.words ∧ phrase r.1 ws

theorem not_accepted_missing (t : Token) (s : State) : ¬ (missing t s).2.Accepted :=
  State.not_accepted_push rfl

theorem Derives.of_missing {phrase : Expr → List Word → Prop} {s t : State} {u : Token} :
    Derives phrase s (missing u t) :=
  fun h => (not_accepted_missing u t h).elim

/-- What the parser functions do when they may make `n` nested calls.  What
stands behind an operand continues whatever derivation the operand has. -/
structure Sound (n : Nat) : Prop where
  expression : ∀ s, Derives Expression s (expression n s)
  conditional : ∀ s, Derives Choice s (conditional n s)
  binary : ∀ least s, Derives (Chain least) s (binary n least s)
  operators : ∀ least left s,
    Derives (fun e ws => ∀ ls, Chain least left ls →
      (∀ op, s.operator? BinaryOp.ofSymbol? = some op → Chain op.precedence left ls) →
      Chain least e (ls ++ ws)) s (operators n least left s)
  unary : ∀ s, Derives Prefixed s (unary n s)
  suffixes : ∀ e s,
    Derives (fun e' ws => ∀ ls, Suffixed e ls → Suffixed e' (ls ++ ws)) s (suffixes n e s)
  call : ∀ callee s, s.cursor.sees "(" = true →
    Derives (fun e ws => ∀ ls, Suffixed callee ls → Suffixed e (ls ++ ws)) s (call n callee s)
  arguments : ∀ paths s, Derives (Arguments paths) s (arguments n paths s)
  primary : ∀ s, Derives Primary s (primary n s)

theorem Sound.zero : Sound 0 where
  expression s := by rw [expression_zero]; exact .of_missing
  conditional s := by rw [conditional_zero]; exact .of_missing
  binary least s := by rw [binary_zero]; exact .of_missing
  operators least left s := by rw [operators_zero]; exact .of_missing
  unary s := by rw [unary_zero]; exact .of_missing
  suffixes e s := by rw [suffixes_zero]; exact .of_missing
  call callee s _ := by rw [call_zero]; exact .of_missing
  arguments paths s := by
    rw [arguments_zero]
    exact fun h => (not_accepted_missing _ _ h).elim
  primary s := by rw [primary_zero]; exact .of_missing

/-- The operators behind an operand stop at one that binds too loosely. -/
theorem operators_stops : ∀ (n least : Nat) (left : Expr) (s : State),
    (operators n least left s).2.Accepted →
      ∀ op, (operators n least left s).2.operator? BinaryOp.ofSymbol? = some op →
        op.precedence < least
  | 0, least, left, s => by
    rw [operators_zero]
    exact fun h => (not_accepted_missing _ _ h).elim
  | n + 1, least, left, s => by
    rw [operators_succ]
    cases hop : s.operator? BinaryOp.ofSymbol? with
    | none =>
      intro _ op h
      exact nomatch hop.symm.trans h
    | some op =>
      dsimp only
      split
      · next hlt =>
        intro _ op' h
        obtain rfl := Option.some.inj (hop.symm.trans h)
        exact hlt
      · exact operators_stops n least _ _

theorem binary_stops (n least : Nat) (s : State) (h : (binary n least s).2.Accepted) :
    ∀ op, (binary n least s).2.operator? BinaryOp.ofSymbol? = some op →
      op.precedence < least := by
  cases n with
  | zero =>
    rw [binary_zero] at h
    exact (not_accepted_missing _ _ h).elim
  | succ n =>
    rw [binary_succ] at h ⊢
    exact operators_stops _ _ _ _ h

namespace Sound

variable {n : Nat} (ih : Sound n)
include ih

theorem expression_succ (s : State) : Derives Expression s (Parser.expression (n + 1) s) := by
  intro h
  rw [Parser.expression_succ] at h ⊢
  dsimp only at h ⊢
  cases hop : (Parser.conditional n s).2.operator? AssignOp.ofSymbol? with
  | none =>
    rw [hop] at h
    obtain ⟨hs, ws, hw, he⟩ := ih.conditional s h
    exact ⟨hs, ws, hw, .choice he⟩
  | some op =>
    rw [hop] at h
    obtain ⟨hc, vs, hvs, hv⟩ := ih.expression _ h
    obtain ⟨hn, ht⟩ := State.accepted_checked.mp hc
    rw [State.accepted_next] at hn
    obtain ⟨hs, ts, hts, he⟩ := ih.conditional s hn
    obtain ⟨p, hp, hpw⟩ := State.words_of_operator? hop
    obtain rfl := AssignOp.symbol_of_ofSymbol? hp
    rw [State.words_checked] at hvs
    have hm : op ∈ AssignOp.all := List.mem_of_find?_eq_some hp
    -- The check lets a malformed target pass too, but no part of a derived tree is one.
    have ha := (he.parts_sound _ (Expr.mem_parts_self _)).isAssignable ht
    refine ⟨hs, ts ++ Word.mark op.symbol :: vs, ?_, .assign _ hm ha he hv⟩
    rw [hts, hpw, hvs]
    simp

theorem conditional_succ (s : State) : Derives Choice s (Parser.conditional (n + 1) s) := by
  intro h
  rw [Parser.conditional_succ] at h ⊢
  dsimp only at h ⊢
  by_cases hq : (Parser.binary n 1 s).2.cursor.sees "?" = true
  · rw [if_pos hq] at h ⊢
    by_cases hc : (Parser.expression n (Parser.binary n 1 s).2.next).2.cursor.sees ":" = true
    · rw [if_pos hc] at h ⊢
      obtain ⟨h₃, ns, hns, hno⟩ := ih.conditional _ h
      rw [State.accepted_next] at h₃
      obtain ⟨h₂, ys, hys, hyes⟩ := ih.expression _ h₃
      rw [State.accepted_next] at h₂
      obtain ⟨hs, cs, hcs, hcond⟩ := ih.binary 1 s h₂
      refine ⟨hs, cs ++ Word.mark "?" :: ys ++ Word.mark ":" :: ns, ?_,
        .conditional _ hcond hyes hno⟩
      rw [hcs, State.words_of_sees hq, hys, State.words_of_sees hc, hns]
      simp
    · -- A missing colon has been recorded.
      rw [if_neg hc] at h
      exact (State.not_accepted_push rfl h).elim
  · rw [if_neg hq] at h ⊢
    obtain ⟨hs, ws, hw, he⟩ := ih.binary 1 s h
    exact ⟨hs, ws, hw, .chain he⟩

theorem binary_succ (least : Nat) (s : State) :
    Derives (Chain least) s (Parser.binary (n + 1) least s) := by
  intro h
  rw [Parser.binary_succ] at h ⊢
  obtain ⟨hu, rs, hrs, hext⟩ := ih.operators _ _ _ h
  obtain ⟨hs, ws, hws, he⟩ := ih.unary s hu
  refine ⟨hs, ws ++ rs, ?_, hext ws (.operand he) fun _ _ => .operand he⟩
  rw [hws, hrs, List.append_assoc]

theorem unary_succ (s : State) : Derives Prefixed s (Parser.unary (n + 1) s) := by
  intro h
  rw [Parser.unary_succ] at h ⊢
  dsimp only at h ⊢
  cases hup : s.operator? UpdateOp.ofSymbol? with
  | some op =>
    rw [hup] at h
    obtain ⟨hr, ht⟩ := State.accepted_checked.mp h
    obtain ⟨hs, ws, hws, he⟩ := ih.unary _ hr
    rw [State.accepted_next] at hs
    obtain ⟨p, hp, hpw⟩ := State.words_of_operator? hup
    obtain rfl := UpdateOp.symbol_of_ofSymbol? hp
    have ha := (he.parts_sound _ (Expr.mem_parts_self _)).isAssignable ht
    refine ⟨hs, Word.mark op.symbol :: ws, ?_, .update _ ha he⟩
    rw [hpw, hws, State.words_checked]
    rfl
  | none =>
    rw [hup] at h
    cases hop : s.operator? UnaryOp.ofSymbol? with
    | some op =>
      rw [hop] at h
      obtain ⟨hs, ws, hws, he⟩ := ih.unary _ h
      rw [State.accepted_next] at hs
      obtain ⟨p, hp, hpw⟩ := State.words_of_operator? hop
      obtain rfl := UnaryOp.symbol_of_ofSymbol? hp
      refine ⟨hs, Word.mark op.symbol :: ws, ?_, .unary _ he⟩
      rw [hpw, hws]
      rfl
    | none =>
      rw [hop] at h
      obtain ⟨hp, rs, hrs, hext⟩ := ih.suffixes _ _ h
      obtain ⟨hs, ws, hws, he⟩ := ih.primary s hp
      refine ⟨hs, ws ++ rs, ?_, .suffixed (hext ws (.primary he))⟩
      rw [hws, hrs, List.append_assoc]

theorem operators_succ (least : Nat) (left : Expr) (s : State) :
    Derives (fun e ws => ∀ ls, Chain least left ls →
      (∀ op, s.operator? BinaryOp.ofSymbol? = some op → Chain op.precedence left ls) →
      Chain least e (ls ++ ws)) s (Parser.operators (n + 1) least left s) := by
  intro h
  rw [Parser.operators_succ] at h ⊢
  cases hop : s.operator? BinaryOp.ofSymbol? with
  | none =>
    rw [hop] at h
    exact ⟨h, [], rfl, fun ls hl _ => by simpa using hl⟩
  | some op =>
    rw [hop] at h
    dsimp only at h ⊢
    by_cases hlt : op.precedence < least
    · rw [if_pos hlt] at h ⊢
      exact ⟨h, [], rfl, fun ls hl _ => by simpa using hl⟩
    · rw [if_neg hlt] at h ⊢
      obtain ⟨hr, ws, hws, hext⟩ := ih.operators _ _ _ h
      obtain ⟨hs, rs, hrs, hright⟩ := ih.binary _ _ hr
      rw [State.accepted_next] at hs
      obtain ⟨p, hp, hpw⟩ := State.words_of_operator? hop
      obtain rfl := BinaryOp.symbol_of_ofSymbol? hp
      refine ⟨hs, Word.mark op.symbol :: rs ++ ws, by rw [hpw, hrs, hws]; simp, ?_⟩
      intro ls _ hnext
      have hleft := hnext op rfl
      rw [← List.append_assoc]
      refine hext _ (.operator _ (Nat.le_of_not_lt hlt) hleft hright) fun op' hop' => ?_
      -- The right operand stopped at `op'`, so `op'` binds no tighter than `op`.
      have hstop := binary_stops _ _ _ hr op' hop'
      exact .operator _ (Nat.le_of_lt_succ hstop) hleft hright

theorem suffixes_succ (e : Expr) (s : State) :
    Derives (fun e' ws => ∀ ls, Suffixed e ls → Suffixed e' (ls ++ ws)) s
      (Parser.suffixes (n + 1) e s) := by
  intro h
  rw [Parser.suffixes_succ] at h ⊢
  by_cases hcall : s.cursor.sees "(" = true
  · rw [if_pos hcall] at h ⊢
    -- Backwards: the rest of the suffixes is accepted first, then the call before it.
    obtain ⟨hc, rs, hrs, hext⟩ := ih.suffixes _ _ h
    obtain ⟨hs, ws, hws, he⟩ := ih.call e s hcall hc
    refine ⟨hs, ws ++ rs, by rw [hws, hrs, List.append_assoc], fun ls hl => ?_⟩
    rw [← List.append_assoc]
    exact hext _ (he ls hl)
  rw [if_neg hcall] at h ⊢
  by_cases hdot : s.cursor.sees "." = true
  · rw [if_pos hdot] at h ⊢
    obtain ⟨hm, rs, hrs, hext⟩ := ih.suffixes _ _ h
    rw [member_apply] at hm hrs hext ⊢
    dsimp only at hm hrs hext ⊢
    by_cases hk : (s.next.current.kind == .identifier) = true
    · rw [if_pos hk] at hm hrs hext ⊢
      rw [State.accepted_next, State.accepted_next] at hm
      rw [beq_iff_eq] at hk
      have hname := State.words_of_kind (by rw [hk]; decide)
      have hw : s.next.current.word = Word.name s.next.current.text := by
        rw [Token.word, hk, Word.name]
      refine ⟨hm, Word.mark "." :: Word.name s.next.current.text :: rs, ?_, fun ls hl => ?_⟩
      · rw [State.words_of_sees hdot, hname, hrs, hw]
        rfl
      · simpa using hext _ (.member _ _ hl)
    · rw [if_neg hk] at hm
      exact (State.not_accepted_push rfl hm).elim
  rw [if_neg hdot] at h ⊢
  by_cases hidx : s.cursor.sees "[" = true
  · rw [if_pos hidx] at h ⊢
    dsimp only at h ⊢
    obtain ⟨hc, rs, hrs, hext⟩ := ih.suffixes _ _ h
    obtain ⟨hk, hcw⟩ := State.accepted_closed hc
    obtain ⟨hs, ks, hks, hkey⟩ := ih.expression _ hk
    rw [State.accepted_next] at hs
    refine ⟨hs, Word.mark "[" :: ks ++ [Word.mark "]"] ++ rs, ?_, fun ls hl => ?_⟩
    · rw [State.words_of_sees hidx, hks, hcw, hrs]
      simp
    · simpa using hext _ (.index _ hl hkey)
  rw [if_neg hidx] at h ⊢
  cases hup : s.operator? UpdateOp.ofSymbol? with
  | none =>
    rw [hup] at h
    exact ⟨h, [], rfl, fun ls hl => by simpa using hl⟩
  | some op =>
    rw [hup] at h
    obtain ⟨hc, rs, hrs, hext⟩ := ih.suffixes _ _ h
    obtain ⟨hs, ht⟩ := State.accepted_checked.mp hc
    rw [State.accepted_next] at hs
    obtain ⟨p, hp, hpw⟩ := State.words_of_operator? hup
    obtain rfl := UpdateOp.symbol_of_ofSymbol? hp
    rw [State.words_checked] at hrs
    refine ⟨hs, Word.mark op.symbol :: rs, by rw [hpw, hrs]; rfl, fun ls hl => ?_⟩
    have ha := (hl.parts_sound _ (Expr.mem_parts_self _)).isAssignable ht
    simpa using hext _ (.update _ ha hl)

theorem call_succ (callee : Expr) (s : State) (hopen : s.cursor.sees "(" = true) :
    Derives (fun e ws => ∀ ls, Suffixed callee ls → Suffixed e (ls ++ ws)) s
      (Parser.call (n + 1) callee s) := by
  intro h
  rw [Parser.call_succ] at h ⊢
  dsimp only at h ⊢
  by_cases hclose : s.next.cursor.sees ")" = true
  · rw [if_pos hclose] at h ⊢
    have hn := State.accepted_next.mp h
    have hs := State.accepted_next.mp hn
    refine ⟨hs, [Word.mark "(", Word.mark ")"], ?_, fun ls hl => .call _ hl⟩
    rw [State.words_of_sees hopen, State.words_of_sees hclose]
    rfl
  · rw [if_neg hclose] at h ⊢
    obtain ⟨ha, hcw⟩ := State.accepted_closed h
    obtain ⟨hs, vs, hvs, hargs⟩ := ih.arguments _ _ ha
    rw [State.accepted_next] at hs
    refine ⟨hs, Word.mark "(" :: vs ++ [Word.mark ")"], ?_, fun ls hl => ?_⟩
    · rw [State.words_of_sees hopen, hvs, hcw]
      simp
    · rw [← List.append_assoc]
      exact .callWith _ hl hargs

theorem argument (paths : Bool) (s : State) :
    Derives (Argument paths) s (Parser.argument n paths s) := by
  unfold Parser.argument
  intro h
  dsimp only at h ⊢
  by_cases hl : (if paths then pathLength s.cursor.ahead else 0) = 0
  · -- There is no path ahead, or none is allowed here.
    rw [if_pos hl] at h ⊢
    obtain ⟨hs, ws, hws, he⟩ := ih.expression s h
    exact ⟨hs, ws, hws, .expression he⟩
  · rw [if_neg hl] at h ⊢
    cases paths with
    | false => exact absurd rfl hl
    | true =>
      obtain ⟨first, second, rest, span, he, hw, ha⟩ := joined_pathLength hl s.cursor.span
      refine ⟨ha.mp h, _, hw, ?_⟩
      have hp := Argument.path first second rest span
      rwa [← he] at hp

theorem arguments_succ (paths : Bool) (s : State) :
    Derives (Arguments paths) s (Parser.arguments (n + 1) paths s) := by
  intro h
  rw [Parser.arguments_succ] at h ⊢
  dsimp only at h ⊢
  by_cases hc : (Parser.argument n paths s).2.cursor.sees "," = true
  · rw [if_pos hc] at h ⊢
    obtain ⟨ha, vs, hvs, hargs⟩ := ih.arguments paths _ h
    rw [State.accepted_next] at ha
    obtain ⟨hs, ws, hws, he⟩ := ih.argument paths s ha
    refine ⟨hs, ws ++ Word.mark "," :: vs, ?_, .more he hargs⟩
    rw [hws, State.words_of_sees hc, hvs]
    simp
  · rw [if_neg hc] at h ⊢
    obtain ⟨hs, ws, hws, he⟩ := ih.argument paths s h
    exact ⟨hs, ws, hws, .last he⟩

theorem primary_succ (s : State) : Derives Primary s (Parser.primary (n + 1) s) := by
  intro h
  rw [Parser.primary_succ] at h ⊢
  dsimp only at h ⊢
  have hword (kind : TokenKind) (hk : s.current.kind = kind) :
      s.current.word = ⟨kind, s.current.text⟩ := by rw [Token.word, hk]
  cases hk : s.current.kind with
  | number =>
    simp only [hk, numberNode_apply] at h ⊢
    cases hd : Literal.decode s.current.text with
    | error fault =>
      rw [hd] at h
      exact (State.not_accepted_push rfl h).elim
    | ok value =>
      simp only [hd] at h ⊢
      -- A number that is not exact is only warned about.
      have hn : s.next.Accepted := by
        split at h
        · exact ((State.accepted_push _).mp h).1
        · exact h
      have hs := State.accepted_next.mp hn
      refine ⟨hs, _, ?_, .number _ hd⟩
      rw [State.words_of_kind (by rw [hk]; decide), hword _ hk]
      split <;> rfl
  | string =>
    simp only [hk, textNode_apply] at h ⊢
    obtain ⟨hn, -⟩ := (State.accepted_foldl_push _).mp h
    have hs := State.accepted_next.mp hn
    -- The grammar does not know where in the text the literal stands.
    rw [Literal.cook_fst]
    refine ⟨hs, _, ?_, .text s.current.text _⟩
    rw [State.words_of_kind (by rw [hk]; decide), hword _ hk, State.words_foldl_push]
    rfl
  | identifier =>
    simp only [hk] at h ⊢
    have hs := State.accepted_next.mp h
    have hw : s.words = [Word.name s.current.text] ++ s.next.words := by
      rw [State.words_of_kind (by rw [hk]; decide), hword _ hk]
      rfl
    refine ⟨hs, _, hw, ?_⟩
    unfold nameNode
    by_cases ht : s.current.text = "true"
    · rw [ht]
      exact .truth _
    by_cases hf : s.current.text = "false"
    · rw [hf]
      exact .falsehood _
    rw [if_neg (by simpa using ht), if_neg (by simpa using hf)]
    exact .ident _ ht hf
  | punctuation =>
    simp only [hk] at h ⊢
    by_cases hp : (s.current.text == "(") = true
    · rw [if_pos hp] at h ⊢
      obtain ⟨hr, hcw⟩ := State.accepted_closed h
      obtain ⟨hs, ws, hws, he⟩ := ih.expression _ hr
      rw [State.accepted_next] at hs
      refine ⟨hs, Word.mark "(" :: ws ++ [Word.mark ")"], ?_, .parens he⟩
      rw [State.words_of_kind (by rw [hk]; decide), hword _ hk, eq_of_beq hp, hws, hcw]
      simp [Word.mark]
    · rw [if_neg hp] at h
      split at h
      · exact (not_accepted_missing _ _ h).elim
      · exact (not_accepted_missing _ _ h).elim
  | unknown =>
    simp only [hk] at h
    exact (State.not_accepted_push rfl h).elim
  | «end» =>
    simp only [hk] at h
    exact (not_accepted_missing _ _ h).elim

theorem succ : Sound (n + 1) where
  expression := ih.expression_succ
  conditional := ih.conditional_succ
  binary := ih.binary_succ
  operators := ih.operators_succ
  unary := ih.unary_succ
  suffixes := ih.suffixes_succ
  call := ih.call_succ
  arguments := ih.arguments_succ
  primary := ih.primary_succ

end Sound

theorem sound : ∀ n, Sound n
  | 0 => .zero
  | n + 1 => (sound n).succ

end TargetView.Parser
