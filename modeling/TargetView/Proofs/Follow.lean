import TargetView.Proofs.Leaves

/-! # Where phrases begin and end

No phrase starts with a closing parenthesis or with a path, so the parser sees
from the first words whether there is an argument and of which sort.  Where a
phrase ends is decided by what stands behind it.  How far a word reaches back
is a number, `Word.strength`, and a phrase is over at a word that is too weak
for it.
-/
namespace TargetView

theorem BinaryOp.precedence_pos (op : BinaryOp) : 1 ≤ op.precedence := by
  cases op <;> decide

theorem BinaryOp.precedence_le (op : BinaryOp) : op.precedence ≤ 10 := by
  cases op <;> decide

namespace Word

/-! ### How phrases begin -/

/-- The words start with one that closes nothing, and not with a path. -/
def Begins (ws : List Word) : Prop :=
  ∃ w rest, ws = w :: rest ∧ w ≠ mark ")" ∧ (w.kind = .identifier → rest.head? ≠ some (mark ":"))

theorem Begins.append {ws more : List Word} (h : Begins ws) (hm : more.head? ≠ some (mark ":")) :
    Begins (ws ++ more) := by
  obtain ⟨w, rest, rfl, hw, hr⟩ := h
  refine ⟨w, rest ++ more, rfl, hw, fun hk => ?_⟩
  cases rest with
  | nil => exact hm
  | cons v rest => exact hr hk

theorem Begins.ne_nil {ws : List Word} (h : Begins ws) : ws ≠ [] := by
  obtain ⟨w, rest, rfl, -, -⟩ := h
  exact List.cons_ne_nil w rest

theorem Begins.lead_ne {ws : List Word} (h : Begins ws) (more : List Word) :
    lead (ws ++ more) ≠ some ")" := by
  obtain ⟨w, rest, rfl, hw, -⟩ := h
  intro hl
  exact hw (List.cons.inj (eq_of_lead hl)).1

theorem begins_mark {p : String} (hp : p ≠ ")") (ws : List Word) : Begins (mark p :: ws) :=
  ⟨mark p, ws, rfl, fun h => hp (congrArg text h), fun h => nomatch h⟩

theorem begins_word (w : Word) (hw : w.kind ≠ .punctuation) : Begins [w] :=
  ⟨w, [], rfl, fun h => hw (congrArg kind h), by simp⟩

theorem head?_mark_ne {p : String} (hp : p ≠ ":") (ws : List Word) :
    (mark p :: ws).head? ≠ some (mark ":") := by
  simpa [mark] using hp

theorem head?_assign_ne {op : AssignOp} (h : op ∈ AssignOp.all) (ws : List Word) :
    (mark op.symbol :: ws).head? ≠ some (mark ":") := by
  have hall : ∀ op ∈ AssignOp.all, op.symbol ≠ ":" := by decide
  exact head?_mark_ne (hall op h) ws

theorem head?_binary_ne (op : BinaryOp) (ws : List Word) :
    (mark op.symbol :: ws).head? ≠ some (mark ":") :=
  head?_mark_ne (by cases op <;> decide) ws

theorem head?_update_ne (op : UpdateOp) (ws : List Word) :
    (mark op.symbol :: ws).head? ≠ some (mark ":") :=
  head?_mark_ne (by cases op <;> decide) ws

theorem begins_unary (op : UnaryOp) (ws : List Word) : Begins (mark op.symbol :: ws) :=
  begins_mark (by cases op <;> decide) ws

theorem begins_update (op : UpdateOp) (ws : List Word) : Begins (mark op.symbol :: ws) :=
  begins_mark (by cases op <;> decide) ws

theorem head?_of_argument_end {ws : List Word} (h : lead ws = some "," ∨ lead ws = some ")") :
    ws.head? ≠ some (mark ":") := by
  rcases h with h | h
  · rw [eq_of_lead h]
    exact head?_mark_ne (by decide) _
  · rw [eq_of_lead h]
    exact head?_mark_ne (by decide) _

/-! ### What may follow a phrase -/

/-- How tightly a punctuation holds on to what stands before it: a suffix
tighter than all operators, an operator by its precedence, then the choice
and, as the loosest, the assignment. -/
def strength (p : String) : Nat :=
  if p ∈ ["(", ".", "[", "++", "--"] then 13
  else
    match BinaryOp.ofSymbol? p with
    | some op => op.precedence + 2
    | none => if p = "?" then 2 else if (AssignOp.ofSymbol? p).isSome then 1 else 0

/-- How tightly the first of some words holds on to what stands before it. -/
def pull (ws : List Word) : Nat := (lead ws).elim 0 strength

@[simp] theorem pull_mark (p : String) (ws : List Word) : pull (mark p :: ws) = strength p := rfl

theorem strength_binary (op : BinaryOp) : strength op.symbol = op.precedence + 2 := by
  cases op <;> decide

theorem strength_assign : ∀ op ∈ AssignOp.all, strength op.symbol = 1 := by decide

theorem strength_update (op : UpdateOp) : strength op.symbol = 13 := by
  cases op <;> decide

theorem strength_question : strength "?" = 2 := by decide

theorem strength_closing : strength "]" = 0 := by decide

theorem strength_colon : strength ":" = 0 := by decide

theorem ofSymbol?_assign : ∀ op ∈ AssignOp.all, AssignOp.ofSymbol? op.symbol = some op := by
  decide

theorem strength_of_binary {p : String} {op : BinaryOp} (h : BinaryOp.ofSymbol? p = some op) :
    strength p = op.precedence + 2 := by
  rw [← BinaryOp.symbol_of_ofSymbol? h, strength_binary]

theorem strength_of_assign {p : String} {op : AssignOp} (h : AssignOp.ofSymbol? p = some op) :
    strength p = 1 := by
  rw [← AssignOp.symbol_of_ofSymbol? h]
  exact strength_assign op (List.mem_of_find?_eq_some h)

theorem strength_of_update {p : String} {op : UpdateOp} (h : UpdateOp.ofSymbol? p = some op) :
    strength p = 13 := by
  rw [← UpdateOp.symbol_of_ofSymbol? h, strength_update]

end Word

namespace Parser.State

variable {s : State} {α : Type}

theorem sees_mark {p : String} {ws : List Word} (h : s.words = Word.mark p :: ws) (q : String) :
    s.cursor.sees q = (p == q) := by
  rw [sees_eq, h, Word.lead_mark]
  rfl

theorem sees_of_pull {p : String} (h : Word.pull s.words < Word.strength p) :
    s.cursor.sees p = false := by
  rw [sees_eq, beq_eq_false_iff_ne]
  intro hl
  rw [Word.pull, hl] at h
  exact Nat.lt_irrefl _ h

theorem operator?_mark {ofSymbol? : String → Option α} {p : String} {ws : List Word}
    (h : s.words = Word.mark p :: ws) : s.operator? ofSymbol? = ofSymbol? p := by
  rw [operator?_eq, h]
  rfl

/-- An operator that the first word is too weak for is not there. -/
theorem operator?_of_pull {ofSymbol? : String → Option α} {k : Nat}
    (hs : ∀ p op, ofSymbol? p = some op → k ≤ Word.strength p) (h : Word.pull s.words < k) :
    s.operator? ofSymbol? = none := by
  rw [operator?_eq]
  unfold Word.pull at h
  cases hl : Word.lead s.words with
  | none => rfl
  | some p =>
    rw [hl] at h
    cases hp : ofSymbol? p with
    | none => exact hp
    | some op => exact absurd h (Nat.not_lt.mpr (hs p op hp))

theorem words_next_of {w : Word} {ws : List Word} (h : s.words = w :: ws) :
    s.next.words = ws := by
  rw [words_next, h, List.tail_cons]

theorem checked_of_isAssignable {e : Expr} (h : e.isAssignable = true) (symbol : String) :
    s.checked e symbol = s := by
  rw [checked, h, Bool.true_or, if_pos rfl]

theorem closed_of_words {bracket : String} {ws : List Word}
    (h : s.words = Word.mark bracket :: ws) (opening : Char) (opened : Span) :
    (s.closed bracket opening opened).2 = s.next := by
  have hs : s.cursor.sees bracket = true := by rw [sees_mark h, beq_self_eq_true]
  rw [closed, if_pos hs]

end Parser.State

end TargetView
