import TargetView.Proofs.Grammar
import TargetView.Proofs.Parsing

/-! # The words ahead

What a parser does next depends on the words ahead of it and on nothing else
of its state.  A state is accepted if no syntax error has been recorded in it;
for such a state the questions that the parser asks its cursor are answered
from the words.
-/
namespace TargetView

/-- Whether a code belongs to the lexer or to the grammar. -/
def ErrorCode.isSyntactic : ErrorCode → Bool
  | .e2001 | .e3001 => false
  | _ => true

/-- Whether a finding is an error of the lexer or of the grammar. -/
def Diagnostic.isSyntaxError (d : Diagnostic) : Bool := d.isError && d.code.isSyntactic

/-- The operator or delimiter at the head of some words. -/
def Word.lead : List Word → Option String
  | ⟨.punctuation, p⟩ :: _ => some p
  | _ => none

namespace Word

@[simp] theorem lead_mark (p : String) (ws : List Word) : lead (mark p :: ws) = some p := rfl

theorem eq_of_lead {ws : List Word} {p : String} (h : lead ws = some p) :
    ws = mark p :: ws.tail := by
  unfold lead at h
  split at h
  · obtain rfl := Option.some.inj h
    rfl
  · cases h

end Word

/-! ### Symbols -/

theorem BinaryOp.symbol_of_ofSymbol? {p : String} {op : BinaryOp}
    (h : ofSymbol? p = some op) : op.symbol = p := by
  simpa using List.find?_some h

theorem UnaryOp.symbol_of_ofSymbol? {p : String} {op : UnaryOp}
    (h : ofSymbol? p = some op) : op.symbol = p := by
  simpa using List.find?_some h

theorem UpdateOp.symbol_of_ofSymbol? {p : String} {op : UpdateOp}
    (h : ofSymbol? p = some op) : op.symbol = p := by
  simpa using List.find?_some h

theorem AssignOp.symbol_of_ofSymbol? {p : String} {op : AssignOp}
    (h : ofSymbol? p = some op) : op.symbol = p := by
  simpa using List.find?_some h

namespace Parser.State

/-- The words ahead. -/
def words (s : State) : List Word := s.cursor.ahead.map Token.word

/-- No syntax error has been recorded. -/
def Accepted (s : State) : Prop := ∀ d ∈ s.findings, d.isSyntaxError = false

variable {s : State}

theorem words_next : s.next.words = s.words.tail := by
  unfold next words Cursor.next
  cases h : s.cursor.ahead <;> simp [h]

@[simp] theorem words_checked (e : Expr) (symbol : String) :
    (s.checked e symbol).words = s.words := by
  unfold checked
  split <;> rfl

@[simp] theorem words_foldl_push (ds : List Diagnostic) :
    (ds.foldl push s).words = s.words := by
  induction ds generalizing s with
  | nil => rfl
  | cons d rest ih => exact ih

@[simp] theorem accepted_next : s.next.Accepted ↔ s.Accepted := Iff.rfl

@[simp] theorem accepted_push (d : Diagnostic) :
    (s.push d).Accepted ↔ s.Accepted ∧ d.isSyntaxError = false := by
  constructor
  · intro h
    exact ⟨fun d' hd => h d' (Array.mem_push_of_mem _ hd), h d Array.mem_push_self⟩
  · rintro ⟨h, hd⟩ d' hd'
    rcases Array.mem_push.mp hd' with hd' | rfl
    · exact h d' hd'
    · exact hd

theorem accepted_foldl_push (ds : List Diagnostic) :
    (ds.foldl push s).Accepted ↔ s.Accepted ∧ ∀ d ∈ ds, d.isSyntaxError = false := by
  induction ds generalizing s with
  | nil => simp
  | cons d rest ih => simp [ih, and_assoc]

/-- A syntax error rules a state out. -/
theorem not_accepted_push {d : Diagnostic} (hd : d.isSyntaxError = true) :
    ¬ (s.push d).Accepted := by
  simp [hd]

theorem accepted_checked {e : Expr} {symbol : String} :
    (s.checked e symbol).Accepted ↔
      s.Accepted ∧ (e.isAssignable = true ∨ e.isMalformed = true) := by
  unfold checked
  split
  · next h => simp_all
  · next h =>
    refine ⟨fun hs => (not_accepted_push (by rfl) hs).elim, fun hs => ?_⟩
    simp_all

/-- A token that does not mark the end is the first one ahead. -/
theorem words_of_kind (hk : s.current.kind ≠ .end) :
    s.words = s.current.word :: s.next.words := by
  rw [words_next]
  unfold current Cursor.current words at *
  cases h : s.cursor.ahead with
  | nil => exact absurd (eq_of_beq s.cursor.isEnd_mark) (by simpa [h] using hk)
  | cons t rest => simp

/-- The token at the cursor is the first word ahead. -/
theorem current_word {w : Word} {ws : List Word} (h : s.words = w :: ws) :
    s.current.word = w := by
  unfold words at h
  unfold current Cursor.current
  cases ha : s.cursor.ahead with
  | nil => simp [ha] at h
  | cons t rest =>
    rw [ha] at h
    exact (List.cons.inj h).1

/-! ### What the cursor sees -/

theorem punctuation?_eq : s.cursor.punctuation? = Word.lead s.words := by
  unfold Cursor.punctuation? Token.punctuation? Cursor.current words
  cases s.cursor.ahead with
  | nil =>
    have hm : s.cursor.mark.kind = .end := eq_of_beq s.cursor.isEnd_mark
    simp [hm, Word.lead]
  | cons t rest =>
    obtain ⟨kind, text, span⟩ := t
    cases kind <;> rfl

theorem sees_eq (p : String) :
    s.cursor.sees p = (Word.lead s.words == some p) := by
  rw [← punctuation?_eq]
  unfold Cursor.sees Token.isPunctuation Cursor.punctuation? Token.punctuation?
  cases h : s.cursor.current.kind == .punctuation <;> simp

theorem operator?_eq {α : Type} (ofSymbol? : String → Option α) :
    s.operator? ofSymbol? = (Word.lead s.words).bind ofSymbol? := by
  rw [operator?, punctuation?_eq]

theorem words_of_sees {p : String} (h : s.cursor.sees p = true) :
    s.words = Word.mark p :: s.next.words := by
  rw [sees_eq, beq_iff_eq] at h
  rw [words_next]
  exact Word.eq_of_lead h

theorem words_of_operator? {α : Type} {ofSymbol? : String → Option α} {op : α}
    (h : s.operator? ofSymbol? = some op) :
    ∃ p, ofSymbol? p = some op ∧ s.words = Word.mark p :: s.next.words := by
  rw [operator?_eq, Option.bind_eq_some_iff] at h
  obtain ⟨p, hp, hop⟩ := h
  rw [words_next]
  exact ⟨p, hop, Word.eq_of_lead hp⟩

/-- A closing bracket that is accepted is there. -/
theorem accepted_closed {bracket : String} {opening : Char} {opened : Span} :
    (s.closed bracket opening opened).2.Accepted →
      s.Accepted ∧ s.words = Word.mark bracket :: (s.closed bracket opening opened).2.words := by
  unfold closed
  split
  · next h =>
    intro hs
    rw [accepted_next] at hs
    exact ⟨hs, words_of_sees h⟩
  · exact fun hs => (not_accepted_push (by rfl) hs).elim

end Parser.State
end TargetView
