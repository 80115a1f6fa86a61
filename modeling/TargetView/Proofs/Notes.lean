import TargetView.Proofs.Segmentation

/-! # Notes about rounded integers

The parser takes a number token in one place only, where it decodes it.  So the
notes that have been made, with those that are due for the tokens ahead, stay
the same in every step (`Parser.State.account`): what a parse notes is due for
the first tokens of the text, one by one, and for all of them if there is no
syntax error (`Template.notes_parseAt`).
-/
namespace TargetView

/-- The note that is due for a token: that it is an integer beyond 64 bits. -/
def Token.note? (t : Token) : Option Diagnostic :=
  if t.kind = .number then
    match Literal.decode t.text with
    | .ok value =>
      if value.isInexact t.text then some (.inexactInteger t.span t.text) else none
    | .error _ => none
  else none

theorem Token.note?_eq_none {t : Token} (h : t.kind ≠ .number) : t.note? = none := if_neg h

/-- The notes about rounded integers among some findings. -/
def notes (ds : List Diagnostic) : List Diagnostic := ds.filter (·.code == .e0004)

theorem notes_eq_nil {ds : List Diagnostic} (h : ∀ d ∈ ds, d.code ≠ .e0004) : notes ds = [] := by
  refine List.filter_eq_nil_iff.mpr fun d hd => ?_
  rw [beq_iff_eq]
  exact h d hd

namespace Parser

variable {s : State} {d : Diagnostic}

namespace State

/-- The notes made, and those that are due for the tokens ahead. -/
def account (s : State) : List Diagnostic :=
  notes s.findings.toList ++ s.cursor.ahead.filterMap Token.note?

theorem account_push (h : d.code ≠ .e0004) : (s.push d).account = s.account := by
  have hnone : notes [d] = [] := notes_eq_nil (List.forall_mem_singleton.mpr h)
  unfold account push notes at *
  rw [Array.toList_push, List.filter_append, hnone, List.append_nil]

theorem account_foldl_push {ds : List Diagnostic} (h : ∀ d ∈ ds, d.code ≠ .e0004) :
    (ds.foldl push s).account = s.account := by
  induction ds generalizing s with
  | nil => rfl
  | cons d rest ih =>
    obtain ⟨hd, hrest⟩ := List.forall_mem_cons.mp h
    exact (ih hrest).trans (account_push hd)

/-- The token at the cursor is the first one ahead. -/
theorem ahead_eq (h : s.cursor.ahead ≠ []) :
    s.cursor.ahead = s.current :: s.next.cursor.ahead := by
  unfold current Cursor.current next Cursor.next
  cases ha : s.cursor.ahead with
  | nil => exact absurd ha h
  | cons t rest => rfl

theorem account_eq (h : s.cursor.ahead ≠ []) : s.account =
    notes s.findings.toList ++
      (s.current.note?.toList ++ s.next.cursor.ahead.filterMap Token.note?) := by
  rw [account, ahead_eq h]
  cases hnote : s.current.note? with
  | none => rw [List.filterMap_cons_none hnote]; rfl
  | some d => rw [List.filterMap_cons_some hnote]; rfl

/-- A token that is no number is passed over. -/
theorem account_next (h : s.current.kind ≠ .number) : s.next.account = s.account := by
  by_cases hnil : s.cursor.ahead = []
  · unfold account next Cursor.next
    rw [hnil]
    dsimp only
    rw [hnil]
  · rw [account_eq hnil, Token.note?_eq_none h]
    rfl

theorem kind_of_sees {p : String} (h : s.cursor.sees p = true) : s.current.kind ≠ .number := by
  have hkind : s.current.kind = .punctuation := eq_of_beq (Bool.and_eq_true_iff.mp h).1
  rw [hkind]
  nofun

theorem kind_of_operator? {α : Type} {ofSymbol? : String → Option α} {op : α}
    (h : s.operator? ofSymbol? = some op) : s.current.kind ≠ .number := by
  obtain ⟨p, hp, -⟩ := Option.bind_eq_some_iff.mp h
  have hkind : s.current.kind = .punctuation :=
    eq_of_beq (Option.ite_none_right_eq_some.mp hp).1
  rw [hkind]
  nofun

theorem account_checked (e : Expr) (symbol : String) :
    (s.checked e symbol).account = s.account := by
  unfold checked
  split
  · rfl
  · exact account_push nofun

theorem account_closed (bracket : String) (opening : Char) (opened : Span) :
    (s.closed bracket opening opened).2.account = s.account := by
  unfold closed
  split
  · next h => exact account_next (kind_of_sees h)
  · exact account_push nofun

end State

open State

theorem account_missing (t : Token) : (missing t s).2.account = s.account :=
  account_push nofun

/-- **A number token is taken with its note.** -/
theorem account_numberNode (h : s.current.kind = .number) :
    (numberNode s.current s.next).2.account = s.account := by
  have hne : s.cursor.ahead ≠ [] := by
    intro hnil
    -- The mark of the end is no number.
    unfold State.current Cursor.current at h
    rw [hnil, List.headD_nil, eq_of_beq s.cursor.isEnd_mark] at h
    cases h
  rw [account_eq hne, numberNode_apply, Token.note?, if_pos h]
  cases Literal.decode s.current.text with
  | error fault =>
    refine (account_push ?_).trans rfl
    nofun
  | ok value =>
    dsimp only
    split
    · rw [account, State.push, Array.toList_push, notes, List.filter_append, List.append_assoc]
      rfl
    · rfl

theorem account_textNode (t : Token) : (textNode t s).2.account = s.account := by
  rw [textNode_apply]
  refine account_foldl_push fun d hd => ?_
  rw [Literal.code_cook _ _ d hd]
  nofun

theorem account_member (e : Expr) (h : s.cursor.sees "." = true) :
    (member e s).2.account = s.account := by
  have hnext := account_next (kind_of_sees h)
  rw [member_apply]
  dsimp only
  split
  · next hk =>
    have hkind : s.next.current.kind ≠ .number := by
      rw [eq_of_beq hk]
      nofun
    exact (account_next hkind).trans hnext
  · refine Eq.trans (account_push ?_) hnext
    nofun

/-- Taking tokens that are no numbers. -/
theorem account_joined (n : Nat) (name : String) (span : Span)
    (h : ∀ t ∈ s.cursor.ahead.take n, t.kind ≠ .number) :
    (joined n name span s).2.account = s.account := by
  induction n generalizing name span s with
  | zero => rfl
  | succ n ih =>
    rw [joined_succ]
    by_cases hnil : s.cursor.ahead = []
    · have hstay : s.next = s := by
        unfold next Cursor.next
        rw [hnil]
      rw [hstay]
      exact ih _ _ (by rw [hnil, List.take_nil]; nofun)
    · rw [ahead_eq hnil, List.take_succ_cons] at h
      obtain ⟨hcurrent, hrest⟩ := List.forall_mem_cons.mp h
      exact (ih _ _ hrest).trans (account_next hcurrent)

/-- A path holds no number. -/
theorem kind_of_mem_path {ts : List Token} (h : pathLength ts ≠ 0) :
    ∀ t ∈ ts.take (pathLength ts), t.kind ≠ .number := by
  obtain ⟨first, second, rest, hwords, -⟩ := map_word_pathLength h
  intro t ht
  have hw : t.word ∈ Word.path first (second :: rest) := hwords ▸ List.mem_map_of_mem ht
  have hpath : ∀ w ∈ Word.path first (second :: rest), w.kind ≠ .number := by
    refine List.forall_mem_cons.mpr ⟨by simp [Word.name], fun w hw => ?_⟩
    obtain ⟨name, -, hw⟩ := List.mem_flatMap.mp hw
    simp only [List.mem_cons, List.not_mem_nil, or_false] at hw
    rcases hw with rfl | rfl
    · simp [Word.mark]
    · simp [Word.name]
  exact hpath _ hw

/-! ### The grammar -/

/-- The parser functions keep the account when they may make `n` nested calls. -/
structure Balances (n : Nat) : Prop where
  expression : ∀ s, (expression n s).2.account = s.account
  conditional : ∀ s, (conditional n s).2.account = s.account
  binary : ∀ least s, (binary n least s).2.account = s.account
  operators : ∀ least left s, (operators n least left s).2.account = s.account
  unary : ∀ s, (unary n s).2.account = s.account
  suffixes : ∀ e s, (suffixes n e s).2.account = s.account
  call : ∀ callee s, s.cursor.sees "(" = true → (call n callee s).2.account = s.account
  arguments : ∀ paths s, (arguments n paths s).2.account = s.account
  primary : ∀ s, (primary n s).2.account = s.account

theorem Balances.zero : Balances 0 where
  expression s := by rw [expression_zero]; exact account_missing _
  conditional s := by rw [conditional_zero]; exact account_missing _
  binary least s := by rw [binary_zero]; exact account_missing _
  operators least left s := by rw [operators_zero]; exact account_missing _
  unary s := by rw [unary_zero]; exact account_missing _
  suffixes e s := by rw [suffixes_zero]; exact account_missing _
  call callee s _ := by rw [call_zero]; exact account_missing _
  arguments paths s := by rw [arguments_zero]; exact account_missing _
  primary s := by rw [primary_zero]; exact account_missing _

namespace Balances

variable {n : Nat} (ih : Balances n)
include ih

theorem expression_succ (s : State) :
    (Parser.expression (n + 1) s).2.account = s.account := by
  have htarget := ih.conditional s
  rw [Parser.expression_succ]
  dsimp only
  cases hop : (Parser.conditional n s).2.operator? AssignOp.ofSymbol? with
  | none => exact htarget
  | some op =>
    refine (ih.expression _).trans ((account_checked _ _).trans ?_)
    exact (account_next (kind_of_operator? hop)).trans htarget

theorem conditional_succ (s : State) :
    (Parser.conditional (n + 1) s).2.account = s.account := by
  have hcond := ih.binary 1 s
  rw [Parser.conditional_succ]
  dsimp only
  split
  · next hq =>
    have hyes := (ih.expression _).trans ((account_next (kind_of_sees hq)).trans hcond)
    split
    · next hc => exact (ih.conditional _).trans ((account_next (kind_of_sees hc)).trans hyes)
    · refine (account_push ?_).trans hyes
      nofun
  · exact hcond

theorem binary_succ (least : Nat) (s : State) :
    (Parser.binary (n + 1) least s).2.account = s.account := by
  rw [Parser.binary_succ]
  exact (ih.operators _ _ _).trans (ih.unary s)

theorem operators_succ (least : Nat) (left : Expr) (s : State) :
    (Parser.operators (n + 1) least left s).2.account = s.account := by
  rw [Parser.operators_succ]
  cases hop : s.operator? BinaryOp.ofSymbol? with
  | none => rfl
  | some op =>
    dsimp only
    split
    · rfl
    · have hnext := account_next (kind_of_operator? hop)
      exact (ih.operators _ _ _).trans ((ih.binary _ _).trans hnext)

theorem unary_succ (s : State) : (Parser.unary (n + 1) s).2.account = s.account := by
  rw [Parser.unary_succ]
  cases hup : s.operator? UpdateOp.ofSymbol? with
  | some op =>
    exact (account_checked _ _).trans ((ih.unary _).trans (account_next (kind_of_operator? hup)))
  | none =>
    dsimp only
    cases hop : s.operator? UnaryOp.ofSymbol? with
    | some op => exact (ih.unary _).trans (account_next (kind_of_operator? hop))
    | none => exact (ih.suffixes _ _).trans (ih.primary s)

theorem suffixes_succ (e : Expr) (s : State) :
    (Parser.suffixes (n + 1) e s).2.account = s.account := by
  rw [Parser.suffixes_succ]
  split
  · next hcall => exact (ih.suffixes _ _).trans (ih.call e s hcall)
  · split
    · next hmember => exact (ih.suffixes _ _).trans (account_member e hmember)
    · split
      · next hindex =>
        refine (ih.suffixes _ _).trans ((account_closed _ _ _).trans ?_)
        exact (ih.expression _).trans (account_next (kind_of_sees hindex))
      · cases hop : s.operator? UpdateOp.ofSymbol? with
        | none => rfl
        | some op =>
          refine (ih.suffixes _ _).trans ((account_checked _ _).trans ?_)
          exact account_next (kind_of_operator? hop)

theorem call_succ (callee : Expr) (s : State) (h : s.cursor.sees "(" = true) :
    (Parser.call (n + 1) callee s).2.account = s.account := by
  have hopen := account_next (kind_of_sees h)
  rw [Parser.call_succ]
  split
  · next hclose => exact (account_next (kind_of_sees hclose)).trans hopen
  · exact (account_closed _ _ _).trans ((ih.arguments _ _).trans hopen)

theorem argument (paths : Bool) (s : State) :
    (Parser.argument n paths s).2.account = s.account := by
  unfold Parser.argument
  dsimp only
  by_cases hl : (if paths then pathLength s.cursor.ahead else 0) = 0
  · rw [if_pos hl]
    exact ih.expression s
  · rw [if_neg hl]
    cases paths with
    | false => exact absurd rfl hl
    | true => exact account_joined _ _ _ (kind_of_mem_path hl)

theorem arguments_succ (paths : Bool) (s : State) :
    (Parser.arguments (n + 1) paths s).2.account = s.account := by
  have harg := ih.argument paths s
  rw [Parser.arguments_succ]
  dsimp only
  split
  · next hcomma =>
    exact (ih.arguments _ _).trans ((account_next (kind_of_sees hcomma)).trans harg)
  · exact harg

theorem primary_succ (s : State) : (Parser.primary (n + 1) s).2.account = s.account := by
  rw [Parser.primary_succ]
  dsimp only
  cases hk : s.current.kind with
  | number => exact account_numberNode hk
  | string => exact (account_textNode _).trans (account_next (by rw [hk]; nofun))
  | identifier => exact account_next (by rw [hk]; nofun)
  | unknown =>
    refine Eq.trans (account_push ?_) (account_next (by rw [hk]; nofun))
    nofun
  | punctuation =>
    have hnext : s.next.account = s.account := account_next (by rw [hk]; nofun)
    dsimp only
    split
    · exact (account_closed _ _ _).trans ((ih.expression _).trans hnext)
    · split
      · exact account_missing _
      · exact (account_missing _).trans hnext
  | «end» => exact account_missing _

theorem succ : Balances (n + 1) where
  expression := ih.expression_succ
  conditional := ih.conditional_succ
  binary := ih.binary_succ
  operators := ih.operators_succ
  unary := ih.unary_succ
  suffixes := ih.suffixes_succ
  call := ih.call_succ
  arguments := ih.arguments_succ
  primary := ih.primary_succ

end Balances

theorem balances : ∀ n, Balances n
  | 0 => .zero
  | n + 1 => (balances n).succ

/-- **The parser keeps the account of its notes.** -/
theorem account_whole (fuel : Nat) (s : State) : (whole fuel s).2.account = s.account := by
  have hroot := (balances fuel).expression s
  rw [whole_apply]
  split
  · refine account_push ?_
    nofun
  · dsimp only
    split
    · exact hroot
    · refine (account_push ?_).trans hroot
      nofun

end Parser

namespace Template

/-- The notes that are due for the tokens of a text. -/
def due (text : List Char) (base : Nat) : List Diagnostic :=
  ((Lexer.lexemes 0 text).map (·.token base)).filterMap Token.note?

/-- **The notes that are made are due**, in the order of the tokens; without a
syntax error all that are due are made. -/
theorem notes_parseAt (text : List Char) (base : Nat) :
    notes (parseAt text base).2 <+: due text base ∧
      ((∀ d ∈ (parseAt text base).2, d.isSyntaxError = false) →
        notes (parseAt text base).2 = due text base) := by
  generalize hfinal : Parser.whole (10 * (Lexer.lexAt text base).tokens.length + 10)
    (Parser.start text base) = final
  have hfindings : (parseAt text base).2 =
      (Lexer.lexAt text base).diagnostics ++ final.2.findings.toList := by
    rw [← hfinal]
    rfl
  have hlexer : notes (Lexer.lexAt text base).diagnostics = [] := by
    refine notes_eq_nil fun d hd => ?_
    obtain ⟨l, -, hl⟩ := List.mem_filterMap.mp hd
    obtain ⟨-, hl⟩ := Option.ite_none_left_eq_some.mp hl
    obtain rfl := Option.some.inj hl
    nofun
  have hstart : (Parser.start text base).account = due text base := by
    simp [Parser.State.account, Parser.start, Cursor.ofTokens, Lexer.lexAt, Token.isEnd,
      Token.endAt, Lexer.Lexeme.token, notes, due]
  have haccount := Parser.account_whole (10 * (Lexer.lexAt text base).tokens.length + 10)
    (Parser.start text base)
  rw [hfinal, hstart, Parser.State.account] at haccount
  have hnotes : notes (parseAt text base).2 = notes final.2.findings.toList := by
    rw [hfindings, notes, List.filter_append, ← notes, ← notes, hlexer, List.nil_append]
  rw [hnotes]
  refine ⟨⟨_, haccount⟩, fun h => ?_⟩
  have hwords := Parser.words_whole (10 * (Lexer.lexAt text base).tokens.length + 10)
    (Parser.start text base) (Parser.kind_ne_end_of_mem_words text base)
  rw [hfinal] at hwords
  have hahead : final.2.cursor.ahead = [] := List.map_eq_nil_iff.mp (hwords fun d hd =>
    h d (hfindings ▸ List.mem_append_right _ (Array.mem_toList_iff.mpr hd)))
  rw [hahead, List.filterMap_nil, List.append_nil] at haccount
  exact haccount

/-- The text that is parsed for a piece at a byte offset, and the offset at which
it starts. -/
def Piece.locatedFragments (offset : Nat) : Piece → List (List Char × Nat)
  | literal _ | percent => []
  | conversion spec blanks inner _ => [(inner, min (base offset spec blanks) Span.limit)]

/-- The texts that are parsed for a text, each with the offset at which it starts:
itself, or the inner texts of its conversions. -/
def locatedFragments (text : String) : List (List Char × Nat) :=
  if isFormat text.toList then
    (located 0 (pieces text.toList)).flatMap fun p => p.2.locatedFragments p.1
  else [(text.toList, 0)]

/-- The notes about a piece are those about its fragment. -/
theorem notes_findings (offset : Nat) (piece : Piece) : notes (piece.findings offset) =
    (piece.locatedFragments offset).flatMap fun f => notes (parseAt f.1 f.2).2 := by
  cases piece with
  | literal c => rfl
  | percent => rfl
  | conversion spec blanks inner closed =>
    rw [Piece.locatedFragments, List.flatMap_singleton]
    cases closed <;> rfl

end Template

open Template

/-- The notes about a text are those about its fragments. -/
theorem notes_parse (text : String) : notes (parse text).diagnostics =
    (locatedFragments text).flatMap fun f => notes (parseAt f.1 f.2).2 := by
  by_cases hf : isFormat text.toList = true
  · have hsurvey : notes (survey (ofChars text.toList).1) = [] := by
      refine notes_eq_nil fun d hd => ?_
      rw [code_survey _ d hd]
      nofun
    rw [parse_of_isFormat hf, locatedFragments, if_pos hf, List.flatMap_assoc]
    show notes ((assemble 0 [] (pieces text.toList)).2 ++ survey (ofChars text.toList).1) = _
    rw [notes, List.filter_append, ← notes, ← notes, hsurvey, List.append_nil, findings_assemble,
      notes, List.filter_flatMap]
    exact congrArg (List.flatMap · _) (funext fun p => notes_findings p.1 p.2)
  · rw [Bool.not_eq_true] at hf
    have hsurvey : notes (parseAt text.toList 0).1.survey.2 = [] := by
      refine notes_eq_nil fun d hd => ?_
      rw [Expr.code_survey _ d hd]
      nofun
    rw [parse_of_not_isFormat hf, locatedFragments, if_neg (by rw [hf]; nofun),
      List.flatMap_singleton]
    dsimp only
    rw [notes, List.filter_append, ← notes, ← notes, hsurvey, List.append_nil]

end TargetView
