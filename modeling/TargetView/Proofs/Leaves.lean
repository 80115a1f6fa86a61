import TargetView.Proofs.Words

/-! # The leaves of a tree

What the parser makes of a single literal and of a path: the value of a string
literal does not depend on where the literal stands, none of the findings
about a literal that denotes a value is a syntax error, and a path takes the
words that it is made of.
-/
namespace TargetView

/-! ### Literals -/

theorem Literal.cookBody_fst (quote : Char) (base base' offset offset' : Nat) (cs : List Char) :
    (cookBody quote base offset cs).1 = (cookBody quote base' offset' cs).1 := by
  -- The offset enters the spans of the warnings only, so it is free in the induction.
  fun_induction cookBody quote base offset cs generalizing offset' with
  | case1 => simp [cookBody]
  | case2 offset c rest h => rw [cookBody.eq_def]; simp [h]
  | case3 offset c rest h h' text warnings he ih =>
    have hr := ih (offset' + c.utf8Size)
    rw [he] at hr
    rw [cookBody.eq_def _ base' offset' (c :: rest)]
    simp [h, h', ← hr]
  | case4 offset c h h' => simp [cookBody, h, h']
  | case5 offset c h h' e after resolved hes text warnings he ih =>
    have hr := ih (offset' + 1 + e.utf8Size)
    rw [he] at hr
    simp [cookBody, h, h', hes, ← hr]
  | case6 offset c h h' e after hes resolved n hx text warnings he ih =>
    have hr := ih (offset' + 2 + n)
    rw [he] at hr
    simp [cookBody, h, h', hes, hx, ← hr]
  | case7 offset c h h' e after hes hx span text warnings he ih =>
    have hr := ih (offset' + 1 + e.utf8Size)
    rw [he] at hr
    simp [cookBody, h, h', hes, hx, ← hr]

theorem Literal.isSyntaxError_cookBody (quote : Char) (base offset : Nat)
    (cs : List Char) : ∀ d ∈ (cookBody quote base offset cs).2, d.isSyntaxError = false := by
  fun_induction cookBody quote base offset cs with
  | case1 | case2 | case4 => simp
  | case3 _ _ _ _ _ _ _ he ih | case5 _ _ _ _ _ _ _ _ _ _ he ih
  | case6 _ _ _ _ _ _ _ _ _ _ _ _ he ih => simpa [he] using ih
  | case7 _ _ _ _ _ _ _ _ _ _ _ he ih =>
    rw [he] at ih
    intro d hd
    rcases List.mem_cons.mp hd with rfl | hd
    · rfl
    · exact ih d hd

theorem Literal.cook_fst (raw : String) (base : Nat) : (cook raw base).1 = (cook raw 0).1 := by
  unfold cook
  cases raw.toList with
  | nil => rfl
  | cons quote rest => exact congrArg String.ofList (cookBody_fst ..)

theorem Literal.isSyntaxError_cook (raw : String) (base : Nat) :
    ∀ d ∈ (cook raw base).2, d.isSyntaxError = false := by
  unfold cook
  cases raw.toList with
  | nil => simp
  | cons quote rest => exact isSyntaxError_cookBody quote base _ rest

/-! ### Paths -/

namespace Word

/-- A text with the texts of some words behind it. -/
def spelled (start : String) (ws : List Word) : String :=
  ws.foldl (fun s w => s ++ w.text) start

theorem path_cons (first s : String) (rest : List String) :
    path first (s :: rest) = name first :: mark ":" :: path s rest := rfl

theorem length_steps (names : List String) :
    (names.flatMap fun s => [mark ":", name s]).length = 2 * names.length := by
  induction names with
  | nil => rfl
  | cons s names ih =>
    rw [List.flatMap_cons, List.length_append, ih]
    simp only [List.length_cons, List.length_nil]
    omega

theorem length_path (first : String) (rest : List String) :
    (path first rest).length = 2 * rest.length + 1 := by
  rw [path, List.length_cons, length_steps]

theorem spelled_path (start first : String) (rest : List String) :
    spelled start (path first rest) = start ++ ":".intercalate (first :: rest) := by
  induction rest generalizing start first with
  | nil => simp [spelled, path, name]
  | cons s rest ih =>
    rw [path_cons, String.intercalate_cons_cons]
    refine (ih (start ++ first ++ ":") s).trans ?_
    simp only [String.append_assoc]

end Word

namespace Parser

theorem map_word_pathTail (ts : List Token) :
    ∃ names : List String, (ts.take (pathTail ts)).map Token.word =
      names.flatMap (fun s => [Word.mark ":", Word.name s]) ∧ pathTail ts = 2 * names.length ∧
      pathTail ts ≤ ts.length := by
  fun_induction pathTail ts with
  | case1 colon name rest h ih =>
    obtain ⟨names, hw, hn, hl⟩ := ih
    simp only [Token.isPunctuation, Bool.and_eq_true, beq_iff_eq] at h
    obtain ⟨⟨hk, ht⟩, hn'⟩ := h
    refine ⟨name.text :: names, ?_, ?_, ?_⟩
    · rw [List.take_succ_cons, List.take_succ_cons, List.map_cons, List.map_cons, hw,
        List.flatMap_cons]
      simp [Token.word, Word.mark, Word.name, hk, ht, hn']
    · rw [hn, List.length_cons]; omega
    · rw [List.length_cons, List.length_cons]; omega
  | case2 colon name rest h => exact ⟨[], by simp, rfl, by simp⟩
  | case3 => exact ⟨[], by simp, rfl, by simp⟩

/-- A path is found where its words are. -/
theorem map_word_pathLength {ts : List Token} (h : pathLength ts ≠ 0) :
    ∃ first second rest,
      (ts.take (pathLength ts)).map Token.word = Word.path first (second :: rest) ∧
        pathLength ts ≤ ts.length := by
  cases ts with
  | nil => exact absurd rfl h
  | cons t ts =>
    obtain ⟨names, hw, hn, hl⟩ := map_word_pathTail ts
    simp only [pathLength] at h ⊢
    split at h
    · next hc =>
      simp only [Bool.and_eq_true, beq_iff_eq, bne_iff_ne] at hc
      rw [if_pos (by simpa using hc)]
      cases names with
      | nil => exact absurd hn hc.1.2
      | cons second rest =>
        refine ⟨t.text, second, rest, ?_, Nat.succ_le_succ hl⟩
        rw [List.take_succ_cons, List.map_cons, hw]
        simp [Word.path, Token.word, Word.name, hc.1.1]
    · exact absurd rfl h

theorem pathTail_of_words (names : List String) {ts : List Token} {more : List Word}
    (h : ts.map Token.word = (names.flatMap fun s => [Word.mark ":", Word.name s]) ++ more)
    (hm : more.head? ≠ some (Word.mark ":")) : pathTail ts = 2 * names.length := by
  induction names generalizing ts with
  | nil =>
    unfold pathTail
    split
    · next colon name rest =>
      rw [if_neg]
      · rfl
      · intro hc
        simp only [Token.isPunctuation, Bool.and_eq_true, beq_iff_eq] at hc
        refine hm ?_
        rw [← List.nil_append more, ← List.flatMap_nil, ← h]
        simp [Token.word, Word.mark, hc.1.1, hc.1.2]
    · rfl
  | cons s names ih =>
    match ts, h with
    | [_], h => simp at h
    | colon :: name :: rest, h =>
      simp only [List.map_cons, List.flatMap_cons, List.cons_append, List.nil_append,
        List.cons.injEq] at h
      obtain ⟨hc, hn, hr⟩ := h
      have hk := congrArg Word.kind hc
      have ht := congrArg Word.text hc
      have hk' := congrArg Word.kind hn
      simp only [Token.word, Word.mark, Word.name] at hk ht hk'
      rw [pathTail, if_pos (by simp [Token.isPunctuation, hk, ht, hk']), ih hr, List.length_cons]
      omega

/-- The words of a path with a comma or a closing parenthesis behind them are
found. -/
theorem pathLength_of_path {first second : String} {rest : List String} {ts : List Token}
    {more : List Word} (h : ts.map Token.word = Word.path first (second :: rest) ++ more)
    (hm : Word.lead more = some "," ∨ Word.lead more = some ")") :
    pathLength ts = (Word.path first (second :: rest)).length := by
  match ts, h with
  | t :: ts, h =>
    rw [Word.path, List.cons_append, List.map_cons, List.cons.injEq] at h
    obtain ⟨hw, hr⟩ := h
    -- The parser wants to see the comma or the parenthesis behind the path.
    have hmore : ∃ p, (p = "," ∨ p = ")") ∧ more = Word.mark p :: more.tail := by
      rcases hm with hm | hm
      · exact ⟨",", .inl rfl, Word.eq_of_lead hm⟩
      · exact ⟨")", .inr rfl, Word.eq_of_lead hm⟩
    obtain ⟨p, hp, hmore⟩ := hmore
    have htail := pathTail_of_words (second :: rest) hr (by
      rw [hmore]
      rcases hp with rfl | rfl <;> simp [Word.mark])
    have hdrop : (ts.drop (2 * (second :: rest).length)).map Token.word =
        Word.mark p :: more.tail := by
      rw [List.map_drop, hr, ← Word.length_steps, List.drop_left, ← hmore]
    obtain ⟨u, us, hu, hword, -⟩ := List.map_eq_cons_iff.mp hdrop
    have hk : t.kind = .identifier := congrArg Word.kind hw
    have hku : u.kind = .punctuation := congrArg Word.kind hword
    have htu : u.text = p := congrArg Word.text hword
    have hfollows : (u.isPunctuation "," || u.isPunctuation ")") = true := by
      rcases hp with rfl | rfl <;> simp [Token.isPunctuation, hku, htu]
    rw [pathLength, htail, hu, Word.length_path]
    simp [hk, hfollows]

/-- No path starts where a colon is not the second word. -/
theorem pathLength_eq_zero {ts : List Token} {w : Word} {ws : List Word}
    (h : ts.map Token.word = w :: ws)
    (hw : w.kind = .identifier → ws.head? ≠ some (Word.mark ":")) : pathLength ts = 0 := by
  match ts, h with
  | t :: ts, h =>
    rw [List.map_cons, List.cons.injEq] at h
    obtain ⟨rfl, rfl⟩ := h
    rw [pathLength]
    by_cases hk : t.kind = .identifier
    · rw [pathTail_of_words [] rfl (hw hk)]
      simp
    · simp [hk]

/-- Joining takes as many words as it is told to. -/
theorem joined_words (ws rest : List Word) (name : String) (span : Span) (s : State)
    (h : s.words = ws ++ rest) :
    ∃ span', (joined ws.length name span s).1 = .ident (Word.spelled name ws) span' ∧
      (joined ws.length name span s).2.words = rest ∧
      ((joined ws.length name span s).2.Accepted ↔ s.Accepted) := by
  induction ws generalizing name span s with
  | nil => exact ⟨span, rfl, h, Iff.rfl⟩
  | cons w ws ih =>
    rw [List.length_cons, joined_succ]
    have hw : s.current.word = w := State.current_word h
    obtain ⟨span', he, hr, ha⟩ := ih (name ++ s.current.text) (span.merge s.current.span) s.next
      (by rw [State.words_next, h]; rfl)
    refine ⟨span', ?_, hr, ha.trans State.accepted_next⟩
    rw [he, ← hw]
    rfl

/-- Where a path is found, joining takes it. -/
theorem joined_pathLength {s : State} (h : pathLength s.cursor.ahead ≠ 0) (span : Span) :
    ∃ first second rest span',
      (joined (pathLength s.cursor.ahead) "" span s).1 =
        .ident (":".intercalate (first :: second :: rest)) span' ∧
      s.words = Word.path first (second :: rest) ++
        (joined (pathLength s.cursor.ahead) "" span s).2.words ∧
      ((joined (pathLength s.cursor.ahead) "" span s).2.Accepted ↔ s.Accepted) := by
  obtain ⟨first, second, rest, hw, hl⟩ := map_word_pathLength h
  have hlen : (Word.path first (second :: rest)).length = pathLength s.cursor.ahead := by
    rw [← hw, List.length_map, List.length_take, Nat.min_eq_left hl]
  have hs : s.words = Word.path first (second :: rest) ++
      (s.cursor.ahead.drop (pathLength s.cursor.ahead)).map Token.word := by
    rw [← hw, ← List.map_append, List.take_append_drop]
    rfl
  obtain ⟨span', he, hr, ha⟩ := joined_words _ _ "" span s hs
  rw [hlen] at he hr ha
  refine ⟨first, second, rest, span', ?_, by rw [hr]; exact hs, ha⟩
  rw [he, Word.spelled_path, String.empty_append]

end Parser
end TargetView
