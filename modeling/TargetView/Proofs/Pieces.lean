import Mathlib.Data.List.Chain
import TargetView.Proofs.Labels
import TargetView.Proofs.Scanning

/-! # The pieces of a format text

A text is cut into pieces from left to right (`Template.Cut`): at a place where
a doubled percent sign or a conversion begins (`Template.Begins`) that is a
piece, and otherwise the next character is.  A conversion that is closed ends
with the first bracket that matches; one that is not takes all that is left.  So
nothing of the text is lost, and it is a format text exactly if not all of its
pieces are literal characters.

The segments hold the characters and the expressions of the pieces, in their
order (`Template.items_assemble`), and the findings are those of the pieces.
-/
namespace TargetView.Template

variable {spec : Conversion} {blanks body inner cs : List Char} {ps : List Piece}

/-! ## Where pieces begin -/

/-- The characters begin with two percent signs, or with a percent sign, a
conversion letter, any number of blanks and an opening bracket. -/
def Begins (cs : List Char) : Prop :=
  (∃ rest, cs = '%' :: '%' :: rest) ∨
    ∃ spec blanks body, (∀ c ∈ blanks, Text.isBlank c = true) ∧
      cs = Piece.opener spec blanks ++ body

theorem opener?_of_blanks (hb : ∀ c ∈ blanks, Text.isBlank c = true) (body : List Char) :
    opener? (spec.letter :: blanks ++ '[' :: body) = some (spec, blanks, body) := by
  have hdrop : (blanks ++ '[' :: body).dropWhile opener?.isGap = '[' :: body :=
    List.dropWhile_append_of_pos hb
  have htake : (blanks ++ '[' :: body).takeWhile opener?.isGap = blanks :=
    (List.takeWhile_append_of_pos hb).trans (List.append_nil blanks)
  rw [List.cons_append, opener?, Conversion.ofLetter?_letter]
  dsimp only [Option.bind_some]
  rw [hdrop, htake]
  rfl

theorem opener?_eq_some (h : opener? cs = some (spec, blanks, body)) :
    (∀ c ∈ blanks, Text.isBlank c = true) ∧ '%' :: cs = Piece.opener spec blanks ++ body := by
  cases cs with
  | nil => cases h
  | cons letter rest =>
    obtain ⟨spec', hletter, h⟩ := Option.bind_eq_some_iff.mp h
    have hfound : spec'.letter = letter := by simpa using List.find?_some hletter
    split at h
    · next hd =>
      obtain ⟨rfl, rfl, rfl⟩ := by simpa only [Option.some.injEq, Prod.mk.injEq] using h
      refine ⟨fun c hc => ?_, ?_⟩
      · exact List.all_eq_true.mp (List.all_takeWhile (p := opener?.isGap)) c hc
      · rw [Piece.opener, hfound]
        simp only [List.cons_append, List.append_assoc, List.nil_append]
        rw [← hd, List.takeWhile_append_dropWhile]
    · cases h

theorem letter_ne_percent (spec : Conversion) : spec.letter ≠ '%' := by
  cases spec <;> decide

theorem isSome_opener?_iff (cs : List Char) : (opener? cs).isSome = true ↔
    ∃ spec blanks body, (∀ c ∈ blanks, Text.isBlank c = true) ∧
      '%' :: cs = Piece.opener spec blanks ++ body := by
  constructor
  · intro h
    obtain ⟨⟨spec, blanks, body⟩, h⟩ := Option.isSome_iff_exists.mp h
    exact ⟨spec, blanks, body, opener?_eq_some h⟩
  · rintro ⟨spec, blanks, body, hb, h⟩
    have hcs : cs = spec.letter :: blanks ++ '[' :: body := by
      simpa [Piece.opener] using h
    rw [hcs, opener?_of_blanks hb]
    rfl

theorem begins_percent (cs : List Char) :
    Begins ('%' :: cs) ↔ cs.head? = some '%' ∨ (opener? cs).isSome = true := by
  rw [isSome_opener?_iff]
  refine or_congr ⟨?_, fun h => ?_⟩ Iff.rfl
  · rintro ⟨rest, h⟩
    rw [(List.cons.inj h).2]
    rfl
  · obtain ⟨rest, rfl⟩ := List.head?_eq_some_iff.mp h
    exact ⟨rest, rfl⟩

theorem not_begins {c : Char} (hc : c ≠ '%') (cs : List Char) : ¬Begins (c :: cs) := by
  rintro (⟨rest, h⟩ | ⟨spec, blanks, body, -, h⟩)
  · exact hc (List.cons.inj h).1
  · exact hc (List.cons.inj h).1

theorem not_begins_nil : ¬Begins [] := by
  rintro (⟨rest, h⟩ | ⟨spec, blanks, body, -, h⟩) <;> cases h

/-- **A format text is one in which a doubled percent sign or a conversion begins
somewhere.** -/
theorem isFormat_iff (cs : List Char) :
    isFormat cs = true ↔ ∃ before after, cs = before ++ after ∧ Begins after := by
  induction cs with
  | nil =>
    refine ⟨nofun, ?_⟩
    rintro ⟨before, after, h, hafter⟩
    obtain ⟨-, rfl⟩ := List.nil_eq_append_iff.mp h
    exact absurd hafter not_begins_nil
  | cons c cs ih =>
    have hsplit : (∃ before after, c :: cs = before ++ after ∧ Begins after) ↔
        Begins (c :: cs) ∨ ∃ before after, cs = before ++ after ∧ Begins after := by
      constructor
      · rintro ⟨before, after, h, hafter⟩
        cases before with
        | nil => exact .inl (h ▸ hafter)
        | cons d before => exact .inr ⟨before, after, (List.cons.inj h).2, hafter⟩
      · rintro (h | ⟨before, after, rfl, hafter⟩)
        · exact ⟨[], _, rfl, h⟩
        · exact ⟨c :: before, after, rfl, hafter⟩
    rw [hsplit]
    by_cases hc : c = '%'
    · subst hc
      rw [begins_percent, isFormat, Bool.or_eq_true, Bool.or_eq_true, ih, beq_iff_eq]
    · rw [isFormat_cons hc, ih]
      exact ⟨.inr, fun h => h.resolve_left (not_begins hc cs)⟩

/-! ## Closing brackets -/

theorem bracketEnd_lt {state : QuoteState} {depth n : Nat}
    (h : bracketEnd state depth cs = some n) : n < cs.length := by
  rw [bracketEnd_eq] at h
  have hlt := closing?_lt h
  rwa [QuoteState.length_unquoted] at hlt

/-- The scan stops at a character or goes on behind it, whatever follows. -/
theorem bracketEnd_cons (state : QuoteState) (depth : Nat) (c : Char) :
    (c = ']' ∧ ∀ rest, bracketEnd state depth (c :: rest) = some 0) ∨
      ∃ depth', ∀ rest, bracketEnd state depth (c :: rest) =
        (bracketEnd (state.step c) depth' rest).map (· + 1) := by
  by_cases hclose : (state.isOutside && c == ']') = true
  · cases depth with
    | zero =>
      refine .inl ⟨eq_of_beq (Bool.and_eq_true_iff.mp hclose).2, fun rest => ?_⟩
      rw [bracketEnd.eq_def]
      exact if_pos hclose
    | succ depth =>
      refine .inr ⟨depth, fun rest => ?_⟩
      rw [bracketEnd.eq_def]
      exact if_pos hclose
  · by_cases hopen : (state.isOutside && c == '[') = true
    · refine .inr ⟨depth + 1, fun rest => ?_⟩
      rw [bracketEnd.eq_def]
      exact (if_neg hclose).trans (if_pos hopen)
    · refine .inr ⟨depth, fun rest => ?_⟩
      rw [bracketEnd.eq_def]
      exact (if_neg hclose).trans (if_neg hopen)

/-- A bracket that is found is found in front of whatever follows. -/
theorem bracketEnd_append {state : QuoteState} {depth n : Nat}
    (h : bracketEnd state depth cs = some n) (more : List Char) :
    bracketEnd state depth (cs ++ more) = some n := by
  induction cs generalizing state depth n with
  | nil => cases h
  | cons c rest ih =>
    rcases bracketEnd_cons state depth c with ⟨-, hstop⟩ | ⟨depth', hscan⟩
    · exact (hstop (rest ++ more)).trans ((hstop rest).symm.trans h)
    · obtain ⟨m, hm, rfl⟩ := Option.map_eq_some_iff.mp ((hscan rest).symm.trans h)
      rw [List.cons_append, hscan, ih hm]
      rfl

/-- The bracket that is found closes what stands before it. -/
theorem bracketEnd_split {state : QuoteState} {depth n : Nat}
    (h : bracketEnd state depth cs = some n) :
    cs = cs.take n ++ ']' :: cs.drop (n + 1) ∧
      bracketEnd state depth (cs.take n ++ [']']) = some n := by
  induction cs generalizing state depth n with
  | nil => cases h
  | cons c rest ih =>
    rcases bracketEnd_cons state depth c with ⟨rfl, hstop⟩ | ⟨depth', hscan⟩
    · obtain rfl := Option.some.inj ((hstop rest).symm.trans h)
      exact ⟨rfl, hstop []⟩
    · obtain ⟨m, hm, rfl⟩ := Option.map_eq_some_iff.mp ((hscan rest).symm.trans h)
      obtain ⟨hsplit, hend⟩ := ih hm
      refine ⟨congrArg (c :: ·) hsplit, ?_⟩
      rw [List.take_succ_cons, List.cons_append, hscan, hend]
      rfl

/-! ## Cutting -/

/-- The text is cut into the pieces. -/
inductive Cut : List Char → List Piece → Prop
  | nil : Cut [] []
  | literal {c : Char} {rest : List Char} {ps : List Piece} (hc : ¬Begins (c :: rest))
      (h : Cut rest ps) : Cut (c :: rest) (.literal c :: ps)
  | percent {rest : List Char} {ps : List Piece} (h : Cut rest ps) :
      Cut ('%' :: '%' :: rest) (.percent :: ps)
  | closed {spec : Conversion} {blanks inner rest : List Char} {ps : List Piece}
      (hb : ∀ c ∈ blanks, Text.isBlank c = true)
      (hclose : bracketEnd .outside 0 (inner ++ [']']) = some inner.length) (h : Cut rest ps) :
      Cut (Piece.opener spec blanks ++ inner ++ [']'] ++ rest)
        (.conversion spec blanks inner true :: ps)
  | open {spec : Conversion} {blanks inner : List Char}
      (hb : ∀ c ∈ blanks, Text.isBlank c = true) (hclose : bracketEnd .outside 0 inner = none) :
      Cut (Piece.opener spec blanks ++ inner) [.conversion spec blanks inner false]

/-- **Every text is cut into its pieces.** -/
theorem cut_pieces (cs : List Char) : Cut cs (pieces cs) := by
  fun_induction Template.pieces cs with
  | case1 => exact .nil
  | case2 rest ih => exact .percent ih
  | case3 rest _ spec blanks body hopener n hn ih =>
    obtain ⟨hb, hcs⟩ := opener?_eq_some hopener
    obtain ⟨hbody, hclose⟩ := bracketEnd_split hn
    have hlength : (body.take n).length = n :=
      List.length_take_of_le (Nat.le_of_lt (bracketEnd_lt hn))
    rw [hcs]
    have htext : Piece.opener spec blanks ++ body =
        Piece.opener spec blanks ++ body.take n ++ [']'] ++ body.drop (n + 1) := by
      rw [List.append_assoc, List.append_assoc]
      exact congrArg (Piece.opener spec blanks ++ ·) hbody
    rw [htext]
    exact .closed hb (by rw [hlength]; exact hclose) ih
  | case4 rest _ spec blanks body hopener hn =>
    obtain ⟨hb, hcs⟩ := opener?_eq_some hopener
    rw [hcs]
    exact .open hb hn
  | case5 rest hpercent hopener ih =>
    refine .literal (fun hbegins => ?_) ih
    rcases (begins_percent rest).mp hbegins with hhead | hsome
    · obtain ⟨rest', rfl⟩ := List.head?_eq_some_iff.mp hhead
      exact hpercent rest' rfl
    · rw [hopener] at hsome
      cases hsome
  | case6 c rest _ hc ih => exact .literal (not_begins (fun h => hc h) rest) ih

theorem pieces_opener (hb : ∀ c ∈ blanks, Text.isBlank c = true) (body : List Char) :
    pieces (Piece.opener spec blanks ++ body) =
      match bracketEnd .outside 0 body with
      | some n => .conversion spec blanks (body.take n) true :: pieces (body.drop (n + 1))
      | none => [.conversion spec blanks body false] := by
  have hopener : opener? (spec.letter :: blanks ++ '[' :: body) = some (spec, blanks, body) :=
    opener?_of_blanks hb body
  have htext : Piece.opener spec blanks ++ body =
      '%' :: (spec.letter :: blanks ++ '[' :: body) := by
    simp [Piece.opener]
  rw [htext, pieces]
  · split
    · next h =>
      obtain ⟨rfl, rfl, rfl⟩ := by
        simpa only [Option.some.injEq, Prod.mk.injEq] using hopener.symm.trans h
      cases bracketEnd .outside 0 body <;> rfl
    · next h => exact absurd (hopener.symm.trans h) (Option.some_ne_none _)
  · exact fun rest h => letter_ne_percent spec (List.cons.inj h).1

/-- There is no other way to cut a text. -/
theorem Cut.eq_pieces (h : Cut cs ps) : pieces cs = ps := by
  induction h with
  | nil => rw [pieces]
  | @literal c rest ps hc _ ih =>
    by_cases hpercent : c = '%'
    · subst hpercent
      rw [begins_percent, not_or] at hc
      rw [pieces]
      · split
        · next h =>
          rw [h] at hc
          exact absurd rfl hc.2
        · rw [ih]
      · rintro rest' rfl
        exact hc.1 rfl
    · rw [pieces_literal hpercent, ih]
  | percent _ ih => rw [pieces, ih]
  | @closed spec blanks inner rest ps hb hclose _ ih =>
    have hend := bracketEnd_append hclose rest
    rw [List.append_assoc, List.append_assoc, pieces_opener hb, ← List.append_assoc, hend]
    dsimp only
    have htake : (inner ++ [']'] ++ rest).take inner.length = inner := by
      rw [List.append_assoc, List.take_left]
    have hdrop : (inner ++ [']'] ++ rest).drop (inner.length + 1) = rest := by
      have hlength : inner.length + 1 = (inner ++ [']']).length := by simp
      rw [hlength, List.drop_left]
    rw [htake, hdrop, ih]
  | «open» hb hclose => rw [pieces_opener hb, hclose]

/-- A piece ends before the text does. -/
def Piece.isClosed : Piece → Bool
  | literal _ | percent => true
  | conversion _ _ _ closed => closed

namespace Cut

/-- Nothing of the text is lost. -/
theorem flatMap_source (h : Cut cs ps) : ps.flatMap Piece.source = cs := by
  induction h with
  | nil => rfl
  | literal _ _ ih => exact congrArg (_ :: ·) ih
  | percent _ ih => exact congrArg ('%' :: '%' :: ·) ih
  | closed _ _ _ ih => exact congrArg (_ ++ ·) ih
  | «open» => exact (List.append_nil _).trans (List.append_nil _)

/-- What is known of a conversion. -/
theorem conversion (h : Cut cs ps) {closed : Bool}
    (hmem : .conversion spec blanks inner closed ∈ ps) :
    (∀ c ∈ blanks, Text.isBlank c = true) ∧
      (closed = true → bracketEnd .outside 0 (inner ++ [']']) = some inner.length) ∧
      (closed = false → bracketEnd .outside 0 inner = none) := by
  induction h with
  | nil => cases hmem
  | literal _ _ ih | percent _ ih =>
    rcases List.mem_cons.mp hmem with hmem | hmem
    · cases hmem
    · exact ih hmem
  | closed hb hclose _ ih =>
    rcases List.mem_cons.mp hmem with hmem | hmem
    · cases hmem
      exact ⟨hb, fun _ => hclose, nofun⟩
    · exact ih hmem
  | «open» hb hclose =>
    cases List.mem_singleton.mp hmem
    exact ⟨hb, nofun, fun _ => hclose⟩

/-- Only the last piece may be left open. -/
theorem isClosed (h : Cut cs ps) {before after : List Piece} {piece : Piece}
    (hps : ps = before ++ piece :: after) (hafter : after ≠ []) : piece.isClosed = true := by
  induction h generalizing before with
  | nil => simp at hps
  | literal _ _ ih | percent _ ih | closed _ _ _ ih =>
    cases before with
    | nil =>
      obtain ⟨rfl, -⟩ := List.cons.inj hps
      rfl
    | cons first before => exact ih (List.cons.inj hps).2
  | «open» =>
    cases before with
    | nil => exact absurd (List.cons.inj hps).2.symm hafter
    | cons first before => exact absurd (List.cons.inj hps).2 (by simp)

/-- Where nothing begins, all pieces are literal characters. -/
theorem eq_literals (h : Cut cs ps) (hformat : isFormat cs = false) : ps = cs.map .literal := by
  have hnone : ∀ before after, cs = before ++ after → ¬Begins after := by
    intro before after hcs hafter
    rw [(isFormat_iff cs).mpr ⟨before, after, hcs, hafter⟩] at hformat
    cases hformat
  clear hformat
  induction h with
  | nil => rfl
  | literal _ _ ih =>
    exact congrArg (_ :: ·) (ih fun before after hcs =>
      hnone (_ :: before) after (congrArg (_ :: ·) hcs))
  | percent _ _ => exact absurd (.inl ⟨_, rfl⟩) (hnone [] _ rfl)
  | @closed spec blanks inner rest _ hb _ _ _ =>
    refine absurd (.inr ⟨spec, blanks, inner ++ ([']'] ++ rest), hb, ?_⟩) (hnone [] _ rfl)
    show Piece.opener spec blanks ++ inner ++ [']'] ++ rest = _
    rw [List.append_assoc, List.append_assoc]
  | «open» hb _ => exact absurd (.inr ⟨_, _, _, hb, rfl⟩) (hnone [] _ rfl)

/-- If all pieces are literal characters, nothing begins. -/
theorem isFormat_eq_false (h : Cut cs ps) (hps : ps = cs.map .literal) : isFormat cs = false := by
  induction h with
  | nil => rfl
  | @literal c rest ps hc h ih =>
    have ih := ih (List.cons.inj hps).2
    by_cases hpercent : c = '%'
    · subst hpercent
      rw [begins_percent, not_or] at hc
      rw [isFormat, ih, Bool.or_false, Bool.or_eq_false_iff]
      exact ⟨beq_eq_false_iff_ne.mpr hc.1, Bool.eq_false_iff.mpr hc.2⟩
    · rw [isFormat_cons hpercent, ih]
  | percent _ _ => cases (List.cons.inj hps).1
  | closed _ _ _ _ => cases (List.cons.inj hps).1
  | «open» _ _ => cases (List.cons.inj hps).1

end Cut

end Template

/-! ## What pieces contribute -/

/-- What a text shows at one place: a character, or the value of an expression. -/
inductive Item where
  | char (c : Char)
  | value (spec : Conversion) (e : Expr)

namespace Segment

/-- The contents of a segment. -/
def items : Segment → List Item
  | text s => s.toList.map .char
  | format spec e => [.value spec e]

/-- Whether the segment is text that is shown as it is. -/
def isText : Segment → Bool
  | text _ => true
  | format .. => false

end Segment

namespace Template

variable {ps : List Piece}

/-- The pieces with the byte offsets at which they start. -/
def located (offset : Nat) : List Piece → List (Nat × Piece)
  | [] => []
  | piece :: rest => (offset, piece) :: located (offset + Lexer.width piece.source) rest

namespace Piece

/-- The byte offset behind the opening bracket of a conversion at a byte offset. -/
def base (offset : Nat) (spec : Conversion) (blanks : List Char) : Nat :=
  offset + Lexer.width (opener spec blanks)

/-- What a piece at a byte offset contributes to the text. -/
def item (offset : Nat) : Piece → Item
  | literal c => .char c
  | percent => .char '%'
  | conversion spec blanks inner _ =>
    .value spec (parseAt inner (min (base offset spec blanks) Span.limit)).1

/-- The finding about a conversion at a byte offset that is left open. -/
def unterminated (offset : Nat) : Piece → List Diagnostic
  | conversion spec blanks _ false =>
    [.unterminatedFormat (.ofRange offset (base offset spec blanks)) spec.display]
  | literal _ | percent | conversion _ _ _ true => []

/-- The findings about a piece at a byte offset. -/
def findings (offset : Nat) (piece : Piece) : List Diagnostic :=
  piece.unterminated offset ++
    match piece with
    | literal _ | percent => []
    | conversion spec blanks inner _ =>
      (parseAt inner (min (base offset spec blanks) Span.limit)).2

end Piece

theorem items_flush (literal : List Char) (segments : List Segment) :
    (flush literal segments).flatMap Segment.items =
      literal.reverse.map .char ++ segments.flatMap Segment.items := by
  unfold flush
  split
  · next h =>
    rw [List.isEmpty_iff.mp h]
    rfl
  · rw [List.flatMap_cons, Segment.items, String.toList_ofList]

/-- **The segments hold what the pieces contribute**, in their order. -/
theorem items_assemble (ps : List Piece) (offset : Nat) (literal : List Char) :
    (assemble offset literal ps).1.flatMap Segment.items =
      literal.reverse.map .char ++ (located offset ps).map fun p => p.2.item p.1 := by
  induction ps generalizing offset literal with
  | nil => rw [assemble, items_flush]; rfl
  | cons piece rest ih =>
    rw [located, List.map_cons]
    cases piece with
    | literal c =>
      rw [assemble, ih, List.reverse_cons, List.map_append, List.append_assoc]
      rfl
    | percent =>
      rw [assemble, ih, List.reverse_cons, List.map_append, List.append_assoc]
      rfl
    | conversion spec blanks inner closed =>
      rw [assemble]
      dsimp only
      rw [items_flush, List.flatMap_cons, ih]
      rfl

/-- The findings are those about the pieces. -/
theorem findings_assemble (ps : List Piece) (offset : Nat) (literal : List Char) :
    (assemble offset literal ps).2 = (located offset ps).flatMap fun p => p.2.findings p.1 := by
  induction ps generalizing offset literal with
  | nil => rw [assemble]; rfl
  | cons piece rest ih =>
    rw [located, List.flatMap_cons]
    cases piece with
    | literal c => rw [assemble, ih]; rfl
    | percent => rw [assemble, ih]; rfl
    | conversion spec blanks inner closed =>
      rw [assemble]
      dsimp only
      rw [ih]
      cases closed <;> rfl

/-! ## Where segments are divided -/

/-- No text segment is empty, and there is a conversion between any two. -/
def Divided (segments : List Segment) : Prop :=
  (∀ s, .text s ∈ segments → s ≠ "") ∧ segments.IsChain fun a b => (a.isText && b.isText) = false

theorem divided_flush {literal : List Char} {segments : List Segment} (h : Divided segments)
    (hhead : ∀ first ∈ segments.head?, first.isText = false) :
    Divided (flush literal segments) := by
  unfold flush
  split
  · exact h
  · next hne =>
    refine ⟨fun s hs => ?_, ?_⟩
    · rcases List.mem_cons.mp hs with hs | hs
      · rw [(Segment.text.inj hs)]
        intro hempty
        have hnil : literal.reverse = [] :=
          String.toList_ofList.symm.trans (congrArg String.toList hempty)
        exact hne (List.isEmpty_iff.mpr (List.reverse_eq_nil_iff.mp hnil))
      · exact h.1 s hs
    · cases segments with
      | nil => exact .singleton _
      | cons first rest => exact .cons_cons (hhead first rfl) h.2

theorem divided_assemble (ps : List Piece) (offset : Nat) (literal : List Char) :
    Divided (assemble offset literal ps).1 := by
  induction ps generalizing offset literal with
  | nil => exact divided_flush ⟨nofun, .nil⟩ nofun
  | cons piece rest ih =>
    cases piece with
    | literal c => exact ih _ _
    | percent => exact ih _ _
    | conversion spec blanks inner closed =>
      refine divided_flush ⟨fun s hs => ?_, ?_⟩ fun first hfirst => ?_
      · exact (ih _ _).1 s ((List.mem_cons.mp hs).resolve_left nofun)
      · have hrest := (ih (offset + Lexer.width (Piece.conversion spec blanks inner closed).source)
          []).2
        generalize (assemble _ [] rest).1 = segments at hrest
        cases segments with
        | nil => exact .singleton _
        | cons second more => exact .cons_cons rfl hrest
      · obtain rfl := Option.some.inj hfirst
        rfl

end Template
end TargetView
