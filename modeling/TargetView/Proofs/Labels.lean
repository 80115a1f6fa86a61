import TargetView.Proofs.Linking

/-! # Labels

A percent sign in a label may begin a conversion.  Doubled, it never does: a
text with every percent sign doubled is cut into its own characters
(`Template.pieces_doubled`), so it is a constant, and the step of a pass that
shows it is no more than that text (`Pass.label?_escaped`).  Hence a row can be
labelled with any text (`labels_shown_as_written`).
-/
namespace TargetView

variable {τ : Type}

/-! ## Texts with doubled percent signs -/

namespace Template

/-- Characters with every percent sign doubled. -/
def doubled (cs : List Char) : List Char :=
  cs.flatMap fun c => if c = '%' then ['%', '%'] else [c]

/-- A text with every percent sign doubled. -/
def escaped (s : String) : String := String.ofList (doubled s.toList)

theorem doubled_percent (cs : List Char) : doubled ('%' :: cs) = '%' :: '%' :: doubled cs := rfl

theorem doubled_cons {c : Char} (h : c ≠ '%') (cs : List Char) :
    doubled (c :: cs) = c :: doubled cs := by
  rw [doubled, List.flatMap_cons, if_neg h]
  rfl

/-- The piece that stands for one character of a text. -/
def Piece.ofChar (c : Char) : Piece := if c = '%' then percent else literal c

theorem pieces_literal {c : Char} (h : c ≠ '%') (cs : List Char) :
    pieces (c :: cs) = .literal c :: pieces cs := by
  rw [pieces.eq_def]
  split
  · next hcs => cases hcs
  · next hcs =>
    cases hcs
    exact absurd rfl h
  · next hcs =>
    cases hcs
    exact absurd rfl h
  · next hcs =>
    cases hcs
    rfl

theorem isFormat_cons {c : Char} (h : c ≠ '%') (cs : List Char) :
    isFormat (c :: cs) = isFormat cs := by
  rw [isFormat.eq_def]
  split
  · next hcs => cases hcs
  · next hcs =>
    cases hcs
    exact absurd rfl h
  · next hcs =>
    cases hcs
    rfl

/-- Every character of the text is a piece, and there are no conversions. -/
theorem pieces_doubled (cs : List Char) : pieces (doubled cs) = cs.map Piece.ofChar := by
  induction cs with
  | nil => rw [doubled, List.flatMap_nil, pieces, List.map_nil]
  | cons c cs ih =>
    by_cases hc : c = '%'
    · subst hc
      rw [doubled_percent, pieces, ih]
      rfl
    · rw [doubled_cons hc, pieces_literal hc, ih, List.map_cons, Piece.ofChar, if_neg hc]

/-- A text without a percent sign is left as it is. -/
theorem doubled_of_not_isFormat {cs : List Char} (h : isFormat (doubled cs) = false) :
    doubled cs = cs := by
  induction cs with
  | nil => rfl
  | cons c cs ih =>
    by_cases hc : c = '%'
    · subst hc
      rw [doubled_percent, isFormat] at h
      cases h
    · rw [doubled_cons hc, isFormat_cons hc] at h
      rw [doubled_cons hc, ih h]

theorem assemble_ofChar (cs : List Char) (offset : Nat) (literal : List Char) :
    assemble offset literal (cs.map Piece.ofChar) = (flush (cs.reverse ++ literal) [], []) := by
  induction cs generalizing offset literal with
  | nil => rfl
  | cons c cs ih =>
    rw [List.map_cons, List.reverse_cons, List.append_assoc, List.singleton_append, Piece.ofChar]
    by_cases hc : c = '%'
    · subst hc
      exact ih _ _
    · rw [if_neg hc]
      exact ih _ _

theorem constantText?_flush (literal : List Char) :
    constantText? (flush literal []) = some (String.ofList literal.reverse) := by
  cases literal with
  | nil => rfl
  | cons c cs => exact congrArg some (String.append_empty ..)

end Template

theorem parse_of_isFormat {text : String} (h : Template.isFormat text.toList = true) :
    parse text =
      let r := Template.ofChars text.toList
      let body := Body.template r.1 (.ofRange 0 (Lexer.width text.toList))
      ⟨text, body, r.2 ++ body.survey⟩ := by
  rw [parse]
  dsimp only
  rw [if_pos h]

/-- With its percent signs doubled, a format text is a constant: the text
itself. -/
theorem pureConstant?_escaped {s : String}
    (h : Template.isFormat (Template.escaped s).toList = true) :
    (parse (Template.escaped s)).body.pureConstant? = some (.text s) := by
  have hsegments : Template.constantText? (Template.ofChars (Template.escaped s).toList).1 =
      some s := by
    rw [Template.escaped, String.toList_ofList, Template.ofChars, Template.pieces_doubled,
      Template.assemble_ofChar, List.append_nil, Template.constantText?_flush,
      List.reverse_reverse, String.ofList_toList]
  rw [parse_of_isFormat h, Body.pureConstant?, Body.constant?, hsegments]
  rfl

/-! ## Showing constants -/

namespace Pass

variable (setting : Setting τ)

/-- A constant is evaluated without a step. -/
theorem value?_of_pureConstant? {f : Formula} {c : Scalar}
    (h : f.parsed.body.pureConstant? = some c) :
    value? setting f = pure (some (.scalar c)) := by
  have hattempt : Evaluation.attempt (host setting) none f.parsed = pure (some (.scalar c)) := by
    unfold Evaluation.attempt Evaluation.run
    rw [h]
    rfl
  unfold value?
  rw [hattempt]
  rfl

theorem text?_of_pureConstant? {f : Formula} {s : String}
    (h : f.parsed.body.pureConstant? = some (.text s)) :
    text? setting f = pure (some s) := by
  unfold text?
  rw [value?_of_pureConstant? setting h]
  rfl

/-- **A label with doubled percent signs is shown as the text that it stands
for**, and nothing is done to show it. -/
theorem label?_escaped {f : Formula} {s : String} (h : f.text = Template.escaped s) :
    label? setting f = pure (some s) := by
  unfold label? Formula.isTemplate
  rw [h]
  by_cases hf : Template.isFormat (Template.escaped s).toList = true
  · rw [if_pos hf]
    apply text?_of_pureConstant?
    rw [f.parsed_eq, h]
    exact pureConstant?_escaped hf
  · rw [if_neg hf]
    rw [Template.escaped, String.toList_ofList, Bool.not_eq_true] at hf
    rw [Template.escaped, Template.doubled_of_not_isFormat hf, String.ofList_toList]

theorem onFormula_escaped {d : Declaration} {name s : String}
    (h : d.attribute? name = some (Template.escaped s)) :
    onFormula (label? setting) (d.formula? name) = pure (some s) := by
  rw [Declaration.formula?, h]
  exact label?_escaped setting rfl

/-! ## Rows -/

/-- A row with a label and a value, above the rows of what is below it. -/
def row (label value : Pass τ (Option String)) (line : Nat) (below : Pass τ (List Row)) :
    Pass τ (List Row) := do
  let label ← label
  let value ← value
  let rows ← below
  return [⟨label.getD "", value, true, line, rows⟩]

theorem effect_row (id line : Nat) (d : Declaration) (kind : RowKind)
    (below : Pass τ (List Row)) :
    effect setting id line (d.statementOf kind.toStatementKind) below =
      row (onFormula (label? setting) (d.formula? "property"))
        (onFormula (label? setting) (d.formula? "value")) line below := by
  cases kind <;> rfl

variable {setting}

/-- A node whose condition holds has its effect. -/
theorem runNode_of_condition {id line : Nat} {statement : Statement} {condition? : Option Formula}
    {children : List StatementNode} {st st' : PassState τ}
    (hgoes : setting.target.isCancelled st.machine.target = false)
    (hcond : (condition setting condition?).run.run st = (.ok true, st')) :
    (runNode setting ⟨id, statement, line, condition?, children⟩).run.run st =
      (effect setting id line statement (runNodes setting children)).run.run st' := by
  have hcheck : (checkCancelled setting).run.run st = (.ok (), st) := by
    rw [run_checkCancelled, if_neg (by rw [hgoes]; exact Bool.false_ne_true)]
  rw [runNode, ExceptT.run_bind, StateT.run_bind, hcheck]
  change ((condition setting condition? >>= _).run).run st = _
  rw [ExceptT.run_bind, StateT.run_bind, hcond]
  rfl

end Pass

open Pass

/-- **Every text can be shown.**  Let the `property` or the `value` of an item
or a print be a text with every percent sign doubled, and let its condition
hold.  Then the row shows exactly that text, and all else goes on from the state
that the condition has left: showing it takes no step, on whatever host the
formulas are evaluated. -/
theorem labels_shown_as_written (setting : Setting τ) (d : Declaration) (kind : RowKind)
    (s : String) (id line : Nat) (condition? : Option Formula) (children : List StatementNode)
    (st st' : PassState τ) (hgoes : setting.target.isCancelled st.machine.target = false)
    (hcond : (condition setting condition?).run.run st = (.ok true, st')) :
    let node : StatementNode := ⟨id, d.statementOf kind.toStatementKind, line, condition?, children⟩
    (d.attribute? "property" = some (Template.escaped s) →
      (runNode setting node).run.run st =
        (row (pure (some s)) (onFormula (label? setting) (d.formula? "value")) line
          (runNodes setting children)).run.run st') ∧
    (d.attribute? "value" = some (Template.escaped s) →
      (runNode setting node).run.run st =
        (row (onFormula (label? setting) (d.formula? "property")) (pure (some s)) line
          (runNodes setting children)).run.run st') := by
  intro node
  have hrun : (runNode setting node).run.run st =
      (row (onFormula (label? setting) (d.formula? "property"))
        (onFormula (label? setting) (d.formula? "value")) line
        (runNodes setting children)).run.run st' := by
    rw [runNode_of_condition hgoes hcond, effect_row]
  constructor
  · intro h
    rw [hrun, onFormula_escaped setting h]
  · intro h
    rw [hrun, onFormula_escaped setting h]

/-- A percentage is shown with one percent sign, in front of what looks like a
conversion. -/
theorem labels_shown_as_written_percentage :
    let setting : Setting Unit := { target :=
      { read := fun _ _ => pure none
        setVariable := fun _ _ _ => pure ()
        clearVariables := pure ()
        readRegister := fun _ => pure none
        writeRegister := fun _ _ => pure false } }
    let d : Declaration :=
      { tag := "item", line := 1, attributes := [("property", "50%%d[x]")] }
    let condition? : Option Formula := some (.ofText "1")
    let st : PassState Unit := { machine := { target := () }, memo := {} }
    d.attribute? "property" = some (Template.escaped "50%d[x]") ∧
      setting.target.isCancelled st.machine.target = false ∧
      (condition setting condition?).run.run st = (.ok true, st) ∧
      (runNode setting ⟨0, d.statementOf RowKind.item.toStatementKind, 1, condition?, []⟩).run.run
          st =
        (.ok [⟨"50%d[x]", none, true, 1, []⟩], st) := by
  intro setting d condition? st
  have hd : d.attribute? "property" = some (Template.escaped "50%d[x]") := by decide
  have hcond : (condition setting condition?).run.run st = (.ok true, st) := by
    have hone : (Formula.ofText "1").parsed.body.pureConstant? = some (.number 1) := by
      decide +kernel
    have hholds : holds setting (.ofText "1") = pure true := by
      rw [holds, value?_of_pureConstant? setting hone]
      rfl
    exact congrFun hholds st
  have hnone : d.formula? "value" = none := by decide
  refine ⟨hd, rfl, hcond, ?_⟩
  rw [(labels_shown_as_written setting d .item "50%d[x]" 0 1 condition? [] st st rfl hcond).1 hd,
    hnone, runNodes]
  rfl

end TargetView
