import TargetView.Proofs.Snapshot

/-! # Breakpoints do not show

A breakpoint without a condition does nothing but that its line is reported.
So a pass over a tree to which breakpoints have been added comes to the same as
the pass over the tree itself (`breakpoints_transparent`): the same rows, the
same machine, the same calls of the target, the same that is kept for the next
pass; and of the breakpoints reached, those of the tree itself are still there,
in the same order.

There is one thing a breakpoint does see, as every node does: that the pass is
cancelled.  Hence the pass must not be cancelled.
-/
namespace TargetView

/-- A breakpoint with no condition and nothing below it. -/
structure StatementNode.IsPlainBreak (n : StatementNode) : Prop where
  isBreak : n.isBreak = true
  condition : n.condition? = none
  children : n.children = []

theorem StatementTree.alike_insertBreak {ids : Nat → Nat → Prop} (hids : ∀ id, ids id id)
    {t : StatementTree} (ht : t.Ordered) {d : Declaration} (hd : d.attribute? "cond" = none) :
    t.Alike ids StatementNode.IsPlainBreak (t.insertBreak d) := by
  rw [insertBreak]
  split
  · obtain ⟨_ | root⟩ := t
    · exact .none
    · refine .some (StatementNode.alike_insertBreak hids ⟨rfl, ?_, rfl⟩ root (ht root rfl))
      exact congrArg (Option.map _) hd
  · exact .refl hids t

namespace Pass

variable {τ : Type}

/-- The link between a pass and one with more breakpoints. -/
def breakLink : Link τ τ where
  machines := Eq
  memos := Eq
  breaks := List.Sublist
  ids := Eq

theorem breakLink_sound (setting : Setting τ) : breakLink.Sound setting setting where
  toMachineSteps := .refl setting
  toMemoSteps := .refl
  reach line h := h.cons_cons line

/-- A pass that was cancelled is no pass to compare with. -/
def CancelledIn (setting : Setting τ) (e : Abort) (s : PassState τ) : Prop :=
  e = .cancelled ∧ setting.target.isCancelled s.machine.target = true

/-- A breakpoint leaves no row, and it reports its line, unless the pass is
cancelled. -/
theorem run_plainBreak (setting : Setting τ) {b : StatementNode} (hb : b.IsPlainBreak)
    (s : PassState τ) :
    (runNode setting b).run.run s =
      if setting.target.isCancelled s.machine.target then (.error .cancelled, s)
      else (.ok [], { s with breaks := b.line :: s.breaks }) := by
  obtain ⟨id, statement, line, condition?, children⟩ := b
  obtain ⟨hbreak, rfl, rfl⟩ := hb
  cases statement with
  | breakpoint label? =>
    rw [runNode, ExceptT.run_bind, StateT.run_bind, run_checkCancelled]
    split
    · rfl
    · rw [runNodes]
      rfl
  | group | var | «calc» | read | readList | list | row => cases hbreak

theorem couples_plainBreak (setting : Setting τ) {b : StatementNode} (hb : b.IsPlainBreak) :
    (breakLink.coupling (CancelledIn setting)).Couples (pure []) (runNode setting b) := by
  intro s t hst
  rw [run_plainBreak setting hb t]
  by_cases hc : setting.target.isCancelled t.machine.target = true
  · rw [if_pos hc]
    exact .inl ⟨.cancelled, t, rfl, rfl, hc⟩
  · rw [if_neg hc]
    exact .inr ⟨rfl, hst.machine, hst.memo, hst.breaks.cons b.line, hst.disabled⟩

end Pass

/-! ## Executions -/

variable {τ : Type}

/-- Two executions came to the same, but for the breakpoints reached: those of
the first are among those of the second, in the same order. -/
structure SameButBreaks (x y : Except Abort Report × View × Machine τ) : Prop where
  outcome : SameOutcome List.Sublist x.1 y.1
  memo : y.2.1.memo = x.2.1.memo
  machine : y.2.2 = x.2.2

theorem SameOutcome.refl_sublist (x : Except Abort Report) : SameOutcome List.Sublist x x := by
  cases x with
  | error e => exact .error e
  | ok r => exact .ok (.refl r.breaks)

theorem SameOutcome.trans_sublist {x y z : Except Abort Report}
    (hxy : SameOutcome List.Sublist x y) (hyz : SameOutcome List.Sublist y z) :
    SameOutcome List.Sublist x z := by
  cases hxy with
  | error e => exact hyz
  | ok hb =>
    cases hyz with
    | ok hb' => exact .ok (hb.trans hb')

namespace SameButBreaks

theorem refl (x : Except Abort Report × View × Machine τ) : SameButBreaks x x :=
  ⟨.refl_sublist x.1, rfl, rfl⟩

theorem trans {x y z : Except Abort Report × View × Machine τ} (hxy : SameButBreaks x y)
    (hyz : SameButBreaks y z) : SameButBreaks x z :=
  ⟨hxy.outcome.trans_sublist hyz.outcome, hyz.memo.trans hxy.memo, hyz.machine.trans hxy.machine⟩

end SameButBreaks

namespace View

variable (setting : Setting τ) (memo : Memo) (machine : Machine τ)

theorem execute_insertBreak {tree : StatementTree} (htree : tree.Ordered) {d : Declaration}
    (hd : d.attribute? "cond" = none)
    (hcancelled : setting.target.isCancelled
      ((View.mk (tree.insertBreak d) memo).execute setting machine).2.2.target = false) :
    SameButBreaks ((View.mk tree memo).execute setting machine)
      ((View.mk (tree.insertBreak d) memo).execute setting machine) := by
  have hlinked := Pass.execute_linked (m := machine) (Pass.breakLink_sound setting)
    (fun _ => Pass.couples_plainBreak setting)
    (StatementTree.alike_insertBreak (fun _ => rfl) htree hd) (Eq.refl memo) .slnil rfl
  rcases hlinked with ⟨e, t, ht, -, hc⟩ | h
  · rw [ht, hc] at hcancelled
    cases hcancelled
  · exact ⟨h.outcome.imp fun _ _ => List.reverse_sublist.mp, h.memo.symm, h.machine.symm⟩

/-- The breakpoints are added one by one; the tree that has all but the last
ones is not cancelled either, as the machine ends in the same state. -/
theorem execute_insertBreaks {breaks : List Declaration}
    (hcond : ∀ d ∈ breaks, d.attribute? "cond" = none) {tree : StatementTree}
    (htree : tree.Ordered)
    (hcancelled : setting.target.isCancelled
      ((View.mk (tree.insertBreaks breaks) memo).execute setting machine).2.2.target = false) :
    SameButBreaks ((View.mk tree memo).execute setting machine)
      ((View.mk (tree.insertBreaks breaks) memo).execute setting machine) := by
  induction breaks generalizing tree with
  | nil => exact .refl _
  | cons d breaks ih =>
    obtain ⟨hd, hrest⟩ := List.forall_mem_cons.mp hcond
    have hbelow := ih hrest (StatementTree.ordered_insertBreak htree d) hcancelled
    have hcancelled' : setting.target.isCancelled
        ((View.mk (tree.insertBreak d) memo).execute setting machine).2.2.target = false := by
      rw [← hbelow.machine]
      exact hcancelled
    exact (execute_insertBreak setting memo machine htree hd hcancelled').trans hbelow

end View

/-- **Breakpoints are transparent.**  Breakpoints without a condition are added
to any tree of a description, which may have others already.  Unless the pass
over the new tree is cancelled, it comes to the same as the one over the old
tree, but for the breakpoints reached, and makes the same calls of the
target. -/
theorem breakpoints_transparent (t : Target τ) (config : Config) (formatter : Formatter)
    (d : Declaration) (earlier breaks : List Declaration) (memo : Memo) (machine : Machine τ)
    (hcond : ∀ b ∈ breaks, b.attribute? "cond" = none)
    (hcancelled :
      let view : View := ⟨(StatementTree.ofDeclaration d).insertBreaks earlier, memo⟩
      t.isCancelled ((view.insertBreaks breaks).execute
        { target := t, config, formatter } machine).2.2.target = false) :
    let view : View := ⟨(StatementTree.ofDeclaration d).insertBreaks earlier, memo⟩
    SameButBreaks (view.execute { target := t, config, formatter } machine)
        ((view.insertBreaks breaks).execute { target := t, config, formatter } machine) ∧
      (view.insertBreaks breaks).events t config formatter machine =
        view.events t config formatter machine := by
  intro view
  have htree : view.tree.Ordered :=
    StatementTree.ordered_insertBreaks (StatementTree.ordered_ofDeclaration d) earlier
  -- The recorded pass ends in the same state of the target, so it is not cancelled either.
  have hrecorded : (Setting.recorded t config formatter).target.isCancelled
      ((view.insertBreaks breaks).execute (.recorded t config formatter)
        machine.recorded).2.2.target = false := by
    rw [(execute_recorded t config formatter (view.insertBreaks breaks) machine).2]
    exact hcancelled
  have hsame := View.execute_insertBreaks (.recorded t config formatter) memo machine.recorded
    hcond htree hrecorded
  exact ⟨View.execute_insertBreaks _ memo machine hcond htree hcancelled,
    congrArg (fun m => m.target.events) hsame.machine⟩

/-- A breakpoint goes between two rows of a group. -/
theorem breakpoints_transparent_group :
    let t : Target Unit :=
      { read := fun _ _ => pure none
        setVariable := fun _ _ _ => pure ()
        clearVariables := pure ()
        readRegister := fun _ => pure none
        writeRegister := fun _ _ => pure false }
    let d : Declaration :=
      { tag := "object", line := 1,
        children := [{ tag := "item", line := 2 }, { tag := "item", line := 4 }] }
    let breaks : List Declaration := [{ tag := "break", line := 3 }]
    let view : View := ⟨(StatementTree.ofDeclaration d).insertBreaks [], {}⟩
    (∀ b ∈ breaks, b.attribute? "cond" = none) ∧
      t.isCancelled
        ((view.insertBreaks breaks).execute { target := t } { target := () }).2.2.target = false ∧
      SameButBreaks (view.execute { target := t } { target := () })
        ((view.insertBreaks breaks).execute { target := t } { target := () }) := by
  intro t d breaks view
  have hcond : ∀ b ∈ breaks, b.attribute? "cond" = none := by decide
  exact ⟨hcond, rfl,
    (breakpoints_transparent t {} (fun _ _ => none) d [] breaks {} { target := () } hcond rfl).1⟩

end TargetView
