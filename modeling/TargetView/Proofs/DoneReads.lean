import TargetView.Proofs.Attempts
import TargetView.Proofs.TreeShape

/-! # Reads that are done once and for all

The visits of a pass hang together: each finds done what the one before has left
(`Trail`), since nothing but the attempt at a read marks a read.  The same holds
of the visits of many passes over a view, one after the other, on whatever
machines, aborted or not, with breakpoints added in between (`View.history`).

So a read counts as done exactly if an earlier attempt at it has marked it, in
the same pass or before (`Trail.mem_iff`).
-/
namespace TargetView

open Contract

variable {τ α : Type}

/-! ## Trails -/

/-- Each visit is fair and finds done what the one before has left. -/
def Trail : Std.ExtTreeSet Nat → List (Visit τ) → Std.ExtTreeSet Nat → Prop
  | d, [], d' => d = d'
  | d, v :: rest, d' => v.state.memo.done = d ∧ v.Fair ∧ Trail v.effect.2.memo.done rest d'

theorem trail_append {xs ys : List (Visit τ)} {d d' : Std.ExtTreeSet Nat} :
    Trail d (xs ++ ys) d' ↔ ∃ e, Trail d xs e ∧ Trail e ys d' := by
  induction xs generalizing d with
  | nil => exact ⟨fun h => ⟨d, rfl, h⟩, fun ⟨_, hxs, hys⟩ => hxs ▸ hys⟩
  | cons v xs ih =>
    rw [List.cons_append, Trail, ih]
    constructor
    · rintro ⟨hstate, hfair, e, hxs, hys⟩
      exact ⟨e, ⟨hstate, hfair, hxs⟩, hys⟩
    · rintro ⟨e, ⟨hstate, hfair, hxs⟩, hys⟩
      exact ⟨hstate, hfair, e, hxs, hys⟩

theorem trail_singleton {v : Visit τ} (h : v.Fair) :
    Trail v.state.memo.done [v] v.effect.2.memo.done :=
  ⟨rfl, h, rfl⟩

namespace Visit

variable {v : Visit τ}

/-- A visit marks its own read or none. -/
theorem Fair.mem_iff (h : v.Fair) (id : Nat) :
    id ∈ v.effect.2.memo.done ↔ id ∈ v.state.memo.done ∨ v.id = id ∧ v.Marks := by
  constructor
  · intro hmem
    by_cases hbefore : id ∈ v.state.memo.done
    · exact .inl hbefore
    · rcases h.own with hsame | hinsert
      · exact absurd (hsame ▸ hmem) hbefore
      · rw [hinsert, Std.ExtTreeSet.mem_insert, Nat.compare_eq_eq] at hmem
        obtain rfl := hmem.resolve_right hbefore
        refine .inr ⟨rfl, hbefore, ?_⟩
        rw [hinsert]
        exact Std.ExtTreeSet.mem_insert_self
  · rintro (hbefore | ⟨rfl, -, hmarked⟩)
    · rcases h.own with hsame | hinsert
      · exact hsame ▸ hbefore
      · rw [hinsert]
        exact Std.ExtTreeSet.mem_insert.mpr (.inr hbefore)
    · exact hmarked

end Visit

/-- **What is done is what has been marked.** -/
theorem Trail.mem_iff {visits : List (Visit τ)} {d d' : Std.ExtTreeSet Nat}
    (h : Trail d visits d') (id : Nat) :
    id ∈ d' ↔ id ∈ d ∨ ∃ v ∈ visits, v.id = id ∧ v.Marks := by
  induction visits generalizing d with
  | nil =>
    obtain rfl : d = d' := h
    simp
  | cons v rest ih =>
    obtain ⟨rfl, hfair, hrest⟩ := h
    rw [ih hrest, hfair.mem_iff, or_assoc]
    simp only [List.mem_cons, exists_eq_or_imp]

namespace Watched

/-- The visits so far make a trail, and their statements are as they should be. -/
def trailing (d : Std.ExtTreeSet Nat) (P : Nat → Statement → Prop) :
    Contract Abort (PassState (Watched τ)) where
  Holds w := Trail d w.visits.reverse w.memo.done ∧ ∀ v ∈ w.visits, P v.id v.statement
  Excuses _ _ := True

variable {S : Setting τ} {d : Std.ExtTreeSet Nat} {P : Nat → Statement → Prop}

theorem trailing_of_still {x : Pass (Watched τ) α} (h : still.Allows x) :
    (trailing d P).Allows x := by
  intro w hw
  obtain ⟨-, ⟨hvisits, hdone⟩, hends⟩ := h w trivial
  refine ⟨?_, trivial, hends⟩
  show Trail d (x.run.run w).2.visits.reverse (x.run.run w).2.memo.done ∧
    ∀ v ∈ (x.run.run w).2.visits, P v.id v.statement
  rw [hvisits, hdone]
  exact hw

/-- A visit and its attempt make the trail longer. -/
theorem allows_visit {id : Nat} {statement : Statement} (hP : P id statement) :
    (trailing d P).Allows (do
      Pass.notice S id statement
      Pass.attempt S.watched id statement) := by
  intro w ⟨htrail, hvisited⟩
  obtain ⟨reads, hfair, w', hrun, hvisits, heffect⟩ := run_visit S id statement w
  refine ⟨?_, trivial, ends_of_forall (fun _ => trivial) fun _ => trivial⟩
  rw [hrun]
  have hdone : w'.memo.done = _ := congrArg (·.memo.done) heffect
  refine ⟨?_, ?_⟩
  · rw [hvisits, hdone, List.reverse_cons]
    exact trail_append.mpr ⟨w.memo.done, htrail, trail_singleton hfair⟩
  · rw [hvisits]
    exact List.forall_mem_cons.mpr ⟨hP, hvisited⟩

/-- A node makes the trail longer. -/
theorem obeys_trailing {n : StatementNode} (hP : P n.id n.statement) :
    Obeys S (trailing d P) n := by
  have hS : S.watched.Handles (trailing d P) := (handles_still S).imp trailing_of_still
  refine ⟨hS.checkCancelled, Pass.allows_condition hS _, allows_visit hP,
    fun hsource below hbelow => ?_⟩
  refine Pass.allows_effect hS n.id n.line (fun r hr => ?_) (fun r hr => ?_) hbelow
  · rw [hr] at hsource
    cases hsource
  · rw [hr] at hsource
    cases hsource

end Watched

/-! ## Passes -/

/-- The statement stands in the tree under this number. -/
def StatementTree.Lists (t : StatementTree) (id : Nat) (statement : Statement) : Prop :=
  ∃ e ∈ t.entries, e.id = id ∧ e.statement = statement

theorem StatementTree.lists_of_mem_preorder {t : StatementTree} {n : StatementNode}
    (h : n ∈ t.preorder) : t.Lists n.id n.statement := by
  obtain ⟨root?⟩ := t
  cases root? with
  | none => cases h
  | some root =>
    obtain ⟨parent?, hentry⟩ := root.exists_entry_mem_entries none n h
    exact ⟨n.entry parent?, hentry, rfl, rfl⟩

theorem View.memo_execute (S : Setting τ) (view : View) (m : Machine τ) :
    (view.execute S m).2.1.memo = ((Pass.runTree S view.tree).run.run (view.start S m)).2.memo :=
  rfl

theorem View.tree_execute (S : Setting τ) (view : View) (m : Machine τ) :
    (view.execute S m).2.1.tree = view.tree :=
  rfl

/-- The visits of a pass lead from what was done before to what is done then. -/
theorem View.trail_visits (S : Setting τ) (view : View) (m : Machine τ) :
    Trail view.memo.done (view.visits S m) (view.execute S m).2.1.memo.done ∧
      ∀ v ∈ view.visits S m, view.tree.Lists v.id v.statement := by
  have hallows : (Watched.trailing view.memo.done view.tree.Lists).Allows
      (Pass.watchTree S view.tree) :=
    Watched.allows_watchTree S view.tree fun n hn =>
      Watched.obeys_trailing (StatementTree.lists_of_mem_preorder hn)
  have hstart : (Watched.trailing view.memo.done view.tree.Lists).Holds
      ((view.start S m).watched []) := ⟨rfl, fun v hv => by cases hv⟩
  obtain ⟨⟨htrail, hlisted⟩, -⟩ := hallows _ hstart
  rw [View.visits, memo_execute, view.run_watchTree S m]
  exact ⟨htrail, fun v hv => hlisted v (List.mem_reverse.mp hv)⟩

/-! ## Histories -/

/-- What is done with a view. -/
inductive ViewStep (τ : Type) where
  /-- A pass, on a machine to which anything may have happened since the last one. -/
  | pass (setting : Setting τ) (machine : Machine τ)
  /-- Breakpoints are added. -/
  | insert (breaks : List Declaration)

namespace View

/-- The view after a step. -/
def perform (view : View) : ViewStep τ → View
  | .pass setting machine => (view.execute setting machine).2.1
  | .insert breaks => view.insertBreaks breaks

/-- The visits of a step, in order. -/
def visitsOf (view : View) : ViewStep τ → List (Visit τ)
  | .pass setting machine => view.visits setting machine
  | .insert _ => []

/-- The visits of some steps, one after the other. -/
def history (view : View) : List (ViewStep τ) → List (Visit τ)
  | [] => []
  | step :: steps => view.visitsOf step ++ (view.perform step).history steps

/-- The visits of a history hang together from one pass to the next. -/
theorem trail_history (view : View) (steps : List (ViewStep τ)) :
    ∃ d, Trail view.memo.done (view.history steps) d := by
  induction steps generalizing view with
  | nil => exact ⟨view.memo.done, rfl⟩
  | cons step steps ih =>
    obtain ⟨d, hd⟩ := ih (view.perform step)
    have hstep : Trail view.memo.done (view.visitsOf step) (view.perform step).memo.done := by
      cases step with
      | pass S m => exact (view.trail_visits S m).1
      | insert breaks => exact rfl
    exact ⟨d, trail_append.mpr ⟨_, hstep, hd⟩⟩

end View

namespace StatementTree

variable {t t' : StatementTree}

theorem ExtendedBy.lists {breaks : List Declaration} (h : t.ExtendedBy breaks t') {id : Nat}
    {statement : Statement} (hlists : t.Lists id statement) : t'.Lists id statement := by
  obtain ⟨e, he, hid, hstatement⟩ := hlists
  rw [← h.kept] at he
  obtain ⟨e', he', rfl⟩ := List.mem_map.mp he
  exact ⟨e', (List.mem_filter.mp he').1, hid, hstatement⟩

theorem WellShaped.statement_eq (h : t.WellShaped) {id : Nat} {statement statement' : Statement}
    (hlists : t.Lists id statement) (hlists' : t.Lists id statement') : statement = statement' := by
  obtain ⟨e, he, hid, rfl⟩ := hlists
  obtain ⟨e', he', hid', rfl⟩ := hlists'
  have hnodup : (t.entries.map (·.id)).Nodup := h.numbered.nodup_iff.mpr List.nodup_range
  rw [List.inj_on_of_nodup_map hnodup he he' (hid.trans hid'.symm)]

end StatementTree

/-- All statements that are visited stand in the tree at the end. -/
theorem View.listed_history (view : View) (hsound : view.tree.Sound) (steps : List (ViewStep τ)) :
    ∃ t : StatementTree, t.WellShaped ∧
      (∀ id statement, view.tree.Lists id statement → t.Lists id statement) ∧
      ∀ v ∈ view.history steps, t.Lists v.id v.statement := by
  induction steps generalizing view with
  | nil =>
    refine ⟨view.tree, hsound.wellShaped, fun _ _ h => h, fun v hv => ?_⟩
    exact absurd hv List.not_mem_nil
  | cons step steps ih =>
    cases step with
    | pass S m =>
      have htree : (view.perform (.pass S m)).tree = view.tree := view.tree_execute S m
      obtain ⟨t, ht, hlists, hvisits⟩ := ih (view.perform (.pass S m)) (htree ▸ hsound)
      rw [htree] at hlists
      refine ⟨t, ht, hlists, List.forall_mem_append.mpr ⟨fun v hv => ?_, hvisits⟩⟩
      exact hlists _ _ ((view.trail_visits S m).2 v hv)
    | insert breaks =>
      have hsound' := StatementTree.sound_insertBreaks hsound breaks
      obtain ⟨t, ht, hlists, hvisits⟩ := ih (view.perform (.insert breaks : ViewStep τ)) hsound'
      refine ⟨t, ht, fun id statement h => hlists _ _ ?_, hvisits⟩
      exact (hsound.extendedBy_insertBreaks breaks).lists h

/-- **What is read once and for all is read until it has been read.**  A view
without a memo is used in any way.  A read that is not to be repeated is done
from when an earlier attempt at it has marked it, in the same pass or before.
Then no memory is read and nothing happens; until then each attempt does what a
read that is to be repeated does.  An attempt marks the read exactly if it
fetches the elements, and then all that it has asked of memory has been answered.
In a chain, however, the last memory read may fail, unless it is that of the
pointer to the start. -/
theorem reads_done_once (d : Declaration) (steps : List (ViewStep τ))
    (before after : List (Visit τ)) (v : Visit τ)
    (h : (View.mk (.ofDeclaration d) {}).history steps = before ++ v :: after)
    (honce : v.statement.isOnce = true) :
    (v.IsDone ↔ ∃ u ∈ before, u.id = v.id ∧ u.statement = v.statement ∧ u.Marks) ∧
    (v.Marks ↔ ¬v.IsDone ∧ v.Fetches) ∧
    (v.IsDone → v.effect = (.ok (), v.state) ∧ v.reads = []) ∧
    (¬v.IsDone → ∃ done,
      let again := (Pass.attempt v.setting v.id v.statement.repeated).run.run v.state
      v.effect = (again.1, { again.2 with memo.done := done })) ∧
    (v.Marks → v.Complete) := by
  obtain ⟨_, htrail⟩ := View.trail_history ⟨.ofDeclaration d, {}⟩ steps
  rw [h] at htrail
  obtain ⟨done, hbefore, hstate, hfair, -⟩ := trail_append.mp htrail
  have hmarks : v.Marks ↔ ¬v.IsDone ∧ v.Fetches :=
    hfair.marks_iff.trans (and_iff_right honce)
  refine ⟨?_, hmarks, fun hdone => ⟨?_, hfair.idle honce hdone⟩, fun hfresh => ?_, hfair.complete⟩
  · -- Numbers stand for statements, whatever breakpoints have been added.
    obtain ⟨t, ht, -, hlisted⟩ :=
      View.listed_history ⟨.ofDeclaration d, {}⟩ (StatementTree.sound_ofDeclaration d) steps
    rw [h] at hlisted
    have hsame : ∀ u ∈ before, u.id = v.id → u.statement = v.statement := by
      intro u hu hid
      have hv := hlisted v (List.mem_append_right _ List.mem_cons_self)
      exact ht.statement_eq (hid ▸ hlisted u (List.mem_append_left _ hu)) hv
    rw [Visit.IsDone, hstate, hbefore.mem_iff]
    constructor
    · rintro (hempty | ⟨u, hu, hid, hmarks⟩)
      · exact absurd hempty Std.ExtTreeSet.not_mem_empty
      · exact ⟨u, hu, hid, hsame u hu hid, hmarks⟩
    · rintro ⟨u, hu, hid, -, hmarks⟩
      exact .inr ⟨u, hu, hid, hmarks⟩
  · exact Pass.run_attempt_of_done honce (Std.ExtTreeSet.contains_iff_mem.mpr hdone)
  · refine Pass.run_attempt_again ?_
    rw [← Bool.not_eq_true, Std.ExtTreeSet.contains_iff_mem]
    exact hfresh

/-- A word that is read in a first pass is not read in a second one. -/
theorem reads_done_once_two_passes :
    let t : Target Unit :=
      { read := fun _ size => pure (some (List.replicate size 0))
        setVariable := fun _ _ _ => pure ()
        clearVariables := pure ()
        readRegister := fun _ => pure none
        writeRegister := fun _ _ => pure false }
    let read : Declaration :=
      { tag := "read", line := 2, attributes := [("name", "x"), ("const", "1")] }
    let d : Declaration := { tag := "object", line := 1, children := [read] }
    let pass : ViewStep Unit := .pass { target := t } { target := () }
    ∃ v ∈ (View.mk (.ofDeclaration d) {}).history [pass, pass],
      v.statement.isOnce = true ∧ v.IsDone ∧ v.effect = (.ok (), v.state) ∧ v.reads = [] := by
  intro t read d pass
  have hdone : ∃ v ∈ (View.mk (.ofDeclaration d) {}).history [pass, pass],
      v.statement.isOnce = true ∧ v.IsDone := by decide +kernel
  obtain ⟨v, hv, honce, hdone⟩ := hdone
  obtain ⟨before, after, h⟩ := List.append_of_mem hv
  obtain ⟨-, -, hidle, -⟩ := reads_done_once d [pass, pass] before after v h honce
  exact ⟨v, hv, honce, hdone, hidle hdone⟩

/-- A memory read that fails in the middle of a chain does not keep the list from
being done: when the memory can be read, it is not read any more. -/
theorem chain_done_by_failed_read :
    let t (read : UInt64 → Option (List UInt8)) : Target Unit :=
      { read := fun address _ => pure (read address)
        setVariable := fun _ _ _ => pure ()
        clearVariables := pure ()
        readRegister := fun _ => pure none
        writeRegister := fun _ _ => pure false
        symbolAddress := fun _ => pure (some 8) }
    let chain : Declaration :=
      { tag := "readlist"
        line := 2
        attributes := [("name", "c"), ("symbol", "s"), ("next", "4"), ("const", "1")] }
    let d : Declaration := { tag := "object", line := 1, children := [chain] }
    let broken : ViewStep Unit :=
      .pass { target := t fun address => if address = 8 then some [5, 0, 0, 0] else none }
        { target := () }
    let whole : ViewStep Unit := .pass { target := t fun _ => some [0, 0, 0, 0] } { target := () }
    let view : View := ⟨.ofDeclaration d, {}⟩
    (∃ v ∈ view.history [broken], v.statement.isOnce = true ∧ v.Marks ∧ none ∈ v.reads) ∧
      (view.history [broken, whole]).map (·.reads) =
        [[], [some [5, 0, 0, 0], none], [], []] := by
  decide +kernel

end TargetView
