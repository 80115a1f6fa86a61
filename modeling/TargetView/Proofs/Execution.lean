import TargetView.Proofs.Linking
import TargetView.View

/-! # Executions side by side

Two views are executed, each on a machine of its own.  If the settings keep a
link, the trees are alike, and the two sides are linked when the passes start,
then the outcomes are the same but for the breakpoints reached, and the two
sides are still linked (`execute_linked`), unless the second pass ended with an
excuse.  Without extra nodes there is no excuse (`execute_concluded`).
-/
namespace TargetView

/-- Two passes came to the same, but for the breakpoints reached, which are
related. -/
inductive SameOutcome (breaks : List Nat → List Nat → Prop) :
    Except Abort Report → Except Abort Report → Prop
  | ok {rows : List Row} {disabled b b' : List Nat} (hb : breaks b b') :
      SameOutcome breaks (.ok ⟨rows, b, disabled⟩) (.ok ⟨rows, b', disabled⟩)
  | error (e : Abort) : SameOutcome breaks (.error e) (.error e)

theorem SameOutcome.imp {R R' : List Nat → List Nat → Prop} {x y : Except Abort Report}
    (hR : ∀ b b', R b b' → R' b b') (h : SameOutcome R x y) : SameOutcome R' x y := by
  cases h with
  | ok hb => exact .ok (hR _ _ hb)
  | error e => exact .error e

theorem SameOutcome.eq_of_reverse {x y : Except Abort Report}
    (h : SameOutcome (fun b b' => b.reverse = b'.reverse) x y) : x = y := by
  cases h with
  | ok hb => rw [List.reverse_inj.mp hb]
  | error e => rfl

namespace Pass

variable {τ τ' : Type} {L : Link τ τ'} {S : Setting τ} {T : Setting τ'}
  {excuses : Abort → PassState τ' → Prop} {extra : StatementNode → Prop}

theorem couples_runTree (hL : L.Sound S T)
    (hextra : ∀ b, extra b → (L.coupling excuses).Couples (pure []) (runNode T b))
    {tree tree' : StatementTree} (htree : tree.Alike L.ids extra tree') :
    (L.coupling excuses).Couples (runTree S tree) (runTree T tree') := by
  obtain ⟨root?⟩ := tree
  obtain ⟨root'?⟩ := tree'
  cases htree with
  | none => exact Coupling.couples_pure []
  | some hn => exact couples_runNode hL hextra _ hn

/-- What two executions come to, if their passes are linked. -/
structure Link.Concluded (L : Link τ τ') (x : Except Abort Report × View × Machine τ)
    (y : Except Abort Report × View × Machine τ') : Prop where
  outcome : SameOutcome (fun b b' => L.breaks b.reverse b'.reverse) x.1 y.1
  memo : L.memos x.2.1.memo y.2.1.memo
  machine : L.machines x.2.2 y.2.2

section Executions

variable {tree tree' : StatementTree} {memo memo' : Memo} {m : Machine τ} {m' : Machine τ'}

/-- **Linked executions come to the same.** -/
theorem execute_linked (hL : L.Sound S T)
    (hextra : ∀ b, extra b → (L.coupling excuses).Couples (pure []) (runNode T b))
    (htree : tree.Alike L.ids extra tree') (hmemo : L.memos memo memo') (hbreaks : L.breaks [] [])
    (hmachine : L.machines (View.prepare S m) (View.prepare T m')) :
    (∃ e t, (View.mk tree' memo').execute T m' = (.error e, ⟨tree', t.memo⟩, t.machine) ∧
        excuses e t) ∨
      L.Concluded ((View.mk tree memo).execute S m) ((View.mk tree' memo').execute T m') := by
  have h := couples_runTree hL hextra htree { machine := View.prepare S m, memo }
    { machine := View.prepare T m', memo := memo' } ⟨hmachine, hmemo, hbreaks, rfl⟩
  rw [View.execute, View.execute]
  dsimp only
  rcases hs : (runTree S tree).run.run { machine := View.prepare S m, memo } with ⟨r, s⟩
  rcases ht : (runTree T tree').run.run { machine := View.prepare T m', memo := memo' } with ⟨q, t⟩
  rw [hs, ht] at h
  rcases h with ⟨e, t', hq, hex⟩ | ⟨hr, hst⟩
  · cases hq
    exact .inl ⟨e, t, rfl, hex⟩
  · obtain rfl : r = q := hr
    refine .inr ⟨?_, hst.memo, hst.machine⟩
    cases r with
    | error e => exact .error e
    | ok rows =>
      have hb : L.breaks s.breaks.reverse.reverse t.breaks.reverse.reverse := by
        rw [List.reverse_reverse, List.reverse_reverse]
        exact hst.breaks
      change SameOutcome _ (.ok ⟨rows, _, s.disabled.reverse⟩) (.ok ⟨rows, _, t.disabled.reverse⟩)
      rw [hst.disabled]
      exact .ok hb

/-- Trees without extra nodes leave no room for an excuse. -/
theorem execute_concluded (hL : L.Sound S T) (htree : tree.Alike L.ids (fun _ => False) tree')
    (hmemo : L.memos memo memo') (hbreaks : L.breaks [] [])
    (hmachine : L.machines (View.prepare S m) (View.prepare T m')) :
    L.Concluded ((View.mk tree memo).execute S m) ((View.mk tree' memo').execute T m') := by
  have hextra : ∀ b, False → (L.coupling fun _ _ => False).Couples (pure []) (runNode T b) :=
    fun _ hb => hb.elim
  rcases execute_linked hL hextra htree hmemo hbreaks hmachine with ⟨_, _, -, hex⟩ | h
  · exact hex.elim
  · exact h

end Executions

end Pass
end TargetView
