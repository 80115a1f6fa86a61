import Mathlib
import TargetView.Proofs.Insertion

/-! # Which breakpoints are added, and where

A breakpoint becomes a child of the node at which the descent for its line ends,
unless a child of that node is a breakpoint of the line (`attached_where_line_leads`).
That node need not be the deepest one that has the line: the descent goes into the
first of two neighbours that have it (`attached_above_deepest`).

Two breakpoints that are added never have the same line.  But where the breakpoint
of a line stands depends on how it came into the tree: one of the description stands
where it was declared, and is not seen from where the descent for its line ends if
that is elsewhere (`added_beside_declared`).  If all breakpoints of the description
stand where the descents for their lines end, there is none but one breakpoint for
each line that has been added (`one_added_breakpoint_a_line`).
-/
namespace TargetView
namespace StatementNode

variable {new c m n : StatementNode} {line : Nat}

theorem entry_mem_of_mem_children (hc : c ∈ n.children) {e : Entry}
    (he : e ∈ c.entries (some n.id)) (parent? : Option Nat) : e ∈ n.entries parent? := by
  rw [entries_eq, entriesAll_eq]
  exact List.mem_cons_of_mem _ (List.mem_flatMap.mpr ⟨c, hc, he⟩)

/-- **A breakpoint becomes a child of the node at which the descent for its line
ends**, unless a child of that node is a breakpoint of the line. -/
theorem entry_mem_insertBreak (n : StatementNode) (hn : n.Ordered)
    (h : hasBreakAt new.line (n.holder new.line).children = false) (parent? : Option Nat) :
    new.entry (some (n.holder new.line).id) ∈ (insertBreak new n).entries parent? := by
  induction n using insertBreak_induction new generalizing parent? with
  | here n hholder heq =>
    rw [hholder] at h ⊢
    rw [attach_of_not_hasBreakAt hn.children h] at heq
    refine entry_mem_of_mem_children (c := new) ?_ ?_ parent?
    · rw [heq]
      exact (List.mem_orderedInsert Precedes).mpr (.inl rfl)
    · rw [heq]
      exact new.entry_mem_entries _
  | below n c front behind hns hholder heq ih =>
    rw [hholder] at h ⊢
    have hc : c ∈ n.children := hns ▸ List.mem_append_right _ List.mem_cons_self
    refine entry_mem_of_mem_children (c := insertBreak new c) ?_ (ih ?_ h _) parent?
    · rw [heq]
      exact List.mem_append_right _ List.mem_cons_self
    · exact hn.of_mem_children hc

end StatementNode

namespace StatementTree

variable {t built : StatementTree} {b : Declaration}

/-- **A breakpoint is added as a child of the node at which the descent for its
line ends**, if that line is not carried there. -/
theorem Sound.insertBreak_of_not_carries (h : t.Sound) (hb : b.kind? = some .break)
    {root : StatementNode} (hroot : t.root? = some root) (hcarries : t.carries b.line = false) :
    (t.newBreak b).entry (some (root.holder b.line).id) ∈ (t.insertBreak b).entries ∧
      (t.insertBreak b).size = t.size + 1 := by
  obtain rfl : t = ⟨some root⟩ := by
    cases t
    rw [← hroot]
  have hnot : StatementNode.hasBreakAt (newBreak ⟨some root⟩ b).line
      (root.holder (newBreak ⟨some root⟩ b).line).children = false := hcarries
  have hmem : (newBreak ⟨some root⟩ b).entry (some (root.holder b.line).id) ∈
      (insertBreak ⟨some root⟩ b).entries := by
    rw [insertBreak_of_break hb]
    exact StatementNode.entry_mem_insertBreak root (h.ordered root rfl) hnot none
  have hlt : root.size < (insertBreak ⟨some root⟩ b).size :=
    (sound_insertBreak h b).wellShaped.id_lt _ hmem
  refine ⟨hmem, Nat.le_antisymm ?_ hlt⟩
  exact (h.extendedBy_insertBreak b).size_le_add

/-- **A breakpoint goes where its line leads.**  The descent for its line ends at a
node that has the line, or else at the outermost node, and none of the children has
it.  There it is added, unless one of its line is there.  Where the lines of the nodes
nest, no node that has the line is deeper. -/
theorem attached_where_line_leads (d : Declaration) (batches : List (List Declaration))
    (b : Declaration) (hb : b.kind? = some .break) (root : StatementNode)
    (hroot : (batches.foldl insertBreaks (ofDeclaration d)).root? = some root) :
    let t := batches.foldl insertBreaks (ofDeclaration d)
    let target := root.holder b.line
    (t.carries b.line = true ∧ t.insertBreak b = t ∨
      t.carries b.line = false ∧ (t.insertBreak b).size = t.size + 1 ∧
        (t.newBreak b).entry (some target.id) ∈ (t.insertBreak b).entries) ∧
    (target = root ∨ target.takes b.line = true) ∧
    (∀ c ∈ target.children, c.takes b.line = false) ∧
    ∃ depth, target.StandsAt root depth ∧
      (root.Nests b.line → ∀ (m : StatementNode) (k : Nat), m.StandsAt root k →
        m.takes b.line = true → k ≤ depth ∧ target.takes b.line = true) := by
  intro t target
  have hsound : t.Sound := sound_foldl (sound_ofDeclaration d) batches
  refine ⟨?_, StatementNode.takes_holder b.line root,
    StatementNode.not_takes_of_mem_holder b.line root,
    StatementNode.exists_standsAt_holder b.line root⟩
  cases hcarries : t.carries b.line with
  | true => exact .inl ⟨rfl, insertBreak_of_carries hcarries⟩
  | false =>
    obtain ⟨hmem, hsize⟩ := hsound.insertBreak_of_not_carries hb hroot hcarries
    exact .inr ⟨rfl, hsize, hmem⟩

/-- The list that goes on behind the line of a breakpoint gets it. -/
theorem attached_where_line_leads_nested :
    let var : Declaration := { tag := "var", line := 5 }
    let list : Declaration := { tag := "list", line := 2, children := [var] }
    let d : Declaration := { tag := "object", line := 1, children := [list] }
    let b : Declaration := { tag := "break", line := 4 }
    let t := ofDeclaration d
    ∃ root, b.kind? = some .break ∧ t.root? = some root ∧ (root.holder b.line).id = 1 ∧
      root.Nests b.line ∧
      (t.insertBreak b).size = t.size + 1 ∧
      (t.newBreak b).entry (some (root.holder b.line).id) ∈ (t.insertBreak b).entries ∧
      ∃ depth, (root.holder b.line).StandsAt root depth ∧
        ∀ (m : StatementNode) (k : Nat), m.StandsAt root k → m.takes b.line = true →
          k ≤ depth := by
  intro var list d b t
  let leaf : StatementNode := ⟨2, var.statementOf .var, 5, none, []⟩
  let below : StatementNode := ⟨1, list.statementOf .list, 2, none, [leaf]⟩
  let root : StatementNode := ⟨0, d.statementOf .object, 1, none, [below]⟩
  have hroot : t.root? = some root := by cbv
  have hholder : root.holder b.line = below := by cbv
  have hcarries : t.carries b.line = false := by cbv
  have hnests : root.Nests b.line := by decide +kernel
  obtain ⟨hadded, -, -, depth, hstands, hdeepest⟩ := attached_where_line_leads d [] b rfl root hroot
  rcases hadded with ⟨hin, -⟩ | ⟨-, hsize, hmem⟩
  · cases hcarries.symm.trans hin
  · exact ⟨root, rfl, hroot, congrArg StatementNode.id hholder, hnests, hsize, hmem, depth, hstands,
      fun m k hm htakes => (hdeepest hnests m k hm htakes).1⟩

/-- Of two neighbours on one line the second one has a node of that line below it, but
the breakpoint goes below the first one. -/
theorem attached_above_deepest :
    let item : Declaration := { tag := "item", line := 2 }
    let out : Declaration := { tag := "out", line := 2, children := [item] }
    let d : Declaration := { tag := "object", line := 1, children := [item, out] }
    let b : Declaration := { tag := "break", line := 2 }
    let t := ofDeclaration d
    ∃ root, t.root? = some root ∧
      (t.newBreak b).entry (some (root.holder b.line).id) ∈ (t.insertBreak b).entries ∧
      (root.holder b.line).StandsAt root 1 ∧
      ∃ m : StatementNode, m.StandsAt root 2 ∧ m.takes b.line = true := by
  intro item out d b t
  let first : StatementNode := ⟨1, item.statementOf .item, 2, none, []⟩
  let inner : StatementNode := ⟨3, item.statementOf .item, 2, none, []⟩
  let second : StatementNode := ⟨2, out.statementOf .out, 2, none, [inner]⟩
  let root : StatementNode := ⟨0, d.statementOf .object, 1, none, [first, second]⟩
  have hroot : t.root? = some root := by cbv
  have hholder : root.holder b.line = first := by cbv
  have hcarries : t.carries b.line = false := by cbv
  have hfirst : first.StandsAt root 1 := .deeper List.mem_cons_self .here
  have hinner : inner.StandsAt root 2 :=
    .deeper (List.mem_cons_of_mem _ List.mem_cons_self) (.deeper List.mem_cons_self .here)
  have hadded := (sound_ofDeclaration d).insertBreak_of_not_carries rfl hroot hcarries
  exact ⟨root, hroot, hadded.1, hholder ▸ hfirst, inner, hinner, by cbv⟩

/-! ## One breakpoint a line -/

/-- What holds of the breakpoints that have been added to a built tree. -/
structure AddedTo (built t : StatementTree) : Prop where
  sound : t.Sound
  size_le : built.size ≤ t.size
  carries : ∀ line, built.carries line = true → t.carries line = true
  /-- An added breakpoint is found by the descent for its line, where there was none
  in the built tree. -/
  added : ∀ e ∈ t.entries, built.size ≤ e.id →
    t.carries e.line = true ∧ built.carries e.line = false
  /-- No two added breakpoints have the same line. -/
  apart : ∀ e ∈ t.entries, ∀ f ∈ t.entries, built.size ≤ e.id → built.size ≤ f.id →
    e.line = f.line → e.id = f.id

theorem AddedTo.refl (h : built.Sound) : AddedTo built built where
  sound := h
  size_le := Nat.le_refl _
  carries := fun _ => id
  added := fun e he hge => absurd (h.wellShaped.id_lt e he) (Nat.not_lt.mpr hge)
  apart := fun e he _ _ hge => absurd (h.wellShaped.id_lt e he) (Nat.not_lt.mpr hge)

/-- The only entry that is added is that of a breakpoint whose line was not
carried. -/
theorem Sound.added_insertBreak (h : t.Sound) {e : Entry} (he : e ∈ (t.insertBreak b).entries)
    (hge : t.size ≤ e.id) : e.id = t.size ∧ e.line = b.line ∧ b.kind? = some .break ∧
      t.carries b.line = false := by
  have hext := h.extendedBy_insertBreak b
  have hlt := (sound_insertBreak h b).wellShaped.id_lt e he
  have hsize : (t.insertBreak b).size ≤ t.size + 1 := hext.size_le_add
  obtain ⟨-, -, b', hb', hkind, -, hline, -⟩ := hext.added e he hge
  obtain rfl := List.mem_singleton.mp hb'
  refine ⟨by omega, hline, hkind, Bool.eq_false_iff.mpr fun hcarries => ?_⟩
  rw [insertBreak_of_carries hcarries] at hlt
  omega

theorem AddedTo.insertBreak (h : AddedTo built t) (b : Declaration) :
    AddedTo built (t.insertBreak b) := by
  have hext := h.sound.extendedBy_insertBreak b
  have hcarries (line : Nat) (hline : t.carries line = true) :
      (t.insertBreak b).carries line = true := by
    rw [carries_insertBreak h.sound.ordered, hline, Bool.or_true]
  -- What is not new is in the tree already, under its number and on its line.
  have hold : ∀ e ∈ (t.insertBreak b).entries, e.id < t.size →
      ∃ e' ∈ t.entries, e'.id = e.id ∧ e'.line = e.line :=
    fun e he hlt => ⟨_, hext.upTo_mem he hlt, rfl, rfl⟩
  have hnew : ∀ e ∈ (t.insertBreak b).entries, t.size ≤ e.id → ∀ f ∈ (t.insertBreak b).entries,
      built.size ≤ f.id → e.line = f.line → e.id = f.id := by
    intro e he hge f hf hbuilt hline
    obtain ⟨heid, heline, -, hnot⟩ := h.sound.added_insertBreak he hge
    by_cases hlt : f.id < t.size
    · obtain ⟨f', hf', hid, hline'⟩ := hold f hf hlt
      have hcarried := (h.added f' hf' (hid ▸ hbuilt)).1
      rw [hline', ← hline, heline, hnot] at hcarried
      cases hcarried
    · exact heid.trans (h.sound.added_insertBreak hf (Nat.not_lt.mp hlt)).1.symm
  exact {
    sound := sound_insertBreak h.sound b
    size_le := Nat.le_trans h.size_le hext.size_le
    carries := fun line hline => hcarries line (h.carries line hline)
    added := by
      intro e he hge
      by_cases hlt : e.id < t.size
      · obtain ⟨e', he', hid, hline⟩ := hold e he hlt
        obtain ⟨hin, hout⟩ := h.added e' he' (hid ▸ hge)
        exact hline ▸ ⟨hcarries _ hin, hout⟩
      · obtain ⟨-, hline, hkind, hnot⟩ := h.sound.added_insertBreak he (Nat.not_lt.mp hlt)
        rw [hline, carries_insertBreak h.sound.ordered, hkind, beq_self_eq_true, beq_self_eq_true]
        refine ⟨rfl, Bool.eq_false_iff.mpr fun hbuilt => ?_⟩
        rw [h.carries b.line hbuilt] at hnot
        cases hnot
    apart := by
      intro e he f hf hege hfge hline
      by_cases helt : e.id < t.size
      · by_cases hflt : f.id < t.size
        · obtain ⟨e', he', heid, heline⟩ := hold e he helt
          obtain ⟨f', hf', hfid, hfline⟩ := hold f hf hflt
          rw [← heid, ← hfid]
          exact h.apart e' he' f' hf' (heid ▸ hege) (hfid ▸ hfge)
            (heline.trans (hline.trans hfline.symm))
        · exact (hnew f hf (Nat.not_lt.mp hflt) e he hege hline.symm).symm
      · exact hnew e he (Nat.not_lt.mp helt) f hf hfge hline }

theorem AddedTo.insertBreaks (h : AddedTo built t) (breaks : List Declaration) :
    AddedTo built (t.insertBreaks breaks) := by
  induction breaks generalizing t with
  | nil => exact h
  | cons b breaks ih => exact ih (h.insertBreak b)

theorem AddedTo.foldl (h : AddedTo built t) (batches : List (List Declaration)) :
    AddedTo built (batches.foldl StatementTree.insertBreaks t) := by
  induction batches generalizing t with
  | nil => exact h
  | cons breaks batches ih => exact ih (h.insertBreaks breaks)

/-- A breakpoint of the description keeps its line. -/
theorem ExtendedBy.carries_of_built {breaks : List Declaration} (hext : built.ExtendedBy breaks t)
    (hplaced : ∀ f ∈ built.entries, f.statement.isBreak = true → built.carries f.line = true)
    {e : Entry} (he : e ∈ t.entries) (hbreak : e.statement.isBreak = true)
    (hlt : e.id < built.size) : built.carries e.line = true :=
  hplaced (e.upTo built.size) (hext.upTo_mem he hlt) hbreak

/-- **No two added breakpoints have the same line**, and a breakpoint whose line an
added one has is not added.  With the breakpoints of the description it is another
matter: only those that stand where the descent for their line ends keep others of
their line away. -/
theorem one_added_breakpoint_a_line (d : Declaration) (batches : List (List Declaration)) :
    let built := ofDeclaration d
    let t := batches.foldl insertBreaks built
    (∀ e ∈ t.entries, built.size ≤ e.id → built.carries e.line = false ∧
      (∀ f ∈ t.entries, f.line = e.line → f.id ≠ e.id → f.id < built.size) ∧
      ∀ b : Declaration, b.line = e.line → t.insertBreak b = t) ∧
    ((∀ f ∈ built.entries, f.statement.isBreak = true → built.carries f.line = true) →
      ∀ e ∈ t.entries, e.statement.isBreak = true →
        (∀ b : Declaration, b.line = e.line → t.insertBreak b = t) ∧
        (built.size ≤ e.id → ∀ f ∈ t.entries, f.statement.isBreak = true → f.line = e.line →
          f.id = e.id)) := by
  intro built t
  have hadded : AddedTo built t := (AddedTo.refl (sound_ofDeclaration d)).foldl batches
  have hext : built.ExtendedBy batches.flatten t :=
    (sound_ofDeclaration d).extendedBy_foldl batches
  have hsame : ∀ e ∈ t.entries, t.carries e.line = true → ∀ b : Declaration, b.line = e.line →
      t.insertBreak b = t :=
    fun e _ hcarries b hline => insertBreak_of_carries (hline ▸ hcarries)
  refine ⟨fun e he hge => ?_, fun hplaced e he hbreak => ⟨?_, fun hge f hf hbreak' hline => ?_⟩⟩
  · obtain ⟨hin, hout⟩ := hadded.added e he hge
    refine ⟨hout, fun f hf hline hne => Nat.lt_of_not_le fun hge' => hne ?_, hsame e he hin⟩
    exact hadded.apart f hf e he hge' hge hline
  · refine hsame e he ?_
    by_cases hlt : e.id < built.size
    · exact hadded.carries _ (hext.carries_of_built hplaced he hbreak hlt)
    · exact (hadded.added e he (Nat.not_lt.mp hlt)).1
  · by_cases hlt : f.id < built.size
    · have hcarries := hext.carries_of_built hplaced hf hbreak' hlt
      rw [hline, (hadded.added e he hge).2] at hcarries
      cases hcarries
    · exact hadded.apart f hf e he (Nat.not_lt.mp hlt) hge hline

/-- A description with a breakpoint gets another one, of another line. -/
theorem one_added_breakpoint_a_line_two :
    let second : Declaration := { tag := "break", line := 2 }
    let third : Declaration := { tag := "break", line := 3 }
    let d : Declaration := { tag := "object", line := 1, children := [third] }
    let built := ofDeclaration d
    let t := [[second, third], [second]].foldl insertBreaks built
    (∀ f ∈ built.entries, f.statement.isBreak = true → built.carries f.line = true) ∧
      t.entries.map (fun e => (e.id, e.line)) = [(0, 1), (2, 2), (1, 3)] ∧
      ∃ e ∈ t.entries, built.size ≤ e.id ∧ e.statement.isBreak = true ∧
        (∀ b : Declaration, b.line = e.line → t.insertBreak b = t) ∧
        ∀ f ∈ t.entries, f.statement.isBreak = true → f.line = e.line → f.id = e.id := by
  intro second third d built t
  have hplaced : ∀ f ∈ built.entries, f.statement.isBreak = true →
      built.carries f.line = true := by decide +kernel
  have hadded : (t.entries.any fun e => decide (built.size ≤ e.id) && e.statement.isBreak) =
      true := by cbv
  obtain ⟨e, he, hboth⟩ := List.any_eq_true.mp hadded
  obtain ⟨hge, hbreak⟩ := Bool.and_eq_true_iff.mp hboth
  have hge' : built.size ≤ e.id := of_decide_eq_true hge
  obtain ⟨-, hplaced'⟩ := one_added_breakpoint_a_line d [[second, third], [second]]
  obtain ⟨hsame, hone⟩ := hplaced' hplaced e he hbreak
  exact ⟨hplaced, by cbv, e, he, hge', hbreak, hsame, hone hge'⟩

/-- A breakpoint of the description is beside the row of its line, and another one is
added below that row. -/
theorem added_beside_declared :
    let b : Declaration := { tag := "break", line := 5 }
    let d : Declaration :=
      { tag := "object", line := 1, children := [b, { tag := "item", line := 5 }] }
    let t := ofDeclaration d
    (∃ e ∈ t.entries, e.statement.isBreak = true ∧ e.line = b.line) ∧
      t.insertBreak b ≠ t ∧
      ((t.insertBreak b).entries.filter (fun e => e.statement.isBreak && e.line == b.line)).map
        (fun e => (e.id, e.parent?)) = [(1, some 0), (3, some 2)] := by
  intro b d t
  have hsize : (t.insertBreak b).size = 4 := by cbv
  have hsize' : t.size = 3 := by cbv
  have hdeclared : (t.entries.any fun e => e.statement.isBreak && e.line == b.line) = true := by
    cbv
  refine ⟨?_, fun heq => ?_, by cbv⟩
  · obtain ⟨e, he, hboth⟩ := List.any_eq_true.mp hdeclared
    obtain ⟨hbreak, hline⟩ := Bool.and_eq_true_iff.mp hboth
    exact ⟨e, he, hbreak, eq_of_beq hline⟩
  · rw [heq, hsize'] at hsize
    cases hsize

end StatementTree
end TargetView
