import TargetView.Proofs.Trees

/-! # Trees up to the numbers of their nodes

What is left of a tree without the numbers of its nodes (`unnumbered`) does not
depend on the order in which the declarations stand, as long as no two
statements that stand side by side have the same line
(`unnumbered_ofDeclaration_of_permuted`): their lines decide the order then.

Two trees that are the same up to numbers are alike, under the numbers that
stand at the same place (`alike_of_unnumbered_eq`).
-/
namespace TargetView

namespace StatementNode

mutual
/-- The node without the numbers. -/
def unnumbered : StatementNode → StatementNode
  | ⟨_, statement, line, condition?, children⟩ =>
    ⟨0, statement, line, condition?, unnumberedAll children⟩

/-- The nodes without the numbers. -/
def unnumberedAll : List StatementNode → List StatementNode
  | [] => []
  | n :: rest => n.unnumbered :: unnumberedAll rest
end

theorem unnumberedAll_eq (ns : List StatementNode) : unnumberedAll ns = ns.map unnumbered := by
  induction ns with
  | nil => rw [unnumberedAll, List.map_nil]
  | cons n ns ih => rw [unnumberedAll, List.map_cons, ih]

@[simp] theorem line_unnumbered (n : StatementNode) : n.unnumbered.line = n.line := by
  cases n
  rw [unnumbered]

/-- Sorting does not look at the numbers. -/
theorem unnumberedAll_sortByLine (ns : List StatementNode) :
    unnumberedAll (sortByLine ns) = sortByLine (unnumberedAll ns) := by
  rw [unnumberedAll_eq, unnumberedAll_eq]
  exact List.map_mergeSort fun a _ b _ => by rw [line_unnumbered, line_unnumbered]

mutual
theorem length_ids_unnumbered : ∀ n : StatementNode, n.unnumbered.ids.length = n.ids.length
  | ⟨_, _, _, _, children⟩ => by
    rw [unnumbered, ids_mk, ids_mk, List.length_cons, List.length_cons,
      length_idsAll_unnumberedAll children]

theorem length_idsAll_unnumberedAll : ∀ ns : List StatementNode,
    (idsAll (unnumberedAll ns)).length = (idsAll ns).length
  | [] => by rw [unnumberedAll]
  | n :: ns => by
    rw [unnumberedAll, idsAll, idsAll, List.flatMap_cons, List.flatMap_cons, List.length_append,
      List.length_append, length_ids_unnumbered n]
    exact congrArg (n.ids.length + ·) (length_idsAll_unnumberedAll ns)
end

mutual
/-- **Nodes that are the same up to numbers are alike** under the numbers that
stand at the same place. -/
theorem alike_of_unnumbered_eq {R : Nat → Nat → Prop} {extra : StatementNode → Prop} :
    ∀ n n' : StatementNode, n.unnumbered = n'.unnumbered →
      (∀ p ∈ n.ids.zip n'.ids, R p.1 p.2) → n.Alike R extra n'
  | ⟨id, _, _, _, children⟩, ⟨id', _, _, _, children'⟩, h, hR => by
    rw [unnumbered, unnumbered] at h
    obtain ⟨-, rfl, rfl, rfl, hc⟩ := StatementNode.mk.inj h
    rw [ids_mk, ids_mk, List.zip_cons_cons] at hR
    obtain ⟨hid, hrest⟩ := List.forall_mem_cons.mp hR
    exact .node hid (alikeAll_of_unnumberedAll_eq children children' hc hrest)

theorem alikeAll_of_unnumberedAll_eq {R : Nat → Nat → Prop} {extra : StatementNode → Prop} :
    ∀ ns ns' : List StatementNode, unnumberedAll ns = unnumberedAll ns' →
      (∀ p ∈ (idsAll ns).zip (idsAll ns'), R p.1 p.2) → AlikeAll R extra ns ns'
  | [], [], _, _ => .nil
  | [], n' :: ns', h, _ => by
    rw [unnumberedAll, unnumberedAll] at h
    cases h
  | n :: ns, [], h, _ => by
    rw [unnumberedAll, unnumberedAll] at h
    cases h
  | n :: ns, n' :: ns', h, hR => by
    rw [unnumberedAll, unnumberedAll] at h
    obtain ⟨hn, hns⟩ := List.cons.inj h
    have hlength : n.ids.length = n'.ids.length := by
      rw [← length_ids_unnumbered n, hn, length_ids_unnumbered n']
    rw [idsAll, idsAll, List.flatMap_cons, List.flatMap_cons, List.zip_append hlength] at hR
    obtain ⟨hhead, htail⟩ := List.forall_mem_append.mp hR
    exact .cons (alike_of_unnumbered_eq n n' hn hhead)
      (alikeAll_of_unnumberedAll_eq ns ns' hns htail)
end

/-- Sorting forgets the order of nodes whose lines are distinct. -/
theorem sortByLine_eq_of_perm {ns ns' : List StatementNode} (hperm : ns.Perm ns')
    (hdistinct : ns.Pairwise fun a b => a.line ≠ b.line) : sortByLine ns = sortByLine ns' := by
  have hstrict {l : List StatementNode} (hl : l.Pairwise fun a b => a.line ≠ b.line) :
      (sortByLine l).Pairwise fun a b => a.line < b.line := by
    have hne := ((perm_sortByLine l).pairwise_iff fun h => Ne.symm h).mpr hl
    exact ((inLineOrder_sortByLine l).and hne).imp fun h => Nat.lt_of_le_of_ne h.1 h.2
  have hdistinct' : ns'.Pairwise fun a b => a.line ≠ b.line :=
    (hperm.pairwise_iff fun h => Ne.symm h).mp hdistinct
  refine List.Perm.eq_of_pairwise ?_ (hstrict hdistinct) (hstrict hdistinct') ?_
  · exact fun a b _ _ hab hba => (Nat.lt_asymm hab hba).elim
  · exact (perm_sortByLine ns).trans (hperm.trans (perm_sortByLine ns').symm)

end StatementNode

/-! ## Declarations -/

namespace Declaration

mutual
/-- No two statements that stand side by side have the same line, here and
everywhere below. -/
def DistinctLines : Declaration → Prop
  | ⟨_, _, _, _, children⟩ =>
    ((children.filter (·.kind?.isSome)).Pairwise fun a b => a.line ≠ b.line) ∧
      DistinctLinesAll children

/-- Each of the declarations has distinct lines below it. -/
def DistinctLinesAll : List Declaration → Prop
  | [] => True
  | d :: rest => d.DistinctLines ∧ DistinctLinesAll rest
end

theorem distinctLinesAll_iff {ds : List Declaration} :
    DistinctLinesAll ds ↔ ∀ d ∈ ds, d.DistinctLines := by
  induction ds with
  | nil => simp [DistinctLinesAll]
  | cons d ds ih => simp [DistinctLinesAll, ih]

mutual
/-- Two declarations differ only in the order of what is below them, at any
levels. -/
inductive Permuted : Declaration → Declaration → Prop
  | node {tag : String} {line : Nat} {attributes : List (String × String)} {text : String}
      {children moved children' : List Declaration} (hmoved : children.Perm moved)
      (hbelow : PermutedAll moved children') :
      Permuted ⟨tag, line, attributes, text, children⟩ ⟨tag, line, attributes, text, children'⟩

/-- Declarations that differ one by one only in the order of what is below
them. -/
inductive PermutedAll : List Declaration → List Declaration → Prop
  | nil : PermutedAll [] []
  | cons {d d' : Declaration} {ds ds' : List Declaration} (hd : Permuted d d')
      (hds : PermutedAll ds ds') : PermutedAll (d :: ds) (d' :: ds')
end

mutual
/-- The node of a declaration without the numbers. -/
def shape? : Declaration → Option StatementNode
  | ⟨tag, line, attributes, text, children⟩ =>
    let d : Declaration := ⟨tag, line, attributes, text, []⟩
    d.statement?.map fun statement =>
      ⟨0, statement, line, d.formula? "cond", StatementNode.sortByLine (shapes children)⟩

/-- The nodes of some declarations without the numbers. -/
def shapes : List Declaration → List StatementNode
  | [] => []
  | d :: rest => d.shape?.toList ++ shapes rest
end

theorem shapes_eq (ds : List Declaration) : shapes ds = ds.filterMap shape? := by
  induction ds with
  | nil => rw [shapes, List.filterMap_nil]
  | cons d ds ih =>
    rw [shapes, ih, List.filterMap_cons]
    cases d.shape? <;> rfl

/-- Only a declaration that makes a statement has a shape, and its line is that
of the declaration. -/
theorem shape?_eq_some {d : Declaration} {n : StatementNode} (h : d.shape? = some n) :
    d.kind?.isSome = true ∧ n.line = d.line := by
  obtain ⟨tag, line, attributes, text, children⟩ := d
  rw [shape?] at h
  obtain ⟨statement, hstatement, rfl⟩ := Option.map_eq_some_iff.mp h
  obtain ⟨kind, hkind, -⟩ := Option.map_eq_some_iff.mp hstatement
  exact ⟨Option.isSome_of_mem hkind, rfl⟩

theorem pairwise_shapes {ds : List Declaration}
    (h : (ds.filter (·.kind?.isSome)).Pairwise fun a b => a.line ≠ b.line) :
    (shapes ds).Pairwise fun a b => a.line ≠ b.line := by
  rw [shapes_eq, List.pairwise_filterMap]
  refine (List.pairwise_filter.mp h).imp fun {d d'} hne n hn n' hn' => ?_
  obtain ⟨hkind, hline⟩ := shape?_eq_some hn
  obtain ⟨hkind', hline'⟩ := shape?_eq_some hn'
  rw [hline, hline']
  exact hne hkind hkind'

mutual
/-- The order of the declarations does not enter into the shape. -/
theorem shape?_of_permuted : ∀ (d' : Declaration) {d : Declaration}, Permuted d d' →
    d.DistinctLines → d.shape? = d'.shape?
  | ⟨_, _, _, _, children'⟩, _, h, hd => by
    cases h with
    | @node _ _ _ _ children moved _ hmoved hbelow =>
      obtain ⟨hlines, hall⟩ := hd
      have hperm : (shapes children).Perm (shapes moved) := by
        rw [shapes_eq, shapes_eq]
        exact hmoved.filterMap shape?
      have hmovedAll : DistinctLinesAll moved :=
        distinctLinesAll_iff.mpr fun d hd => distinctLinesAll_iff.mp hall d (hmoved.mem_iff.mpr hd)
      rw [shape?, shape?, StatementNode.sortByLine_eq_of_perm hperm (pairwise_shapes hlines),
        shapes_of_permutedAll children' hbelow hmovedAll]

theorem shapes_of_permutedAll : ∀ (ds' : List Declaration) {ds : List Declaration},
    PermutedAll ds ds' → DistinctLinesAll ds → shapes ds = shapes ds'
  | [], _, h, _ => by
    cases h
    rfl
  | d' :: ds', _, h, hds => by
    cases h with
    | cons hd hrest =>
      obtain ⟨hdistinct, hdistinctAll⟩ := hds
      rw [shapes, shapes, shape?_of_permuted d' hd hdistinct,
        shapes_of_permutedAll ds' hrest hdistinctAll]
end

mutual
/-- A built tree has the shape of its declaration. -/
theorem unnumbered_ofDeclaration : ∀ (d : Declaration) (next : Nat),
    (StatementNode.ofDeclaration next d).map (·.1.unnumbered) = d.shape?
  | ⟨_, _, _, _, children⟩, next => by
    rw [StatementNode.ofDeclaration, shape?]
    dsimp only
    split
    · next h => rw [h]; rfl
    · next statement h =>
      rw [h, Option.map_some, Option.map_some, StatementNode.unnumbered,
        StatementNode.unnumberedAll_sortByLine, unnumberedAll_ofDeclarations children]

theorem unnumberedAll_ofDeclarations : ∀ (ds : List Declaration) (next : Nat),
    StatementNode.unnumberedAll (StatementNode.ofDeclarations next ds).1 = shapes ds
  | [], next => by
    rw [StatementNode.ofDeclarations, StatementNode.unnumberedAll, shapes]
  | d :: rest, next => by
    have hd := unnumbered_ofDeclaration d next
    rw [StatementNode.ofDeclarations, shapes, ← hd]
    split
    · next h =>
      rw [h, unnumberedAll_ofDeclarations rest]
      rfl
    · next n free h =>
      rw [h, StatementNode.unnumberedAll, unnumberedAll_ofDeclarations rest]
      rfl
end

end Declaration

namespace StatementTree

/-- The tree without the numbers. -/
def unnumbered (t : StatementTree) : StatementTree := ⟨t.root?.map (·.unnumbered)⟩

/-- **The order of the declarations does not matter** for the tree that is
built, up to the numbers of its nodes. -/
theorem unnumbered_ofDeclaration_of_permuted {d d' : Declaration} (h : d.Permuted d')
    (hd : d.DistinctLines) : (ofDeclaration d).unnumbered = (ofDeclaration d').unnumbered := by
  have hshape (d : Declaration) : (ofDeclaration d).unnumbered = ⟨d.shape?⟩ := by
    rw [unnumbered, ofDeclaration, Option.map_map, ← d.unnumbered_ofDeclaration 0]
    rfl
  rw [hshape, hshape, d'.shape?_of_permuted h hd]

end StatementTree
end TargetView
