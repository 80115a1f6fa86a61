import TargetView.Statement.Tree

/-! # What the trees of descriptions are like

The children of every node stand in the order of their lines (`Ordered`), in a
tree that is built from a declaration (`ordered_ofDeclaration`) and still after
a breakpoint has been added (`ordered_insertBreak`).  The numbers of the nodes
of such a tree are consecutive, though not in the order in which the nodes run
(`ids_ofDeclaration`).

Two trees are alike (`Alike`) if they have the same nodes in the same order,
under numbers that correspond; the second one may have some extra nodes.  So an
ordered tree is alike what becomes of it when a breakpoint is added, the
breakpoint being extra (`alike_insertBreak`): putting a node in its place does
not reorder the others, as sorting is stable.

A breakpoint is attached to the children of one node, be it the outermost one or
one further down (`Grafted`).  What holds of trees with a breakpoint more is
proved along that path.
-/
namespace TargetView

mutual
/-- Two nodes that are the same but for their numbers, which correspond; below
the second one there may be extra nodes. -/
inductive StatementNode.Alike (ids : Nat → Nat → Prop) (extra : StatementNode → Prop) :
    StatementNode → StatementNode → Prop
  | node {id id' line : Nat} {statement : Statement} {condition? : Option Formula}
      {children children' : List StatementNode} (hid : ids id id')
      (hc : StatementNode.AlikeAll ids extra children children') :
      StatementNode.Alike ids extra ⟨id, statement, line, condition?, children⟩
        ⟨id', statement, line, condition?, children'⟩

/-- Two lists of nodes that are alike one by one, extra ones left out. -/
inductive StatementNode.AlikeAll (ids : Nat → Nat → Prop) (extra : StatementNode → Prop) :
    List StatementNode → List StatementNode → Prop
  | nil : StatementNode.AlikeAll ids extra [] []
  | cons {n n' : StatementNode} {ns ns' : List StatementNode}
      (hn : StatementNode.Alike ids extra n n') (hns : StatementNode.AlikeAll ids extra ns ns') :
      StatementNode.AlikeAll ids extra (n :: ns) (n' :: ns')
  | extra {b : StatementNode} {ns ns' : List StatementNode} (hb : extra b)
      (hns : StatementNode.AlikeAll ids extra ns ns') :
      StatementNode.AlikeAll ids extra ns (b :: ns')
end

/-- Two trees with nodes that are alike. -/
def StatementTree.Alike (ids : Nat → Nat → Prop) (extra : StatementNode → Prop)
    (t t' : StatementTree) : Prop :=
  Option.Rel (StatementNode.Alike ids extra) t.root? t'.root?

namespace StatementNode

mutual
theorem Alike.refl {ids : Nat → Nat → Prop} {extra : StatementNode → Prop}
    (hids : ∀ id, ids id id) : ∀ n : StatementNode, n.Alike ids extra n
  | ⟨_, _, _, _, children⟩ => .node (hids _) (AlikeAll.refl hids children)

theorem AlikeAll.refl {ids : Nat → Nat → Prop} {extra : StatementNode → Prop}
    (hids : ∀ id, ids id id) : ∀ ns : List StatementNode, AlikeAll ids extra ns ns
  | [] => .nil
  | n :: ns => .cons (Alike.refl hids n) (AlikeAll.refl hids ns)
end

/-- A single extra node does not matter, wherever it stands. -/
theorem AlikeAll.insert {ids : Nat → Nat → Prop} {extra : StatementNode → Prop}
    (hids : ∀ id, ids id id) {b : StatementNode} (hb : extra b)
    (front behind : List StatementNode) :
    AlikeAll ids extra (front ++ behind) (front ++ b :: behind) := by
  induction front with
  | nil => exact .extra hb (.refl hids behind)
  | cons n front ih => exact .cons (.refl hids n) ih

/-- One of some nodes may be another one that is alike. -/
theorem AlikeAll.replace {ids : Nat → Nat → Prop} {extra : StatementNode → Prop}
    (hids : ∀ id, ids id id) {n n' : StatementNode} (h : n.Alike ids extra n')
    (front behind : List StatementNode) :
    AlikeAll ids extra (front ++ n :: behind) (front ++ n' :: behind) := by
  induction front with
  | nil => exact .cons h (.refl hids behind)
  | cons m front ih => exact .cons (.refl hids m) ih

/-! ## Order -/

/-- The nodes stand in the order of their lines. -/
def InLineOrder (ns : List StatementNode) : Prop := ns.Pairwise fun a b => a.line ≤ b.line

mutual
/-- The children of the node stand in the order of their lines, and so do those
of every node below it. -/
def Ordered : StatementNode → Prop
  | ⟨_, _, _, _, children⟩ => InLineOrder children ∧ OrderedAll children

/-- Each of the nodes is ordered. -/
def OrderedAll : List StatementNode → Prop
  | [] => True
  | n :: rest => n.Ordered ∧ OrderedAll rest
end

theorem orderedAll_iff {ns : List StatementNode} : OrderedAll ns ↔ ∀ n ∈ ns, n.Ordered := by
  induction ns with
  | nil => simp [OrderedAll]
  | cons n ns ih => simp [OrderedAll, ih]

theorem inLineOrder_congr {ns ns' : List StatementNode}
    (h : ns'.map (·.line) = ns.map (·.line)) (hns : InLineOrder ns) : InLineOrder ns' := by
  have hiff (l : List StatementNode) : InLineOrder l ↔ (l.map (·.line)).Pairwise (· ≤ ·) :=
    List.pairwise_map.symm
  rw [hiff] at hns ⊢
  rwa [h]

theorem perm_sortByLine (ns : List StatementNode) : (sortByLine ns).Perm ns :=
  List.mergeSort_perm ns _

theorem line_trans (a b c : StatementNode) (hab : decide (a.line ≤ b.line) = true)
    (hbc : decide (b.line ≤ c.line) = true) : decide (a.line ≤ c.line) = true :=
  decide_eq_true (Nat.le_trans (of_decide_eq_true hab) (of_decide_eq_true hbc))

theorem line_total (a b : StatementNode) :
    (decide (a.line ≤ b.line) || decide (b.line ≤ a.line)) = true := by
  simpa using Nat.le_total a.line b.line

theorem inLineOrder_sortByLine (ns : List StatementNode) : InLineOrder (sortByLine ns) :=
  (List.pairwise_mergeSort line_trans line_total ns).imp of_decide_eq_true

theorem orderedAll_sortByLine {ns : List StatementNode} (h : OrderedAll ns) :
    OrderedAll (sortByLine ns) :=
  orderedAll_iff.mpr fun n hn => orderedAll_iff.mp h n ((perm_sortByLine ns).mem_iff.mp hn)

mutual
theorem ordered_ofDeclaration : ∀ (d : Declaration) (next : Nat) {n : StatementNode} {free : Nat},
    ofDeclaration next d = some (n, free) → n.Ordered
  | ⟨_, _, _, _, children⟩, next, n, free, h => by
    rw [ofDeclaration] at h
    split at h
    · cases h
    · cases h
      exact ⟨inLineOrder_sortByLine _, orderedAll_sortByLine (orderedAll_ofDeclarations children _)⟩

theorem orderedAll_ofDeclarations : ∀ (ds : List Declaration) (next : Nat),
    OrderedAll (ofDeclarations next ds).1
  | [], _ => trivial
  | d :: rest, next => by
    rw [ofDeclarations]
    split
    · exact orderedAll_ofDeclarations rest next
    · next hd => exact ⟨ordered_ofDeclaration d next hd, orderedAll_ofDeclarations rest _⟩
end

/-! ## Breakpoints -/

/-- Who adds one element to a list and keeps the order of the others puts it
somewhere in between. -/
theorem exists_eq_of_sublist_of_perm {α : Type} {l s : List α} {x : α} (hsub : l.Sublist s)
    (hperm : s.Perm (l ++ [x])) :
    ∃ front behind, l = front ++ behind ∧ s = front ++ x :: behind := by
  induction hsub with
  | slnil => exact absurd hperm.length_eq (by simp)
  | @cons l s y hsub ih =>
    obtain rfl : l = s := hsub.eq_of_length (by simpa using hperm.length_eq.symm)
    have hcons : (y :: l).Perm (x :: l) := hperm.trans (List.perm_append_singleton x l)
    obtain rfl : y = x :=
      List.singleton_perm_singleton.mp ((List.perm_append_right_iff l).mp hcons)
    exact ⟨[], l, rfl, rfl⟩
  | @cons_cons l s y hsub ih =>
    obtain ⟨front, behind, rfl, rfl⟩ := ih hperm.cons_inv
    exact ⟨y :: front, behind, rfl, rfl⟩

section Breakpoints

variable {new : StatementNode}

/-- What adding a node does: it is attached to the children of a node, either
those of the outermost one or those of a node further down. -/
inductive Grafted (new : StatementNode) : StatementNode → StatementNode → Prop
  | here (id : Nat) (statement : Statement) (line : Nat) (condition? : Option Formula)
      (children : List StatementNode) :
      Grafted new ⟨id, statement, line, condition?, children⟩
        ⟨id, statement, line, condition?, attach new children⟩
  | deeper (id : Nat) (statement : Statement) (line : Nat) (condition? : Option Formula)
      (front behind : List StatementNode) {n n' : StatementNode} (hbreak : n.isBreak = false)
      (h : Grafted new n n') :
      Grafted new ⟨id, statement, line, condition?, front ++ n :: behind⟩
        ⟨id, statement, line, condition?, front ++ n' :: behind⟩

mutual
/-- **A node is added in one of two ways.** -/
theorem grafted_insertBreak : ∀ n : StatementNode, Grafted new n (insertBreak new n)
  | ⟨id, statement, line, condition?, children⟩ => by
    rw [insertBreak]
    cases hbelow : insertBelow new children with
    | none => exact .here ..
    | some children' =>
      obtain ⟨front, n, n', behind, rfl, rfl, hbreak, h⟩ := grafted_insertBelow children hbelow
      exact .deeper id statement line condition? front behind hbreak h

theorem grafted_insertBelow : ∀ (ns : List StatementNode) {ns' : List StatementNode},
    insertBelow new ns = some ns' → ∃ front n n' behind, ns = front ++ n :: behind ∧
      ns' = front ++ n' :: behind ∧ n.isBreak = false ∧ Grafted new n n'
  | [], _, h => by
    rw [insertBelow] at h
    cases h
  | n :: ns, _, h => by
    rw [insertBelow] at h
    split at h
    · next htakes =>
      cases h
      have hbreak : n.isBreak = false := by simpa using (Bool.and_eq_true_iff.mp htakes).1
      exact ⟨[], n, _, ns, rfl, rfl, hbreak, grafted_insertBreak n⟩
    · obtain ⟨rest, hrest, rfl⟩ := Option.map_eq_some_iff.mp h
      obtain ⟨front, m, m', behind, rfl, rfl, hgrafted⟩ := grafted_insertBelow ns hrest
      exact ⟨n :: front, m, m', behind, rfl, rfl, hgrafted⟩
end

theorem Grafted.line {n n' : StatementNode} (h : Grafted new n n') : n'.line = n.line := by
  cases h <;> rfl

theorem orderedAll_attach (hnew : new.Ordered) {ns : List StatementNode} (h : OrderedAll ns) :
    OrderedAll (attach new ns) := by
  rw [attach]
  split
  · exact h
  · refine orderedAll_sortByLine (orderedAll_iff.mpr fun n hn => ?_)
    rcases List.mem_append.mp hn with hn | hn
    · exact orderedAll_iff.mp h n hn
    · rwa [List.mem_singleton.mp hn]

theorem inLineOrder_attach {ns : List StatementNode} (h : InLineOrder ns) :
    InLineOrder (attach new ns) := by
  rw [attach]
  split
  · exact h
  · exact inLineOrder_sortByLine _

/-- The new node is attached somewhere among the children, or not at all. -/
theorem attach_eq {ns : List StatementNode} (h : InLineOrder ns) : attach new ns = ns ∨
    ∃ front behind, ns = front ++ behind ∧ attach new ns = front ++ new :: behind := by
  rw [attach]
  split
  · exact .inl rfl
  · -- The sort is stable, so that the nodes keep their order around the new one.
    have hsub : ns.Sublist (sortByLine (ns ++ [new])) :=
      List.sublist_mergeSort line_trans line_total (h.imp decide_eq_true)
        (List.sublist_append_left ns [new])
    exact .inr (exists_eq_of_sublist_of_perm hsub (perm_sortByLine _))

theorem Grafted.ordered (hnew : new.Ordered) {n n' : StatementNode} (h : Grafted new n n')
    (hn : n.Ordered) : n'.Ordered := by
  induction h with
  | here => exact ⟨inLineOrder_attach hn.1, orderedAll_attach hnew hn.2⟩
  | @deeper _ _ _ _ front behind n n' _ h ih =>
    obtain ⟨hline, hall⟩ := hn
    have hlines : (front ++ n' :: behind).map (·.line) = (front ++ n :: behind).map (·.line) := by
      rw [List.map_append, List.map_append, List.map_cons, List.map_cons, h.line]
    rw [orderedAll_iff, List.forall_mem_append, List.forall_mem_cons] at hall
    refine ⟨inLineOrder_congr hlines hline, ?_⟩
    rw [orderedAll_iff, List.forall_mem_append, List.forall_mem_cons]
    exact ⟨hall.1, ih hall.2.1, hall.2.2⟩

theorem ordered_insertBreak (hnew : new.Ordered) (n : StatementNode) (hn : n.Ordered) :
    (insertBreak new n).Ordered :=
  (grafted_insertBreak n).ordered hnew hn

section Alike

variable {ids : Nat → Nat → Prop} {extra : StatementNode → Prop}

theorem alikeAll_attach (hids : ∀ id, ids id id) (hnew : extra new) {ns : List StatementNode}
    (h : InLineOrder ns) : AlikeAll ids extra ns (attach new ns) := by
  rcases attach_eq h with heq | ⟨front, behind, hns, heq⟩
  · rw [heq]
    exact .refl hids ns
  · rw [heq, hns]
    exact .insert hids hnew front behind

theorem Grafted.alike (hids : ∀ id, ids id id) (hnew : extra new) {n n' : StatementNode}
    (h : Grafted new n n') (hn : n.Ordered) : n.Alike ids extra n' := by
  induction h with
  | here => exact .node (hids _) (alikeAll_attach hids hnew hn.1)
  | deeper _ _ _ _ front behind _ h ih =>
    have hall := List.forall_mem_append.mp (orderedAll_iff.mp hn.2)
    have halike := ih (List.forall_mem_cons.mp hall.2).1
    exact .node (hids _) (.replace hids halike front behind)

/-- **A tree is alike what becomes of it when a breakpoint is added.** -/
theorem alike_insertBreak (hids : ∀ id, ids id id) (hnew : extra new) (n : StatementNode)
    (hn : n.Ordered) : n.Alike ids extra (insertBreak new n) :=
  (grafted_insertBreak n).alike hids hnew hn

end Alike

end Breakpoints

/-! ## Numbers -/

/-- The numbers of the nodes from this one downwards, in the order in which the
nodes run. -/
def ids (n : StatementNode) : List Nat := n.preorder.map (·.id)

/-- The numbers of the nodes from some nodes downwards. -/
def idsAll (ns : List StatementNode) : List Nat := ns.flatMap ids

theorem preorderAll_eq (ns : List StatementNode) : preorderAll ns = ns.flatMap preorder := by
  induction ns with
  | nil => rw [preorderAll, List.flatMap_nil]
  | cons n ns ih => rw [preorderAll, List.flatMap_cons, ih]

theorem ids_mk (id : Nat) (statement : Statement) (line : Nat) (condition? : Option Formula)
    (children : List StatementNode) :
    ids ⟨id, statement, line, condition?, children⟩ = id :: idsAll children := by
  rw [ids, preorder, List.map_cons, preorderAll_eq, List.map_flatMap]
  rfl

mutual
/-- The numbers of a built tree are consecutive. -/
theorem ids_ofDeclaration : ∀ (d : Declaration) (next : Nat) {n : StatementNode} {free : Nat},
    ofDeclaration next d = some (n, free) →
      ∃ size, free = next + size ∧ n.ids.Perm (List.range' next size)
  | ⟨_, _, _, _, children⟩, next, n, free, h => by
    rw [ofDeclaration] at h
    split at h
    · cases h
    · cases h
      obtain ⟨size, hfree, hperm⟩ := idsAll_ofDeclarations children (next + 1)
      refine ⟨size + 1, by omega, ?_⟩
      rw [ids_mk, List.range'_succ]
      exact (((perm_sortByLine _).flatMap_right ids).trans hperm).cons next

theorem idsAll_ofDeclarations : ∀ (ds : List Declaration) (next : Nat),
    ∃ size, (ofDeclarations next ds).2 = next + size ∧
      (idsAll (ofDeclarations next ds).1).Perm (List.range' next size)
  | [], next => ⟨0, rfl, .refl _⟩
  | d :: rest, next => by
    rw [ofDeclarations]
    split
    · exact idsAll_ofDeclarations rest next
    · next n free hd =>
      obtain ⟨size, rfl, hn⟩ := ids_ofDeclaration d next hd
      obtain ⟨sizeAll, hfree, hrest⟩ := idsAll_ofDeclarations rest (next + size)
      refine ⟨size + sizeAll, hfree.trans (Nat.add_assoc ..), ?_⟩
      have happend : List.range' next size ++ List.range' (next + size) sizeAll =
          List.range' next (size + sizeAll) := by
        simp
      rw [← happend]
      exact hn.append hrest
end

theorem nodup_ids_ofDeclaration {d : Declaration} {next free : Nat} {n : StatementNode}
    (h : ofDeclaration next d = some (n, free)) : n.ids.Nodup := by
  obtain ⟨size, -, hperm⟩ := ids_ofDeclaration d next h
  exact hperm.nodup_iff.mpr List.nodup_range'

end StatementNode

namespace StatementTree

theorem Alike.refl {ids : Nat → Nat → Prop} {extra : StatementNode → Prop}
    (hids : ∀ id, ids id id) (t : StatementTree) : t.Alike ids extra t := by
  obtain ⟨_ | n⟩ := t
  · exact .none
  · exact .some (.refl hids n)

/-- The nodes of the tree are ordered. -/
def Ordered (t : StatementTree) : Prop := ∀ n ∈ t.root?, n.Ordered

theorem ordered_ofDeclaration (d : Declaration) : (ofDeclaration d).Ordered := by
  intro n hn
  obtain ⟨⟨n, free⟩, hbuilt, rfl⟩ := Option.map_eq_some_iff.mp hn
  exact StatementNode.ordered_ofDeclaration d 0 hbuilt

theorem ordered_insertBreak {t : StatementTree} (h : t.Ordered) (d : Declaration) :
    (t.insertBreak d).Ordered := by
  rw [insertBreak]
  split
  · intro n hn
    obtain ⟨root, hroot, rfl⟩ := Option.map_eq_some_iff.mp hn
    refine StatementNode.ordered_insertBreak ?_ root (h root hroot)
    exact ⟨.nil, trivial⟩
  · exact h

theorem ordered_insertBreaks {t : StatementTree} (h : t.Ordered) (breaks : List Declaration) :
    (t.insertBreaks breaks).Ordered := by
  induction breaks generalizing t with
  | nil => exact h
  | cons d breaks ih => exact ih (ordered_insertBreak h d)

end StatementTree
end TargetView
