import Mathlib.Data.List.Nodup
import TargetView.Proofs.Trees

/-! # Trees as tables

The nodes of a tree in the order in which they run, each with the numbers of its
parent and of its children, make a table (`StatementNode.entries`).  Who is below
another one is listed by the entry that it names as its parent
(`parent_of_mem_entries`), and who is listed as a child names the entry that
lists it (`children_of_mem_entries`).  The parents in this table are those of the
nesting; it is what the links that are stored (`LinkedNode`) are measured by.

Siblings are ranked by their lines, and on one line by their numbers (`Ranked`).
Numbers are given out in the order of the description, and to breakpoints when
they are added, so that nodes of one line stand in the order in which they came
into the tree.  Sorting by lines ranks nodes if those of one line are ranked
already, as it is stable (`isRanked_sortByLine`).
-/
namespace TargetView

/-- A node with the numbers of its parent and of its children. -/
structure Entry where
  id : Nat
  parent? : Option Nat
  statement : Statement
  line : Nat
  condition? : Option Formula
  children : List Nat

namespace StatementNode

/-- The node as it stands in a table. -/
def entry (parent? : Option Nat) (n : StatementNode) : Entry :=
  ⟨n.id, parent?, n.statement, n.line, n.condition?, n.children.map (·.id)⟩

mutual
/-- The table of the nodes from this one downwards. -/
def entries (parent? : Option Nat) : StatementNode → List Entry
  | ⟨id, statement, line, condition?, children⟩ =>
    ⟨id, parent?, statement, line, condition?, children.map (·.id)⟩ :: entriesAll id children

/-- The table of the nodes from some children of a node downwards. -/
def entriesAll (parent : Nat) : List StatementNode → List Entry
  | [] => []
  | n :: rest => n.entries (some parent) ++ entriesAll parent rest
end

variable {n : StatementNode} {ns : List StatementNode}

theorem entries_eq (parent? : Option Nat) (n : StatementNode) :
    n.entries parent? = n.entry parent? :: entriesAll n.id n.children := by
  cases n
  rw [entries]
  rfl

theorem entriesAll_eq (parent : Nat) (ns : List StatementNode) :
    entriesAll parent ns = ns.flatMap (·.entries (some parent)) := by
  induction ns with
  | nil => rw [entriesAll, List.flatMap_nil]
  | cons n ns ih => rw [entriesAll, List.flatMap_cons, ih]

theorem entriesAll_append (parent : Nat) (ns ms : List StatementNode) :
    entriesAll parent (ns ++ ms) = entriesAll parent ns ++ entriesAll parent ms := by
  rw [entriesAll_eq, entriesAll_eq, entriesAll_eq, List.flatMap_append]

theorem idsAll_append (ns ms : List StatementNode) : idsAll (ns ++ ms) = idsAll ns ++ idsAll ms :=
  List.flatMap_append

theorem idsAll_cons (n : StatementNode) (ns : List StatementNode) :
    idsAll (n :: ns) = n.ids ++ idsAll ns :=
  List.flatMap_cons

theorem entry_mem_entries (parent? : Option Nat) (n : StatementNode) :
    n.entry parent? ∈ n.entries parent? := by
  rw [entries_eq]
  exact List.mem_cons_self

mutual
/-- The table lists the nodes in the order in which they run. -/
theorem map_id_entries : ∀ (n : StatementNode) (parent? : Option Nat),
    (n.entries parent?).map (·.id) = n.ids
  | ⟨_, _, _, _, children⟩, parent? => by
    rw [entries, List.map_cons, ids_mk, map_id_entriesAll children]

theorem map_id_entriesAll : ∀ (ns : List StatementNode) (parent : Nat),
    (entriesAll parent ns).map (·.id) = idsAll ns
  | [], _ => by
    rw [entriesAll]
    rfl
  | n :: ns, parent => by
    rw [entriesAll, List.map_append, map_id_entries n, map_id_entriesAll ns, idsAll, idsAll,
      List.flatMap_cons]
end

mutual
/-- Every node has an entry in the table. -/
theorem exists_entry_mem_entries : ∀ (n : StatementNode) (parent? : Option Nat),
    ∀ m ∈ n.preorder, ∃ parent'?, m.entry parent'? ∈ n.entries parent?
  | ⟨id, statement, line, condition?, children⟩, parent? => by
    rw [preorder, entries, List.forall_mem_cons]
    exact ⟨⟨parent?, List.mem_cons_self⟩, fun m hm =>
      (exists_entry_mem_entriesAll children id m hm).imp fun _ => List.mem_cons_of_mem _⟩

theorem exists_entry_mem_entriesAll : ∀ (ns : List StatementNode) (parent : Nat),
    ∀ m ∈ preorderAll ns, ∃ parent'?, m.entry parent'? ∈ entriesAll parent ns
  | [], _ => by
    rw [preorderAll]
    exact List.forall_mem_nil _
  | n :: ns, parent => by
    rw [preorderAll, entriesAll, List.forall_mem_append]
    exact ⟨fun m hm => (exists_entry_mem_entries n (some parent) m hm).imp fun _ =>
        List.mem_append_left _,
      fun m hm => (exists_entry_mem_entriesAll ns parent m hm).imp fun _ =>
        List.mem_append_right _⟩
end

mutual
theorem length_ids : ∀ n : StatementNode, n.ids.length = n.size
  | ⟨_, _, _, _, children⟩ => by rw [ids_mk, List.length_cons, length_idsAll children, size]

theorem length_idsAll : ∀ ns : List StatementNode, (idsAll ns).length = sizeAll ns
  | [] => by
    rw [sizeAll]
    rfl
  | n :: ns => by
    rw [idsAll, List.flatMap_cons, List.length_append, length_ids n, ← idsAll, length_idsAll ns,
      sizeAll]
end

theorem id_mem_ids (n : StatementNode) : n.id ∈ n.ids := by
  cases n
  rw [ids_mk]
  exact List.mem_cons_self

theorem mem_idsAll_of_mem (h : n ∈ ns) : n.id ∈ idsAll ns :=
  List.mem_flatMap.mpr ⟨n, h, n.id_mem_ids⟩

/-! ## Links -/

mutual
/-- Below a node every entry is listed by the one that it names as its parent. -/
theorem parent_of_mem_entries : ∀ (n : StatementNode) (parent? : Option Nat),
    ∀ e ∈ n.entries parent?, e = n.entry parent? ∨
      ∃ p ∈ n.entries parent?, e.parent? = some p.id ∧ e.id ∈ p.children
  | ⟨id, statement, line, condition?, children⟩, parent?, e, he => by
    rw [entries] at he ⊢
    rcases List.mem_cons.mp he with rfl | he
    · exact .inl rfl
    · rcases parent_of_mem_entriesAll children id e he with ⟨hparent, hmem⟩ | ⟨p, hp, h⟩
      · exact .inr ⟨_, List.mem_cons_self, hparent, hmem⟩
      · exact .inr ⟨p, List.mem_cons_of_mem _ hp, h⟩

theorem parent_of_mem_entriesAll : ∀ (ns : List StatementNode) (parent : Nat),
    ∀ e ∈ entriesAll parent ns, (e.parent? = some parent ∧ e.id ∈ ns.map (·.id)) ∨
      ∃ p ∈ entriesAll parent ns, e.parent? = some p.id ∧ e.id ∈ p.children
  | [], _, _, he => by
    rw [entriesAll] at he
    cases he
  | n :: ns, parent, e, he => by
    rw [entriesAll] at he ⊢
    rcases List.mem_append.mp he with he | he
    · rcases parent_of_mem_entries n (some parent) e he with rfl | ⟨p, hp, h⟩
      · exact .inl ⟨rfl, List.mem_cons_self⟩
      · exact .inr ⟨p, List.mem_append_left _ hp, h⟩
    · rcases parent_of_mem_entriesAll ns parent e he with ⟨hparent, hmem⟩ | ⟨p, hp, h⟩
      · exact .inl ⟨hparent, List.mem_cons_of_mem _ hmem⟩
      · exact .inr ⟨p, List.mem_append_right _ hp, h⟩
end

/-! ## Ranks -/

/-- The first node stands before the second one among their siblings. -/
def Before (a b : StatementNode) : Prop := a.line < b.line ∨ a.line = b.line ∧ a.id < b.id

/-- The siblings are ranked by their lines, and on one line by their numbers. -/
def IsRanked (ns : List StatementNode) : Prop := ns.Pairwise Before

mutual
/-- The children of the node and of every node below it are ranked. -/
def Ranked : StatementNode → Prop
  | ⟨_, _, _, _, children⟩ => IsRanked children ∧ RankedAll children

/-- Each of the nodes is ranked. -/
def RankedAll : List StatementNode → Prop
  | [] => True
  | n :: rest => n.Ranked ∧ RankedAll rest
end

theorem rankedAll_iff : RankedAll ns ↔ ∀ n ∈ ns, n.Ranked := by
  induction ns with
  | nil => simp [RankedAll]
  | cons n ns ih => simp [RankedAll, ih]

/-- Sorting leaves the nodes of one line in their order. -/
theorem filter_sortByLine (ns : List StatementNode) (line : Nat) :
    (sortByLine ns).filter (·.line == line) = ns.filter (·.line == line) := by
  have hsame : (ns.filter (·.line == line)).Pairwise fun a b => decide (a.line ≤ b.line) = true := by
    refine List.pairwise_of_forall_mem_list fun a ha b hb => decide_eq_true ?_
    have hline : a.line = line := eq_of_beq (List.mem_filter.mp ha).2
    have hline' : b.line = line := eq_of_beq (List.mem_filter.mp hb).2
    omega
  have hsub := (List.sublist_mergeSort line_trans line_total hsame List.filter_sublist).filter
    (·.line == line)
  simp only [List.filter_filter, Bool.and_self] at hsub
  exact (hsub.eq_of_length ((perm_sortByLine ns).filter _).length_eq.symm).symm

/-- **Sorting by lines ranks nodes** of which those of one line are ranked. -/
theorem isRanked_sortByLine (h : ns.Pairwise fun a b => a.line = b.line → a.id < b.id) :
    IsRanked (sortByLine ns) := by
  refine List.pairwise_iff_forall_sublist.mpr fun {a b} hab => ?_
  have hle : a.line ≤ b.line :=
    List.pairwise_iff_forall_sublist.mp (inLineOrder_sortByLine ns) hab
  rcases Nat.lt_or_eq_of_le hle with hlt | heq
  · exact .inl hlt
  · have hfilter := hab.filter (·.line == b.line)
    rw [filter_sortByLine, List.filter_cons_of_pos (by simpa using heq),
      List.filter_cons_of_pos (by simp), List.filter_nil] at hfilter
    exact .inr ⟨heq, List.pairwise_iff_forall_sublist.mp h
      (hfilter.trans List.filter_sublist) heq⟩

theorem isRanked_congr {ns' : List StatementNode}
    (h : ns'.map (fun n => (n.line, n.id)) = ns.map fun n => (n.line, n.id))
    (hns : IsRanked ns) : IsRanked ns' := by
  have hiff (l : List StatementNode) : IsRanked l ↔ (l.map fun n => (n.line, n.id)).Pairwise
      fun a b => a.1 < b.1 ∨ a.1 = b.1 ∧ a.2 < b.2 := by
    rw [List.pairwise_map]
    rfl
  rw [hiff] at hns ⊢
  rwa [h]

theorem rankedAll_sortByLine (h : RankedAll ns) : RankedAll (sortByLine ns) :=
  rankedAll_iff.mpr fun n hn => rankedAll_iff.mp h n ((perm_sortByLine ns).mem_iff.mp hn)

/-- The numbers of a built tree are consecutive, as many as there are nodes. -/
theorem perm_ids_ofDeclaration {d : Declaration} {next free : Nat}
    (h : ofDeclaration next d = some (n, free)) :
    free = next + n.size ∧ n.ids.Perm (List.range' next n.size) := by
  obtain ⟨size, hfree, hperm⟩ := ids_ofDeclaration d next h
  have hsize : n.size = size := by rw [← n.length_ids, hperm.length_eq, List.length_range']
  rw [hsize]
  exact ⟨hfree, hperm⟩

theorem bounds_of_ofDeclaration {d : Declaration} {next free : Nat}
    (h : ofDeclaration next d = some (n, free)) : ∀ i ∈ n.ids, next ≤ i ∧ i < free := by
  obtain ⟨rfl, hperm⟩ := perm_ids_ofDeclaration h
  exact fun i hi => List.mem_range'_1.mp (hperm.mem_iff.mp hi)

theorem bounds_of_ofDeclarations (ds : List Declaration) (next : Nat) :
    ∀ i ∈ idsAll (ofDeclarations next ds).1, next ≤ i ∧ i < (ofDeclarations next ds).2 := by
  obtain ⟨size, hfree, hperm⟩ := idsAll_ofDeclarations ds next
  rw [hfree]
  exact fun i hi => List.mem_range'_1.mp (hperm.mem_iff.mp hi)

/-- Nodes are numbered in the order of the declarations. -/
theorem pairwise_id_ofDeclarations (ds : List Declaration) (next : Nat) :
    (ofDeclarations next ds).1.Pairwise fun a b => a.id < b.id := by
  induction ds generalizing next with
  | nil => exact .nil
  | cons d ds ih =>
    rw [ofDeclarations]
    split
    · exact ih next
    · next n free hd =>
      refine List.pairwise_cons.mpr ⟨fun m hm => ?_, ih free⟩
      have hn := (bounds_of_ofDeclaration hd n.id n.id_mem_ids).2
      have hm' := (bounds_of_ofDeclarations ds free m.id (mem_idsAll_of_mem hm)).1
      exact Nat.lt_of_lt_of_le hn hm'

mutual
/-- **The nodes of a built tree are ranked.** -/
theorem ranked_ofDeclaration : ∀ (d : Declaration) (next : Nat) {n : StatementNode} {free : Nat},
    ofDeclaration next d = some (n, free) → n.Ranked
  | ⟨_, _, _, _, children⟩, next, n, free, h => by
    rw [ofDeclaration] at h
    split at h
    · cases h
    · cases h
      refine ⟨isRanked_sortByLine ?_, rankedAll_sortByLine (rankedAll_ofDeclarations children _)⟩
      exact (pairwise_id_ofDeclarations children (next + 1)).imp
        fun {a b} (hlt : a.id < b.id) (_ : a.line = b.line) => hlt

theorem rankedAll_ofDeclarations : ∀ (ds : List Declaration) (next : Nat),
    RankedAll (ofDeclarations next ds).1
  | [], _ => trivial
  | d :: rest, next => by
    rw [ofDeclarations]
    split
    · exact rankedAll_ofDeclarations rest next
    · next hd => exact ⟨ranked_ofDeclaration d next hd, rankedAll_ofDeclarations rest _⟩
end

mutual
/-- The children of an entry are ranked nodes, and their entries name it as their
parent. -/
theorem children_of_mem_entries : ∀ (n : StatementNode) (parent? : Option Nat), n.Ranked →
    ∀ p ∈ n.entries parent?, ∃ ns : List StatementNode, p.children = ns.map (·.id) ∧
      IsRanked ns ∧ ∀ m ∈ ns, m.entry (some p.id) ∈ n.entries parent?
  | ⟨id, statement, line, condition?, children⟩, parent?, ⟨hranked, hall⟩, p, hp => by
    rw [entries] at hp ⊢
    rcases List.mem_cons.mp hp with rfl | hp
    · refine ⟨children, rfl, hranked, fun m hm => List.mem_cons_of_mem _ ?_⟩
      rw [entriesAll_eq]
      exact List.mem_flatMap.mpr ⟨m, hm, m.entry_mem_entries _⟩
    · obtain ⟨ns, hns, hns', hmem⟩ := children_of_mem_entriesAll children id hall p hp
      exact ⟨ns, hns, hns', fun m hm => List.mem_cons_of_mem _ (hmem m hm)⟩

theorem children_of_mem_entriesAll : ∀ (ms : List StatementNode) (parent : Nat), RankedAll ms →
    ∀ p ∈ entriesAll parent ms, ∃ ns : List StatementNode, p.children = ns.map (·.id) ∧
      IsRanked ns ∧ ∀ m ∈ ns, m.entry (some p.id) ∈ entriesAll parent ms
  | [], _, _, _, hp => by
    rw [entriesAll] at hp
    cases hp
  | m :: ms, parent, ⟨hm, hms⟩, p, hp => by
    rw [entriesAll] at hp ⊢
    rcases List.mem_append.mp hp with hp | hp
    · obtain ⟨ns, hns, hns', hmem⟩ := children_of_mem_entries m (some parent) hm p hp
      exact ⟨ns, hns, hns', fun k hk => List.mem_append_left _ (hmem k hk)⟩
    · obtain ⟨ns, hns, hns', hmem⟩ := children_of_mem_entriesAll ms parent hms p hp
      exact ⟨ns, hns, hns', fun k hk => List.mem_append_right _ (hmem k hk)⟩
end

end StatementNode

namespace StatementTree

/-- The table of a tree. -/
def entries (t : StatementTree) : List Entry := t.root?.elim [] (·.entries none)

theorem entries_none : entries ⟨none⟩ = [] := rfl

theorem entries_some (n : StatementNode) : entries ⟨some n⟩ = n.entries none := rfl

end StatementTree
end TargetView
