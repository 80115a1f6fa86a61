import TargetView.Proofs.Tables
import TargetView.Statement.Linked

/-! # Linking the nodes of a description

A linked tree holds the entries of a table (`LinkedTree.Holds`) if the node at
the number of each entry says what the entry does, its link to the node above
included.  It mirrors a statement tree (`LinkedTree.Mirrors`) if it holds the
table of that tree, and nothing else.

Building goes in two steps, and so does the proof that it mirrors the tree of
the declaration.  Converting a declaration puts the table of its draft behind
all nodes (`convert_eq`): the draft is the tree in which children stand as they
are described, so that its nodes run in the order of their numbers.  Sorting the
children of all nodes then sorts the draft (`holds_sorted`).
-/
namespace TargetView

/-- What an entry says of its node. -/
def Entry.node (e : Entry) : LinkedNode :=
  ⟨e.statement, e.line, e.condition?, e.parent?, e.children⟩

namespace StatementNode

variable {n : StatementNode} {ns : List StatementNode} {next free : Nat}

theorem length_entries (n : StatementNode) (parent? : Option Nat) :
    (n.entries parent?).length = n.size := by
  rw [← length_ids, ← map_id_entries n parent?, List.length_map]

/-! ## Drafts -/

mutual
/-- The node of a declaration with the children as they are described. -/
def draft (next : Nat) : Declaration → Option (StatementNode × Nat)
  | ⟨tag, line, attributes, text, children⟩ =>
    let d : Declaration := ⟨tag, line, attributes, text, []⟩
    match d.statement? with
    | none => none
    | some statement =>
      let (nodes, free) := draftAll (next + 1) children
      some (⟨next, statement, line, d.formula? "cond", nodes⟩, free)

/-- The nodes of some declarations, each with the children as they are
described. -/
def draftAll (next : Nat) : List Declaration → List StatementNode × Nat
  | [] => ([], next)
  | d :: rest =>
    match draft next d with
    | none => draftAll next rest
    | some (node, free) =>
      let (nodes, free) := draftAll free rest
      (node :: nodes, free)
end

mutual
/-- The node with its children in the order of their lines, and so for all nodes
below it. -/
def sorted : StatementNode → StatementNode
  | ⟨id, statement, line, condition?, children⟩ =>
    ⟨id, statement, line, condition?, sortByLine (sortedAll children)⟩

/-- Some nodes, each of them sorted. -/
def sortedAll : List StatementNode → List StatementNode
  | [] => []
  | n :: rest => n.sorted :: sortedAll rest
end

theorem sortedAll_eq (ns : List StatementNode) : sortedAll ns = ns.map sorted := by
  induction ns with
  | nil => rfl
  | cons n ns ih => rw [sortedAll, List.map_cons, ih]

@[simp] theorem id_sorted (n : StatementNode) : n.sorted.id = n.id := by
  cases n
  rfl

@[simp] theorem line_sorted (n : StatementNode) : n.sorted.line = n.line := by
  cases n
  rfl

/-- Children may be sorted before or after what is below them. -/
theorem sortByLine_sortedAll (ns : List StatementNode) :
    sortByLine (sortedAll ns) = sortedAll (sortByLine ns) := by
  rw [sortedAll_eq, sortedAll_eq]
  exact (List.map_mergeSort fun a _ b _ => by simp).symm

mutual
/-- **A draft that is sorted is the tree that is built.** -/
theorem ofDeclaration_eq : ∀ (d : Declaration) (next : Nat),
    ofDeclaration next d = (draft next d).map fun r => (r.1.sorted, r.2)
  | ⟨tag, line, attributes, text, children⟩, next => by
    rw [ofDeclaration, draft, ofDeclarations_eq children]
    cases (Declaration.mk tag line attributes text []).statement? with
    | none => rfl
    | some statement =>
      dsimp only
      rw [Option.map_some, sorted]

theorem ofDeclarations_eq : ∀ (ds : List Declaration) (next : Nat),
    ofDeclarations next ds = (sortedAll (draftAll next ds).1, (draftAll next ds).2)
  | [], _ => by
    rw [ofDeclarations, draftAll, sortedAll]
  | d :: rest, next => by
    rw [ofDeclarations, draftAll, ofDeclaration_eq d]
    cases hd : draft next d with
    | none =>
      rw [Option.map_none]
      exact ofDeclarations_eq rest next
    | some r =>
      obtain ⟨n, free⟩ := r
      rw [Option.map_some]
      dsimp only
      rw [ofDeclarations_eq rest free, sortedAll]
end

mutual
/-- The nodes of a draft run in the order of their numbers. -/
theorem ids_draft : ∀ (d : Declaration) (next : Nat) {n : StatementNode} {free : Nat},
    draft next d = some (n, free) →
      free = next + n.size ∧ n.ids = List.range' next n.size
  | ⟨_, _, _, _, children⟩, next, n, free, h => by
    rw [draft] at h
    split at h
    · cases h
    · cases h
      obtain ⟨hfree, hids⟩ := ids_draftAll children (next + 1)
      rw [ids_mk, size, hids, List.range'_succ]
      exact ⟨by omega, rfl⟩

theorem ids_draftAll : ∀ (ds : List Declaration) (next : Nat),
    (draftAll next ds).2 = next + sizeAll (draftAll next ds).1 ∧
      idsAll (draftAll next ds).1 = List.range' next (sizeAll (draftAll next ds).1)
  | [], next => by
    rw [draftAll, sizeAll]
    exact ⟨rfl, rfl⟩
  | d :: rest, next => by
    rw [draftAll]
    cases hd : draft next d with
    | none => exact ids_draftAll rest next
    | some r =>
      obtain ⟨n, free⟩ := r
      obtain ⟨rfl, hn⟩ := ids_draft d next hd
      obtain ⟨hfree, hids⟩ := ids_draftAll rest (next + n.size)
      dsimp only
      rw [sizeAll, idsAll_cons, hn, hids, ← List.range'_append_1]
      exact ⟨by omega, rfl⟩
end

end StatementNode

namespace LinkedTree

open StatementNode

variable {t t' : LinkedTree} {es : List Entry} {n : StatementNode} {i parent : Nat}

/-! ## Adding nodes and children -/

theorem node_eq {r : LinkedNode} (h : t.nodes[i]? = some r) : t.node i = r := by
  rw [node, h]
  rfl

/-- The tree with the nodes of some entries behind all others. -/
def append (t : LinkedTree) (es : List Entry) : LinkedTree :=
  { t with nodes := t.nodes ++ (es.map Entry.node).toArray }

/-- The tree with some children more below a node. -/
def addChildren (t : LinkedTree) (parent : Nat) (children : List Nat) : LinkedTree :=
  { t with nodes := t.nodes.modify parent fun n => { n with children := n.children ++ children } }

theorem size_append (t : LinkedTree) (es : List Entry) :
    (t.append es).size = t.size + es.length := by
  simp [append, size]

@[simp] theorem size_addChildren (t : LinkedTree) (parent : Nat) (children : List Nat) :
    (t.addChildren parent children).size = t.size :=
  Array.size_modify

theorem append_nil (t : LinkedTree) : t.append [] = t := by
  simp [append]

theorem append_append (t : LinkedTree) (es es' : List Entry) :
    (t.append es).append es' = t.append (es ++ es') := by
  simp [append, Array.append_assoc]

theorem addChildren_nil (t : LinkedTree) (parent : Nat) : t.addChildren parent [] = t := by
  have hnodes : t.nodes.modify parent (fun n => { n with children := n.children ++ [] }) =
      t.nodes := by
    refine Array.ext_getElem? fun i => ?_
    rw [Array.getElem?_modify]
    cases t.nodes[i]? <;> simp
  rw [addChildren, hnodes]

theorem addChildren_addChildren (t : LinkedTree) (parent : Nat) (first second : List Nat) :
    (t.addChildren parent first).addChildren parent second =
      t.addChildren parent (first ++ second) := by
  have hnodes : ((t.addChildren parent first).addChildren parent second).nodes =
      (t.addChildren parent (first ++ second)).nodes := by
    refine Array.ext_getElem? fun i => ?_
    simp only [addChildren, Array.getElem?_modify]
    split
    · cases t.nodes[i]? <;> simp
    · rfl
  rw [addChildren, addChildren, addChildren] at hnodes ⊢
  exact congrArg (LinkedTree.mk · t.root?) hnodes

/-- Children of an old node may be added before new nodes are. -/
theorem addChildren_append (h : parent < t.size) (es : List Entry) (children : List Nat) :
    (t.append es).addChildren parent children = (t.addChildren parent children).append es := by
  have hnodes : ((t.append es).addChildren parent children).nodes =
      ((t.addChildren parent children).append es).nodes := by
    refine Array.ext_getElem? fun i => ?_
    simp only [addChildren, append, Array.getElem?_modify, Array.getElem?_append,
      Array.size_modify]
    have h : parent < t.nodes.size := h
    by_cases hi : i < t.nodes.size
    · simp [hi]
    · have hne : parent ≠ i := by omega
      simp [hi, hne]
  exact congrArg (LinkedTree.mk · t.root?) hnodes

/-! ## Converting -/

/-- The number of a place below a limit is the place itself. -/
def Exact (number : Nat → Nat) (limit : Nat) : Prop := ∀ i < limit, number i = i

theorem Exact.mono {number : Nat → Nat} {limit limit' : Nat} (h : Exact number limit)
    (hle : limit' ≤ limit) : Exact number limit' :=
  fun i hi => h i (Nat.lt_of_lt_of_le hi hle)

section Converting

variable {number : Nat → Nat} {room : Nat}

/-- A node with nothing below it is followed by what is below it, whose numbers
it is given. -/
theorem push_addChildren (hnumber : Exact number room) (statement : Statement) (d : Declaration)
    (parent? : Option Nat) (ns : List StatementNode) (hroom : t.size < room) :
    (push number t statement d parent?).1 = t.size ∧
      ((push number t statement d parent?).2.addChildren t.size (ns.map (·.id))).append
          (entriesAll t.size ns) =
        t.append (entries parent? ⟨t.size, statement, d.line, d.formula? "cond", ns⟩) := by
  refine ⟨hnumber t.size hroom, ?_⟩
  have hnodes : ((push number t statement d parent?).2.addChildren t.size (ns.map (·.id))).nodes =
      t.nodes.push ⟨statement, d.line, d.formula? "cond", parent?, ns.map (·.id)⟩ := by
    refine Array.ext_getElem? fun i => ?_
    simp only [push, addChildren, size, Array.getElem?_modify, Array.getElem?_push]
    by_cases hi : i = t.nodes.size
    · simp [hi]
    · have hne : ¬t.nodes.size = i := fun h => hi h.symm
      simp [hi, hne]
  rw [entries, append, hnodes, append, List.map_cons, Array.push_eq_append, Array.append_assoc]
  simp [Entry.node, push, addChildren]

mutual
/-- **Converting a declaration puts the table of its draft behind all nodes.** -/
theorem convert_eq (hnumber : Exact number room) : ∀ (d : Declaration) (parent? : Option Nat)
    (t : LinkedTree), (∀ r ∈ draft t.size d, r.2 ≤ room) →
      convert number parent? d t = (draft t.size d).elim (none, t) fun r =>
        (some r.1.id, t.append (r.1.entries parent?))
  | ⟨tag, line, attributes, text, children⟩, parent?, t, hroom => by
    rw [draft] at hroom ⊢
    rw [convert]
    dsimp only at hroom ⊢
    cases hstatement : (Declaration.mk tag line attributes text []).statement? with
    | none => rfl
    | some statement =>
      rw [hstatement] at hroom
      dsimp only at hroom ⊢
      have hfree := hroom _ rfl
      obtain ⟨hsize, -⟩ := ids_draftAll children (t.size + 1)
      obtain ⟨hplace, hpush⟩ := push_addChildren (t := t) hnumber statement
        ⟨tag, line, attributes, text, []⟩ parent? (draftAll (t.size + 1) children).1 (by omega)
      have hnext : (push number t statement ⟨tag, line, attributes, text, []⟩ parent?).2.size =
          t.size + 1 := Array.size_push _
      rw [convertAll_eq hnumber children _ _ (by omega) (by rw [hnext]; exact hfree), hplace,
        hnext, hpush]
      rfl

theorem convertAll_eq (hnumber : Exact number room) : ∀ (ds : List Declaration) (parent : Nat)
    (t : LinkedTree), parent < t.size → (draftAll t.size ds).2 ≤ room →
      convertAll number parent ds t =
        (t.addChildren parent ((draftAll t.size ds).1.map (·.id))).append
          (entriesAll parent (draftAll t.size ds).1)
  | [], parent, t, _, _ => by
    rw [convertAll, draftAll, entriesAll, List.map_nil, addChildren_nil, append_nil]
  | d :: rest, parent, t, hparent, hroom => by
    rw [draftAll] at hroom ⊢
    rw [convertAll]
    cases hd : draft t.size d with
    | none =>
      rw [hd] at hroom
      have hnone : ∀ r ∈ draft t.size d, r.2 ≤ room := by
        rw [hd]
        exact fun r hr => absurd hr (Option.not_mem_none r)
      rw [convert_eq hnumber d (some parent) t hnone, hd]
      exact convertAll_eq hnumber rest parent t hparent hroom
    | some r =>
      obtain ⟨n, free⟩ := r
      rw [hd] at hroom
      dsimp only at hroom ⊢
      obtain ⟨hfree, -⟩ := ids_draft d t.size hd
      obtain ⟨hrest, -⟩ := ids_draftAll rest free
      have hsome : ∀ r ∈ draft t.size d, r.2 ≤ room := by
        rw [hd]
        rintro _ ⟨⟩
        exact Nat.le_trans (hrest ▸ Nat.le_add_right _ _) hroom
      rw [convert_eq hnumber d (some parent) t hsome, hd]
      dsimp only [Option.elim_some]
      -- The child that has been converted is added to its parent before the next one.
      have hadd : (t.append (n.entries (some parent))).addChild parent n.id =
          (t.addChildren parent [n.id]).append (n.entries (some parent)) :=
        addChildren_append hparent _ _
      have hsize : ((t.addChildren parent [n.id]).append (n.entries (some parent))).size =
          free := by
        rw [size_append, size_addChildren, length_entries, hfree]
      rw [← hsize] at hroom ⊢
      rw [hadd, convertAll_eq hnumber rest parent _ (by omega) hroom,
        addChildren_append (by rwa [size_addChildren]), addChildren_addChildren, append_append,
        entriesAll]
      rfl
end

end Converting

/-! ## Sorting -/

/-- The node at the number of each entry says what the entry does. -/
def Holds (t : LinkedTree) (es : List Entry) : Prop := ∀ e ∈ es, t.nodes[e.id]? = some e.node

theorem Holds.node (h : t.Holds es) {e : Entry} (he : e ∈ es) : t.node e.id = e.node :=
  node_eq (h e he)

theorem Holds.line {parent? : Option Nat} (h : t.Holds (n.entries parent?)) :
    t.line n.id = n.line :=
  congrArg LinkedNode.line (h.node (n.entry_mem_entries parent?))

theorem Holds.mono {es' : List Entry} (h : t.Holds es) (hes : es' ⊆ es) : t.Holds es' :=
  fun e he => h e (hes he)

theorem Holds.of_mem {ns : List StatementNode} (h : t.Holds (entriesAll parent ns)) (hn : n ∈ ns) :
    t.Holds (n.entries (some parent)) := by
  refine h.mono fun e he => ?_
  rw [entriesAll_eq]
  exact List.mem_flatMap.mpr ⟨n, hn, he⟩

/-- What stands behind all others is numbered from the size on. -/
theorem holds_append (hids : es.map (·.id) = List.range' t.size es.length) :
    (t.append es).Holds es := by
  intro e he
  obtain ⟨k, hk, rfl⟩ := List.getElem_of_mem he
  have hid : es[k].id = t.nodes.size + k := by
    have h := congrArg (·[k]?) hids
    simpa [hk, size] using h
  rw [hid, append, Array.getElem?_append_right (Nat.le_add_right _ _), Nat.add_sub_cancel_left]
  simp [hk]

/-- Sorting does not touch the lines. -/
theorem line_sortChildren (t : LinkedTree) (i : Nat) : (t.sortChildren i).line = t.line := by
  funext j
  simp only [line, node, sortChildren, Array.getElem?_modify]
  split
  · cases t.nodes[j]? <;> rfl
  · rfl

section SortAll

variable (t) (number : Nat → Nat)

/-- The tree with the children of the first nodes sorted. -/
def sortFirst (k : Nat) : LinkedTree :=
  (List.range k).foldl (fun t i => t.sortChildren (number i)) t

theorem sortFirst_succ (k : Nat) :
    t.sortFirst number (k + 1) = (t.sortFirst number k).sortChildren (number k) := by
  rw [sortFirst, List.range_succ, List.foldl_append]
  rfl

theorem root?_sortFirst (k : Nat) : (t.sortFirst number k).root? = t.root? := by
  induction k with
  | zero => rfl
  | succ k ih => rw [sortFirst_succ, ← ih, sortChildren]

theorem size_sortFirst (k : Nat) : (t.sortFirst number k).size = t.size := by
  induction k with
  | zero => rfl
  | succ k ih =>
    rw [sortFirst_succ, ← ih]
    exact Array.size_modify

theorem line_sortFirst (k : Nat) : (t.sortFirst number k).line = t.line := by
  induction k with
  | zero => rfl
  | succ k ih => rw [sortFirst_succ, line_sortChildren, ih]

theorem getElem?_sortFirst {k : Nat} (hnumber : Exact number k) (i : Nat) :
    (t.sortFirst number k).nodes[i]? =
      if i < k then t.nodes[i]?.map (·.sortBy t.line) else t.nodes[i]? := by
  induction k with
  | zero => rfl
  | succ k ih =>
    have ih := ih (hnumber.mono (Nat.le_succ k))
    rw [sortFirst_succ, hnumber k (Nat.lt_succ_self k), sortChildren, line_sortFirst,
      Array.getElem?_modify, ih]
    by_cases hi : k = i
    · subst hi
      simp
    · have hiff : i < k + 1 ↔ i < k := by omega
      simp only [if_neg hi, hiff]

theorem root?_sortAll : (t.sortAll number).root? = t.root? := root?_sortFirst t number t.size

theorem size_sortAll : (t.sortAll number).size = t.size := size_sortFirst t number t.size

/-- **Every node gets its children sorted.** -/
theorem getElem?_sortAll (hnumber : Exact number t.size) (i : Nat) :
    (t.sortAll number).nodes[i]? = t.nodes[i]?.map (·.sortBy t.line) := by
  have h := getElem?_sortFirst t number hnumber i
  rw [sortFirst, ← sortAll] at h
  rw [h]
  by_cases hi : i < t.nodes.size
  · exact if_pos hi
  · have hnone : t.nodes[i]? = none := Array.getElem?_eq_none (Nat.not_lt.mp hi)
    rw [hnone, Option.map_none, ite_self]

end SortAll

/-- Children are sorted by the lines that are found under their numbers. -/
theorem map_id_sortByLine {ns : List StatementNode} (h : ∀ n ∈ ns, t.line n.id = n.line) :
    (ns.map (·.id)).mergeSort (fun a b => t.line a ≤ t.line b) =
      (sortByLine ns).map (·.id) := by
  refine (List.map_mergeSort fun a ha b hb => ?_).symm
  rw [h a ha, h b hb]

theorem map_id_sortedAll (ns : List StatementNode) :
    (sortedAll ns).map (·.id) = ns.map (·.id) := by
  simp [sortedAll_eq]

mutual
/-- **A tree that holds a draft holds the sorted draft when it has been sorted.** -/
theorem holds_sorted {number : Nat → Nat} (hnumber : Exact number t.size) :
    ∀ (n : StatementNode) (parent? : Option Nat), t.Holds (n.entries parent?) →
      (t.sortAll number).Holds (n.sorted.entries parent?)
  | ⟨i, statement, own, condition?, children⟩, parent?, h, e, he => by
    rw [entries] at h
    rw [sorted, entries] at he
    have hbelow : t.Holds (entriesAll i children) := h.mono (List.subset_cons_self _ _)
    rcases List.mem_cons.mp he with rfl | he
    · have hlines : ∀ m ∈ children, t.line m.id = m.line := fun m hm => (hbelow.of_mem hm).line
      rw [getElem?_sortAll t number hnumber, h _ List.mem_cons_self, sortByLine_sortedAll,
        map_id_sortedAll, ← map_id_sortByLine hlines]
      rfl
    · rw [entriesAll_eq, ((perm_sortByLine _).flatMap_right _).mem_iff, ← entriesAll_eq] at he
      exact holds_sortedAll hnumber children i hbelow e he

theorem holds_sortedAll {number : Nat → Nat} (hnumber : Exact number t.size) :
    ∀ (ns : List StatementNode) (parent : Nat), t.Holds (entriesAll parent ns) →
      (t.sortAll number).Holds (entriesAll parent (sortedAll ns))
  | [], _, _, _, he => by
    rw [sortedAll, entriesAll] at he
    cases he
  | n :: ns, parent, h, e, he => by
    rw [entriesAll] at h
    rw [sortedAll, entriesAll] at he
    rcases List.mem_append.mp he with he | he
    · exact holds_sorted hnumber n _ (h.mono (List.subset_append_left _ _)) e he
    · exact holds_sortedAll hnumber ns parent (h.mono (List.subset_append_right _ _)) e he
end

/-! ## Building -/

/-- The linked tree has the nodes of a statement tree, and no others. -/
structure Mirrors (t : LinkedTree) (tree : StatementTree) : Prop where
  root : t.root? = tree.root?.map (·.id)
  size : t.size = tree.size
  holds : t.Holds tree.entries

/-- A draft has as many nodes as the tree that is built from it. -/
theorem size_sorted_of_draft {d : Declaration} {next free : Nat}
    (h : draft next d = some (n, free)) : n.sorted.size = n.size := by
  have hbuilt := ofDeclaration_eq d next
  rw [h, Option.map_some] at hbuilt
  have hsorted : free = next + n.sorted.size := (perm_ids_ofDeclaration hbuilt).1
  have hdraft : free = next + n.size := (ids_draft d next h).1
  omega

/-- The array that a draft makes. -/
theorem convert_of_draft {number : Nat → Nat} {d : Declaration} {free : Nat}
    (h : draft 0 d = some (n, free)) (hnumber : Exact number n.size) :
    convert number none d {} = (some n.id, append {} (n.entries none)) ∧
      (append {} (n.entries none)).size = n.size ∧
      (append {} (n.entries none)).Holds (n.entries none) := by
  have hempty : ({} : LinkedTree).size = 0 := rfl
  obtain ⟨hfree, hids⟩ := ids_draft d 0 h
  rw [Nat.zero_add] at hfree
  have hroom : ∀ r ∈ draft ({} : LinkedTree).size d, r.2 ≤ n.size := by
    intro r hr
    rw [hempty, h] at hr
    obtain rfl := Option.some.inj hr
    exact Nat.le_of_eq hfree
  have hconvert := convert_eq hnumber d none {} hroom
  rw [hempty, h, Option.elim_some] at hconvert
  refine ⟨hconvert, ?_, holds_append ?_⟩
  · rw [size_append, length_entries, hempty, Nat.zero_add]
  · rw [map_id_entries, hids, length_entries, hempty]

/-- **What is built mirrors the tree of the declaration**, as far as numbers tell
places apart. -/
theorem mirrors_build {number : Nat → Nat} (d : Declaration)
    (hnumber : Exact number (StatementTree.ofDeclaration d).size) :
    (build number d).Mirrors (StatementTree.ofDeclaration d) := by
  have htree : StatementTree.ofDeclaration d = ⟨(draft 0 d).map (·.1.sorted)⟩ := by
    rw [StatementTree.ofDeclaration, ofDeclaration_eq, Option.map_map]
    rfl
  rw [htree] at hnumber ⊢
  cases hd : draft 0 d with
  | none =>
    have hd' : draft ({} : LinkedTree).size d = none := hd
    have hroom : ∀ r ∈ draft ({} : LinkedTree).size d, r.2 ≤ 0 := by
      rw [hd']
      exact fun r hr => absurd hr (Option.not_mem_none r)
    have hnone : Exact number 0 := fun i hi => absurd hi (Nat.not_lt_zero i)
    have hconvert := convert_eq hnone d none {} hroom
    rw [hd'] at hconvert
    rw [build, hconvert]
    exact ⟨rfl, rfl, List.forall_mem_nil _⟩
  | some r =>
    obtain ⟨n, free⟩ := r
    rw [hd] at hnumber
    have hsorted : n.sorted.size = n.size := size_sorted_of_draft hd
    have hnumber : Exact number n.size := hsorted ▸ hnumber
    obtain ⟨hconvert, hsize, hholds⟩ := convert_of_draft hd hnumber
    rw [build, hconvert]
    refine ⟨?_, ?_, ?_⟩
    · rw [root?_sortAll, Option.map_some, Option.map_some, id_sorted]
    · rw [size_sortAll]
      exact hsize.trans hsorted.symm
    · rw [Option.map_some, StatementTree.entries_some]
      refine holds_sorted ?_ n none hholds
      exact hsize.symm ▸ hnumber

end LinkedTree
end TargetView
