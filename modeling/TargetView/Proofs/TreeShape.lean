import TargetView.Proofs.Grafting
import TargetView.Proofs.Outline

/-! # The shape of statement trees

A tree keeps its shape (`StatementTree.WellShaped`) from when it is built,
whatever breakpoints are added to it: its nodes are numbered consecutively, each
is listed once by the node that it lies in, siblings are ranked, and the order in
which nodes run is that of a walk with a stack.  Adding breakpoints leaves the
nodes as they are, apart from new children among the old ones
(`StatementTree.ExtendedBy`).  The nodes of a built tree have their numbers in the
order of the description (`StatementTree.BuiltFrom`), breakpoints get greater ones.

All of this follows from what building and adding keep of the nodes
(`StatementTree.Sound`).
-/
namespace TargetView

namespace StatementNode

variable {n : StatementNode}

/-! ## Walks with a stack -/

theorem sizeAll_append (ns ms : List StatementNode) :
    sizeAll (ns ++ ms) = sizeAll ns + sizeAll ms := by
  rw [← length_idsAll, ← length_idsAll, ← length_idsAll, idsAll_append, List.length_append]

/-- The nodes that are met when the top of a stack is taken away and its children
are put in its place, until the stack is empty. -/
def walk : List StatementNode → List StatementNode
  | [] => []
  | n :: stack => n :: walk (n.children ++ stack)
termination_by stack => sizeAll stack
decreasing_by
  cases n
  rw [sizeAll_append, sizeAll, size]
  dsimp only
  omega

/-- **A walk with a stack meets the nodes in the order in which they run.** -/
theorem walk_eq (stack : List StatementNode) : walk stack = preorderAll stack := by
  fun_induction walk stack with
  | case1 => rw [preorderAll]
  | case2 n stack ih =>
    cases n
    rw [ih, preorderAll, preorder, preorderAll_eq, preorderAll_eq, preorderAll_eq,
      List.flatMap_append, List.cons_append]

/-! ## Links -/

section Links

variable {e f : Entry} {parent? : Option Nat}

theorem eq_of_id_eq (hnodup : n.ids.Nodup) (he : e ∈ n.entries parent?)
    (hf : f ∈ n.entries parent?) (h : e.id = f.id) : e = f := by
  rw [← map_id_entries n parent?] at hnodup
  exact List.inj_on_of_nodup_map hnodup he hf h

variable (n) (hranked : n.Ranked)
include hranked

theorem exists_child (parent? : Option Nat) : ∀ p ∈ n.entries parent?, ∀ i ∈ p.children,
    ∃ e ∈ n.entries parent?, e.id = i ∧ e.parent? = some p.id := by
  intro p hp i hi
  obtain ⟨ns, hns, -, hmem⟩ := n.children_of_mem_entries parent? hranked p hp
  rw [hns] at hi
  obtain ⟨m, hm, rfl⟩ := List.mem_map.mp hi
  exact ⟨_, hmem m hm, rfl, rfl⟩

variable (hnodup : n.ids.Nodup)
include hnodup

/-- The children of an entry stand as their lines and numbers tell. -/
theorem pairwise_children : ∀ p ∈ n.entries parent?, p.children.Pairwise fun i j =>
    ∀ a ∈ n.entries parent?, ∀ b ∈ n.entries parent?, a.id = i → b.id = j →
      a.line < b.line ∨ a.line = b.line ∧ a.id < b.id := by
  intro p hp
  obtain ⟨ns, hns, hns', hmem⟩ := n.children_of_mem_entries parent? hranked p hp
  rw [hns, List.pairwise_map]
  refine hns'.imp_of_mem fun {x y} hx hy hxy a ha b hb hax hby => ?_
  obtain rfl : a = x.entry (some p.id) := eq_of_id_eq hnodup ha (hmem x hx) hax
  obtain rfl : b = y.entry (some p.id) := eq_of_id_eq hnodup hb (hmem y hy) hby
  exact hxy

theorem nodup_children : ∀ p ∈ n.entries parent?, p.children.Nodup := by
  intro p hp
  refine (pairwise_children n hranked hnodup p hp).imp_of_mem fun {i j} hi hj hij heq => ?_
  subst heq
  obtain ⟨e, he, hid, -⟩ := n.exists_child hranked parent? p hp i hi
  rcases hij e he e he hid hid with hlt | ⟨-, hlt⟩
  · exact Nat.lt_irrefl _ hlt
  · exact Nat.lt_irrefl _ hlt

theorem root_of_id_eq (he : e ∈ n.entries none) (h : e.id = n.id) :
    e.parent? = none ∧ ∀ p ∈ n.entries none, e.id ∉ p.children := by
  obtain rfl : e = n.entry none := eq_of_id_eq hnodup he (n.entry_mem_entries none) h
  refine ⟨rfl, fun p hp hmem => ?_⟩
  obtain ⟨e, he', hid, hparent⟩ := n.exists_child hranked none p hp _ hmem
  rw [eq_of_id_eq hnodup he' he hid] at hparent
  cases hparent

/-- An entry other than that of the outermost node is listed once, by its
parent. -/
theorem exists_parent (he : e ∈ n.entries none) (h : e.id ≠ n.id) : ∃ p ∈ n.entries none,
    e.parent? = some p.id ∧ p.children.count e.id = 1 ∧
      ∀ q ∈ n.entries none, e.id ∈ q.children → q = p := by
  rcases n.parent_of_mem_entries none e he with rfl | ⟨p, hp, hparent, hmem⟩
  · exact absurd rfl h
  · refine ⟨p, hp, hparent, ?_, fun q hq hq' => ?_⟩
    · exact List.count_eq_one_of_mem (nodup_children n hranked hnodup p hp) hmem
    · obtain ⟨e', he', hid, hparent'⟩ := n.exists_child hranked none q hq _ hq'
      rw [eq_of_id_eq hnodup he' he hid, hparent] at hparent'
      exact eq_of_id_eq hnodup hq hp (Option.some.inj hparent').symm

end Links

end StatementNode

/-! ## Trees -/

namespace StatementTree

/-- What holds of the nodes of a tree from when it is built. -/
structure WellShaped (t : StatementTree) : Prop where
  /-- The nodes are numbered consecutively. -/
  numbered : (t.entries.map (·.id)).Perm (List.range t.size)
  /-- The outermost node has no parent and is no child. -/
  root : ∀ e ∈ t.entries, t.root?.map (·.id) = some e.id →
    e.parent? = none ∧ ∀ p ∈ t.entries, e.id ∉ p.children
  /-- Every other node has a parent, which lists it once, and no other node
  does. -/
  parent : ∀ e ∈ t.entries, t.root?.map (·.id) ≠ some e.id → ∃ p ∈ t.entries,
    e.parent? = some p.id ∧ p.children.count e.id = 1 ∧
      ∀ q ∈ t.entries, e.id ∈ q.children → q = p
  /-- What is listed as a child is a node, and its parent is the one that lists
  it. -/
  child : ∀ p ∈ t.entries, ∀ i ∈ p.children, ∃ e ∈ t.entries, e.id = i ∧ e.parent? = some p.id
  /-- Children stand in the order of their lines, and on one line in that of their
  numbers, which is the order in which they came into the tree. -/
  ranked : ∀ p ∈ t.entries, p.children.Pairwise fun i j =>
    ∀ a ∈ t.entries, ∀ b ∈ t.entries, a.id = i → b.id = j →
      a.line < b.line ∨ a.line = b.line ∧ a.id < b.id
  /-- The order in which the nodes run lists all of them, as does a walk with a
  stack. -/
  walked : t.preorder.map (·.id) = t.entries.map (·.id) ∧
    t.preorder = StatementNode.walk t.root?.toList

/-- The second tree is the first one with some breakpoints added. -/
structure ExtendedBy (t : StatementTree) (breaks : List Declaration) (t' : StatementTree) :
    Prop where
  size_le : t.size ≤ t'.size
  /-- No breakpoint is added more than once. -/
  size_le_add : t'.size ≤ t.size + breaks.length
  /-- The nodes are what they were, but for new children. -/
  kept : ((t'.entries.filter fun e => e.id < t.size).map (·.upTo t.size)) = t.entries
  /-- What is new are breakpoints that have a parent, but no children. -/
  added : ∀ e ∈ t'.entries, t.size ≤ e.id → e.children = [] ∧ e.parent? ≠ none ∧
    ∃ b ∈ breaks, b.kind? = some .break ∧ e.statement = b.statementOf .break ∧
      e.line = b.line ∧ e.condition? = b.formula? "cond"
  /-- No breakpoint gets children, unless it is the outermost node. -/
  barren : ∀ e ∈ t'.entries, e.statement.isBreak = true → e.parent? ≠ none →
    e.id < t.size → e ∈ t.entries

/-- What building and adding keep, said of the nodes. -/
structure Sound (t : StatementTree) : Prop where
  ordered : t.Ordered
  ranked : ∀ n ∈ t.root?, n.Ranked
  numbered : ∀ n ∈ t.root?, n.ids.Perm (List.range n.size)

variable {t t' t'' : StatementTree}

theorem Sound.lt_size (h : t.Sound) {n : StatementNode} (hn : n ∈ t.root?) :
    ∀ i ∈ n.ids, i < n.size :=
  fun _ hi => List.mem_range.mp ((h.numbered n hn).mem_iff.mp hi)

theorem wellShaped_none : WellShaped ⟨none⟩ := by
  have hpreorder : preorder ⟨none⟩ = [] := rfl
  have hno {p : Entry → Prop} : ∀ e ∈ entries ⟨none⟩, p e := by
    rw [entries_none]
    exact List.forall_mem_nil p
  have hwalk : StatementNode.walk (Option.toList none) = [] := by
    rw [Option.toList_none, StatementNode.walk]
  exact ⟨by rw [entries_none]; exact .nil, hno, hno, hno, hno, by rw [entries_none, hpreorder]; rfl,
    hwalk.symm⟩

theorem wellShaped_some {n : StatementNode} (hnumbered : n.ids.Perm (List.range n.size))
    (hranked : n.Ranked) : WellShaped ⟨some n⟩ := by
  have hnodup : n.ids.Nodup := hnumbered.nodup_iff.mpr List.nodup_range
  exact {
    numbered := (n.map_id_entries none).symm ▸ hnumbered
    root := fun e he hid => n.root_of_id_eq hranked hnodup he (Option.some.inj hid).symm
    parent := fun e he hid =>
      n.exists_parent hranked hnodup he fun heq => hid (congrArg some heq.symm)
    child := n.exists_child hranked none
    ranked := n.pairwise_children hranked hnodup
    walked := by
      refine ⟨(n.map_id_entries none).symm, ?_⟩
      rw [Option.toList_some, StatementNode.walk_eq, StatementNode.preorderAll_eq,
        List.flatMap_singleton]
      rfl }

/-- **Trees that are sound are well shaped.** -/
theorem Sound.wellShaped (h : t.Sound) : t.WellShaped := by
  obtain ⟨_ | n⟩ := t
  · exact wellShaped_none
  · exact wellShaped_some (h.numbered n rfl) (h.ranked n rfl)

theorem sound_ofDeclaration (d : Declaration) : (ofDeclaration d).Sound := by
  refine ⟨ordered_ofDeclaration d, fun n hn => ?_, fun n hn => ?_⟩
  · obtain ⟨⟨n, free⟩, hbuilt, rfl⟩ := Option.map_eq_some_iff.mp hn
    exact StatementNode.ranked_ofDeclaration d 0 hbuilt
  · obtain ⟨⟨n, free⟩, hbuilt, rfl⟩ := Option.map_eq_some_iff.mp hn
    rw [List.range_eq_range']
    exact (StatementNode.perm_ids_ofDeclaration hbuilt).2

/-! ## Adding one breakpoint -/

/-- The node that a breakpoint becomes. -/
def newBreak (t : StatementTree) (d : Declaration) : StatementNode :=
  ⟨t.size, d.statementOf .break, d.line, d.formula? "cond", []⟩

theorem ids_newBreak (t : StatementTree) (d : Declaration) : (t.newBreak d).ids = [t.size] := by
  rw [newBreak, StatementNode.ids_mk]
  rfl

theorem insertBreak_none (d : Declaration) : insertBreak ⟨none⟩ d = ⟨none⟩ := by
  rw [insertBreak]
  split <;> rfl

theorem insertBreak_of_break {d : Declaration} (h : d.kind? = some .break) (n : StatementNode) :
    insertBreak ⟨some n⟩ d = ⟨some (StatementNode.insertBreak (newBreak ⟨some n⟩ d) n)⟩ := by
  rw [insertBreak, h]
  rfl

theorem insertBreak_of_not_break {d : Declaration} (h : d.kind? ≠ some .break)
    (t : StatementTree) : t.insertBreak d = t :=
  if_neg (by simpa using h)

theorem insertBreak_cases (t : StatementTree) (d : Declaration) : t.insertBreak d = t ∨
    ∃ n, t.root? = some n ∧ d.kind? = some .break ∧
      t.insertBreak d = ⟨some (StatementNode.insertBreak (t.newBreak d) n)⟩ := by
  by_cases hkind : d.kind? = some .break
  · obtain ⟨_ | n⟩ := t
    · exact .inl (insertBreak_none d)
    · exact .inr ⟨n, rfl, hkind, insertBreak_of_break hkind n⟩
  · exact .inl (insertBreak_of_not_break hkind t)

/-- A node with the numbers from `0` on, and the one that is added. -/
theorem perm_range_insertBreak {n new : StatementNode} (hnew : new.ids = [n.size])
    (hid : new.id = n.size) (h : n.ids.Perm (List.range n.size)) :
    (StatementNode.insertBreak new n).ids.Perm
      (List.range (StatementNode.insertBreak new n).size) := by
  rcases StatementNode.insertBreak_adds (hid ▸ hnew) n with heq | ⟨hsize, hperm⟩
  · rwa [heq]
  · rw [hid] at hperm
    rw [hsize, List.range_succ]
    exact hperm.trans ((h.cons n.size).trans (List.perm_append_singleton _ _).symm)

/-- **Adding a breakpoint keeps trees sound.** -/
theorem sound_insertBreak (h : t.Sound) (d : Declaration) : (t.insertBreak d).Sound := by
  rcases insertBreak_cases t d with heq | ⟨n, hroot, -, heq⟩
  · rwa [heq]
  · have hid : (t.newBreak d).id = n.size := by rw [newBreak, size, hroot, Option.elim_some]
    have hids : (t.newBreak d).ids = [n.size] := by rw [ids_newBreak, ← hid, newBreak]
    have hnew : (t.newBreak d).Ranked := by
      rw [newBreak]
      exact ⟨.nil, trivial⟩
    refine ⟨ordered_insertBreak h.ordered d, fun m hm => ?_, fun m hm => ?_⟩
    · rw [heq] at hm
      obtain rfl := Option.some.inj hm
      refine (StatementNode.grafted_insertBreak n).ranked hnew (fun i hi => ?_) (h.ranked n hroot)
      rw [hid]
      exact h.lt_size hroot i hi
    · rw [heq] at hm
      obtain rfl := Option.some.inj hm
      exact perm_range_insertBreak hids hid (h.numbered n hroot)

theorem sound_insertBreaks (h : t.Sound) (breaks : List Declaration) :
    (t.insertBreaks breaks).Sound := by
  induction breaks generalizing t with
  | nil => exact h
  | cons d breaks ih => exact ih (sound_insertBreak h d)

/-! ## Growing -/

section WellShaped

variable (h : t.WellShaped)
include h

theorem WellShaped.id_lt : ∀ e ∈ t.entries, e.id < t.size :=
  fun _ he => List.mem_range.mp (h.numbered.mem_iff.mp (List.mem_map_of_mem he))

theorem WellShaped.child_lt : ∀ p ∈ t.entries, ∀ i ∈ p.children, i < t.size := by
  intro p hp i hi
  obtain ⟨e, he, rfl, -⟩ := h.child p hp i hi
  exact h.id_lt e he

theorem WellShaped.extendedBy_refl (breaks : List Declaration) : t.ExtendedBy breaks t where
  size_le := Nat.le_refl _
  size_le_add := Nat.le_add_right ..
  kept := by
    have hupTo : ∀ e ∈ t.entries, e.upTo t.size = e := fun e he => by
      rw [Entry.upTo, List.filter_eq_self.mpr fun i hi => decide_eq_true (h.child_lt e he i hi)]
    rw [List.filter_eq_self.mpr fun e he => decide_eq_true (h.id_lt e he),
      List.map_congr_left hupTo, List.map_id']
  added := fun e he hge => absurd (h.id_lt e he) (Nat.not_lt.mpr hge)
  barren := fun _ he _ _ _ => he

end WellShaped

/-- What is in the larger tree under an old number was there before, less its new
children. -/
theorem ExtendedBy.upTo_mem {breaks : List Declaration} (h : t.ExtendedBy breaks t') {e : Entry}
    (he : e ∈ t'.entries) (hlt : e.id < t.size) : e.upTo t.size ∈ t.entries := by
  rw [← h.kept]
  exact List.mem_map_of_mem (List.mem_filter.mpr ⟨he, decide_eq_true hlt⟩)

theorem upTo_upTo {limit limit' : Nat} (h : limit ≤ limit') (e : Entry) :
    (e.upTo limit').upTo limit = e.upTo limit := by
  rw [Entry.upTo, Entry.upTo, Entry.upTo, List.filter_filter]
  congr 2
  funext i
  simp only [Bool.and_eq_left_iff_imp, decide_eq_true_eq]
  omega

/-- **Trees that grow twice grow by the breakpoints of both times.** -/
theorem ExtendedBy.trans {first second : List Declaration} (h : t.ExtendedBy first t')
    (h' : t'.ExtendedBy second t'') : t.ExtendedBy (first ++ second) t'' where
  size_le := Nat.le_trans h.size_le h'.size_le
  size_le_add := by
    have hfirst := h.size_le_add
    have hsecond := h'.size_le_add
    rw [List.length_append]
    omega
  kept := by
    have hfilter : (t''.entries.filter fun e => e.id < t'.size).filter (fun e => e.id < t.size) =
        t''.entries.filter fun e => e.id < t.size := by
      have hle := h.size_le
      rw [List.filter_filter]
      refine List.filter_congr fun e _ => ?_
      simp only [Bool.and_eq_left_iff_imp, decide_eq_true_eq]
      omega
    rw [← h.kept, ← h'.kept, List.filter_map, List.map_map, ← hfilter]
    exact List.map_congr_left fun e _ => (upTo_upTo h.size_le e).symm
  added := by
    intro e he hge
    by_cases hlt : e.id < t'.size
    · -- It came first, as a breakpoint, and was given no children since.
      obtain ⟨-, hparent, b, -, -, hstatement, -⟩ := h.added _ (h'.upTo_mem he hlt) hge
      have hbreak : e.statement.isBreak = true := congrArg Statement.isBreak hstatement
      obtain ⟨hchildren, -, b, hb, hdata⟩ := h.added e (h'.barren e he hbreak hparent hlt) hge
      exact ⟨hchildren, hparent, b, List.mem_append_left _ hb, hdata⟩
    · obtain ⟨hchildren, hparent, b, hb, hdata⟩ := h'.added e he (Nat.not_lt.mp hlt)
      exact ⟨hchildren, hparent, b, List.mem_append_right _ hb, hdata⟩
  barren := by
    intro e he hbreak hparent hlt
    have hmem := h'.barren e he hbreak hparent (Nat.lt_of_lt_of_le hlt h.size_le)
    exact h.barren e hmem hbreak hparent hlt

/-- What stands in the table of a node that has been given a breakpoint. -/
theorem mem_entries_insertBreak {n new : StatementNode} (hnew : new.children = []) {e : Entry}
    (he : e ∈ (StatementNode.insertBreak new n).entries none) :
    (e.id = n.id ∧ e.parent? = none) ∨
      StatementNode.AddedTo new (StatementNode.entriesAll n.id n.children) e := by
  have hgrafted : StatementNode.Grafted new n (StatementNode.insertBreak new n) :=
    StatementNode.grafted_insertBreak n
  rw [StatementNode.entries_eq] at he
  rcases List.mem_cons.mp he with rfl | he
  · exact .inl ⟨hgrafted.id, rfl⟩
  · exact .inr (hgrafted.addedTo hnew e he)

theorem size_newBreak (n : StatementNode) (d : Declaration) :
    size ⟨some (StatementNode.insertBreak (newBreak ⟨some n⟩ d) n)⟩ = size ⟨some n⟩ ∨
      size ⟨some (StatementNode.insertBreak (newBreak ⟨some n⟩ d) n)⟩ = size ⟨some n⟩ + 1 := by
  rcases StatementNode.insertBreak_adds (ids_newBreak ⟨some n⟩ d) n with h | ⟨h, -⟩
  · exact .inl (by rw [h])
  · exact .inr h

/-- A tree that gets a breakpoint below its outermost node. -/
theorem extendedBy_newBreak {n : StatementNode} {d : Declaration} (hn : n.Ordered)
    (hids : ∀ i ∈ n.ids, i < n.size) (hkind : d.kind? = some .break) :
    ExtendedBy ⟨some n⟩ [d] ⟨some (StatementNode.insertBreak (newBreak ⟨some n⟩ d) n)⟩ where
  size_le := by
    have hsize := size_newBreak n d
    omega
  size_le_add := by
    have hsize := size_newBreak n d
    rw [List.length_singleton]
    omega
  kept := by
    have halike : n.Alike Eq (· = newBreak ⟨some n⟩ d)
        (StatementNode.insertBreak (newBreak ⟨some n⟩ d) n) :=
      StatementNode.alike_insertBreak (fun _ => rfl) (by rfl) n hn
    refine StatementNode.entries_of_alike (fun b hb i hi => ?_) _ none halike hids
    rw [hb, ids_newBreak, List.mem_singleton] at hi
    exact Nat.le_of_eq hi.symm
  added := by
    have hold : ∀ i ∈ (StatementNode.entriesAll n.id n.children).map (·.id), i < n.size := by
      intro i hi
      refine hids i ?_
      rw [← n.map_id_entries none, StatementNode.entries_eq, List.map_cons]
      exact List.mem_cons_of_mem _ hi
    intro e he hge
    rcases mem_entries_insertBreak rfl he with ⟨heq, -⟩ | hmem | ⟨parent, rfl⟩ | ⟨hmem, -⟩
    · exact absurd (heq ▸ hids n.id n.id_mem_ids) (Nat.not_lt.mpr hge)
    · exact absurd (hold e.id (List.mem_map_of_mem hmem)) (Nat.not_lt.mpr hge)
    · exact ⟨rfl, Option.some_ne_none _, d, List.mem_cons_self, hkind, rfl, rfl, rfl⟩
    · exact absurd (hold e.id hmem) (Nat.not_lt.mpr hge)
  barren := by
    intro e he hbreak hparent hlt
    rcases mem_entries_insertBreak rfl he with ⟨-, heq⟩ | hmem | ⟨parent, rfl⟩ | ⟨-, heq⟩
    · exact absurd heq hparent
    · rw [entries_some, StatementNode.entries_eq]
      exact List.mem_cons_of_mem _ hmem
    · -- The new node has the first free number.
      exact absurd hlt (Nat.lt_irrefl n.size)
    · rw [heq] at hbreak
      cases hbreak

/-- **A breakpoint is added without changing what is there.** -/
theorem Sound.extendedBy_insertBreak (h : t.Sound) (d : Declaration) :
    t.ExtendedBy [d] (t.insertBreak d) := by
  rcases insertBreak_cases t d with heq | ⟨n, hroot, hkind, heq⟩
  · rw [heq]
    exact h.wellShaped.extendedBy_refl [d]
  · obtain rfl : t = ⟨some n⟩ := by
      cases t
      rw [← hroot]
    rw [heq]
    exact extendedBy_newBreak (h.ordered n rfl) (h.lt_size rfl) hkind

theorem Sound.extendedBy_insertBreaks (h : t.Sound) (breaks : List Declaration) :
    t.ExtendedBy breaks (t.insertBreaks breaks) := by
  induction breaks generalizing t with
  | nil => exact h.wellShaped.extendedBy_refl []
  | cons d breaks ih => exact (h.extendedBy_insertBreak d).trans (ih (sound_insertBreak h d))

/-! ## Batches -/

theorem sound_foldl (h : t.Sound) (batches : List (List Declaration)) :
    (batches.foldl insertBreaks t).Sound := by
  induction batches generalizing t with
  | nil => exact h
  | cons breaks batches ih => exact ih (sound_insertBreaks h breaks)

theorem Sound.extendedBy_foldl (h : t.Sound) (batches : List (List Declaration)) :
    t.ExtendedBy batches.flatten (batches.foldl insertBreaks t) := by
  induction batches generalizing t with
  | nil => exact h.wellShaped.extendedBy_refl []
  | cons breaks batches ih =>
    exact (h.extendedBy_insertBreaks breaks).trans (ih (sound_insertBreaks h breaks))

end StatementTree
end TargetView
