import TargetView.Proofs.LinkedBreaks

/-! # The shape of linked trees

A linked tree keeps its shape (`LinkedTree.WellShaped`) from when it is built,
whatever breakpoints are added to it: the two kinds of links agree, siblings are
ranked, and the walk with a stack meets every node once, in the order of the
recursive walk (`LinkedTree.Visits`).  Adding breakpoints leaves the nodes as
they are stored, apart from new numbers among their children
(`LinkedTree.ExtendedBy`).  The nodes of a built tree are those of the recognised
declarations, numbered as they stand in the description (`LinkedTree.BuiltFrom`).

The links say what the table of the mirrored statement tree says
(`Mirrors.entry_mem`, `Mirrors.entry_eq`), and there is one linked tree only that
mirrors a statement tree (`Mirrors.unique`).  So numbers of 32 bits make no
difference as long as they tell all nodes apart.
-/
namespace TargetView

/-- The node without the children from a number on. -/
def LinkedNode.upTo (limit : Nat) (n : LinkedNode) : LinkedNode :=
  { n with children := n.children.filter (· < limit) }

namespace LinkedTree

open StatementNode

variable {t t' : LinkedTree} {tree tree' : StatementTree} {n : StatementNode}
  {ns : List StatementNode} {i : Nat}

/-- What is stored under a number. -/
def entry (t : LinkedTree) (i : Nat) : Entry :=
  ⟨i, (t.node i).parent?, (t.node i).statement, (t.node i).line, (t.node i).condition?,
    (t.node i).children⟩

/-- The numbers that are met from some numbers on, each followed by those below
it and these by its next sibling. -/
inductive Visits (t : LinkedTree) : List Nat → List Nat → Prop
  | nil : Visits t [] []
  | cons {i : Nat} {rest below behind : List Nat} (hbelow : Visits t (t.node i).children below)
      (hbehind : Visits t rest behind) : Visits t (i :: rest) (i :: (below ++ behind))

/-- What holds of the links of a tree from when it is built. -/
structure WellShaped (t : LinkedTree) : Prop where
  /-- The outermost node has no parent and is no child. -/
  root : ∀ r, t.root? = some r → r < t.size ∧ (t.node r).parent? = none ∧
    ∀ p < t.size, r ∉ (t.node p).children
  /-- Every other node has a parent, which lists it once, and no other node
  does. -/
  parent : ∀ i < t.size, t.root? ≠ some i → ∃ p < t.size, (t.node i).parent? = some p ∧
    (t.node p).children.count i = 1 ∧ ∀ q < t.size, i ∈ (t.node q).children → q = p
  /-- What is listed as a child is a node, and its parent is the one that lists
  it. -/
  child : ∀ p < t.size, ∀ i ∈ (t.node p).children, i < t.size ∧ (t.node i).parent? = some p
  /-- Children stand in the order of their lines, and on one line in that of their
  numbers, which is the order in which they came into the tree. -/
  ranked : ∀ p < t.size, (t.node p).children.Pairwise fun i j =>
    t.line i < t.line j ∨ t.line i = t.line j ∧ i < j
  /-- The walk with a stack meets every node once. -/
  listed : t.preorder.Perm (List.range t.size)
  /-- It meets them in the order of the recursive walk. -/
  walked : ∀ order, t.Visits t.root?.toList order ↔ order = t.preorder
  /-- This walk, descents and the search for the last line have come to their ends
  after as many steps as there are nodes. -/
  ended : ∀ steps, t.size ≤ steps → t.walk steps t.root?.toList = t.preorder ∧
    ∀ i < t.size, ∀ line, t.descend line steps i = t.descend line t.size i ∧
      t.lastLineFrom steps line [i] = t.lastLineFrom t.size line [i]

/-- The second tree is the first one with some breakpoints added. -/
structure ExtendedBy (t : LinkedTree) (breaks : List Declaration) (t' : LinkedTree) : Prop where
  root : t'.root? = t.root?
  size_le : t.size ≤ t'.size
  /-- No breakpoint is added more than once. -/
  size_le_add : t'.size ≤ t.size + breaks.length
  /-- The nodes are what they were under their numbers, but for new children. -/
  kept : ∀ i < t.size, (t'.node i).upTo t.size = t.node i
  /-- What is new are breakpoints that have a parent, but no children. -/
  added : ∀ i < t'.size, t.size ≤ i → (t'.node i).children = [] ∧ (t'.node i).parent? ≠ none ∧
    ∃ b ∈ breaks, b.kind? = some .break ∧ (t'.node i).statement = b.statementOf .break ∧
      (t'.node i).line = b.line ∧ (t'.node i).condition? = b.formula? "cond"

/-- The tree has a node for each recognised declaration, with what the declaration
says. -/
structure BuiltFrom (t : LinkedTree) (d : Declaration) : Prop where
  size_eq : t.size = d.outline.length
  stands : ∀ i < t.size, (t.entry i).StandsIn d.outline

/-! ## Entries -/

section Mirrors

variable (h : t.Mirrors tree)
include h

/-- **Each entry of the table is stored under its number.** -/
theorem Mirrors.entry_eq {e : Entry} (he : e ∈ tree.entries) :
    e.id < t.size ∧ t.entry e.id = e := by
  have hnode : t.node e.id = e.node := h.holds.node he
  refine ⟨(Array.getElem?_eq_some_iff.mp (h.holds e he)).1, ?_⟩
  rw [entry, hnode]
  rfl

variable (htree : tree.Sound)
include htree

/-- **What is stored under a number is an entry of the table.** -/
theorem Mirrors.entry_mem (hi : i < t.size) : t.entry i ∈ tree.entries := by
  have hmem : i ∈ tree.entries.map (·.id) :=
    htree.wellShaped.numbered.mem_iff.mpr (List.mem_range.mpr (h.size ▸ hi))
  obtain ⟨e, he, rfl⟩ := List.mem_map.mp hmem
  rwa [(h.entry_eq he).2]

/-- Each number is that of a node which the tree has. -/
theorem Mirrors.exists_has (hi : i < t.size) : ∃ n : StatementNode, n.id = i ∧ t.Has n := by
  obtain ⟨_ | root⟩ := tree
  · have hmem := h.entry_mem htree hi
    cases hmem
  · have hlt : i < StatementTree.size ⟨some root⟩ := h.size ▸ hi
    have hmem : i ∈ root.ids := (htree.numbered root rfl).mem_iff.mpr (List.mem_range.mpr hlt)
    obtain ⟨n, hn, hid⟩ := List.mem_map.mp hmem
    exact ⟨n, hid, (h.has_root htree rfl).2.of_mem_preorder hn⟩

/-- More steps than there are nodes make no difference. -/
theorem Mirrors.ended {steps : Nat} (hsteps : t.size ≤ steps) (hi : i < t.size) (line : Nat) :
    t.descend line steps i = t.descend line t.size i ∧
      t.lastLineFrom steps line [i] = t.lastLineFrom t.size line [i] := by
  obtain ⟨n, rfl, hn⟩ := h.exists_has htree hi
  have hnodes : ∀ m ∈ [n], t.Has m := List.forall_mem_singleton.mpr hn
  have hsize : sizeAll [n] ≤ t.size := hn.size_le
  have hlast {k : Nat} (hk : sizeAll [n] ≤ k) :
      t.lastLineFrom k line [n.id] = lastLineAll line [n] :=
    lastLineFrom_eq hnodes hk
  rw [descend_eq hn (hn.size_le.trans hsteps), descend_eq hn hn.size_le,
    hlast (hsize.trans hsteps), hlast hsize]
  exact ⟨rfl, rfl⟩

/-- **No other linked tree mirrors the statement tree.** -/
theorem Mirrors.unique (h' : t'.Mirrors tree) : t' = t := by
  have hsize : t'.size = t.size := h'.size.trans h.size.symm
  have hnodes : t'.nodes = t.nodes := by
    refine Array.ext_getElem? fun i => ?_
    by_cases hi : i < t.size
    · have hmem := h.entry_mem htree hi
      exact (h'.holds _ hmem).trans (h.holds _ hmem).symm
    · have hi' : ¬i < t'.size := hsize ▸ hi
      rw [Array.getElem?_eq_none (Nat.not_lt.mp hi), Array.getElem?_eq_none (Nat.not_lt.mp hi')]
  have hroot : t'.root? = t.root? := h'.root.trans h.root.symm
  exact congrArg₂ LinkedTree.mk hnodes hroot

end Mirrors

/-! ## Walks -/

theorem Visits.unique {stack order order' : List Nat} (h : t.Visits stack order)
    (h' : t.Visits stack order') : order = order' := by
  induction h generalizing order' with
  | nil =>
    cases h'
    rfl
  | cons _ _ ih ih' =>
    cases h' with
    | cons hbelow hbehind => rw [ih hbelow, ih' hbehind]

mutual
theorem visits_preorder : ∀ (n : StatementNode) {stack order : List Nat}, t.Has n →
    t.Visits stack order →
      t.Visits (n.id :: stack) (n.preorder.map (·.id) ++ order)
  | ⟨i, statement, line, condition?, children⟩, stack, order, h, hstack => by
    have hchildren : (t.node i).children = children.map (·.id) := h.children_eq
    have hbelow := visits_preorderAll children fun c hc => h.of_mem_children hc
    rw [← hchildren] at hbelow
    rw [StatementNode.preorder, List.map_cons, List.cons_append]
    exact .cons hbelow hstack

/-- **The recursive walk meets the nodes in the order in which they run.** -/
theorem visits_preorderAll : ∀ ns : List StatementNode, (∀ n ∈ ns, t.Has n) →
    t.Visits (ns.map (·.id)) ((preorderAll ns).map (·.id))
  | [], _ => by
    rw [preorderAll]
    exact .nil
  | n :: ns, h => by
    obtain ⟨hn, hns⟩ := List.forall_mem_cons.mp h
    rw [preorderAll, List.map_append, List.map_cons]
    exact visits_preorder n hn (visits_preorderAll ns hns)
end

/-- The walks of a tree that mirrors another one. -/
theorem Mirrors.walk_eq (h : t.Mirrors tree) (htree : tree.Sound) {steps : Nat}
    (hsteps : t.size ≤ steps) :
    t.walk steps t.root?.toList = tree.preorder.map (·.id) ∧
      t.Visits t.root?.toList (tree.preorder.map (·.id)) := by
  obtain ⟨_ | root⟩ := tree
  · have hroot : t.root? = none := h.root
    rw [hroot]
    exact ⟨by cases steps <;> rfl, .nil⟩
  · have hroot : t.root? = some root.id := h.root
    have hhas := List.forall_mem_singleton.mpr (h.has_root htree rfl).2
    have hsize : sizeAll [root] ≤ steps := (h.has_root htree rfl).2.size_le.trans hsteps
    have hpreorder : preorderAll [root] = root.preorder := by
      rw [preorderAll, preorderAll, List.append_nil]
    have hwalk := LinkedTree.walk_eq hhas hsize
    have hvisits := visits_preorderAll [root] hhas
    rw [hpreorder] at hwalk hvisits
    rw [hroot]
    exact ⟨hwalk, hvisits⟩

/-! ## Shapes -/

/-- **Trees that mirror sound ones are well shaped.** -/
theorem Mirrors.wellShaped (h : t.Mirrors tree) (htree : tree.Sound) : t.WellShaped := by
  have hshape := htree.wellShaped
  have hpreorder : t.preorder = tree.preorder.map (·.id) :=
    (h.walk_eq htree (Nat.le_refl t.size)).1
  have hvisits := (h.walk_eq htree (Nat.le_refl t.size)).2
  rw [← hpreorder] at hvisits
  have hchild : ∀ p < t.size, ∀ i ∈ (t.node p).children,
      i < t.size ∧ (t.node i).parent? = some p := by
    intro p hp i hi
    obtain ⟨e, he, rfl, hparent⟩ := hshape.child _ (h.entry_mem htree hp) i hi
    obtain ⟨hlt, heq⟩ := h.entry_eq he
    rw [← heq] at hparent
    exact ⟨hlt, hparent⟩
  refine {
    root := fun r hr => ?_
    parent := fun i hi hne => ?_
    child := hchild
    ranked := fun p hp => ?_
    listed := ?_
    walked := fun order => ⟨fun horder => horder.unique hvisits, fun heq => heq ▸ hvisits⟩
    ended := fun steps hsteps => ⟨(h.walk_eq htree hsteps).1.trans hpreorder.symm,
      fun i hi line => h.ended htree hsteps hi line⟩ }
  · rw [h.root] at hr
    obtain ⟨root, hroot, rfl⟩ := Option.map_eq_some_iff.mp hr
    have hlt : root.id < t.size := (h.has_root htree hroot).2.lt_size _ root.id_mem_ids
    obtain ⟨hparent, hno⟩ := hshape.root _ (h.entry_mem htree hlt) hr
    exact ⟨hlt, hparent, fun p hp => hno _ (h.entry_mem htree hp)⟩
  · rw [h.root] at hne
    obtain ⟨e, he, hparent, hcount, honly⟩ := hshape.parent _ (h.entry_mem htree hi) hne
    obtain ⟨hlt, heq⟩ := h.entry_eq he
    rw [← heq] at hcount
    refine ⟨e.id, hlt, hparent, hcount, fun q hq hmem => ?_⟩
    exact congrArg Entry.id (honly _ (h.entry_mem htree hq) hmem)
  · refine (hshape.ranked _ (h.entry_mem htree hp)).imp_of_mem fun {i j} hi hj hij => ?_
    have hi' := h.entry_mem htree (hchild p hp i hi).1
    have hj' := h.entry_mem htree (hchild p hp j hj).1
    exact hij _ hi' _ hj' rfl rfl
  · rw [hpreorder, hshape.walked.1, h.size]
    exact hshape.numbered

/-- **Trees that mirror a tree and one that it grows into.** -/
theorem Mirrors.extendedBy (h : t.Mirrors tree) (h' : t'.Mirrors tree') (htree' : tree'.Sound)
    {breaks : List Declaration} (hroot : t'.root? = t.root?)
    (hext : tree.ExtendedBy breaks tree') : t.ExtendedBy breaks t' where
  root := hroot
  size_le := by
    rw [h.size, h'.size]
    exact hext.size_le
  size_le_add := by
    rw [h.size, h'.size]
    exact hext.size_le_add
  kept := by
    intro i hi
    have hi' : i < t'.size := Nat.lt_of_lt_of_le hi (by rw [h.size, h'.size]; exact hext.size_le)
    have hmem := hext.upTo_mem (h'.entry_mem htree' hi') (h.size ▸ hi)
    rw [← h.size] at hmem
    have heq : t.entry i = (t'.entry i).upTo t.size := (h.entry_eq hmem).2
    exact (congrArg Entry.node heq).symm
  added := by
    intro i hi hge
    exact hext.added _ (h'.entry_mem htree' hi) (h.size ▸ hge)

theorem root?_insertBreak (number : Nat → Nat) (t : LinkedTree) (d : Declaration) :
    (insertBreak number t d).root? = t.root? := by
  rw [insertBreak]
  split
  · rfl
  · split
    · rfl
    · dsimp only
      split
      · rfl
      · split <;> rfl

theorem root?_insertBreaks (number : Nat → Nat) (t : LinkedTree) (breaks : List Declaration) :
    (insertBreaks number t breaks).root? = t.root? := by
  induction breaks generalizing t with
  | nil => rfl
  | cons d breaks ih => exact (ih _).trans (root?_insertBreak number t d)

/-! ## Batches -/

theorem exact_id (limit : Nat) : Exact id limit := fun _ _ => rfl

theorem exact_wrapped {limit : Nat} (h : limit ≤ UInt32.size) : Exact wrapped limit :=
  fun _ hi => Nat.mod_eq_of_lt (Nat.lt_of_lt_of_le hi h)

theorem builtFrom_build (d : Declaration) : (build id d).BuiltFrom d := by
  have hmirrors : (build id d).Mirrors (.ofDeclaration d) := mirrors_build d (exact_id _)
  have hbuilt := StatementTree.builtFrom_ofDeclaration d
  refine ⟨hmirrors.size.trans hbuilt.size_eq, fun i hi => ?_⟩
  exact hbuilt.stands _ (hmirrors.entry_mem (StatementTree.sound_ofDeclaration d) hi)

/-- **Trees keep their shape.**  A built tree consists of the recognised
declarations.  Whatever batches of breakpoints are added to it, the links of the
tree are well shaped, every node that it had is still there under its number, and
so it goes with one batch more.  Numbers of 32 bits do as well, as long as they are
not used up. -/
theorem shape_of_batches (d : Declaration) (batches : List (List Declaration)) :
    let built := build id d
    let t := batches.foldl (insertBreaks id) built
    built.BuiltFrom d ∧ t.WellShaped ∧ built.ExtendedBy batches.flatten t ∧
      (∀ breaks, t.ExtendedBy breaks (insertBreaks id t breaks)) ∧
      (d.outline.length + batches.flatten.length ≤ UInt32.size →
        batches.foldl (insertBreaks wrapped) (build wrapped d) = t) := by
  intro built t
  have hbuilt : built.Mirrors (.ofDeclaration d) := mirrors_build d (exact_id _)
  have ht := mirrors_foldl d batches (exact_id _)
  have hsound := StatementTree.sound_ofDeclaration d
  have hgrown := StatementTree.sound_foldl hsound batches
  have hext := hsound.extendedBy_foldl batches
  have hroot : t.root? = built.root? := by
    have hflatten : t = insertBreaks id built batches.flatten := List.foldl_flatten.symm
    rw [hflatten, root?_insertBreaks]
  refine ⟨builtFrom_build d, ht.wellShaped hgrown, hbuilt.extendedBy ht hgrown hroot hext,
    fun breaks => ?_, fun hroom => ?_⟩
  · exact ht.extendedBy (ht.insertBreaks hgrown (exact_id _))
      (StatementTree.sound_insertBreaks hgrown breaks) (root?_insertBreaks id t breaks)
      (hgrown.extendedBy_insertBreaks breaks)
  · have hsize := hext.size_le_add
    rw [(StatementTree.builtFrom_ofDeclaration d).size_eq] at hsize
    exact ht.unique hgrown (mirrors_foldl d batches (exact_wrapped (hsize.trans hroom)))

/-- An item that is described before a list but stands behind it, and a breakpoint
within the list. -/
theorem shape_of_batches_list :
    let d : Declaration :=
      { tag := "object", line := 1,
        children := [
          { tag := "item", line := 5 },
          { tag := "list", line := 2, children := [{ tag := "item", line := 4 }] }] }
    let b : Declaration := { tag := "break", line := 3 }
    let t := insertBreaks wrapped (build wrapped d) [b]
    d.outline.length + [[b]].flatten.length ≤ UInt32.size ∧ t.WellShaped ∧
      t.preorder = [0, 2, 4, 3, 1] ∧ (t.node 4).parent? = some 2 := by
  intro d b t
  have hlinks : t.preorder = [0, 2, 4, 3, 1] ∧ (t.node 4).parent? = some 2 := by
    dsimp only [t, b, d]
    cbv
  have hroom : d.outline.length + [[b]].flatten.length ≤ UInt32.size := by decide +kernel
  obtain ⟨-, hshape, -, -, hwrapped⟩ := shape_of_batches d [[b]]
  have ht : t = [[b]].foldl (insertBreaks id) (build id d) := hwrapped hroom
  rw [← ht] at hshape
  exact ⟨hroom, hshape, hlinks⟩

end LinkedTree
end TargetView
