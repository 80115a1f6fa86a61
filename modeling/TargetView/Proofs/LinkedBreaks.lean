import TargetView.Proofs.Attachment
import TargetView.Proofs.LinkedBuilding

/-! # Linking breakpoints in

A linked tree that has the nodes from a node downwards (`LinkedTree.Has`) tells
of them what the statement tree does: their lines (`lineSpan_eq`), where the
descent for a line ends (`descend_eq`), and the order in which they run
(`walk_eq`).  The loops over the links come to their ends in as many steps as
there are nodes.

Adding a breakpoint puts its node behind all others and its number among the
children of one node (`Spliced`).  That is what becomes of the table of the
statement tree when the breakpoint is added there (`Spliced.holds_insertBreak`),
so that one tree mirrors the other as before (`Mirrors.insertBreak`).
-/
namespace TargetView

namespace StatementNode

variable {c n : StatementNode} {ns : List StatementNode}

theorem size_pos (n : StatementNode) : 0 < n.size := by
  cases n
  rw [size]
  omega

theorem size_eq (n : StatementNode) : n.size = sizeAll n.children + 1 := by
  cases n
  rw [size]

theorem size_le_sizeAll (h : n ∈ ns) : n.size ≤ sizeAll ns := by
  obtain ⟨front, behind, rfl⟩ := List.append_of_mem h
  rw [sizeAll_append, sizeAll]
  omega

theorem sizeAll_reverse (ns : List StatementNode) : sizeAll ns.reverse = sizeAll ns := by
  rw [← length_idsAll, ← length_idsAll]
  exact (ns.reverse_perm.flatMap_right ids).length_eq

theorem ids_eq (n : StatementNode) : n.ids = n.id :: idsAll n.children := by
  cases n
  rw [ids_mk]

theorem ids_subset_idsAll (h : n ∈ ns) : n.ids ⊆ idsAll ns :=
  fun _ hi => List.mem_flatMap.mpr ⟨n, h, hi⟩

theorem id_holder_mem (line : Nat) (n : StatementNode) : (n.holder line).id ∈ n.ids := by
  induction n using holder_induction line with
  | ends n hnone heq =>
    rw [heq]
    exact n.id_mem_ids
  | goes n c hc htakes heq ih =>
    rw [heq, ids_eq]
    exact List.mem_cons_of_mem _ (ids_subset_idsAll hc ih)

end StatementNode

namespace LinkedTree

open StatementNode

variable {t t' : LinkedTree} {es : List Entry} {c m n new : StatementNode}
  {ns : List StatementNode} {line steps last : Nat}

/-! ## Having nodes -/

/-- The tree has the nodes from a node downwards, each of them once. -/
structure Has (t : LinkedTree) (n : StatementNode) : Prop where
  holds : ∃ parent?, t.Holds (n.entries parent?)
  nodup : n.ids.Nodup

namespace Has

theorem node (h : t.Has n) : ∃ parent?, t.node n.id = (n.entry parent?).node := by
  obtain ⟨parent?, hholds⟩ := h.holds
  exact ⟨parent?, hholds.node (n.entry_mem_entries parent?)⟩

theorem line_eq (h : t.Has n) : t.line n.id = n.line := by
  obtain ⟨parent?, hnode⟩ := h.node
  exact congrArg LinkedNode.line hnode

theorem isBreak_eq (h : t.Has n) : (t.node n.id).statement.isBreak = n.isBreak := by
  obtain ⟨parent?, hnode⟩ := h.node
  exact congrArg (·.statement.isBreak) hnode

theorem children_eq (h : t.Has n) : (t.node n.id).children = n.children.map (·.id) := by
  obtain ⟨parent?, hnode⟩ := h.node
  exact congrArg LinkedNode.children hnode

theorem of_mem_children (h : t.Has n) (hc : c ∈ n.children) : t.Has c := by
  obtain ⟨parent?, hholds⟩ := h.holds
  rw [entries_eq] at hholds
  have hbelow : t.Holds (entriesAll n.id n.children) := hholds.mono (List.subset_cons_self _ _)
  have hnodup := h.nodup
  rw [ids_eq] at hnodup
  exact ⟨⟨some n.id, hbelow.of_mem hc⟩,
    (List.nodup_flatMap.mp (List.nodup_cons.mp hnodup).2).1 c hc⟩

theorem holder (h : t.Has n) (line : Nat) : t.Has (n.holder line) := by
  induction n using holder_induction line with
  | ends n hnone heq => rwa [heq]
  | goes n c hc htakes heq ih =>
    rw [heq]
    exact ih (h.of_mem_children hc)

theorem of_mem_preorder (h : t.Has n) (hm : m ∈ n.preorder) : t.Has m := by
  induction n using induction_children with
  | parent n ih =>
    obtain ⟨id, statement, own, condition?, children⟩ := n
    rw [StatementNode.preorder, preorderAll_eq] at hm
    rcases List.mem_cons.mp hm with rfl | hm
    · exact h
    · obtain ⟨c, hc, hmc⟩ := List.mem_flatMap.mp hm
      exact ih c hc (h.of_mem_children hc) hmc

theorem lt_size (h : t.Has n) : ∀ i ∈ n.ids, i < t.size := by
  obtain ⟨parent?, hholds⟩ := h.holds
  intro i hi
  rw [← n.map_id_entries parent?] at hi
  obtain ⟨e, he, rfl⟩ := List.mem_map.mp hi
  exact (Array.getElem?_eq_some_iff.mp (hholds e he)).1

theorem size_le (h : t.Has n) : n.size ≤ t.size := by
  have hsub : n.ids ⊆ List.range t.size := fun i hi => List.mem_range.mpr (h.lt_size i hi)
  have hle := (h.nodup.subperm hsub).length_le
  rwa [length_ids, List.length_range] at hle

end Has

/-! ## Lines -/

/-- **The largest line is found in as many steps as there are nodes.** -/
theorem lastLineFrom_eq (h : ∀ n ∈ ns, t.Has n) (hsteps : sizeAll ns ≤ steps) :
    t.lastLineFrom steps last (ns.map (·.id)) = lastLineAll last ns := by
  induction steps generalizing last ns with
  | zero =>
    cases ns with
    | nil => rfl
    | cons n rest =>
      have hpos := n.size_pos
      rw [sizeAll] at hsteps
      omega
  | succ steps ih =>
    cases ns with
    | nil => rfl
    | cons n rest =>
      obtain ⟨hn, hrest⟩ := List.forall_mem_cons.mp h
      have hstack : ∀ m ∈ n.children.reverse ++ rest, t.Has m := by
        intro m hm
        rcases List.mem_append.mp hm with hm | hm
        · exact hn.of_mem_children (List.mem_reverse.mp hm)
        · exact hrest m hm
      rw [sizeAll, size_eq] at hsteps
      rw [List.map_cons, lastLineFrom, hn.line_eq, hn.children_eq, ← List.map_reverse,
        ← List.map_append, ih hstack (by rw [sizeAll_append, sizeAll_reverse]; omega)]
      refine eq_of_forall_ge_iff fun k => ?_
      simp only [lastLineAll_le_iff, List.forall_mem_append, List.forall_mem_cons, List.mem_reverse,
        Nat.max_le, lastLine_le_iff (n := n)]
      tauto

theorem lineSpan_eq (h : t.Has n) : t.lineSpan n.id = (n.line, n.lastLine) := by
  have hsize : sizeAll [n] ≤ t.size := h.size_le
  have hlast : t.lastLineFrom t.size n.line ([n].map (·.id)) = lastLineAll n.line [n] :=
    lastLineFrom_eq (List.forall_mem_singleton.mpr h) hsize
  have hle : n.line ≤ n.lastLine := (lastLine_le_iff.mp (Nat.le_refl _)).1
  rw [List.map_singleton, lastLineAll, lastLineAll, Nat.max_eq_left hle] at hlast
  rw [lineSpan, h.line_eq, hlast]

theorem takes_eq (h : t.Has n) (line : Nat) : t.takes line n.id = n.takes line := by
  rw [takes, h.isBreak_eq, lineSpan_eq h, StatementNode.takes, spans, Bool.and_assoc]

/-! ## Descents -/

theorem find?_takes (h : ∀ c ∈ ns, t.Has c) (line : Nat) :
    (ns.map (·.id)).find? (t.takes line) = (ns.find? (·.takes line)).map (·.id) := by
  rw [List.find?_map]
  exact congrArg (Option.map _) (List.find?_congr fun c hc => takes_eq (h c hc) line)

/-- **The descent for a line ends where that in the statement tree does.** -/
theorem descend_eq (h : t.Has n) (hsteps : n.size ≤ steps) :
    t.descend line steps n.id = (n.holder line).id := by
  induction steps generalizing n with
  | zero =>
    have hpos := n.size_pos
    omega
  | succ steps ih =>
    rw [descend, h.children_eq, find?_takes fun c hc => h.of_mem_children hc]
    cases hfind : n.children.find? (·.takes line) with
    | none => rw [holder_of_find?_eq_none hfind, Option.map_none]
    | some c =>
      have hc : c ∈ n.children := List.mem_of_find?_eq_some hfind
      have hle := size_le_sizeAll hc
      rw [size_eq] at hsteps
      rw [holder_of_find?_eq_some hfind, Option.map_some]
      exact ih (h.of_mem_children hc) (by omega)

/-! ## Walks -/

/-- **A walk over the numbers meets the nodes in the order in which they run.** -/
theorem walk_eq (h : ∀ n ∈ ns, t.Has n) (hsteps : sizeAll ns ≤ steps) :
    t.walk steps (ns.map (·.id)) = (preorderAll ns).map (·.id) := by
  rw [← StatementNode.walk_eq]
  fun_induction StatementNode.walk ns generalizing steps with
  | case1 => cases steps <;> rfl
  | case2 n stack ih =>
    obtain ⟨hn, hstack⟩ := List.forall_mem_cons.mp h
    rw [sizeAll, size_eq] at hsteps
    obtain ⟨steps, rfl⟩ : ∃ k, steps = k + 1 := ⟨steps - 1, by omega⟩
    have hnext : ∀ m ∈ n.children ++ stack, t.Has m :=
      List.forall_mem_append.mpr ⟨fun c hc => hn.of_mem_children hc, hstack⟩
    rw [List.map_cons, walk, hn.children_eq, ← List.map_append,
      ih hnext (by rw [sizeAll_append]; omega), List.map_cons]

/-! ## Splicing -/

/-- The second tree is the first one with a node behind all others that is linked
in below one of them. -/
structure Spliced (t t' : LinkedTree) (new : StatementNode) (target : Nat) : Prop where
  root : t'.root? = t.root?
  size : t'.size = t.size + 1
  added : t'.nodes[new.id]? = some (new.entry (some target)).node
  kept : ∀ i, i ≠ target → i < t.size → t'.nodes[i]? = t.nodes[i]?
  /-- The children of the node above are sorted again. -/
  linked : ∀ r, t.nodes[target]? = some r →
    t'.nodes[target]? = some ({ r with children := r.children ++ [new.id] }.sortBy t'.line)

namespace Spliced

variable {target : Nat} (hs : t.Spliced t' new target)
include hs

/-- Nodes among which the target is not stay as they are. -/
theorem holds (h : t.Holds es) (hes : target ∉ es.map (·.id)) : t'.Holds es := by
  intro e he
  have hne : e.id ≠ target := fun heq => hes (List.mem_map.mpr ⟨e, he, heq⟩)
  have hlt : e.id < t.size := (Array.getElem?_eq_some_iff.mp (h e he)).1
  rw [hs.kept e.id hne hlt]
  exact h e he

theorem holdsAll {parent : Nat} (h : t.Holds (entriesAll parent ns)) (hns : target ∉ idsAll ns) :
    t'.Holds (entriesAll parent ns) :=
  hs.holds h (map_id_entriesAll ns parent ▸ hns)

/-- **A node that gets the new one as its child.** -/
theorem holds_attach (hnew : new.children = []) (hid : n.id = target) (hnodup : n.ids.Nodup)
    {parent? : Option Nat} (h : t.Holds (n.entries parent?)) :
    t'.Holds (entries parent? { n with children := sortByLine (n.children ++ [new]) }) := by
  subst hid
  rw [ids_eq, List.nodup_cons] at hnodup
  rw [entries_eq] at h
  have hbelow : t'.Holds (entriesAll n.id n.children) :=
    hs.holdsAll (h.mono (List.subset_cons_self _ _)) hnodup.1
  have hall : t'.Holds (entriesAll n.id (n.children ++ [new])) := by
    rw [entriesAll_append]
    refine List.forall_mem_append.mpr ⟨hbelow, ?_⟩
    rw [entriesAll, entriesAll, List.append_nil, entries_eq, hnew, entriesAll]
    exact List.forall_mem_singleton.mpr hs.added
  intro e he
  rw [entries_eq] at he
  rcases List.mem_cons.mp he with rfl | he
  · have hlines : ∀ m ∈ n.children ++ [new], t'.line m.id = m.line :=
      fun m hm => (hall.of_mem hm).line
    have hlinked := hs.linked _ (h _ List.mem_cons_self)
    rw [LinkedNode.sortBy] at hlinked
    dsimp only [entry, Entry.node] at hlinked ⊢
    rw [← map_id_sortByLine hlines, List.map_append, List.map_singleton]
    exact hlinked
  · refine hall e ?_
    rwa [entriesAll_eq, ((perm_sortByLine _).flatMap_right _).mem_iff, ← entriesAll_eq] at he

/-- A node that has the target in one of its children or below it. -/
theorem holds_replace {c' : StatementNode} {front behind : List StatementNode}
    (hns : n.children = front ++ c :: behind) (hid : c'.id = c.id) (hnodup : n.ids.Nodup)
    (htarget : target ∈ c.ids) {parent? : Option Nat} (h : t.Holds (n.entries parent?))
    (hc : t.Holds (c.entries (some n.id)) → t'.Holds (c'.entries (some n.id))) :
    t'.Holds (entries parent? { n with children := front ++ c' :: behind }) := by
  have hentry : entry parent? { n with children := front ++ c' :: behind } = n.entry parent? := by
    rw [entry, entry, hns, List.map_append, List.map_append, List.map_cons, List.map_cons, hid]
  rw [ids_eq, hns, idsAll_append, idsAll_cons] at hnodup
  obtain ⟨hself, hnodup⟩ := List.nodup_cons.mp hnodup
  obtain ⟨-, hnodup, hfront⟩ := List.nodup_append.mp hnodup
  obtain ⟨-, -, hbehind⟩ := List.nodup_append.mp hnodup
  have hself' : target ∉ [n.id] := fun hmem =>
    hself (List.mem_singleton.mp hmem ▸ List.mem_append_right _ (List.mem_append_left _ htarget))
  have hfront' : target ∉ idsAll front := fun hmem =>
    hfront target hmem target (List.mem_append_left _ htarget) rfl
  have hbehind' : target ∉ idsAll behind := fun hmem => hbehind target htarget target hmem rfl
  rw [entries_eq, hns, entriesAll_append, entriesAll, ← List.singleton_append] at h
  rw [entries_eq, hentry, ← List.singleton_append]
  dsimp only
  rw [entriesAll_append, entriesAll]
  obtain ⟨hhead, hchildren⟩ := List.forall_mem_append.mp h
  obtain ⟨hfrontHolds, hchildren⟩ := List.forall_mem_append.mp hchildren
  obtain ⟨hcHolds, hbehindHolds⟩ := List.forall_mem_append.mp hchildren
  exact List.forall_mem_append.mpr ⟨hs.holds hhead hself',
    List.forall_mem_append.mpr ⟨hs.holdsAll hfrontHolds hfront',
      List.forall_mem_append.mpr ⟨hc hcHolds, hs.holdsAll hbehindHolds hbehind'⟩⟩⟩

end Spliced

/-- **What is spliced in where its line leads is what the statement tree gets.** -/
theorem Spliced.holds_insertBreak (hnew : new.children = []) (h : t.Has n)
    (hs : t.Spliced t' new (n.holder new.line).id)
    (hnot : hasBreakAt new.line (n.holder new.line).children = false) {parent? : Option Nat}
    (hholds : t.Holds (n.entries parent?)) :
    t'.Holds ((StatementNode.insertBreak new n).entries parent?) := by
  induction n using insertBreak_induction new generalizing parent? with
  | here n hholder heq =>
    rw [hholder] at hs hnot
    rw [heq, attach, ← hasBreakAt, if_neg (Bool.eq_false_iff.mp hnot)]
    exact hs.holds_attach hnew rfl h.nodup hholds
  | below n c front behind hns hholder heq ih =>
    rw [hholder] at hs hnot
    have hc : c ∈ n.children := hns ▸ List.mem_append_right _ List.mem_cons_self
    rw [heq]
    exact hs.holds_replace hns (grafted_insertBreak c).id h.nodup (id_holder_mem new.line c) hholds
      fun hcHolds => ih (h.of_mem_children hc) hs hnot hcHolds

/-! ## Adding breakpoints -/

variable {number : Nat → Nat} {tree : StatementTree} {d : Declaration} {root : StatementNode}

/-- The tree with the breakpoint of a declaration below a node. -/
def splice (number : Nat → Nat) (t : LinkedTree) (d : Declaration) (target : Nat) : LinkedTree :=
  let (i, t) := push number t (d.statementOf .break) d (some target)
  (t.addChild target i).sortChildren target

/-- Pushing a node and linking it in below another one splices it in. -/
theorem spliced_splice (hnumber : number t.size = t.size) {target : Nat}
    (htarget : target < t.size) :
    t.Spliced (splice number t d target) (StatementTree.breakAs t.size d) target := by
  have htarget : target < t.nodes.size := htarget
  have hne : target ≠ t.nodes.size := Nat.ne_of_lt htarget
  rw [splice, push, hnumber]
  dsimp only
  refine ⟨rfl, ?_, ?_, fun i hi hlt => ?_, fun r hr => ?_⟩
  · simp [size, sortChildren, addChild]
  · simp only [StatementTree.breakAs, size, sortChildren, addChild, Array.getElem?_modify,
      if_neg hne, Array.getElem?_push_size]
    rfl
  · have hlt : i < t.nodes.size := hlt
    simp [sortChildren, addChild, Array.getElem?_modify, Array.getElem?_push, hi.symm,
      Nat.ne_of_lt hlt]
  · rw [line_sortChildren]
    simp [StatementTree.breakAs, sortChildren, addChild, Array.getElem?_modify,
      Array.getElem?_push, hne, hr, size]

/-- A breakpoint is a duplicate where its line is carried. -/
theorem any_isDuplicate (h : t.Has n) (line : Nat) :
    ((t.node n.id).children.any fun i => (t.node i).statement.isBreak && t.line i == line) =
      hasBreakAt line n.children := by
  rw [h.children_eq, List.any_map, hasBreakAt, Bool.eq_iff_iff, List.any_eq_true, List.any_eq_true]
  refine exists_congr fun c => and_congr_right fun hc => ?_
  have hchild := h.of_mem_children hc
  rw [Function.comp_apply, hchild.isBreak_eq, hchild.line_eq]

/-- **A breakpoint is spliced in where its line leads**, unless that line is carried
there. -/
theorem insertBreak_of_has (hroot : t.root? = some root.id) (h : t.Has root) :
    insertBreak number t d =
      if d.kind? = some .break ∧ hasBreakAt d.line (root.holder d.line).children = false then
        splice number t d (root.holder d.line).id
      else t := by
  have htarget : t.descend d.line t.size root.id = (root.holder d.line).id :=
    descend_eq h h.size_le
  rw [insertBreak, hroot]
  dsimp only
  rw [htarget, any_isDuplicate (h.holder d.line)]
  by_cases hkind : d.kind? = some .break
  · have hstatement : d.statement? = some (d.statementOf .break) := by
      rw [Declaration.statement?, hkind, Option.map_some]
    rw [hkind, bne_self_eq_false, if_neg Bool.false_ne_true, hstatement]
    cases hasBreakAt d.line (root.holder d.line).children <;> rfl
  · rw [if_pos (by simpa using hkind), if_neg fun hadds => hkind hadds.1]

/-- The outermost node stands in the linked tree. -/
theorem Mirrors.has_root (h : t.Mirrors tree) (htree : tree.Sound) (hroot : tree.root? = some n) :
    t.Holds (n.entries none) ∧ t.Has n := by
  have hholds : t.Holds (n.entries none) := by
    have hentries := h.holds
    rwa [StatementTree.entries, hroot] at hentries
  have hnodup : n.ids.Nodup := (htree.numbered n hroot).nodup_iff.mpr List.nodup_range
  exact ⟨hholds, ⟨⟨none, hholds⟩, hnodup⟩⟩

/-- The breakpoint has been spliced in where its line leads, which no other one has. -/
theorem Mirrors.of_spliced (h : t.Mirrors ⟨some root⟩)
    (htree : StatementTree.Sound ⟨some root⟩) (hkind : d.kind? = some .break)
    (hnot : hasBreakAt d.line (root.holder d.line).children = false)
    (hs : t.Spliced t' (StatementTree.newBreak ⟨some root⟩ d) (root.holder d.line).id) :
    t'.Mirrors (StatementTree.insertBreak ⟨some root⟩ d) := by
  obtain ⟨hholds, hhas⟩ := h.has_root htree rfl
  have htree' := StatementTree.insertBreak_of_break hkind root
  refine ⟨?_, ?_, ?_⟩
  · rw [hs.root, h.root, htree', Option.map_some, Option.map_some, (grafted_insertBreak root).id]
  · rw [hs.size, h.size, (htree.insertBreak_of_not_carries hkind rfl hnot).2]
  · rw [htree', StatementTree.entries_some]
    exact hs.holds_insertBreak rfl hhas hnot hholds

/-- **A tree that mirrors another one does so when a breakpoint is added to both.** -/
theorem Mirrors.insertBreak (h : t.Mirrors tree) (htree : tree.Sound)
    (hnumber : Exact number (tree.insertBreak d).size) :
    (insertBreak number t d).Mirrors (tree.insertBreak d) := by
  obtain ⟨_ | root⟩ := tree
  · have hroot : t.root? = none := h.root
    rw [StatementTree.insertBreak_none, LinkedTree.insertBreak, hroot]
    exact h
  have hhas := (h.has_root htree rfl).2
  have hroot : t.root? = some root.id := h.root
  rw [insertBreak_of_has hroot hhas]
  by_cases hadds : d.kind? = some .break ∧
      hasBreakAt d.line (root.holder d.line).children = false
  · obtain ⟨hkind, hnot⟩ := hadds
    have hsize := (htree.insertBreak_of_not_carries hkind rfl hnot).2
    have hplace : number t.size = t.size := hnumber t.size (by rw [hsize, h.size]; omega)
    have hlt : (root.holder d.line).id < t.size := hhas.lt_size _ (id_holder_mem d.line root)
    have hs := spliced_splice (d := d) hplace hlt
    rw [h.size] at hs
    rw [if_pos ⟨hkind, hnot⟩]
    exact h.of_spliced htree hkind hnot hs
  · have hsame : StatementTree.insertBreak ⟨some root⟩ d = ⟨some root⟩ := by
      by_cases hkind : d.kind? = some .break
      · exact StatementTree.insertBreak_of_carries (eq_true_of_ne_false fun h => hadds ⟨hkind, h⟩)
      · exact StatementTree.insertBreak_of_not_break hkind _
    rw [if_neg hadds, hsame]
    exact h

theorem Mirrors.insertBreaks (h : t.Mirrors tree) (htree : tree.Sound)
    {breaks : List Declaration} (hnumber : Exact number (tree.insertBreaks breaks).size) :
    (insertBreaks number t breaks).Mirrors (tree.insertBreaks breaks) := by
  induction breaks generalizing t tree with
  | nil => exact h
  | cons d breaks ih =>
    have hsound := StatementTree.sound_insertBreak htree d
    have hgrown : (tree.insertBreak d).size ≤ (tree.insertBreaks (d :: breaks)).size :=
      (hsound.extendedBy_insertBreaks breaks).size_le
    exact ih (h.insertBreak htree (hnumber.mono hgrown)) hsound hnumber

/-- **Whatever batches of breakpoints are added, the linked tree mirrors the
statement tree.** -/
theorem mirrors_foldl (d : Declaration) (batches : List (List Declaration))
    (hnumber : Exact number
      (batches.foldl StatementTree.insertBreaks (StatementTree.ofDeclaration d)).size) :
    (batches.foldl (LinkedTree.insertBreaks number) (build number d)).Mirrors
      (batches.foldl StatementTree.insertBreaks (StatementTree.ofDeclaration d)) := by
  have hsound := StatementTree.sound_ofDeclaration d
  have hflatten : batches.foldl (LinkedTree.insertBreaks number) (build number d) =
      LinkedTree.insertBreaks number (build number d) batches.flatten :=
    List.foldl_flatten.symm
  rw [StatementTree.foldl_insertBreaks] at hnumber ⊢
  rw [hflatten]
  have hgrown := (hsound.extendedBy_insertBreaks batches.flatten).size_le
  exact (mirrors_build d (hnumber.mono hgrown)).insertBreaks hsound hnumber

end LinkedTree
end TargetView
