import Mathlib.Data.List.Sort
import TargetView.Proofs.Descent
import TargetView.Proofs.TreeShape

/-! # Breakpoints go where their lines lead

A breakpoint is added where the descent for its line ends, as the last one of
its line, unless there is a breakpoint of its line already (`attach`).  Whoever
has it below had its line before (`takes_insertBreak`), so that all descents end
where they did (`holder_insertBreak`).  It follows that breakpoints which are
added again add nothing (`insertBreak_of_hasBreakAt`), and that those of different
lines may be added in any order (`insertBreak_comm`), whatever numbers they get
(`insertBreak_mapIds`).
-/
namespace TargetView
namespace StatementNode

/-- The first node stands before the second one by its line. -/
def Precedes (a b : StatementNode) : Prop := a.line < b.line

instance : DecidableRel Precedes := fun a b => inferInstanceAs (Decidable (a.line < b.line))

/-- The node is a breakpoint with nothing below it. -/
structure IsLeafBreak (n : StatementNode) : Prop where
  isBreak : n.isBreak = true
  children : n.children = []

variable {new a b c n : StatementNode} {ns ns' : List StatementNode} {line : Nat}

/-! ## Attaching -/

theorem orderedInsert_of_forall (h : ∀ n ∈ ns, new.line < n.line) :
    ns.orderedInsert Precedes new = new :: ns := by
  cases ns with
  | nil => rfl
  | cons n ns => exact List.orderedInsert_cons_of_le Precedes ns (h n List.mem_cons_self)

/-- In a list in the order of lines a node is sorted behind those of its line. -/
theorem sortByLine_concat (h : InLineOrder ns) (new : StatementNode) :
    sortByLine (ns ++ [new]) = ns.orderedInsert Precedes new := by
  induction ns with
  | nil => exact List.mergeSort_singleton new
  | cons n ns ih =>
    obtain ⟨hn, hns⟩ := List.pairwise_cons.mp h
    have hsorted : InLineOrder (sortByLine (n :: (ns ++ [new]))) := inLineOrder_sortByLine _
    obtain ⟨front, behind, hsort, hrest, hfront⟩ :=
      List.mergeSort_cons line_trans line_total n (ns ++ [new])
    have hfront' : ∀ m ∈ front, m.line < n.line := fun m hm => by simpa using hfront m hm
    rw [← sortByLine, ih hns] at hrest
    rw [← sortByLine] at hsort
    rw [List.cons_append, hsort]
    by_cases hnew : new.line < n.line
    · -- The new node is the only one before the first one.
      rw [List.orderedInsert_cons_of_le Precedes ns hnew]
      rw [orderedInsert_of_forall fun m hm => Nat.lt_of_lt_of_le hnew (hn m hm)] at hrest
      cases front with
      | nil =>
        rw [List.nil_append] at hrest hsort
        rw [hsort, ← hrest] at hsorted
        exact absurd ((List.pairwise_cons.mp hsorted).1 new List.mem_cons_self)
          (Nat.not_le.mpr hnew)
      | cons m front =>
        obtain ⟨rfl, rfl⟩ := List.cons.inj hrest
        obtain rfl : front = [] := List.eq_nil_iff_forall_not_mem.mpr fun m hm =>
          absurd (hn m (List.mem_append_left _ hm))
            (Nat.not_le.mpr (hfront' m (List.mem_cons_of_mem _ hm)))
        rfl
    · -- None goes before the first one.
      have hge : ∀ m ∈ ns.orderedInsert Precedes new, n.line ≤ m.line := by
        intro m hm
        rcases (List.mem_orderedInsert Precedes).mp hm with rfl | hm
        · exact Nat.not_lt.mp hnew
        · exact hn m hm
      obtain rfl : front = [] := List.eq_nil_iff_forall_not_mem.mpr fun m hm =>
        absurd (hge m (hrest ▸ List.mem_append_left _ hm)) (Nat.not_le.mpr (hfront' m hm))
      rw [List.orderedInsert_of_not_le Precedes ns hnew, hrest]
      rfl

/-- Whether one of some nodes is a breakpoint at a line. -/
def hasBreakAt (line : Nat) (ns : List StatementNode) : Bool :=
  ns.any fun n => n.isBreak && n.line == line

theorem attach_of_hasBreakAt (h : hasBreakAt new.line ns = true) : attach new ns = ns :=
  if_pos h

theorem attach_of_not_hasBreakAt (hns : InLineOrder ns) (h : hasBreakAt new.line ns = false) :
    attach new ns = ns.orderedInsert Precedes new := by
  rw [attach, ← hasBreakAt, if_neg (Bool.eq_false_iff.mp h), sortByLine_concat hns]

theorem hasBreakAt_orderedInsert (line : Nat) (new : StatementNode) (ns : List StatementNode) :
    hasBreakAt line (ns.orderedInsert Precedes new) =
      ((new.isBreak && new.line == line) || hasBreakAt line ns) := by
  rw [Bool.eq_iff_iff]
  simp [hasBreakAt]

theorem orderedInsert_comm (h : a.line ≠ b.line) (ns : List StatementNode) :
    (ns.orderedInsert Precedes b).orderedInsert Precedes a =
      (ns.orderedInsert Precedes a).orderedInsert Precedes b := by
  induction ns with
  | nil => grind [Precedes]
  | cons n ns ih => grind [Precedes]

theorem mem_of_mem_attach (h : n ∈ attach new ns) : n ∈ ns ∨ n = new := by
  rw [attach] at h
  split at h
  · exact .inl h
  · rw [(perm_sortByLine _).mem_iff, List.mem_append, List.mem_singleton] at h
    exact h

theorem mem_attach_of_mem (h : n ∈ ns) : n ∈ attach new ns := by
  rw [attach]
  split
  · exact h
  · exact (perm_sortByLine _).mem_iff.mpr (List.mem_append_left _ h)

theorem ordered_iff : n.Ordered ↔ InLineOrder n.children ∧ ∀ c ∈ n.children, c.Ordered := by
  cases n
  rw [Ordered, orderedAll_iff]

theorem Ordered.children (h : n.Ordered) : InLineOrder n.children := (ordered_iff.mp h).1

theorem Ordered.of_mem_children (h : n.Ordered) (hc : c ∈ n.children) : c.Ordered :=
  (ordered_iff.mp h).2 c hc

/-! ## Lines -/

/-- No line is lost. -/
theorem Grafted.le_lastLine {n n' : StatementNode} (h : Grafted new n n') :
    n.lastLine ≤ n'.lastLine := by
  induction h with
  | here id statement line condition? children =>
    obtain ⟨hline, hchildren⟩ := lastLine_le_iff.mp
      (Nat.le_refl (lastLine ⟨id, statement, line, condition?, attach new children⟩))
    exact lastLine_le_iff.mpr ⟨hline, fun c hc => hchildren c (mem_attach_of_mem hc)⟩
  | @deeper id statement line condition? front behind n n' _ _ ih =>
    obtain ⟨hline, hchildren⟩ := lastLine_le_iff.mp
      (Nat.le_refl (lastLine ⟨id, statement, line, condition?, front ++ n' :: behind⟩))
    dsimp only at hchildren
    rw [List.forall_mem_append, List.forall_mem_cons] at hchildren
    refine lastLine_le_iff.mpr ⟨hline, List.forall_mem_append.mpr ⟨hchildren.1, ?_⟩⟩
    exact List.forall_mem_cons.mpr ⟨Nat.le_trans ih hchildren.2.1, hchildren.2.2⟩

/-- No line is new but those of the new node. -/
theorem Grafted.lastLine_le {n n' : StatementNode} (h : Grafted new n n') {k : Nat}
    (hnew : new.lastLine ≤ k) (hn : n.lastLine ≤ k) : n'.lastLine ≤ k := by
  induction h with
  | here =>
    obtain ⟨hline, hchildren⟩ := lastLine_le_iff.mp hn
    refine lastLine_le_iff.mpr ⟨hline, fun c hc => ?_⟩
    rcases mem_of_mem_attach hc with hc | rfl
    · exact hchildren c hc
    · exact hnew
  | deeper _ _ _ _ front behind _ _ ih =>
    obtain ⟨hline, hchildren⟩ := lastLine_le_iff.mp hn
    dsimp only at hchildren
    rw [List.forall_mem_append, List.forall_mem_cons] at hchildren
    refine lastLine_le_iff.mpr ⟨hline, List.forall_mem_append.mpr ⟨hchildren.1, ?_⟩⟩
    exact List.forall_mem_cons.mpr ⟨ih hchildren.2.1, hchildren.2.2⟩

namespace IsLeafBreak

variable (hnew : new.IsLeafBreak)
include hnew

theorem lastLine : new.lastLine = new.line := by
  refine Nat.le_antisymm (lastLine_le_iff.mpr ⟨Nat.le_refl _, fun c hc => ?_⟩)
    (lastLine_le_iff.mp (Nat.le_refl _)).1
  rw [hnew.children] at hc
  cases hc

theorem takes (line : Nat) : new.takes line = false := takes_of_isBreak hnew.isBreak line

theorem ordered : new.Ordered := by
  obtain ⟨id, statement, line, condition?, children⟩ := new
  obtain rfl : children = [] := hnew.children
  exact ⟨.nil, trivial⟩

end IsLeafBreak

/-- **A node whose lines include that of a breakpoint has the same lines when the
breakpoint is below it.** -/
theorem takes_insertBreak (hnew : new.IsLeafBreak) (h : n.takes new.line = true) (line : Nat) :
    (insertBreak new n).takes line = n.takes line := by
  have hgrafted : Grafted new n (insertBreak new n) := grafted_insertBreak n
  have hspans : n.line ≤ new.line ∧ new.line ≤ n.lastLine := by
    simpa [spans] using (Bool.and_eq_true_iff.mp h).2
  have hlast : (insertBreak new n).lastLine = n.lastLine :=
    Nat.le_antisymm (hgrafted.lastLine_le (hnew.lastLine.trans_le hspans.2) (Nat.le_refl _))
      hgrafted.le_lastLine
  rw [takes, takes, isBreak, isBreak, spans, spans, hgrafted.statement, hgrafted.line, hlast]

/-! ## Descents -/

theorem insertBelow_cons_of_takes (h : n.takes new.line = true) (ns : List StatementNode) :
    insertBelow new (n :: ns) = some (insertBreak new n :: ns) := by
  rw [insertBelow]
  exact if_pos h

theorem insertBelow_cons_of_not_takes (h : n.takes new.line = false) (ns : List StatementNode) :
    insertBelow new (n :: ns) = (insertBelow new ns).map (n :: ·) := by
  rw [insertBelow]
  exact if_neg (Bool.eq_false_iff.mp h)

/-- A breakpoint stays among the children of a node if none of them takes its
line. -/
theorem insertBelow_eq_none_iff :
    insertBelow new ns = none ↔ ∀ n ∈ ns, n.takes new.line = false := by
  induction ns with
  | nil => simp [insertBelow]
  | cons n ns ih =>
    rw [List.forall_mem_cons]
    cases h : n.takes new.line with
    | true => simp [insertBelow_cons_of_takes h]
    | false => simp [insertBelow_cons_of_not_takes h, ih]

/-- A breakpoint goes below the first child that takes its line. -/
theorem exists_of_insertBelow_eq_some (h : insertBelow new ns = some ns') :
    ∃ front c behind, ns = front ++ c :: behind ∧ ns' = front ++ insertBreak new c :: behind ∧
      c.takes new.line = true ∧ ∀ m ∈ front, m.takes new.line = false := by
  induction ns generalizing ns' with
  | nil => cases h
  | cons n ns ih =>
    cases htakes : n.takes new.line with
    | true =>
      rw [insertBelow_cons_of_takes htakes] at h
      cases h
      exact ⟨[], n, ns, rfl, rfl, htakes, List.forall_mem_nil _⟩
    | false =>
      rw [insertBelow_cons_of_not_takes htakes] at h
      obtain ⟨rest, hrest, rfl⟩ := Option.map_eq_some_iff.mp h
      obtain ⟨front, c, behind, rfl, rfl, hc, hfront⟩ := ih hrest
      exact ⟨n :: front, c, behind, rfl, rfl, hc, List.forall_mem_cons.mpr ⟨htakes, hfront⟩⟩

/-- Adds a breakpoint below the first of some nodes that takes it, or among them. -/
def insertAmong (new : StatementNode) (ns : List StatementNode) : List StatementNode :=
  (insertBelow new ns).getD (attach new ns)

theorem insertAmong_of_none (h : insertBelow new ns = none) :
    insertAmong new ns = attach new ns := by
  rw [insertAmong, h]
  rfl

theorem insertAmong_of_some (h : insertBelow new ns = some ns') : insertAmong new ns = ns' := by
  rw [insertAmong, h]
  rfl

theorem insertBreak_eq (new n : StatementNode) :
    insertBreak new n = { n with children := insertAmong new n.children } := by
  cases n
  rw [insertBreak]
  rfl

theorem children_insertBreak (new n : StatementNode) :
    (insertBreak new n).children = insertAmong new n.children :=
  congrArg children (insertBreak_eq new n)

/-- No descent goes into a breakpoint that is attached. -/
theorem find?_attach (hnew : new.IsLeafBreak) (hns : InLineOrder ns) (line : Nat) :
    (attach new ns).find? (·.takes line) = ns.find? (·.takes line) := by
  have hattach : attach new ns = ns ∨
      ∃ front behind, ns = front ++ behind ∧ attach new ns = front ++ new :: behind :=
    attach_eq hns
  rcases hattach with heq | ⟨front, behind, rfl, heq⟩
  · rw [heq]
  · rw [heq, List.find?_append, List.find?_append, List.find?_cons, hnew.takes line]

theorem hasBreakAt_attach (hnew : new.IsLeafBreak) (hns : InLineOrder ns) (line : Nat) :
    hasBreakAt line (attach new ns) = (new.line == line || hasBreakAt line ns) := by
  cases h : hasBreakAt new.line ns with
  | true =>
    rw [attach_of_hasBreakAt h]
    cases heq : new.line == line with
    | true =>
      rw [← eq_of_beq heq, h]
      rfl
    | false => rfl
  | false =>
    rw [attach_of_not_hasBreakAt hns h, hasBreakAt_orderedInsert, hnew.isBreak, Bool.true_and]

theorem hasBreakAt_congr {n n' : StatementNode} (hstatement : n'.statement = n.statement)
    (hline : n'.line = n.line) (line : Nat) (front behind : List StatementNode) :
    hasBreakAt line (front ++ n' :: behind) = hasBreakAt line (front ++ n :: behind) := by
  rw [hasBreakAt, hasBreakAt, List.any_append, List.any_append, List.any_cons, List.any_cons,
    isBreak, isBreak, hstatement, hline]

/-- The second node is what becomes of the first one, at which a descent for a line
ends, when a breakpoint is added to the tree. -/
structure HolderAfter (new : StatementNode) (line : Nat) (m m' : StatementNode) : Prop where
  id : m'.id = m.id
  /-- The breakpoint is among the children if it has this line. -/
  hasBreakAt : hasBreakAt line m'.children = (new.line == line || hasBreakAt line m.children)

/-- A descent that does not go where the breakpoint goes. -/
theorem HolderAfter.of_find?_eq {n n' : StatementNode} (hid : n'.id = n.id)
    (hfind : n'.children.find? (·.takes line) = n.children.find? (·.takes line))
    (hne : ∀ c ∈ n.children.find? (·.takes line), new.line ≠ line)
    (hbreak : StatementNode.hasBreakAt line n'.children =
      (new.line == line || StatementNode.hasBreakAt line n.children)) :
    HolderAfter new line (n.holder line) (n'.holder line) := by
  cases h : n.children.find? (·.takes line) with
  | none =>
    rw [holder_of_find?_eq_none h, holder_of_find?_eq_none (hfind.trans h)]
    exact ⟨hid, hbreak⟩
  | some c =>
    rw [holder_of_find?_eq_some h, holder_of_find?_eq_some (hfind.trans h)]
    refine ⟨rfl, ?_⟩
    rw [beq_false_of_ne (hne c h), Bool.false_or]

/-- The first child that takes a line is the one in a place, whichever stands
there. -/
theorem find?_eq_some_of_front {front : List StatementNode}
    (hfront : ∀ m ∈ front, m.takes line = false) (hc : c.takes line = true)
    (behind : List StatementNode) : (front ++ c :: behind).find? (·.takes line) = some c :=
  List.find?_eq_some_iff_append.mpr
    ⟨hc, front, behind, rfl, fun m hm => by rw [hfront m hm]; rfl⟩

/-- Induction along the descent of a breakpoint: it is attached where the descent
ends, and otherwise goes below the child into which the descent goes. -/
@[elab_as_elim]
theorem insertBreak_induction (new : StatementNode) {motive : StatementNode → Prop}
    (here : ∀ n : StatementNode, n.holder new.line = n →
      insertBreak new n = { n with children := attach new n.children } → motive n)
    (below : ∀ (n c : StatementNode) (front behind : List StatementNode),
      n.children = front ++ c :: behind → n.holder new.line = c.holder new.line →
      insertBreak new n = { n with children := front ++ insertBreak new c :: behind } →
      motive c → motive n) (n : StatementNode) : motive n := by
  induction n using induction_children with
  | parent n ih =>
    have heq := insertBreak_eq new n
    cases hbelow : insertBelow new n.children with
    | none =>
      rw [insertAmong_of_none hbelow] at heq
      refine here n (holder_of_find?_eq_none (List.find?_eq_none.mpr fun c hc => ?_)) heq
      exact Bool.eq_false_iff.mp (insertBelow_eq_none_iff.mp hbelow c hc)
    | some ns' =>
      obtain ⟨front, c, behind, hns, rfl, hc, hfront⟩ := exists_of_insertBelow_eq_some hbelow
      have hfound := find?_eq_some_of_front hfront hc behind
      rw [← hns] at hfound
      rw [insertAmong_of_some hbelow] at heq
      have hmem : c ∈ n.children := List.mem_of_find?_eq_some hfound
      exact below n c front behind hns (holder_of_find?_eq_some hfound) heq (ih c hmem)

/-- The first child that takes a line is not the one in a place, whichever stands
there. -/
theorem find?_congr_of_not {front : List StatementNode} (hc : b.takes line = c.takes line)
    (h : ¬(c.takes line = true ∧ ∀ m ∈ front, m.takes line = false))
    (behind : List StatementNode) : (front ++ b :: behind).find? (·.takes line) =
      (front ++ c :: behind).find? (·.takes line) := by
  rw [List.find?_append, List.find?_append]
  cases hfront : front.find? (·.takes line) with
  | some m => rfl
  | none =>
    have hnot : c.takes line = false := Bool.eq_false_iff.mpr fun htakes => h ⟨htakes, fun m hm =>
      Bool.eq_false_iff.mpr (List.find?_eq_none.mp hfront m hm)⟩
    rw [List.find?_cons, List.find?_cons, hc, hnot]

/-- **A descent ends at the same node after a breakpoint has been added.** -/
theorem holder_insertBreak (hnew : new.IsLeafBreak) (line : Nat) (n : StatementNode)
    (hn : n.Ordered) :
    HolderAfter new line (n.holder line) ((insertBreak new n).holder line) := by
  induction n using induction_children with
  | parent n ih =>
    have hid : (insertBreak new n).id = n.id := (grafted_insertBreak n).id
    have hchildren := children_insertBreak new n
    cases hbelow : insertBelow new n.children with
    | none =>
      rw [insertAmong_of_none hbelow] at hchildren
      refine .of_find?_eq hid ?_ (fun c hc heq => ?_) ?_
      · rw [hchildren, find?_attach hnew hn.children]
      · have htakes := insertBelow_eq_none_iff.mp hbelow c (List.mem_of_find?_eq_some hc)
        rw [heq, takes_of_find?_eq_some hc] at htakes
        cases htakes
      · rw [hchildren, hasBreakAt_attach hnew hn.children]
    | some ns' =>
      obtain ⟨front, c, behind, hns, rfl, hc, hfront⟩ := exists_of_insertBelow_eq_some hbelow
      rw [insertAmong_of_some hbelow] at hchildren
      have htakes := takes_insertBreak hnew hc line
      by_cases h : c.takes line = true ∧ ∀ m ∈ front, m.takes line = false
      · -- The descent goes into the same child as the breakpoint.
        have hmem : c ∈ n.children := hns ▸ List.mem_append_right _ List.mem_cons_self
        have hfound := find?_eq_some_of_front h.2 h.1 behind
        have hfound' := find?_eq_some_of_front h.2 (htakes.trans h.1) behind
        rw [← hns] at hfound
        rw [← hchildren] at hfound'
        rw [holder_of_find?_eq_some hfound, holder_of_find?_eq_some hfound']
        exact ih c hmem (hn.of_mem_children hmem)
      · have hgrafted : Grafted new c (insertBreak new c) := grafted_insertBreak c
        have hne : new.line ≠ line := fun heq => h (heq ▸ ⟨hc, hfront⟩)
        refine .of_find?_eq hid ?_ (fun _ _ => hne) ?_
        · rw [hchildren, hns, find?_congr_of_not htakes h]
        · rw [hchildren, hns, hasBreakAt_congr hgrafted.statement hgrafted.line,
            beq_false_of_ne hne, Bool.false_or]

/-! ## Two breakpoints -/

/-- Nothing is added where a breakpoint of the line stands already. -/
theorem insertBreak_of_hasBreakAt (n : StatementNode)
    (h : hasBreakAt new.line (n.holder new.line).children = true) : insertBreak new n = n := by
  induction n using insertBreak_induction new with
  | here n hholder heq =>
    rw [hholder] at h
    rw [heq, attach_of_hasBreakAt h]
    cases n
    rfl
  | below n c front behind hns hholder heq ih =>
    rw [hholder] at h
    rw [heq, ih h, ← hns]
    cases n
    rfl

/-- Where one breakpoint goes deeper, another one is put in its place by its line. -/
theorem insertBelow_orderedInsert (hb : b.IsLeafBreak) (a : StatementNode)
    (ns : List StatementNode) :
    insertBelow a (ns.orderedInsert Precedes b) =
      (insertBelow a ns).map (·.orderedInsert Precedes b) := by
  induction ns with
  | nil => exact insertBelow_cons_of_not_takes (hb.takes a.line) []
  | cons n ns ih =>
    by_cases h : Precedes b n
    · rw [List.orderedInsert_cons_of_le Precedes ns h,
        insertBelow_cons_of_not_takes (hb.takes a.line)]
      cases htakes : n.takes a.line with
      | true =>
        have h' : Precedes b (insertBreak a n) := by rwa [Precedes, (grafted_insertBreak n).line]
        rw [insertBelow_cons_of_takes htakes, Option.map_some, Option.map_some,
          List.orderedInsert_cons_of_le Precedes ns h']
      | false =>
        rw [insertBelow_cons_of_not_takes htakes, Option.map_map, Option.map_map]
        congr 1
        funext ns'
        exact (List.orderedInsert_cons_of_le Precedes ns' h).symm
    · rw [List.orderedInsert_of_not_le Precedes ns h]
      cases htakes : n.takes a.line with
      | true =>
        have h' : ¬Precedes b (insertBreak a n) := by rwa [Precedes, (grafted_insertBreak n).line]
        rw [insertBelow_cons_of_takes htakes, insertBelow_cons_of_takes htakes, Option.map_some,
          List.orderedInsert_of_not_le Precedes ns h']
      | false =>
        rw [insertBelow_cons_of_not_takes htakes, insertBelow_cons_of_not_takes htakes, ih,
          Option.map_map, Option.map_map]
        congr 1
        funext ns'
        exact (List.orderedInsert_of_not_le Precedes ns' h).symm

/-- What a breakpoint goes below keeps its line, and is as little a breakpoint as
before. -/
theorem insertBelow_keeps (hns : InLineOrder ns) (h : insertBelow new ns = some ns') :
    InLineOrder ns' ∧ ∀ line, hasBreakAt line ns' = hasBreakAt line ns := by
  obtain ⟨front, c, behind, rfl, rfl, -, -⟩ := exists_of_insertBelow_eq_some h
  have hgrafted : Grafted new c (insertBreak new c) := grafted_insertBreak c
  refine ⟨inLineOrder_congr ?_ hns, fun line => ?_⟩
  · rw [List.map_append, List.map_append, List.map_cons, List.map_cons, hgrafted.line]
  · exact hasBreakAt_congr hgrafted.statement hgrafted.line line front behind

theorem insertBelow_attach (hb : b.IsLeafBreak) (hns : InLineOrder ns) (a : StatementNode) :
    insertBelow a (attach b ns) = (insertBelow a ns).map (attach b) := by
  cases h : hasBreakAt b.line ns with
  | true =>
    rw [attach_of_hasBreakAt h]
    cases hbelow : insertBelow a ns with
    | none => rfl
    | some ns' =>
      rw [Option.map_some, attach_of_hasBreakAt (((insertBelow_keeps hns hbelow).2 _).trans h)]
  | false =>
    rw [attach_of_not_hasBreakAt hns h, insertBelow_orderedInsert hb]
    cases hbelow : insertBelow a ns with
    | none => rfl
    | some ns' =>
      obtain ⟨hns', hkeeps⟩ := insertBelow_keeps hns hbelow
      rw [Option.map_some, Option.map_some,
        attach_of_not_hasBreakAt hns' ((hkeeps b.line).trans h)]

theorem attach_comm (ha : a.IsLeafBreak) (hb : b.IsLeafBreak) (hne : a.line ≠ b.line)
    (hns : InLineOrder ns) : attach a (attach b ns) = attach b (attach a ns) := by
  have hab : hasBreakAt a.line (attach b ns) = hasBreakAt a.line ns := by
    rw [hasBreakAt_attach hb hns, beq_false_of_ne hne.symm, Bool.false_or]
  have hba : hasBreakAt b.line (attach a ns) = hasBreakAt b.line ns := by
    rw [hasBreakAt_attach ha hns, beq_false_of_ne hne, Bool.false_or]
  cases h : hasBreakAt a.line ns with
  | true => rw [attach_of_hasBreakAt (hab.trans h), attach_of_hasBreakAt h]
  | false =>
    cases h' : hasBreakAt b.line ns with
    | true => rw [attach_of_hasBreakAt (hba.trans h'), attach_of_hasBreakAt h']
    | false =>
      rw [attach_of_not_hasBreakAt (inLineOrder_attach hns) (hab.trans h),
        attach_of_not_hasBreakAt (inLineOrder_attach hns) (hba.trans h'),
        attach_of_not_hasBreakAt hns h, attach_of_not_hasBreakAt hns h', orderedInsert_comm hne]

theorem insertBelow_bind_of_takes (ha : a.IsLeafBreak) (hta : n.takes a.line = true)
    (htb : n.takes b.line = false) (ns : List StatementNode) :
    (insertBelow a (n :: ns)).bind (insertBelow b) =
      (insertBelow b (n :: ns)).bind (insertBelow a) := by
  rw [insertBelow_cons_of_takes hta, Option.bind_some, insertBelow_cons_of_not_takes htb,
    insertBelow_cons_of_not_takes ((takes_insertBreak ha hta b.line).trans htb), Option.bind_map]
  cases insertBelow b ns with
  | none => rfl
  | some ns' => exact (insertBelow_cons_of_takes hta ns').symm

theorem insertBelow_bind_of_not_takes (hta : n.takes a.line = false) (htb : n.takes b.line = false)
    (ns : List StatementNode) :
    (insertBelow a (n :: ns)).bind (insertBelow b) =
      ((insertBelow a ns).bind (insertBelow b)).map (n :: ·) := by
  rw [insertBelow_cons_of_not_takes hta, Option.bind_map, Option.map_bind]
  congr 1
  funext ns'
  exact insertBelow_cons_of_not_takes htb ns'

theorem insertBelow_bind_comm (ha : a.IsLeafBreak) (hb : b.IsLeafBreak)
    (h : ∀ n ∈ ns, insertBreak a (insertBreak b n) = insertBreak b (insertBreak a n)) :
    (insertBelow a ns).bind (insertBelow b) = (insertBelow b ns).bind (insertBelow a) := by
  induction ns with
  | nil => rfl
  | cons n ns ih =>
    obtain ⟨hn, hns⟩ := List.forall_mem_cons.mp h
    cases hta : n.takes a.line with
    | true =>
      cases htb : n.takes b.line with
      | true =>
        rw [insertBelow_cons_of_takes hta, insertBelow_cons_of_takes htb, Option.bind_some,
          Option.bind_some, insertBelow_cons_of_takes ((takes_insertBreak ha hta b.line).trans htb),
          insertBelow_cons_of_takes ((takes_insertBreak hb htb a.line).trans hta), hn]
      | false => exact insertBelow_bind_of_takes ha hta htb ns
    | false =>
      cases htb : n.takes b.line with
      | true => exact (insertBelow_bind_of_takes hb htb hta ns).symm
      | false =>
        rw [insertBelow_bind_of_not_takes hta htb, insertBelow_bind_of_not_takes htb hta, ih hns]

/-- Where one breakpoint goes deeper, another one goes deeper if it did before. -/
theorem isSome_insertBelow (hb : b.IsLeafBreak) (h : insertBelow b ns = some ns') :
    (insertBelow a ns').isSome = (insertBelow a ns).isSome := by
  obtain ⟨front, c, behind, rfl, rfl, hc, -⟩ := exists_of_insertBelow_eq_some h
  have hnone : insertBelow a (front ++ insertBreak b c :: behind) = none ↔
      insertBelow a (front ++ c :: behind) = none := by
    rw [insertBelow_eq_none_iff, insertBelow_eq_none_iff, List.forall_mem_append,
      List.forall_mem_append, List.forall_mem_cons, List.forall_mem_cons, takes_insertBreak hb hc]
  rw [Bool.eq_iff_iff, ← not_iff_not, Option.not_isSome_iff_eq_none,
    Option.not_isSome_iff_eq_none, hnone]

theorem insertAmong_comm_of_none (ha : a.IsLeafBreak) (hns : InLineOrder ns)
    (hcomm : (insertBelow a ns).bind (insertBelow b) = (insertBelow b ns).bind (insertBelow a))
    (hnone : insertBelow a ns = none) (hsome : insertBelow b ns = some ns') :
    insertAmong a (insertAmong b ns) = insertAmong b (insertAmong a ns) := by
  rw [hnone, hsome, Option.bind_none, Option.bind_some] at hcomm
  rw [insertAmong_of_some hsome, insertAmong_of_none hnone, insertAmong_of_none hcomm.symm]
  refine (insertAmong_of_some ?_).symm
  rw [insertBelow_attach ha hns, hsome, Option.map_some]

theorem insertAmong_comm (ha : a.IsLeafBreak) (hb : b.IsLeafBreak) (hne : a.line ≠ b.line)
    (hns : InLineOrder ns)
    (h : ∀ n ∈ ns, insertBreak a (insertBreak b n) = insertBreak b (insertBreak a n)) :
    insertAmong a (insertAmong b ns) = insertAmong b (insertAmong a ns) := by
  have hcomm := insertBelow_bind_comm ha hb h
  cases hba : insertBelow a ns with
  | none =>
    cases hbb : insertBelow b ns with
    | none =>
      have hab : insertBelow a (attach b ns) = none := by rw [insertBelow_attach hb hns, hba]; rfl
      have hba' : insertBelow b (attach a ns) = none := by rw [insertBelow_attach ha hns, hbb]; rfl
      rw [insertAmong_of_none hba, insertAmong_of_none hbb, insertAmong_of_none hab,
        insertAmong_of_none hba', attach_comm ha hb hne hns]
    | some ns' => exact insertAmong_comm_of_none ha hns hcomm hba hbb
  | some nsa =>
    cases hbb : insertBelow b ns with
    | none => exact (insertAmong_comm_of_none hb hns hcomm.symm hbb hba).symm
    | some nsb =>
      have hsome : (insertBelow a nsb).isSome = true := by
        rw [isSome_insertBelow hb hbb, hba, Option.isSome_some]
      obtain ⟨ns', hns'⟩ := Option.isSome_iff_exists.mp hsome
      rw [hba, hbb, Option.bind_some, Option.bind_some, hns'] at hcomm
      rw [insertAmong_of_some hba, insertAmong_of_some hbb, insertAmong_of_some hns',
        insertAmong_of_some hcomm]

/-- **Breakpoints of different lines may be added in any order.** -/
theorem insertBreak_comm (ha : a.IsLeafBreak) (hb : b.IsLeafBreak) (hne : a.line ≠ b.line)
    (n : StatementNode) (hn : n.Ordered) :
    insertBreak a (insertBreak b n) = insertBreak b (insertBreak a n) := by
  induction n using induction_children with
  | parent n ih =>
    have hcomm := insertAmong_comm ha hb hne hn.children fun c hc => ih c hc (hn.of_mem_children hc)
    rw [insertBreak_eq b n, insertBreak_eq a n, insertBreak_eq, insertBreak_eq]
    dsimp only
    rw [hcomm]

/-! ## Other numbers -/

mutual
/-- The node with other numbers. -/
def mapIds (f : Nat → Nat) : StatementNode → StatementNode
  | ⟨id, statement, line, condition?, children⟩ =>
    ⟨f id, statement, line, condition?, mapIdsAll f children⟩

/-- The nodes with other numbers. -/
def mapIdsAll (f : Nat → Nat) : List StatementNode → List StatementNode
  | [] => []
  | n :: rest => n.mapIds f :: mapIdsAll f rest
end

variable (f : Nat → Nat)

theorem mapIdsAll_eq (ns : List StatementNode) : mapIdsAll f ns = ns.map (mapIds f) := by
  induction ns with
  | nil => rw [mapIdsAll, List.map_nil]
  | cons n ns ih => rw [mapIdsAll, List.map_cons, ih]

theorem line_mapIds (n : StatementNode) : (n.mapIds f).line = n.line := by
  cases n
  rw [mapIds]

theorem isBreak_mapIds (n : StatementNode) : (n.mapIds f).isBreak = n.isBreak := by
  cases n
  rw [mapIds]
  rfl

theorem children_mapIds (n : StatementNode) :
    (n.mapIds f).children = n.children.map (mapIds f) := by
  cases n
  rw [mapIds, mapIdsAll_eq]

theorem lastLine_mapIds (n : StatementNode) : (n.mapIds f).lastLine = n.lastLine := by
  induction n using induction_children with
  | parent n ih =>
    refine eq_of_forall_ge_iff fun k => ?_
    rw [lastLine_le_iff, lastLine_le_iff, line_mapIds, children_mapIds, List.forall_mem_map]
    exact and_congr_right fun _ => forall₂_congr fun c hc => by rw [ih c hc]

theorem takes_mapIds (n : StatementNode) (line : Nat) : (n.mapIds f).takes line = n.takes line := by
  rw [takes, takes, spans, spans, isBreak_mapIds, line_mapIds, lastLine_mapIds]

theorem ordered_mapIds (n : StatementNode) (hn : n.Ordered) : (n.mapIds f).Ordered := by
  induction n using induction_children with
  | parent n ih =>
    have hlines : (n.children.map (mapIds f)).map (·.line) = n.children.map (·.line) := by
      rw [List.map_map]
      exact List.map_congr_left fun c _ => line_mapIds f c
    rw [ordered_iff, children_mapIds, List.forall_mem_map]
    exact ⟨inLineOrder_congr hlines hn.children, fun c hc => ih c hc (hn.of_mem_children hc)⟩

theorem attach_mapIds (new : StatementNode) (ns : List StatementNode) :
    attach (new.mapIds f) (ns.map (mapIds f)) = (attach new ns).map (mapIds f) := by
  have hany : (ns.map (mapIds f)).any (fun n => n.isBreak && n.line == (new.mapIds f).line) =
      ns.any fun n => n.isBreak && n.line == new.line := by
    rw [List.any_map, line_mapIds]
    congr 1
    funext n
    rw [Function.comp_apply, isBreak_mapIds, line_mapIds]
  rw [attach, attach, hany]
  split
  · rfl
  · rw [← List.map_singleton, ← List.map_append, sortByLine, sortByLine]
    exact (List.map_mergeSort fun a _ b _ => by rw [line_mapIds, line_mapIds]).symm

mutual
/-- **Where a breakpoint goes does not depend on numbers.** -/
theorem insertBreak_mapIds (new : StatementNode) : ∀ n : StatementNode,
    insertBreak (new.mapIds f) (n.mapIds f) = (insertBreak new n).mapIds f
  | ⟨id, statement, line, condition?, children⟩ => by
    rw [insertBreak, mapIds, mapIds, insertBreak, mapIdsAll_eq, mapIdsAll_eq,
      insertBelow_mapIds new children, attach_mapIds]
    cases insertBelow new children <;> rfl

theorem insertBelow_mapIds (new : StatementNode) : ∀ ns : List StatementNode,
    insertBelow (new.mapIds f) (ns.map (mapIds f)) =
      (insertBelow new ns).map (List.map (mapIds f))
  | [] => rfl
  | n :: ns => by
    have htakes : (n.mapIds f).takes (new.mapIds f).line = n.takes new.line := by
      rw [takes_mapIds, line_mapIds]
    rw [List.map_cons]
    cases h : n.takes new.line with
    | true =>
      rw [insertBelow_cons_of_takes h, insertBelow_cons_of_takes (htakes.trans h),
        insertBreak_mapIds new n]
      rfl
    | false =>
      rw [insertBelow_cons_of_not_takes h, insertBelow_cons_of_not_takes (htakes.trans h),
        insertBelow_mapIds new ns, Option.map_map, Option.map_map]
      rfl
end

end StatementNode

namespace StatementTree

variable {t : StatementTree}

/-- The breakpoint of a declaration under a number. -/
def breakAs (id : Nat) (d : Declaration) : StatementNode :=
  ⟨id, d.statementOf .break, d.line, d.formula? "cond", []⟩

theorem isLeafBreak_breakAs (id : Nat) (d : Declaration) : (breakAs id d).IsLeafBreak := ⟨rfl, rfl⟩

/-- Whether there is a breakpoint at a line where the descent for it ends. -/
def carries (t : StatementTree) (line : Nat) : Bool :=
  t.root?.all fun n => StatementNode.hasBreakAt line (n.holder line).children

/-- **A breakpoint of a line that is carried already adds nothing.** -/
theorem insertBreak_of_carries {d : Declaration} (h : t.carries d.line = true) :
    t.insertBreak d = t := by
  rcases insertBreak_cases t d with heq | ⟨n, hroot, -, heq⟩
  · exact heq
  · rw [carries, hroot] at h
    have hsame : StatementNode.insertBreak (t.newBreak d) n = n :=
      StatementNode.insertBreak_of_hasBreakAt n h
    rw [heq, hsame, ← hroot]

theorem carries_insertBreak (ht : t.Ordered) (d : Declaration) (line : Nat) :
    (t.insertBreak d).carries line =
      ((d.kind? == some .break && d.line == line) || t.carries line) := by
  obtain ⟨_ | n⟩ := t
  · rw [insertBreak_none]
    exact (Bool.or_true _).symm
  · rw [insertBreak]
    cases hkind : d.kind? == some .break with
    | true =>
      rw [if_pos rfl, Bool.true_and]
      exact (StatementNode.holder_insertBreak (isLeafBreak_breakAs n.size d) line n
        (ht n rfl)).hasBreakAt
    | false =>
      rw [if_neg Bool.false_ne_true]
      rfl

theorem carries_insertBreaks (ht : t.Ordered) (breaks : List Declaration) (line : Nat) :
    (t.insertBreaks breaks).carries line =
      (breaks.any (fun d => d.kind? == some .break && d.line == line) || t.carries line) := by
  induction breaks generalizing t with
  | nil => rfl
  | cons d breaks ih =>
    rw [insertBreaks, List.foldl_cons, ← insertBreaks, ih (ordered_insertBreak ht d),
      carries_insertBreak ht, List.any_cons, Bool.or_left_comm, Bool.or_assoc]

/-- Breakpoints that are added once more add nothing. -/
theorem insertBreaks_again (ht : t.Ordered) {breaks again : List Declaration}
    (h : again ⊆ breaks) : (t.insertBreaks breaks).insertBreaks again = t.insertBreaks breaks := by
  induction again with
  | nil => rfl
  | cons d again ih =>
    obtain ⟨hd, hagain⟩ := List.cons_subset.mp h
    have hsame : (t.insertBreaks breaks).insertBreak d = t.insertBreaks breaks := by
      by_cases hkind : d.kind? = some .break
      · refine insertBreak_of_carries ?_
        have hany : breaks.any (fun b => b.kind? == some .break && b.line == d.line) = true :=
          List.any_eq_true.mpr ⟨d, hd, by rw [hkind, beq_self_eq_true, beq_self_eq_true]; rfl⟩
        rw [carries_insertBreaks ht, hany, Bool.true_or]
      · exact insertBreak_of_not_break hkind _
    rw [insertBreaks, List.foldl_cons, hsame]
    exact ih hagain

/-- The tree with other numbers. -/
def mapIds (f : Nat → Nat) (t : StatementTree) : StatementTree :=
  ⟨t.root?.map (StatementNode.mapIds f)⟩

/-- Adds the breakpoint of a declaration that makes one, under a number. -/
def insertBreakAs (id : Nat) (t : StatementTree) (d : Declaration) : StatementTree :=
  if d.kind? == some .break then ⟨t.root?.map (StatementNode.insertBreak (breakAs id d))⟩ else t

theorem mapIds_insertBreak (f : Nat → Nat) (t : StatementTree) (d : Declaration) :
    (t.insertBreak d).mapIds f = (t.mapIds f).insertBreakAs (f t.size) d := by
  rw [insertBreak, insertBreakAs]
  split
  · rw [mapIds, mapIds, Option.map_map, Option.map_map]
    congr 2
    funext n
    rw [Function.comp_apply, Function.comp_apply, ← StatementNode.insertBreak_mapIds,
      StatementNode.mapIds, StatementNode.mapIdsAll, breakAs]
  · rfl

/-- Numbers from a limit on are not told apart. -/
theorem mapIds_insertBreaks (h : t.Sound) {limit : Nat} (hlimit : limit ≤ t.size)
    (breaks : List Declaration) :
    (t.insertBreaks breaks).mapIds (min limit) =
      breaks.foldl (insertBreakAs limit) (t.mapIds (min limit)) := by
  induction breaks generalizing t with
  | nil => rfl
  | cons d breaks ih =>
    have hsize := (h.extendedBy_insertBreak d).size_le
    rw [insertBreaks, List.foldl_cons, ← insertBreaks,
      ih (sound_insertBreak h d) (Nat.le_trans hlimit hsize), List.foldl_cons, mapIds_insertBreak,
      Nat.min_eq_left hlimit]

theorem insertBreakAs_of_break {d : Declaration} (h : d.kind? = some .break) (id : Nat)
    (t : StatementTree) :
    t.insertBreakAs id d = ⟨t.root?.map (StatementNode.insertBreak (breakAs id d))⟩ := by
  rw [insertBreakAs, h]
  rfl

theorem insertBreakAs_of_not_break {d : Declaration} (h : d.kind? ≠ some .break) (id : Nat)
    (t : StatementTree) : t.insertBreakAs id d = t :=
  if_neg (by simpa using h)

theorem ordered_insertBreakAs (ht : t.Ordered) (id : Nat) (d : Declaration) :
    (t.insertBreakAs id d).Ordered := by
  by_cases h : d.kind? = some .break
  · rw [insertBreakAs_of_break h]
    intro n hn
    obtain ⟨root, hroot, rfl⟩ := Option.map_eq_some_iff.mp hn
    exact StatementNode.ordered_insertBreak (isLeafBreak_breakAs id d).ordered root (ht root hroot)
  · rwa [insertBreakAs_of_not_break h]

theorem insertBreakAs_comm (ht : t.Ordered) (id : Nat) {d d' : Declaration}
    (hne : d.line ≠ d'.line) :
    (t.insertBreakAs id d).insertBreakAs id d' = (t.insertBreakAs id d').insertBreakAs id d := by
  by_cases h : d.kind? = some .break
  · by_cases h' : d'.kind? = some .break
    · rw [insertBreakAs_of_break h, insertBreakAs_of_break h, insertBreakAs_of_break h',
        insertBreakAs_of_break h']
      obtain ⟨_ | n⟩ := t
      · rfl
      · have hcomm := StatementNode.insertBreak_comm (isLeafBreak_breakAs id d')
          (isLeafBreak_breakAs id d) hne.symm n (ht n rfl)
        exact congrArg (fun n => StatementTree.mk (some n)) hcomm
    · rw [insertBreakAs_of_not_break h', insertBreakAs_of_not_break h']
  · rw [insertBreakAs_of_not_break h, insertBreakAs_of_not_break h]

theorem foldl_insertBreakAs_perm (ht : t.Ordered) (id : Nat) {breaks breaks' : List Declaration}
    (hperm : breaks.Perm breaks') (hlines : breaks.Pairwise fun a b => a.line ≠ b.line) :
    breaks.foldl (insertBreakAs id) t = breaks'.foldl (insertBreakAs id) t := by
  induction hperm generalizing t with
  | nil => rfl
  | cons d _ ih =>
    exact ih (ordered_insertBreakAs ht id d) (List.pairwise_cons.mp hlines).2
  | swap d d' breaks =>
    have hne : d'.line ≠ d.line := (List.pairwise_cons.mp hlines).1 d List.mem_cons_self
    rw [List.foldl_cons, List.foldl_cons, List.foldl_cons, List.foldl_cons,
      insertBreakAs_comm ht id hne]
  | trans hfirst _ ih ih' =>
    have hlines' := (hfirst.pairwise_iff fun h => Ne.symm h).mp hlines
    exact (ih ht hlines).trans (ih' ht hlines')

theorem foldl_insertBreaks (t : StatementTree) (batches : List (List Declaration)) :
    batches.foldl insertBreaks t = t.insertBreaks batches.flatten :=
  List.foldl_flatten.symm

theorem ordered_mapIds (ht : t.Ordered) (f : Nat → Nat) : (t.mapIds f).Ordered := by
  intro n hn
  obtain ⟨root, hroot, rfl⟩ := Option.map_eq_some_iff.mp hn
  exact StatementNode.ordered_mapIds f root (ht root hroot)

/-- **Breakpoints may be added again, and in any order.**  Whatever has been added
to the tree of a description, adding some of the last breakpoints again changes
nothing; and those of different lines may be added in any order and any number of
batches, but for the numbers that they get. -/
theorem insertBreaks_again_and_in_any_order (d : Declaration)
    (earlier : List (List Declaration)) (breaks : List Declaration) :
    let t := earlier.foldl insertBreaks (ofDeclaration d)
    (∀ again, again ⊆ breaks →
      (t.insertBreaks breaks).insertBreaks again = t.insertBreaks breaks) ∧
    ((breaks.Pairwise fun a b => a.line ≠ b.line) → ∀ batches : List (List Declaration),
      batches.flatten.Perm breaks →
        (batches.foldl insertBreaks t).mapIds (min t.size) =
          (t.insertBreaks breaks).mapIds (min t.size)) := by
  intro t
  have hsound : t.Sound := sound_foldl (sound_ofDeclaration d) earlier
  refine ⟨fun again hagain => insertBreaks_again hsound.ordered hagain,
    fun hlines batches hperm => ?_⟩
  rw [foldl_insertBreaks, mapIds_insertBreaks hsound (Nat.le_refl _),
    mapIds_insertBreaks hsound (Nat.le_refl _)]
  exact (foldl_insertBreakAs_perm (ordered_mapIds hsound.ordered _) t.size hperm.symm hlines).symm

/-- Two breakpoints, one below each of two lists, the second one first. -/
theorem insertBreaks_again_and_in_any_order_two :
    let d : Declaration :=
      { tag := "object", line := 1,
        children := [
          { tag := "list", line := 2, children := [{ tag := "item", line := 4 }] },
          { tag := "list", line := 5, children := [{ tag := "item", line := 7 }] }] }
    let third : Declaration := { tag := "break", line := 3 }
    let sixth : Declaration := { tag := "break", line := 6 }
    let t := ofDeclaration d
    ([third] ⊆ [third, sixth] ∧ ([third, sixth].Pairwise fun a b => a.line ≠ b.line) ∧
        [[sixth], [third]].flatten.Perm [third, sixth]) ∧
      (t.insertBreaks [third, sixth]).insertBreaks [third] = t.insertBreaks [third, sixth] ∧
      ([[sixth], [third]].foldl insertBreaks t).mapIds (min t.size) =
        (t.insertBreaks [third, sixth]).mapIds (min t.size) := by
  intro d third sixth t
  have hsub : [third] ⊆ [third, sixth] := List.cons_subset_cons _ (List.nil_subset _)
  have hlines : [third, sixth].Pairwise fun a b => a.line ≠ b.line := by decide
  have hperm : [[sixth], [third]].flatten.Perm [third, sixth] := .swap third sixth []
  obtain ⟨hagain, horder⟩ := insertBreaks_again_and_in_any_order d [] [third, sixth]
  exact ⟨⟨hsub, hlines, hperm⟩, hagain [third] hsub, horder hlines _ hperm⟩

end StatementTree
end TargetView
