import TargetView.Proofs.Tables

/-! # Tables of trees with a node more

Adding a node to a tree (`StatementNode.Grafted`) leaves its table as it is, but
for the entry of the new node and its number among the children of another one.
Siblings stay ranked if the new node has the greatest number (`Grafted.ranked`).
Without what is new the table is the old one (`entries_of_alike`).  What is new
is the entry of the new node, besides the one that has got another child, which
is no breakpoint (`Grafted.addedTo`).
-/
namespace TargetView

/-- The entry without the children from a number on. -/
def Entry.upTo (limit : Nat) (e : Entry) : Entry :=
  { e with children := e.children.filter (· < limit) }

namespace StatementNode

variable {new : StatementNode} {ns : List StatementNode} {limit : Nat}

/-! ## Ranks -/

theorem Grafted.id {n n' : StatementNode} (h : Grafted new n n') : n'.id = n.id := by
  cases h <;> rfl

theorem isRanked_attach (hnew : ∀ i ∈ idsAll ns, i < new.id) (h : IsRanked ns) :
    IsRanked (attach new ns) := by
  rw [attach]
  split
  · exact h
  · refine isRanked_sortByLine (List.pairwise_append.mpr ⟨?_, List.pairwise_singleton _ _, ?_⟩)
    · refine h.imp fun hab heq => hab.elim (fun hlt => ?_) And.right
      omega
    · intro a ha b hb _
      rw [List.mem_singleton.mp hb]
      exact hnew a.id (mem_idsAll_of_mem ha)

theorem rankedAll_attach (hnew : new.Ranked) (h : RankedAll ns) : RankedAll (attach new ns) := by
  rw [attach]
  split
  · exact h
  · refine rankedAll_sortByLine (rankedAll_iff.mpr fun n hn => ?_)
    rcases List.mem_append.mp hn with hn | hn
    · exact rankedAll_iff.mp h n hn
    · rwa [List.mem_singleton.mp hn]

/-- **A new node with a greater number than all others leaves them ranked.** -/
theorem Grafted.ranked (hnew : new.Ranked) {n n' : StatementNode} (h : Grafted new n n')
    (hids : ∀ i ∈ n.ids, i < new.id) (hn : n.Ranked) : n'.Ranked := by
  induction h with
  | here =>
    rw [ids_mk] at hids
    exact ⟨isRanked_attach (List.forall_mem_cons.mp hids).2 hn.1, rankedAll_attach hnew hn.2⟩
  | @deeper _ _ _ _ front behind n n' _ h ih =>
    obtain ⟨hranked, hall⟩ := hn
    have hranks : (front ++ n' :: behind).map (fun n => (n.line, n.id)) =
        (front ++ n :: behind).map fun n => (n.line, n.id) := by
      rw [List.map_append, List.map_append, List.map_cons, List.map_cons, h.line, h.id]
    have hidn : ∀ i ∈ n.ids, i < new.id := by
      intro i hi
      rw [ids_mk] at hids
      have hmem : n ∈ front ++ n :: behind := List.mem_append_right _ List.mem_cons_self
      exact (List.forall_mem_cons.mp hids).2 i (List.mem_flatMap.mpr ⟨n, hmem, hi⟩)
    rw [rankedAll_iff, List.forall_mem_append, List.forall_mem_cons] at hall
    refine ⟨isRanked_congr hranks hranked, ?_⟩
    rw [rankedAll_iff, List.forall_mem_append, List.forall_mem_cons]
    exact ⟨hall.1, ih hidn hall.2.1, hall.2.2⟩

/-! ## What is kept -/

mutual
/-- The table of a node with extra nodes below it, these left out. -/
theorem entries_of_alike {extra : StatementNode → Prop}
    (hextra : ∀ b, extra b → ∀ i ∈ b.ids, limit ≤ i) : ∀ (n' : StatementNode)
      {n : StatementNode} (parent? : Option Nat), n.Alike Eq extra n' → (∀ i ∈ n.ids, i < limit) →
        ((n'.entries parent?).filter fun e => e.id < limit).map (·.upTo limit) = n.entries parent?
  | ⟨_, _, _, _, children'⟩, _, parent?, h, hids => by
    cases h with
    | node hid hc =>
      subst hid
      rw [ids_mk] at hids
      obtain ⟨hid, hids⟩ := List.forall_mem_cons.mp hids
      obtain ⟨hentries, hchildren⟩ := entriesAll_of_alikeAll hextra children' _ hc hids
      rw [entries, entries, List.filter_cons, if_pos (decide_eq_true hid), List.map_cons, hentries,
        Entry.upTo, hchildren]

theorem entriesAll_of_alikeAll {extra : StatementNode → Prop}
    (hextra : ∀ b, extra b → ∀ i ∈ b.ids, limit ≤ i) : ∀ (ns' : List StatementNode)
      {ns : List StatementNode} (parent : Nat), AlikeAll Eq extra ns ns' →
        (∀ i ∈ idsAll ns, i < limit) →
        ((entriesAll parent ns').filter fun e => e.id < limit).map (·.upTo limit) =
          entriesAll parent ns ∧
        (ns'.map (·.id)).filter (· < limit) = ns.map (·.id)
  | [], _, parent, h, _ => by
    cases h
    exact ⟨by rw [entriesAll]; rfl, rfl⟩
  | n' :: ns', ns, parent, h, hids => by
    rw [entriesAll, List.filter_append, List.map_append, List.map_cons]
    cases h with
    | @cons n _ ns _ hn hns =>
      rw [idsAll_cons] at hids
      obtain ⟨hidn, hids⟩ := List.forall_mem_append.mp hids
      obtain ⟨hentries, hchildren⟩ := entriesAll_of_alikeAll hextra ns' parent hns hids
      have hid : n'.id = n.id := by
        cases hn with
        | node hid _ => exact hid.symm
      have hlt : n'.id < limit := hid ▸ hidn n.id n.id_mem_ids
      rw [entries_of_alike hextra n' _ hn hidn, hentries, entriesAll,
        List.filter_cons, if_pos (decide_eq_true hlt), hchildren, hid, List.map_cons]
      exact ⟨rfl, rfl⟩
    | extra hb hns =>
      obtain ⟨hentries, hchildren⟩ := entriesAll_of_alikeAll hextra ns' parent hns hids
      have hge : ¬n'.id < limit := Nat.not_lt.mpr (hextra n' hb n'.id n'.id_mem_ids)
      have hnone : ((n'.entries (some parent)).filter fun e => e.id < limit) = [] := by
        refine List.filter_eq_nil_iff.mpr fun e he hlt => ?_
        have hmem : e.id ∈ n'.ids := by
          rw [← map_id_entries n' (some parent)]
          exact List.mem_map_of_mem he
        exact absurd (of_decide_eq_true hlt) (Nat.not_lt.mpr (hextra n' hb e.id hmem))
      rw [hnone, hentries, List.filter_cons_of_neg (by simpa using hge), hchildren]
      exact ⟨rfl, rfl⟩
end

/-! ## What is added -/

/-- An entry that is there after a new node has been added: it was there before,
it is that of the new node, or it is that of a node which is no breakpoint. -/
def AddedTo (new : StatementNode) (es : List Entry) (e : Entry) : Prop :=
  e ∈ es ∨ (∃ parent, e = new.entry (some parent)) ∨
    e.id ∈ es.map (·.id) ∧ e.statement.isBreak = false

theorem AddedTo.append_left {es es' : List Entry} {e : Entry} (h : AddedTo new es e) :
    AddedTo new (es ++ es') e := by
  rcases h with h | h | ⟨hid, hbreak⟩
  · exact .inl (List.mem_append_left _ h)
  · exact .inr (.inl h)
  · rw [AddedTo, List.map_append]
    exact .inr (.inr ⟨List.mem_append_left _ hid, hbreak⟩)

theorem AddedTo.append_right (es : List Entry) {es' : List Entry} {e : Entry}
    (h : AddedTo new es' e) :
    AddedTo new (es ++ es') e := by
  rcases h with h | h | ⟨hid, hbreak⟩
  · exact .inl (List.mem_append_right _ h)
  · exact .inr (.inl h)
  · rw [AddedTo, List.map_append]
    exact .inr (.inr ⟨List.mem_append_right _ hid, hbreak⟩)

theorem Grafted.statement {n n' : StatementNode} (h : Grafted new n n') :
    n'.statement = n.statement := by
  cases h <;> rfl

theorem addedTo_attach (hnew : new.children = []) (parent : Nat) (ns : List StatementNode) :
    ∀ e ∈ entriesAll parent (attach new ns), AddedTo new (entriesAll parent ns) e := by
  intro e he
  rw [attach] at he
  split at he
  · exact .inl he
  · rw [entriesAll_eq, (perm_sortByLine _ |>.flatMap_right _).mem_iff, List.flatMap_append,
      ← entriesAll_eq] at he
    rcases List.mem_append.mp he with he | he
    · exact .inl he
    · rw [List.flatMap_singleton, entries_eq, hnew, entriesAll, List.mem_singleton] at he
      exact .inr (.inl ⟨parent, he⟩)

theorem Grafted.addedTo (hnew : new.children = []) {n n' : StatementNode} (h : Grafted new n n') :
    ∀ e ∈ entriesAll n'.id n'.children, AddedTo new (entriesAll n.id n.children) e := by
  induction h with
  | here id _ _ _ children => exact addedTo_attach hnew id children
  | @deeper id _ _ _ front behind n n' hbreak h ih =>
    intro e he
    rw [entriesAll_append, entriesAll] at he ⊢
    rcases List.mem_append.mp he with he | he
    · exact .inl (List.mem_append_left _ he)
    refine AddedTo.append_right _ ?_
    rcases List.mem_append.mp he with he | he
    · refine AddedTo.append_left ?_
      rw [entries_eq] at he ⊢
      rcases List.mem_cons.mp he with rfl | he
      · -- The node itself may have got another child, but it is no breakpoint.
        refine .inr (.inr ⟨?_, (congrArg Statement.isBreak h.statement).trans hbreak⟩)
        exact List.mem_cons.mpr (.inl h.id)
      · exact (ih e he).append_right [_]
    · exact .inl (List.mem_append_right _ he)

/-! ## Numbers -/

theorem perm_idsAll_attach (hnew : new.ids = [new.id]) (ns : List StatementNode) :
    attach new ns = ns ∨ (idsAll (attach new ns)).Perm (new.id :: idsAll ns) := by
  rw [attach]
  split
  · exact .inl rfl
  · refine .inr (((perm_sortByLine _).flatMap_right ids).trans ?_)
    rw [List.flatMap_append, List.flatMap_singleton, hnew]
    exact List.perm_append_singleton _ _

/-- Adding a node adds its number, or nothing at all. -/
theorem Grafted.perm_ids (hnew : new.ids = [new.id]) {n n' : StatementNode}
    (h : Grafted new n n') : n' = n ∨ n'.ids.Perm (new.id :: n.ids) := by
  induction h with
  | here id _ _ _ children =>
    rw [ids_mk, ids_mk]
    rcases perm_idsAll_attach hnew children with h | h
    · exact .inl (by rw [h])
    · exact .inr ((h.cons id).trans (.swap _ _ _))
  | @deeper id _ _ _ front behind n n' _ _ ih =>
    rcases ih with rfl | h
    · exact .inl rfl
    · rw [ids_mk, ids_mk, idsAll_append, idsAll_append, idsAll_cons, idsAll_cons]
      have hbehind : (idsAll front ++ (n'.ids ++ idsAll behind)).Perm
          (new.id :: (idsAll front ++ (n.ids ++ idsAll behind))) :=
        ((h.append_right _).append_left _).trans List.perm_middle
      exact .inr ((hbehind.cons id).trans (.swap _ _ _))

/-- The new node is added once, or not at all. -/
theorem insertBreak_adds (hnew : new.ids = [new.id]) (n : StatementNode) :
    insertBreak new n = n ∨
      (insertBreak new n).size = n.size + 1 ∧ (insertBreak new n).ids.Perm (new.id :: n.ids) := by
  refine ((grafted_insertBreak n).perm_ids hnew).imp_right fun h => ⟨?_, h⟩
  rw [← length_ids, ← length_ids, h.length_eq, List.length_cons]

end StatementNode
end TargetView
