import Mathlib.Data.List.Nodup
import Mathlib.Data.List.Perm.Subperm
import Mathlib.Logic.Relation
import TargetView.Proofs.Sweep

/-! # The arena is a forest

Every construct puts its node behind those of its operands, and no node is
handed to two constructs.  So the numbers of operands are smaller than that of
their node, and no number occurs twice among all operands
(`Listing.IsForest`).  What carries the proof is a stretch of nodes together
with those among them that are still free (`Listing.Adds`): stretches are put
one behind the other, a node takes all that are free and is the only free one
afterwards, and error recovery leaves some of them alone for good.

Two things rest on it.  The sweep finds recorded of an operand what the arena
holds in the end; and a walk that starts at the root and goes from nodes to
their operands, in whatever order and past whichever of them it likes, comes
to no node twice, so it ends.
-/
namespace TargetView

namespace Listing

/-- The operands of the node with a number. -/
def operandsOf (nodes : Listing) (i : Nat) : List Nat := (nodes.node i).shape.operands

/-- Operands stand before their node, and no node is an operand twice. -/
structure IsForest (nodes : Listing) : Prop where
  earlier : ∀ i, ∀ k ∈ nodes.operandsOf i, k < i
  once : ∀ i, (nodes.operandsOf i).Nodup
  apart : ∀ i j k, k ∈ nodes.operandsOf i → k ∈ nodes.operandsOf j → i = j

/-! ### Stretches of nodes -/

/-- The operands of some nodes. -/
def operandsAll (nodes : List Node) : List Nat := nodes.flatMap (·.shape.operands)

/-- Nodes with the numbers from `start` on refer to earlier ones among
themselves; those numbered `free` are operands of none of them. -/
structure Stretch (start : Nat) (nodes : List Node) (free : List Nat) : Prop where
  earlier : ∀ i n, nodes[i]? = some n → ∀ k ∈ n.shape.operands, start ≤ k ∧ k < start + i
  once : (operandsAll nodes ++ free).Nodup
  within : ∀ k ∈ free, start ≤ k ∧ k < start + nodes.length

variable {start : Nat} {nodes more : List Node} {free free' : List Nat}

theorem Stretch.operands (h : Stretch start nodes free) :
    ∀ k ∈ operandsAll nodes, start ≤ k ∧ k < start + nodes.length := by
  intro k hk
  obtain ⟨n, hn, hk⟩ := List.mem_flatMap.mp hk
  obtain ⟨i, hi⟩ := List.mem_iff_getElem?.mp hn
  have hlt := (List.getElem?_eq_some_iff.mp hi).1
  have hk := h.earlier i n hi k hk
  omega

theorem Stretch.append (h : Stretch start nodes free)
    (h' : Stretch (start + nodes.length) more free') :
    Stretch start (nodes ++ more) (free ++ free') where
  earlier i n hn k hk := by
    rcases Nat.lt_or_ge i nodes.length with hlt | hge
    · rw [List.getElem?_append_left hlt] at hn
      exact h.earlier i n hn k hk
    · rw [List.getElem?_append_right hge] at hn
      have hk := h'.earlier _ n hn k hk
      omega
  once := by
    have hperm : (operandsAll (nodes ++ more) ++ (free ++ free')).Perm
        ((operandsAll nodes ++ free) ++ (operandsAll more ++ free')) := by
      rw [operandsAll, List.flatMap_append, List.append_assoc, List.append_assoc]
      refine List.Perm.append_left _ ?_
      rw [← List.append_assoc, ← List.append_assoc]
      exact List.Perm.append_right _ List.perm_append_comm
    refine hperm.nodup_iff.mpr (List.nodup_append.mpr ⟨h.once, h'.once, ?_⟩)
    -- What belongs to the first stretch is numbered below what belongs to the second.
    intro k hk l hl
    have hlow : k < start + nodes.length := by
      rcases List.mem_append.mp hk with hk | hk
      · exact (h.operands k hk).2
      · exact (h.within k hk).2
    have hhigh : start + nodes.length ≤ l := by
      rcases List.mem_append.mp hl with hl | hl
      · exact (h'.operands l hl).1
      · exact (h'.within l hl).1
    omega
  within k hk := by
    rw [List.length_append]
    rcases List.mem_append.mp hk with hk | hk
    · have := h.within k hk
      omega
    · have := h'.within k hk
      omega

/-- A node that takes all that are free. -/
theorem Stretch.push (h : Stretch start nodes free) {n : Node} (hn : n.shape.operands = free) :
    Stretch start (nodes ++ [n]) [start + nodes.length] where
  earlier i m hm k hk := by
    rcases Nat.lt_or_ge i nodes.length with hlt | hge
    · rw [List.getElem?_append_left hlt] at hm
      exact h.earlier i m hm k hk
    · rw [List.getElem?_append_right hge] at hm
      obtain rfl := List.mem_singleton.mp (List.mem_of_getElem? hm)
      have hk := h.within k (hn ▸ hk)
      omega
  once := by
    have hall : operandsAll (nodes ++ [n]) = operandsAll nodes ++ free := by
      rw [operandsAll, List.flatMap_append, List.flatMap_singleton, hn]
      rfl
    rw [hall]
    refine List.nodup_append.mpr ⟨h.once, List.nodup_singleton _, ?_⟩
    intro k hk l hl
    obtain rfl := List.mem_singleton.mp hl
    rcases List.mem_append.mp hk with hk | hk
    · exact Nat.ne_of_lt (h.operands k hk).2
    · exact Nat.ne_of_lt (h.within k hk).2
  within k hk := by
    obtain rfl := List.mem_singleton.mp hk
    rw [List.length_append, List.length_singleton]
    omega

/-- Nodes that are left alone are operands of none. -/
theorem Stretch.abandon (h : Stretch start nodes free) : Stretch start nodes [] where
  earlier := h.earlier
  once := (List.append_nil _).symm ▸ (List.nodup_append.mp h.once).1
  within := nofun

/-- A listing adds a stretch to another one. -/
def Adds (base all : Listing) (free : List Nat) : Prop :=
  ∃ new, all.toList = base.toList ++ new ∧ Stretch base.size new free

variable {base mid all : Listing}

theorem size_of_append {new : List Node} (h : all.toList = base.toList ++ new) :
    all.size = base.size + new.length := by
  rw [← Array.length_toList, h, List.length_append, Array.length_toList]

theorem Adds.refl (base : Listing) : base.Adds base [] :=
  ⟨[], (List.append_nil _).symm, ⟨nofun, List.nodup_nil, nofun⟩⟩

theorem Adds.trans (h : base.Adds mid free) (h' : mid.Adds all free') :
    base.Adds all (free ++ free') := by
  obtain ⟨new, hmid, hnew⟩ := h
  obtain ⟨more, hall, hmore⟩ := h'
  rw [size_of_append hmid] at hmore
  exact ⟨new ++ more, by rw [hall, hmid, List.append_assoc], hnew.append hmore⟩

theorem Adds.push (h : base.Adds all free) {n : Node} (hn : n.shape.operands = free) :
    base.Adds (all.push n) [last (all.push n)] := by
  obtain ⟨new, hall, hnew⟩ := h
  refine ⟨new ++ [n], by rw [Array.toList_push, hall, List.append_assoc], ?_⟩
  rw [last_push, size_of_append hall]
  exact hnew.push hn

theorem Adds.abandon (h : base.Adds all free) : base.Adds all [] :=
  have ⟨new, hall, hnew⟩ := h
  ⟨new, hall, hnew.abandon⟩

theorem operandsOf_eq {i : Nat} {n : Node} (h : nodes[i]? = some n) (hall : all.toList = nodes) :
    all.operandsOf i = n.shape.operands := by
  rw [operandsOf, node, ← Array.getElem?_toList, hall, h]
  rfl

theorem exists_of_mem_operandsOf {i k : Nat} (h : k ∈ all.operandsOf i) :
    ∃ n, all.toList[i]? = some n ∧ k ∈ n.shape.operands := by
  rw [operandsOf, node, ← Array.getElem?_toList] at h
  cases hn : all.toList[i]? with
  | none =>
    rw [hn] at h
    cases h
  | some n =>
    rw [hn] at h
    exact ⟨n, rfl, h⟩

/-- What starts with the first node is a forest. -/
theorem Adds.isForest (h : Adds #[] all free) : all.IsForest := by
  obtain ⟨new, hall, hnew⟩ := h
  rw [Array.toList_empty, List.nil_append] at hall
  subst hall
  obtain ⟨honce, hapart⟩ := List.nodup_flatMap.mp (List.nodup_append.mp hnew.once).1
  have hlt {i j k : Nat} (hij : i < j) (hi : k ∈ all.operandsOf i) (hj : k ∈ all.operandsOf j) :
      False := by
    obtain ⟨n, hn, hi⟩ := exists_of_mem_operandsOf hi
    obtain ⟨m, hm, hj⟩ := exists_of_mem_operandsOf hj
    obtain ⟨hilt, rfl⟩ := List.getElem?_eq_some_iff.mp hn
    obtain ⟨hjlt, rfl⟩ := List.getElem?_eq_some_iff.mp hm
    exact List.pairwise_iff_getElem.mp hapart i j hilt hjlt hij hi hj
  refine ⟨fun i k hk => ?_, fun i => ?_, fun i j k hi hj => ?_⟩
  · obtain ⟨n, hn, hk⟩ := exists_of_mem_operandsOf hk
    have hk := hnew.earlier i n hn k hk
    rw [Array.size_empty] at hk
    omega
  · cases hn : all.toList[i]? with
    | none =>
      rw [operandsOf, node, ← Array.getElem?_toList, hn]
      exact List.nodup_nil
    | some n =>
      rw [operandsOf_eq hn rfl]
      exact honce n (List.mem_of_getElem? hn)
  · rcases Nat.lt_trichotomy i j with hij | hij | hij
    · exact (hlt hij hi hj).elim
    · exact hij
    · exact (hlt hij hj hi).elim

end Listing

/-! ### The nodes of a text -/

namespace Expr

mutual
/-- An expression adds its nodes, and leaves the last one free. -/
theorem adds_listing : ∀ (e : Expr) (nodes : Listing),
    nodes.Adds (e.listing nodes) [(e.listing nodes).last]
  | number .., nodes | text .., nodes | ident .., nodes | malformed _, nodes =>
    (Listing.Adds.refl nodes).push rfl
  | unnamed base _, nodes => (adds_listing base nodes).abandon.push rfl
  | member base _ _, nodes | unary _ base _, nodes | update _ _ base _, nodes =>
    (adds_listing base nodes).push rfl
  | index left right _, nodes | binary _ left right _, nodes | assign _ left right _, nodes =>
    ((adds_listing left nodes).trans (adds_listing right _)).push rfl
  | conditional cond yes no _, nodes =>
    (((adds_listing cond nodes).trans (adds_listing yes _)).trans (adds_listing no _)).push rfl
  | call callee args _, nodes =>
    ((adds_listing callee nodes).trans (adds_listingAll args _)).push rfl
  | intrinsic fn nameSpan args _, nodes =>
    -- The name stays free for good.
    have hname := (Listing.Adds.refl nodes).push (n := ⟨.ident fn.name, nameSpan, none⟩) rfl
    (hname.abandon.trans (adds_listingAll args _)).push rfl

theorem adds_listingAll : ∀ (es : List Expr) (nodes : Listing),
    nodes.Adds (listingAll nodes es).1 (listingAll nodes es).2
  | [], nodes => .refl nodes
  | e :: rest, nodes => (adds_listing e nodes).trans (adds_listingAll rest _)
end

end Expr

/-- The segments of a format text leave free what they render. -/
theorem Template.adds_listing : ∀ (segments : List Segment) (nodes : Listing),
    nodes.Adds (listing nodes segments).1 (Shape.template (listing nodes segments).2).operands
  | [], nodes => .refl nodes
  | .text _ :: rest, nodes => adds_listing rest nodes
  | .format _ e :: rest, nodes => (e.adds_listing nodes).trans (adds_listing rest _)

/-- **The nodes of a text are a forest in which every node stands behind its
operands.** -/
theorem Body.isForest_listing (body : Body) : body.listing.IsForest := by
  cases body with
  | expression e => exact (e.adds_listing #[]).isForest
  | template segments _ => exact ((Template.adds_listing segments #[]).push rfl).isForest

/-! ### The sweep over a forest -/

namespace Arena

/-- The sweep keeps what it has recorded, and records one node for each. -/
theorem exists_sweep_append (nodes : List Node) (swept : Listing × List Diagnostic) :
    ∃ more, (nodes.foldl sweepNode swept).1.toList = swept.1.toList ++ more ∧
      more.length = nodes.length := by
  induction nodes generalizing swept with
  | nil => exact ⟨[], (List.append_nil _).symm, rfl⟩
  | cons n rest ih =>
    obtain ⟨more, hmore, hlength⟩ := ih (sweepNode swept n)
    rw [sweepNode, Array.toList_push, List.append_assoc] at hmore
    exact ⟨_, hmore, congrArg (· + 1) hlength⟩

theorem size_sweep (nodes : Listing) : (sweep nodes).1.size = nodes.size := by
  obtain ⟨more, hmore, hlength⟩ := exists_sweep_append nodes.toList (#[], [])
  rw [Array.toList_empty, List.nil_append] at hmore
  rw [sweep, ← Array.length_toList, hmore, hlength, Array.length_toList]

/-- What is recorded before a node is reached stays as it is. -/
theorem node_sweep_take (nodes : Listing) {i k : Nat} (hk : k < i) (hsize : k < nodes.size) :
    (sweep (nodes.take i)).1.node k = (sweep nodes).1.node k := by
  have hlt : k < (sweep (nodes.take i)).1.size := by
    rw [size_sweep, Array.take_eq_extract, Array.size_extract]
    omega
  obtain ⟨more, hmore, -⟩ := exists_sweep_append (nodes.toList.drop i) (sweep (nodes.take i))
  have hsweep : (sweep nodes).1.toList = (sweep (nodes.take i)).1.toList ++ more := by
    rw [← hmore, sweep, sweep, ← List.foldl_append, Array.take_eq_extract, Array.toList_extract,
      List.extract_eq_take_drop, List.drop_zero, Nat.sub_zero, List.take_append_drop]
  rw [Listing.node, Listing.node, ← Array.getElem?_toList, ← Array.getElem?_toList, hsweep,
    List.getElem?_append_left (by rwa [Array.length_toList])]

end Arena

/-! ### Walks -/

/-- A walk over the nodes of an arena: the nodes it has visited, the last one
first, and those it has still to visit. -/
structure Walk where
  visited : List Nat
  pending : List Nat

namespace Walk

variable {nodes : Listing} {w w' : Walk}

/-- Before the first node. -/
def start (root : Nat) : Walk := ⟨[], [root]⟩

/-- One of the pending nodes is visited, and some of its operands become
pending. -/
inductive Step (nodes : Listing) : Walk → Walk → Prop
  | visit {visited before behind more : List Nat} {i : Nat}
      (hmore : more.Subperm (nodes.operandsOf i)) :
      Step nodes ⟨visited, before ++ i :: behind⟩ ⟨i :: visited, before ++ more ++ behind⟩

/-- No node has been met twice, and each but the root is an operand of one that
has been visited. -/
structure Sound (nodes : Listing) (w : Walk) : Prop where
  once : (w.visited ++ w.pending).Nodup
  within : ∀ i ∈ w.visited ++ w.pending, i < nodes.size
  reached : ∀ k ∈ w.visited ++ w.pending,
    k = nodes.last ∨ ∃ i ∈ w.visited, k ∈ nodes.operandsOf i

theorem sound_start (h : 0 < nodes.size) : (start nodes.last).Sound nodes where
  once := List.nodup_singleton _
  within i hi := by
    obtain rfl := List.mem_singleton.mp hi
    rw [Listing.last]
    omega
  reached k hk := .inl (List.mem_singleton.mp hk)

/-- A step moves a node and adds operands that have not been met before. -/
theorem Sound.step (hforest : nodes.IsForest) (h : w.Sound nodes) (hstep : Step nodes w w') :
    w'.Sound nodes := by
  cases hstep with
  | @visit visited before behind more i hmore =>
    have hmoved : (i :: visited ++ (before ++ more ++ behind)).Perm
        (visited ++ (before ++ i :: behind) ++ more) := by
      refine List.perm_iff_count.mpr fun k => ?_
      simp only [List.cons_append, List.count_cons, List.count_append]
      omega
    have hi : i ∈ visited ++ (before ++ i :: behind) := by simp
    have hnew : ∀ k ∈ more, k ∉ visited ++ (before ++ i :: behind) := by
      intro k hk hmet
      have hk := hmore.subset hk
      have hlt := hforest.earlier i k hk
      rcases h.reached k hmet with rfl | ⟨j, hj, hkj⟩
      · have hbound := h.within i hi
        rw [Listing.last] at hlt
        omega
      · -- The node that it has been met as an operand of has been visited.
        obtain rfl := hforest.apart i j k hk hkj
        exact (List.nodup_append.mp h.once).2.2 i hj i (by simp) rfl
    refine ⟨hmoved.nodup_iff.mpr (List.nodup_append.mpr ⟨h.once, ?_, ?_⟩), fun k hk => ?_,
      fun k hk => ?_⟩
    · obtain ⟨some, hperm, hsublist⟩ := hmore
      exact hperm.nodup_iff.mp (hsublist.nodup (hforest.once i))
    · rintro k hk _ hk' rfl
      exact hnew k hk' hk
    · rcases List.mem_append.mp (hmoved.mem_iff.mp hk) with hk | hk
      · exact h.within k hk
      · exact Nat.lt_trans (hforest.earlier i k (hmore.subset hk)) (h.within i hi)
    · rcases List.mem_append.mp (hmoved.mem_iff.mp hk) with hk | hk
      · rcases h.reached k hk with hroot | ⟨j, hj, hkj⟩
        · exact .inl hroot
        · exact .inr ⟨j, List.mem_cons_of_mem _ hj, hkj⟩
      · exact .inr ⟨i, List.mem_cons_self, hmore.subset hk⟩

/-- **A walk from the root meets no node twice.** -/
theorem sound (hforest : nodes.IsForest) (hsize : 0 < nodes.size)
    (h : Relation.ReflTransGen (Step nodes) (start nodes.last) w) : w.Sound nodes := by
  induction h with
  | refl => exact sound_start hsize
  | tail _ hstep ih => exact ih.step hforest hstep

/-- Sound walks visit no more nodes than there are. -/
theorem Sound.length_le (h : w.Sound nodes) : w.visited.length ≤ nodes.size := by
  have hsubset : w.visited ⊆ List.range nodes.size := fun i hi =>
    List.mem_range.mpr (h.within i (List.mem_append_left _ hi))
  have hlength := ((List.nodup_append.mp h.once).1.subperm hsubset).length_le
  rwa [List.length_range] at hlength

theorem Step.length_visited (h : Step nodes w w') : w'.visited.length = w.visited.length + 1 := by
  cases h
  rfl

theorem length_visited_run {run : Nat → Walk} {root : Nat} (h : run 0 = start root)
    (hstep : ∀ n, Step nodes (run n) (run (n + 1))) (n : Nat) :
    Relation.ReflTransGen (Step nodes) (start root) (run n) ∧ (run n).visited.length = n := by
  induction n with
  | zero =>
    rw [h]
    exact ⟨.refl, rfl⟩
  | succ n ih =>
    exact ⟨ih.1.tail (hstep n), (hstep n).length_visited.trans (congrArg (· + 1) ih.2)⟩

end Walk

/-- A walk from a root comes to no node twice, and ends. -/
structure Listing.WalksEnd (nodes : Listing) (root : Nat) : Prop where
  once : ∀ w, Relation.ReflTransGen (Walk.Step nodes) (.start root) w →
    w.visited.Nodup ∧ ∀ i ∈ w.visited, i < nodes.size
  ends : ∀ run : Nat → Walk, run 0 = .start root → ∃ n, ¬Walk.Step nodes (run n) (run (n + 1))

theorem Listing.IsForest.walksEnd {nodes : Listing} (h : nodes.IsForest) (hsize : 0 < nodes.size) :
    nodes.WalksEnd nodes.last where
  once w hw :=
    have hsound := Walk.sound h hsize hw
    ⟨(List.nodup_append.mp hsound.once).1,
      fun i hi => hsound.within i (List.mem_append_left _ hi)⟩
  ends run hstart := by
    by_contra hnone
    have hstep (n : Nat) : Walk.Step nodes (run n) (run (n + 1)) :=
      not_not.mp (not_exists.mp hnone n)
    -- One step more than there are nodes.
    obtain ⟨hwalk, hlength⟩ := Walk.length_visited_run hstart hstep (nodes.size + 1)
    have hle := (Walk.sound h hsize hwalk).length_le
    omega

/-! ### The arena of a text -/

theorem Body.listing_size_pos (body : Body) : 0 < body.listing.size := by
  cases body with
  | expression e =>
    have hsize := e.size_listing #[]
    have hpos := e.size_pos
    exact (by omega : 0 < (e.listing #[]).size)
  | template segments _ => exact Array.size_push _ ▸ Nat.succ_pos _

/-- **The arena of a text is a forest in the order in which it is swept.**  It is
what is listed of the text; its root is the last node.  When the sweep reaches a
node, it has recorded of every operand what the arena holds of it in the end.
Numbers of 32 bits make no difference to a text that they can count three times. -/
theorem Arena.isForest_parse (text : String) :
    let arena := parse id text
    (arena.nodes = (TargetView.parse text).listing ∧
        arena.found = (TargetView.parse text).diagnostics ∧
        (3 * (text.utf8ByteSize + 1) < UInt32.size → parse recorded text = arena)) ∧
      arena.nodes.IsForest ∧ arena.result + 1 = arena.nodes.size ∧
      (∀ i, ∀ k ∈ arena.nodes.operandsOf i,
        let swept := (sweep ((raw id text).nodes.take i)).1
        k < swept.size ∧ swept.node k = arena.nodes.node k) ∧
      arena.nodes.WalksEnd arena.result := by
  have hparse := parse_eq id text fun _ _ => rfl
  have hforest := (TargetView.parse text).body.isForest_listing
  have hpos := (TargetView.parse text).body.listing_size_pos
  have hsweep : (sweep (raw id text).nodes).1 = (TargetView.parse text).listing :=
    congrArg Outcome.nodes hparse
  dsimp only
  rw [hparse]
  refine ⟨⟨rfl, rfl, fun hbytes => (parse_recorded hbytes).trans hparse⟩, hforest,
    Nat.sub_add_cancel hpos, fun i k hk => ?_, hforest.walksEnd hpos⟩
  have hlt := hforest.earlier i k hk
  obtain ⟨n, hn, -⟩ := Listing.exists_of_mem_operandsOf hk
  have hi : i < (TargetView.parse text).listing.size := (List.getElem?_eq_some_iff.mp hn).1
  have hsize := size_sweep (raw id text).nodes
  rw [hsweep] at hsize
  refine ⟨?_, hsweep ▸ node_sweep_take _ hlt (by omega)⟩
  rw [size_sweep, Array.take_eq_extract, Array.size_extract]
  omega

/-- Two expressions share one arena; the name before the point stays alone. -/
theorem Arena.isForest_parse_format :
    3 * ("%d[f(a.)] %x[b ? 1]".utf8ByteSize + 1) < UInt32.size ∧
      (parse recorded "%d[f(a.)] %x[b ? 1]").nodes.IsForest :=
  have hbytes : 3 * ("%d[f(a.)] %x[b ? 1]".utf8ByteSize + 1) < UInt32.size := by decide
  have harena := isForest_parse "%d[f(a.)] %x[b ? 1]"
  ⟨hbytes, (harena.1.2.2 hbytes).symm ▸ harena.2.1⟩

end TargetView
