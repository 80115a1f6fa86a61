import TargetView.Proofs.Trees

/-! # Where a line leads

A node takes a line if it is no breakpoint and the line is among its lines
(`StatementNode.takes`).  A descent for a line goes from a node into the first
child that takes it, and ends where no child does.  The node there is the holder
of the line (`StatementNode.holder`).

The holder takes the line, unless the descent ends where it began.  It need not
be the deepest node that takes the line: the first of two children that take it
may have less below it than the second one, and a node that takes the line may
stand below one that does not.  If neither occurs (`StatementNode.Nests`), the
holder is the deepest one (`exists_standsAt_holder`).
-/
namespace TargetView
namespace StatementNode

/-- Induction from the children to their parent. -/
@[elab_as_elim]
theorem induction_children {motive : StatementNode → Prop}
    (parent : ∀ n : StatementNode, (∀ c ∈ n.children, motive c) → motive n) (n : StatementNode) :
    motive n :=
  parent n fun c _ => induction_children parent c
termination_by sizeOf n
decreasing_by
  next hc =>
    have hlt := List.sizeOf_lt_of_mem hc
    cases n
    simp only [mk.sizeOf_spec] at hlt ⊢
    omega

/-! ## Lines -/

theorem lastLineAll_le_iff {line k : Nat} {ns : List StatementNode} :
    lastLineAll line ns ≤ k ↔ line ≤ k ∧ ∀ n ∈ ns, n.lastLine ≤ k := by
  induction ns with
  | nil => simp [lastLineAll]
  | cons n ns ih =>
    rw [lastLineAll, Nat.max_le, ih, List.forall_mem_cons]
    exact and_left_comm

/-- The last line is the largest one from the node downwards. -/
theorem lastLine_le_iff {k : Nat} {n : StatementNode} :
    n.lastLine ≤ k ↔ n.line ≤ k ∧ ∀ c ∈ n.children, c.lastLine ≤ k := by
  cases n
  rw [lastLine, lastLineAll_le_iff]

/-- Whether the node is no breakpoint and has the line among its lines. -/
def takes (n : StatementNode) (line : Nat) : Bool := !n.isBreak && n.spans line

theorem takes_of_isBreak {n : StatementNode} (h : n.isBreak = true) (line : Nat) :
    n.takes line = false := by
  rw [takes, h]
  rfl

/-! ## Descents -/

mutual
/-- The node at which a descent for a line ends. -/
def holder (line : Nat) : StatementNode → StatementNode
  | ⟨id, statement, own, condition?, children⟩ =>
    (holderBelow line children).getD ⟨id, statement, own, condition?, children⟩

/-- The node at which a descent for a line ends, from the first of some nodes
that takes it. -/
def holderBelow (line : Nat) : List StatementNode → Option StatementNode
  | [] => none
  | n :: rest => if n.takes line then some (holder line n) else holderBelow line rest
end

variable {line : Nat} {n c m : StatementNode} {ns : List StatementNode}

theorem holderBelow_eq (line : Nat) (ns : List StatementNode) :
    holderBelow line ns = (ns.find? (·.takes line)).map (holder line) := by
  induction ns with
  | nil => rfl
  | cons n ns ih =>
    rw [holderBelow, List.find?_cons]
    cases n.takes line with
    | true => rfl
    | false => exact ih

theorem holder_eq (line : Nat) (n : StatementNode) :
    n.holder line = ((n.children.find? (·.takes line)).map (holder line)).getD n := by
  cases n
  rw [holder, holderBelow_eq]

/-- The descent ends where no child takes the line. -/
theorem holder_of_find?_eq_none (h : n.children.find? (·.takes line) = none) :
    n.holder line = n := by
  rw [holder_eq, h]
  rfl

/-- The descent goes into the first child that takes the line. -/
theorem holder_of_find?_eq_some (h : n.children.find? (·.takes line) = some c) :
    n.holder line = c.holder line := by
  rw [holder_eq, h]
  rfl

theorem takes_of_find?_eq_some (h : ns.find? (·.takes line) = some c) : c.takes line = true :=
  have htakes := List.find?_some h
  htakes

/-- Induction along the descent for a line: it ends where no child takes the line,
and otherwise goes into one that does. -/
@[elab_as_elim]
theorem holder_induction (line : Nat) {motive : StatementNode → Prop}
    (ends : ∀ n : StatementNode, (∀ c ∈ n.children, c.takes line = false) →
      n.holder line = n → motive n)
    (goes : ∀ n c : StatementNode, c ∈ n.children → c.takes line = true →
      n.holder line = c.holder line → motive c → motive n) (n : StatementNode) : motive n := by
  induction n using induction_children with
  | parent n ih =>
    cases h : n.children.find? (·.takes line) with
    | none =>
      have hnone : ∀ c ∈ n.children, c.takes line = false :=
        fun c hc => eq_false_of_ne_true (List.find?_eq_none.mp h c hc)
      exact ends n hnone (holder_of_find?_eq_none h)
    | some c =>
      have hc : c ∈ n.children := List.mem_of_find?_eq_some h
      exact goes n c hc (takes_of_find?_eq_some h) (holder_of_find?_eq_some h) (ih c hc)

/-- **No child of the holder takes the line.** -/
theorem not_takes_of_mem_holder (line : Nat) (n : StatementNode) :
    ∀ c ∈ (n.holder line).children, c.takes line = false := by
  induction n using holder_induction line with
  | ends n hnone heq =>
    rw [heq]
    exact hnone
  | goes n c hc htakes heq ih =>
    rw [heq]
    exact ih

/-- **The holder takes the line**, unless the descent ends where it began. -/
theorem takes_holder (line : Nat) (n : StatementNode) :
    n.holder line = n ∨ (n.holder line).takes line = true := by
  induction n using holder_induction line with
  | ends n hnone heq => exact .inl heq
  | goes n c hc htakes heq ih =>
    rw [heq]
    rcases ih with hsame | hholder
    · rw [hsame]
      exact .inr htakes
    · exact .inr hholder

/-! ## Depths -/

/-- The node stands below another one, so many levels deep. -/
inductive StandsAt (m : StatementNode) : StatementNode → Nat → Prop
  | here : StandsAt m m 0
  | deeper {n c : StatementNode} {depth : Nat} (hc : c ∈ n.children) (h : StandsAt m c depth) :
      StandsAt m n (depth + 1)

theorem mem_preorder_self (n : StatementNode) : n ∈ n.preorder := by
  cases n
  rw [preorder]
  exact List.mem_cons_self

theorem mem_preorder_of_mem_children (hc : c ∈ n.children) (hm : m ∈ c.preorder) :
    m ∈ n.preorder := by
  cases n
  rw [preorder, preorderAll_eq]
  exact List.mem_cons_of_mem _ (List.mem_flatMap.mpr ⟨c, hc, hm⟩)

theorem StandsAt.mem_preorder {depth : Nat} (h : m.StandsAt n depth) : m ∈ n.preorder := by
  induction h with
  | here => exact m.mem_preorder_self
  | deeper hc _ ih => exact mem_preorder_of_mem_children hc ih

/-- The lines of the nodes nest where a line is concerned: it is taken by no two
nodes side by side, and a node takes it if one below it does. -/
def Nests (line : Nat) (n : StatementNode) : Prop :=
  ∀ m ∈ n.preorder,
    (m.children.Pairwise fun a b => ¬(a.takes line = true ∧ b.takes line = true)) ∧
      ∀ c ∈ m.children, ∀ x ∈ c.preorder, x.takes line = true → c.takes line = true

instance (line : Nat) (n : StatementNode) : Decidable (n.Nests line) :=
  inferInstanceAs (Decidable (∀ m ∈ n.preorder, _ ∧ _))

theorem Nests.of_mem_children (h : n.Nests line) (hc : c ∈ n.children) : c.Nests line :=
  fun m hm => h m (mem_preorder_of_mem_children hc hm)

/-- Where the lines nest, what takes the line below a node stands in the child into
which the descent goes. -/
theorem Nests.find?_eq_some (h : n.Nests line) (hc : c ∈ n.children) (hm : m ∈ c.preorder)
    (htakes : m.takes line = true) : n.children.find? (·.takes line) = some c := by
  obtain ⟨hpairwise, hbelow⟩ := h n n.mem_preorder_self
  have hc' : c.takes line = true := hbelow c hc m hm htakes
  obtain ⟨front, behind, hsplit⟩ := List.append_of_mem hc
  rw [hsplit] at hpairwise ⊢
  obtain ⟨-, -, hfront⟩ := List.pairwise_append.mp hpairwise
  refine List.find?_eq_some_iff_append.mpr ⟨hc', front, behind, rfl, fun a ha => ?_⟩
  have hnot := hfront a ha c List.mem_cons_self
  simpa [hc'] using hnot

/-- **The holder is found by descending**, and where the lines nest no node that
takes the line is deeper. -/
theorem exists_standsAt_holder (line : Nat) (n : StatementNode) :
    ∃ depth, (n.holder line).StandsAt n depth ∧
      (n.Nests line → ∀ (m : StatementNode) (k : Nat), m.StandsAt n k → m.takes line = true →
        k ≤ depth ∧ (n.holder line).takes line = true) := by
  induction n using induction_children with
  | parent n ih =>
    cases h : n.children.find? (·.takes line) with
    | none =>
      rw [holder_of_find?_eq_none h]
      refine ⟨0, .here, fun hnests m k hm htakes => ?_⟩
      cases hm with
      | here => exact ⟨Nat.le_refl 0, htakes⟩
      | deeper hc hm =>
        have hfind := hnests.find?_eq_some hc hm.mem_preorder htakes
        rw [h] at hfind
        cases hfind
    | some c =>
      have hc : c ∈ n.children := List.mem_of_find?_eq_some h
      obtain ⟨depth, hstands, hdeepest⟩ := ih c hc
      rw [holder_of_find?_eq_some h]
      refine ⟨depth + 1, .deeper hc hstands, fun hnests m k hm htakes => ?_⟩
      cases hm with
      | here =>
        have htakes' := hdeepest (hnests.of_mem_children hc) c 0 .here
          (takes_of_find?_eq_some h)
        exact ⟨Nat.zero_le _, htakes'.2⟩
      | deeper hc' hm =>
        have hfind := hnests.find?_eq_some hc' hm.mem_preorder htakes
        obtain rfl := Option.some.inj (h.symm.trans hfind)
        obtain ⟨hle, htakes'⟩ := hdeepest (hnests.of_mem_children hc) m _ hm htakes
        exact ⟨Nat.succ_le_succ hle, htakes'⟩

end StatementNode
end TargetView
