import TargetView.Proofs.Shapes
import TargetView.Proofs.Snapshot

/-! # Lines, not declarations, decide the order

Two descriptions that differ only in the order of the declarations have the same
tree but for the numbers of the nodes, if lines decide the order.  The numbers
are the keys under which things are kept from pass to pass, so two views of such
trees keep the same under different keys (`Memo.Renamed`).  As the numbers
correspond one to one, no pass can tell them apart, however many have been run
before it (`line_order_decides`).
-/
namespace TargetView

/-! ## Renaming -/

/-- The numbers that stand at the same place of two lists. -/
def Renames (l l' : List Nat) (id id' : Nat) : Prop := (id, id') ∈ l.zip l'

/-- Numbers that do not occur twice correspond one to one. -/
theorem Renames.eq_iff {l l' : List Nat} (hl : l.Nodup) (hl' : l'.Nodup) {i i' j j' : Nat}
    (hi : Renames l l' i i') (hj : Renames l l' j j') : i = j ↔ i' = j' := by
  obtain ⟨p, hp, hip⟩ := List.mem_iff_getElem.mp hi
  obtain ⟨q, hq, hjq⟩ := List.mem_iff_getElem.mp hj
  rw [List.getElem_zip] at hip hjq
  cases hip
  cases hjq
  exact (List.getElem_inj hl).trans (List.getElem_inj hl').symm

/-- The same is kept from pass to pass, under keys that correspond. -/
structure Memo.Renamed (ids : Nat → Nat → Prop) (memo memo' : Memo) : Prop where
  done : ∀ {id id'}, ids id id' → memo.done.contains id = memo'.done.contains id'
  results : ∀ {id id'}, ids id id' → memo.results[id]? = memo'.results[id']?

theorem Memo.renamed_empty (ids : Nat → Nat → Prop) : Memo.Renamed ids {} {} :=
  ⟨fun _ => by simp, fun _ => by simp⟩

/-- What a pass keeps is renamed with the rest, if the keys correspond one to
one. -/
theorem Memo.renamed_steps {ids : Nat → Nat → Prop}
    (hids : ∀ {i i' j j'}, ids i i' → ids j j' → (i = j ↔ i' = j')) :
    Pass.MemoSteps (Memo.Renamed ids) ids := by
  have hcompare {i i' j j' : Nat} (hi : ids i i') (hj : ids j j') :
      compare i j = .eq ↔ compare i' j' = .eq := by
    rw [Nat.compare_eq_eq, Nat.compare_eq_eq]
    exact hids hi hj
  refine ⟨fun h hid => h.done hid, ?_, ?_, ?_⟩
  · intro memo memo' id id' h hid
    refine ⟨fun {i i'} hi => ?_, h.results⟩
    have hkey : (compare id i == .eq) = (compare id' i' == .eq) := by
      rw [Bool.eq_iff_iff, beq_iff_eq, beq_iff_eq]
      exact hcompare hid hi
    rw [Std.ExtTreeSet.contains_insert, Std.ExtTreeSet.contains_insert, h.done hi, hkey]
  · intro memo memo' id id' h hid
    refine ⟨h.done, fun {i i'} hi => ?_⟩
    rw [Std.ExtTreeMap.getElem?_erase, Std.ExtTreeMap.getElem?_erase, h.results hi]
    simp only [hcompare hid hi]
  · intro memo memo' id id' results h hid
    refine ⟨h.done, fun {i i'} hi => ?_⟩
    rw [Std.ExtTreeMap.getElem?_insert, Std.ExtTreeMap.getElem?_insert, h.results hi]
    simp only [hcompare hid hi]

/-! ## Trees that are the same up to numbers -/

namespace StatementTree

/-- The numbers of the nodes of a tree. -/
def ids (t : StatementTree) : List Nat := t.root?.elim [] (·.ids)

theorem nodup_ids_ofDeclaration (d : Declaration) : (ofDeclaration d).ids.Nodup := by
  rw [ids, ofDeclaration]
  cases h : StatementNode.ofDeclaration 0 d with
  | none => exact .nil
  | some built => exact StatementNode.nodup_ids_ofDeclaration h

theorem alike_of_unnumbered_eq {t t' : StatementTree} (h : t.unnumbered = t'.unnumbered)
    (extra : StatementNode → Prop) : t.Alike (Renames t.ids t'.ids) extra t' := by
  obtain ⟨root?⟩ := t
  obtain ⟨root'?⟩ := t'
  have hroot : root?.map (·.unnumbered) = root'?.map (·.unnumbered) := StatementTree.mk.inj h
  cases root? with
  | none =>
    obtain rfl : root'? = none := Option.map_eq_none_iff.mp hroot.symm
    exact .none
  | some n =>
    obtain ⟨n', rfl, hn⟩ := Option.map_eq_some_iff.mp hroot.symm
    exact .some (StatementNode.alike_of_unnumbered_eq n n' hn.symm fun _ hp => hp)

end StatementTree

/-! ## Passes -/

variable {τ : Type}

/-- The link between passes over trees with other numbers. -/
def Pass.renamedLink (ids : Nat → Nat → Prop) : Pass.Link τ τ where
  machines := Eq
  memos := Memo.Renamed ids
  breaks := Eq
  ids := ids

/-- Two views are the same but for the numbers of their nodes, of which none
occurs twice in a tree. -/
structure View.Renamed (v v' : View) : Prop where
  tree : v.tree.unnumbered = v'.tree.unnumbered
  nodup : v.tree.ids.Nodup
  nodup' : v'.tree.ids.Nodup
  memo : Memo.Renamed (Renames v.tree.ids v'.tree.ids) v.memo v'.memo

/-- One pass does not tell renamed views apart, and leaves them so. -/
theorem View.Renamed.execute {v v' : View} (h : v.Renamed v') (setting : Setting τ)
    (machine : Machine τ) :
    (v.execute setting machine).1 = (v'.execute setting machine).1 ∧
      (v.execute setting machine).2.2 = (v'.execute setting machine).2.2 ∧
      (v.execute setting machine).2.1.Renamed (v'.execute setting machine).2.1 := by
  have hsound : (Pass.renamedLink (Renames v.tree.ids v'.tree.ids)).Sound setting setting :=
    { toMachineSteps := .refl setting
      toMemoSteps := Memo.renamed_steps (Renames.eq_iff h.nodup h.nodup')
      reach := fun line hb => congrArg (line :: ·) hb }
  have hconcluded := Pass.execute_concluded (m := machine) hsound
    (StatementTree.alike_of_unnumbered_eq h.tree _) h.memo rfl rfl
  exact ⟨hconcluded.outcome.eq_of_reverse, hconcluded.machine, h.tree, h.nodup, h.nodup',
    hconcluded.memo⟩

/-- A view and a machine after some passes, one after the other. -/
def View.after (setting : Setting τ) : Nat → View → Machine τ → View × Machine τ
  | 0, view, machine => (view, machine)
  | n + 1, view, machine =>
    let (view, machine) := after setting n view machine
    (view.execute setting machine).2

/-- Any number of passes leave renamed views renamed, and the machine in the
same state. -/
theorem View.Renamed.after {v v' : View} (h : v.Renamed v') (setting : Setting τ)
    (machine : Machine τ) (n : Nat) :
    (v.after setting n machine).1.Renamed (v'.after setting n machine).1 ∧
      (v.after setting n machine).2 = (v'.after setting n machine).2 := by
  induction n with
  | zero => exact ⟨h, rfl⟩
  | succ n ih =>
    obtain ⟨hview, hmachine⟩ := ih
    rw [View.after, View.after]
    rcases hv : v.after setting n machine with ⟨w, m⟩
    rcases hv' : v'.after setting n machine with ⟨w', m'⟩
    rw [hv, hv'] at hview hmachine
    obtain rfl : m = m' := hmachine
    obtain ⟨-, hm, hw⟩ := hview.execute setting m
    exact ⟨hw, hm⟩

/-- **Lines, not declarations, decide the order.**  Two descriptions differ only
in the order of the declarations, at any levels, and no two statements side by
side have the same line.  Then they have the same tree but for numbers, and in
any number of passes over them from the same machine the reports, the machines
and what happens between pass and target are the same. -/
theorem line_order_decides (t : Target τ) (config : Config) (formatter : Formatter)
    {d d' : Declaration} (hpermuted : d.Permuted d') (hlines : d.DistinctLines)
    (machine : Machine τ) (n : Nat) :
    let setting : Setting τ := { target := t, config, formatter }
    let (view, m) := View.after setting n ⟨.ofDeclaration d, {}⟩ machine
    let (view', m') := View.after setting n ⟨.ofDeclaration d', {}⟩ machine
    (StatementTree.ofDeclaration d).unnumbered = (StatementTree.ofDeclaration d').unnumbered ∧
      m = m' ∧
      (view.execute setting m).1 = (view'.execute setting m').1 ∧
      view.events t config formatter m = view'.events t config formatter m' := by
  intro setting
  have htree := StatementTree.unnumbered_ofDeclaration_of_permuted hpermuted hlines
  have hstart : (View.mk (.ofDeclaration d) {}).Renamed ⟨.ofDeclaration d', {}⟩ :=
    ⟨htree, StatementTree.nodup_ids_ofDeclaration d, StatementTree.nodup_ids_ofDeclaration d',
      Memo.renamed_empty _⟩
  obtain ⟨hview, hmachine⟩ := hstart.after setting machine n
  generalize View.after setting n ⟨.ofDeclaration d, {}⟩ machine = after at hview hmachine ⊢
  generalize View.after setting n ⟨.ofDeclaration d', {}⟩ machine = after' at hview hmachine ⊢
  obtain ⟨view, m⟩ := after
  obtain ⟨view', m'⟩ := after'
  obtain rfl : m = m' := hmachine
  refine ⟨htree, rfl, (hview.execute setting m).1, ?_⟩
  have hrecorded := (hview.execute (.recorded t config formatter) m.recorded).2.1
  exact congrArg (fun m => m.target.events) hrecorded

/-- A variable stands behind the row that shows it, but its line comes first. -/
theorem line_order_decides_variable :
    let t : Target Unit :=
      { read := fun _ _ => pure none
        setVariable := fun _ _ _ => pure ()
        clearVariables := pure ()
        readRegister := fun _ => pure none
        writeRegister := fun _ _ => pure false }
    let row : Declaration := { tag := "item", line := 3, attributes := [("value", "%d[x]")] }
    let var : Declaration :=
      { tag := "var", line := 2, attributes := [("name", "x"), ("value", "7")] }
    let d : Declaration := { tag := "object", line := 1, children := [row, var] }
    let d' : Declaration := { tag := "object", line := 1, children := [var, row] }
    d.Permuted d' ∧ d.DistinctLines ∧
      ((View.mk (.ofDeclaration d) {}).execute { target := t } { target := () }).1 =
        ((View.mk (.ofDeclaration d') {}).execute { target := t } { target := () }).1 := by
  intro t row var d d'
  have hleaf {e : Declaration} (he : e.children = []) : e.Permuted e := by
    obtain ⟨tag, line, attributes, text, children⟩ := e
    obtain rfl : children = [] := he
    exact .node (.refl []) .nil
  have hpermuted : d.Permuted d' :=
    .node (List.Perm.swap _ _ []) (.cons (hleaf rfl) (.cons (hleaf rfl) .nil))
  have hlines : d.DistinctLines := by
    refine ⟨by decide, ⟨.nil, trivial⟩, ⟨.nil, trivial⟩, trivial⟩
  exact ⟨hpermuted, hlines,
    (line_order_decides t {} (fun _ _ => none) hpermuted hlines { target := () } 0).2.2.1⟩

end TargetView
