import TargetView.Proofs.Tables

/-! # What trees are built from

A declaration stands in a description within the declarations around it
(`Site`).  Those that are recognised together with all around them, as they
stand in the description, are its outline (`Declaration.outline`).

A built tree has one node for each of them.  Its nodes are numbered as the
outline is, and have as their parents the nodes of the declarations around them
(`BuiltFrom`).
-/
namespace TargetView

/-- A declaration with those around it, the innermost one first. -/
structure Site where
  declaration : Declaration
  around : List Declaration

namespace Site

/-- The declaration and those around it. -/
def path (p : Site) : List Declaration := p.declaration :: p.around

/-- Whether the declaration and all around it make statements. -/
def isRecognised (p : Site) : Bool := p.path.all (·.kind?.isSome)

end Site

namespace Declaration

mutual
/-- The sites of a declaration and of those below it, as they stand in the
description. -/
def sitesIn (around : List Declaration) : Declaration → List Site
  | ⟨tag, line, attributes, text, children⟩ =>
    let d : Declaration := ⟨tag, line, attributes, text, children⟩
    ⟨d, around⟩ :: sitesAll (d :: around) children

/-- The sites of some declarations and of those below them. -/
def sitesAll (around : List Declaration) : List Declaration → List Site
  | [] => []
  | d :: rest => d.sitesIn around ++ sitesAll around rest
end

/-- The recognised sites of a declaration and of those below it. -/
def recognisedIn (around : List Declaration) (d : Declaration) : List Site :=
  (d.sitesIn around).filter (·.isRecognised)

/-- The recognised sites of some declarations and of those below them. -/
def recognisedAll (around : List Declaration) (ds : List Declaration) : List Site :=
  (sitesAll around ds).filter (·.isRecognised)

/-- The sites of a description that are recognised. -/
def outline (d : Declaration) : List Site := d.recognisedIn []

variable {around : List Declaration} {d : Declaration}

theorem sitesIn_eq (around : List Declaration) (d : Declaration) :
    d.sitesIn around = ⟨d, around⟩ :: sitesAll (d :: around) d.children := by
  cases d
  rw [sitesIn]

mutual
theorem around_subset_sitesIn : ∀ (d : Declaration) (around : List Declaration),
    ∀ p ∈ d.sitesIn around, around ⊆ p.around
  | ⟨_, _, _, _, children⟩, around, p, hp => by
    rw [sitesIn] at hp
    rcases List.mem_cons.mp hp with rfl | hp
    · exact List.Subset.refl around
    · exact List.Subset.trans (List.subset_cons_self _ _) (around_subset_sitesAll children _ p hp)

theorem around_subset_sitesAll : ∀ (ds : List Declaration) (around : List Declaration),
    ∀ p ∈ sitesAll around ds, around ⊆ p.around
  | [], _, _, hp => by
    rw [sitesAll] at hp
    cases hp
  | d :: rest, around, p, hp => by
    rw [sitesAll] at hp
    rcases List.mem_append.mp hp with hp | hp
    · exact around_subset_sitesIn d around p hp
    · exact around_subset_sitesAll rest around p hp
end

theorem mem_path_of_mem_sitesIn {p : Site} (hp : p ∈ d.sitesIn around) : d ∈ p.path := by
  rw [sitesIn_eq] at hp
  rcases List.mem_cons.mp hp with rfl | hp
  · exact List.mem_cons_self
  · exact List.mem_cons_of_mem _ (around_subset_sitesAll _ _ p hp List.mem_cons_self)

/-- Nothing is recognised in a declaration that is not. -/
theorem recognisedIn_of_none (h : d.kind? = none) : d.recognisedIn around = [] := by
  refine List.filter_eq_nil_iff.mpr fun p hp hrecognised => ?_
  have hd := List.all_eq_true.mp hrecognised d (mem_path_of_mem_sitesIn hp)
  rw [h] at hd
  cases hd

theorem recognisedIn_of_some {kind : StatementKind} (haround : around.all (·.kind?.isSome) = true)
    (h : d.kind? = some kind) :
    d.recognisedIn around = ⟨d, around⟩ :: recognisedAll (d :: around) d.children := by
  have hhead : (Site.mk d around).isRecognised = true := by
    rw [Site.isRecognised, Site.path, List.all_cons, h, haround]
    rfl
  rw [recognisedIn, sitesIn_eq, List.filter_cons_of_pos hhead, recognisedAll]

theorem recognisedAll_cons (around : List Declaration) (d : Declaration)
    (rest : List Declaration) :
    recognisedAll around (d :: rest) = d.recognisedIn around ++ recognisedAll around rest := by
  rw [recognisedAll, sitesAll, List.filter_append]
  rfl

end Declaration

/-- The parent is the node of the innermost declaration around, if there is
one. -/
def ParentIn (sites : List Site) (parent? : Option Nat) (around : List Declaration) : Prop :=
  parent? = none ∧ around = [] ∨
    ∃ p site, parent? = some p ∧ sites[p]? = some site ∧ around = site.path

/-- The entry is that of the declaration which stands at its number among some
sites. -/
def Entry.StandsIn (sites : List Site) (e : Entry) : Prop :=
  ∃ site, sites[e.id]? = some site ∧ site.declaration.statement? = some e.statement ∧
    site.declaration.line = e.line ∧ site.declaration.formula? "cond" = e.condition? ∧
    ParentIn sites e.parent? site.around

theorem cons_prefix_drop {α : Type} {l m : List α} {x : α} {i : Nat} (h : x :: l <+: m.drop i) :
    m[i]? = some x ∧ l <+: m.drop (i + 1) := by
  obtain ⟨behind, hdrop⟩ := h
  refine ⟨?_, behind, ?_⟩
  · rw [← List.head?_drop, ← hdrop]
    rfl
  · rw [← List.tail_drop, ← hdrop]
    rfl

theorem append_prefix_drop {α : Type} {l l' m : List α} {i : Nat} (h : l ++ l' <+: m.drop i) :
    l <+: m.drop i ∧ l' <+: m.drop (i + l.length) := by
  obtain ⟨behind, hdrop⟩ := h
  rw [List.append_assoc] at hdrop
  refine ⟨⟨_, hdrop⟩, behind, ?_⟩
  rw [← List.drop_drop, ← hdrop, List.drop_left]

namespace StatementNode

open Declaration

variable {sites : List Site}

theorem ofDeclaration_of_none {d : Declaration} (next : Nat) (h : d.kind? = none) :
    ofDeclaration next d = none := by
  cases d
  rw [ofDeclaration]
  split
  · rfl
  · next hstatement =>
    obtain ⟨kind, hkind, -⟩ := Option.map_eq_some_iff.mp hstatement
    cases h.symm.trans hkind

theorem ofDeclaration_of_some {d : Declaration} (next : Nat) {kind : StatementKind}
    (h : d.kind? = some kind) :
    ofDeclaration next d =
      some (⟨next, d.statementOf kind, d.line, d.formula? "cond",
        sortByLine (ofDeclarations (next + 1) d.children).1⟩,
        (ofDeclarations (next + 1) d.children).2) := by
  obtain ⟨tag, line, attributes, text, children⟩ := d
  have hstatement : (Declaration.mk tag line attributes text []).statement? =
      some ((Declaration.mk tag line attributes text children).statementOf kind) := by
    refine (congrArg (Option.map _) h).trans (congrArg some ?_)
    cases kind <;> rfl
  rw [ofDeclaration, hstatement]
  rfl

mutual
/-- Numbers are given out to recognised declarations only. -/
theorem free_ofDeclaration : ∀ (d : Declaration) (next : Nat) {around : List Declaration},
    around.all (·.kind?.isSome) = true →
      (ofDeclaration next d).elim next (·.2) = next + (d.recognisedIn around).length
  | ⟨tag, line, attributes, text, children⟩, next, around, haround => by
    cases hkind : (Declaration.mk tag line attributes text children).kind? with
    | none =>
      rw [ofDeclaration_of_none next hkind, recognisedIn_of_none hkind]
      rfl
    | some kind =>
      have hpath : (Declaration.mk tag line attributes text children :: around).all
          (·.kind?.isSome) = true := by
        rw [List.all_cons, hkind, haround]
        rfl
      have hchildren := free_ofDeclarations children (next + 1) hpath
      rw [ofDeclaration_of_some next hkind, recognisedIn_of_some haround hkind]
      exact hchildren.trans (Nat.add_right_comm ..)

theorem free_ofDeclarations : ∀ (ds : List Declaration) (next : Nat) {around : List Declaration},
    around.all (·.kind?.isSome) = true →
      (ofDeclarations next ds).2 = next + (recognisedAll around ds).length
  | [], _, _, _ => by
    rw [ofDeclarations, recognisedAll, sitesAll]
    rfl
  | d :: rest, next, around, haround => by
    have hd := free_ofDeclaration d next haround
    rw [ofDeclarations, recognisedAll_cons, List.length_append, ← Nat.add_assoc, ← hd]
    split
    · next hnone =>
      rw [hnone]
      exact free_ofDeclarations rest next haround
    · next n free hsome =>
      rw [hsome]
      exact free_ofDeclarations rest free haround
end

mutual
/-- **Every node is that of the recognised declaration at its number.** -/
theorem standsIn_ofDeclaration : ∀ (d : Declaration) (next : Nat) {around : List Declaration}
    (parent? : Option Nat), around.all (·.kind?.isSome) = true → ParentIn sites parent? around →
      d.recognisedIn around <+: sites.drop next →
      ∀ r ∈ ofDeclaration next d, ∀ e ∈ r.1.entries parent?, e.StandsIn sites
  | ⟨tag, line, attributes, text, children⟩, next, around, parent?, haround, hparent, hsites,
      r, hr, e, he => by
    cases hkind : (Declaration.mk tag line attributes text children).kind? with
    | none =>
      rw [ofDeclaration_of_none next hkind] at hr
      cases hr
    | some kind =>
      have hpath : (Declaration.mk tag line attributes text children :: around).all
          (·.kind?.isSome) = true := by
        rw [List.all_cons, hkind, haround]
        rfl
      rw [recognisedIn_of_some haround hkind] at hsites
      obtain ⟨hhead, hbelow⟩ := cons_prefix_drop hsites
      rw [ofDeclaration_of_some next hkind] at hr
      obtain rfl := Option.some.inj hr
      rw [entries] at he
      rcases List.mem_cons.mp he with rfl | he
      · exact ⟨_, hhead, congrArg (Option.map _) hkind, rfl, rfl, hparent⟩
      · rw [entriesAll_eq, ((perm_sortByLine _).flatMap_right _).mem_iff, ← entriesAll_eq] at he
        exact standsIn_ofDeclarations children (next + 1) next hpath
          (.inr ⟨next, _, rfl, hhead, rfl⟩) hbelow e he

theorem standsIn_ofDeclarations : ∀ (ds : List Declaration) (next : Nat)
    {around : List Declaration} (parent : Nat), around.all (·.kind?.isSome) = true →
      ParentIn sites (some parent) around → recognisedAll around ds <+: sites.drop next →
      ∀ e ∈ entriesAll parent (ofDeclarations next ds).1, e.StandsIn sites
  | [], _, _, _, _, _, _, _, he => by
    rw [ofDeclarations, entriesAll] at he
    cases he
  | d :: rest, next, around, parent, haround, hparent, hsites, e, he => by
    rw [recognisedAll_cons] at hsites
    obtain ⟨hfirst, hrest⟩ := append_prefix_drop hsites
    have hfree := free_ofDeclaration d next haround
    rw [← hfree] at hrest
    rw [ofDeclarations] at he
    split at he
    · next hnone =>
      rw [hnone] at hrest
      exact standsIn_ofDeclarations rest next parent haround hparent hrest e he
    · next n free hsome =>
      rw [hsome] at hrest
      rw [entriesAll] at he
      rcases List.mem_append.mp he with he | he
      · exact standsIn_ofDeclaration d next (some parent) haround hparent hfirst _ hsome e he
      · exact standsIn_ofDeclarations rest free parent haround hparent hrest e he
end

end StatementNode

/-- The tree has a node for each recognised declaration, with what the declaration
says. -/
structure StatementTree.BuiltFrom (t : StatementTree) (d : Declaration) : Prop where
  size_eq : t.size = d.outline.length
  stands : ∀ e ∈ t.entries, e.StandsIn d.outline

/-- **A built tree consists of the recognised declarations.** -/
theorem StatementTree.builtFrom_ofDeclaration (d : Declaration) :
    (ofDeclaration d).BuiltFrom d := by
  have hnil : ([] : List Declaration).all (·.kind?.isSome) = true := rfl
  have hfree := StatementNode.free_ofDeclaration d 0 hnil
  rw [Nat.zero_add, ← Declaration.outline] at hfree
  rw [ofDeclaration]
  cases hbuilt : StatementNode.ofDeclaration 0 d with
  | none =>
    rw [hbuilt] at hfree
    rw [Option.map_none]
    refine ⟨hfree, fun e he => ?_⟩
    rw [entries_none] at he
    cases he
  | some r =>
    obtain ⟨n, free⟩ := r
    rw [hbuilt, Option.elim_some, (StatementNode.perm_ids_ofDeclaration hbuilt).1,
      Nat.zero_add] at hfree
    rw [Option.map_some]
    refine ⟨hfree, fun e he => ?_⟩
    rw [entries_some] at he
    exact StatementNode.standsIn_ofDeclaration d 0 none hnil (.inl ⟨rfl, rfl⟩)
      (List.prefix_refl _) _ hbuilt e he

end TargetView
