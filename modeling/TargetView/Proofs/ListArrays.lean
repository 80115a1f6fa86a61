import TargetView.Proofs.DoneReads
import TargetView.Proofs.ListElements

/-! # Lists that are read again and again

The visits of a pass leave the store as they find it, apart from zeros for names
without a value and from the arrays that list reads fill (`StoreTrail`).  The same
holds of many passes, one after the other, on whatever machines
(`View.visitsOver`), since each begins with the store that the last one has left.

So a view that shows lists and has no formulas that write (`StatementTree.showsLists`)
makes no more containers than its list reads have names, and each name keeps the
array that it gets first, with the elements that have been read last
(`list_arrays_are_reused`).
-/
namespace TargetView

open Contract

variable {τ α : Type}

/-! ## Trails of stores -/

namespace Visit

/-- A visit of a list read whose name is among some names, or of another statement
that shows lists. -/
structure ShowsLists (v : Visit τ) (names : List String) : Prop where
  plain : v.setting.IsPlain
  shows : v.statement.showsLists = true
  named : ∀ name ∈ v.statement.listName?, name ∈ names

end Visit

/-- The store of each visit is what the one before has left, or drifted from it. -/
def StoreTrail : Store → List (Visit τ) → Store → Prop
  | s, [], t => s.Drifts t
  | s, v :: rest, t => s.Drifts v.store ∧ StoreTrail v.storeAfter rest t

/-- What has been read last into the array of a name. -/
def lastRead (visits : List (Visit τ)) : String → Option (Array Value) :=
  visits.foldl (fun last v => Store.afterFill last v.filled?) fun _ => none

theorem lastRead_concat (visits : List (Visit τ)) (v : Visit τ) :
    lastRead (visits ++ [v]) = Store.afterFill (lastRead visits) v.filled? :=
  List.foldl_concat ..

namespace StoreTrail

variable {s t u : Store} {v : Visit τ} {visits before after : List (Visit τ)} {names : List String}
  {last : String → Option (Array Value)}

theorem of_drifts (h : s.Drifts t) (ht : StoreTrail t visits u) : StoreTrail s visits u := by
  cases visits with
  | nil => exact Store.Drifts.trans h ht
  | cons v rest => exact ⟨h.trans ht.1, ht.2⟩

theorem append_iff :
    StoreTrail s (before ++ after) u ↔ ∃ t, StoreTrail s before t ∧ StoreTrail t after u := by
  induction before generalizing s with
  | nil => exact ⟨fun h => ⟨s, .refl s, h⟩, fun ⟨_, hst, ht⟩ => of_drifts hst ht⟩
  | cons v before ih =>
    rw [List.cons_append, StoreTrail, ih]
    constructor
    · rintro ⟨hv, t, hbefore, hafter⟩
      exact ⟨t, ⟨hv, hbefore⟩, hafter⟩
    · rintro ⟨t, ⟨hv, hbefore⟩, hafter⟩
      exact ⟨hv, t, hbefore, hafter⟩

theorem drifts (h : StoreTrail s visits t) (ht : t.Drifts u) : StoreTrail s visits u := by
  have := append_iff.mpr ⟨t, h, show StoreTrail t [] u from ht⟩
  rwa [List.append_nil] at this

/-- One visit fills the array of one name at most. -/
theorem namedArrays_visit (hv : v.ShowsLists names) (h : v.store.NamedArrays names last) :
    v.storeAfter.NamedArrays names (Store.afterFill last v.filled?) ∧
      v.store.Anchors v.storeAfter := by
  obtain ⟨s, hdrifts, hafter⟩ := Visit.exists_drifts_storeAfter hv.plain hv.shows
  have hmem : ∀ filled ∈ v.filled?, filled.1 ∈ names := by
    intro filled hfilled
    obtain ⟨name, hname, hitems⟩ := Option.bind_eq_some_iff.mp hfilled
    obtain ⟨items, -, hpair⟩ := Option.bind_eq_some_iff.mp hitems
    obtain rfl := Option.some.inj hpair
    exact hv.named name hname
  rw [hafter]
  obtain ⟨hfilled, hanchors⟩ := (h.of_drifts hdrifts).fill hmem
  exact ⟨hfilled, hdrifts.anchors.trans hanchors⟩

/-- **The visits of a trail keep the arrays with their names.** -/
theorem namedArrays (h : StoreTrail s visits t) (hvisits : ∀ v ∈ visits, v.ShowsLists names)
    (hs : s.NamedArrays names last) :
    t.NamedArrays names (visits.foldl (fun last v => Store.afterFill last v.filled?) last) ∧
      s.Anchors t := by
  induction visits generalizing s last with
  | nil => exact ⟨hs.of_drifts h, Store.Drifts.anchors h⟩
  | cons v rest ih =>
    obtain ⟨hv, hrest⟩ := List.forall_mem_cons.mp hvisits
    obtain ⟨hafter, hanchors⟩ := namedArrays_visit hv (hs.of_drifts h.1)
    obtain ⟨ht, hanchors'⟩ := ih h.2 hrest hafter
    exact ⟨ht, h.1.anchors.trans (hanchors.trans hanchors')⟩

end StoreTrail

/-! ## Trees that show lists -/

/-- Whether the node is a group, a row, a list read or a breakpoint, with formulas that
only look. -/
def StatementNode.showsLists (n : StatementNode) : Bool :=
  n.condition?.all (·.onlyLooks) && n.statement.showsLists

namespace StatementTree

/-- Whether all nodes of the tree do so. -/
def showsLists (t : StatementTree) : Bool := t.preorder.all (·.showsLists)

/-- The names of the list reads in the tree, without empty ones. -/
def listNames (t : StatementTree) : List String := t.preorder.filterMap (·.statement.listName?)

end StatementTree

namespace Watched

/-- The visits so far lead from a store to the present one, and they show lists. -/
def filling (s : Store) (names : List String) : Contract Abort (PassState (Watched τ)) where
  Holds w := StoreTrail s w.visits.reverse w.machine.store ∧ ∀ v ∈ w.visits, v.ShowsLists names
  Excuses _ _ := True

variable {S : Setting τ} {s : Store} {names : List String}

/-- What lets the store drift keeps the trail. -/
theorem filling_of_drifting {x : Pass (Watched τ) α} {y : Pass τ α} (hx : still.Allows x)
    (hxy : coupling.Couples x y) (hy : Pass.drifting.Allows y) : (filling s names).Allows x := by
  intro w ⟨htrail, hvisited⟩
  obtain ⟨-, ⟨hvisits, -⟩, hends⟩ := hx w trivial
  obtain ⟨-, hdrifts, -⟩ := hy w.unwatched trivial
  rw [run_unwatched hxy w] at hdrifts
  refine ⟨?_, trivial, hends⟩
  show StoreTrail s (x.run.run w).2.visits.reverse (x.run.run w).2.machine.store ∧
    ∀ v ∈ (x.run.run w).2.visits, v.ShowsLists names
  rw [hvisits]
  exact ⟨htrail.drifts hdrifts, hvisited⟩

theorem filling_value? (hS : S.IsPlain) {f? : Option Formula}
    (hf : f?.all (·.onlyLooks) = true) :
    ∀ f ∈ f?, (filling s names).Allows (Pass.value? S.watched f) := by
  intro f hmem
  exact filling_of_drifting ((handles_still S).value? f) (Pass.couples_value? (link_sound S) f)
    (Pass.drifting_values? hS hf f hmem)

theorem filling_label? (hS : S.IsPlain) {f? : Option Formula}
    (hf : f?.all (·.onlyLooksAsLabel) = true) :
    ∀ f ∈ f?, (filling s names).Allows (Pass.label? S.watched f) := by
  rintro f rfl
  refine .label? fun htemplate => ?_
  have hlooks : (some f).all (·.onlyLooks) = true := by
    rwa [Option.all_some, Formula.onlyLooksAsLabel, htemplate] at hf
  exact filling_value? hS hlooks f rfl

/-- A visit and its attempt make the trail longer. -/
theorem filling_visit (id : Nat) {statement : Statement} (hS : S.IsPlain)
    (hshows : statement.showsLists = true) (hnamed : ∀ name ∈ statement.listName?, name ∈ names) :
    (filling s names).Allows (do
      Pass.notice S id statement
      Pass.attempt S.watched id statement) := by
  intro w ⟨htrail, hvisited⟩
  obtain ⟨reads, -, w', hrun, hvisits, heffect⟩ := run_visit S id statement w
  refine ⟨?_, trivial, ends_of_forall (fun _ => trivial) fun _ => trivial⟩
  rw [hrun]
  have hstore : w'.machine.store = _ := congrArg (·.machine.store) heffect
  refine ⟨?_, ?_⟩
  · rw [hvisits, hstore, List.reverse_cons]
    exact StoreTrail.append_iff.mpr ⟨w.machine.store, htrail, .refl _, .refl _⟩
  · rw [hvisits]
    exact List.forall_mem_cons.mpr ⟨⟨hS, hshows, hnamed⟩, hvisited⟩

/-- What a statement does besides keeps the trail, if what is below it does. -/
theorem filling_effect (hS : S.IsPlain) (id line : Nat) {statement : Statement}
    (hshows : statement.showsLists = true) (hsource : statement.source? = none)
    {below : Pass (Watched τ) (List Row)} (hbelow : (filling s names).Allows below) :
    (filling s names).Allows (Pass.effect S.watched id line statement below) := by
  cases statement with
  | group g =>
    refine Allows.bind (.onFormula fun f hf => ?_) fun _ => hbelow.map _
    exact (filling_value? hS hshows f hf).text?
  | row r =>
    obtain ⟨hproperty, hvalue⟩ := Bool.and_eq_true_iff.mp hshows
    exact Allows.bind (.onFormula (filling_label? hS hproperty)) fun _ =>
      Allows.bind (.onFormula (filling_label? hS hvalue)) fun _ => hbelow.map _
  | breakpoint => exact Allows.bind (fun _ hw => ⟨hw, trivial, trivial⟩) fun _ => hbelow
  | read | readList => cases hsource
  | var | «calc» | list => cases hshows

/-- A node makes the trail longer. -/
theorem obeys_filling (hS : S.IsPlain) {n : StatementNode} (hn : n.showsLists = true)
    (hnamed : ∀ name ∈ n.statement.listName?, name ∈ names) : Obeys S (filling s names) n := by
  obtain ⟨hcondition, hshows⟩ := Bool.and_eq_true_iff.mp hn
  exact ⟨fun w => Pass.keeps_checkCancelled fun _ => trivial,
    .condition (filling_value? hS hcondition), filling_visit n.id hS hshows hnamed,
    fun hsource below => filling_effect hS n.id n.line hshows hsource⟩

end Watched

/-! ## Passes -/

/-- The visits of a pass lead from the store before it to the store after it. -/
theorem View.storeTrail_visits {S : Setting τ} (hS : S.IsPlain) {view : View}
    (hview : view.tree.showsLists = true) (m : Machine τ) :
    StoreTrail m.store (view.visits S m) (view.execute S m).2.2.store ∧
      ∀ v ∈ view.visits S m, v.ShowsLists view.tree.listNames := by
  have hallows : (Watched.filling m.store view.tree.listNames).Allows
      (Pass.watchTree S view.tree) :=
    Watched.allows_watchTree S view.tree fun n hn =>
      Watched.obeys_filling hS (List.all_eq_true.mp hview n hn) fun name hname =>
        List.mem_filterMap.mpr ⟨n, hn, hname⟩
  have hstart : (Watched.filling m.store view.tree.listNames).Holds
      ((view.start S m).watched []) := ⟨.refl m.store, fun v hv => by cases hv⟩
  obtain ⟨⟨htrail, hshows⟩, -⟩ := hallows _ hstart
  have hstore : (view.execute S m).2.2.store =
      ((Pass.runTree S view.tree).run.run (view.start S m)).2.machine.store := rfl
  rw [hstore, view.run_watchTree S m]
  exact ⟨htrail, fun v hv => hshows v (List.mem_reverse.mp hv)⟩

/-- What a pass finds, apart from the store that the last one has left. -/
structure Occasion (τ : Type) where
  target : Target τ
  state : τ
  config : Config := {}
  formatter : Formatter := fun _ _ => none
  registers : RegisterCache := {}

namespace Occasion

def setting (o : Occasion τ) : Setting τ :=
  { target := o.target, config := o.config, formatter := o.formatter }

def machine (o : Occasion τ) (store : Store) : Machine τ := ⟨store, o.state, o.registers⟩

theorem isPlain_setting (o : Occasion τ) : o.setting.IsPlain := rfl

end Occasion

namespace View

/-- The visits of some passes, one after the other, from a store on. -/
def visitsOver (view : View) (store : Store) : List (Occasion τ) → List (Visit τ)
  | [] => []
  | o :: rest =>
    let next := (view.execute o.setting (o.machine store)).2
    view.visits o.setting (o.machine store) ++ next.1.visitsOver next.2.store rest

/-- The store that the passes leave. -/
def storeOver (view : View) (store : Store) : List (Occasion τ) → Store
  | [] => store
  | o :: rest =>
    let next := (view.execute o.setting (o.machine store)).2
    next.1.storeOver next.2.store rest

/-- The visits of all passes make one trail. -/
theorem storeTrail_visitsOver (view : View) (hview : view.tree.showsLists = true) (store : Store)
    (occasions : List (Occasion τ)) :
    StoreTrail store (view.visitsOver store occasions) (view.storeOver store occasions) ∧
      ∀ v ∈ view.visitsOver store occasions, v.ShowsLists view.tree.listNames := by
  induction occasions generalizing view store with
  | nil => exact ⟨.refl store, fun v hv => by cases hv⟩
  | cons o rest ih =>
    have htree := view.tree_execute o.setting (o.machine store)
    obtain ⟨hfirst, hfirst'⟩ := storeTrail_visits o.isPlain_setting hview (o.machine store)
    obtain ⟨hrest, hrest'⟩ := ih (view.execute o.setting (o.machine store)).2.1 (htree ▸ hview)
      (view.execute o.setting (o.machine store)).2.2.store
    rw [htree] at hrest'
    exact ⟨StoreTrail.append_iff.mpr ⟨_, hfirst, hrest⟩,
      List.forall_mem_append.mpr ⟨hfirst', hrest'⟩⟩

end View

/-! ## The arrays of lists -/

/-- The containers of a store are arrays for some names at most, and exactly the names
that have been read are bound to what has been read last. -/
structure Store.HoldsLists (s : Store) (names : List String)
    (last : String → Option (Array Value)) : Prop where
  size_le : s.containers.size ≤ names.dedup.length
  isArray : ∀ name ref, s.get? name = some (.container ref) → s.isArray ref = true
  bindsArray_iff : ∀ name items, s.BindsArray name items ↔ last name = some items

theorem Store.NamedArrays.holdsLists {s : Store} {names : List String}
    {last : String → Option (Array Value)} (h : s.NamedArrays names last) :
    s.HoldsLists names last :=
  ⟨h.size_le, fun _ _ => h.isArray, h.bindsArray_iff⟩

/-- What a list read gets is what has been read last into the array of its name. -/
theorem lastRead_of_items? {v : Visit τ} {name : String} (hname : v.statement.listName? = some name)
    {items : Array Value} (hitems : v.items? = some items) (before : List (Visit τ)) :
    lastRead (before ++ [v]) name = some items := by
  have hfilled : v.filled? = some (name, items) := by
    rw [Visit.filled?, hname, hitems]
    rfl
  rw [lastRead_concat, hfilled]
  exact Function.update_self ..

/-- **List reads keep their arrays.**  Some passes over a view that shows lists begin with
an empty store, on whatever targets, and some of them may end early.  Before and after
each statement that takes effect, and at the end, there are no more containers than
list reads have names, and exactly the names that have been read are bound to arrays,
with the elements that have been read last.  Whoever is bound to an array stays bound
to it.  A list read that succeeds binds its name to the elements that it gets. -/
theorem list_arrays_are_reused (view : View) (hview : view.tree.showsLists = true)
    (occasions : List (Occasion τ)) :
    let names := view.tree.listNames
    let visits := view.visitsOver {} occasions
    let final := view.storeOver {} occasions
    final.HoldsLists names (lastRead visits) ∧
    ∀ before v after, visits = before ++ v :: after →
      v.store.HoldsLists names (lastRead before) ∧
      v.storeAfter.HoldsLists names (lastRead (before ++ [v])) ∧
      (¬v.IsIdle → v.Fetches → ∀ name ∈ v.statement.listName?,
        ∃ items, v.items? = some items ∧ v.storeAfter.BindsArray name items) ∧
      v.store.Anchors v.storeAfter ∧ (∀ u ∈ after, v.storeAfter.Anchors u.store) ∧
      v.storeAfter.Anchors final := by
  intro names visits final
  obtain ⟨htrail, hshows⟩ : StoreTrail {} visits final ∧ ∀ v ∈ visits, v.ShowsLists names :=
    view.storeTrail_visitsOver hview {} occasions
  refine ⟨(htrail.namedArrays hshows (Store.namedArrays_empty _)).1.holdsLists, ?_⟩
  intro before v after h
  rw [h] at htrail hshows
  obtain ⟨hbefore', hrest'⟩ := List.forall_mem_append.mp hshows
  obtain ⟨hv', hafter'⟩ := List.forall_mem_cons.mp hrest'
  obtain ⟨s, hbefore, hv, hafter⟩ := StoreTrail.append_iff.mp htrail
  have hstore := (hbefore.drifts hv).namedArrays hbefore' (Store.namedArrays_empty _) |>.1
  obtain ⟨hstoreAfter, hanchors⟩ := StoreTrail.namedArrays_visit hv' hstore
  have hholds : v.storeAfter.HoldsLists names (lastRead (before ++ [v])) := by
    rw [lastRead_concat]
    exact hstoreAfter.holdsLists
  refine ⟨hstore.holdsLists, hholds, fun hidle hfetches name hname => ?_, hanchors,
    fun u hu => ?_, (hafter.namedArrays hafter' hstoreAfter).2⟩
  · obtain ⟨items, hitems⟩ := Visit.exists_items?_of_fetches hidle hfetches hname
    exact ⟨items, hitems, (hholds.bindsArray_iff name items).mpr
      (lastRead_of_items? hname hitems before)⟩
  · obtain ⟨xs, ys, rfl⟩ := List.append_of_mem hu
    obtain ⟨t, hxs, hu, -⟩ := StoreTrail.append_iff.mp hafter
    exact ((hxs.drifts hu).namedArrays (List.forall_mem_append.mp hafter').1 hstoreAfter).2

/-- Two elements are read in each of two passes, from memory that has changed.  In the
first pass a row has bound the name of the list to zero before. -/
theorem list_arrays_are_reused_two_passes :
    let t (byte : UInt8) : Target Unit :=
      { read := fun _ size => pure (some (List.replicate size byte))
        setVariable := fun _ _ _ => pure ()
        clearVariables := pure ()
        readRegister := fun _ => pure none
        writeRegister := fun _ _ => pure false }
    let list : Declaration :=
      { tag := "readlist"
        line := 3
        attributes := [("name", "xs"), ("type", "uint8_t"), ("count", "2")] }
    let row : Declaration :=
      { tag := "item", line := 2, attributes := [("property", "%d[xs]")], children := [list] }
    let d : Declaration := { tag := "object", line := 1, children := [row] }
    let view : View := ⟨.ofDeclaration d, {}⟩
    let occasions : List (Occasion Unit) :=
      [{ target := t 1, state := () }, { target := t 2, state := () }]
    let final := view.storeOver {} occasions
    view.tree.showsLists = true ∧ final.containers.size ≤ 1 ∧
      (∃ items, final.BindsArray "xs" items ∧
        items.toList.map (·.toInt?) = [some 2, some 2]) ∧
      ∃ v ∈ view.visitsOver {} occasions, ¬v.IsIdle ∧ v.Fetches ∧
        v.store.get? "xs" = some .zero ∧ v.storeAfter.Anchors final ∧
        ∃ items, v.items? = some items ∧ v.storeAfter.BindsArray "xs" items := by
  intro t list row d view occasions final
  have hview : view.tree.showsLists = true := by decide +kernel
  have hnames : view.tree.listNames = ["xs"] := by decide +kernel
  have hlast : (lastRead (view.visitsOver {} occasions) "xs").map
      (·.toList.map (·.toInt?)) = some [some 2, some 2] := by decide +kernel
  have hvisit : ∃ v ∈ view.visitsOver {} occasions, ¬v.IsIdle ∧ v.Fetches ∧
      v.store.get? "xs" = some .zero ∧ v.statement.listName? = some "xs" := by decide +kernel
  obtain ⟨hfinal, hvisits⟩ := list_arrays_are_reused view hview occasions
  have hsize := hfinal.size_le
  rw [hnames] at hsize
  obtain ⟨items, hitems, hvalues⟩ := Option.map_eq_some_iff.mp hlast
  obtain ⟨v, hv, hidle, hfetches, hzero, hname⟩ := hvisit
  obtain ⟨before, after, h⟩ := List.append_of_mem hv
  obtain ⟨-, -, hholds, -, -, hanchors⟩ := hvisits before v after h
  exact ⟨hview, hsize, ⟨items, (hfinal.bindsArray_iff "xs" items).mpr hitems, hvalues⟩,
    v, hv, hidle, hfetches, hzero, hanchors, hholds hidle hfetches "xs" hname⟩

end TargetView
