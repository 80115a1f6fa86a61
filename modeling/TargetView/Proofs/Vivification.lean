import Mathlib.Algebra.Group.Int.Defs
import TargetView.Proofs.Chains

/-! # Auto-vivification

A name that is bound to no container is assigned a constant behind some keys.
Then there is one new container for each key, holding the next one at its key,
and the last one holding the constant; the name is bound to the first of them
(`Store.vivified`).

Place by place the resolution of the target makes the next container
(`Store.Resolves`), and no write fails unless an index is out of range.  Reading
the keys afterwards goes along the same containers (`Store.run_read_of_prefix`),
as long as the name still leads to the first of them: the active container must
be none that is made only here, with a member of the name.
-/
namespace TargetView

/-! ## Containers made for keys -/

/-- An index can be written in an array that is made for it; every name can be
written in an object. -/
def Key.InRange : Key → Prop
  | name _ => True
  | index i => 0 ≤ i.toInt ∧ i.toInt < 2 ^ 20

instance : DecidablePred Key.InRange
  | .name _ => inferInstanceAs (Decidable True)
  | .index _ => inferInstanceAs (Decidable (_ ∧ _))

namespace Container

variable {key : Key} {v w : Value} {slot : Slot}

theorem accepts_emptyFor : (emptyFor key).accepts key = true ↔ key.InRange := by
  cases key with
  | name s => exact iff_of_true rfl trivial
  | index i =>
    change (0 ≤ i.toInt && i.toInt < maxLength : Bool) = true ↔ _
    rw [Bool.and_eq_true_iff, decide_eq_true_iff, decide_eq_true_iff]
    rfl

theorem get?_emptyFor (key : Key) : (emptyFor key).get? key = none := by
  cases key with
  | name s => exact Std.ExtTreeMap.getElem?_empty
  | index i =>
    change (if 0 ≤ i.toInt then (#[] : Array Value)[i.toInt.toNat]? else none) = none
    rw [Array.getElem?_empty, ite_self]

/-- A new container holds at its key what has been written there. -/
theorem get?_set_emptyFor (h : key.InRange) : ((emptyFor key).set key v).get? key = some v := by
  cases key with
  | name s => exact Std.ExtTreeMap.getElem?_insert_self
  | index i =>
    change (if 0 ≤ i.toInt then (setItem #[] i.toInt.toNat v)[i.toInt.toNat]? else none) = _
    rw [if_pos h.1, getElem?_setItem, if_pos rfl]

/-- It has no other member. -/
theorem member_set_emptyFor {name : String}
    (h : ((emptyFor key).set key v).at? (.member name) = some w) : key = .name name := by
  cases key with
  | index i => cases h
  | name s =>
    change ((∅ : Fields).insert s v)[name]? = some w at h
    rw [Std.ExtTreeMap.getElem?_insert] at h
    split at h
    · next heq => rw [Std.LawfulEqCmp.compare_eq_iff_eq.mp heq]
    · rw [Std.ExtTreeMap.getElem?_empty] at h
      cases h

theorem isArray_set_emptyFor (key : Key) (v : Value) :
    ((emptyFor key).set key v).isArray = key.isIndex := by
  rw [isArray_set]
  cases key <;> rfl

end Container

namespace Store

variable {s t : Store} {scope : Option Ref} {x : String} {key : Key} {keys : List Key} {v : Value}
  {more : List Container}

/-! ## Chains of new containers -/

/-- What the place before the `i`-th of `n` new containers holds: this container,
and behind the last one the value. -/
def linkTo (first n : Nat) (v : Value) (i : Nat) : Value :=
  if i < n then .container (first + i) else v

/-- The containers that are made for some keys, each of them with the next one at
its key, and the last one with the value. -/
def chainOf (first : Ref) (keys : List Key) (v : Value) : List Container :=
  keys.mapIdx fun i key => (Container.emptyFor key).set key (linkTo first keys.length v (i + 1))

/-- The store in which a name leads to a value by way of new containers. -/
def vivified (s : Store) (scope : Option Ref) (x : String) (keys : List Key) (v : Value) : Store :=
  (s.writeSymbol scope x (linkTo s.containers.size keys.length v 0)).append
    (chainOf s.containers.size keys v)

theorem vivified_nil (s : Store) (scope : Option Ref) (x : String) (v : Value) :
    s.vivified scope x [] v = s.writeSymbol scope x v :=
  append_nil _

theorem length_chainOf (first : Ref) (keys : List Key) (v : Value) :
    (chainOf first keys v).length = keys.length :=
  List.length_mapIdx

theorem size_vivified (s : Store) (scope : Option Ref) (x : String) (keys : List Key) (v : Value) :
    (s.vivified scope x keys v).containers.size = s.containers.size + keys.length := by
  rw [vivified, size_append, size_writeSymbol, length_chainOf]

/-- One more key. -/
theorem vivified_concat (s : Store) (scope : Option Ref) (x : String) (keys : List Key) (key : Key)
    (v : Value) :
    s.vivified scope x (keys ++ [key]) v =
      (s.vivified scope x keys (.container (s.containers.size + keys.length))).append
        [(Container.emptyFor key).set key v] := by
  -- the last place, which held the value, holds the container that is added
  have hlink {i : Nat} (hi : i ≤ keys.length) :
      linkTo s.containers.size (keys.length + 1) v i =
        linkTo s.containers.size keys.length (.container (s.containers.size + keys.length)) i := by
    unfold linkTo
    rw [if_pos (Nat.lt_succ_of_le hi)]
    split
    · rfl
    · rw [Nat.le_antisymm hi (by omega)]
  have hchain : chainOf s.containers.size (keys ++ [key]) v =
      chainOf s.containers.size keys (.container (s.containers.size + keys.length)) ++
        [(Container.emptyFor key).set key v] := by
    unfold chainOf
    rw [List.mapIdx_concat, List.length_append, List.length_singleton]
    have hlast : linkTo s.containers.size (keys.length + 1) v (keys.length + 1) = v :=
      if_neg (Nat.lt_irrefl _)
    rw [hlast, List.mapIdx_eq_mapIdx_iff.mpr fun i hi => ?_]
    rw [hlink hi]
  rw [vivified, vivified, append_append, hchain, List.length_append, List.length_singleton,
    hlink (Nat.zero_le _)]

/-! ## Resolving a chain -/

/-- Where the resolution of a chain leads to that finds no container: to the
name, or to the last key in a new container, which is empty so far. -/
inductive Resolves (s : Store) (scope : Option Ref) (x : String) : List Key → Place → Store → Prop
  | name : Resolves s scope x [] (.symbol x) s
  | key (keys : List Key) (key : Key) (u : Store)
    (hu : u = s.vivified scope x keys (.container (s.containers.size + keys.length)))
    (hsize : u.containers.size = s.containers.size + keys.length) :
    Resolves s scope x (keys ++ [key]) (.key u.containers.size key) (u.append [.emptyFor key])

variable {place : Place}

theorem Resolves.size (h : Resolves s scope x keys place t) :
    t.containers.size = s.containers.size + keys.length := by
  cases h with
  | name => rfl
  | key keys key u _ hsize =>
    rw [size_append, hsize, List.length_append, List.length_singleton, List.length_singleton,
      Nat.add_assoc]

/-- The place of a resolved chain holds no container. -/
theorem Resolves.not_held (h : Resolves s scope x keys place t)
    (hx : ∀ ref, s.readSymbol scope x ≠ some (.container ref)) (ref : Ref) :
    t.heldAt? scope place ≠ some (.container ref) := by
  cases h with
  | name => exact hx ref
  | key keys key u =>
    rw [heldAt?, readKey, getElem?_append_size, Option.bind_some, Container.get?_emptyFor]
    exact (Option.some_ne_none _).symm

/-- The new container for a key takes it unless it is out of range. -/
theorem acceptsKey_append (u : Store) (key : Key) (more : List Container) :
    (u.append (.emptyFor key :: more)).acceptsKey u.containers.size key = true ↔ key.InRange := by
  rw [acceptsKey, getElem?_append_size]
  exact Container.accepts_emptyFor

/-- A write at the place of a resolved chain, when there are more containers
that are empty. -/
theorem Resolves.run_writePlace (h : Resolves s scope x keys place t)
    (hlast : ∀ key ∈ keys.getLast?, key.InRange) (more : List Container)
    (hmore : ∀ c ∈ more, ∀ slot, c.at? slot = none) (v : Value) :
    (Host.ofStore.writePlace scope place v).run.run (t.append more) =
      (.ok (), (s.vivified scope x keys v).append more) := by
  cases h with
  | name =>
    rw [run_writePlace_symbol, writeSymbol_append (fun c hc => hmore c hc _), vivified_nil]
  | key keys key u hu hsize =>
    have haccepts := (u.acceptsKey_append key more).mpr (hlast key List.getLast?_concat)
    rw [append_append, List.singleton_append, run_writePlace_key, if_pos haccepts, modify_append,
      vivified_concat, ← hu, append_append, List.singleton_append]

/-- No value is written at an index that is out of range. -/
theorem Resolves.run_writePlace_rejected (h : Resolves s scope x keys place t)
    (hlast : ¬∀ key ∈ keys.getLast?, key.InRange) (more : List Container) (v : Value) :
    ∃ fault, (Host.ofStore.writePlace scope place v).run.run (t.append more) =
      (.error fault, t.append more) := by
  cases h with
  | name => exact absurd nofun hlast
  | key keys key u hu hsize =>
    simp only [List.getLast?_concat, Option.mem_some_iff, forall_eq'] at hlast
    have hrejects := mt (u.acceptsKey_append key more).mp hlast
    refine ⟨.writeRejected key.display, ?_⟩
    rw [append_append, List.singleton_append, run_writePlace_key, if_neg hrejects]

/-- The next container is made at the place of a resolved chain. -/
theorem Resolves.run_containerAt (h : Resolves s scope x keys place t)
    (hx : ∀ ref, s.readSymbol scope x ≠ some (.container ref))
    (hlast : ∀ key ∈ keys.getLast?, key.InRange) (key : Key) :
    ∃ ref u, (Host.ofStore.containerAt scope place key).run.run t = (.ok ref, u) ∧
      Resolves s scope x (keys ++ [key]) (.key ref key) u := by
  have hsize := size_vivified s scope x keys (.container (s.containers.size + keys.length))
  have hkey : s.Resolves scope x (keys ++ [key]) _ _ := .key keys key _ rfl hsize
  rw [hsize] at hkey
  have hempty : ∀ c ∈ [Container.emptyFor key], ∀ slot, c.at? slot = none := by
    intro c hc slot
    rw [List.mem_singleton.mp hc, Container.at?_emptyFor]
  rw [run_containerAt_of_not_held (h.not_held hx),
    run_bind_of_ok (h.run_writePlace hlast _ hempty _), h.size]
  exact ⟨_, _, rfl, hkey⟩

theorem Resolves.run_containerAt_rejected (h : Resolves s scope x keys place t)
    (hx : ∀ ref, s.readSymbol scope x ≠ some (.container ref))
    (hlast : ¬∀ key ∈ keys.getLast?, key.InRange) (key : Key) :
    ∃ fault u, (Host.ofStore.containerAt scope place key).run.run t = (.error fault, u) := by
  obtain ⟨fault, hwrite⟩ := h.run_writePlace_rejected hlast [.emptyFor key]
    (.container t.containers.size)
  rw [run_containerAt_of_not_held (h.not_held hx), run_bind_of_error hwrite]
  exact ⟨_, _, rfl⟩

theorem forall_mem_iff_dropLast {p : Key → Prop} (keys : List Key) :
    (∀ key ∈ keys, p key) ↔ (∀ key ∈ keys.dropLast, p key) ∧ ∀ key ∈ keys.getLast?, p key := by
  rcases List.eq_nil_or_concat keys with rfl | ⟨rest, last, rfl⟩
  · exact iff_of_true nofun ⟨nofun, nofun⟩
  · rw [List.concat_eq_append, List.forall_mem_append, List.dropLast_concat, List.getLast?_concat,
      List.forall_mem_singleton]
    simp only [Option.mem_some_iff, forall_eq']

section Chains

open TargetView.Expr Evaluation

variable {e : Expr} (hpath : isPath x = false)
  (hx : ∀ ref, s.readSymbol scope x ≠ some (.container ref))
include hpath hx

/-- The place of a chain, if all keys but the last one are in range. -/
theorem resolves_of_chain (hchain : Chain x e keys) (hrange : ∀ key ∈ keys.dropLast, key.InRange) :
    ∃ place t, (placeWith Host.ofStore scope Expr.pureConstant? e).run.run s = (.ok place, t) ∧
      Resolves s scope x keys place t := by
  induction hchain with
  | name span =>
    refine ⟨.symbol x, s, ?_, .name⟩
    rw [placeWith, hpath]
    rfl
  | key hbase hselects ih =>
    rw [List.dropLast_concat, forall_mem_iff_dropLast] at hrange
    obtain ⟨place, t, hplace, hresolves⟩ := ih hrange.1
    obtain ⟨ref, u, hcontainer, hresolves⟩ := hresolves.run_containerAt hx hrange.2 _
    refine ⟨_, u, ?_, hresolves⟩
    rw [place_of_selects _ _ hselects, run_bind_of_ok hplace, run_bind_of_ok hcontainer]
    rfl

/-- There is none if a key before the last one is out of range. -/
theorem rejects_of_chain (hchain : Chain x e keys) (hrange : ¬∀ key ∈ keys.dropLast, key.InRange) :
    ∃ fault t, (placeWith Host.ofStore scope Expr.pureConstant? e).run.run s =
      (.error fault, t) := by
  induction hchain with
  | name span => exact absurd nofun hrange
  | @key e base keys key hbase hselects ih =>
    rw [List.dropLast_concat] at hrange
    rw [place_of_selects _ _ hselects]
    by_cases hfront : ∀ key ∈ keys.dropLast, key.InRange
    · have hlast : ¬∀ key ∈ keys.getLast?, key.InRange :=
        fun hlast => hrange ((forall_mem_iff_dropLast keys).mpr ⟨hfront, hlast⟩)
      obtain ⟨place, t, hplace, hresolves⟩ := resolves_of_chain hpath hx hbase hfront
      obtain ⟨fault, u, hcontainer⟩ := hresolves.run_containerAt_rejected hx hlast key
      rw [run_bind_of_ok hplace, run_bind_of_error hcontainer]
      exact ⟨_, _, rfl⟩
    · obtain ⟨fault, t, hplace⟩ := ih hfront
      rw [run_bind_of_error hplace]
      exact ⟨_, _, rfl⟩

/-- An assignment to a chain makes the containers on the way. -/
theorem run_assign_of_chain {p : Parsed} {target value : Expr} {span : Span} {c : Scalar}
    (hp : p.body = .expression (.assign .assign target value span))
    (hchain : Chain x target keys) (hvalue : value.pureConstant? = some c)
    (hrange : ∀ key ∈ keys, key.InRange) :
    (run Host.ofStore scope p).run.run s =
      (.ok (.scalar c), s.vivified scope x keys (.scalar c)) := by
  rw [forall_mem_iff_dropLast] at hrange
  obtain ⟨place, t, hplace, hresolves⟩ := resolves_of_chain hpath hx hchain hrange.1
  have hwrite := hresolves.run_writePlace hrange.2 [] nofun (.scalar c)
  rw [append_nil, append_nil] at hwrite
  rw [run_assign_constant _ _ hp hvalue, run_bind_of_ok hplace, run_bind_of_ok hwrite]
  rfl

/-- It fails if a key is out of range. -/
theorem run_assign_of_chain_rejected {p : Parsed} {target value : Expr} {span : Span} {c : Scalar}
    (hp : p.body = .expression (.assign .assign target value span))
    (hchain : Chain x target keys) (hvalue : value.pureConstant? = some c)
    (hrange : ¬∀ key ∈ keys, key.InRange) :
    ∃ fault t, (run Host.ofStore scope p).run.run s = (.error fault, t) := by
  rw [run_assign_constant _ _ hp hvalue]
  -- a key before the last one stops the resolution, the last one only the write
  by_cases hfront : ∀ key ∈ keys.dropLast, key.InRange
  · have hlast : ¬∀ key ∈ keys.getLast?, key.InRange :=
      fun hlast => hrange ((forall_mem_iff_dropLast keys).mpr ⟨hfront, hlast⟩)
    obtain ⟨place, t, hplace, hresolves⟩ := resolves_of_chain hpath hx hchain hfront
    obtain ⟨fault, hwrite⟩ := hresolves.run_writePlace_rejected hlast [] (.scalar c)
    rw [append_nil] at hwrite
    rw [run_bind_of_ok hplace, run_bind_of_error hwrite]
    exact ⟨_, _, rfl⟩
  · obtain ⟨fault, t, hplace⟩ := rejects_of_chain hpath hx hchain hfront
    rw [run_bind_of_error hplace]
    exact ⟨_, _, rfl⟩

end Chains

/-! ## Reading a chain back -/

section Reading

theorem getElem?_vivified {i : Nat} (hi : i < keys.length) :
    (s.vivified scope x keys v).containers[s.containers.size + i]? =
      some ((Container.emptyFor keys[i]).set keys[i]
        (linkTo s.containers.size keys.length v (i + 1))) := by
  have happend := getElem?_append_add
    (s.writeSymbol scope x (linkTo s.containers.size keys.length v 0))
    (chainOf s.containers.size keys v) i
  rw [size_writeSymbol] at happend
  rw [vivified, happend, chainOf, List.getElem?_mapIdx, List.getElem?_eq_getElem hi]
  rfl

theorem isArray_vivified {i : Nat} (hi : i < keys.length) :
    (s.vivified scope x keys v).isArray (s.containers.size + i) = keys[i].isIndex := by
  rw [isArray, getElem?_vivified hi]
  exact Container.isArray_set_emptyFor _ _

theorem keptBut_vivified (s : Store) (scope : Option Ref) (x : String) (keys : List Key)
    (v : Value) : KeptBut (some (s.cellOf scope x)) s (s.vivified scope x keys v) :=
  (keptBut_writeSymbol s scope x _).trans (keptBut_append _ _).of_none

variable (hscope : ∀ i (hi : i < keys.length), keys[i] = .name x →
  scope ≠ some (s.containers.size + i))
include hscope

/-- The new containers have no say in what the name is, unless one of them, made
for this name as a key, is the active one. -/
theorem shadows_vivified :
    (s.vivified scope x keys v).Shadows scope x ↔ s.Shadows scope x := by
  refine (shadows_append fun i c w hactive hc hw => ?_).trans (shadows_writeSymbol s scope x _)
  rw [size_writeSymbol] at hactive
  rw [chainOf, List.getElem?_mapIdx] at hc
  obtain ⟨key, hkey, rfl⟩ := Option.map_eq_some_iff.mp hc
  obtain ⟨hi, rfl⟩ := List.getElem?_eq_some_iff.mp hkey
  exact hscope i hi (Container.member_set_emptyFor hw) hactive

theorem readSymbol_vivified :
    (s.vivified scope x keys v).readSymbol scope x =
      some (linkTo s.containers.size keys.length v 0) := by
  rw [readSymbol_eq_at?, cellOf_congr (shadows_vivified hscope)]
  exact keptBut_append _ _ _ _ (at?_writeSymbol_self s scope x _) nofun

omit hscope in
theorem readKey_vivified {i : Nat} (hi : i < keys.length) (hrange : keys[i].InRange) :
    (s.vivified scope x keys v).readKey (s.containers.size + i) keys[i] =
      some (linkTo s.containers.size keys.length v (i + 1)) := by
  rw [readKey, getElem?_vivified hi]
  exact Container.get?_set_emptyFor hrange

open TargetView.Expr Evaluation

variable (hpath : isPath x = false) (hrange : ∀ key ∈ keys, key.InRange)
include hpath hrange

/-- Reading the front of the chain gives what its last place holds. -/
theorem run_read_of_prefix {e : Expr} {front : List Key} (hchain : Chain x e front)
    (hfront : front <+: keys) :
    (eval Host.ofStore scope e).run.run (s.vivified scope x keys v) =
      (.ok (linkTo s.containers.size keys.length v front.length), s.vivified scope x keys v) := by
  induction hchain with
  | name span => exact run_readName hpath (readSymbol_vivified hscope)
  | @key e base front key hbase hselects ih =>
    have hlt : front.length < keys.length := by
      have := hfront.length_le
      rw [List.length_append, List.length_singleton] at this
      exact this
    have hkey : keys[front.length] = key :=
      (hfront.getElem (List.length_append ▸ Nat.lt_succ_self _)).symm.trans
        (List.getElem_concat_length rfl _)
    have hbase := ih ((List.prefix_append front [key]).trans hfront)
    rw [linkTo, if_pos hlt] at hbase
    have hread : (s.vivified scope x keys v).readKey _ keys[front.length] = _ :=
      readKey_vivified hlt (hrange _ (List.getElem_mem hlt))
    rw [hkey] at hread
    rw [eval_of_selects _ _ hselects, run_bind_of_ok hbase, run_readMember, hread,
      List.length_append, List.length_singleton]
    rfl

end Reading

end Store

open TargetView.Expr in
/-- **Auto-vivification works at any depth.**  A name that is bound to no
container, as the active one has it, is assigned a constant behind some keys.
This succeeds if and only if all indices among the keys are in range.  The value
is then the constant; for each key there is one new container, an array if and
only if the key is an index; and what stood in other cells than that of the name
is still there.  Reading the same keys gives the constant and changes nothing,
unless the number of the active container is, before it exists, that of a
container which is made for the name itself as a key. -/
theorem assignments_vivify (s : Store) (scope : Option Ref) {x : String}
    (hpath : isPath x = false) (hx : ∀ ref, s.readSymbol scope x ≠ some (.container ref))
    {keys : List Key} {target value : Expr} {span : Span} {c : Scalar} {p : Parsed}
    (htarget : Chain x target keys) (hvalue : value.pureConstant? = some c)
    (hp : p.body = .expression (.assign .assign target value span)) :
    let outcome := (Evaluation.run Host.ofStore scope p).run.run s
    ((∃ v, outcome.1 = .ok v) ↔ ∀ key ∈ keys, key.InRange) ∧
    ∀ v, outcome.1 = .ok v →
      v = .scalar c ∧
      outcome.2.containers.size = s.containers.size + keys.length ∧
      (∀ i (hi : i < keys.length),
        outcome.2.isArray (s.containers.size + i) = keys[i].isIndex) ∧
      Store.KeptBut (some (s.cellOf scope x)) s outcome.2 ∧
      ((∀ i (hi : i < keys.length), keys[i] = .name x → scope ≠ some (s.containers.size + i)) →
        ∀ (target' : Expr) (q : Parsed), Chain x target' keys → q.body = .expression target' →
          (Evaluation.run Host.ofStore scope q).run.run outcome.2 =
            (.ok (.scalar c), outcome.2)) := by
  intro outcome
  by_cases hrange : ∀ key ∈ keys, key.InRange
  · have hrun : outcome = (.ok (.scalar c), s.vivified scope x keys (.scalar c)) :=
      Store.run_assign_of_chain hpath hx hp htarget hvalue hrange
    rw [hrun]
    refine ⟨iff_of_true ⟨_, rfl⟩ hrange, ?_⟩
    rintro _ ⟨⟩
    refine ⟨rfl, Store.size_vivified .., fun i hi => Store.isArray_vivified hi,
      Store.keptBut_vivified _ _ _ _ _, fun hscope target' q htarget' hq => ?_⟩
    have hread := Store.run_read_of_prefix hscope hpath hrange htarget' (List.prefix_refl keys)
      (v := .scalar c)
    rw [Store.linkTo, if_neg (Nat.lt_irrefl _)] at hread
    rw [Evaluation.run_of_pureConstant?_eq_none _ _ hq htarget'.pureConstant?]
    exact hread
  · obtain ⟨fault, t, hrun⟩ := Store.run_assign_of_chain_rejected hpath hx hp htarget hvalue hrange
    have hrun : outcome = (.error fault, t) := hrun
    rw [hrun]
    exact ⟨iff_of_false nofun hrange, nofun⟩

/-- A member of a name that is not bound becomes an array of three elements. -/
theorem assignments_vivify_element :
    let target : Expr :=
      .index (.member (.ident "x" .none) "a" .none) (.number (.int 2) .none) .none
    let assignment : Parsed :=
      ⟨"x.a[2] = 7", .expression (.assign .assign target (.number (.int 7) .none) .none), []⟩
    let outcome := (Evaluation.run Host.ofStore none assignment).run.run {}
    outcome.1 = .ok (.int 7) ∧ outcome.2.containers.size = 2 ∧
      outcome.2.isArray 0 = false ∧ outcome.2.isArray 1 = true ∧
      (Evaluation.run Host.ofStore none ⟨"x.a[2]", .expression target, []⟩).run.run outcome.2 =
        (.ok (.int 7), outcome.2) := by
  intro target assignment outcome
  have htarget : Expr.Chain "x" target ([] ++ [.name "a"] ++ [.index 2]) :=
    .key (.key (.name _) (.member _ _ _)) (.index _ (c := .int 2) rfl _)
  obtain ⟨hsucceeds, houtcome⟩ := assignments_vivify {} none (x := "x") (by decide) nofun htarget
    (c := .int 7) rfl (p := assignment) rfl
  obtain ⟨v, hv⟩ := hsucceeds.mpr (by decide)
  obtain ⟨rfl, hsize, hkinds, -, hread⟩ := houtcome v hv
  exact ⟨hv, hsize, hkinds 0 (by decide), hkinds 1 (by decide),
    hread nofun target ⟨"x.a[2]", .expression target, []⟩ htarget rfl⟩

/-- The value is not read back under an active container that does not exist
before the assignment makes it, with a member of the name. -/
theorem assignment_not_read_back :
    let s : Store := {}
    let assigned := (Evaluation.run Host.ofStore (some 0) (parse "x.x = 1")).run.run s
    let read := (Evaluation.run Host.ofStore (some 0) (parse "x.x")).run.run assigned.2
    s.readSymbol (some 0) "x" = none ∧ assigned.1.toOption = some (.number 1) ∧
      read.1.toOption = some .undefined := by
  refine ⟨by decide, by decide +kernel, by decide +kernel⟩

end TargetView
