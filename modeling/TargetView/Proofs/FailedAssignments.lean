import TargetView.Proofs.Chains
import TargetView.Proofs.Conduct

/-! # Failed assignments

An assignment finds its place first, and makes containers that are missing on the
way there; only then it evaluates its right-hand side and writes.  If it fails,
what has been made stays.  No more than one of the cells that were there has
changed by then (`Store.Disturbs`), because all other containers on the way are
made in new ones.

The resolution of a target goes along the containers of the store
(`Store.Reaches.old`) until it makes one; from there on it is in containers that
are new (`Store.Reaches.new`), which refer to each other only
(`Store.ClosedFrom`).  Expressions that only read keep every cell
(`Store.keeping`).
-/
namespace TargetView

open Contract

/-- The expression only reads: it contains no assignment, update or call. -/
def Expr.isReading : Expr → Bool
  | number .. | text .. | ident .. | malformed _ => true
  | member base _ _ | unnamed base _ | unary _ base _ => base.isReading
  | index base key _ => base.isReading && key.isReading
  | binary _ left right _ => left.isReading && right.isReading
  | conditional cond yes no _ => cond.isReading && yes.isReading && no.isReading
  | assign .. | update .. | call .. | intrinsic .. => false

namespace Store

variable {s t u : Store} {scope : Option Ref} {x : String} {key : Key} {keys : List Key} {v : Value}
  {place : Place} {ref : Ref} {d : Cell} {d? : Option Cell}

/-! ## Reading -/

/-- What is there stays. -/
def keeping : HostContract Store where
  Becomes := KeptBut none
  Excuses _ _ := True
  refl := .refl
  trans := .trans
  excuses_plain _ := trivial

theorem known_keeping (s : Store) (v : Value) : keeping.Known s v := fun _ _ => trivial

theorem keptBut_of_keeps {α : Type} {x : Eval Store α} {P : Store → α → Prop} {r : Except Fault α}
    (h : keeping.Keeps s x P) (hrun : x.run.run s = (r, t)) : KeptBut none s t := by
  have hkept : KeptBut none s (x.run.run s).2 := (h trivial).2.1
  rw [hrun] at hkept
  exact hkept

/-- A name that is not known is made, which changes no cell that was there. -/
theorem keptBut_writeSymbol_of_unknown (h : s.symbolExists scope x = false) (v : Value) :
    KeptBut none s (s.writeSymbol scope x v) := by
  have hnone : s.at? (s.cellOf scope x) = none := by
    rw [symbolExists_eq, Bool.or_eq_false_iff, Option.isSome_eq_false_iff,
      Option.isSome_eq_false_iff, Option.isNone_iff_eq_none, Option.isNone_iff_eq_none] at h
    rw [← readSymbol_eq_at?, readSymbol, h.1, h.2]
    rfl
  intro d w hw _
  refine keptBut_writeSymbol s scope x v d w hw ?_
  rintro ⟨⟩
  rw [hnone] at hw
  cases hw

/-- An operation that keeps what is there. -/
theorem keeps_ask {α : Type} {act : StateM Store α} (h : KeptBut none s (act.run s).2) :
    keeping.Keeps s (liftM act) fun _ _ => True :=
  keeps_lift fun _ => ⟨trivial, h, trivial⟩

theorem keeps_readName (s : Store) (scope : Option Ref) (name : String) :
    keeping.Keeps s (Host.ofStore.readName scope name) keeping.Known := by
  unfold Host.readName
  split
  · refine (keeps_ask (KeptBut.refl s)).bind fun t v? _ _ => ?_
    cases v? with
    | some v => exact keeps_pure (known_keeping _ _)
    | none => exact keeps_throw trivial
  · refine (keeps_lift (P := fun t known => t = s ∧ known = s.symbolExists scope name)
      fun _ => ⟨trivial, KeptBut.refl s, rfl, rfl⟩).bind fun t known _ hknown => ?_
    obtain ⟨rfl, rfl⟩ := hknown
    cases hexists : t.symbolExists scope name with
    | true =>
      exact (keeps_ask (KeptBut.refl t)).bind fun _ _ _ _ => keeps_pure (known_keeping _ _)
    | false =>
      refine (keeps_ask (keptBut_writeSymbol_of_unknown hexists .zero)).bind
        fun _ written _ _ => ?_
      cases written with
      | true => exact keeps_pure (known_keeping _ _)
      | false => exact keeps_throw trivial

theorem keeps_readKey (s : Store) (ref : Ref) (key : Key) :
    keeping.Keeps s (do return (← Host.ofStore.readKey ref key).getD .undefined)
      keeping.Known :=
  (keeps_ask (KeptBut.refl s)).bind fun _ _ _ _ => keeps_pure (known_keeping _ _)

theorem keeps_readMember (s : Store) (base : Value) (key : Key) :
    keeping.Keeps s (Host.ofStore.readMember base key) keeping.Known := by
  cases base with
  | container ref => exact keeps_readKey s ref key
  | scalar | undefined => exact keeps_pure (known_keeping _ _)

theorem keeps_readPlace (s : Store) (scope : Option Ref) (place : Place) :
    keeping.Keeps s (Host.ofStore.readPlace scope place) keeping.Known := by
  cases place with
  | symbol name => exact keeps_readName s scope name
  | key ref key => exact keeps_readKey s ref key

open Evaluation in
/-- An expression that only reads keeps what is there. -/
theorem keeps_evalWith_of_isReading (known : Expr → Option Scalar) (scope : Option Ref) :
    ∀ (e : Expr) (s : Store), e.isReading = true →
      keeping.Keeps s (evalWith Host.ofStore scope known e) keeping.Known
  | e, s, he => by
    cases hknown : known e with
    | some x =>
      rw [evalWith_known hknown]
      exact keeps_pure (known_keeping _ _)
    | none =>
      match e with
      | .number .. | .text .. =>
        rw [evalWith, hknown]
        exact keeps_pure (known_keeping _ _)
      | .malformed _ | .unnamed .. =>
        rw [evalWith, hknown]
        exact keeps_throw trivial
      | .call .. | .intrinsic .. | .assign .. | .update .. => cases he
      | .ident name _ =>
        rw [evalWith, hknown]
        exact keeps_readName s scope name
      | .member base name _ =>
        rw [evalWith, hknown]
        exact (keeps_evalWith_of_isReading known scope base s he).bind fun t v _ _ =>
          keeps_readMember t v _
      | .index base key _ =>
        obtain ⟨hbase, hkey⟩ := Bool.and_eq_true_iff.mp he
        rw [evalWith, hknown]
        exact (keeps_evalWith_of_isReading known scope base s hbase).bind fun t v _ _ =>
          (keeps_evalWith_of_isReading known scope key t hkey).bind fun u _ _ _ =>
            keeps_readMember u v _
      | .unary op operand _ =>
        rw [evalWith, hknown]
        exact (keeps_evalWith_of_isReading known scope operand s he).bind fun _ v _ _ =>
          (keeps_operand v).bind fun _ _ _ _ => keeps_pure (known_keeping _ _)
      | .binary op left right _ =>
        obtain ⟨hleft, hright⟩ := Bool.and_eq_true_iff.mp he
        have hl := keeps_evalWith_of_isReading known scope left s hleft
        have hr (t : Store) := keeps_evalWith_of_isReading known scope right t hright
        rcases op.logical_or_strict with rfl | rfl | hop
        · rw [evalWith_and hknown]
          exact keeps_logical hl hr
        · rw [evalWith_or hknown]
          exact keeps_logical hl hr
        · rw [evalWith_strict hop hknown]
          exact hl.bind fun t l _ _ => (hr t).bind fun _ r _ _ => keeps_onValues op l r
      | .conditional cond yes no _ =>
        obtain ⟨hparts, hno⟩ := Bool.and_eq_true_iff.mp he
        obtain ⟨hcond, hyes⟩ := Bool.and_eq_true_iff.mp hparts
        rw [evalWith, hknown]
        refine (keeps_evalWith_of_isReading known scope cond s hcond).bind fun t _ _ _ => ?_
        split
        · exact keeps_evalWith_of_isReading known scope yes t hyes
        · exact keeps_evalWith_of_isReading known scope no t hno

/-- Finding out what to write keeps what is there. -/
theorem keeps_assigned (scope : Option Ref) (s : Store) (op : AssignOp) (place : Place)
    {value : Expr} (hvalue : value.isReading = true) :
    keeping.Keeps s (Evaluation.assigned Host.ofStore scope op value place) keeping.Known := by
  cases op with
  | assign => exact keeps_evalWith_of_isReading _ scope value s hvalue
  | compound op =>
    exact (keeps_readPlace s scope place).bind fun t current _ _ =>
      (keeps_evalWith_of_isReading _ scope value t hvalue).bind fun _ operand _ _ =>
        (Evaluation.keeps_operand current).bind fun _ l _ _ =>
          (Evaluation.keeps_operand operand).bind fun _ r _ _ =>
            (Evaluation.keeps_apply op l r).bind fun _ _ _ _ => keeps_pure (known_keeping _ _)

/-! ## What an assignment may disturb -/

/-- The cell that a name and some keys denote, if there are containers on the way
to it. -/
inductive Denotes (s : Store) (scope : Option Ref) (x : String) : List Key → Cell → Prop
  | name : Denotes s scope x [] (s.cellOf scope x)
  | key {keys : List Key} {d d' : Cell} {ref : Ref} {key : Key} (h : Denotes s scope x keys d)
    (hd : s.at? d = some (.container ref)) (hkey : s.cellAt? ref key = some d') :
    Denotes s scope x (keys ++ [key]) d'

/-- All cells hold what they held, with the exception of at most one.  That one
is denoted by the name and some of the keys, but not all of them; it did not hold
a container, and now it holds one that is new. -/
def Disturbs (s : Store) (scope : Option Ref) (x : String) (keys : List Key) (t : Store) : Prop :=
  ∃ d? : Option Cell, KeptBut d? s t ∧ ∀ d ∈ d?,
    (∃ front, front <+: keys ∧ front ≠ keys ∧ s.Denotes scope x front d) ∧
    (∀ ref, s.at? d ≠ some (.container ref)) ∧
    ∃ ref, s.containers.size ≤ ref ∧ t.at? d = some (.container ref)

theorem KeptBut.disturbs (h : KeptBut none s t) : s.Disturbs scope x keys t :=
  ⟨none, h, nofun⟩

/-- The cell of a base is the one that is disturbed. -/
theorem KeptBut.disturbs_base (h : KeptBut (some d) s t) (hdenotes : s.Denotes scope x keys d)
    (hnone : ∀ ref, s.at? d ≠ some (.container ref)) (href : s.containers.size ≤ ref)
    (hat : t.at? d = some (.container ref)) (key : Key) :
    s.Disturbs scope x (keys ++ [key]) t := by
  refine ⟨some d, h, ?_⟩
  rintro _ ⟨⟩
  refine ⟨⟨keys, List.prefix_append keys [key], fun heq => ?_, hdenotes⟩, hnone, ref, href, hat⟩
  exact List.cons_ne_nil _ _ (List.append_right_eq_self.mp heq.symm)

/-- What comes later may add to the store, but not change it. -/
theorem Disturbs.keep (h : s.Disturbs scope x keys t) (htu : KeptBut none t u) :
    s.Disturbs scope x keys u := by
  obtain ⟨d?, hkept, hd⟩ := h
  refine ⟨d?, hkept.trans htu.of_none, fun d hmem => ?_⟩
  obtain ⟨hdenotes, hnone, ref, href, hat⟩ := hd d hmem
  exact ⟨hdenotes, hnone, ref, href, htu d _ hat nofun⟩

theorem Disturbs.concat (h : s.Disturbs scope x keys t) (key : Key) :
    s.Disturbs scope x (keys ++ [key]) t := by
  obtain ⟨d?, hkept, hd⟩ := h
  refine ⟨d?, hkept, fun d hmem => ?_⟩
  obtain ⟨⟨front, hfront, hne, hdenotes⟩, hrest⟩ := hd d hmem
  refine ⟨⟨front, hfront.trans (List.prefix_append keys [key]), ?_, hdenotes⟩, hrest⟩
  rintro rfl
  have := hfront.length_le
  rw [List.length_append, List.length_singleton] at this
  omega

/-! ## New containers -/

/-- The containers from a number on refer to each other only. -/
def ClosedFrom (n : Nat) (s : Store) : Prop :=
  ∀ ref c ref', n ≤ ref → s.containers[ref]? = some c → c.Holds (.container ref') → n ≤ ref'

variable {n : Nat}

theorem closedFrom_size (s : Store) : ClosedFrom s.containers.size s := by
  intro ref c ref' href hc
  rw [Array.getElem?_eq_none href] at hc
  cases hc

theorem ClosedFrom.modify (h : ClosedFrom n s) (ref : Ref) (key : Key)
    (hv : ∀ ref', v = .container ref' → n ≤ ref') : ClosedFrom n (s.modify ref key v) := by
  intro r c ref' href hc hholds
  obtain ⟨before, hbefore, rfl | ⟨rfl, rfl⟩⟩ := getElem?_modify hc
  · exact h r _ ref' href hbefore hholds
  · rcases Container.holds_set hholds with hw | hw | hw
    · exact hv ref' hw.symm
    · cases hw
    · exact h _ _ ref' href hbefore hw

theorem ClosedFrom.writeSymbol (h : ClosedFrom n s) (scope : Option Ref) (x : String)
    (hv : ∀ ref', v = .container ref' → n ≤ ref') : ClosedFrom n (s.writeSymbol scope x v) := by
  rcases s.writeSymbol_eq scope x v with ⟨ref, heq⟩ | heq
  · rw [heq]
    exact h.modify ref _ hv
  · rw [heq]
    exact h

theorem ClosedFrom.append (h : ClosedFrom n s) {more : List Container}
    (hmore : ∀ c ∈ more, ∀ v, ¬c.Holds v) : ClosedFrom n (s.append more) := by
  intro ref c ref' href hc hholds
  rcases Nat.lt_or_ge ref s.containers.size with hlt | hge
  · rw [getElem?_append_of_lt more hlt] at hc
    exact h ref c ref' href hc hholds
  · obtain ⟨i, rfl⟩ := Nat.exists_eq_add_of_le hge
    rw [getElem?_append_add] at hc
    exact absurd hholds (hmore c (List.mem_of_getElem? hc) _)

/-- What is found at a key of such a container is such a container. -/
theorem ClosedFrom.readKey (h : ClosedFrom n s) {ref' : Ref} (href : n ≤ ref)
    (hread : s.readKey ref key = some (.container ref')) : n ≤ ref' := by
  obtain ⟨c, hc, hget⟩ := Option.bind_eq_some_iff.mp hread
  rcases Container.holds_of_get? hget with ⟨x, hx⟩ | hholds
  · cases hx
  · exact h ref c ref' href hc hholds

/-! ## Places -/

/-- The cell of a place. -/
def placeCell? (s : Store) (scope : Option Ref) : Place → Option Cell
  | .symbol name => some (s.cellOf scope name)
  | .key ref key => s.cellAt? ref key

/-- A place leads to a container only if its cell does. -/
theorem at?_of_heldAt? (h : s.heldAt? scope place = some (.container ref)) :
    ∃ d, s.placeCell? scope place = some d ∧ s.at? d = some (.container ref) := by
  cases place with
  | symbol name => exact ⟨_, rfl, (readSymbol_eq_at? s scope name).symm.trans h⟩
  | key r key => exact at?_of_readKey h

theorem heldAt?_eq_at? (h : s.placeCell? scope place = some d) :
    s.heldAt? scope place = s.at? d := by
  cases place with
  | symbol name =>
    obtain rfl := Option.some.inj h
    exact readSymbol_eq_at? s scope name
  | key r key => exact readKey_eq_at? h

/-- A failed write changes nothing. -/
theorem run_writePlace_error {fault : Fault}
    (h : (Host.ofStore.writePlace scope place v).run.run s = (.error fault, t)) : t = s := by
  cases place with
  | symbol name => cases h
  | key r key =>
    rw [run_writePlace_key] at h
    split at h
    · cases h
    · cases h
      rfl

/-- Where the resolution of a chain is: at a place of the store as it was, or at
a key of a container that is new. -/
inductive Reaches (s : Store) (scope : Option Ref) (x : String) : List Key → Place → Store → Prop
  | old {keys : List Key} {place : Place}
    (hplace : ∀ ref key, place = .key ref key → ref < s.containers.size)
    (hdenotes : ∀ d, s.placeCell? scope place = some d → s.Denotes scope x keys d) :
    Reaches s scope x keys place s
  | new {keys : List Key} {ref : Ref} {key : Key} {t : Store} (href : s.containers.size ≤ ref)
    (hsize : s.containers.size ≤ t.containers.size) (hclosed : ClosedFrom s.containers.size t)
    (hdisturbs : s.Disturbs scope x keys t) :
    Reaches s scope x keys (.key ref key) t

theorem Reaches.disturbs (h : Reaches s scope x keys place t) : s.Disturbs scope x keys t := by
  cases h with
  | old => exact (KeptBut.refl s).disturbs
  | new _ _ _ hdisturbs => exact hdisturbs

theorem Reaches.size_le (h : Reaches s scope x keys place t) :
    s.containers.size ≤ t.containers.size := by
  cases h with
  | old => exact Nat.le_refl _
  | new _ hsize => exact hsize

theorem Denotes.lt_size {slot : Slot} (h : s.Denotes scope x keys (.slot ref slot)) :
    ref < s.containers.size := by
  generalize hd : Cell.slot ref slot = d at h
  cases h with
  | name =>
    by_cases hs : s.Shadows scope x
    · cases scope with
      | none => exact absurd hs (s.not_shadows_none x)
      | some active =>
        rw [cellOf_of_shadows hs] at hd
        cases hd
        obtain ⟨w, hw⟩ := Option.isSome_iff_exists.mp hs
        rw [member?_eq_at?] at hw
        exact lt_size_of_at? hw
    · rw [cellOf_of_not_shadows hs] at hd
      cases hd
  | key _ _ hkey =>
    obtain ⟨slot', hslot, heq⟩ := Option.map_eq_some_iff.mp (hkey.trans (congrArg some hd.symm))
    cases heq
    obtain ⟨c, hc, -⟩ := Option.bind_eq_some_iff.mp hslot
    exact (Array.getElem?_eq_some_iff.mp hc).1

/-- A write in a container that is new. -/
theorem Disturbs.modify (h : s.Disturbs scope x keys t) (href : s.containers.size ≤ ref)
    (key : Key) (v : Value) : s.Disturbs scope x keys (t.modify ref key v) := by
  obtain ⟨d?, hkept, hd⟩ := h
  refine ⟨d?, hkept.modify href key v, fun d hmem => ?_⟩
  obtain ⟨⟨front, hfront, hne, hdenotes⟩, hnone, ref', href', hat⟩ := hd d hmem
  refine ⟨⟨front, hfront, hne, hdenotes⟩, hnone, ref', href', ?_⟩
  rw [at?_modify_of_ne ?_ key v, hat]
  rintro slot rfl
  exact Nat.not_lt_of_le href hdenotes.lt_size

/-- A write at a place of the store, when there is one more container. -/
theorem run_writePlace_old {r : Except Fault Unit}
    (hplace : ∀ ref key, place = .key ref key → ref < s.containers.size)
    (hv : ∀ ref, v = .container ref → s.containers.size ≤ ref)
    (hrun : (Host.ofStore.writePlace scope place v).run.run (s.append [.emptyFor key]) = (r, u)) :
    ∃ w, u = w.append [.emptyFor key] ∧ w.containers.size = s.containers.size ∧
      ClosedFrom s.containers.size w ∧
      (w = s ∨ ∃ d, s.placeCell? scope place = some d ∧ KeptBut (some d) s w ∧
        w.at? d = some v) := by
  cases place with
  | symbol name =>
    rw [run_writePlace_symbol, writeSymbol_append ?_] at hrun
    · cases hrun
      exact ⟨_, rfl, size_writeSymbol s scope name v, (closedFrom_size s).writeSymbol scope name hv,
        .inr ⟨_, rfl, keptBut_writeSymbol s scope name v, at?_writeSymbol_self s scope name v⟩⟩
    · intro c hc
      rw [List.mem_singleton.mp hc, Container.at?_emptyFor]
  | key ref k =>
    have hlt := hplace ref k rfl
    rw [run_writePlace_key, modify_append_of_lt _ hlt] at hrun
    split at hrun
    · next haccepts =>
      cases hrun
      rw [acceptsKey, getElem?_append_of_lt _ hlt, ← acceptsKey] at haccepts
      obtain ⟨d, hd⟩ := cellAt?_of_acceptsKey haccepts
      exact ⟨_, rfl, size_modify ref k s v, (closedFrom_size s).modify ref k hv,
        .inr ⟨d, hd, keptBut_modify hd v, at?_modify_self haccepts hd⟩⟩
    · cases hrun
      exact ⟨s, rfl, rfl, closedFrom_size s, .inl rfl⟩

/-- A container is made at a place that holds none. -/
theorem Reaches.make (h : Reaches s scope x keys place t)
    (hheld : ∀ ref, t.heldAt? scope place ≠ some (.container ref)) (key : Key)
    {r : Except Fault Unit}
    (hrun : (Host.ofStore.writePlace scope place (.container t.containers.size)).run.run
      (t.append [.emptyFor key]) = (r, u)) :
    s.containers.size ≤ u.containers.size ∧ ClosedFrom s.containers.size u ∧
      s.Disturbs scope x (keys ++ [key]) u := by
  have hmore : ∀ c ∈ [Container.emptyFor key], ∀ v, ¬c.Holds v := by
    intro c hc
    rw [List.mem_singleton.mp hc]
    exact Container.not_holds_emptyFor key
  cases h with
  | old hplace hdenotes =>
    -- the write is the only one to a cell that was there: later ones are in new containers
    obtain ⟨w, rfl, hsize, hclosed, hcases⟩ := run_writePlace_old hplace
      (by rintro ref ⟨⟩; exact Nat.le_refl _) hrun
    refine ⟨?_, hclosed.append hmore, ?_⟩
    · rw [size_append, hsize]
      exact Nat.le_add_right _ _
    · rcases hcases with rfl | ⟨d, hd, hkept, hat⟩
      · exact (keptBut_append w _).disturbs
      · have hnone (ref : Ref) : s.at? d ≠ some (.container ref) :=
          heldAt?_eq_at? hd ▸ hheld ref
        exact (hkept.disturbs_base (hdenotes d hd) hnone (Nat.le_refl _) hat key).keep
          (keptBut_append w _)
  | @new ref k _ href hsize hclosed hdisturbs =>
    have hsize' : s.containers.size ≤ (t.append [.emptyFor key]).containers.size := by
      rw [size_append]
      exact Nat.le_trans hsize (Nat.le_add_right _ _)
    have hclosed' := hclosed.append hmore
    have hdisturbs' := (hdisturbs.keep (keptBut_append t [.emptyFor key])).concat key
    rw [run_writePlace_key] at hrun
    split at hrun
    · cases hrun
      refine ⟨?_, hclosed'.modify ref k ?_, hdisturbs'.modify href k _⟩
      · rw [size_modify]
        exact hsize'
      · rintro ref' ⟨⟩
        exact hsize
    · cases hrun
      exact ⟨hsize', hclosed', hdisturbs'⟩

/-- Taking or making a container at a place. -/
theorem Reaches.containerAt (h : Reaches s scope x keys place t) (key : Key) {r : Except Fault Ref}
    (hrun : (Host.ofStore.containerAt scope place key).run.run t = (r, u)) :
    match r with
    | .ok ref => Reaches s scope x (keys ++ [key]) (.key ref key) u
    | .error _ => s.Disturbs scope x (keys ++ [key]) u := by
  by_cases hheld : ∃ ref, t.heldAt? scope place = some (.container ref)
  · obtain ⟨ref, hheld⟩ := hheld
    rw [run_containerAt_of_held hheld] at hrun
    cases hrun
    cases h with
    | old hplace hdenotes =>
      obtain ⟨d, hd, hat⟩ := at?_of_heldAt? hheld
      -- a reference of the store may be to a container that it does not have yet
      rcases Nat.lt_or_ge ref s.containers.size with hlt | hge
      · refine .old (fun r k hk => ?_) fun d' hd' => .key (hdenotes d hd) hat hd'
        cases hk
        exact hlt
      · exact .new hge (Nat.le_refl _) (closedFrom_size s) (KeptBut.refl s).disturbs
    | new href hsize hclosed hdisturbs =>
      exact .new (hclosed.readKey href hheld) hsize hclosed (hdisturbs.concat key)
  · have hheld (ref : Ref) : t.heldAt? scope place ≠ some (.container ref) :=
      fun h => hheld ⟨ref, h⟩
    rw [run_containerAt_of_not_held hheld] at hrun
    rcases hwrite : (Host.ofStore.writePlace scope place
      (.container t.containers.size)).run.run (t.append [.emptyFor key]) with ⟨fault | _, w⟩
    · rw [run_bind_of_error hwrite] at hrun
      cases hrun
      exact (h.make hheld key hwrite).2.2
    · rw [run_bind_of_ok hwrite] at hrun
      cases hrun
      obtain ⟨hsize, hclosed, hdisturbs⟩ := h.make hheld key hwrite
      exact .new h.size_le hsize hclosed hdisturbs

open Evaluation in
/-- The place of a chain, or what is left when there is none. -/
theorem reaches_of_chain {e : Expr} (hchain : Expr.Chain x e keys) :
    ∀ {r : Except Fault Place} {t : Store},
      (placeWith Host.ofStore scope Expr.pureConstant? e).run.run s = (r, t) →
        match r with
        | .ok place => Reaches s scope x keys place t
        | .error _ => s.Disturbs scope x keys t := by
  induction hchain with
  | name span =>
    intro r t hrun
    rw [placeWith] at hrun
    split at hrun
    · cases hrun
      exact (KeptBut.refl s).disturbs
    · cases hrun
      exact .old nofun fun d hd => Option.some.inj hd ▸ .name
  | @key e base keys key hbase hselects ih =>
    intro r t hrun
    rw [place_of_selects _ _ hselects] at hrun
    rcases hplace : (placeWith Host.ofStore scope Expr.pureConstant? base).run.run s with
      ⟨fault | place, u⟩
    · rw [run_bind_of_error hplace] at hrun
      cases hrun
      exact (ih hplace).concat key
    · rw [run_bind_of_ok hplace] at hrun
      have hreaches : Reaches s scope x keys place u := ih hplace
      rcases hcontainer : (Host.ofStore.containerAt scope place key).run.run u with
        ⟨fault | ref, w⟩
      · rw [run_bind_of_error hcontainer] at hrun
        cases hrun
        exact hreaches.containerAt key hcontainer
      · rw [run_bind_of_ok hcontainer] at hrun
        cases hrun
        exact hreaches.containerAt key hcontainer

end Store

open Store Evaluation

/-- **A failed assignment disturbs one cell at most.**  The target is a name
followed by member names and constant indices, and the right-hand side only
reads.  If the assignment fails, every cell of the store holds what it held
before, but for one at most: that of a base of the target which held no
container, and for which one has been made. -/
theorem failed_assignments_disturb_one_cell (s : Store) (scope : Option Ref) {x : String}
    {keys : List Key} {op : AssignOp} {target value : Expr} {span : Span} {p : Parsed}
    (htarget : Expr.Chain x target keys) (hvalue : value.isReading = true)
    (hp : p.body = .expression (.assign op target value span)) {fault : Fault} {t : Store}
    (hrun : (run Host.ofStore scope p).run.run s = (.error fault, t)) :
    s.Disturbs scope x keys t := by
  rw [run_assign _ _ hp] at hrun
  -- the place, the value or the write fails
  rcases run_bind_eq_error hrun with hplace | ⟨place, u, hplace, hrun⟩
  · exact reaches_of_chain htarget hplace
  have hreaches : Reaches s scope x keys place u := reaches_of_chain htarget hplace
  have hassigned := keeps_assigned scope u op place hvalue
  rcases run_bind_eq_error hrun with hresult | ⟨v, w, hresult, hrun⟩
  · exact hreaches.disturbs.keep (keptBut_of_keeps hassigned hresult)
  · rcases run_bind_eq_error hrun with hwrite | ⟨_, _, _, hrun⟩
    · rw [run_writePlace_error hwrite]
      exact hreaches.disturbs.keep (keptBut_of_keeps hassigned hresult)
    · cases hrun

/-- An assignment to an element that no array has: the name is bound to an array
by then. -/
theorem failed_assignments_disturb_one_cell_negative_index :
    let s : Store := ({} : Store).set "a" (.number 5)
    let target : Expr :=
      .index (.ident "a" .none) (.unary .neg (.number (.int 1) .none) .none) .none
    let p : Parsed :=
      ⟨"a[-1] = 2", .expression (.assign .assign target (.number (.int 2) .none) .none), []⟩
    ∃ fault t, (run Host.ofStore none p).run.run s = (.error fault, t) ∧
      s.Disturbs none "a" [.index (-1)] t := by
  intro s target p
  have hfails : ((run Host.ofStore none p).run.run s).1.toOption = none := by decide +kernel
  have htarget : Expr.Chain "a" target ([] ++ [.index (-1)]) :=
    .key (.name _) (.index _ (c := .int (-1)) rfl _)
  rcases hrun : (run Host.ofStore none p).run.run s with ⟨fault | v, t⟩
  · exact ⟨fault, t, rfl, failed_assignments_disturb_one_cell s none htarget rfl rfl hrun⟩
  · rw [hrun] at hfails
    cases hfails

/-- What a name was bound to can be lost. -/
theorem failed_assignment_loses_value :
    let s : Store := ({} : Store).set "a" (.number 5)
    let outcome := (run Host.ofStore none (parse "a[-1] = 2")).run.run s
    s.get? "a" = some (.number 5) ∧ outcome.1.toOption = none ∧
      outcome.2.get? "a" = some (.container 0) := by
  refine ⟨by decide +kernel, by decide +kernel, by decide +kernel⟩

end TargetView
