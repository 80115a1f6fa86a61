import TargetView.Proofs.Chains
import TargetView.Proofs.HostCalls
import TargetView.Proofs.Inheritance

/-! # A place is what its value is read from

A chain of members and elements is walked in two ways.  As a value each base is
read before its index is evaluated; as the target of an assignment it is the
other way round, because the index decides which container is made for a base
that holds none.

Where all bases hold containers nothing is made, and the two walks differ in the
order of evaluation alone.  If at each index nothing depends on that order
(`Evaluation.OrderFree`), they come to the same container and key in the same
state (`Evaluation.place_is_what_is_read`).  Indices that change nothing are of
this kind (`Evaluation.orderFree_of_looksUp`); an index with effects that the base
sees sets the walks apart (`Evaluation.place_is_not_what_is_read`).
-/
namespace TargetView

variable {σ : Type}

namespace Host

/-- A log of the effects does not see what is read. -/
theorem Observes.tracing {host : Host σ} (hhost : host.Observes) : host.tracing.Observes where
  symbolExists scope name s := Prod.ext (hhost.symbolExists scope name s.1) rfl
  readSymbol scope name s := Prod.ext (hhost.readSymbol scope name s.1) rfl
  readKey ref key s := Prod.ext (hhost.readKey ref key s.1) rfl

end Host

/-! ## The two walks over a chain -/

namespace Evaluation

open Host

/-- An evaluation that comes to a value ends with it. -/
theorem run_eq_ok {α : Type} {x : Eval σ α} {s : σ} {a : α}
    (h : (x.run.run s).1.toOption = some a) : x.run.run s = (.ok a, (x.run.run s).2) := by
  rcases hx : x.run.run s with ⟨fault | b, t⟩
  · rw [hx] at h
    cases h
  · rw [hx] at h
    obtain rfl := Option.some.inj h
    rfl

/-- From a state, two evaluations come to the same values and the same state
whichever is first, or to the same fault in the same state. -/
def Commute {α β : Type} (x : Eval σ α) (y : Eval σ β) (s : σ) : Prop :=
  (do let a ← x; let b ← y; return (a, b) : Eval σ (α × β)).run.run s =
    (do let b ← y; let a ← x; return (a, b) : Eval σ (α × β)).run.run s

variable (host : Host σ) (scope : Option Ref)

/-- At no index of the chain does it matter whether the index or its base is
evaluated first.  The base is looked at where the index leaves it. -/
def OrderFree : Expr → σ → Prop
  | .member base _ _, s => OrderFree base s
  | .index base key _, s =>
    Commute (eval host scope base) (eval host scope key) s ∧
      ∀ k t, (eval host scope key).run.run s = (.ok k, t) → OrderFree base t
  | _, _ => True

/-- The value of a chain is looked up at a place and in a state last: the name if
it has a value, and otherwise a key of the container that the base holds. -/
inductive LooksUp (s : σ) : Expr → Place → σ → Prop
  | symbol {name : String} {span : Span}
      (h : ((host.symbolExists scope name).run s).1 = true) :
      LooksUp s (.ident name span) (.symbol name) s
  | member {base : Expr} {name : String} {span : Span} {ref : Ref} {t : σ}
      (h : (eval host scope base).run.run s = (.ok (.container ref), t)) :
      LooksUp s (.member base name span) (.key ref (.name name)) t
  | index {base key : Expr} {span : Span} {ref : Ref} {k : Value} {t u : σ}
      (h : (eval host scope base).run.run s = (.ok (.container ref), t))
      (hkey : (eval host scope key).run.run t = (.ok k, u)) :
      LooksUp s (.index base key span) (.key ref (.ofValue k)) u

variable {host scope}

/-- Where the order does not matter, the second one may be evaluated first. -/
theorem Commute.swap {α β : Type} {x : Eval σ α} {y : Eval σ β} {a : α} {b : β} {s t u : σ}
    (h : Commute x y s) (hx : x.run.run s = (.ok a, t)) (hy : y.run.run t = (.ok b, u)) :
    ∃ t', y.run.run s = (.ok b, t') ∧ x.run.run t' = (.ok a, u) := by
  unfold Commute at h
  rw [run_bind_of_ok hx, run_bind_of_ok hy] at h
  rcases hy' : y.run.run s with ⟨fault | b', t'⟩
  · rw [run_bind_of_error hy'] at h
    cases h
  · rw [run_bind_of_ok hy'] at h
    rcases hx' : x.run.run t' with ⟨fault | a', u'⟩
    · rw [run_bind_of_error hx'] at h
      cases h
    · rw [run_bind_of_ok hx'] at h
      cases h
      exact ⟨t', rfl, hx'⟩

/-- An evaluation that changes nothing and comes to the same value before and
after another one may change places with it. -/
theorem commute_of_reads {α β : Type} {x : Eval σ α} {y : Eval σ β} {a : α} {s : σ}
    (hs : x.run.run s = (.ok a, s))
    (ht : ∀ b t, y.run.run s = (.ok b, t) → x.run.run t = (.ok a, t)) : Commute x y s := by
  unfold Commute
  rw [run_bind_of_ok hs]
  rcases hy : y.run.run s with ⟨fault | b, t⟩
  · rw [run_bind_of_error hy, run_bind_of_error hy]
  · rw [run_bind_of_ok hy, run_bind_of_ok hy, run_bind_of_ok (ht b t hy)]

theorem eval_ident (name : String) (span : Span) :
    eval host scope (.ident name span) = host.readName scope name := by
  unfold eval
  rw [evalWith]
  rfl

theorem eval_member (base : Expr) (name : String) (span : Span) :
    eval host scope (.member base name span) =
      (do host.readMember (← eval host scope base) (.name name)) := by
  unfold eval
  rw [evalWith]
  rfl

theorem eval_index (base key : Expr) (span : Span) :
    eval host scope (.index base key span) = (do
      let base ← eval host scope base
      let key ← eval host scope key
      host.readMember base (.ofValue key)) := by
  unfold eval
  rw [evalWith]
  rfl

theorem run_place_ident {name : String} (span : Span) (hpath : isPath name = false) (s : σ) :
    (placeWith host scope Expr.pureConstant? (.ident name span)).run.run s =
      (.ok (.symbol name), s) := by
  rw [placeWith, if_neg (by rw [hpath]; exact Bool.false_ne_true)]
  rfl

/-- The place of an element, with the index evaluated first. -/
theorem run_place_index {base key : Expr} {span : Span} {k : Value} {place : Place} {ref : Ref}
    {s t u : σ} (hhost : host.Observes)
    (hkey : (eval host scope key).run.run s = (.ok k, t))
    (hplace : (placeWith host scope Expr.pureConstant? base).run.run t = (.ok place, u))
    (hheld : host.heldIn? scope u place = some (.container ref)) :
    (placeWith host scope Expr.pureConstant? (.index base key span)).run.run s =
      (.ok (.key ref (.ofValue k)), u) := by
  rw [placeWith]
  change (do
    let key ← eval host scope key
    let place ← placeWith host scope Expr.pureConstant? base
    return Place.key (← host.containerAt scope place (.ofValue key)) (.ofValue key)).run.run s = _
  rw [run_bind_of_ok hkey, run_bind_of_ok hplace,
    run_bind_of_ok (hhost.run_containerAt_of_holds hheld _)]
  rfl

theorem run_place_member {base : Expr} {name : String} {span : Span} {place : Place} {ref : Ref}
    {s t : σ} (hhost : host.Observes)
    (hplace : (placeWith host scope Expr.pureConstant? base).run.run s = (.ok place, t))
    (hheld : host.heldIn? scope t place = some (.container ref)) :
    (placeWith host scope Expr.pureConstant? (.member base name span)).run.run s =
      (.ok (.key ref (.name name)), t) := by
  rw [placeWith, run_bind_of_ok hplace, run_bind_of_ok (hhost.run_containerAt_of_holds hheld _)]
  rfl

/-- A member is read as a container only from a container. -/
theorem container_of_member (hhost : host.Observes) {base : Expr} {name : String} {span : Span}
    {ref : Ref} {s t : σ}
    (h : (eval host scope (.member base name span)).run.run s = (.ok (.container ref), t)) :
    ∃ ref', (eval host scope base).run.run s = (.ok (.container ref'), t) ∧
      host.heldIn? scope t (.key ref' (.name name)) = some (.container ref) := by
  rw [eval_member] at h
  rcases hbase : (eval host scope base).run.run s with ⟨fault | v, u⟩
  · rw [run_bind_of_error hbase] at h
    cases h
  rw [run_bind_of_ok hbase] at h
  obtain ⟨ref', rfl, rfl, hheld⟩ := hhost.holds_of_run_readMember h
  exact ⟨ref', rfl, hheld⟩

/-- And so is an element. -/
theorem container_of_index (hhost : host.Observes) {base key : Expr} {span : Span} {ref : Ref}
    {s t : σ}
    (h : (eval host scope (.index base key span)).run.run s = (.ok (.container ref), t)) :
    ∃ ref' k u, (eval host scope base).run.run s = (.ok (.container ref'), u) ∧
      (eval host scope key).run.run u = (.ok k, t) ∧
      host.heldIn? scope t (.key ref' (.ofValue k)) = some (.container ref) := by
  rw [eval_index] at h
  rcases hbase : (eval host scope base).run.run s with ⟨fault | v, u⟩
  · rw [run_bind_of_error hbase] at h
    cases h
  rw [run_bind_of_ok hbase] at h
  rcases hkey : (eval host scope key).run.run u with ⟨fault | k, u'⟩
  · rw [run_bind_of_error hkey] at h
    cases h
  rw [run_bind_of_ok hkey] at h
  obtain ⟨ref', rfl, rfl, hheld⟩ := hhost.holds_of_run_readMember h
  exact ⟨ref', k, u, rfl, hkey, hheld⟩

/-- A chain that is read as a container denotes a place that holds the container,
and no container is made on the way there. -/
theorem run_place_of_container (hhost : host.Observes) {ref : Ref} : ∀ {e : Expr} {s t : σ},
    e.IsRooted → OrderFree host scope e s →
    (eval host scope e).run.run s = (.ok (.container ref), t) →
    ∃ place, (placeWith host scope Expr.pureConstant? e).run.run s = (.ok place, t) ∧
      host.heldIn? scope t place = some (.container ref)
  | .ident name _, s, t, hroot, _, h => by
    obtain ⟨_, ⟨⟩, hpath⟩ := hroot
    rw [eval_ident] at h
    obtain ⟨rfl, hheld⟩ := hhost.holds_of_run_readName hpath h
    exact ⟨.symbol name, run_place_ident _ hpath _, hheld⟩
  | .member base name _, s, t, hroot, hfree, h => by
    obtain ⟨ref', hbase, hheld⟩ := container_of_member hhost h
    obtain ⟨place, hplace, hat⟩ := run_place_of_container (e := base) hhost hroot hfree hbase
    exact ⟨_, run_place_member hhost hplace hat, hheld⟩
  | .index base key _, s, t, hroot, hfree, h => by
    obtain ⟨ref', k, u, hbase, hkey, hheld⟩ := container_of_index hhost h
    -- The base is read again from where the index leaves the state.
    obtain ⟨s', hkey', hbase'⟩ := hfree.1.swap hbase hkey
    obtain ⟨place, hplace, hat⟩ :=
      run_place_of_container (e := base) hhost hroot (hfree.2 k s' hkey') hbase'
    exact ⟨_, run_place_index hhost hkey' hplace hat, hheld⟩
  | .number .., _, _, ⟨_, hroot, _⟩, _, _ | .text .., _, _, ⟨_, hroot, _⟩, _, _
  | .unary .., _, _, ⟨_, hroot, _⟩, _, _ | .binary .., _, _, ⟨_, hroot, _⟩, _, _
  | .conditional .., _, _, ⟨_, hroot, _⟩, _, _ | .assign .., _, _, ⟨_, hroot, _⟩, _, _
  | .update .., _, _, ⟨_, hroot, _⟩, _, _ | .call .., _, _, ⟨_, hroot, _⟩, _, _
  | .intrinsic .., _, _, ⟨_, hroot, _⟩, _, _ | .malformed _, _, _, ⟨_, hroot, _⟩, _, _
  | .unnamed .., _, _, ⟨_, hroot, _⟩, _, _ => by cases hroot

/-- On a host that is read without a trace, a chain that looks up a place last
denotes that place. -/
theorem run_of_looksUp (hhost : host.Observes) {e : Expr} {place : Place} {s t : σ}
    (hroot : e.IsRooted) (hfree : OrderFree host scope e s)
    (h : LooksUp host scope s e place t) :
    (eval host scope e).run.run s = (.ok ((host.heldIn? scope t place).getD .undefined), t) ∧
      (placeWith host scope Expr.pureConstant? e).run.run s = (.ok place, t) := by
  cases h with
  | @symbol name span h =>
    obtain ⟨_, ⟨⟩, hpath⟩ := hroot
    refine ⟨?_, run_place_ident span hpath s⟩
    rw [eval_ident]
    exact hhost.run_readName hpath h
  | @member base name span ref t hbase =>
    obtain ⟨place, hplace, hat⟩ := run_place_of_container (e := base) hhost hroot hfree hbase
    refine ⟨?_, run_place_member hhost hplace hat⟩
    rw [eval_member, run_bind_of_ok hbase]
    exact hhost.run_readMember ref _ _
  | @index base key span ref k t u hbase hkey =>
    obtain ⟨s', hkey', hbase'⟩ := hfree.1.swap hbase hkey
    obtain ⟨place, hplace, hat⟩ :=
      run_place_of_container (e := base) hhost hroot (hfree.2 k s' hkey') hbase'
    refine ⟨?_, run_place_index hhost hkey' hplace hat⟩
    rw [eval_index, run_bind_of_ok hbase, run_bind_of_ok hkey]
    exact hhost.run_readMember ref _ _

/-! ## Indices that change nothing -/

/-- The indices of a chain. -/
def keysOf : Expr → List Expr
  | .member base _ _ => keysOf base
  | .index base key _ => key :: keysOf base
  | _ => []

/-- An index that changes nothing may be evaluated before its base. -/
theorem orderFree_index {base key : Expr} {span : Span} {v : Value} {s : σ}
    {r : Except Fault Value} (hbase : (eval host scope base).run.run s = (.ok v, s))
    (hfree : OrderFree host scope base s)
    (hkey : (eval host scope key).run.run s = (r, s)) :
    OrderFree host scope (.index base key span) s := by
  have hsame (k : Value) (t : σ) (h : (eval host scope key).run.run s = (.ok k, t)) : t = s :=
    congrArg Prod.snd (h.symm.trans hkey)
  refine ⟨commute_of_reads hbase fun k t h => ?_, fun k t h => ?_⟩
  · rw [hsame k t h]
    exact hbase
  · rw [hsame k t h]
    exact hfree

/-- Where the indices leave the state of the host alone, so does a chain that is
read as a container, and its order does not matter. -/
theorem orderFree_of_container (hhost : host.Observes) {s : σ} {ref : Ref} :
    ∀ {e : Expr} {t : σ}, e.IsRooted →
      (∀ key ∈ keysOf e, ∃ r, (eval host scope key).run.run s = (r, s)) →
      (eval host scope e).run.run s = (.ok (.container ref), t) →
      OrderFree host scope e s ∧ t = s
  | .ident name _, t, hroot, _, h => by
    obtain ⟨_, ⟨⟩, hpath⟩ := hroot
    rw [eval_ident] at h
    exact ⟨trivial, (hhost.holds_of_run_readName hpath h).1⟩
  | .member base name _, t, hroot, hstill, h => by
    obtain ⟨ref', hbase, -⟩ := container_of_member hhost h
    exact orderFree_of_container (e := base) hhost hroot hstill hbase
  | .index base key _, t, hroot, hstill, h => by
    obtain ⟨ref', k, u, hbase, hkey, -⟩ := container_of_index hhost h
    obtain ⟨⟨r, hr⟩, hstill⟩ := List.forall_mem_cons.mp hstill
    obtain ⟨hfree, rfl⟩ := orderFree_of_container (e := base) hhost hroot hstill hbase
    exact ⟨orderFree_index hbase hfree hr, congrArg Prod.snd (hkey.symm.trans hr)⟩
  | .number .., _, ⟨_, hroot, _⟩, _, _ | .text .., _, ⟨_, hroot, _⟩, _, _
  | .unary .., _, ⟨_, hroot, _⟩, _, _ | .binary .., _, ⟨_, hroot, _⟩, _, _
  | .conditional .., _, ⟨_, hroot, _⟩, _, _ | .assign .., _, ⟨_, hroot, _⟩, _, _
  | .update .., _, ⟨_, hroot, _⟩, _, _ | .call .., _, ⟨_, hroot, _⟩, _, _
  | .intrinsic .., _, ⟨_, hroot, _⟩, _, _ | .malformed _, _, ⟨_, hroot, _⟩, _, _
  | .unnamed .., _, ⟨_, hroot, _⟩, _, _ => by cases hroot

/-- **The order does not matter where the indices change nothing**, and then the
chain changes nothing either. -/
theorem orderFree_of_looksUp (hhost : host.Observes) {e : Expr} {place : Place} {s t : σ}
    (hroot : e.IsRooted) (hstill : ∀ key ∈ keysOf e, ∃ r, (eval host scope key).run.run s = (r, s))
    (h : LooksUp host scope s e place t) : OrderFree host scope e s ∧ t = s := by
  cases h with
  | symbol => exact ⟨trivial, rfl⟩
  | @member base _ _ _ _ hbase =>
    exact orderFree_of_container (e := base) hhost hroot hstill hbase
  | @index base key _ _ k u _ hbase hkey =>
    obtain ⟨⟨r, hr⟩, hstill⟩ := List.forall_mem_cons.mp hstill
    obtain ⟨hfree, rfl⟩ := orderFree_of_container (e := base) hhost hroot hstill hbase
    exact ⟨orderFree_index hbase hfree hr, congrArg Prod.snd (hkey.symm.trans hr)⟩

/-- **A place is what its value is read from.**  A chain behind an identifier, in
which it matters at no index whether the index or its base is evaluated first, is
read from the container and key, or the name, that it denotes as the target of an
assignment, and both walks end in the same store.  Where the order does not matter
for the sequence of writes and new containers either, these are the same too. -/
theorem place_is_what_is_read (scope : Option Ref) {e : Expr} (hroot : e.IsRooted) (s : Store) :
    (∀ place t, OrderFree ofStore scope e s → LooksUp ofStore scope s e place t →
      (eval ofStore scope e).run.run s = (.ok ((t.heldAt? scope place).getD .undefined), t) ∧
        (placeWith ofStore scope Expr.pureConstant? e).run.run s = (.ok place, t)) ∧
    ∀ calls place t calls', OrderFree ofStore.tracing scope e (s, calls) →
      LooksUp ofStore.tracing scope (s, calls) e place (t, calls') →
      (eval ofStore.tracing scope e).run.run (s, calls) =
          (.ok ((t.heldAt? scope place).getD .undefined), (t, calls')) ∧
        (placeWith ofStore.tracing scope Expr.pureConstant? e).run.run (s, calls) =
          (.ok place, (t, calls')) := by
  constructor
  · intro place t hfree hlooks
    have h := run_of_looksUp observes_ofStore hroot hfree hlooks
    cases place <;> exact h
  · intro calls place t calls' hfree hlooks
    have h := run_of_looksUp observes_ofStore.tracing hroot hfree hlooks
    cases place <;> exact h

/-- The first row is met under an index that stays what it is, and under one that
counts on while the rows stay what they are. -/
theorem place_is_what_is_read_counting :
    let s : Store := ⟨((∅ : Fields).insert "rows" (.container 0)).insert "i" (.int 0),
      #[.array #[.container 1], .object ∅]⟩
    let first : Expr := .index (.ident "rows" .none) (.ident "i" .none) .none
    let row : Expr := .index (.ident "rows" .none)
      (.update .increment false (.ident "i" .none) .none) .none
    ((eval ofStore none (.member first "count" .none)).run.run s = (.ok .undefined, s) ∧
      (placeWith ofStore none Expr.pureConstant? (.member first "count" .none)).run.run s =
        (.ok (.key 1 (.name "count")), s)) ∧
    ∃ t calls,
      (eval ofStore.tracing none (.member row "count" .none)).run.run (s, []) =
        (.ok .undefined, (t, calls)) ∧
      (placeWith ofStore.tracing none Expr.pureConstant? (.member row "count" .none)).run.run
          (s, []) = (.ok (.key 1 (.name "count")), (t, calls)) ∧
      calls.length = 1 := by
  intro s first row
  constructor
  · have hkey : (eval ofStore none (.ident "i" .none)).run.run s = (.ok (.int 0), s) := by
      rw [eval_ident]
      exact observes_ofStore.run_readName (by decide) (by decide +kernel)
    have hstill : ∀ key ∈ keysOf (.member first "count" .none),
        ∃ r, (eval ofStore none key).run.run s = (r, s) :=
      List.forall_mem_singleton.mpr ⟨_, hkey⟩
    have hfirst := run_eq_ok (x := eval ofStore none first) (s := s) (a := .container 1)
      (by decide +kernel)
    have hroot : (Expr.member first "count" .none).IsRooted := ⟨"rows", rfl, by decide⟩
    have hlooks : LooksUp ofStore none s (.member first "count" .none) _ _ := .member hfirst
    obtain ⟨hfree, hsame⟩ := orderFree_of_looksUp observes_ofStore hroot hstill hlooks
    obtain ⟨heval, hplace⟩ := (place_is_what_is_read none hroot s).1 _ _ hfree hlooks
    rw [hsame] at heval hplace
    exact ⟨heval, hplace⟩
  have hrows (s' : Store × List Call)
      (h : s'.1.readSymbol none "rows" = some (.container 0)) :
      (eval ofStore.tracing none (.ident "rows" .none)).run.run s' = (.ok (.container 0), s') := by
    have hexists : s'.1.symbolExists none "rows" = true := by
      rw [Store.symbolExists_eq, ← Option.isSome_or, ← Store.readSymbol, h]
      rfl
    have hread : (ofStore.tracing.readName none "rows").run.run s' =
        (.ok ((s'.1.readSymbol none "rows").getD .undefined), s') :=
      observes_ofStore.tracing.run_readName (by decide) hexists
    rw [eval_ident, hread, h]
    rfl
  have hfree : OrderFree ofStore.tracing none (.member row "count" .none) (s, []) := by
    refine ⟨commute_of_reads (hrows _ (by decide +kernel)) fun b t h => ?_, fun _ _ _ => trivial⟩
    obtain rfl := congrArg Prod.snd h
    exact hrows _ (by decide +kernel)
  have hrow := run_eq_ok (x := eval ofStore.tracing none row) (s := (s, []))
    (a := .container 1) (by decide +kernel)
  have hlooks : LooksUp ofStore.tracing none (s, []) (.member row "count" .none) _ _ :=
    .member hrow
  obtain ⟨heval, hplace⟩ :=
    (place_is_what_is_read none ⟨"rows", rfl, by decide⟩ s).2 [] _ _ _ hfree hlooks
  refine ⟨_, _, heval.trans ?_, hplace, by decide +kernel⟩
  rw [show (Store.heldAt? _ none _) = none by decide +kernel]
  rfl

/-- An index with an effect on the index of its base: read from the first row,
and written in the second one. -/
theorem place_is_not_what_is_read :
    ¬ ∀ (scope : Option Ref) (e : Expr) (s : Store) (place : Place) (t : Store), e.IsRooted →
      LooksUp ofStore scope s e place t →
      (placeWith ofStore scope Expr.pureConstant? e).run.run s = (.ok place, t) := by
  intro h
  let s : Store := ⟨((∅ : Fields).insert "a" (.container 0)).insert "i" (.int 0),
    #[.array #[.container 1, .container 2], .array #[.undefined, .int 1], .array #[.int 2]]⟩
  let next : Expr := .update .increment false (.ident "i" .none) .none
  let row : Expr := .index (.ident "a" .none) next .none
  have hrow := run_eq_ok (x := eval ofStore none row) (s := s) (a := .container 1)
    (by decide +kernel)
  have hkey := run_eq_ok (x := eval ofStore none next)
    (s := ((eval ofStore none row).run.run s).2) (a := .int 1) (by decide +kernel)
  have hplace := h none (.index row next .none) s _ _ ⟨"a", rfl, by decide⟩ (.index hrow hkey)
  have hother : ((placeWith ofStore none Expr.pureConstant? (.index row next .none)).run.run
      s).1.toOption = some (.key 2 (.index 0)) := by decide +kernel
  rw [hplace] at hother
  exact absurd hother (by decide +kernel)

end Evaluation
end TargetView
